import LinkedJson.Server.Transport

/-!
# The command line

The server talks to its editor on standard input and output. Its log goes to a file in the data
directory, unless another file is named.
-/

namespace LinkedJson.CommandLine

/-- What the arguments ask for. -/
inductive Request where
  | serve (logFile : Option String)
  | version
  | unclear (argument : String)
deriving Repr

def Request.ofArguments : List String → Request
  | [] => .serve none
  | "--version" :: _ => .version
  | "-V" :: _ => .version
  | "--stdio" :: rest => ofArguments rest
  | "--log-file" :: path :: rest =>
    match ofArguments rest with
    | .serve none => .serve (some path)
    | request => request
  | argument :: _ => .unclear argument

/-- Reads lines of a header up to the empty one, and returns the length they give. There is none
when the input has ended. -/
partial def readHeader (input : IO.FS.Stream) (length : Nat) : IO (Option Nat) := do
  let line ← input.getLine
  if line.isEmpty then
    return none
  else if line == "\r\n" || line == "\n" then
    return some length
  else
    readHeader input ((Server.headerLength? line).getD length)

/-- Reads a number of bytes, or fewer where the input ends. -/
partial def readBytes (input : IO.FS.Stream) (count : Nat) (bytes : ByteArray) :
    IO ByteArray := do
  if count ≤ bytes.size then
    return bytes
  else
    let more ← input.read (count - bytes.size).toUSize
    if more.isEmpty then return bytes else readBytes input count (bytes ++ more)

/-- Serves messages until the input ends or the session is over. -/
partial def serve (input output : IO.FS.Stream) (note : String → IO Unit)
    (session : Server.Session) : IO Unit := do
  match ← readHeader input 0 with
  | none => return
  | some length =>
    let bytes ← readBytes input length .empty
    let text := (String.fromUTF8? bytes).getD ""
    let (session, values) := session.receive (Recovery.reader fun _ ↦ none) text
    for value in values do
      note value.render
      output.putStr (Server.frame value)
    output.flush
    if session.stage != .exited then
      serve input output note session

def appendLine (path line : String) : IO Unit := do
  let handle ← IO.FS.Handle.mk path .append
  handle.putStrLn line

/-- Runs the server on a log file. -/
def runServer (logFile : Option String) : IO Unit := do
  let environment : DataDirectory.Environment :=
    ⟨← IO.getEnv "HOME", ← IO.getEnv "XDG_DATA_HOME"⟩
  if logFile.isNone then
    IO.FS.createDirAll (DataDirectory.path environment)
  let log := logFile.getD (DataDirectory.logPath environment)
  serve (← IO.getStdin) (← IO.getStdout) (appendLine log) .start

def run (arguments : List String) : IO UInt32 := do
  match Request.ofArguments arguments with
  | .serve logFile =>
    runServer logFile
    return 0
  | .version =>
    IO.println (serverName ++ " " ++ serverVersion)
    return 0
  | .unclear argument =>
    IO.eprintln ("error: unexpected argument '" ++ argument ++ "' found")
    return 2

end LinkedJson.CommandLine

/-- Runs the server, or tells its version. -/
def main (arguments : List String) : IO UInt32 :=
  LinkedJson.CommandLine.run arguments
