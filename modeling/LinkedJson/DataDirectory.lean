/-!
# The data directory

The server keeps its log in a directory of its own. It lies in the user's data directory, which the
environment names, else below the home directory, else in the working directory.
-/

namespace LinkedJson

def serverName : String := "jref-lsp"

def serverVersion : String := "0.1.0"

namespace DataDirectory

/-- A relative path below another. -/
def below (directory name : String) : String :=
  if directory.isEmpty || directory.toList.getLast? == some '/' then directory ++ name
  else directory ++ "/" ++ name

structure Environment where
  home : Option String
  dataHome : Option String
deriving Repr

/-- The directory that holds the data of all programs. -/
def parent (environment : Environment) : String :=
  match environment.dataHome.filter (!·.isEmpty), environment.home with
  | some directory, _ => directory
  | none, some home => below home ".local/share"
  | none, none => "."

def path (environment : Environment) : String :=
  below (parent environment) serverName

/-- The file that holds the log of the server. -/
def logPath (environment : Environment) : String :=
  below (path environment) (serverName ++ ".log")

end DataDirectory

end LinkedJson
