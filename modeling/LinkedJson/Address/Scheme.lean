/-!
# Schemes

The scheme of an address decides how the rest of it is read. Some schemes are special: they need a
host, know a port of their own and take a backslash for a slash. Files are special in other ways.
-/

namespace LinkedJson

/-- How the scheme of an address is treated. -/
inductive SchemeClass where
  | file
  | special
  | other
deriving DecidableEq, Repr

namespace SchemeClass

def ofScheme (scheme : String) : SchemeClass :=
  if scheme = "file" then .file
  else if scheme ∈ ["http", "https", "ws", "wss", "ftp"] then .special
  else .other

def isSpecial (kind : SchemeClass) : Bool :=
  kind != .other

/-- What divides the segments of a path; a backslash does so only with special schemes. -/
def isSeparator (kind : SchemeClass) (c : Char) : Bool :=
  c == '/' || (kind.isSpecial && c == '\\')

end SchemeClass

/-- The port that goes without saying. -/
def Scheme.defaultPort (scheme : String) : Option Nat :=
  if scheme = "http" ∨ scheme = "ws" then some 80
  else if scheme = "https" ∨ scheme = "wss" then some 443
  else if scheme = "ftp" then some 21
  else none

end LinkedJson
