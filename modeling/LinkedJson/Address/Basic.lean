import LinkedJson.Address.Host
import LinkedJson.Address.Path

/-!
# Addresses

An address names a document: a scheme, often a host, a path, and perhaps a query and a fragment. Its
parts are kept in their normal form, so two addresses are the same when their texts are.
-/

namespace LinkedJson

/-- Who asks for a document. -/
structure Credentials where
  username : String
  password : Option String
deriving DecidableEq, Repr

/-- Where a document is kept and who asks for it. The port of the scheme is left out. -/
structure Authority where
  credentials : Option Credentials
  host : Host
  port : Option Nat
deriving DecidableEq, Repr

/-- The path of an address: segments below a root, or a text that has no structure. -/
inductive AddressPath where
  | segments (list : List String)
  | rootless (text : String)
deriving DecidableEq, Repr

/-- The address of a document or of a place in one. -/
structure Address where
  scheme : String
  authority : Option Authority
  path : AddressPath
  query : Option String
  fragment : Option String
deriving DecidableEq, Repr

def Credentials.render (credentials : Credentials) : String :=
  match credentials.password with
  | some password => credentials.username ++ ":" ++ password ++ "@"
  | none => credentials.username ++ "@"

def Authority.render (authority : Authority) : String :=
  let credentials := authority.credentials.elim "" Credentials.render
  let port := authority.port.elim "" fun port ↦ ":" ++ toString port
  "//" ++ credentials ++ authority.host.render ++ port

def Authority.ofHost (host : Host) : Authority :=
  ⟨none, host, none⟩

namespace Address

/-- The text of an address up to its path. -/
def renderStart (address : Address) : String :=
  address.scheme ++ ":" ++
    match address.authority, address.path with
    | some authority, _ => authority.render
    -- An empty segment right behind the scheme would be taken for the start of a host.
    | none, .segments ("" :: _ :: _) => "/."
    | none, _ => ""

def renderPath (address : Address) : String :=
  match address.path with
  | .segments list => Segments.render list
  | .rootless text => text

def render (address : Address) : String :=
  address.renderStart ++ address.renderPath ++
    address.query.elim "" ("?" ++ ·) ++ address.fragment.elim "" ("#" ++ ·)

def schemeClass (address : Address) : SchemeClass :=
  .ofScheme address.scheme

def segments (address : Address) : List String :=
  match address.path with
  | .segments list => list
  | .rootless _ => []

def host (address : Address) : Host :=
  address.authority.elim .empty (·.host)

/-- Whether other addresses can be given relative to an address. -/
def isBase (address : Address) : Bool :=
  match address.path with
  | .segments _ => true
  | .rootless _ => false

/-- The address of the document that holds a place. -/
def withoutFragment (address : Address) : Address :=
  -- Blanks at the end of a path without structure go with the fragment that kept them.
  let path :=
    match address.path, address.query with
    | .rootless text, none => .rootless (String.ofList (Text.trimEnd (· == ' ') text.toList))
    | path, _ => path
  { address with path, fragment := none }

end Address

end LinkedJson
