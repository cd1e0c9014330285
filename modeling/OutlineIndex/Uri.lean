import OutlineIndex.Path
import OutlineIndex.Uri.Host
import OutlineIndex.Uri.Percent

namespace OutlineIndex

namespace Uri

inductive Error where
  | unsupported (uri : String)
  | badHost
  | nulInPath
  deriving DecidableEq, Repr

def Error.message : Error → String
  | .unsupported uri => "Unsupported document URI: " ++ uri
  | .badHost => "invalid host"
  | .nulInPath => "embedded null byte"

def schemeMark : List Char := "file://".toList

/-- Leading control characters and blanks go, and tabs and line ends anywhere. -/
def clean (s : List Char) : List Char :=
  (s.dropWhile (·.toNat ≤ 0x20)).filter fun c => c ≠ '\t' && c ≠ '\r' && c ≠ '\n'

def isSchemeChar (c : Char) : Bool := c.isAlphanum || c == '+' || c == '-' || c == '.'

structure Parts where
  scheme : List Char
  host : List Char
  path : List Char

/-- Scheme, host and path; query and fragment are cut off. -/
def split (s : List Char) : Parts :=
  let s := clean s
  let head := s.takeWhile (· ≠ ':')
  let hasScheme := head.length < s.length && (head.head?.map Char.isAlpha).getD false &&
    head.all isSchemeChar
  let scheme := if hasScheme then head.map Char.toLower else []
  let rest := if hasScheme then s.drop (head.length + 1) else s
  let isDelimiter := fun c => c == '/' || c == '?' || c == '#'
  let (host, rest) := match rest with
    | '/' :: '/' :: r => (r.takeWhile (!isDelimiter ·), r.dropWhile (!isDelimiter ·))
    | _ => ([], rest)
  ⟨scheme, host, rest.takeWhile fun c => c ≠ '#' && c ≠ '?'⟩

def toPath (uri : String) : Except Error Path :=
  let parts := split uri.toList
  if !Host.valid parts.host then .error .badHost
  else if parts.scheme = [] then .ok (Path.ofString uri)
  else if parts.scheme = "file".toList then
    .ok (Path.ofString (String.ofList (Percent.decode (Percent.decode parts.path))))
  else .error (.unsupported uri)

/-- The URI of a path that is already resolved. -/
def ofResolved (p : Path) : String := String.ofList (schemeMark ++ Percent.encode p.chars)

def ofPath (cwd p : Path) : Except Error String :=
  if p.hasNul then .error .nulInPath
  else .ok (ofResolved (Path.resolve cwd p))

/-- The slash-separated way from a workspace to a path. -/
def relativePath (cwd workspace p : Path) : String := (Path.relativeTo cwd workspace p).toString

end Uri

end OutlineIndex
