import OutlineIndex.Failure
import OutlineIndex.Text.Blank
import OutlineIndex.Text.Lower

namespace OutlineIndex.Markup

inductive Token where
  | text (s : List Char)
  | tag (name : List Char)
  deriving DecidableEq, Repr

def opensTag (c : Char) : Bool := ('a' ≤ c && c ≤ 'z') || c = '#' || c = '/' || c = '@'

/-- The content of a tag whose bracket has been read, and what follows it. -/
def tag? (s : List Char) : Option (List Char × List Char) :=
  let body := s.takeWhile fun c => c ≠ ']' && c ≠ '['
  match body, s.drop body.length with
  | c :: _, ']' :: rest => if opensTag c then some (body, rest) else none
  | _, _ => none

/-- Splits at tags. Of the backslashes before a tag every second one is shown; before any other
bracket the last one is not. -/
def tokens : Nat → List Char → List Token
  | 0, _ => []
  | _ + 1, [] => []
  | fuel + 1, s =>
    let slashes := (s.takeWhile (· = '\\')).length
    match s.drop slashes with
    | '[' :: rest =>
      match tag? rest with
      | some (body, rest) =>
        let shown := List.replicate (slashes / 2) '\\'
        if slashes % 2 = 0 then .text shown :: .tag body :: tokens fuel rest
        else .text (shown ++ '[' :: body ++ [']']) :: tokens fuel rest
      | none => .text (List.replicate (slashes - 1) '\\' ++ ['[']) :: tokens fuel rest
    | c :: rest => .text (List.replicate slashes '\\' ++ [c]) :: tokens fuel rest
    | [] => [.text (List.replicate slashes '\\')]

/-- Names that stand for others. -/
def aliases : List (String × String) :=
  [("b", "bold"), ("c", "conceal"), ("d", "dim"), ("i", "italic"), ("o", "overline"), ("r", "reverse"),
    ("s", "strike"), ("u", "underline"), ("uu", "underline2")]

def normal (name : List Char) : String :=
  let n := String.ofList (Text.lower (Text.trim name))
  ((aliases.find? (·.1 == n)).map (·.2)).getD n

/-- Closes the last open tag of a name, or the last one for an empty name. -/
def close? (openTags : List String) (name : String) : Option (List String) :=
  if name = "" then openTags.tail?
  else if openTags.contains name then some (openTags.erase name) else none

def showTokens : List String → List Token → Except Failure (List Char)
  | _, [] => .ok []
  | openTags, .text s :: rest => do return s ++ (← showTokens openTags rest)
  | openTags, .tag body :: rest =>
    let name := body.takeWhile (· ≠ '=')
    match name with
    | '/' :: closing =>
      match close? openTags (normal closing) with
      | some openTags => showTokens openTags rest
      | none => .error (.markup (String.ofList name))
    | _ => showTokens (normal name :: openTags) rest

/-- Characters that would move the cursor are not shown. -/
def isShown (c : Char) : Bool := c.toNat ≠ 7 && c.toNat ≠ 8 && !(11 ≤ c.toNat && c.toNat ≤ 13)

/-- A text without its tags. -/
def plain (s : String) : Except Failure String := do
  return String.ofList ((← showTokens [] (tokens (s.length + 1) s.toList)).filter isShown)

end OutlineIndex.Markup
