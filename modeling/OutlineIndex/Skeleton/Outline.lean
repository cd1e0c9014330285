import OutlineIndex.Text.Lines

namespace OutlineIndex.Skeleton

def maxLines : Nat := 200

def depthAfter (depth : Int) (line : List Char) : Int :=
  line.foldl (fun d c =>
    if c = '(' || c = '[' || c = '\x7b' then d + 1
    else if c = ')' || c = ']' || c = '\x7d' then d - 1
    else d) depth

/-- Whether a line, taken up to a hash sign, closes a signature. -/
def closesSignature (line : List Char) : Bool :=
  let code := Text.trimRight (line.takeWhile (· ≠ '#'))
  code.getLast? = some ':' && (Text.trimLeft code).head? ≠ some '@'

/-- The index of the first line that ends in a colon outside brackets and is no decorator. -/
def signatureEnd? : Int → List (List Char) → Option Nat
  | _, [] => none
  | depth, line :: rest =>
    let depth := depthAfter depth line
    if depth ≤ 0 && closesSignature line then some 0 else (signatureEnd? depth rest).map (· + 1)

def signatureEnd (lines : List (List Char)) : Nat := (signatureEnd? 0 lines).getD 0

def startsWith (s t : List Char) : Bool := s.isPrefixOf t

/-- The quotes that open a docstring at the start of a line without its indentation. -/
def openingQuotes? (s : List Char) : Option (List Char) :=
  let quotes : List Char → Option (List Char)
    | '"' :: '"' :: '"' :: _ => some ['"', '"', '"']
    | '\'' :: '\'' :: '\'' :: _ => some ['\'', '\'', '\'']
    | '"' :: _ => some ['"']
    | '\'' :: _ => some ['\'']
    | _ => none
  match s with
  | c :: rest => if ['r', 'R', 'b', 'B', 'u', 'U'].contains c then quotes rest else quotes s
  | [] => none

/-- The text before the first occurrence of `mark`, or all of it. -/
def upTo (mark : List Char) : List Char → List Char
  | [] => []
  | c :: rest => if startsWith mark (c :: rest) then [] else c :: upTo mark rest

/-- The text after the first occurrence of `mark`. -/
def after (mark : List Char) (s : List Char) : List Char := s.drop ((upTo mark s).length + mark.length)

/-- A docstring cut to its first line and closed again. -/
def docstringLine (line quotes : List Char) : List Char :=
  quotes ++ Text.trim (upTo quotes (after quotes (Text.trim line))) ++ quotes

/-- The lines below a signature: the docstring's first line and an ellipsis, at the indentation of
the first line that is not blank. -/
def bodyLines (rest : List (List Char)) : List (List Char) :=
  match rest.find? (!Text.blank ·) with
  | none => []
  | some line =>
    let indent := line.take (line.length - (Text.trimLeft line).length)
    let doc := (openingQuotes? (Text.trimLeft line)).map (docstringLine line)
    doc.toList.map (indent ++ ·) ++ [indent ++ ['.', '.', '.']]

def outlineLines (lines : List (List Char)) : List (List Char) :=
  let stop := signatureEnd lines + 1
  lines.take stop ++ bodyLines (lines.drop stop)

/-- The outline of a function's text. -/
def outlineFunction (code : List Char) : List Char := Text.join ['\n'] (outlineLines (Text.lines code))

def truncate (text : List Char) : List Char :=
  let lines := Text.lines text
  if lines.length ≤ maxLines then text
  else Text.join ['\n'] (lines.take maxLines ++ ["# ...".toList])

/-- Takes a reply out of the fences of a code block. -/
def stripFences (text : List Char) : List Char :=
  let stripped := Text.trim text
  let fence := ['\x60', '\x60', '\x60']
  if startsWith fence stripped then
    let lines := (Text.lines stripped).drop 1
    let closed := match lines.getLast? with
      | some l => startsWith fence (Text.trim l)
      | none => false
    Text.join ['\n'] (if closed then lines.dropLast else lines)
  else stripped

end OutlineIndex.Skeleton
