import OutlineIndex.Text.Lines

namespace OutlineIndex.Source.Number

/-- A scanned piece: what was taken, what is left, and whether the piece is well formed. -/
structure Scan where
  taken : List Char
  rest : List Char
  ok : Bool

def isHexDigit (c : Char) : Bool := c.isDigit || ('a' ≤ c && c ≤ 'f') || ('A' ≤ c && c ≤ 'F')

def isOctalDigit (c : Char) : Bool := '0' ≤ c && c ≤ '7'

def isBinaryDigit (c : Char) : Bool := c == '0' || c == '1'

/-- Underscores stand singly between digits. -/
def grouped (run : List Char) : Bool := (Text.split '_' run).all (· ≠ [])

def digits (isDigit : Char → Bool) (s : List Char) : Scan :=
  let inRun := fun c => isDigit c || c == '_'
  let run := s.takeWhile inRun
  ⟨run, s.dropWhile inRun, grouped run⟩

def isWordChar (c : Char) : Bool := c.isAlphanum || c == '_' || 128 ≤ c.toNat

/-- Words that may follow a number without a blank. -/
def followers : List (List Char) :=
  ["and", "else", "for", "if", "in", "is", "or", "not"].map String.toList

/-- Whether a number may end before this text. -/
def mayEnd (s : List Char) : Bool :=
  match s with
  | [] => true
  | c :: _ => !isWordChar c || followers.any (·.isPrefixOf s)

/-- Digits of another base than ten, after its mark; one underscore may come first. -/
def based (isDigit : Char → Bool) (mark : List Char) (s : List Char) : Scan :=
  let run := digits isDigit s
  let core := if run.taken.head? = some '_' then run.taken.tail else run.taken
  ⟨mark ++ run.taken, run.rest, grouped core && mayEnd run.rest⟩

def fraction (s : List Char) : Scan :=
  match s with
  | '.' :: rest =>
    if (rest.head?.map Char.isDigit).getD false then
      let run := digits Char.isDigit rest
      ⟨'.' :: run.taken, run.rest, run.ok⟩
    else ⟨['.'], rest, true⟩
  | _ => ⟨[], s, true⟩

/-- An exponent needs digits; with a sign and no digits it is ill formed, with neither it is none. -/
def exponent (s : List Char) : Scan :=
  let startsDigit := fun (t : List Char) => (t.head?.map Char.isDigit).getD false
  match s with
  | e :: rest =>
    if e ≠ 'e' && e ≠ 'E' then ⟨[], s, true⟩
    else match rest with
      | c :: more =>
        if c = '+' || c = '-' then
          if startsDigit more then
            let run := digits Char.isDigit more
            ⟨e :: c :: run.taken, run.rest, run.ok⟩
          else ⟨[e, c], more, false⟩
        else if c.isDigit then
          let run := digits Char.isDigit rest
          ⟨e :: run.taken, run.rest, run.ok⟩
        else ⟨[], s, true⟩
      | [] => ⟨[], s, true⟩
  | [] => ⟨[], s, true⟩

def imaginary (s : List Char) : Scan :=
  match s with
  | 'j' :: rest => ⟨['j'], rest, true⟩
  | 'J' :: rest => ⟨['J'], rest, true⟩
  | _ => ⟨[], s, true⟩

def decimal (s : List Char) : Scan :=
  let whole := if s.head? = some '.' then ⟨[], s, true⟩ else digits Char.isDigit s
  let frac := fraction whole.rest
  let exp := exponent frac.rest
  let imag := imaginary exp.rest
  let isPlain := frac.taken = [] && exp.taken = [] && imag.taken = []
  let leadingZero := whole.taken.head? = some '0' && whole.taken.any fun c => c ≠ '0' && c ≠ '_'
  ⟨whole.taken ++ frac.taken ++ exp.taken ++ imag.taken, imag.rest,
    whole.ok && frac.ok && exp.ok && !(isPlain && leadingZero) && mayEnd imag.rest⟩

/-- Scans a text that starts with a digit, or with a point and a digit. -/
def scan (s : List Char) : Scan :=
  match s with
  | '0' :: x :: rest =>
    if x = 'x' || x = 'X' then based isHexDigit ['0', x] rest
    else if x = 'o' || x = 'O' then based isOctalDigit ['0', x] rest
    else if x = 'b' || x = 'B' then based isBinaryDigit ['0', x] rest
    else decimal s
  | _ => decimal s

end OutlineIndex.Source.Number
