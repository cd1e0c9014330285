namespace OutlineIndex.Source.Quoted

/-- The text up to and with the closing quote, what is left, and whether a closing quote was found. -/
structure Scan where
  taken : List Char
  rest : List Char
  closed : Bool

def Scan.cons (c : Char) (s : Scan) : Scan := { s with taken := c :: s.taken }

/-- The rest of a one-line literal; a line feed ends it unclosed. -/
def single (quote : Char) : List Char → Scan
  | [] => ⟨[], [], false⟩
  | '\\' :: c :: rest => ((single quote rest).cons c).cons '\\'
  | c :: rest =>
    if c = quote then ⟨[c], rest, true⟩
    else if c = '\n' then ⟨[], c :: rest, false⟩
    else (single quote rest).cons c

/-- The rest of a literal between triple quotes. -/
def triple (quote : Char) : List Char → Scan
  | [] => ⟨[], [], false⟩
  | '\\' :: c :: rest => ((triple quote rest).cons c).cons '\\'
  | a :: b :: c :: rest =>
    if a = quote && b = quote && c = quote then ⟨[a, b, c], rest, true⟩
    else (triple quote (b :: c :: rest)).cons a
  | c :: rest => (triple quote rest).cons c

/-- Scans from the opening quote. -/
def scan (s : List Char) : Scan :=
  match s with
  | a :: b :: c :: rest =>
    if a = b && b = c then (((triple a rest).cons c).cons b).cons a
    else (single a (b :: c :: rest)).cons a
  | a :: rest => (single a rest).cons a
  | [] => ⟨[], [], false⟩

/-- What encloses the text at hand: a literal, a braced expression inside one, the format behind such
an expression, or a comment in it. -/
inductive Frame where
  | literal (quote : Char) (long : Bool) (braces : Bool)
  | braced (depth : Nat)
  | format
  | comment

def isLetter (c : Char) : Bool := c.isAlphanum || c == '_' || 128 ≤ c.toNat

/-- Whether letters right before a quote let the literal hold braced expressions. -/
def isFormatted (word : List Char) : Bool :=
  let w := word.map Char.toLower
  (w.all fun c => ['r', 'u', 'b', 'f', 't'].contains c) && w.any fun c => c == 'f' || c == 't'

/-- Scans with the frames still open; `word` holds the letters just read, last one first. -/
def nested : Nat → List Frame → List Char → List Char → Scan
  | 0, _, _, s => ⟨[], s, false⟩
  | _, [], _, s => ⟨[], s, true⟩
  | _, _, _, [] => ⟨[], [], false⟩
  | fuel + 1, .literal quote long braces :: frames, _, c :: rest =>
    if c = '\\' then match rest with
      | d :: more =>
        if braces && d = '\x7b' then (nested fuel (.literal quote long braces :: frames) [] rest).cons c
        else ((nested fuel (.literal quote long braces :: frames) [] more).cons d).cons c
      | [] => ⟨[c], [], false⟩
    else if braces && c = '\x7b' then
      if rest.head? = some '\x7b' then
        ((nested fuel (.literal quote long braces :: frames) [] rest.tail).cons '\x7b').cons c
      else (nested fuel (.braced 0 :: .literal quote long braces :: frames) [] rest).cons c
    else if c = quote then
      if !long then (nested fuel frames [] rest).cons c
      else match rest with
        | d :: e :: more =>
          if d = quote && e = quote then (((nested fuel frames [] more).cons e).cons d).cons c
          else (nested fuel (.literal quote long braces :: frames) [] rest).cons c
        | _ => (nested fuel (.literal quote long braces :: frames) [] rest).cons c
    else if c = '\n' && !long then ⟨[], c :: rest, false⟩
    else (nested fuel (.literal quote long braces :: frames) [] rest).cons c
  | fuel + 1, .braced depth :: frames, word, c :: rest =>
    if c = '"' || c = '\'' then
      match rest with
      | d :: e :: more =>
        if d = c && e = c then
          (((nested fuel (.literal c true (isFormatted word) :: .braced depth :: frames) [] more).cons
            e).cons d).cons c
        else (nested fuel (.literal c false (isFormatted word) :: .braced depth :: frames) [] rest).cons c
      | _ => (nested fuel (.literal c false (isFormatted word) :: .braced depth :: frames) [] rest).cons c
    else if c = '(' || c = '[' || c = '\x7b' then
      (nested fuel (.braced (depth + 1) :: frames) [] rest).cons c
    else if c = ')' || c = ']' || c = '\x7d' then
      if depth = 0 then (nested fuel frames [] rest).cons c
      else (nested fuel (.braced (depth - 1) :: frames) [] rest).cons c
    else if c = ':' && depth = 0 then (nested fuel (.format :: frames) [] rest).cons c
    else if c = '#' then (nested fuel (.comment :: .braced depth :: frames) [] rest).cons c
    else (nested fuel (.braced depth :: frames) (if isLetter c then c :: word else []) rest).cons c
  | fuel + 1, .format :: frames, _, c :: rest =>
    if c = '\x7b' then (nested fuel (.braced 0 :: .format :: frames) [] rest).cons c
    else if c = '\x7d' then (nested fuel frames [] rest).cons c
    else (nested fuel (.format :: frames) [] rest).cons c
  | fuel + 1, .comment :: frames, _, c :: rest =>
    (nested fuel (if c = '\n' then frames else .comment :: frames) [] rest).cons c

/-- Scans from the opening quote, braces opening expressions. -/
def scanNested (s : List Char) : Scan :=
  match s with
  | a :: b :: c :: rest =>
    if a = b && b = c then
      (((nested s.length [.literal a true true] [] rest).cons c).cons b).cons a
    else (nested s.length [.literal a false true] [] (b :: c :: rest)).cons a
  | a :: rest => (nested s.length [.literal a false true] [] rest).cons a
  | [] => ⟨[], [], false⟩

end OutlineIndex.Source.Quoted
