import OutlineIndex.Data.Toml.Reader
import OutlineIndex.Text.Printable

namespace OutlineIndex.Toml

def hexText (width n : Nat) : List Char :=
  (List.range width).reverse.map fun i => Json.hexChar (n / Nat.pow 16 i % 16)

/-- A character between double quotes. -/
def escape (c : Char) : List Char :=
  match c with
  | '"' => ['\\', '"']
  | '\\' => ['\\', '\\']
  | '\n' => ['\\', 'n']
  | '\r' => ['\\', 'r']
  | '\t' => ['\\', 't']
  | c =>
    if Text.isPrintable c then [c]
    else if c.toNat < 0x10000 then '\\' :: 'u' :: hexText 4 c.toNat
    else '\\' :: 'U' :: hexText 8 c.toNat

def quote (s : String) : String := String.ofList ('"' :: s.toList.flatMap escape ++ ['"'])

def keyText (k : String) : String :=
  if k ≠ "" && k.toList.all fun c => c.isAlphanum || c = '_' || c = '-' then k else quote k

/-- The exponent of a number has no leading zero. -/
def realText (x : Decimal) : String := (x.text.replace "e+0" "e+").replace "e-0" "e-"

mutual

def valueText : Data → String
  | .null => "null"
  | .flag b => if b then "true" else "false"
  | .whole n => toString n
  | .real x => realText x
  | .unbounded name => Data.unboundedText name
  | .text s => quote s
  | .list items => "[" ++ itemsText items ++ "]"
  | .record _ => ""

def itemsText : List Data → String
  | [] => ""
  | v :: rest => " " ++ valueText v ++ "," ++ itemsText rest

end

def isRecord : Data → Bool
  | .record _ => true
  | _ => false

/-- A table under its full name. -/
abbrev Section := String × Fields

/-- The tables directly inside a table, by their keys. -/
def sectionsOf (fs : Fields) : List Section :=
  fs.filterMap fun
    | (k, .record sub) => some (keyText k, sub)
    | _ => none

def under (name : String) (s : Section) : Section := (name ++ "." ++ s.1, s.2)

/-- The lines of the plain values of a table. -/
def plainText (fs : Fields) : String :=
  String.join (fs.map fun (k, v) =>
    match v with
    | .null => ""
    | .record _ => ""
    | .list items => if items.any isRecord then "" else keyText k ++ " = " ++ valueText (.list items) ++ "\n"
    | v => keyText k ++ " = " ++ valueText v ++ "\n")

mutual

/-- The text of a table under a name, without the tables directly inside it. -/
def bodyText : Nat → String → Fields → String
  | 0, _, _ => ""
  | fuel + 1, name, fs => plainText fs ++ arraysText fuel name fs

/-- The arrays of tables in a table. -/
def arraysText : Nat → String → Fields → String
  | 0, _, _ => ""
  | fuel + 1, name, fs =>
    String.join (fs.map fun (k, v) =>
      match v with
      | .list items =>
        if items.any isRecord then
          let own := (if name = "" then "" else name ++ ".") ++ keyText k
          String.join (items.map fun
            | .record sub =>
              let body := bodyText fuel own sub
              let nested := nestedText fuel ((sectionsOf sub).map (under own))
              if body.startsWith "[" then "[[" ++ own ++ "]]\n" ++ "\n" ++ body ++ nested
              else "[[" ++ own ++ "]]\n" ++ body ++ "\n" ++ nested
            | _ => "")
        else ""
      | _ => "")

/-- The tables inside one table of an array, level by level. -/
def nestedText : Nat → List Section → String
  | 0, _ => ""
  | fuel + 1, sections =>
    if sections.isEmpty then ""
    else
      String.join (sections.map fun (n, fs) =>
        let body := bodyText fuel n fs
        if body = "" then "" else "[" ++ n ++ "]\n" ++ body) ++
      nestedText fuel (sections.flatMap fun (n, fs) => (sectionsOf fs).map (under n))

end

/-- A heading is set off by an empty line. -/
def separator (before : String) : String :=
  if before = "" || before.endsWith "\n\n" then "" else "\n"

/-- A table under its heading; one that only holds other tables has none. -/
def sectionText (fuel : Nat) (before : String) (s : Section) : String :=
  let body := bodyText fuel s.1 s.2
  if body = "" && !(sectionsOf s.2).isEmpty then before
  else before ++ separator before ++ "[" ++ s.1 ++ "]\n" ++ body

/-- The tables of one level, then those inside them. -/
def levelsText : Nat → String → List Section → String
  | 0, before, _ => before
  | fuel + 1, before, sections =>
    if sections.isEmpty then before
    else
      levelsText fuel (sections.foldl (sectionText fuel) before)
        (sections.flatMap fun s => (sectionsOf s.2).map (under s.1))

mutual

/-- How deep a value is nested. -/
def depth : Data → Nat
  | .list items => depthAll items + 1
  | .record fields => depthFields fields + 1
  | _ => 1

def depthAll : List Data → Nat
  | [] => 0
  | v :: rest => max (depth v) (depthAll rest)

def depthFields : List (String × Data) → Nat
  | [] => 0
  | (_, v) :: rest => max (depth v) (depthFields rest)

end

/-- A record as a text of its own. -/
def print (fs : Fields) : String :=
  let fuel := 4 * depth (.record fs) + 4
  levelsText fuel (bodyText fuel "" fs) (sectionsOf fs)

/-- A way to read and to write records. -/
structure Codec where
  read? : List Char → Option Fields
  print : Fields → String

def Codec.standard : Codec := ⟨Toml.read?, Toml.print⟩

end OutlineIndex.Toml
