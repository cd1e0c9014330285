import OutlineIndex.Decimal
import OutlineIndex.Table

namespace OutlineIndex

inductive Data where
  | null
  | flag (b : Bool)
  | whole (n : Int)
  | real (x : Decimal)
  | unbounded (name : String)
  | text (s : String)
  | list (items : List Data)
  | record (fields : List (String × Data))
  deriving Repr, Inhabited

namespace Data

/-- Whether a value counts as present: not null, false, zero or empty. -/
def holds : Data → Bool
  | .null => false
  | .flag b => b
  | .whole n => n ≠ 0
  | .real x => x.digits ≠ 0
  | .unbounded _ => true
  | .text s => s ≠ ""
  | .list items => !items.isEmpty
  | .record fields => !fields.isEmpty

/-- The first of two values if it counts as present. -/
def orElse (a b : Data) : Data := if a.holds then a else b

def field? (name : String) : Data → Option Data
  | .record fields => (fields.find? (·.1 == name)).map (·.2)
  | _ => none

def text? : Data → Option String
  | .text s => some s
  | _ => none

/-- Sets a field; one that is present keeps its place. -/
def putField (fields : List (String × Data)) (name : String) (v : Data) : List (String × Data) :=
  Table.putEntry fields name v

/-- How a value fails to have the shape that its use needs. -/
inductive Mismatch where
  | notARecord
  | notText
  | notAList
  | notAPair
  | notAKey
  | notIndexable
  | notAPattern
  | notShown
  deriving DecidableEq, Repr

/-- What a record has under a name, if it has it. -/
def atName (name : String) : Data → Except Mismatch (Option Data)
  | .record fields => .ok ((fields.find? (·.1 == name)).map (·.2))
  | _ => .error .notIndexable

/-- The first item of a list or text, if it has one; a record has none. -/
def atFirst : Data → Except Mismatch (Option Data)
  | .list items => .ok items.head?
  | .text s => .ok (s.toList.head?.map fun c => .text (String.ofList [c]))
  | .record _ => .ok none
  | _ => .error .notIndexable

/-- What can be gone through one by one: items, characters, or the names of fields. -/
def members : Data → Except Mismatch (List Data)
  | .list items => .ok items
  | .text s => .ok (s.toList.map fun c => .text (String.ofList [c]))
  | .record fields => .ok (fields.map fun e => .text e.1)
  | _ => .error .notAList

/-- The number nearest to a numeral. -/
def numeral (negative : Bool) (digits : Nat) (exponent : Int) : Data :=
  if (Decimal.mk negative digits exponent).magnitude.isInf then
    .unbounded (if negative then "-Infinity" else "Infinity")
  else .real (Decimal.nearest negative digits exponent)

/-- Short for what is no finite number. -/
def unboundedText (name : String) : String :=
  if name = "NaN" then "nan" else if name = "Infinity" then "inf" else "-inf"

/-- A value as a message shows it. -/
def shown : Data → String
  | .null => "None"
  | .flag b => if b then "True" else "False"
  | .whole n => toString n
  | .real x => x.text
  | .unbounded name => unboundedText name
  | .text s => s
  | .list _ => "[...]"
  | .record _ => "\x7b...\x7d"

/-- Later fields over earlier ones. -/
def overlay (base upper : List (String × Data)) : List (String × Data) :=
  upper.foldl (fun acc e => putField acc e.1 e.2) base

end Data

end OutlineIndex
