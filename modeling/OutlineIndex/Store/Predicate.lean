import OutlineIndex.Text.Lines

namespace OutlineIndex.Store

def literal (s : List Char) : List Char :=
  '\'' :: s.flatMap (fun c => if c = '\'' then ['\'', '\''] else [c]) ++ ['\'']

def literals (values : List String) : List Char :=
  Text.join [',', ' '] (values.map fun v => literal v.toList)

mutual

/-- The values of a list of literals, read to the end of the text. -/
def readLiterals? : List Char → Option (List String)
  | ' ' :: rest => readLiterals? rest
  | '\'' :: rest => do
    let (s, values) ← readOpened? rest
    return String.ofList s :: values
  | _ => none

/-- The text of a literal whose opening quote has been read, and the values after it. -/
def readOpened? : List Char → Option (List Char × List String)
  | [] => none
  | ['\''] => return ([], [])
  | '\'' :: ',' :: rest => return ([], ← readLiterals? rest)
  | '\'' :: '\'' :: rest => do
    let (s, values) ← readOpened? rest
    return ('\'' :: s, values)
  | c :: rest =>
    if c = '\'' then none
    else do
      let (s, values) ← readOpened? rest
      return (c :: s, values)

end

inductive Column where
  | id
  | filePath
  deriving DecidableEq, Repr

def Column.name : Column → String
  | .id => "id"
  | .filePath => "file_path"

structure Predicate where
  column : Column
  values : List String
  deriving DecidableEq, Repr

def Predicate.text (p : Predicate) : String :=
  p.column.name ++ " IN (" ++ String.ofList (literals p.values) ++ ")"

end OutlineIndex.Store
