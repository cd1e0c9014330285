import OutlineIndex.Document

namespace OutlineIndex

inductive NodeKind where
  | module
  | classDef
  | function
  | named (label : String)
  deriving DecidableEq, Repr

namespace NodeKind

def label : NodeKind → String
  | .module => "module"
  | .classDef => "class"
  | .function => "function"
  | .named l => l

def ofLabel (l : String) : NodeKind :=
  if l = "module" then .module
  else if l = "class" then .classDef
  else if l = "function" then .function
  else .named l

end NodeKind

structure Node where
  id : String
  uri : String
  span : Span
  parent : Option String
  kind : NodeKind
  name : String
  deriving DecidableEq, Repr

end OutlineIndex
