import OutlineIndex.Node

namespace OutlineIndex.Skeleton

def dependencyLine (n : Node) : String := "- " ++ n.kind.label ++ " " ++ n.name ++ " (" ++ n.uri ++ ")"

def dependencies : List Node → String
  | [] => ""
  | ns => "Depends on:\n" ++ "\n".intercalate (ns.map dependencyLine) ++ "\n"

def prompt (filePath : String) (n : Node) (code : String) (related : List Node) : String :=
  "You are condensing source code into a searchable skeleton.\n\n" ++
  "File: " ++ filePath ++ "\n" ++
  "Symbol: " ++ n.kind.label ++ " " ++ (if n.name = "" then "<module>" else n.name) ++ "\n" ++
  dependencies related ++ "\n" ++
  "Rewrite the code below as a skeleton: keep signatures, class and function\n" ++
  "names, parameters, return types and a one-line description of what each\n" ++
  "part does. Drop implementation details. Nested sections that are already\n" ++
  "condensed must be kept as they are. Reply with the skeleton only.\n\n" ++
  "\x60\x60\x60\n" ++ code ++ "\n\x60\x60\x60\n"

end OutlineIndex.Skeleton
