import OutlineIndex.Command.Run
import OutlineIndex.Data.Json

namespace OutlineIndex.Machine

/-- Puts a file with its text into a tree; what cannot be put there is left out. -/
def place (env : Environment) (e : String × Data) : Environment :=
  match e.2.text? with
  | some text =>
    let path := Settings.place env (Path.ofString e.1)
    { env with files := (env.files.writeText path text).toOption.getD env.files }
  | none => env

/-- The files of a record, below the directory where commands run. -/
def filesOf (v : Data) : List (String × Data) :=
  match v.field? "files" with
  | some (.record fields) => fields
  | _ => []

def ofData (backend : Backend) (toml : Toml.Codec) (cwd home : String) (baseVariable : Option String)
    (v : Data) : Machine :=
  let cwd := Path.ofString cwd
  let env : Environment := ⟨FileTree.empty.makeDirectory cwd.parts, cwd, Path.ofString home, baseVariable, toml⟩
  ⟨(filesOf v).foldl place env, .empty, fun _ => .unreachable, backend⟩

def answersOf (v : Data) : String := ((v.field? "input").bind Data.text?).getD ""

end OutlineIndex.Machine
