import OutlineIndex.Command.Arguments
import OutlineIndex.Settings.Sections

namespace OutlineIndex

inductive Command where
  | version
  | help
  | index (workspace : String) (paths : List String) (full : Bool) (filter : String) (exclude : List String)
  | remove (workspace file : String)
  | status (workspace : String)
  | search (workspace query : String) (limit : Int)
  | clear (workspace : String) (confirmed : Bool)
  | watch (path : String) (interval : Data)
  | setFilter (pattern : String) (exclude : List String)
  | setModel (provider model key endpoint : String)
  | settings

namespace Command

open Arguments

def helpOption : Spec := ⟨"help", ["--help"], false⟩

def workspaceOption : Spec := ⟨"workspace", ["--workspace", "-w"], true⟩

def excludeOption : Spec := ⟨"exclude", ["--exclude", "-x"], true⟩

def mainOptions : List Spec :=
  [helpOption, ⟨"verbose", ["--verbose", "-V"], false⟩, ⟨"version", ["--version", "-v"], false⟩]

def workspaceOf (p : Parsed) : String := (p.last? "workspace").getD "."

def valueOf (p : Parsed) (key : String) : String := (p.last? key).getD ""

/-- A command with its options and the command it spells. -/
structure Form where
  name : String
  options : List Spec
  command? : Parsed → Option Command

/-- How many skeletons a search may ask for. -/
def isLimit (n : Int) : Bool := 1 ≤ n && n ≤ 30

def indexForm : Form where
  name := "index"
  options := [workspaceOption, excludeOption, ⟨"full", ["--full"], false⟩, ⟨"filter", ["--filter", "-f"], true⟩]
  command? p := some (.index (workspaceOf p) p.words (p.has "full") (valueOf p "filter") (p.every "exclude"))

def removeForm : Form where
  name := "remove"
  options := [workspaceOption]
  command? p := match p.words with
    | [file] => some (.remove (workspaceOf p) file)
    | _ => none

def statusForm : Form where
  name := "status"
  options := [workspaceOption]
  command? p := if p.words.isEmpty then some (.status (workspaceOf p)) else none

def searchForm : Form where
  name := "search"
  options := [workspaceOption, ⟨"limit", ["--top-k"], true⟩]
  command? p := do
    let limit ← match p.last? "limit" with
      | some s => (whole? s).filter isLimit
      | none => some 5
    match p.words with
    | [query] => return .search (workspaceOf p) query limit
    | _ => none

def clearForm : Form where
  name := "clear"
  options := [workspaceOption, ⟨"yes", ["--yes", "-y"], false⟩]
  command? p := if p.words.isEmpty then some (.clear (workspaceOf p) (p.has "yes")) else none

def watchForm : Form where
  name := "watch"
  options := [⟨"interval", ["--interval", "-i"], true⟩]
  command? p := do
    let interval ← match p.last? "interval" with
      | some s => real? s
      | none => some (.numeral false 2 0)
    match p.words with
    | [] => return .watch "." interval
    | [path] => return .watch path interval
    | _ => none

def setFilterForm : Form where
  name := "set-filter"
  options := [excludeOption]
  command? p := match p.words with
    | [pattern] => some (.setFilter pattern (p.every "exclude"))
    | _ => none

def setModelForm : Form where
  name := "set-llm"
  options := [⟨"model", ["--model", "-m"], true⟩, ⟨"key", ["--api-key", "-k"], true⟩,
    ⟨"endpoint", ["--endpoint", "-e"], true⟩]
  command? p := match p.words with
    | [provider] =>
      let provider := String.ofList (Text.lower provider.toList)
      if Settings.providers.any (·.1 == provider) then
        some (.setModel provider (valueOf p "model") (valueOf p "key") (valueOf p "endpoint"))
      else none
    | _ => none

def settingsForm : Form where
  name := "show"
  options := []
  command? p := if p.words.isEmpty then some .settings else none

def forms : List Form := [indexForm, removeForm, statusForm, searchForm, clearForm, watchForm]

def settingsForms : List Form := [setFilterForm, setModelForm, settingsForm]

/-- Words with the given options. -/
def words? (options : List Spec) (mixed : Bool) (words : List String) : Option Parsed :=
  Arguments.parse? options mixed (words.length + 1) words

def Form.parse? (f : Form) (words : List String) : Option Command := do
  let p ← words? (helpOption :: f.options) true words
  if p.has "help" then return .help
  f.command? p

/-- The command of a form among some, named by the first word. -/
def ofForms? (forms : List Form) : List String → Option Command
  | [] => none
  | name :: rest => do (← forms.find? (·.name == name)).parse? rest

/-- Commands on settings have a word of their own before them. -/
def ofSettings? (words : List String) : Option Command := do
  let p ← words? [helpOption] false words
  if p.has "help" then return .help
  ofForms? settingsForms p.words

def parse? (words : List String) : Option Command := do
  let p ← words? mainOptions false words
  match (p.options.map (·.1)).find? (fun k => k == "version" || k == "help") with
  | some "version" => return .version
  | some _ => return .help
  | none =>
    match p.words with
    | "config" :: rest => ofSettings? rest
    | words => ofForms? forms words

end Command

end OutlineIndex
