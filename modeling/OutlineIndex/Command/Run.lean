import OutlineIndex.Command
import OutlineIndex.Command.Session

namespace OutlineIndex

/-- An index as a command works with it: where it is kept, and the filters as they were set. -/
structure OpenIndex where
  directory : Path
  context : Context
  index : Index
  pattern : Data
  exclusion : List Data

namespace OpenIndex

def workspace (o : OpenIndex) : String := o.context.base.toString

/-- Keeps the store of an index on the machine. -/
def keep (o : OpenIndex) : Run Unit :=
  modify fun s => { s with machine := { s.machine with
    stores := s.machine.stores.put o.directory.toString o.index.store } }

/-- The index of a workspace as it was last saved; what is not given comes from the settings. -/
def restore (workspace : String) (filter : String) (exclude : List String) : Run OpenIndex := do
  let env ← Run.environment
  let root := Path.resolve env.cwd (Path.ofString workspace)
  let env ← Run.ofExcept (Settings.ensureBase env)
  Run.setEnvironment env
  let directory := Settings.indexDirectory env root
  let dimension ← Run.ofTraced (Settings.embeddingDimension env none)
  let choice ← Run.ofTraced (Settings.generator env none none)
  let pattern ← if filter = "" then Run.ofTraced (Settings.inclusion env) else pure (.text filter)
  let exclusion ← if exclude.isEmpty then Run.ofTraced (Settings.exclusion env)
    else pure (exclude.map .text)
  let m := (← get).machine
  let store := (m.stores.find? directory.toString).getD
    (.empty (directory.child "graph.json").toString dimension)
  let context : Context := ⟨⟨env.files, env.cwd, root⟩, m.backend, choice.generator m.post, .prompt⟩
  let index := Index.make root store (pattern.text?.getD "") (exclusion.filterMap Data.text?)
  let (index, loaded) := index.load
  let _ ← Run.ofTraced loaded
  return ⟨directory, context, index, pattern, exclusion⟩

/-- Prints a report of progress; a path that cannot be printed is noted. -/
def narrate (c : Context) (r : Report) : Run Unit := do
  Run.log [r]
  match r with
  | .processing path _ =>
    match Markup.plain ("  [dim]•[/dim] " ++ path) with
    | .ok s => Run.line s
    | .error e => Run.log [.notice (.listenerFailed path e)]
  | .removed path => Run.styled ("  [yellow]−[/yellow] " ++ c.relative (Path.ofString path))
  | _ => pure ()

/-- Takes over the outcome of an operation. Failures of indexing end the command in their own words. -/
def took {α : Type} (o : OpenIndex) (r : Index × Traced α) : Run (OpenIndex × α) := do
  let o := { o with index := r.1 }
  o.keep
  r.2.reports.forM (narrate o.context)
  match r.2.result with
  | .ok a => return (o, a)
  | .error e =>
    if e.isIndexing then
      Run.styled ("[red]✗[/red] " ++ e.message)
      Run.exit 1
    else Run.fail e

/-- The filters have to be texts before they can be matched, the exclusion first. -/
def checkFilters (o : OpenIndex) : Run Unit := do
  if o.exclusion.any (·.text?.isNone) then Run.fail (.shape .notText)
  if o.pattern.text?.isNone then Run.fail (.shape .notAPattern)

end OpenIndex

namespace Command

/-- Text for a cell of a table. -/
def cell (v : Data) : Run String :=
  match v with
  | .text s => return s
  | .null => return ""
  | _ => Run.fail (.shape .notShown)

/-- The path of a workspace may not be one of a file. -/
def checkWorkspace (workspace : String) : Run Unit := do
  let env ← Run.environment
  if env.files.isFile (Settings.place env (Path.ofString workspace)) then Run.exit 2

def runIndex (workspace : String) (paths : List String) (full : Bool) (filter : String)
    (exclude : List String) : Run Unit := do
  let o ← OpenIndex.restore workspace filter exclude
  let c := o.context
  let (o, count) ← if full || paths.isEmpty then do
      Run.styled ("[bold]Full build[/bold] of [cyan]" ++ o.workspace ++ "[/cyan]")
      o.checkFilters
      let (o, uris) ← o.took (o.index.build c)
      pure (o, uris.length)
    else do
      let uris ← Run.ofExcept ((paths.mapM fun p => Uri.ofPath c.workspace.cwd (Path.ofString p)).mapError .uri)
      let (o, _) ← o.took (o.index.process c uris false)
      pure (o, uris.length)
  Run.styled ("[green]✓[/green] Processed " ++ toString count ++ " document(s); " ++
    toString o.index.graph.files.entries.length ++ " file(s) indexed, " ++
    toString o.index.store.count ++ " skeleton(s) stored.")

def runRemove (workspace file : String) : Run Unit := do
  let o ← OpenIndex.restore workspace "" []
  let path := o.context.relative (Path.ofString file)
  if (o.index.graph.entry? path).isNone then
    Run.styled ("[yellow]![/yellow] " ++ path ++ " is not indexed.")
    Run.exit 1
  let _ ← o.took (o.index.deleteFile o.context path)
  Run.styled ("[green]✓[/green] Removed " ++ path ++ " from the index.")

def runStatus (workspace : String) : Run Unit := do
  let o ← OpenIndex.restore workspace "" []
  let pattern ← cell o.pattern
  Run.sheet ("codeskel index: " ++ o.workspace)
    [("Index dir", o.directory.toString), ("Inclusion filter", pattern),
      ("Files", toString o.index.graph.files.entries.length), ("Skeletons", toString o.index.store.count)]

/-- The most that is shown of a skeleton. -/
def snippetLength : Nat := 120

def showMatch (m : Store.Match) : Run Unit := do
  Run.line (m.row.filePath ++ ":" ++ m.row.startRange ++ "  score=" ++ scoreText m.score)
  match Text.lines (Text.trim m.row.content.toList) with
  | first :: _ => Run.line ("  " ++ String.ofList (first.take snippetLength))
  | [] => pure ()

def runSearch (workspace query : String) (limit : Int) : Run Unit := do
  let o ← OpenIndex.restore workspace "" []
  let found ← Run.ofExcept (o.index.store.search query limit)
  if found.isEmpty then Run.line "No matches found." else found.forM showMatch

def runClear (workspace : String) (confirmed : Bool) : Run Unit := do
  let o ← OpenIndex.restore workspace "" []
  let sure ← if confirmed then pure true
    else Run.confirm ("Delete the index for " ++ o.workspace ++ "?")
  if sure then
    let (store, r) := o.index.store.clear
    OpenIndex.keep { o with index := { o.index with store := store } }
    Run.ofExcept r
    Run.styled "[green]✓[/green] Index cleared."

/-- Announces what is watched; the last line closes a tag that no line of its own has opened. -/
def runWatch (path : String) (interval : Data) : Run Unit := do
  let env ← Run.environment
  let root := Path.resolve env.cwd (Path.ofString path)
  unless env.files.isDirectory root.parts do
    Run.styled ("[red]✗[/red] Path not found: " ++ (Path.ofString path).toString)
    Run.exit 1
  let o ← OpenIndex.restore root.toString "" []
  Run.styled ("\n[bold green]👀 Watching[/bold green] [cyan]" ++ root.toString ++ "[/cyan] for changes...")
  Run.styled ("[dim]  Debounce:  " ++ interval.shown ++ "s")
  Run.styled ("  Filter:    " ++ o.pattern.shown)
  Run.styled "  Press Ctrl+C to stop[/dim]\n"

/-- Reports on a change of the settings file. -/
def changed (done : Bool) (message : String) : Run Unit := do
  unless done do
    Run.styled "[red]✗[/red] Could not write configuration."
    Run.exit 1
  Run.styled ("[green]✓[/green] " ++ message)

def runSetFilter (pattern : String) (exclude : List String) : Run Unit := do
  let rules : Data := if exclude.isEmpty then .null else .list (exclude.map .text)
  let done ← Run.change fun env => Settings.modify env fun doc =>
    Settings.withIndexer doc [("inclusion_filter", .text pattern), ("exclusion_filter", rules)]
  changed done ("Inclusion filter set to [cyan]" ++ pattern ++ "[/cyan]")

def runSetModel (provider model key endpoint : String) : Run Unit := do
  let done ← Run.change fun env => Settings.modify env fun doc =>
    .ok (Settings.withLlm doc provider model key endpoint)
  changed done ("LLM provider set to [cyan]" ++ provider ++ "[/cyan]")

def runSettings : Run Unit := do
  let env ← Run.environment
  let fields ← Run.ofTraced (Settings.llmSettings env)
  let setting (name default : String) : Data := ((Data.record fields).field? name).getD (.text default)
  let provider ← cell (setting "provider" "none")
  let model ← cell ((setting "model" "").orElse (.text "-"))
  let key := if (setting "api_key" "").holds then "set" else "-"
  let embedding ← cell (← Run.ofTraced (Settings.embeddingKey env))
  let pattern ← cell (← Run.ofTraced (Settings.inclusion env))
  let rules ← Run.ofTraced (Settings.exclusion env)
  if rules.any (·.text?.isNone) then Run.fail (.shape .notAList)
  Run.sheet ("codeskel config: " ++ (Settings.file env).toString)
    [("llm.provider", provider), ("llm.model", model), ("llm.api_key", key),
      ("embeddings.model", embedding), ("indexer.inclusion_filter", pattern),
      ("indexer.exclusion_filter", ", ".intercalate (rules.filterMap Data.text?))]

def usage : String :=
  "Usage: cskel [--verbose] [--version] [--help] COMMAND\n\n" ++
  "  index [PATHS] [-w DIR] [--full] [-f GLOB] [-x RULE]\n" ++
  "  remove FILE [-w DIR]\n" ++
  "  status [-w DIR]\n" ++
  "  search QUERY [-w DIR] [--top-k N]\n" ++
  "  clear [-w DIR] [-y]\n" ++
  "  watch [PATH] [-i SECONDS]\n" ++
  "  config set-filter GLOB [-x RULE]\n" ++
  "  config set-llm PROVIDER [-m MODEL] [-k KEY] [-e URL]\n" ++
  "  config show"

def run : Command → Run Unit
  | .version => Run.line "codeskel v0.1.0"
  | .help => Run.line usage
  | .index w paths full filter exclude => do checkWorkspace w; runIndex w paths full filter exclude
  | .remove w file => do checkWorkspace w; runRemove w file
  | .status w => do checkWorkspace w; runStatus w
  | .search w query limit => do checkWorkspace w; runSearch w query limit
  | .clear w confirmed => do checkWorkspace w; runClear w confirmed
  | .watch path interval => runWatch path interval
  | .setFilter pattern exclude => runSetFilter pattern exclude
  | .setModel provider model key endpoint => runSetModel provider model key endpoint
  | .settings => runSettings

/-- Runs the command that some words spell. -/
def execute (words : List String) (input : String) (m : Machine) : Outcome :=
  Run.outcome (match parse? words with
    | some c => c.run
    | none => Run.exit 2) m input

end Command

end OutlineIndex
