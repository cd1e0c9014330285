import OutlineIndex.Command.Markup
import OutlineIndex.Command.Sheet
import OutlineIndex.Index
import OutlineIndex.Settings

namespace OutlineIndex

/-- What commands work on: files and settings, the stores by their directories, a way to reach completion
services, and a reader of source texts. -/
structure Machine where
  env : Environment
  stores : Table Store
  post : Transport
  backend : Backend

inductive Output where
  | text (s : String)
  | sheet (s : Sheet)

def Output.render : Output → String
  | .text s => s
  | .sheet s => s.render

structure Session where
  machine : Machine
  answers : List (List Char)
  output : List Output
  reports : List Report

/-- Why a command ends early. -/
inductive Stop where
  | exit (code : UInt8)
  | failure (e : Failure)

abbrev Run := EStateM Stop Session

namespace Run

def fail {α : Type} (e : Failure) : Run α := throw (.failure e)

def exit {α : Type} (code : UInt8) : Run α := throw (.exit code)

def ofExcept {α : Type} : Except Failure α → Run α
  | .ok a => pure a
  | .error e => fail e

def log (rs : List Report) : Run Unit := modify fun s => { s with reports := s.reports ++ rs }

def ofTraced {α : Type} (t : Traced α) : Run α := do
  log t.reports
  ofExcept t.result

def environment : Run Environment := do return (← get).machine.env

def setEnvironment (env : Environment) : Run Unit :=
  modify fun s => { s with machine := { s.machine with env := env } }

/-- Runs a change of the settings file. -/
def change (f : Environment → Environment × Traced Bool) : Run Bool := do
  let (env, r) := f (← environment)
  setEnvironment env
  ofTraced r

def write (o : Output) : Run Unit := modify fun s => { s with output := s.output ++ [o] }

/-- Writes a line as it is. -/
def line (s : String) : Run Unit := write (.text (s ++ "\n"))

/-- Writes a line with style tags. -/
def styled (s : String) : Run Unit := do line (← ofExcept (Markup.plain s))

/-- What is readable of a title and of the cells of a table. -/
def sheet (title : String) (rows : List (String × String)) : Run Unit := do
  let title ← ofExcept (Markup.plain title)
  let rows ← rows.mapM fun r => do return (r.1, ← ofExcept (Markup.plain r.2))
  write (.sheet ⟨title, rows⟩)

/-- A yes or a no; nothing stands for a no. -/
def answer? (s : List Char) : Option Bool :=
  let word := String.ofList (Text.trim (Text.lower s))
  if ["y", "yes"].contains word then some true
  else if ["", "n", "no"].contains word then some false
  else none

/-- Asks until there is an answer or no more input: the text of the dialogue, the answer, and the
input that is left. -/
def ask (question : String) : List (List Char) → String × Option Bool × List (List Char)
  | [] => (question, none, [])
  | a :: rest =>
    let said := question ++ String.ofList a ++ "\n"
    match answer? a with
    | some b => (said, some b, rest)
    | none =>
      let (more, b, rest) := ask question rest
      (said ++ "Error: invalid input\n" ++ more, b, rest)

def confirm (question : String) : Run Bool := do
  let (said, answer, rest) := ask (question ++ " [y/N]: ") (← get).answers
  modify fun s => { s with answers := rest }
  write (.text said)
  match answer with
  | some b => return b
  | none => exit 1

end Run

/-- How a command ended. -/
structure Outcome where
  machine : Machine
  output : List Output
  reports : List Report
  code : UInt8
  failure? : Option Failure

/-- Runs a command on a machine with a text as its input. -/
def Run.outcome (r : Run Unit) (m : Machine) (input : String) : Outcome :=
  let answers := Text.split '\n' (Text.foldReturns input.toList)
  let answers := if answers.getLast? = some [] then answers.dropLast else answers
  match r.run ⟨m, answers, [], []⟩ with
  | .ok _ s => ⟨s.machine, s.output, s.reports, 0, none⟩
  | .error (.exit code) s => ⟨s.machine, s.output, s.reports, code, none⟩
  | .error (.failure e) s => ⟨s.machine, s.output, s.reports, 1, some e⟩

end OutlineIndex
