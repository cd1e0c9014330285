import OutlineIndex.Command.Machine
import OutlineIndex.Source.Lexical

open OutlineIndex

def main (args : List String) : IO UInt32 := do
  let cwd := (← IO.getEnv "PWD").getD "/"
  let home := (← IO.getEnv "HOME").getD "/"
  let text ← (← IO.getStdin).readToEnd
  let given := (Json.read Json.maxDepth text.toList).toOption.getD (.record [])
  let machine := Machine.ofData .tolerant .standard cwd home (← IO.getEnv "CODESKEL_HOME") given
  let outcome := Command.execute args (Machine.answersOf given) machine
  for o in outcome.output do
    IO.print o.render
  for r in outcome.reports do
    if let .notice n := r then IO.eprintln (n.text Failure.message)
  if let some e := outcome.failure? then IO.eprintln e.message
  return outcome.code.toUInt32
