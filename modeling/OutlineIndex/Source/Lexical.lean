import OutlineIndex.CodeMap
import OutlineIndex.Proofs.Source.Spans

namespace OutlineIndex

namespace Source

/-- Programs are read by lines and tokens; names come in a normal form. -/
def Program.Parser.lexical (normal : String → String) : Program.Parser where
  parse text :=
    let forest := Layout.ofText .strict text
    if Grammar.accepts forest then some (Sentence.statements normal (Sentence.ofForest false 0 [] forest)) else none
  laid text ss h := by
    dsimp only at h
    split at h
    · cases h
      exact Sentence.laidAll_statements _ (Sentence.nestedAll_ofText .strict text)
    · cases h
  ends text ss h s hs := by
    dsimp only at h
    split at h
    · cases h
      obtain ⟨s, hmem, rfl⟩ := Sentence.mem_statements.mp hs
      have hnested := (Sentence.nestedAll_ofText .strict text).of_mem hmem
      cases s with
      | definition kind name decorators layout body => exact Nat.le_of_lt_succ hnested.1.above
      | imports i => cases i <;> trivial
      | compound inner => trivial
    · cases h

/-- Trees are made of lines and tokens, whatever the text. -/
def Tree.Parser.lexical : Tree.Parser where
  parse text := .node .other none ⟨0, 0⟩ (.after text) ""
    (Sentence.trees (Sentence.ofForest false 0 [] (Layout.ofText .tolerant text)))
  laid text := Sentence.laidAll_located text _ (Sentence.nestedAll_ofText .tolerant text)
  ends text x hx := by
    obtain ⟨kind, name, decorators, layout, body, hmem, rfl⟩ := Sentence.mem_locatedAll_trees hx
    exact Nat.le_of_lt_succ ((Sentence.nestedAll_ofText .tolerant text).of_mem hmem).1.above

end Source

namespace Backend

/-- Reads programs, with names as they are written. -/
def strict : Backend := .program (.lexical id)

/-- Reads any text, to the depth that the runtime usually allows. -/
def tolerant : Backend := .tree .lexical 1000

end Backend

end OutlineIndex
