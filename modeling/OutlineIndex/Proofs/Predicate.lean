import OutlineIndex.Proofs.Store

namespace OutlineIndex.Store

/-- What stands between the quotes of a literal spells a text: a quote is written twice and all else as it
is. -/
inductive Spells : List Char → List Char → Prop
  | nil : Spells [] []
  | quote {w s : List Char} (h : Spells w s) : Spells ('\'' :: '\'' :: w) ('\'' :: s)
  | other {c : Char} {w s : List Char} (hc : c ≠ '\'') (h : Spells w s) : Spells (c :: w) (c :: s)

/-- A text lists values: literals with commas between them, and blanks before them. -/
inductive Lists : List Char → List String → Prop
  | blank {t : List Char} {values : List String} (h : Lists t values) : Lists (' ' :: t) values
  | last {w : List Char} {v : String} (h : Spells w v.toList) : Lists ('\'' :: (w ++ ['\''])) [v]
  | more {w t : List Char} {v : String} {values : List String} (h : Spells w v.toList)
      (hrest : Lists t values) : Lists ('\'' :: (w ++ '\'' :: ',' :: t)) (v :: values)

section Reading

variable {t w s : List Char} {values : List String}

/-- A literal is read up to the quote that closes it. -/
theorem readOpened?_append (h : Spells w s) (ht : readOpened? t = some ([], values)) :
    readOpened? (w ++ t) = some (s, values) := by
  induction h with
  | nil => exact ht
  | quote _ ih => simp [readOpened?, ih]
  | other hc _ ih => simp [readOpened?, hc, ih]

theorem Lists.read (h : Lists t values) : readLiterals? t = some values := by
  induction h with
  | blank _ ih => rwa [readLiterals?]
  | last hw =>
    have hread := readOpened?_append hw (t := ['\'']) rfl
    simp [readLiterals?, hread]
  | @more w t v values hw _ ih =>
    have hclosed : readOpened? ('\'' :: ',' :: t) = some ([], values) := by simp [readOpened?, ih]
    have hread := readOpened?_append hw hclosed
    simp [readLiterals?, hread]

/-- A text can be read as one list only. -/
theorem Lists.unique {values' : List String} (h : Lists t values) (h' : Lists t values') :
    values = values' := by
  have hread := h.read
  rw [h'.read] at hread
  exact (Option.some.inj hread).symm

/-- The first literal of a list may have more text in front. -/
theorem Lists.prepend (h : Lists ('\'' :: t) (String.ofList s :: values)) {x y : List Char}
    (hspell : ∀ {w s : List Char}, Spells w s → Spells (x ++ w) (y ++ s)) :
    Lists ('\'' :: (x ++ t)) (String.ofList (y ++ s) :: values) := by
  have hlonger : ∀ {w : List Char}, Spells w (String.ofList s).toList →
      Spells (x ++ w) (String.ofList (y ++ s)).toList := by
    intro w hw
    rw [String.toList_ofList] at hw ⊢
    exact hspell hw
  cases h with
  | last hw => simpa using Lists.last (hlonger hw)
  | more hw hrest => simpa using Lists.more (hlonger hw) hrest

theorem lists_of_read : (∀ t values, readLiterals? t = some values → Lists t values) ∧
    ∀ t s values, readOpened? t = some (s, values) → Lists ('\'' :: t) (String.ofList s :: values) := by
  have hnil : Spells [] (String.ofList []).toList := by
    rw [String.toList_ofList]
    exact .nil
  -- inside a literal the statement is about the list that the literal begins
  refine readLiterals?.mutual_induct _ _ ?blank ?opens ?neither ?unclosed ?last ?more ?quote ?lone ?other
  case blank =>
    intro t ih values h
    rw [readLiterals?] at h
    exact .blank (ih values h)
  case opens =>
    intro t ih values h
    obtain ⟨s, rest, hopened, rfl⟩ : ∃ s rest, readOpened? t = some (s, rest) ∧
        String.ofList s :: rest = values := by
      simpa [readLiterals?, Option.bind_eq_some_iff] using h
    exact ih s rest hopened
  case neither =>
    intro t _ _ values h
    simp [readLiterals?] at h
  case unclosed =>
    intro s values h
    simp [readOpened?] at h
  case last =>
    intro s values h
    obtain ⟨rfl, rfl⟩ : [] = s ∧ [] = values := by simpa [readOpened?] using h
    exact .last hnil
  case more =>
    intro t ih s values h
    obtain ⟨hrest, rfl⟩ : readLiterals? t = some values ∧ s = [] := by
      simpa [readOpened?, Option.bind_eq_some_iff] using h
    exact .more hnil (ih values hrest)
  case quote =>
    intro t ih s values h
    obtain ⟨s, hopened, rfl⟩ : ∃ s', readOpened? t = some (s', values) ∧ '\'' :: s' = s := by
      simpa [readOpened?, Option.bind_eq_some_iff] using h
    exact (ih s values hopened).prepend (x := ['\'', '\'']) (y := ['\'']) .quote
  case lone =>
    intro t _ _ _ s values h
    simp [readOpened?] at h
  case other =>
    intro c t _ _ _ hc ih s values h
    obtain ⟨s, hopened, rfl⟩ : ∃ s', readOpened? t = some (s', values) ∧ c :: s' = s := by
      simpa [readOpened?, hc, Option.bind_eq_some_iff] using h
    exact (ih s values hopened).prepend (x := [c]) (y := [c]) (.other hc)

/-- Exactly the lists of literals are read, from their first character to their last. -/
theorem readLiterals?_eq_some_iff : readLiterals? t = some values ↔ Lists t values :=
  ⟨lists_of_read.1 t values, Lists.read⟩

theorem spells_flatMap (s : List Char) :
    Spells (s.flatMap fun c => if c = '\'' then ['\'', '\''] else [c]) s := by
  induction s with
  | nil => exact .nil
  | cons c s ih =>
    rw [List.flatMap_cons]
    by_cases hc : c = '\''
    · rw [if_pos hc, hc]
      exact .quote ih
    · rw [if_neg hc]
      exact .other hc ih

theorem lists_literals (h : values ≠ []) : Lists (literals values) values := by
  induction values with
  | nil => exact absurd rfl h
  | cons v values ih =>
    have hv := spells_flatMap v.toList
    cases values with
    | nil => exact .last hv
    | cons v' values =>
      have hrest := Lists.more hv (.blank (ih (by simp)))
      simpa [literals, literal, Text.join] using hrest

end Reading

/-- A text is a condition: a column, and a list of values in brackets. -/
def Predicate.IsText (p : Predicate) (text : String) : Prop :=
  ∃ t, Lists t p.values ∧ text = p.column.name ++ " IN (" ++ String.ofList t ++ ")"

/-- A condition that is given as a text selects a row. -/
def Selects (text : String) (r : Row) : Prop :=
  ∃ p : Predicate, p.IsText text ∧ r.get p.column ∈ p.values

namespace Predicate

variable {p q : Predicate}

theorem eq_of_text {c c' : Column} {t t' : List Char}
    (h : c.name ++ " IN (" ++ String.ofList t ++ ")" = c'.name ++ " IN (" ++ String.ofList t' ++ ")") :
    c = c' ∧ t = t' := by
  have hchars := congrArg String.toList h
  cases c <;> cases c' <;> simp [Column.name] at hchars <;> exact ⟨rfl, hchars⟩

/-- The text of a condition is not that of another. -/
theorem isText_text_iff (h : p.values ≠ []) : q.IsText p.text ↔ q = p := by
  have hlists := lists_literals h
  constructor
  · rintro ⟨t, ht, htext⟩
    obtain ⟨hcolumn, rfl⟩ := eq_of_text htext
    have hvalues : q.values = p.values := ht.unique hlists
    cases p
    cases q
    simp_all
  · rintro rfl
    exact ⟨literals q.values, hlists, rfl⟩

theorem selects_text_iff (h : p.values ≠ []) {r : Row} :
    Selects p.text r ↔ r.get p.column ∈ p.values := by
  simp [Selects, isText_text_iff h]

end Predicate

/-- What is written for a list of values is read as these values, and can be read as no other list. So a
condition on a column is the only one with its text, it selects the rows that have one of the values it was
made of, and these are the rows that it drops. -/
theorem literals_exact {values : List String} (h : values ≠ []) :
    readLiterals? (literals values) = some values ∧
    (∀ vs, Lists (literals values) vs ↔ vs = values) ∧
    ∀ column, let p : Predicate := ⟨column, values⟩
      (∀ q : Predicate, q.IsText p.text ↔ q = p) ∧
      (∀ r, Selects p.text r ↔ r.get column ∈ values) ∧
      ∀ (t : RowTable) (r : Row), r ∈ (t.delete p).rows ↔ r ∈ t.rows ∧ ¬Selects p.text r := by
  have hlists : Lists (literals values) values := lists_literals h
  refine ⟨readLiterals?_eq_some_iff.mpr hlists, ?_, ?_⟩
  · intro vs
    constructor
    · intro hvs
      exact hvs.unique hlists
    · rintro rfl
      exact hlists
  · intro column p
    have hselects : ∀ r, Selects p.text r ↔ r.get column ∈ values := fun r =>
      Predicate.selects_text_iff (p := p) h
    refine ⟨fun q => Predicate.isText_text_iff h, hselects, ?_⟩
    intro t r
    simp [RowTable.delete, hselects, p]

/-- Quotes inside a value, at both of its ends and next to the commas. -/
theorem literals_exact_quotes :
    String.ofList (literals ["it's.py", "', '", ""]) = "'it''s.py', ''', ''', ''" ∧
    (∀ vs, Lists (literals ["it's.py", "', '", ""]) vs ↔ vs = ["it's.py", "', '", ""]) ∧
    ∀ r, Selects "file_path IN ('it''s.py', ''', ''', '')" r ↔ r.filePath ∈ ["it's.py", "', '", ""] := by
  have hne : ["it's.py", "', '", ""] ≠ [] := by simp
  obtain ⟨-, honly, hcondition⟩ := literals_exact hne
  exact ⟨by decide, honly, (hcondition .filePath).2.1⟩

end OutlineIndex.Store
