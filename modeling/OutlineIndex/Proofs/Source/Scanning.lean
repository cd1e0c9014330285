import OutlineIndex.Source.Lexer

namespace OutlineIndex.Source

namespace Quoted

/-- What was taken and what is left make up the text. -/
def Scan.Splits (q : Scan) (s : List Char) : Prop := q.taken ++ q.rest = s

theorem Scan.Splits.cons {q : Scan} {s : List Char} (h : q.Splits s) (c : Char) :
    (q.cons c).Splits (c :: s) := congrArg (c :: ·) h

theorem splits_single (quote : Char) (s : List Char) : (single quote s).Splits s := by
  fun_induction single quote s with
  | case1 => rfl
  | case2 c rest ih => exact (ih.cons c).cons '\\'
  | case3 rest => rfl
  | case4 rest => rfl
  | case5 c rest _ _ _ ih => exact ih.cons c

theorem splits_triple (quote : Char) (s : List Char) : (triple quote s).Splits s := by
  fun_induction triple quote s with
  | case1 => rfl
  | case2 c rest ih => exact (ih.cons c).cons '\\'
  | case3 => rfl
  | case4 a b c rest _ _ ih => exact ih.cons a
  | case5 c rest _ _ ih => exact ih.cons c

theorem splits_scan (s : List Char) : (scan s).Splits s := by
  unfold scan
  split
  · split
    · exact (((splits_triple _ _).cons _).cons _).cons _
    · exact (splits_single _ _).cons _
  · exact (splits_single _ _).cons _
  · rfl

theorem splits_nested (fuel : Nat) (frames : List Frame) (word s : List Char) :
    (nested fuel frames word s).Splits s := by
  fun_induction nested fuel frames word s
  all_goals first
    | rfl
    | exact Scan.Splits.cons ‹_› _
    | exact (Scan.Splits.cons ‹_› _).cons _
    | exact ((Scan.Splits.cons ‹_› _).cons _).cons _
    | (obtain ⟨more, rfl⟩ := List.head?_eq_some_iff.mp ‹_›
       exact (Scan.Splits.cons ‹_› _).cons _)

theorem splits_scanNested (s : List Char) : (scanNested s).Splits s := by
  unfold scanNested
  split
  · split
    · exact (((splits_nested _ _ _ _).cons _).cons _).cons _
    · exact (splits_nested _ _ _ _).cons _
  · exact (splits_nested _ _ _ _).cons _
  · rfl

end Quoted

namespace Number

/-- What was taken and what is left make up the text. -/
def Scan.Splits (n : Scan) (s : List Char) : Prop := n.taken ++ n.rest = s

theorem splits_digits (isDigit : Char → Bool) (s : List Char) : (digits isDigit s).Splits s :=
  List.takeWhile_append_dropWhile

theorem splits_based (isDigit : Char → Bool) (mark s : List Char) :
    (based isDigit mark s).Splits (mark ++ s) := by
  unfold Scan.Splits based
  rw [List.append_assoc, splits_digits isDigit s]

theorem splits_fraction (s : List Char) : (fraction s).Splits s := by
  unfold fraction
  split
  · split
    · exact congrArg ('.' :: ·) (splits_digits _ _)
    · rfl
  · rfl

theorem splits_exponent (s : List Char) : (exponent s).Splits s := by
  unfold exponent
  dsimp only
  split
  · split
    · rfl
    split
    · split
      · split
        · exact congrArg (fun t => _ :: _ :: t) (splits_digits _ _)
        · rfl
      split
      · exact congrArg (_ :: ·) (splits_digits _ _)
      · rfl
    · rfl
  · rfl

theorem splits_imaginary (s : List Char) : (imaginary s).Splits s := by
  unfold imaginary
  split <;> rfl

theorem splits_decimal (s : List Char) : (decimal s).Splits s := by
  have hwhole : (if s.head? = some '.' then ⟨[], s, true⟩ else digits Char.isDigit s : Scan).Splits s := by
    split
    · rfl
    · exact splits_digits _ s
  unfold Scan.Splits decimal
  dsimp only
  rw [List.append_assoc, splits_imaginary, List.append_assoc, splits_exponent, List.append_assoc,
    splits_fraction]
  exact hwhole

theorem splits_scan (s : List Char) : (scan s).Splits s := by
  unfold scan
  split
  · split
    · exact splits_based _ ['0', _] _
    split
    · exact splits_based _ ['0', _] _
    split
    · exact splits_based _ ['0', _] _
    · exact splits_decimal _
  · exact splits_decimal _

end Number

namespace Mark

theorem line_advance (m : Mark) (c : Char) : (m.advance c).line = m.line + [c].count '\n' := by
  unfold advance
  split <;> simp [*]

theorem line_advanceAll (m : Mark) (text : List Char) :
    (m.advanceAll text).line = m.line + text.count '\n' := by
  induction text generalizing m with
  | nil => rfl
  | cons c text ih =>
    have hcons : ([c] ++ text).count '\n' = [c].count '\n' + text.count '\n' := List.count_append
    rw [List.singleton_append] at hcons
    rw [hcons, ← Nat.add_assoc, ← line_advance]
    exact ih (m.advance c)

theorem Le.refl (a : Mark) : a.Le a := .inr ⟨rfl, Nat.le_refl _⟩

theorem Le.trans {a b c : Mark} (hab : a.Le b) (hbc : b.Le c) : a.Le c := by
  unfold Le at *
  omega

theorem Le.line_le {a b : Mark} (h : a.Le b) : a.line ≤ b.line := by
  rcases h with h | h <;> omega

theorem Lt.trans_le {a b c : Mark} (hab : a.Lt b) (hbc : b.Le c) : a.Lt c := by
  unfold Lt Le at *
  omega

theorem Lt.le {a b : Mark} (h : a.Lt b) : a.Le b := by
  unfold Lt Le at *
  omega

theorem Before.le {text : List Char} {a b : Mark} (h : a.Before text b) : a.Le b := by
  rcases h with h | ⟨hline, hcolumn, -⟩
  · exact .inl h
  · exact .inr ⟨hline, Nat.le_of_lt hcolumn⟩

theorem lt_advance (m : Mark) (c : Char) : m.Lt (m.advance c) := by
  have hsize := c.utf8Size_pos
  unfold advance
  split
  · exact .inl (Nat.lt_succ_self _)
  · exact .inr ⟨rfl, by change m.column < m.column + c.utf8Size; omega⟩

theorem le_advanceAll (m : Mark) (text : List Char) : m.Le (m.advanceAll text) := by
  induction text generalizing m with
  | nil => exact .refl m
  | cons c text ih => exact (m.lt_advance c).le.trans (ih (m.advance c))

end Mark

namespace Lexer

theorem margin_append (m : Margin) (kept : Option Margin) (s : List Char) :
    (margin m kept s).2.1 ++ (margin m kept s).2.2 = s := by
  fun_induction margin m kept s <;> simp_all

theorem mark_track (x : Lexer) (text : List Char) : (x.track text).1.mark = x.mark := by
  unfold track
  repeat' split
  all_goals rfl

theorem symbol?_append {s text : List Char} (h : symbol? s = some text) :
    text ++ s.drop text.length = s := by
  apply List.prefix_iff_eq_append.mp
  unfold symbol? at h
  split at h
  · rename_i hfound
    cases h
    have hmatch := List.find?_some hfound
    exact List.isPrefixOf_iff_prefix.mp hmatch
  · split at h
    · cases h
      exact ⟨_, rfl⟩
    · cases h
  · cases h

/-- The lexer has moved on in a text: what it has passed makes up the text with what is left. -/
def Onward (x : Lexer) (s : List Char) (y : Lexer) (left : List Char) : Prop :=
  ∃ taken, taken ++ left = s ∧ y.mark = x.mark.advanceAll taken

/-- A token starts where the lexer stands, and the lexer goes on from its end. -/
structure Passes (x : Lexer) (s : List Char) (t : Token) (y : Lexer) (left : List Char) : Prop where
  start : t.start = x.mark
  stop : t.stop = y.mark
  onward : Onward x s y left

theorem passes_emit (x : Lexer) (k : Token.Kind) {s text left : List Char} (h : text ++ left = s) :
    Passes x s (x.emit k text).1 (x.emit k text).2 left := ⟨rfl, rfl, ⟨text, h, rfl⟩⟩

theorem passes_token (d : Dialect) (x : Lexer) (s : List Char) :
    Passes x s (token d x s).1 (token d x s).2.1 (token d x s).2.2 := by
  have hword : s.takeWhile isWordRest ++ s.drop (s.takeWhile isWordRest).length = s :=
    List.prefix_iff_eq_append.mp (List.takeWhile_prefix _)
  unfold token
  dsimp only
  split
  · exact passes_emit x _ (Number.splits_scan s)
  split
  · refine passes_emit x _ ?_
    rw [List.append_assoc]
    split
    · rw [Quoted.splits_scanNested, hword]
    · rw [Quoted.splits_scan, hword]
  split
  · exact passes_emit x _ hword
  split
  · rename_i text htext
    obtain ⟨hstart, hstop, honward⟩ := passes_emit (x.track text).1
      (if (x.track text).2 = true then .symbol else .invalid) (symbol?_append htext)
    unfold Onward at honward
    rw [mark_track] at hstart honward
    exact ⟨hstart, hstop, honward⟩
  · exact passes_emit x _ (List.take_append_drop 1 s)

/-- One step of a run: the items it gives, and with what it goes on if it does. -/
def step (d : Dialect) (x : Lexer) : Bool → List Char → List Item × Option (Lexer × Bool × List Char)
  | true, s =>
    let (m, taken, rest) := margin ⟨0, 0, 0⟩ none s
    let y := x.skip taken
    let y := if x.opened = [] then { y with gap := [] } else y
    let dangling := taken.getLast? = some '\n' && rest = []
    ((if x.opened = [] then [.margin m] else []) ++ (if dangling then [.token (y.emit .invalid []).1] else []),
      some (y, false, rest))
  | false, [] => (if x.opened = [] then [] else [.token (x.emit .invalid []).1], none)
  | false, c :: rest =>
    if c = '\n' then (if x.opened = [] then [.feed] else [], some (x.skip [c], true, rest))
    else if isGap d c then ([], some (x.skip [c], false, rest))
    else if c = '#' then
      let text := (c :: rest).takeWhile (· ≠ '\n')
      ([.comment (x.skip text).mark], some (x.skip text, false, (c :: rest).drop text.length))
    else if c = '\\' && d == .tolerant && rest.take 2 = ['\r', '\n'] then
      ([], some (x.skip ['\\', '\r', '\n'], false, rest.drop 2))
    else if c = '\\' && rest.head? = some '\n' then
      let y := x.skip ['\\', '\n']
      (if rest.tail = [] then [.token (y.emit .invalid []).1] else [], some (y, false, rest.tail))
    else
      let (t, y, left) := token d x (c :: rest)
      ([.token t], some (y, false, left))

/-- A run is one step and the run from there. -/
theorem run_succ (d : Dialect) (fuel : Nat) (x : Lexer) (fresh : Bool) (s : List Char) :
    run d (fuel + 1) x fresh s = (step d x fresh s).1 ++
      ((step d x fresh s).2.elim [] fun z => run d fuel z.1 z.2.1 z.2.2) := by
  cases fresh with
  | true =>
    rw [run, step]
    rfl
  | false =>
    cases s with
    | nil =>
      rw [run, step]
      exact (List.append_nil _).symm
    | cons c rest =>
      rw [run, step]
      split
      · rfl
      split
      · rfl
      split
      · rfl
      split
      · rfl
      split
      · rfl
      · rfl

theorem onward_step {d : Dialect} {x y : Lexer} {fresh fresh' : Bool} {s left : List Char}
    (h : (step d x fresh s).2 = some (y, fresh', left)) : Onward x s y left := by
  cases fresh with
  | true =>
    cases h
    refine ⟨_, margin_append ⟨0, 0, 0⟩ none s, ?_⟩
    split <;> rfl
  | false =>
    cases s with
    | nil => cases h
    | cons c rest =>
      rw [step] at h
      split at h
      · cases h
        exact ⟨[c], rfl, rfl⟩
      split at h
      · cases h
        exact ⟨[c], rfl, rfl⟩
      split at h
      · cases h
        exact ⟨_, List.prefix_iff_eq_append.mp (List.takeWhile_prefix _), rfl⟩
      split at h
      · rename_i hreturn
        simp only [Bool.and_eq_true, decide_eq_true_eq] at hreturn
        cases h
        refine ⟨['\\', '\r', '\n'], ?_, rfl⟩
        rw [hreturn.1.1, ← List.take_append_drop 2 rest, hreturn.2]
        simp
      split at h
      · rename_i hjoin
        simp only [Bool.and_eq_true, decide_eq_true_eq] at hjoin
        obtain ⟨more, rfl⟩ := List.head?_eq_some_iff.mp hjoin.2
        cases h
        exact ⟨['\\', '\n'], by rw [hjoin.1]; rfl, rfl⟩
      · cases h
        exact (passes_token d x (c :: rest)).onward

end Lexer

end OutlineIndex.Source
