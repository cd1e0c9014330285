import Mathlib.Data.Bool.Basic
import OutlineIndex.Proofs.Source.Lines
import OutlineIndex.Source.Grammar.Statement

namespace OutlineIndex.Source

namespace Lexer

theorem literalLetters_tolerant {word : List Char} (h : literalLetters .strict word = true) :
    literalLetters .tolerant word = true := by
  unfold literalLetters at h ⊢
  dsimp only at h ⊢
  generalize word.map Char.toLower = w at h ⊢
  simp only [List.any_cons, List.any_nil, Bool.or_false, Bool.or_eq_true, beq_iff_eq] at h
  rcases h with rfl | rfl | rfl | rfl | rfl | rfl | rfl | rfl <;> decide

theorem isAlpha_of_literalLetters {c : Char} {rest : List Char}
    (h : literalLetters .tolerant (c :: rest) = true) : c.isAlpha = true := by
  have hlower : ['r', 'u', 'b', 'f', 't'].contains c.toLower = true := by
    simp only [literalLetters, List.map_cons, List.all_cons, Bool.and_eq_true] at h
    exact h.1
  by_cases hupper : c.isUpper = true
  · exact Bool.or_eq_true_iff.mpr (.inl hupper)
  · have hsame : c.toLower = c := by
      unfold Char.toLower
      rw [dif_neg]
      exact fun hrange => hupper (decide_eq_true hrange)
    rw [hsame] at hlower
    simp only [List.contains_eq_mem, List.mem_cons, List.not_mem_nil, or_false, decide_eq_true_eq] at hlower
    rcases hlower with rfl | rfl | rfl | rfl | rfl <;> decide

theorem isWordStart_of_letters {s : List Char} (h : literalLetters .tolerant (s.takeWhile isWordRest) = true)
    (hne : s.takeWhile isWordRest ≠ []) : (s.head?.map isWordStart).getD false = true := by
  cases s with
  | nil => exact absurd rfl hne
  | cons c s =>
    rw [List.takeWhile_cons] at h hne
    split at hne
    · rename_i hc
      rw [if_pos hc] at h
      simp [isWordStart, isAlpha_of_literalLetters h]
    · exact absurd rfl hne

/-- A token that the strict dialect does not refuse is the same in both dialects. -/
theorem token_tolerant {x : Lexer} {s : List Char} (h : (token .strict x s).1.kind ≠ .invalid) :
    token .tolerant x s = token .strict x s := by
  have hempty : s.takeWhile isWordRest = [] → s.drop (s.takeWhile isWordRest).length = s := by
    intro hword
    rw [hword]
    rfl
  have hstart := isWordStart_of_letters (s := s)
  unfold token at h ⊢
  dsimp only at h ⊢
  generalize s.takeWhile isWordRest = word at h hempty hstart ⊢
  generalize s.drop word.length = after at h hempty ⊢
  have hquote : word = [] → (after.head?.map fun c => c == '"' || c == '\'').getD false =
      (s.head?.map fun c => c == '"' || c == '\'').getD false := by
    intro hword
    rw [hempty hword]
  generalize (after.head?.map fun c => c == '"' || c == '\'').getD false = quoteAfter at h hquote ⊢
  generalize (s.head?.map fun c => c == '"' || c == '\'').getD false = quoteFirst at h hquote ⊢
  by_cases hn : startsNumber s = true
  · rw [if_pos hn, if_pos hn]
  rw [if_neg hn] at h
  rw [if_neg hn, if_neg hn]
  split at h
  · rename_i hs
    -- a literal that passes as it stands is not read in any other way
    have ht : (quoteAfter && literalLetters .tolerant word || word = [] && quoteFirst) = true := by
      simp only [Bool.or_eq_true, Bool.and_eq_true] at hs ⊢
      exact hs.imp_left fun hs => ⟨hs.1, literalLetters_tolerant hs.2⟩
    rw [if_pos ht, if_pos hs]
    have hfine : ((Quoted.scan after).closed &&
        ((Grammar.Literal.ofText (word ++ (Quoted.scan after).taken)).check).isSome) = true := by
      by_contra hfine
      exact h (by simp [emit, hfine])
    simp [hfine]
  · rename_i hs
    by_cases hq : (quoteAfter && literalLetters .tolerant word) = true
    · -- letters of the tolerant dialect alone, right before a quote, are strictly refused
      exfalso
      have hne : word ≠ [] := by
        intro hword
        simp only [Bool.or_eq_true, Bool.and_eq_true, decide_eq_true_eq] at hs hq
        exact hs (.inr ⟨hword, hquote hword ▸ hq.1⟩)
      rw [if_pos (hstart (Bool.and_eq_true_iff.1 hq).2 hne)] at h
      exact h (by simp [emit, hq])
    · have ht : ¬(quoteAfter && literalLetters .tolerant word || word = [] && quoteFirst) = true := by
        simp only [Bool.or_eq_true, not_or] at hs ⊢
        exact ⟨hq, hs.2⟩
      rw [if_neg ht, if_neg hs]
      split at h
      · rename_i hword
        have hok : (word.all (·.toNat < 128) || isIdentifier word) = true := by
          by_contra hok
          exact h (by simp [emit, hok])
        rw [if_pos hword, if_pos hword]
        simp [hok, hq]
      · rename_i hword
        rw [if_neg hword, if_neg hword]

/-- A wide character that starts no identifier is strictly refused at the head of a word. -/
theorem kind_token_of_wide {x : Lexer} {c : Char} {rest : List Char} (hwide : 128 ≤ c.toNat)
    (hidentifier : isIdentifierStart c = false) : (token .strict x (c :: rest)).1.kind = .invalid := by
  have hdigit : c.isDigit = false := by
    have hnine : '9'.toNat = 57 := rfl
    rw [← Bool.not_eq_true, Char.isDigit_iff_toNat]
    omega
  have hnumber : startsNumber (c :: rest) = false := by
    unfold startsNumber
    split
    · rename_i h
      rw [(List.cons.inj h).1] at hwide
      exact absurd hwide (by decide)
    · rename_i h
      rw [← (List.cons.inj h).1]
      exact hdigit
    · rfl
  have hstart : isWordStart c = true := by simp [isWordStart, hwide]
  have hword : (c :: rest).takeWhile isWordRest = c :: rest.takeWhile isWordRest := by
    simp [isWordRest, hstart]
  have hletters : literalLetters .strict (c :: rest.takeWhile isWordRest) = false := by
    rw [← Bool.not_eq_true]
    intro h
    have halpha := isAlpha_of_literalLetters (literalLetters_tolerant h)
    simp [isIdentifierStart, halpha] at hidentifier
  unfold token
  dsimp only
  rw [hword, hnumber, hletters]
  simp [hstart, emit, isIdentifier, hidentifier, Nat.not_lt.mpr hwide]

/-- A mark that only the tolerant dialect skips is no part of a strict token. -/
theorem kind_token_of_isGap (x : Lexer) {c : Char} (rest : List Char) (htolerant : isGap .tolerant c = true)
    (hstrict : isGap .strict c = false) (hreturn : c ≠ '\r') :
    (token .strict x (c :: rest)).1.kind = .invalid := by
  have hc : c = '\x0b' ∨ c = '\ufeff' ∨ c = '\u2060' ∨ c = '\u200b' := by
    simp only [isGap, Bool.or_eq_true, Bool.and_eq_true, beq_iff_eq] at htolerant
    simp only [isGap, Bool.or_eq_false_iff, beq_eq_false_iff_ne] at hstrict
    grind
  rcases hc with rfl | rfl | rfl | rfl
  · rfl
  · exact kind_token_of_wide (by decide) (by decide +kernel)
  · exact kind_token_of_wide (by decide) (by decide +kernel)
  · exact kind_token_of_wide (by decide) (by decide +kernel)

/-- A step in which the strict dialect refuses no token is the same in both dialects. -/
theorem step_tolerant {x : Lexer} {fresh : Bool} {s : List Char} (hreturn : '\r' ∉ s)
    (h : ∀ t, .token t ∈ (step .strict x fresh s).1 → t.kind ≠ .invalid) :
    step .tolerant x fresh s = step .strict x fresh s := by
  cases fresh with
  | true => rfl
  | false =>
    cases s with
    | nil => rfl
    | cons c rest =>
      have hne : c ≠ '\r' := fun e => hreturn (e ▸ List.mem_cons_self)
      have hpaired : ∀ d : Dialect, ¬(c = '\\' && d == .tolerant && rest.take 2 = ['\r', '\n']) = true := by
        intro d e
        simp only [Bool.and_eq_true, decide_eq_true_eq] at e
        exact hreturn (List.mem_cons_of_mem _ (List.take_subset 2 rest (e.2 ▸ List.mem_cons_self)))
      rw [step] at h ⊢
      rw [step]
      by_cases hc : c = '\n'
      · rw [if_pos hc, if_pos hc]
      rw [if_neg hc] at h
      rw [if_neg hc, if_neg hc]
      by_cases hgap : isGap .strict c = true
      · have htolerant : isGap .tolerant c = true := by
          simp only [isGap, Bool.or_eq_true] at hgap ⊢
          exact .inl (hgap.resolve_right (by simp))
        rw [if_pos htolerant, if_pos hgap]
      rw [if_neg hgap] at h
      have htolerant : ¬isGap .tolerant c = true := by
        intro htolerant
        have hsharp : c ≠ '#' := by
          rintro rfl
          exact absurd htolerant (by decide)
        have hslash : c ≠ '\\' := by
          rintro rfl
          exact absurd htolerant (by decide)
        refine h _ ?_ (kind_token_of_isGap x rest htolerant (by simpa using hgap) hne)
        rw [if_neg hsharp, if_neg (hpaired .strict), if_neg (by simp [hslash])]
        exact List.mem_cons_self
      rw [if_neg htolerant, if_neg hgap]
      by_cases hcomment : c = '#'
      · rw [if_pos hcomment, if_pos hcomment]
      rw [if_neg hcomment, if_neg (hpaired .strict)] at h
      rw [if_neg hcomment, if_neg hcomment, if_neg (hpaired .tolerant), if_neg (hpaired .strict)]
      by_cases hjoin : (c = '\\' && rest.head? = some '\n') = true
      · rw [if_pos hjoin, if_pos hjoin]
      rw [if_neg hjoin] at h
      rw [if_neg hjoin, if_neg hjoin, token_tolerant (x := x) (h _ List.mem_cons_self)]

/-- A text without carriage returns in which the strict dialect refuses no token has the same items in
both dialects. -/
theorem run_tolerant (fuel : Nat) (x : Lexer) (fresh : Bool) (s : List Char) (hreturn : '\r' ∉ s)
    (h : ∀ t, .token t ∈ run .strict fuel x fresh s → t.kind ≠ .invalid) :
    run .tolerant fuel x fresh s = run .strict fuel x fresh s := by
  induction fuel generalizing x fresh s with
  | zero => rfl
  | succ fuel ih =>
    rw [run_succ] at h
    rw [run_succ, run_succ, step_tolerant hreturn fun t ht => h t (List.mem_append_left _ ht)]
    cases hstep : (step .strict x fresh s).2 with
    | none => rfl
    | some z =>
      obtain ⟨taken, htaken, -⟩ := onward_step hstep
      have hleft : '\r' ∉ z.2.2 := fun hmem => hreturn (htaken ▸ List.mem_append_right _ hmem)
      rw [hstep] at h
      exact congrArg _ (ih z.1 z.2.1 z.2.2 hleft fun t ht => h t (List.mem_append_right _ ht))

end Lexer

namespace Line

namespace Builder

/-- A token is on the current line or on a finished one. -/
def Holds (b : Builder) (t : Token) : Prop := t ∈ b.tokens ∨ ∃ l ∈ b.done, t ∈ l.tokens

variable {b : Builder} {t : Token}

theorem Holds.close (h : b.Holds t) : ∃ l ∈ b.close.done, t ∈ l.tokens := by
  obtain ⟨done, margin, tokens, remark⟩ := b
  cases tokens with
  | cons u us =>
    rcases h with h | ⟨l, hl, ht⟩
    · exact ⟨_, List.mem_cons_self, List.mem_reverse.mpr h⟩
    · exact ⟨l, List.mem_cons_of_mem _ hl, ht⟩
  | nil =>
    obtain ⟨l, hl, ht⟩ := h.resolve_left List.not_mem_nil
    cases remark with
    | none => exact ⟨l, hl, ht⟩
    | some stop =>
      cases done with
      | nil => exact ⟨l, hl, ht⟩
      | cons first ls =>
        rcases List.mem_cons.mp hl with rfl | hl
        · exact ⟨_, List.mem_cons_self, ht⟩
        · exact ⟨l, List.mem_cons_of_mem _ hl, ht⟩

theorem Holds.add (h : b.Holds t) (i : Item) : (b.add i).Holds t := by
  cases i with
  | margin m => exact h
  | token u => exact h.imp_left (List.mem_cons_of_mem u)
  | comment stop => exact h
  | feed => exact .inr h.close

theorem holds_foldl {items : List Item} (h : .token t ∈ items ∨ b.Holds t) : (items.foldl add b).Holds t := by
  induction items generalizing b with
  | nil => exact h.resolve_left List.not_mem_nil
  | cons i items ih =>
    rcases h with h | h
    · rcases List.mem_cons.mp h with rfl | h
      · exact ih (.inr (.inl List.mem_cons_self))
      · exact ih (.inl h)
    · exact ih (.inr (h.add i))

end Builder

/-- No token is lost when items are grouped into lines. -/
theorem exists_mem_ofItems {items : List Item} {t : Token} (h : .token t ∈ items) :
    ∃ l ∈ ofItems items, t ∈ l.tokens := by
  obtain ⟨l, hl, ht⟩ := (Builder.holds_foldl (b := .start) (.inl h)).close
  exact ⟨l, List.mem_reverse.mpr hl, ht⟩

/-- Tab stops and tabs that count eight put the indentations of some lines in the same order. -/
def Steady (lines : List Line) : Prop :=
  ∀ l ∈ lines, ∀ m ∈ lines, (l.margin.stops < m.margin.stops ↔ l.margin.eights < m.margin.eights)

instance (lines : List Line) : Decidable (Steady lines) :=
  inferInstanceAs (Decidable (∀ l ∈ lines, ∀ m ∈ lines, (_ ↔ _)))

end Line

namespace Layout

mutual

theorem kind_of_lexedTree (t : Layout) (h : Grammar.lexedTree t = true) :
    ∀ l ∈ t.lines, ∀ u ∈ l.tokens, u.kind ≠ .invalid := by
  match t with
  | .node line block =>
    rw [Grammar.lexedTree, Bool.and_eq_true] at h
    intro l hl u hu
    rcases List.mem_cons.mp hl with rfl | hl
    · simpa using List.all_eq_true.mp h.1 u hu
    · exact kind_of_lexedForest block h.2 l hl u hu

/-- A forest that passes as lexed has no refused token. -/
theorem kind_of_lexedForest (ts : List Layout) (h : Grammar.lexedForest ts = true) :
    ∀ l ∈ linesAll ts, ∀ u ∈ l.tokens, u.kind ≠ .invalid := by
  match ts with
  | [] => simp [linesAll]
  | t :: ts =>
    rw [Grammar.lexedForest, Bool.and_eq_true] at h
    intro l hl u hu
    rcases List.mem_append.mp hl with hl | hl
    · exact kind_of_lexedTree t h.1 l hl u hu
    · exact kind_of_lexedForest ts h.2 l hl u hu

end

theorem line_mem_lines (t : Layout) : t.line ∈ t.lines := by
  cases t with
  | node l b => exact List.mem_cons_self

theorem attach_tolerant {l : Line} {forest : List Layout}
    (h : ∀ t ∈ forest, (l.margin.stops < t.line.margin.stops ↔ l.margin.eights < t.line.margin.eights)) :
    attach .tolerant l forest = attach .strict l forest := by
  unfold attach
  dsimp only [width]
  induction forest with
  | nil => rfl
  | cons t ts ih =>
    have hts := ih fun t' ht' => h t' (List.mem_cons_of_mem _ ht')
    injection hts with hnode hdrop
    injection hnode with _ htake
    have ht := h t List.mem_cons_self
    by_cases hlt : l.margin.stops < t.line.margin.stops
    · simp [hlt, ht.mp hlt, htake, hdrop]
    · have hge : ¬l.margin.eights < t.line.margin.eights := fun hgt => hlt (ht.mpr hgt)
      simp [hlt, hge]

/-- Steady lines have the same blocks in both dialects. -/
theorem ofLines_tolerant {lines : List Line} (h : Line.Steady lines) :
    ofLines .tolerant lines = ofLines .strict lines := by
  induction lines with
  | nil => rfl
  | cons l ls ih =>
    have hforest := ih fun m hm m' hm' => h m (List.mem_cons_of_mem _ hm) m' (List.mem_cons_of_mem _ hm')
    change attach .tolerant l (ofLines .tolerant ls) = attach .strict l (ofLines .strict ls)
    rw [hforest]
    refine attach_tolerant fun t ht => h l List.mem_cons_self t.line (List.mem_cons_of_mem _ ?_)
    rw [← linesAll_ofLines .strict ls]
    exact mem_linesAll ht t.line_mem_lines

/-- Both dialects find the same lines under one another in a text without carriage returns whose tokens are
all strictly tokens. -/
theorem ofText_tolerant {text : List Char} (hreturn : '\r' ∉ text)
    (hlexed : Grammar.lexedForest (ofText .strict text) = true)
    (hsteady : Line.Steady (linesAll (ofText .strict text))) : ofText .tolerant text = ofText .strict text := by
  have hread : ∀ d, readText d text = text := fun d => readText_eq_self d hreturn
  have hlines := linesAll_ofText .strict text
  rw [hread] at hlines
  have hitems : items .tolerant text = items .strict text := by
    refine Lexer.run_tolerant _ _ _ text hreturn fun t ht => ?_
    obtain ⟨l, hl, ht⟩ := Line.exists_mem_ofItems ht
    exact kind_of_lexedForest _ hlexed l (hlines.symm ▸ hl) t ht
  rw [hlines] at hsteady
  change ofLines .tolerant (Line.ofItems (items .tolerant (readText .tolerant text))) =
    ofLines .strict (Line.ofItems (items .strict (readText .strict text)))
  rw [hread, hread, hitems, ofLines_tolerant hsteady]

end Layout

end OutlineIndex.Source
