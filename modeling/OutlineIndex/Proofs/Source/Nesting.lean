import OutlineIndex.Proofs.Source.Ends

namespace OutlineIndex.Source

namespace Grammar

/-- Wherever a parser succeeds, what it finds starts with one of the tokens it was given. -/
def Starts (p : Parser Shape) : Prop := ∀ ts s left, p ts = some (s, left) → ∃ t ∈ ts, s.start = t.start

theorem markOf_mem {ts : List Token} (h : ts ≠ []) : ∃ t ∈ ts, markOf ts = t.start := by
  cases ts with
  | nil => exact absurd rfl h
  | cons t rest => exact ⟨t, by simp, rfl⟩

theorem ne_nil_of_symbol {s : String} {ts rest : List Token} (h : symbol s ts = some rest) : ts ≠ [] := by
  rintro rfl
  cases h

theorem ne_nil_of_word {w : String} {ts rest : List Token} (h : word w ts = some rest) : ts ≠ [] := by
  rintro rfl
  cases h

theorem Starts.ne_nil {p : Parser Shape} (hp : Starts p) {ts : List Token} {x : Shape × List Token}
    (h : p ts = some x) : ts ≠ [] := by
  obtain ⟨t, ht, -⟩ := hp ts x.1 x.2 h
  exact List.ne_nil_of_mem ht

namespace Rules

variable {r : Rules}

theorem starts_starNamed (hr : Starts r.named) : Starts r.starNamed := by
  intro ts s left h
  unfold starNamed at h
  split at h
  · rename_i rest hstar
    simp only [Option.bind_eq_bind, Option.bind_eq_some_iff] at h
    obtain ⟨x, -, hx⟩ := h
    cases hx
    exact markOf_mem (ne_nil_of_symbol hstar)
  · exact hr ts s left h

theorem starts_yields : Starts r.yields := by
  intro ts s left h
  unfold yields at h
  simp only [Option.bind_eq_bind, Option.bind_eq_some_iff] at h
  obtain ⟨rest, hword, h⟩ := h
  have hmark := markOf_mem (ne_nil_of_word hword)
  split at h
  · simp only [Option.bind_eq_some_iff] at h
    obtain ⟨x, -, hx⟩ := h
    cases hx
    exact hmark
  · split at h <;> · cases h; exact hmark

theorem start_trailers {first : Mark} {n : Nat} {s s' : Shape} {ts left : List Token}
    (h : r.trailers first n s ts = some (s', left)) : s'.start = s.start ∨ s'.start = first := by
  induction n generalizing s ts with
  | zero => cases h; exact .inl rfl
  | succ n ih =>
    have hfirst : ∀ {q : Shape} {us : List Token}, q.start = first →
        r.trailers first n q us = some (s', left) → s'.start = first := by
      intro q us hq h
      rcases ih h with e | e
      · exact e.trans hq
      · exact e
    unfold trailers at h
    split at h
    · simp only [Option.bind_eq_bind, Option.bind_eq_some_iff] at h
      obtain ⟨us, -, h⟩ := h
      exact .inr (hfirst rfl h)
    · simp only [Option.bind_eq_bind, Option.bind_eq_some_iff] at h
      obtain ⟨us, -, h⟩ := h
      exact .inr (hfirst rfl h)
    · simp only [Option.bind_eq_bind, Option.bind_eq_some_iff] at h
      obtain ⟨x, -, us, -, h⟩ := h
      exact .inr (hfirst rfl h)
    · cases h
      exact .inl rfl

/-- A group may keep the start of what it holds; all else starts at the opening parenthesis. -/
theorem start_parenthesised (hr : Starts r.named) {first : Mark} {ts left : List Token} {s : Shape}
    (h : r.parenthesised first ts = some (s, left)) : s.start = first ∨ ∃ t ∈ ts, s.start = t.start := by
  unfold parenthesised at h
  split at h
  · cases h
    exact .inl rfl
  split at h
  · simp only [Option.bind_eq_bind, Option.bind_eq_some_iff] at h
    obtain ⟨x, hx, us, -, e⟩ := h
    cases e
    exact .inr (starts_yields ts x.1 x.2 hx)
  · simp only [Option.bind_eq_bind, Option.bind_eq_some_iff] at h
    obtain ⟨x, hx, h⟩ := h
    have hstart := starts_starNamed hr ts x.1 x.2 hx
    split at h
    · split at h
      · cases h
      · simp only [Option.bind_eq_some_iff] at h
        obtain ⟨us, -, vs, -, e⟩ := h
        cases e
        exact .inl rfl
    split at h
    · split at h
      all_goals
        simp only [Option.bind_eq_some_iff] at h
        obtain ⟨us, -, e⟩ := h
        cases e
        exact .inl rfl
    · split at h
      · cases h
      · simp only [Option.bind_eq_some_iff] at h
        obtain ⟨us, -, e⟩ := h
        cases e
        exact .inr hstart

theorem start_bracketed {first : Mark} {ts left : List Token} {s : Shape}
    (h : r.bracketed first ts = some (s, left)) : s.start = first := by
  unfold bracketed at h
  split at h
  · cases h
    rfl
  simp only [Option.bind_eq_bind, Option.bind_eq_some_iff] at h
  obtain ⟨x, -, h⟩ := h
  split at h
  · split at h
    · simp only [Option.bind_eq_some_iff] at h
      obtain ⟨us, -, vs, -, e⟩ := h
      cases e
      rfl
    · cases h
  · simp only [Option.bind_eq_some_iff] at h
    obtain ⟨us, -, e⟩ := h
    cases e
    rfl

theorem start_braced {first : Mark} {ts left : List Token} {s : Shape}
    (h : r.braced first ts = some (s, left)) : s.start = first := by
  have hclose : ∀ {us : List Token}, ((symbol "\x7d" us).bind fun x => pure (Shape.plain first, x)) =
      some (s, left) → s.start = first := by
    intro us h
    obtain ⟨vs, -, e⟩ := Option.bind_eq_some_iff.mp h
    cases e
    rfl
  unfold braced at h
  dsimp only [Option.bind_eq_bind] at h
  split at h
  · exact hclose h
  split at h
  · obtain ⟨x, -, h⟩ := Option.bind_eq_some_iff.mp h
    split at h
    · cases h
    split at h
    · split at h <;> exact hclose h
    · exact hclose h
  obtain ⟨x, -, h⟩ := Option.bind_eq_some_iff.mp h
  split at h
  · split at h
    · cases h
    obtain ⟨y, -, h⟩ := Option.bind_eq_some_iff.mp h
    split at h
    · obtain ⟨us, -, h⟩ := Option.bind_eq_some_iff.mp h
      exact hclose h
    split at h
    · split at h <;> exact hclose h
    · exact hclose h
  · split at h
    · split at h
      · cases h
      obtain ⟨us, -, h⟩ := Option.bind_eq_some_iff.mp h
      exact hclose h
    split at h
    · split at h <;> exact hclose h
    · exact hclose h

theorem starts_atom (hr : Starts r.named) : Starts r.atom := by
  intro ts s left h
  cases ts with
  | nil => cases h
  | cons t rest =>
    have hhead : s.start = t.start → ∃ u ∈ t :: rest, s.start = u.start := fun e => ⟨t, by simp, e⟩
    unfold atom at h
    dsimp only at h
    split at h
    · split at h
      · cases h
        exact hhead rfl
      split at h
      · cases h
        exact hhead rfl
      · cases h
    · cases h
      exact hhead rfl
    · simp only [Option.map_eq_some_iff] at h
      obtain ⟨us, -, e⟩ := h
      cases e
      exact hhead rfl
    · split at h
      · rcases start_parenthesised hr h with e | ⟨u, hu, e⟩
        · exact hhead e
        · exact ⟨u, by simp [hu], e⟩
      split at h
      · exact hhead (start_bracketed h)
      split at h
      · exact hhead (start_braced h)
      split at h
      · cases h
        exact hhead rfl
      · cases h
    · cases h

end Rules

section

variable {r : Rules}

theorem starts_primaryRule (hr : Starts r.named) : Starts (primaryRule r) := by
  intro ts s left h
  obtain ⟨x, hx, h⟩ := Option.bind_eq_some_iff.mp h
  have hatom := Rules.starts_atom hr ts x.1 x.2 hx
  rcases Rules.start_trailers h with e | e
  · rw [e]
    exact hatom
  · rw [e]
    exact markOf_mem ((Rules.starts_atom hr).ne_nil hx)

theorem starts_factorRule (hr : Starts r.named) : Starts (factorRule r) := by
  intro ts s left h
  cases ts with
  | nil => cases h
  | cons t rest =>
    have hhead : s.start = t.start → ∃ u ∈ t :: rest, s.start = u.start := fun e => ⟨t, by simp, e⟩
    unfold factorRule at h
    dsimp only at h
    split at h
    · obtain ⟨x, -, e⟩ := Option.map_eq_some_iff.mp h
      cases e
      exact hhead rfl
    split at h
    · obtain ⟨x, -, e⟩ := Option.map_eq_some_iff.mp h
      cases e
      exact hhead rfl
    · exact starts_primaryRule hr _ s left h

theorem starts_operation {item : Parser Shape} (hi : Starts item)
    (op : List Token → Option (List Token)) : Starts (operation op item) := by
  intro ts s left h
  obtain ⟨x, hx, h⟩ := Option.bind_eq_some_iff.mp h
  obtain ⟨y, -, h⟩ := Option.bind_eq_some_iff.mp h
  cases h
  split
  · exact hi ts x.1 x.2 hx
  · exact markOf_mem (hi.ne_nil hx)

theorem starts_inversionRule (hr : Starts r.named) : Starts (inversionRule r) := by
  intro ts s left h
  unfold inversionRule at h
  split at h
  · rename_i rest hnot
    obtain ⟨x, -, e⟩ := Option.map_eq_some_iff.mp h
    cases e
    exact markOf_mem (ne_nil_of_word hnot)
  · exact starts_operation (starts_operation (starts_factorRule hr) _) _ ts s left h

theorem starts_expressionRule (hr : Starts r.named) : Starts (expressionRule r) := by
  have hdisjunction : Starts (disjunctionRule r) := starts_operation (starts_inversionRule hr) _
  intro ts s left h
  unfold expressionRule at h
  split at h
  · rename_i rest hlambda
    obtain ⟨us, -, h⟩ := Option.bind_eq_some_iff.mp h
    obtain ⟨vs, -, h⟩ := Option.bind_eq_some_iff.mp h
    obtain ⟨x, -, h⟩ := Option.bind_eq_some_iff.mp h
    cases h
    exact markOf_mem (ne_nil_of_word hlambda)
  · obtain ⟨⟨s₀, left₀⟩, hx, h⟩ := Option.bind_eq_some_iff.mp h
    dsimp only at h
    split at h
    · obtain ⟨y, -, h⟩ := Option.bind_eq_some_iff.mp h
      obtain ⟨us, -, h⟩ := Option.bind_eq_some_iff.mp h
      obtain ⟨z, -, h⟩ := Option.bind_eq_some_iff.mp h
      cases h
      exact markOf_mem (hdisjunction.ne_nil hx)
    · cases h
      exact hdisjunction ts _ _ hx

theorem starts_namedRule (hr : Starts r.named) : Starts (namedRule r) := by
  intro ts s left h
  unfold namedRule at h
  split at h
  · split at h
    · obtain ⟨x, -, e⟩ := Option.map_eq_some_iff.mp h
      cases e
      exact ⟨_, by simp, rfl⟩
    · exact starts_expressionRule hr _ s left h
  · exact starts_expressionRule hr _ s left h

end

theorem starts_named (n : Nat) : Starts (rules n).named := by
  induction n with
  | zero =>
    intro ts s left h
    cases h
  | succ n ih => exact starts_namedRule ih

theorem decoratorStart?_mem {ts : List Token} {m : Mark} (h : decoratorStart? ts = some m) :
    ∃ t ∈ ts, m = t.start := by
  obtain ⟨x, hx, e⟩ := Option.map_eq_some_iff.mp h
  obtain ⟨t, ht, hs⟩ := starts_named _ ts x.1 x.2 hx
  exact ⟨t, ht, e.symm.trans hs⟩

end Grammar

namespace Sentence

/-- The expression of a decorator starts on the line of one of its tokens. -/
theorem line_expressionOf {l : Line} (h : l.tokens ≠ []) : ∃ t ∈ l.tokens, (expressionOf l).line = t.start.line := by
  unfold expressionOf
  cases hm : Grammar.decoratorStart? l.tokens.tail with
  | none =>
    obtain ⟨t, ht, e⟩ := Line.start_mem h
    have hline : l.start.line = t.start.line := congrArg Mark.line e
    exact ⟨t, ht, hline⟩
  | some m =>
    obtain ⟨t, ht, e⟩ := Grammar.decoratorStart?_mem hm
    exact ⟨t, List.mem_of_mem_tail ht, congrArg Mark.line e⟩

/-- The head of a definition lies between the lines `n` and `m`, below its decorators and not below its
end. -/
structure Framed (d : Dialect) (n m : Nat) (decorators : List Line) (layout : Layout) : Prop where
  nonempty : ∀ l ∈ decorators, l.tokens ≠ []
  lead : ∀ l ∈ decorators, ∀ t ∈ l.tokens, n ≤ t.start.line ∧ t.start.line < layout.line.start.line
  start : n ≤ layout.line.start.line
  stop : layout.line.start.Le (stopOf d layout)
  above : (stopOf d layout).line < m

/-- A sentence that is no definition, or one that does not end behind `m`. -/
def StopsBy (d : Dialect) (m : Mark) : Sentence → Prop
  | .definition _ _ _ layout _ => (stopOf d layout).Le m
  | .imports _ => True
  | .compound _ => True

mutual

/-- The definitions of a sentence lie between the lines `n` and `m`, and each inner one starts on a later
line than the one around it and does not end behind it. -/
def Nested (d : Dialect) (n m : Nat) : Sentence → Prop
  | .definition _ _ decorators layout body =>
    Framed d n m decorators layout ∧ (∀ s ∈ body, s.StopsBy d (stopOf d layout)) ∧
      NestedAll d (layout.line.start.line + 1) m body
  | .imports _ => True
  | .compound _ => True

/-- Besides, the definitions of a sentence end above those of the sentences after it. -/
def NestedAll (d : Dialect) (n m : Nat) : List Sentence → Prop
  | [] => True
  | s :: ss => ∃ k, n ≤ k ∧ k ≤ m ∧ Nested d n k s ∧ NestedAll d k m ss

end

section Bounds

variable {d : Dialect}

theorem Nested.mono {n k m : Nat} (hnk : n ≤ k) {s : Sentence} (h : Nested d k m s) : Nested d n m s := by
  cases s with
  | definition =>
    obtain ⟨⟨hne, hlead, hstart, hstop, habove⟩, hbody⟩ := h
    refine ⟨⟨hne, fun l hl t ht => ?_, Nat.le_trans hnk hstart, hstop, habove⟩, hbody⟩
    exact ⟨Nat.le_trans hnk (hlead l hl t ht).1, (hlead l hl t ht).2⟩
  | imports => trivial
  | compound => trivial

theorem NestedAll.mono {n k m : Nat} (hnk : n ≤ k) {ss : List Sentence} (h : NestedAll d k m ss) :
    NestedAll d n m ss := by
  cases ss with
  | nil => trivial
  | cons s ss =>
    obtain ⟨i, hki, him, hs, hss⟩ := h
    exact ⟨i, Nat.le_trans hnk hki, him, hs.mono hnk, hss⟩

mutual

theorem Nested.widen {n k m : Nat} (hkm : k ≤ m) (s : Sentence) (h : Nested d n k s) : Nested d n m s := by
  match s with
  | .definition _ _ _ _ body =>
    obtain ⟨⟨hne, hlead, hstart, hstop, habove⟩, hinner, hbody⟩ := h
    exact ⟨⟨hne, hlead, hstart, hstop, Nat.lt_of_lt_of_le habove hkm⟩, hinner, NestedAll.widen hkm body hbody⟩
  | .imports _ => trivial
  | .compound _ => trivial

theorem NestedAll.widen {n k m : Nat} (hkm : k ≤ m) (ss : List Sentence) (h : NestedAll d n k ss) :
    NestedAll d n m ss := by
  match ss with
  | [] => trivial
  | s :: ss =>
    obtain ⟨i, hni, hik, hs, hss⟩ := h
    exact ⟨i, hni, Nat.le_trans hik hkm, hs, NestedAll.widen hkm ss hss⟩

end

theorem NestedAll.of_mem {n m : Nat} {ss : List Sentence} (h : NestedAll d n m ss) {s : Sentence}
    (hs : s ∈ ss) : Nested d n m s := by
  induction ss generalizing n with
  | nil => cases hs
  | cons s' ss ih =>
    obtain ⟨k, hnk, hkm, hs', hss⟩ := h
    rcases List.mem_cons.mp hs with rfl | hs
    · exact Nested.widen hkm s hs'
    · exact (ih hss hs).mono hnk

theorem nestedAll_append {n k m : Nat} (hnk : n ≤ k) (hkm : k ≤ m) {a b : List Sentence}
    (ha : NestedAll d n k a) (hb : NestedAll d k m b) : NestedAll d n m (a ++ b) := by
  induction a generalizing n with
  | nil => exact hb.mono hnk
  | cons s a ih =>
    obtain ⟨i, hni, hik, hs, ha⟩ := ha
    exact ⟨i, hni, Nat.le_trans hik hkm, hs, ih hik ha⟩

/-- Imports take up no lines. -/
theorem nestedAll_imports {n m : Nat} (hnm : n ≤ m) (is : List Import) : NestedAll d n m (is.map imports) := by
  induction is with
  | nil => trivial
  | cons i is ih => exact ⟨n, Nat.le_refl _, hnm, trivial, ih⟩

end Bounds

theorem clause_eq (n : Nat) (body : List Sentence) : ∃ inner, clause n body = compound inner := by
  cases n with
  | zero => exact ⟨_, rfl⟩
  | succ n => exact ⟨_, rfl⟩

theorem lineImports_eq (sel : Bool) (l : Line) : ∃ is : List Import, lineImports sel l = is.map imports := ⟨_, rfl⟩

section Stops

variable {d : Dialect} {sel : Bool} {elifs : Nat} {decorators : List Line} {s : Sentence}

theorem stopsBy_of_mem_imports {m : Mark} {is : List Import} (hs : s ∈ is.map imports) : s.StopsBy d m := by
  obtain ⟨i, -, rfl⟩ := List.mem_map.mp hs
  trivial

theorem stopsBy_of_mem_ofTree {t : Layout} (hs : s ∈ ofTree sel elifs decorators t) :
    s.StopsBy d (stopOf d t) := by
  obtain ⟨line, block⟩ := t
  rw [ofTree] at hs
  split at hs
  · obtain rfl := List.mem_singleton.mp hs
    exact Mark.Le.refl _
  split at hs
  · obtain rfl := List.mem_singleton.mp hs
    obtain ⟨inner, e⟩ := clause_eq (clauseDepth elifs (headWord line))
      (lineImports sel line ++ ofForest (headWord line == "match") 0 [] block)
    rw [e]
    trivial
  · rcases List.mem_append.mp hs with hs | hs
    · exact stopsBy_of_mem_imports hs
    · split at hs
      · cases hs
      · obtain rfl := List.mem_singleton.mp hs
        trivial

/-- A definition in a block ends by where one of the trees of the block ends. -/
theorem stopsBy_of_mem_ofForest {ts : List Layout} (hs : s ∈ ofForest sel elifs decorators ts) :
    ∃ t ∈ ts, s.StopsBy d (stopOf d t) := by
  induction ts generalizing elifs decorators with
  | nil => simp [ofForest] at hs
  | cons t ts ih =>
    have hlater : (∃ u ∈ ts, s.StopsBy d (stopOf d u)) → ∃ u ∈ t :: ts, s.StopsBy d (stopOf d u) :=
      fun ⟨u, hu, h⟩ => ⟨u, List.mem_cons_of_mem _ hu, h⟩
    rw [ofForest] at hs
    split at hs
    · exact hlater (ih hs)
    · rcases List.mem_append.mp hs with hs | hs
      · exact ⟨t, List.mem_cons_self, stopsBy_of_mem_ofTree hs⟩
      · exact hlater (ih hs)

theorem StopsBy.trans {a b : Mark} (h : s.StopsBy d a) (hab : a.Le b) : s.StopsBy d b := by
  cases s with
  | definition => exact Mark.Le.trans h hab
  | imports => trivial
  | compound => trivial

end Stops

/-- All tokens of some lines start below the line `n`. -/
def Below (n : Nat) (lines : List Line) : Prop := ∀ l ∈ lines, ∀ t ∈ l.tokens, n < t.start.line

/-- The decorators just read have tokens, which start on the line `n` or below and above the lines. -/
def Leading (n : Nat) (decorators lines : List Line) : Prop :=
  ∀ l ∈ decorators, l.tokens ≠ [] ∧ ∀ t ∈ l.tokens, n ≤ t.start.line ∧ Below t.start.line lines

theorem Leading.mono {n : Nat} {decorators lines rest : List Line} (h : Leading n decorators lines)
    (hsub : ∀ l ∈ rest, l ∈ lines) : Leading n decorators rest := fun l hl =>
  ⟨(h l hl).1, fun t ht => ⟨((h l hl).2 t ht).1, fun l' hl' => ((h l hl).2 t ht).2 l' (hsub l' hl')⟩⟩

/-- The head of a definition between the lines on which its tree lies. -/
theorem framed_of_leading {d : Dialect} {n m : Nat} {decorators : List Line} {line : Line} {block : List Layout}
    (ho : Line.InOrder (Layout.node line block).lines) (hb : Line.Between n m (Layout.node line block).lines)
    (hp : Leading n decorators (Layout.node line block).lines) : Framed d n m decorators (.node line block) := by
  have hsound := ho.sound line List.mem_cons_self
  obtain ⟨t, ht, e⟩ := Line.start_mem hsound.nonempty
  have hstop := stopOf_mem_ends d (.node line block)
  refine ⟨fun l hl => (hp l hl).1, fun l hl u hu => ?_, ?_, ?_, ?_⟩
  · obtain ⟨hn, hbelow⟩ := (hp l hl).2 u hu
    refine ⟨hn, ?_⟩
    change u.start.line < line.start.line
    rw [e]
    exact hbelow line List.mem_cons_self t ht
  · change n ≤ line.start.line
    rw [e]
    exact (hb line List.mem_cons_self).1 t ht
  · change line.start.Le _
    rw [e]
    rcases List.mem_cons.mp (Layout.lastLine_mem (.node line block)) with hlast | hlast
    · rw [hlast] at hstop
      exact hsound.reach t ht _ hstop
    · -- the last line lies below the head
      have hlastSound := ho.sound _ (List.mem_cons_of_mem _ hlast)
      obtain ⟨u, hu, -⟩ := Line.start_mem hlastSound.nonempty
      have hlt := hsound.lt_of_before ((List.pairwise_cons.mp ho.pairwise).1 _ hlast) ht hu
      exact .inl (Nat.lt_of_lt_of_le hlt (hlastSound.reach u hu _ hstop).line_le)
  · exact (hb _ (Layout.lastLine_mem _)).2 _ hstop

mutual

theorem nestedAll_ofTree (d : Dialect) (sel : Bool) (elifs : Nat) (decorators : List Line) (n m : Nat)
    (hnm : n ≤ m) (t : Layout) (ho : Line.InOrder t.lines) (hb : Line.Between n m t.lines) (hdeep : t.Deep d)
    (hp : Leading n decorators t.lines) : NestedAll d n m (ofTree sel elifs decorators t) := by
  match t with
  | .node line block =>
    have hblock : Line.InOrder (Layout.linesAll block) :=
      ⟨(List.pairwise_cons.mp ho.pairwise).2, fun l hl => ho.sound l (List.mem_cons_of_mem _ hl)⟩
    have hframed := framed_of_leading (d := d) ho hb hp
    have hstart := hframed.stop.line_le
    have hstop := hframed.above
    have hsound := ho.sound line List.mem_cons_self
    obtain ⟨u, hu, e⟩ := Line.start_mem hsound.nonempty
    have hbetween : Line.Between (line.start.line + 1) m (Layout.linesAll block) := by
      intro l hl
      refine ⟨fun v hv => ?_, (hb l (List.mem_cons_of_mem _ hl)).2⟩
      rw [e]
      exact hsound.lt_of_before ((List.pairwise_cons.mp ho.pairwise).1 l hl) hu hv
    have hle : line.start.line + 1 ≤ m := Nat.lt_of_le_of_lt hstart hstop
    have hbelow := nestedAll_ofForest d (headWord line == "match") 0 [] _ m hle block hblock hbetween hdeep.2
      (by simp [Leading])
    obtain ⟨is, himports⟩ := lineImports_eq sel line
    rw [ofTree, himports]
    split
    · refine ⟨m, hnm, Nat.le_refl _, ⟨hframed, fun s hs => ?_, ?_⟩, trivial⟩
      · rcases List.mem_append.mp hs with hs | hs
        · exact stopsBy_of_mem_imports hs
        · obtain ⟨t, ht, hstops⟩ := stopsBy_of_mem_ofForest (d := d) hs
          exact hstops.trans (stopOf_le ho hdeep.2 ht)
      · exact nestedAll_append (Nat.le_refl _) hle (nestedAll_imports (Nat.le_refl _) is) hbelow
    split
    · obtain ⟨inner, hclause⟩ := clause_eq (clauseDepth elifs (headWord line))
        (is.map imports ++ ofForest (headWord line == "match") 0 [] block)
      rw [hclause]
      exact ⟨m, hnm, Nat.le_refl _, trivial, trivial⟩
    · refine nestedAll_append (Nat.le_refl _) hnm (nestedAll_imports (Nat.le_refl _) is) ?_
      split
      · trivial
      · exact ⟨m, hnm, Nat.le_refl _, trivial, trivial⟩

theorem nestedAll_ofForest (d : Dialect) (sel : Bool) (elifs : Nat) (decorators : List Line) (n m : Nat)
    (hnm : n ≤ m) (ts : List Layout) (ho : Line.InOrder (Layout.linesAll ts))
    (hb : Line.Between n m (Layout.linesAll ts)) (hdeep : Layout.DeepAll d ts)
    (hp : Leading n decorators (Layout.linesAll ts)) : NestedAll d n m (ofForest sel elifs decorators ts) := by
  match ts with
  | [] => trivial
  | t :: ts =>
    obtain ⟨htree, hrest, hbetween⟩ := List.pairwise_append.mp ho.pairwise
    have hinTree : Line.InOrder t.lines := ⟨htree, fun l hl => ho.sound l (List.mem_append_left _ hl)⟩
    have hinRest : Line.InOrder (Layout.linesAll ts) :=
      ⟨hrest, fun l hl => ho.sound l (List.mem_append_right _ hl)⟩
    have hright : ∀ l ∈ Layout.linesAll ts, l ∈ Layout.linesAll (t :: ts) :=
      fun l hl => List.mem_append_right _ hl
    rw [ofForest]
    split
    · refine nestedAll_ofForest d sel 0 _ n m hnm ts hinRest (fun l hl => hb l (hright l hl)) hdeep.2 ?_
      intro l hl
      rcases List.mem_append.mp hl with hl | hl
      · exact hp.mono hright l hl
      · obtain rfl := List.mem_singleton.mp hl
        have hmem : t.line ∈ t.lines := by
          cases t with
          | node l b => exact List.mem_cons_self
        have hsound := hinTree.sound t.line hmem
        exact ⟨hsound.nonempty, fun u hu => ⟨(hb t.line (List.mem_append_left _ hmem)).1 u hu,
          fun l hl v hv => hsound.lt_of_before (hbetween t.line hmem l hl) hu hv⟩⟩
    · obtain ⟨k, hnk, hkm, habove, hbelow⟩ := Line.exists_between hnm hb hbetween
      refine nestedAll_append hnk hkm ?_ (nestedAll_ofForest d sel _ [] k m hkm ts hinRest hbelow hdeep.2
        (by simp [Leading]))
      exact nestedAll_ofTree d sel elifs decorators n k hnk t hinTree habove hdeep.1
        (hp.mono fun l hl => List.mem_append_left _ hl)

end

/-- The definitions of a text are nested by lines, and all end where the text ends or above. -/
theorem nestedAll_ofText (d : Dialect) (text : List Char) :
    NestedAll d 0 ((Layout.readText d text).count '\n' + 1) (ofForest false 0 [] (Layout.ofText d text)) := by
  obtain ⟨hinOrder, hbetween⟩ := Layout.inOrder_ofText d text
  exact nestedAll_ofForest d false 0 [] 0 _ (Nat.zero_le _) _ hinOrder hbetween (Layout.deepAll_ofLines d _)
    (by simp [Leading])

end Sentence

end OutlineIndex.Source
