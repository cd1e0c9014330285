import OutlineIndex.Proofs.Source.Nesting

namespace OutlineIndex.Source

namespace Located

mutual

/-- Whatever starts in a definition does not start behind its end. -/
theorem le_stop_of_mem_starts {text : List Char} (x : Located) (h : x.Laid text) {a : Mark}
    (ha : a ∈ x.starts) : a.Le x.stop := by
  match x with
  | .mk kind name start stop inner =>
    obtain ⟨hle, hinner, hall⟩ := h
    rcases List.mem_cons.mp ha with rfl | ha
    · exact hle
    · exact le_stop_of_mem_startsAll inner hall (fun y hy => (hinner y hy).2) ha

theorem le_stop_of_mem_startsAll {text : List Char} {stop : Mark} (xs : List Located) (h : LaidAll text xs)
    (hstop : ∀ x ∈ xs, x.stop.Le stop) {a : Mark} (ha : a ∈ startsAll xs) : a.Le stop := by
  match xs with
  | [] => cases ha
  | x :: xs =>
    obtain ⟨hx, -, hxs⟩ := h
    rcases List.mem_append.mp ha with ha | ha
    · exact (le_stop_of_mem_starts x hx ha).trans (hstop x List.mem_cons_self)
    · exact le_stop_of_mem_startsAll xs hxs (fun y hy => hstop y (List.mem_cons_of_mem _ hy)) ha

end

end Located

namespace Program.Statement

theorem OpensAfter.before {text : List Char} {a : Mark} {decorators : List Mark} {start : Mark}
    (h : OpensAfter text a decorators start) : a.Before text (startOf decorators start) := by
  obtain ⟨hopens, hwhole⟩ := h
  have hlt : a.Lt (startOf decorators start) := by
    cases decorators with
    | nil => exact hopens
    | cons e _ =>
      obtain ⟨sign, hsign, he⟩ := hopens
      change a.line < e.line ∨ a.line = e.line ∧ a.column < e.column - 1
      unfold Mark.Lt at hsign he
      omega
  rcases hlt with hline | ⟨hline, hcolumn⟩
  · exact .inl hline
  · exact .inr ⟨hline, hcolumn, hwhole hline⟩

theorem OpensFrom.le {a : Mark} {decorators : List Mark} {start : Mark} (h : OpensFrom a decorators start) :
    a.Le (startOf decorators start) := by
  cases decorators with
  | nil => exact h
  | cons e _ =>
    obtain ⟨sign, hsign, he⟩ := h
    change a.line < e.line ∨ a.line = e.line ∧ a.column ≤ e.column - 1
    unfold Mark.Le at hsign
    unfold Mark.Lt at he
    omega

/-- A definition is taken to start at its keyword or on a line above. -/
theorem startOf_cases {decorators : List Mark} {start : Mark}
    (h : ∀ e ∈ decorators.head?, e.line < start.line) :
    startOf decorators start = start ∨ (startOf decorators start).line < start.line := by
  cases decorators with
  | nil => exact .inl rfl
  | cons e _ => exact .inr (h e rfl)

theorem mem_locatedAll {ss : List Statement} {x : Located} (hx : x ∈ locatedAll ss) :
    ∃ kind name decorators start stop body, .definition kind name decorators start stop body ∈ ss ∧
      x = .mk kind name (startOf decorators start) stop (locatedAll body) := by
  induction ss with
  | nil => cases hx
  | cons s ss ih =>
    rcases List.mem_append.mp hx with hx | hx
    · cases s with
      | definition kind name decorators start stop body =>
        exact ⟨kind, name, decorators, start, stop, body, List.mem_cons_self, List.mem_singleton.mp hx⟩
      | imports _ => cases hx
      | importsFrom _ _ _ => cases hx
      | compound _ => cases hx
    · obtain ⟨kind, name, decorators, start, stop, body, hmem, e⟩ := ih hx
      exact ⟨kind, name, decorators, start, stop, body, List.mem_cons_of_mem _ hmem, e⟩

mutual

/-- Where the statements of a program are nested and disjoint, so are the definitions found in them. -/
theorem laid_of_mem_located {text : List Char} (s : Statement) (h : s.Laid text) {x : Located}
    (hx : x ∈ located s) : x.Laid text := by
  match s with
  | .definition kind name decorators start stop body =>
    obtain ⟨hdecorators, hle, hinside, hbody⟩ := h
    have hcases := startOf_cases hdecorators
    obtain rfl := List.mem_singleton.mp hx
    refine ⟨?_, fun y hy => ?_, laidAll_locatedAll body hbody⟩
    · rcases hcases with e | hline
      · rwa [e]
      · exact .inl (Nat.lt_of_lt_of_le hline hle.line_le)
    · obtain ⟨kind', name', decorators', start', stop', body', hmem, rfl⟩ := mem_locatedAll hy
      obtain ⟨hopens, hstop⟩ := hinside _ hmem
      refine ⟨?_, hstop⟩
      rcases hcases with e | hline
      · rw [e]
        exact hopens.before
      · exact .inl (Nat.lt_of_lt_of_le hline hopens.before.le.line_le)
  | .imports _ => cases hx
  | .importsFrom _ _ _ => cases hx
  | .compound _ => cases hx

theorem laidAll_locatedAll {text : List Char} (ss : List Statement) (h : LaidAll text ss) :
    Located.LaidAll text (locatedAll ss) := by
  match ss with
  | [] => trivial
  | s :: ss =>
    obtain ⟨hs, hfollows, hss⟩ := h
    have hrest := laidAll_locatedAll ss hss
    have hlaid : ∀ x ∈ located s, x.Laid text := fun x hx => laid_of_mem_located s hs hx
    match s with
    | .definition kind name decorators start stop body =>
      refine ⟨hlaid _ List.mem_cons_self, fun y hy => ?_, hrest⟩
      obtain ⟨kind', name', decorators', start', stop', body', hmem, rfl⟩ := mem_locatedAll hy
      obtain ⟨hopens, hfrom, hstop⟩ := hfollows _ hmem
      exact ⟨fun a ha => (hopens a ha).before, hfrom.le, hstop⟩
    | .imports _ => exact hrest
    | .importsFrom _ _ _ => exact hrest
    | .compound _ => exact hrest

end

/-- A definition that starts on a later line opens behind a place. -/
theorem opensAfter_of_line_lt {text : List Char} {a : Mark} {decorators : List Mark} {start : Mark}
    (h : a.line < (startOf decorators start).line) : OpensAfter text a decorators start := by
  refine ⟨?_, fun e => absurd e (Nat.ne_of_lt h)⟩
  cases decorators with
  | nil => exact .inl h
  | cons e _ =>
    have hline : a.line < e.line := h
    refine ⟨⟨e.line - 1, a.column + 1⟩, ?_, .inl ?_⟩
    · rcases Nat.lt_or_ge a.line (e.line - 1) with hlt | hge
      · exact .inl hlt
      · exact .inr ⟨by change a.line = e.line - 1; omega, Nat.lt_succ_self _⟩
    · change e.line - 1 < e.line
      omega

theorem opensFrom_of_line_lt {a : Mark} {decorators : List Mark} {start : Mark}
    (h : a.line < (startOf decorators start).line) : OpensFrom a decorators start := by
  cases decorators with
  | nil => exact .inl h
  | cons e _ =>
    have hline : a.line < e.line := h
    refine ⟨⟨e.line - 1, a.column⟩, ?_, .inl ?_⟩
    · rcases Nat.lt_or_ge a.line (e.line - 1) with hlt | hge
      · exact .inl hlt
      · exact .inr ⟨by change a.line = e.line - 1; omega, Nat.le_refl _⟩
    · change e.line - 1 < e.line
      omega

end Program.Statement

namespace Sentence

theorem mem_statements {normal : String → String} {ss : List Sentence} {x : Program.Statement} :
    x ∈ statements normal ss ↔ ∃ s ∈ ss, x = statement normal s := by
  induction ss with
  | nil => simp [statements]
  | cons s ss ih => simp [statements, ih]

section Program

variable {text : List Char} {normal : String → String}

/-- A definition starts on the line `n` or below, decorators included. -/
theorem Framed.le_startOf {d : Dialect} {n m : Nat} {decorators : List Line} {layout : Layout}
    (h : Framed d n m decorators layout) :
    n ≤ (Program.Statement.startOf (decorators.map expressionOf) layout.line.start).line := by
  cases decorators with
  | nil => exact h.start
  | cons l _ =>
    obtain ⟨t, ht, e⟩ := line_expressionOf (h.nonempty l List.mem_cons_self)
    change n ≤ (expressionOf l).line
    rw [e]
    exact (h.lead l List.mem_cons_self t ht).1

theorem Framed.expression_lt {d : Dialect} {n m : Nat} {decorators : List Line} {layout : Layout}
    (h : Framed d n m decorators layout) {e : Mark} (he : e ∈ (decorators.map expressionOf).head?) :
    e.line < layout.line.start.line := by
  cases decorators with
  | nil => cases he
  | cons l _ =>
    obtain rfl : expressionOf l = e := by simpa using he
    obtain ⟨t, ht, hline⟩ := line_expressionOf (h.nonempty l List.mem_cons_self)
    rw [hline]
    exact (h.lead l List.mem_cons_self t ht).2

theorem inside_statement {start stop : Mark} {m : Nat} {s : Sentence}
    (h : Nested .strict (start.line + 1) m s) (hstop : s.StopsBy .strict stop) :
    (statement normal s).Inside text start stop := by
  cases s with
  | definition kind name decorators layout body =>
    exact ⟨Program.Statement.opensAfter_of_line_lt h.1.le_startOf, hstop⟩
  | imports i => cases i <;> trivial
  | compound inner => trivial

theorem follows_statement {n k m : Nat} {s s' : Sentence} (h : Nested .strict n k s)
    (hlaid : (statement normal s).Laid text) (h' : Nested .strict k m s') :
    (statement normal s).Follows text (statement normal s') := by
  cases s with
  | definition kind name decorators layout body =>
    cases s' with
    | definition kind' name' decorators' layout' body' =>
      have hle := h'.1.le_startOf
      have hstop := h.1.above
      refine ⟨fun a ha => Program.Statement.opensAfter_of_line_lt ?_,
        Program.Statement.opensFrom_of_line_lt ?_, .inl ?_⟩
      · have hbound := Located.le_stop_of_mem_starts _
          (Program.Statement.laid_of_mem_located _ hlaid List.mem_cons_self) ha
        exact Nat.lt_of_lt_of_le (Nat.lt_of_le_of_lt hbound.line_le hstop) hle
      · exact Nat.lt_of_lt_of_le hstop hle
      · exact Nat.lt_of_lt_of_le hstop (Nat.le_trans h'.1.start h'.1.stop.line_le)
    | imports i => cases i <;> trivial
    | compound inner => trivial
  | imports i => cases i <;> trivial
  | compound inner => trivial

mutual

theorem laid_statement {n m : Nat} (s : Sentence) (h : Nested .strict n m s) :
    (statement normal s).Laid text := by
  match s with
  | .definition kind name decorators layout body =>
    obtain ⟨hframed, hinner, hbody⟩ := h
    refine ⟨fun e he => hframed.expression_lt he, hframed.stop, fun x hx => ?_, laidAll_statements body hbody⟩
    obtain ⟨s, hs, rfl⟩ := mem_statements.mp hx
    exact inside_statement (hbody.of_mem hs) (hinner s hs)
  | .imports i => cases i <;> trivial
  | .compound inner => trivial

theorem laidAll_statements {n m : Nat} (ss : List Sentence) (h : NestedAll .strict n m ss) :
    Program.Statement.LaidAll text (statements normal ss) := by
  match ss with
  | [] => trivial
  | s :: ss =>
    obtain ⟨k, hnk, hkm, hs, hss⟩ := h
    have hlaid : (statement normal s).Laid text := laid_statement s hs
    refine ⟨hlaid, fun x hx => ?_, laidAll_statements ss hss⟩
    obtain ⟨s', hs', rfl⟩ := mem_statements.mp hx
    exact follows_statement hs hlaid (hss.of_mem hs')

end

end Program

section Tree

/-- Where a definition is taken to start: at the sign of its first decorator, or at its own line. -/
def opening (decorators : List Line) (layout : Layout) : Mark :=
  ((decorators.head?.map Line.start).getD layout.line.start)

/-- The node of a definition is found with its definitions inside. -/
theorem located_tree (kind : DefinitionKind) (name : Token) (decorators : List Line) (layout : Layout)
    (body : List Sentence) : (tree (.definition kind name decorators layout body)).located =
      [.mk kind name.text (opening decorators layout) (stopOf .tolerant layout) (Tree.locatedAll (trees body))] := by
  cases kind <;> cases decorators <;> rfl

theorem located_tree_import (i : Import) : i.tree.located = [] := by
  cases i with
  | modules names => rfl
  | members dots module names =>
    unfold Import.tree
    dsimp only
    split <;> rfl

theorem mem_locatedAll_trees {ss : List Sentence} {x : Located} (hx : x ∈ Tree.locatedAll (trees ss)) :
    ∃ kind name decorators layout body, .definition kind name decorators layout body ∈ ss ∧
      x = .mk kind name.text (opening decorators layout) (stopOf .tolerant layout) (Tree.locatedAll (trees body)) := by
  induction ss with
  | nil => simp [trees, Tree.locatedAll] at hx
  | cons s ss ih =>
    rw [trees, Tree.locatedAll] at hx
    rcases List.mem_append.mp hx with hx | hx
    · cases s with
      | definition kind name decorators layout body =>
        rw [located_tree] at hx
        exact ⟨kind, name, decorators, layout, body, List.mem_cons_self, List.mem_singleton.mp hx⟩
      | imports i =>
        rw [tree, located_tree_import] at hx
        cases hx
      | compound inner => cases hx
    · obtain ⟨kind, name, decorators, layout, body, hmem, e⟩ := ih hx
      exact ⟨kind, name, decorators, layout, body, List.mem_cons_of_mem _ hmem, e⟩

/-- A definition opens on the line `n` or below, and not below its own line. -/
theorem Framed.opening_bounds {d : Dialect} {n m : Nat} {decorators : List Line} {layout : Layout}
    (h : Framed d n m decorators layout) : n ≤ (opening decorators layout).line ∧
      (opening decorators layout).Le layout.line.start := by
  cases decorators with
  | nil => exact ⟨h.start, .refl _⟩
  | cons l _ =>
    obtain ⟨t, ht, e⟩ := Line.start_mem (h.nonempty l List.mem_cons_self)
    have hlead := h.lead l List.mem_cons_self t ht
    change n ≤ l.start.line ∧ l.start.Le layout.line.start
    rw [e]
    exact ⟨hlead.1, .inl hlead.2⟩

mutual

theorem laid_located (text : List Char) {n m : Nat} (s : Sentence) (h : Nested .tolerant n m s) :
    ∀ x ∈ (tree s).located, x.Laid text := by
  match s with
  | .definition kind name decorators layout body =>
    obtain ⟨hframed, hinner, hbody⟩ := h
    have hopening := hframed.opening_bounds
    rw [located_tree]
    intro x hx
    obtain rfl := List.mem_singleton.mp hx
    refine ⟨hopening.2.trans hframed.stop, fun y hy => ?_, laidAll_located text body hbody⟩
    obtain ⟨kind', name', decorators', layout', body', hmem, rfl⟩ := mem_locatedAll_trees hy
    have hnested := hbody.of_mem hmem
    refine ⟨.inl ?_, hinner _ hmem⟩
    exact Nat.lt_of_le_of_lt hopening.2.line_le (hnested.1.opening_bounds.1)
  | .imports i =>
    rw [tree, located_tree_import]
    intro x hx
    cases hx
  | .compound inner =>
    intro x hx
    cases hx

theorem laidAll_located (text : List Char) {n m : Nat} (ss : List Sentence) (h : NestedAll .tolerant n m ss) :
    Located.LaidAll text (Tree.locatedAll (trees ss)) := by
  match ss with
  | [] => trivial
  | s :: ss =>
    obtain ⟨k, hnk, hkm, hs, hss⟩ := h
    have hrest := laidAll_located text ss hss
    have hlaid := laid_located text s hs
    rw [trees, Tree.locatedAll]
    match s with
    | .definition kind name decorators layout body =>
      rw [located_tree] at hlaid ⊢
      refine ⟨hlaid _ List.mem_cons_self, fun y hy => ?_, hrest⟩
      obtain ⟨kind', name', decorators', layout', body', hmem, rfl⟩ := mem_locatedAll_trees hy
      obtain ⟨hframed', -⟩ := hss.of_mem hmem
      have hopening' := hframed'.opening_bounds
      have hstop : (stopOf .tolerant layout).line < (opening decorators' layout').line :=
        Nat.lt_of_lt_of_le hs.1.above hopening'.1
      refine ⟨fun a ha => .inl ?_, .inl hstop, .inl ?_⟩
      · have hbound := Located.le_stop_of_mem_starts _ (hlaid _ List.mem_cons_self) ha
        exact Nat.lt_of_le_of_lt hbound.line_le hstop
      · exact Nat.lt_of_lt_of_le hstop (hopening'.2.trans hframed'.stop).line_le
    | .imports i =>
      rw [tree, located_tree_import]
      exact hrest
    | .compound inner => exact hrest

end

end Tree

end Sentence

end OutlineIndex.Source
