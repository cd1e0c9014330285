import OutlineIndex.Proofs.CodeMap

namespace OutlineIndex

open Source (Located)

theorem Source.Mark.Before.trans {text : List Char} {a b c : Mark} (hab : a.Before text b)
    (hbc : b.Before text c) : a.Before text c := by
  rcases hab with hab | ⟨hab, hcolumn, hwhole, -⟩
  · exact .inl (Nat.lt_of_lt_of_le hab (Mark.Before.le hbc).line_le)
  · rcases hbc with hbc | ⟨hbc, hcolumn', -, hwhole'⟩
    · exact .inl (hab ▸ hbc)
    · exact .inr ⟨hab.trans hbc, Nat.lt_trans hcolumn hcolumn', hwhole, hwhole'⟩

theorem Position.Precedes.trans_le {p q r : Position} (hpq : p.Precedes q) (hqr : ¬r.Precedes q) :
    p.Precedes r := by
  unfold Precedes at *
  omega

theorem Position.Precedes.le_trans {p q r : Position} (hpq : ¬q.Precedes p) (hqr : q.Precedes r) :
    p.Precedes r := by
  unfold Precedes at *
  omega

/-- One span lies within the other. -/
def Span.Contains (outer inner : Span) : Prop :=
  ¬inner.start.Precedes outer.start ∧ ¬outer.stop.Precedes inner.stop

/-- One of the spans ends before the other starts. -/
def Span.Apart (a b : Span) : Prop := ¬b.start.Precedes a.stop ∨ ¬a.start.Precedes b.stop

instance (a b : Span) : Decidable (a.Contains b) := inferInstanceAs (Decidable (_ ∧ _))

instance (a b : Span) : Decidable (a.Apart b) := inferInstanceAs (Decidable (_ ∨ _))

theorem Span.Contains.refl (a : Span) : a.Contains a := by
  unfold Contains Position.Precedes
  omega

namespace Definition

/-- `x` is listed before `y`: it starts before it, and it encloses `y` and what `y` is directly in, or it
ends before `y` does and not behind the start of `y`. -/
def Precedes (x y : Definition) : Prop :=
  x.span.start.Precedes y.span.start ∧
    (x.span.Contains y.span ∧ (∃ r, y.parent = some r ∧ x.span.Contains r) ∨
      ¬y.span.start.Precedes x.span.stop ∧ x.span.stop.Precedes y.span.stop)

/-- Definitions as they come out of a body: `parent` is the span of the definition around it. -/
structure Arranged (parent : Option Span) (xs : List Definition) : Prop where
  ordered : ∀ x ∈ xs, ¬x.span.stop.Precedes x.span.start
  pairwise : xs.Pairwise Precedes
  parents : ∀ pre x post, xs = pre ++ x :: post →
    x.parent = parent ∨ ∃ y ∈ pre, x.parent = some y.span ∧ y.span.Contains x.span

theorem arranged_nil (parent : Option Span) : Arranged parent [] where
  ordered _ h := by cases h
  pairwise := .nil
  parents pre x post h := by simp at h

theorem Arranged.append {parent : Option Span} {xs ys : List Definition} (hx : Arranged parent xs)
    (hy : Arranged parent ys) (hxy : ∀ x ∈ xs, ∀ y ∈ ys, Precedes x y) : Arranged parent (xs ++ ys) where
  ordered z hz := (List.mem_append.mp hz).elim (hx.ordered z) (hy.ordered z)
  pairwise := List.pairwise_append.mpr ⟨hx.pairwise, hy.pairwise, hxy⟩
  parents pre z post h := by
    rcases List.append_eq_append_iff.mp h with ⟨mid, rfl, hys⟩ | ⟨mid, hxs, hrest⟩
    · rcases hy.parents mid z post hys with hz | ⟨y, hy, hz⟩
      · exact .inl hz
      · exact .inr ⟨y, List.mem_append_right _ hy, hz⟩
    · cases mid with
      | nil =>
        have hz := hy.parents [] z post hrest.symm
        exact .inl (by simpa using hz)
      | cons a mid =>
        obtain ⟨rfl, -⟩ := List.cons.inj hrest
        exact hx.parents pre z mid hxs

/-- A definition comes before those inside it. -/
theorem Arranged.cons {parent : Option Span} {x : Definition} {ys : List Definition}
    (hx : x.parent = parent) (hle : ¬x.span.stop.Precedes x.span.start) (hy : Arranged (some x.span) ys)
    (hin : ∀ y ∈ ys, x.span.start.Precedes y.span.start ∧ ¬x.span.stop.Precedes y.span.stop) :
    Arranged parent (x :: ys) := by
  have hcontains : ∀ y ∈ ys, x.span.Contains y.span := by
    intro y hys
    obtain ⟨hstart, hstop⟩ := hin y hys
    refine ⟨?_, hstop⟩
    unfold Position.Precedes at *
    omega
  constructor
  · intro z hz
    rcases List.mem_cons.mp hz with rfl | hz
    · exact hle
    · exact hy.ordered z hz
  · refine List.pairwise_cons.mpr ⟨fun y hys => ?_, hy.pairwise⟩
    refine ⟨(hin y hys).1, .inl ⟨hcontains y hys, ?_⟩⟩
    obtain ⟨pre, post, rfl⟩ := List.append_of_mem hys
    rcases hy.parents pre y post rfl with hroot | ⟨z, hz, hparent, -⟩
    · exact ⟨x.span, hroot, .refl _⟩
    · exact ⟨z.span, hparent, hcontains z (List.mem_append_left _ hz)⟩
  · intro pre z post h
    cases pre with
    | nil =>
      obtain ⟨rfl, -⟩ := List.cons.inj h
      exact .inl hx
    | cons a pre =>
      obtain ⟨rfl, htail⟩ := List.cons.inj h
      rcases hy.parents pre z post htail with hroot | ⟨y, hys, hz⟩
      · have hz : z ∈ ys := by
          rw [htail]
          simp
        exact .inr ⟨x, List.mem_cons_self, hroot, hcontains z hz⟩
      · exact .inr ⟨y, List.mem_cons_of_mem _ hys, hz⟩

namespace Arranged

variable {parent : Option Span} {xs : List Definition}

theorem precedes_or (h : Arranged parent xs) {x y : Definition} (hx : x ∈ xs) (hy : y ∈ xs) (hne : x ≠ y) :
    x.Precedes y ∨ y.Precedes x := by
  obtain ⟨pre, post, rfl⟩ := List.append_of_mem hx
  obtain ⟨-, htail, hpre⟩ := List.pairwise_append.mp h.pairwise
  rcases List.mem_append.mp hy with hy | hy
  · exact .inr (hpre y hy x List.mem_cons_self)
  · rcases List.mem_cons.mp hy with rfl | hy
    · exact absurd rfl hne
    · exact .inl ((List.pairwise_cons.mp htail).1 y hy)

/-- The definition that another one is directly in starts before it. -/
theorem start_parent_precedes (h : Arranged none xs) {x : Definition} (hx : x ∈ xs) {r : Span}
    (hr : x.parent = some r) : r.start.Precedes x.span.start := by
  obtain ⟨pre, post, rfl⟩ := List.append_of_mem hx
  rcases h.parents pre x post rfl with hnone | ⟨y, hy, hparent, -⟩
  · rw [hr] at hnone
    cases hnone
  · cases hr.symm.trans hparent
    exact ((List.pairwise_append.mp h.pairwise).2.2 y hy x List.mem_cons_self).1

/-- A definition around another one is around, or is, what the other is directly in. -/
theorem contains_parent (h : Arranged parent xs) {x y : Definition} (hx : x ∈ xs) (hy : y ∈ xs) (hne : x ≠ y)
    (hcontains : y.span.Contains x.span) : ∃ r, x.parent = some r ∧ y.span.Contains r := by
  rcases h.precedes_or hx hy hne with hxy | hyx
  · exact absurd hxy.1 hcontains.1
  · rcases hyx.2 with ⟨-, hparent⟩ | ⟨-, hbefore⟩
    · exact hparent
    · exact absurd hbefore hcontains.2

/-- Definitions that are directly in the same one have spans apart. -/
theorem apart (h : Arranged none xs) {x y : Definition} (hx : x ∈ xs) (hy : y ∈ xs) (hne : x ≠ y)
    (hparent : x.parent.map (·.start) = y.parent.map (·.start)) : x.span.Apart y.span := by
  have hbefore : ∀ {x y : Definition}, x ∈ xs → x.Precedes y →
      x.parent.map (·.start) = y.parent.map (·.start) → ¬y.span.start.Precedes x.span.stop := by
    intro x y hx hxy hparent
    rcases hxy.2 with ⟨-, r, hr, hcontains⟩ | hlt
    · -- the one would be in the other, and so in what the other is in
      rw [hr] at hparent
      obtain ⟨r', hr', e⟩ := Option.map_eq_some_iff.mp hparent
      have hsame : r'.start = r.start := e
      have hstart := h.start_parent_precedes hx hr'
      rw [hsame] at hstart
      exact absurd hstart hcontains.1
    · exact hlt.1
  rcases h.precedes_or hx hy hne with hxy | hyx
  · exact .inl (hbefore hx hxy hparent)
  · exact .inr (hbefore hy hyx hparent.symm)

end Arranged

/-- A definition found at or in `l`: it has the span of `l`, or it starts behind `l` does. -/
def Within (text : List Char) (l : Located) (x : Definition) : Prop :=
  ∃ a b, x.span = spanOf text a b ∧ a ∈ l.starts ∧ a.Le b ∧ b.Le l.stop ∧
    (a = l.start ∧ b = l.stop ∨ l.start.Before text a)

mutual

theorem within_of_mem_ofLocated {text : List Char} {parent : Option Span} (l : Located) (h : l.Laid text)
    {x : Definition} (hx : x ∈ ofLocated text parent l) : Within text l x := by
  match l with
  | .mk kind name start stop inner =>
    obtain ⟨hle, hinner, hall⟩ := h
    rcases List.mem_cons.mp hx with rfl | hx
    · exact ⟨start, stop, rfl, List.mem_cons_self, hle, .refl _, .inl ⟨rfl, rfl⟩⟩
    · obtain ⟨l', hl', hstarts, a, b, hspan, ha, hab, hb, hcases⟩ := within_of_mem_ofLocatedAll inner hall hx
      obtain ⟨hbefore, hstop⟩ := hinner l' hl'
      refine ⟨a, b, hspan, List.mem_cons_of_mem _ (hstarts a ha), hab, hb.trans hstop, .inr ?_⟩
      rcases hcases with ⟨rfl, -⟩ | hlater
      · exact hbefore
      · exact hbefore.trans hlater

theorem within_of_mem_ofLocatedAll {text : List Char} {parent : Option Span} (ls : List Located)
    (h : Located.LaidAll text ls) {x : Definition} (hx : x ∈ ofLocatedAll text parent ls) :
    ∃ l ∈ ls, (∀ a ∈ l.starts, a ∈ Located.startsAll ls) ∧ Within text l x := by
  match ls with
  | [] => cases hx
  | l :: ls =>
    obtain ⟨hl, -, hls⟩ := h
    rcases List.mem_append.mp hx with hx | hx
    · exact ⟨l, List.mem_cons_self, fun a ha => List.mem_append_left _ ha, within_of_mem_ofLocated l hl hx⟩
    · obtain ⟨l', hl', hstarts, hwithin⟩ := within_of_mem_ofLocatedAll ls hls hx
      exact ⟨l', List.mem_cons_of_mem _ hl', fun a ha => List.mem_append_right _ (hstarts a ha), hwithin⟩

end

theorem Within.ordered {text : List Char} {l : Located} {x : Definition} (h : Within text l x) :
    ¬x.span.stop.Precedes x.span.start := by
  obtain ⟨a, b, hspan, -, hab, -⟩ := h
  rw [hspan]
  exact not_precedes_positionOf hab

/-- What is found in one of two definitions side by side is listed before what is found in the other. -/
theorem precedes_of_within {text : List Char} {l l' : Located} (hstart : ∀ a ∈ l.starts, a.Before text l'.start)
    (hmiddle : l.stop.Le l'.start) (hstop : l.stop.Before text l'.stop) {x y : Definition}
    (hx : Within text l x) (hy : Within text l' y) : x.Precedes y := by
  obtain ⟨a, b, hspan, ha, -, hb, -⟩ := hx
  obtain ⟨a', b', hspan', -, hab', -, hcases⟩ := hy
  have hopen : ¬(positionOf text a').Precedes (positionOf text l'.start) := by
    rcases hcases with ⟨rfl, -⟩ | hlater
    · exact not_precedes_positionOf (.refl _)
    · exact not_precedes_positionOf hlater.le
  have hend : ¬(positionOf text l'.start).Precedes (positionOf text b) :=
    not_precedes_positionOf (hb.trans hmiddle)
  rw [Precedes, hspan, hspan']
  refine ⟨(precedes_positionOf (hstart a ha)).trans_le hopen, .inr ⟨?_, ?_⟩⟩
  · change ¬(positionOf text a').Precedes (positionOf text b)
    unfold Position.Precedes at *
    omega
  · change (positionOf text b).Precedes (positionOf text b')
    rcases hcases with ⟨-, rfl⟩ | hlater
    · exact Position.Precedes.le_trans (not_precedes_positionOf hb) (precedes_positionOf hstop)
    · exact Position.Precedes.le_trans hend
        ((precedes_positionOf hlater).trans_le (not_precedes_positionOf hab'))

mutual

theorem arranged_ofLocated (text : List Char) (parent : Option Span) (l : Located) (h : l.Laid text) :
    Arranged parent (ofLocated text parent l) := by
  match l with
  | .mk kind name start stop inner =>
    obtain ⟨hle, hinner, hall⟩ := h
    refine Arranged.cons rfl (not_precedes_positionOf hle) (arranged_ofLocatedAll text _ inner hall)
      fun y hy => ?_
    obtain ⟨l, hl, -, a, b, hspan, -, -, hb, hcases⟩ := within_of_mem_ofLocatedAll inner hall hy
    obtain ⟨hbefore, hstop⟩ := hinner l hl
    rw [hspan]
    refine ⟨precedes_positionOf ?_, not_precedes_positionOf (hb.trans hstop)⟩
    rcases hcases with ⟨rfl, -⟩ | hlater
    · exact hbefore
    · exact hbefore.trans hlater

/-- The definitions of a body are listed in the order of their starts, outer ones before those inside. -/
theorem arranged_ofLocatedAll (text : List Char) (parent : Option Span) (ls : List Located)
    (h : Located.LaidAll text ls) : Arranged parent (ofLocatedAll text parent ls) := by
  match ls with
  | [] => exact arranged_nil parent
  | l :: ls =>
    obtain ⟨hl, hfollow, hls⟩ := h
    refine (arranged_ofLocated text parent l hl).append (arranged_ofLocatedAll text parent ls hls)
      fun x hx y hy => ?_
    obtain ⟨l', hl', -, hy⟩ := within_of_mem_ofLocatedAll ls hls hy
    obtain ⟨hstart, hmiddle, hstop⟩ := hfollow l' hl'
    exact precedes_of_within hstart hmiddle hstop (within_of_mem_ofLocated l hl hx) hy

end

mutual

/-- Kind, name and span of a definition, and of those in its body; outer ones come first. -/
def declared (text : List Char) : Located → List (NodeKind × String × Span)
  | .mk kind name start stop inner => (kind.nodeKind, name, spanOf text start stop) :: declaredAll text inner

def declaredAll (text : List Char) : List Located → List (NodeKind × String × Span)
  | [] => []
  | l :: ls => declared text l ++ declaredAll text ls

end

mutual

theorem map_ofLocated (text : List Char) (parent : Option Span) (l : Located) :
    (ofLocated text parent l).map (fun x => (x.kind.nodeKind, x.name, x.span)) = declared text l := by
  match l with
  | .mk kind name start stop inner =>
    rw [ofLocated, declared, List.map_cons, map_ofLocatedAll]

theorem map_ofLocatedAll (text : List Char) (parent : Option Span) (ls : List Located) :
    (ofLocatedAll text parent ls).map (fun x => (x.kind.nodeKind, x.name, x.span)) = declaredAll text ls := by
  match ls with
  | [] => rfl
  | l :: ls => rw [ofLocatedAll, declaredAll, List.map_append, map_ofLocated, map_ofLocatedAll]

end

end Definition

end OutlineIndex
