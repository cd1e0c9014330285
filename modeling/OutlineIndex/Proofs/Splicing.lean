import Mathlib.Data.List.Find
import Mathlib.Data.List.GetD
import Mathlib.Data.List.Induction
import Mathlib.Data.List.Nodup
import Mathlib.Data.List.Pairwise
import Mathlib.Data.List.TakeWhile
import OutlineIndex.Skeleton.Splice

namespace OutlineIndex

/-- How far the end of a text is from its last line feed. -/
def column (s : List Char) : Nat := (s.reverse.takeWhile (· ≠ '\n')).length

/-- The position of an offset. -/
def positionAt (text : List Char) (i : Nat) : Position :=
  ⟨(text.take i).count '\n', column (text.take i)⟩

/-- The position is that of its offset: nothing has to be clamped. -/
def Position.IsIn (text : List Char) (p : Position) : Prop := positionAt text (offsetAt text p) = p

instance (text : List Char) (p : Position) : Decidable (p.IsIn text) :=
  inferInstanceAs (Decidable (_ = _))

/-- The order of positions. -/
def Position.Precedes (p q : Position) : Prop :=
  p.line < q.line ∨ p.line = q.line ∧ p.character < q.character

instance (p q : Position) : Decidable (p.Precedes q) := inferInstanceAs (Decidable (_ ∨ _))

theorem column_append_of_mem (s : List Char) {t : List Char} (h : '\n' ∈ t) :
    column (s ++ t) = column t := by
  have hfeed : ¬∀ c ∈ t.reverse, decide (c ≠ '\n') = true := by
    intro hall
    simpa using hall '\n' (List.mem_reverse.mpr h)
  rw [column, column, List.reverse_append, List.takeWhile_append, if_neg]
  intro hlength
  have hself := List.takeWhile_eq_self_iff.mp
    ((List.takeWhile_prefix _).eq_of_length hlength)
  exact hfeed hself

theorem column_append_of_not_mem (s : List Char) {t : List Char} (h : '\n' ∉ t) :
    column (s ++ t) = column s + t.length := by
  have hall : ∀ c ∈ t.reverse, decide (c ≠ '\n') = true := by
    intro c hc
    exact decide_eq_true fun e => h (e ▸ List.mem_reverse.mp hc)
  rw [column, column, List.reverse_append, List.takeWhile_append_of_pos hall, List.length_append,
    List.length_reverse, Nat.add_comm]

theorem column_le (s : List Char) : column s ≤ s.length := by
  have hle := (List.takeWhile_prefix (p := fun c => decide (c ≠ '\n')) (l := s.reverse)).length_le
  rwa [List.length_reverse] at hle

theorem startsAfterFeeds_append (n : Nat) (s t : List Char) :
    startsAfterFeeds n (s ++ t) = startsAfterFeeds n s ++ startsAfterFeeds (n + s.length) t := by
  induction s generalizing n with
  | nil => simp [startsAfterFeeds]
  | cons c s ih =>
    have hlength : n + 1 + s.length = n + (s.length + 1) := by omega
    rw [List.cons_append, startsAfterFeeds, startsAfterFeeds, ih, List.length_cons, hlength]
    split <;> simp

theorem length_startsAfterFeeds (n : Nat) (s : List Char) :
    (startsAfterFeeds n s).length = s.count '\n' := by
  induction s generalizing n with
  | nil => rfl
  | cons c s ih =>
    rw [startsAfterFeeds, List.count_cons]
    split
    · rename_i hfeed
      simp [ih, hfeed]
    · rename_i hfeed
      simp [ih, hfeed]

theorem mem_startsAfterFeeds {n x : Nat} {s : List Char} (h : x ∈ startsAfterFeeds n s) :
    n < x ∧ x ≤ n + s.length := by
  induction s generalizing n with
  | nil => simp [startsAfterFeeds] at h
  | cons c s ih =>
    rw [startsAfterFeeds] at h
    have htail : x ∈ startsAfterFeeds (n + 1) s → n < x ∧ x ≤ n + (s.length + 1) := by
      intro hx
      have hbounds := ih hx
      omega
    rw [List.length_cons]
    split at h
    · rcases List.mem_cons.mp h with rfl | h
      · omega
      · exact htail h
    · exact htail h

/-- The last line of a text starts where its column is counted from. -/
theorem getD_startsAfterFeeds (n d : Nat) (s : List Char) :
    (n :: startsAfterFeeds n s).getD (s.count '\n') d = n + s.length - column s := by
  induction s using List.reverseRecOn with
  | nil => simp [column, startsAfterFeeds]
  | append_singleton s c ih =>
    have hle := column_le s
    rw [startsAfterFeeds_append, List.length_append, List.length_singleton]
    by_cases hc : c = '\n'
    · subst hc
      have hlength := length_startsAfterFeeds n s
      rw [column_append_of_mem s (by simp), List.count_append, ← List.cons_append,
        List.getD_append_right _ _ _ _ (by simp [hlength])]
      simp [hlength, startsAfterFeeds, column, Nat.add_assoc]
    · have hcount : (s ++ [c]).count '\n' = s.count '\n' := by
        simp [List.count_append, hc]
      rw [column_append_of_not_mem s (by simp [Ne.symm hc]), hcount]
      simp only [startsAfterFeeds, hc, if_false, List.append_nil, ih, List.length_singleton]
      omega

theorem getD_lineStarts_le {text : List Char} {d : Nat} (hd : d ≤ text.length) (k : Nat) :
    (lineStarts text).getD k d ≤ text.length := by
  rw [List.getD_eq_getElem?_getD]
  cases hk : (lineStarts text)[k]? with
  | none => exact hd
  | some x =>
    have hx := List.mem_of_getElem? hk
    rw [lineStarts, List.mem_cons] at hx
    rcases hx with rfl | hx
    · exact Nat.zero_le _
    · have hbounds := (mem_startsAfterFeeds hx).2
      rwa [Nat.zero_add] at hbounds

theorem offsetAt_le (text : List Char) (p : Position) : offsetAt text p ≤ text.length := by
  unfold offsetAt
  dsimp only
  split
  · exact Nat.le_refl _
  · split
    · exact Nat.zero_le _
    · have hstart := getD_lineStarts_le (Nat.zero_le text.length) p.line.toNat
      have hstop := getD_lineStarts_le (Nat.le_refl text.length) (p.line.toNat + 1)
      omega

section Lines

variable {text : List Char} {i : Nat}

theorem lineStarts_eq (hi : i ≤ text.length) :
    lineStarts text = (0 :: startsAfterFeeds 0 (text.take i)) ++ startsAfterFeeds i (text.drop i) := by
  have happend := startsAfterFeeds_append 0 (text.take i) (text.drop i)
  have hlength : (text.take i).length = i := by simp [hi]
  rw [List.take_append_drop, hlength, Nat.zero_add] at happend
  rw [lineStarts, happend, List.cons_append]

/-- The line of an offset and the lines before it do not start after the offset. -/
theorem getD_lineStarts_le_offset (hi : i ≤ text.length) {k : Nat} (hk : k ≤ (text.take i).count '\n')
    (d : Nat) : (lineStarts text).getD k d ≤ i := by
  have hlines := length_startsAfterFeeds 0 (text.take i)
  have hinside : k < (0 :: startsAfterFeeds 0 (text.take i)).length := by
    rw [List.length_cons, hlines]
    omega
  rw [lineStarts_eq hi, List.getD_append _ _ _ _ hinside, List.getD_eq_getElem _ _ hinside]
  rcases List.mem_cons.mp (List.getElem_mem hinside) with hzero | hmem
  · omega
  · have hbounds := mem_startsAfterFeeds hmem
    rw [List.length_take] at hbounds
    omega

/-- The lines after an offset start after it, as the text ends after it. -/
theorem lt_getD_lineStarts (hi : i < text.length) {k : Nat} (hk : (text.take i).count '\n' < k) :
    i < (lineStarts text).getD k text.length := by
  have hlines := length_startsAfterFeeds 0 (text.take i)
  have hbeyond : (0 :: startsAfterFeeds 0 (text.take i)).length ≤ k := by
    rw [List.length_cons, hlines]
    omega
  rw [lineStarts_eq hi.le, List.getD_append_right _ _ _ _ hbeyond, List.getD_eq_getElem?_getD]
  cases hlater : (startsAfterFeeds i (text.drop i))[k - (0 :: startsAfterFeeds 0 (text.take i)).length]? with
  | none => exact hi
  | some x => exact (mem_startsAfterFeeds (List.mem_of_getElem? hlater)).1

/-- The offset of a position is the number of offsets whose own positions precede it. -/
theorem lt_offsetAt_iff (hi : i < text.length) (p : Position) :
    i < offsetAt text p ↔ (positionAt text i).Precedes p := by
  have hlines := length_startsAfterFeeds 0 (text.take i)
  have hcolumn := column_le (text.take i)
  have hlength : (text.take i).length = i := by simp [hi.le]
  have hcount : (text.take i).count '\n' < (lineStarts text).length := by
    rw [lineStarts_eq hi.le, List.length_append, List.length_cons, hlines]
    omega
  rw [offsetAt, positionAt, Position.Precedes]
  dsimp only
  split
  · exact iff_of_true hi (.inl (by omega))
  · rename_i hline
    split
    · exact iff_of_false (by omega) (by omega)
    · obtain ⟨k, hk⟩ := Int.eq_ofNat_of_zero_le (Int.not_lt.mp ‹_›)
      rw [hk, Int.toNat_natCast]
      rcases Nat.lt_trichotomy k ((text.take i).count '\n') with hlt | rfl | hgt
      · have hstart := getD_lineStarts_le_offset hi.le hlt.le 0
        have hstop := getD_lineStarts_le_offset hi.le (show k + 1 ≤ _ from hlt) text.length
        omega
      · have hstart : (lineStarts text).getD ((text.take i).count '\n') 0 = i - column (text.take i) := by
          rw [lineStarts_eq hi.le, List.getD_append _ _ _ _ (by simp [hlines]), getD_startsAfterFeeds, hlength,
            Nat.zero_add]
        have hstop := lt_getD_lineStarts hi (Nat.lt_add_one ((text.take i).count '\n'))
        omega
      · have hstart := lt_getD_lineStarts hi hgt
        have hinside : k < (lineStarts text).length := by omega
        rw [List.getD_eq_getElem _ _ hinside] at hstart ⊢
        omega

theorem offsetAt_mono {o p : Position} (h : ¬p.Precedes o) : offsetAt text o ≤ offsetAt text p := by
  by_contra hlt
  have hle := offsetAt_le text o
  have hinside : offsetAt text p < text.length := by omega
  have hbefore := (lt_offsetAt_iff hinside o).mp (by omega)
  have hself := (lt_offsetAt_iff hinside p).not.mp (Nat.lt_irrefl _)
  unfold Position.Precedes at h hbefore hself
  omega

end Lines

theorem take_cut {text : List Char} {a b i : Nat} (hab : a ≤ i) (hib : i ≤ b) :
    text.take i = text.take a ++ (cut text a b).take (i - a) := by
  rw [cut, List.take_take, Nat.min_eq_left (Nat.sub_le_sub_right hib a), ← List.take_add,
    Nat.add_sub_cancel' hab]

/-- A position inside a part of the text, counted from where the part starts. -/
theorem rebase_positionAt {text : List Char} {a b i : Nat} (hai : a ≤ i) (hib : i ≤ b) :
    (positionAt text i).rebase (positionAt text a) = positionAt (cut text a b) (i - a) := by
  rw [positionAt, positionAt, positionAt, take_cut hai hib, Position.rebase]
  generalize text.take a = pre
  generalize (cut text a b).take (i - a) = mid
  by_cases hfeed : '\n' ∈ mid
  · have hcount : 0 < mid.count '\n' := List.count_pos_iff.mpr hfeed
    rw [column_append_of_mem pre hfeed, List.count_append]
    simp only [Position.mk.injEq]
    rw [if_neg (by omega)]
    omega
  · have hcount : mid.count '\n' = 0 := List.count_eq_zero.mpr hfeed
    have hcolumn : column mid = mid.length := by
      simpa [column] using column_append_of_not_mem [] hfeed
    rw [column_append_of_not_mem pre hfeed, List.count_append, hcount, hcolumn]
    simp only [Position.mk.injEq]
    rw [if_pos (by omega)]
    omega

theorem rebase_precedes_iff {o p q : Position} (hq : ¬q.Precedes o) (hp : ¬p.Precedes o)
    (hcharacter : 0 ≤ q.character) : (q.rebase o).Precedes (p.rebase o) ↔ q.Precedes p := by
  unfold Position.Precedes at *
  simp only [Position.rebase]
  split <;> split <;> omega

/-- Where a part of the text starts, its offsets do; what lies behind the part is at its end. -/
theorem offsetAt_rebase {text : List Char} {o p : Position} (ho : o.IsIn text) (hp : ¬p.Precedes o)
    (b : Nat) : offsetAt (cut text (offsetAt text o) b) (p.rebase o) =
      min (offsetAt text p) b - offsetAt text o := by
  have hlength := offsetAt_le text p
  have hcut : (cut text (offsetAt text o) b).length =
      min (b - offsetAt text o) (text.length - offsetAt text o) := by
    rw [cut, List.length_take, List.length_drop]
  have hpart := offsetAt_le (cut text (offsetAt text o) b) (p.rebase o)
  -- both sides are counted by the same offsets of the part
  have hlt : ∀ j < (cut text (offsetAt text o) b).length,
      j < offsetAt (cut text (offsetAt text o) b) (p.rebase o) ↔
        j < min (offsetAt text p) b - offsetAt text o := by
    intro j hj
    have hinside : offsetAt text o + j < text.length := by omega
    have hafter : ¬(positionAt text (offsetAt text o + j)).Precedes o := by
      rw [← lt_offsetAt_iff hinside]
      omega
    have hrebase : (positionAt text (offsetAt text o + j)).rebase o =
        positionAt (cut text (offsetAt text o) b) j := by
      rw [← Nat.add_sub_cancel_left (offsetAt text o) j, ← rebase_positionAt (by omega) (by omega), ho,
        Nat.add_sub_cancel_left]
    rw [lt_offsetAt_iff hj, ← hrebase, rebase_precedes_iff hafter hp (Int.natCast_nonneg _),
      ← lt_offsetAt_iff hinside]
    omega
  have hleft := hlt (offsetAt (cut text (offsetAt text o) b) (p.rebase o))
  have hright := hlt (min (offsetAt text p) b - offsetAt text o)
  omega

namespace Skeleton

def Patch.covers (p : Patch) (i : Nat) : Bool := p.start ≤ i && i < p.stop

/-- What stands for one character when parts of a text are replaced: the new text of a part stands for
its first. -/
def piece (text : List Char) (ps : List Patch) (i : Nat) : List Char :=
  match ps.find? (·.covers i) with
  | some p => if i = p.start then p.text else []
  | none => text[i]?.toList

/-- The text from one offset up to another with parts replaced. -/
def replaced (text : List Char) (start stop : Nat) (ps : List Patch) : List Char :=
  (List.range' start (stop - start)).flatMap (piece text ps)

def Patch.Apart (p q : Patch) : Prop := p.stop ≤ q.start ∨ q.stop ≤ p.start

instance : Std.Symm Patch.Apart := ⟨fun _ _ => Or.symm⟩

/-- Parts that are not empty and do not overlap. -/
structure Separate (ps : List Patch) : Prop where
  nonempty : ∀ p ∈ ps, p.start < p.stop
  apart : ps.Pairwise Patch.Apart

theorem covers_iff {p : Patch} {i : Nat} : p.covers i = true ↔ p.start ≤ i ∧ i < p.stop := by
  simp [Patch.covers]

theorem Separate.unique {ps : List Patch} (h : Separate ps) {p q : Patch} (hp : p ∈ ps) (hq : q ∈ ps)
    {i : Nat} (hpi : p.covers i = true) (hqi : q.covers i = true) : p = q := by
  by_contra hne
  have hapart := h.apart.forall hp hq hne
  rw [covers_iff] at hpi hqi
  unfold Patch.Apart at hapart
  omega

theorem Separate.perm {ps qs : List Patch} (h : Separate ps) (hperm : ps.Perm qs) : Separate qs where
  nonempty p hp := h.nonempty p (hperm.mem_iff.mpr hp)
  apart := (hperm.pairwise_iff fun h => Or.symm h).mp h.apart

theorem Separate.find?_eq_some {ps : List Patch} (h : Separate ps) {p : Patch} (hp : p ∈ ps) {i : Nat}
    (hpi : p.covers i = true) : ps.find? (·.covers i) = some p := by
  cases hfind : ps.find? (·.covers i) with
  | none => exact absurd hpi (List.find?_eq_none.mp hfind p hp)
  | some q =>
    have hqi : q.covers i = true := List.find?_some (p := fun p : Patch => p.covers i) hfind
    rw [h.unique hp (List.mem_of_find?_eq_some hfind) hpi hqi]

theorem replaced_append {a b c : Nat} (text : List Char) (ps : List Patch) (hab : a ≤ b) (hbc : b ≤ c) :
    replaced text a c ps = replaced text a b ps ++ replaced text b c ps := by
  have hrange : List.range' a (c - a) = List.range' a (b - a) ++ List.range' b (c - b) := by
    have happend := List.range'_append_1 (s := a) (m := b - a) (n := c - b)
    rw [Nat.add_sub_cancel' hab] at happend
    rw [happend]
    congr 1
    omega
  rw [replaced, hrange, List.flatMap_append]
  rfl

theorem replaced_congr {text text' : List Char} {ps ps' : List Patch} {a b : Nat}
    (h : ∀ i, a ≤ i → i < b → piece text ps i = piece text' ps' i) :
    replaced text a b ps = replaced text' a b ps' := by
  refine List.flatMap_congr fun i hi => ?_
  have hbounds := List.mem_range'_1.mp hi
  exact h i hbounds.1 (by omega)

theorem piece_of_not_covered {text : List Char} {ps : List Patch} {i : Nat}
    (h : ∀ p ∈ ps, p.covers i = false) : piece text ps i = text[i]?.toList := by
  have hnone : ps.find? (·.covers i) = none := List.find?_eq_none.mpr fun p hp => by simp [h p hp]
  rw [piece, hnone]

theorem flatMap_getElem? (text : List Char) (a n : Nat) :
    (List.range' a n).flatMap (fun i => text[i]?.toList) = (text.drop a).take n := by
  induction n generalizing a with
  | zero => rfl
  | succ n ih =>
    rw [List.range'_succ, List.flatMap_cons, ih]
    by_cases ha : a < text.length
    · rw [List.drop_eq_getElem_cons ha, List.getElem?_eq_getElem ha]
      rfl
    · rw [List.drop_eq_nil_of_le (by omega), List.drop_eq_nil_of_le (by omega),
        List.getElem?_eq_none (by omega)]
      simp

theorem replaced_of_not_covered {text : List Char} {ps : List Patch} {a b : Nat}
    (h : ∀ p ∈ ps, p.stop ≤ a ∨ b ≤ p.start) : replaced text a b ps = cut text a b := by
  rw [cut, ← flatMap_getElem?]
  refine List.flatMap_congr fun i hi => piece_of_not_covered fun p hp => ?_
  have hbounds := List.mem_range'_1.mp hi
  have hp' := h p hp
  rw [← Bool.not_eq_true, covers_iff]
  omega

theorem replaced_of_covered (text : List Char) {ps : List Patch} (h : Separate ps) {p : Patch}
    (hp : p ∈ ps) : replaced text p.start p.stop ps = p.text := by
  have hlt := h.nonempty p hp
  have hcovers : ∀ i, p.start ≤ i → i < p.stop → piece text ps i = if i = p.start then p.text else [] := by
    intro i hle hi
    rw [piece, h.find?_eq_some hp (covers_iff.mpr ⟨hle, hi⟩)]
  rw [replaced_append text ps (Nat.le_succ p.start) hlt]
  have hrest : replaced text (p.start + 1) p.stop ps = [] := by
    refine List.flatMap_eq_nil_iff.mpr fun i hi => ?_
    have hbounds := List.mem_range'_1.mp hi
    rw [hcovers i (by omega) (by omega), if_neg (by omega)]
  have hfirst : replaced text p.start (p.start + 1) ps = p.text := by
    rw [replaced, Nat.add_sub_cancel_left]
    simp [hcovers p.start (Nat.le_refl _) hlt]
  rw [hrest, hfirst, List.append_nil]

theorem piece_perm {text : List Char} {ps qs : List Patch} (h : Separate ps) (hperm : ps.Perm qs)
    (i : Nat) : piece text ps i = piece text qs i := by
  have hsame : ps.find? (·.covers i) = qs.find? (·.covers i) := by
    cases hfind : qs.find? (·.covers i) with
    | none => exact List.find?_eq_none.mpr fun p hp => List.find?_eq_none.mp hfind p (hperm.mem_iff.mp hp)
    | some q =>
      have hqi : q.covers i = true := List.find?_some (p := fun p : Patch => p.covers i) hfind
      exact h.find?_eq_some (hperm.mem_iff.mpr (List.mem_of_find?_eq_some hfind)) hqi
  rw [piece, piece, hsame]

/-- Patches in descending order are put in one after the other. -/
theorem applyPatches_eq {ps : List Patch} (hsep : Separate ps)
    (hdesc : ps.Pairwise fun p q => q.stop ≤ p.start) {text : List Char} {b bound : Nat} (hbound : b ≤ bound)
    (hlength : b ≤ text.length) (hps : ∀ p ∈ ps, p.stop ≤ b) :
    applyPatches text bound ps = replaced text 0 b ps ++ text.drop b := by
  induction ps generalizing text b bound with
  | nil =>
    rw [applyPatches, replaced_of_not_covered (by simp), cut]
    simp
  | cons p ps ih =>
    obtain ⟨hfirst, hrest⟩ := List.pairwise_cons.mp hdesc
    have hlt := hsep.nonempty p (by simp)
    have hstop := hps p (by simp)
    have hsep' : Separate ps :=
      ⟨fun q hq => hsep.nonempty q (by simp [hq]), (List.pairwise_cons.mp hsep.apart).2⟩
    have hwidth : (text.take p.start).length = p.start := by
      rw [List.length_take]
      omega
    rw [applyPatches, if_neg (by omega)]
    rw [ih hsep' hrest (Nat.le_refl _) (by simp; omega) hfirst]
    have hbefore : replaced (text.take p.start ++ p.text ++ text.drop p.stop) 0 p.start ps =
        replaced text 0 p.start (p :: ps) := by
      refine replaced_congr fun i _ hi => ?_
      have hnot : p.covers i = false := by
        rw [← Bool.not_eq_true, covers_iff]
        omega
      have hchar : (text.take p.start ++ p.text ++ text.drop p.stop)[i]? = text[i]? := by
        rw [List.append_assoc, List.getElem?_append_left (by omega), List.getElem?_take_of_lt hi]
      rw [piece, piece, List.find?_cons, hnot, hchar]
    have hafter : (text.take p.start ++ p.text ++ text.drop p.stop).drop p.start =
        p.text ++ text.drop p.stop := by
      rw [List.append_assoc, List.drop_append_of_le_length (by omega), List.drop_eq_nil_of_le (by omega)]
      rfl
    have hlast : replaced text p.stop b (p :: ps) ++ text.drop b = text.drop p.stop := by
      rw [replaced_of_not_covered, cut]
      · have hdrop : text.drop b = (text.drop p.stop).drop (b - p.stop) := by
          rw [List.drop_drop]
          congr 1
          omega
        rw [hdrop, List.take_append_drop]
      · intro q hq
        rcases List.mem_cons.mp hq with rfl | hq
        · exact .inl (Nat.le_refl _)
        · have hle := hfirst q hq
          exact .inl (by omega)
    have hparts : replaced text 0 b (p :: ps) =
        replaced text 0 p.start (p :: ps) ++ (p.text ++ replaced text p.stop b (p :: ps)) := by
      rw [← replaced_of_covered text hsep List.mem_cons_self,
        ← replaced_append text (p :: ps) (Nat.le_of_lt hlt) hstop,
        ← replaced_append text (p :: ps) (Nat.zero_le p.start) (by omega)]
    rw [hbefore, hafter, hparts, List.append_assoc, List.append_assoc, hlast]

theorem sorted_descending (ps : List Patch) : (descending ps).Pairwise fun p q => q.start ≤ p.start := by
  have htrans : ∀ p q r : Patch, decide (q.start ≤ p.start) → decide (r.start ≤ q.start) →
      decide (r.start ≤ p.start) := by
    intro p q r hpq hqr
    simp only [decide_eq_true_eq] at hpq hqr ⊢
    omega
  have htotal : ∀ p q : Patch, (decide (q.start ≤ p.start) || decide (p.start ≤ q.start)) = true := by
    intro p q
    simpa using Nat.le_total q.start p.start
  exact (List.pairwise_mergeSort htrans htotal ps).imp of_decide_eq_true

theorem Separate.pairwise_descending {ps : List Patch} (h : Separate ps) :
    (descending ps).Pairwise fun p q => q.stop ≤ p.start := by
  have hperm : (descending ps).Perm ps := List.mergeSort_perm _ _
  have hsep := h.perm hperm.symm
  refine ((sorted_descending ps).and hsep.apart).imp_of_mem fun {p q} hp hq hboth => ?_
  have hle := hboth.1
  have hlt := hsep.nonempty p hp
  rcases hboth.2 with hapart | hapart
  · omega
  · exact hapart

/-- The order in which patches come does not matter. -/
theorem applyPatches_descending {text : List Char} {ps : List Patch} (h : Separate ps)
    (hps : ∀ p ∈ ps, p.stop ≤ text.length) :
    applyPatches text (text.length + 1) (descending ps) = replaced text 0 text.length ps := by
  have hperm : (descending ps).Perm ps := List.mergeSort_perm _ _
  rw [applyPatches_eq (h.perm hperm.symm) h.pairwise_descending (Nat.le_succ _) (Nat.le_refl _)
    fun p hp => hps p (hperm.mem_iff.mp hp), List.drop_length, List.append_nil]
  exact replaced_congr fun i _ _ => piece_perm (h.perm hperm.symm) hperm i

/-- The patch for text that begins at an offset. -/
def Patch.shift (p : Patch) (a : Nat) : Patch := ⟨p.start - a, p.stop - a, p.text⟩

theorem Separate.shift {ps : List Patch} (h : Separate ps) {a : Nat} (ha : ∀ p ∈ ps, a ≤ p.start) :
    Separate (ps.map (·.shift a)) where
  nonempty p hp := by
    obtain ⟨q, hq, rfl⟩ := List.mem_map.mp hp
    have hlt := h.nonempty q hq
    have hle := ha q hq
    simp only [Patch.shift]
    omega
  apart := by
    rw [List.pairwise_map]
    refine h.apart.imp_of_mem fun {p q} hp hq hapart => ?_
    unfold Patch.Apart Patch.shift at *
    dsimp only
    omega

theorem piece_shift {text : List Char} {ps : List Patch} {a b i : Nat} (hps : ∀ p ∈ ps, a ≤ p.start)
    (hi : i < b - a) : piece (cut text a b) (ps.map (·.shift a)) i = piece text ps (a + i) := by
  have hfind : ps.find? (fun p => (p.shift a).covers i) = ps.find? (·.covers (a + i)) := by
    refine List.find?_congr fun p hp => ?_
    have hle := hps p hp
    rw [Bool.eq_iff_iff, covers_iff, covers_iff]
    simp only [Patch.shift]
    omega
  have hchar : (cut text a b)[i]? = text[a + i]? := by
    rw [cut, List.getElem?_take_of_lt hi, List.getElem?_drop]
  rw [piece, piece, List.find?_map, Function.comp_def, hfind, hchar]
  cases hp : ps.find? (·.covers (a + i)) with
  | none => rfl
  | some p =>
    have hle := hps p (List.mem_of_find?_eq_some hp)
    simp only [Option.map_some, Patch.shift]
    congr 1
    rw [eq_iff_iff]
    omega

theorem replaced_shift {text : List Char} {ps : List Patch} {a b : Nat} (hps : ∀ p ∈ ps, a ≤ p.start)
    (hb : b ≤ text.length) : replaced (cut text a b) 0 (cut text a b).length (ps.map (·.shift a)) =
      replaced text a b ps := by
  have hlength : (cut text a b).length = b - a := by
    rw [cut, List.length_take, List.length_drop]
    omega
  have hrange : List.range' a (b - a) = (List.range' 0 (b - a)).map (a + ·) := by
    rw [List.map_add_range']
    rfl
  rw [replaced, replaced, hlength, hrange, List.flatMap_map, Nat.sub_zero]
  refine List.flatMap_congr fun i hi => ?_
  have hbounds := List.mem_range'_1.mp hi
  exact piece_shift hps (by omega)

/-- A span with some text inside another one, which starts at a position of the text. -/
structure Nested (text : List Char) (outer inner : Span) : Prop where
  origin : outer.start.IsIn text
  start : ¬inner.start.Precedes outer.start
  nonempty : offsetAt text inner.start < offsetAt text inner.stop
  le_stop : offsetAt text inner.stop ≤ offsetAt text outer.stop

namespace Nested

variable {text : List Char} {outer inner : Span}

theorem start_le (h : Nested text outer inner) : offsetAt text outer.start ≤ offsetAt text inner.start :=
  offsetAt_mono h.start

theorem stop (h : Nested text outer inner) : ¬inner.stop.Precedes outer.start := by
  have hlt := Nat.lt_of_le_of_lt h.start_le h.nonempty
  have hinside := Nat.lt_of_lt_of_le hlt (offsetAt_le text inner.stop)
  have hafter := (lt_offsetAt_iff hinside inner.stop).mp hlt
  rw [show positionAt text (offsetAt text outer.start) = outer.start from h.origin] at hafter
  unfold Position.Precedes at *
  omega

end Nested

/-- The part of a document that a node takes up, with its skeleton. -/
def Completed.patch (text : List Char) (c : Completed) : Patch :=
  ⟨offsetAt text c.node.span.start, offsetAt text c.node.span.stop, c.skeleton.toList⟩

theorem patchOf_eq {text : List Char} {span : Span} {c : Completed} (h : Nested text span c.node.span) :
    patchOf (slice text span) span.start c = (c.patch text).shift (offsetAt text span.start) := by
  have hstart := Nat.min_eq_left (Nat.le_trans (Nat.le_of_lt h.nonempty) h.le_stop)
  rw [patchOf, slice, offsetAt_rebase h.origin h.start, offsetAt_rebase h.origin h.stop, hstart,
    Nat.min_eq_left h.le_stop]
  rfl

theorem wanted_eq {childIds : List String} {completed : List Completed}
    (h : (completed.map (·.node.id)).Nodup) :
    wanted childIds completed = completed.filter fun c => childIds.contains c.node.id := by
  have hkeys : (((completed.filter fun c => childIds.contains c.node.id).map fun c =>
      (c.node.id, c)).map (·.1)).Nodup := by
    rw [List.map_map]
    exact h.sublist (List.filter_sublist.map _)
  rw [wanted, Table.values, Table.entries_ofList hkeys, List.map_map]
  exact List.map_id _

/-- The text of a node with skeletons put in is that part of the document with the spans of the children
replaced, in whatever order they were completed. -/
theorem splice_eq {text : List Char} {span : Span} {childIds : List String} {completed cs : List Completed}
    (hids : (completed.map (·.node.id)).Nodup)
    (hcs : (completed.filter fun c => childIds.contains c.node.id).Perm cs)
    (hnested : ∀ c ∈ cs, Nested text span c.node.span) (hsep : Separate (cs.map (·.patch text))) :
    splice span (slice text span) childIds completed =
      replaced text (offsetAt text span.start) (offsetAt text span.stop) (cs.map (·.patch text)) := by
  have hstart : ∀ p ∈ cs.map (·.patch text), offsetAt text span.start ≤ p.start := by
    intro p hp
    obtain ⟨c, hc, rfl⟩ := List.mem_map.mp hp
    exact (hnested c hc).start_le
  have hshift := hsep.shift hstart
  have hpatches : cs.map (patchOf (slice text span) span.start) =
      (cs.map (·.patch text)).map (·.shift (offsetAt text span.start)) := by
    rw [List.map_map]
    exact List.map_congr_left fun c hc => patchOf_eq (hnested c hc)
  have hstop : ∀ p ∈ (cs.map (·.patch text)).map (·.shift (offsetAt text span.start)),
      p.stop ≤ (slice text span).length := by
    intro p hp
    obtain ⟨q, hq, rfl⟩ := List.mem_map.mp hp
    obtain ⟨c, hc, rfl⟩ := List.mem_map.mp hq
    have hle := (hnested c hc).le_stop
    have hlength := offsetAt_le text span.stop
    rw [slice, cut, List.length_take, List.length_drop]
    simp only [Patch.shift, Completed.patch]
    omega
  have hperm := hcs.map (patchOf (slice text span) span.start)
  rw [hpatches] at hperm
  rw [splice, wanted_eq hids, applyPatches_descending (hshift.perm hperm.symm)
    fun p hp => hstop p (hperm.mem_iff.mp hp)]
  rw [replaced_congr fun i _ _ => piece_perm (hshift.perm hperm.symm) hperm i]
  exact replaced_shift hstart (offsetAt_le text span.stop)

end Skeleton

end OutlineIndex
