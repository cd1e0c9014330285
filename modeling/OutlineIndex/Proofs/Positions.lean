import Mathlib.Data.Set.Function
import Mathlib.Order.Interval.Set.Defs
import OutlineIndex.Proofs.Path
import OutlineIndex.Proofs.Splicing

namespace OutlineIndex

theorem column_cons_feed (s : List Char) : column ('\n' :: s) = column s := by
  by_cases hfeed : '\n' ∈ s
  · exact column_append_of_mem ['\n'] hfeed
  · have hnone := column_append_of_not_mem [] hfeed
    have hone := column_append_of_not_mem ['\n'] hfeed
    exact hone.trans hnone.symm

section Offsets

variable {text : List Char} {i j : Nat}

theorem precedes_positionAt (hij : i < j) (hj : j ≤ text.length) :
    (positionAt text i).Precedes (positionAt text j) := by
  have htake : text.take j = text.take i ++ cut text i j := by
    rw [cut, ← List.take_add, Nat.add_sub_cancel' hij.le]
  have hlength : (cut text i j).length = j - i := by
    rw [cut, List.length_take, List.length_drop]
    omega
  simp only [positionAt, Position.Precedes, htake, List.count_append]
  by_cases hfeed : '\n' ∈ cut text i j
  · have hcount : 0 < (cut text i j).count '\n' := List.count_pos_iff.mpr hfeed
    omega
  · have hcount : (cut text i j).count '\n' = 0 := List.count_eq_zero.mpr hfeed
    rw [column_append_of_not_mem _ hfeed, hlength]
    omega

theorem offsetAt_positionAt (hi : i ≤ text.length) : offsetAt text (positionAt text i) = i := by
  have hle := offsetAt_le text (positionAt text i)
  rcases Nat.lt_trichotomy (offsetAt text (positionAt text i)) i with hlt | heq | hgt
  · -- the position of a smaller offset would not come before the position
    have hself := (lt_offsetAt_iff (Nat.lt_of_lt_of_le hlt hi) _).mpr (precedes_positionAt hlt hi)
    omega
  · exact heq
  · have hself := (lt_offsetAt_iff (Nat.lt_of_lt_of_le hgt hle) _).mp hgt
    unfold Position.Precedes at hself
    omega

end Offsets

namespace Position

variable {text : List Char} {p q : Position} {i : Nat}

/-- The position is on a line of the text, not after its end. -/
def InBounds (text : List Char) (p : Position) : Prop :=
  0 ≤ p.line ∧ 0 ≤ p.character ∧
    ∃ row ∈ (Text.split '\n' text)[p.line.toNat]?, p.character ≤ row.length

instance (text : List Char) (p : Position) : Decidable (p.InBounds text) :=
  inferInstanceAs (Decidable (_ ∧ _ ∧ _))

theorem positionAt_append_of_not_mem {l : List Char} (hl : '\n' ∉ l) (rest : List Char) {j : Nat}
    (hj : j ≤ l.length) : positionAt (l ++ rest) j = ⟨0, j⟩ := by
  have hnone : '\n' ∉ l.take j := fun hmem => hl (List.mem_of_mem_take hmem)
  have hcolumn := column_append_of_not_mem [] hnone
  rw [List.nil_append, List.length_take, Nat.min_eq_left hj] at hcolumn
  rw [positionAt, List.take_append_of_le_length hj, hcolumn, List.count_eq_zero.mpr hnone]
  simp [column]

/-- Behind a first line, positions are one line further on. -/
theorem positionAt_append_feed (l s : List Char) (i : Nat) :
    positionAt (l ++ '\n' :: s) (l.length + 1 + i) =
      ⟨l.count '\n' + 1 + (positionAt s i).line, (positionAt s i).character⟩ := by
  have htake : (l ++ '\n' :: s).take (l.length + 1 + i) = l ++ '\n' :: s.take i := by
    rw [Nat.add_assoc, List.take_length_add_append, Nat.add_comm 1 i, List.take_succ_cons]
  rw [positionAt, htake, column_append_of_mem l (by simp), column_cons_feed, List.count_append,
    List.count_cons_self]
  simp only [positionAt, mk.injEq, and_true]
  omega

/-- The positions on a line are those of its offsets. -/
theorem exists_positionAt_eq {row : List Char} {k : Nat} (h : (Text.split '\n' text)[k]? = some row) :
    ∃ i, i + row.length ≤ text.length ∧ ∀ j ≤ row.length, positionAt text (i + j) = ⟨k, j⟩ := by
  induction k generalizing text with
  | zero =>
    by_cases hfeed : '\n' ∈ text
    · obtain ⟨l, s, rfl, hl⟩ := List.eq_append_cons_of_mem hfeed
      rw [Text.split_append_sep hl] at h
      obtain rfl : l = row := by simpa using h
      exact ⟨0, by simp, fun j hj => by simpa using positionAt_append_of_not_mem hl ('\n' :: s) hj⟩
    · rw [Text.split_of_not_mem hfeed] at h
      obtain rfl : text = row := by simpa using h
      exact ⟨0, by simp, fun j hj => by simpa using positionAt_append_of_not_mem hfeed [] hj⟩
  | succ k ih =>
    by_cases hfeed : '\n' ∈ text
    · obtain ⟨l, s, rfl, hl⟩ := List.eq_append_cons_of_mem hfeed
      rw [Text.split_append_sep hl, List.getElem?_cons_succ] at h
      obtain ⟨i, hi, hpositions⟩ := ih h
      refine ⟨l.length + 1 + i, by simp; omega, fun j hj => ?_⟩
      rw [Nat.add_assoc, positionAt_append_feed, hpositions j hj, List.count_eq_zero.mpr hl]
      simp only [mk.injEq, and_true]
      omega
    · rw [Text.split_of_not_mem hfeed] at h
      simp at h

theorem InBounds.isIn (h : p.InBounds text) : p.IsIn text := by
  obtain ⟨hline, hcharacter, row, hrow, hle⟩ := h
  obtain ⟨i, hi, hpositions⟩ := exists_positionAt_eq hrow
  have hat : positionAt text (i + p.character.toNat) = p := by
    rw [hpositions _ (by omega), Int.toNat_of_nonneg hline, Int.toNat_of_nonneg hcharacter]
  have hoffset : offsetAt text p = i + p.character.toNat := by
    rw [← hat, offsetAt_positionAt (by omega), hat]
  rw [IsIn, hoffset, hat]

/-- Every offset has a position on a line. -/
theorem inBounds_positionAt (hi : i ≤ text.length) : (positionAt text i).InBounds text := by
  -- on the number of line feeds: an offset is on the first line or in the text behind it
  induction hfeeds : text.count '\n' generalizing text i with
  | zero =>
    have hnone : '\n' ∉ text := List.count_eq_zero.mp hfeeds
    have hposition := positionAt_append_of_not_mem hnone [] hi
    rw [List.append_nil] at hposition
    simp [hposition, InBounds, Text.split_of_not_mem hnone, hi]
  | succ n ih =>
    have hfeed : '\n' ∈ text := List.count_pos_iff.mp (by omega)
    obtain ⟨l, s, rfl, hl⟩ := List.eq_append_cons_of_mem hfeed
    by_cases hfirst : i ≤ l.length
    · have hposition := positionAt_append_of_not_mem hl ('\n' :: s) hfirst
      simp [hposition, InBounds, Text.split_append_sep hl, hfirst]
    · obtain ⟨j, rfl⟩ : ∃ j, i = l.length + 1 + j := ⟨i - (l.length + 1), by omega⟩
      have hcount : l.count '\n' = 0 := List.count_eq_zero.mpr hl
      have hrest : s.count '\n' = n := by simpa [hcount] using hfeeds
      have hj : j ≤ s.length := by
        simp only [List.length_append, List.length_cons] at hi
        omega
      obtain ⟨hline, hcharacter, row, hrow, hle⟩ := ih hj hrest
      have hnext : (1 + (positionAt s j).line).toNat = (positionAt s j).line.toNat + 1 := by omega
      rw [positionAt_append_feed, hcount]
      refine ⟨?_, hcharacter, row, ?_, hle⟩
      · dsimp only
        omega
      · simpa [Text.split_append_sep hl, hnext] using hrow

/-- The order of positions in a text is that of their offsets. -/
theorem IsIn.precedes_iff (hp : p.IsIn text) (hq : q.IsIn text) :
    p.Precedes q ↔ offsetAt text p < offsetAt text q := by
  constructor
  · intro h
    by_contra hle
    rcases Nat.lt_or_eq_of_le (Nat.not_lt.mp hle) with hlt | heq
    · have hafter := (lt_offsetAt_iff (Nat.lt_of_lt_of_le hlt (offsetAt_le text p)) p).mp hlt
      rw [show positionAt text (offsetAt text q) = q from hq] at hafter
      unfold Precedes at h hafter
      omega
    · obtain rfl : q = p := by rw [← hq, heq, hp]
      unfold Precedes at h
      omega
  · intro h
    by_contra hnot
    exact Nat.not_lt.mpr (offsetAt_mono hnot) h

/-- Positions are ordered by line, and on a line by character. -/
instance : PartialOrder Position where
  le p q := p.line < q.line ∨ p.line = q.line ∧ p.character ≤ q.character
  lt := Precedes
  le_refl p := .inr ⟨rfl, Int.le_refl p.character⟩
  le_trans p q r hpq hqr := by omega
  lt_iff_le_not_ge p q := by
    unfold Precedes
    omega
  le_antisymm p q hpq hqp := by
    have hline : p.line = q.line := by omega
    have hcharacter : p.character = q.character := by omega
    cases p
    cases q
    simp_all

instance : DecidableLE Position := fun p q =>
  inferInstanceAs (Decidable (p.line < q.line ∨ p.line = q.line ∧ p.character ≤ q.character))

theorem le_iff_not_precedes : p ≤ q ↔ ¬q.Precedes p := by
  change (p.line < q.line ∨ p.line = q.line ∧ p.character ≤ q.character) ↔ _
  unfold Precedes
  omega

end Position

section Slices

variable {text : List Char} {p q r : Position}

theorem monotone_offsetAt (text : List Char) : Monotone (offsetAt text) := by
  intro p q hpq
  exact offsetAt_mono (Position.le_iff_not_precedes.mp hpq)

/-- Positions in bounds and offsets are the same thing. -/
theorem bijOn_offsetAt (text : List Char) :
    Set.BijOn (offsetAt text) {p | p.InBounds text} (Set.Iic text.length) := by
  refine ⟨fun p _ => offsetAt_le text p, ?_, ?_⟩
  · intro p hp q hq hoffset
    have hpin : positionAt text (offsetAt text p) = p := Position.InBounds.isIn hp
    have hqin : positionAt text (offsetAt text q) = q := Position.InBounds.isIn hq
    rw [← hpin, hoffset, hqin]
  · intro i hi
    exact ⟨positionAt text i, Position.inBounds_positionAt hi, offsetAt_positionAt hi⟩

theorem cut_append_cut {i j k : Nat} (hij : i ≤ j) (hjk : j ≤ k) :
    cut text i j ++ cut text j k = cut text i k := by
  have hdrop : text.drop j = (text.drop i).drop (j - i) := by
    rw [List.drop_drop, Nat.add_sub_cancel' hij]
  have hlength : k - i = (j - i) + (k - j) := by omega
  rw [cut, cut, cut, hdrop, hlength, List.take_add]

theorem slice_append_slice (hpq : p ≤ q) (hqr : q ≤ r) :
    slice text ⟨p, q⟩ ++ slice text ⟨q, r⟩ = slice text ⟨p, r⟩ :=
  cut_append_cut (monotone_offsetAt text hpq) (monotone_offsetAt text hqr)

theorem endPosition_eq (text : List Char) : endPosition text = positionAt text text.length := by
  have hlines : (lineStarts text).length = text.count '\n' + 1 := by
    rw [lineStarts, List.length_cons, length_startsAfterFeeds]
  have hlast : (lineStarts text).getLast?.getD 0 = text.length - column text := by
    have hstart := getD_startsAfterFeeds 0 0 text
    rw [Nat.zero_add] at hstart
    rw [List.getLast?_eq_getElem?, hlines, Nat.add_sub_cancel, ← List.getD_eq_getElem?_getD]
    exact hstart
  have hle := column_le text
  rw [endPosition, positionAt, List.take_length]
  simp only [hlines, hlast, Position.mk.injEq]
  omega

theorem slice_fullSpan (text : List Char) : slice text (fullSpan text) = text := by
  have hstart : offsetAt text ⟨0, 0⟩ = 0 := offsetAt_positionAt (Nat.zero_le text.length)
  have hstop : offsetAt text (endPosition text) = text.length := by
    rw [endPosition_eq, offsetAt_positionAt (Nat.le_refl text.length)]
  rw [slice, fullSpan]
  simp [hstart, hstop, cut]

/-- Offsets in a slice are counted from its start. -/
theorem offsetAt_add_offsetAt_slice {s : Span} (hstart : s.start.InBounds text)
    (hq : q ∈ Set.Icc s.start s.stop) :
    offsetAt text s.start + offsetAt (slice text s) (q.rebase s.start) = offsetAt text q := by
  have hbefore := monotone_offsetAt text hq.1
  have hafter := monotone_offsetAt text hq.2
  rw [slice, offsetAt_rebase hstart.isIn (Position.le_iff_not_precedes.mp hq.1), Nat.min_eq_left hafter]
  omega

end Slices

namespace Document

/-- The offset of a position grows with the position and stays in the text, and each offset is that of one
position in bounds. So slices that meet make up one slice, the full span is the whole text, and offsets in
the text of a slice are those in the document, counted from where the slice starts. -/
theorem offsets_exact (d : Document) :
    let text := d.text.toList
    Monotone (offsetAt text) ∧ (∀ p, offsetAt text p ≤ text.length) ∧
    Set.BijOn (offsetAt text) {p | p.InBounds text} (Set.Iic text.length) ∧
    (∀ p q r, p ≤ q → q ≤ r → d.slice ⟨p, q⟩ ++ d.slice ⟨q, r⟩ = d.slice ⟨p, r⟩) ∧
    d.slice d.fullSpan = d.text ∧
    ∀ s : Span, s.start.InBounds text → ∀ q ∈ Set.Icc s.start s.stop,
      offsetAt text s.start + offsetAt (d.slice s).toList (q.rebase s.start) = offsetAt text q := by
  intro text
  refine ⟨monotone_offsetAt text, offsetAt_le text, bijOn_offsetAt text, ?_, ?_, ?_⟩
  · intro p q r hpq hqr
    have happend : OutlineIndex.slice text ⟨p, q⟩ ++ OutlineIndex.slice text ⟨q, r⟩ =
        OutlineIndex.slice text ⟨p, r⟩ := slice_append_slice hpq hqr
    rw [slice, slice, slice, ← String.ofList_append, happend]
  · rw [slice, fullSpan, slice_fullSpan, String.ofList_toList]
  · intro s hstart q hq
    rw [slice, String.toList_ofList]
    exact offsetAt_add_offsetAt_slice hstart hq

/-- Two slices that meet behind a line, from before the text to after it, and a slice from the middle of a
line to just behind a line feed. -/
theorem offsets_exact_outside :
    let d : Document := ⟨"", "ab\n\ncd"⟩
    d.slice ⟨⟨-1, 7⟩, ⟨0, 5⟩⟩ ++ d.slice ⟨⟨0, 5⟩, ⟨9, -2⟩⟩ = d.slice ⟨⟨-1, 7⟩, ⟨9, -2⟩⟩ ∧
    Position.InBounds "ab\n\ncd".toList ⟨0, 1⟩ ∧
    offsetAt "ab\n\ncd".toList ⟨0, 1⟩ +
      offsetAt (d.slice ⟨⟨0, 1⟩, ⟨2, 0⟩⟩).toList (Position.rebase ⟨2, 0⟩ ⟨0, 1⟩) =
        offsetAt "ab\n\ncd".toList ⟨2, 0⟩ := by
  intro d
  obtain ⟨-, -, -, hmeet, -, hslice⟩ := offsets_exact d
  have hin : Position.InBounds "ab\n\ncd".toList ⟨0, 1⟩ := by decide
  refine ⟨hmeet _ _ _ (by decide) (by decide), hin, ?_⟩
  exact hslice ⟨⟨0, 1⟩, ⟨2, 0⟩⟩ hin ⟨2, 0⟩ ⟨by decide, by decide⟩

end Document

end OutlineIndex
