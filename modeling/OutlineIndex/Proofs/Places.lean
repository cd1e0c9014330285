import OutlineIndex.CodeMap
import OutlineIndex.Proofs.ByteColumns
import OutlineIndex.Proofs.Source.Lines

namespace OutlineIndex

namespace Source.Mark

theorem advanceAll_of_not_mem {l : List Char} (h : '\n' ∉ l) (m : Mark) :
    m.advanceAll l = ⟨m.line, m.column + (Utf8.encode l).length⟩ := by
  induction l generalizing m with
  | nil => rfl
  | cons c l ih =>
    have hc : c ≠ '\n' := fun e => h (e ▸ List.mem_cons_self)
    have hl : '\n' ∉ l := fun hmem => h (List.mem_cons_of_mem _ hmem)
    have hstep : m.advance c = ⟨m.line, m.column + c.utf8Size⟩ := if_neg hc
    change (m.advance c).advanceAll l = _
    rw [hstep, ih hl, Utf8.encode_cons, List.length_append, String.length_utf8EncodeChar, Nat.add_assoc]

/-- Further down, a text leads as far as from the top. -/
theorem advanceAll_down (k : Nat) (m : Mark) (s : List Char) :
    (Mark.mk (m.line + k) m.column).advanceAll s = ⟨(m.advanceAll s).line + k, (m.advanceAll s).column⟩ := by
  induction s generalizing m with
  | nil => rfl
  | cons c s ih =>
    have hstep : (Mark.mk (m.line + k) m.column).advance c = ⟨(m.advance c).line + k, (m.advance c).column⟩ := by
      unfold advance
      split
      · rw [Nat.add_right_comm]
      · rfl
    change ((Mark.mk (m.line + k) m.column).advance c).advanceAll s = _
    rw [hstep, ih]
    rfl

theorem after_append (a b : List Char) : after (a ++ b) = (after a).advanceAll b := by
  rw [after, advanceAll, List.foldl_append]
  rfl

theorem after_append_feed {l : List Char} (h : '\n' ∉ l) (s : List Char) :
    after (l ++ '\n' :: s) = ⟨(after s).line + 1, (after s).column⟩ := by
  rw [after_append, after, advanceAll_of_not_mem h]
  exact advanceAll_down 1 ⟨0, 0⟩ s

theorem line_after (front : List Char) : (after front).line = front.count '\n' := by
  rw [after, line_advanceAll, Nat.zero_add]

end Source.Mark

namespace Text

/-- Every carriage return of a text stands right before a line feed. -/
def returnsPaired : List Char → Bool
  | [] => true
  | '\r' :: '\n' :: rest => returnsPaired rest
  | c :: rest => c ≠ '\r' && returnsPaired rest

/-- Folding makes more lines just where there is a return without a line feed. -/
theorem count_foldReturns_cases (s : List Char) :
    (returnsPaired s = true ∧ (foldReturns s).count '\n' = s.count '\n') ∨
      (returnsPaired s = false ∧ s.count '\n' < (foldReturns s).count '\n') := by
  fun_induction foldReturns s with
  | case1 => exact .inl ⟨rfl, rfl⟩
  | case2 rest ih =>
    rw [returnsPaired]
    simpa using ih
  | case3 c rest hpair ih =>
    have hreads : returnsPaired (c :: rest) = (decide (c ≠ '\r') && returnsPaired rest) := by
      rw [returnsPaired]
      exact hpair
    rw [hreads]
    by_cases hc : c = '\r'
    · right
      subst hc
      have hle : rest.count '\n' ≤ (foldReturns rest).count '\n' := by
        rcases ih with ⟨-, e⟩ | ⟨-, hlt⟩
        · exact Nat.le_of_eq e.symm
        · exact Nat.le_of_lt hlt
      simpa using Nat.lt_succ_of_le hle
    · simpa [hc, List.count_cons] using ih

theorem count_foldReturns {s : List Char} (h : returnsPaired s = true) :
    (foldReturns s).count '\n' = s.count '\n' := by
  rcases count_foldReturns_cases s with ⟨-, e⟩ | ⟨hnot, -⟩
  · exact e
  · rw [h] at hnot
    cases hnot

/-- Where returns stand before line feeds, folding them moves no place behind them. -/
theorem advanceAll_foldReturns {s : List Char} (h : returnsPaired s = true) (m : Source.Mark) :
    m.advanceAll (foldReturns s) = m.advanceAll s := by
  fun_induction foldReturns s generalizing m with
  | case1 => rfl
  | case2 rest ih =>
    rw [returnsPaired] at h
    exact ih h _
  | case3 c rest hpair ih =>
    rw [returnsPaired, Bool.and_eq_true, decide_eq_true_eq] at h
    · rw [if_neg h.1]
      exact ih h.2 _
    · exact hpair

theorem returnsPaired_append_at (a b : List Char) :
    returnsPaired (a ++ '@' :: b) = (returnsPaired a && returnsPaired b) := by
  fun_induction returnsPaired a with
  | case1 => simp [returnsPaired]
  | case2 rest ih => simpa [returnsPaired] using ih
  | case3 c rest hpair ih =>
    have hpair' : ∀ tail, c = '\r' → rest ++ '@' :: b = '\n' :: tail → False := by
      intro tail hc htail
      cases rest with
      | nil => cases htail
      | cons x rest =>
        obtain ⟨rfl, -⟩ := List.cons.inj htail
        exact hpair rest hc rfl
    rw [List.cons_append, returnsPaired, ih, Bool.and_assoc]
    exact hpair'

theorem returnsPaired_of_not_mem {s : List Char} (h : '\r' ∉ s) : returnsPaired s = true := by
  fun_induction returnsPaired s with
  | case1 => rfl
  | case2 rest ih => simp at h
  | case3 c rest _ ih =>
    have hc : c ≠ '\r' := fun e => h (e ▸ List.mem_cons_self)
    simp [hc, ih fun hmem => h (List.mem_cons_of_mem _ hmem)]

end Text

open Source (Mark)

/-- The first line of a text starts with whatever starts the text and has no line feed. -/
theorem isPrefix_rowAt_zero {front : List Char} (h : '\n' ∉ front) (rest : List Char) :
    front <+: rowAt (front ++ rest) 0 := by
  by_cases hfeed : '\n' ∈ rest
  · obtain ⟨l, s, rfl, hl⟩ := List.eq_append_cons_of_mem hfeed
    have hnot : '\n' ∉ front ++ l := by simp [h, hl]
    rw [rowAt, ← List.append_assoc, Text.split_append_sep hnot]
    exact ⟨_, (List.append_assoc front l _).symm⟩
  · have hnot : '\n' ∉ front ++ rest := by simp [h, hfeed]
    rw [rowAt, Text.split_of_not_mem hnot]
    exact ⟨rest, by simp⟩

/-- The column after a front part of a text is that of a number of whole characters of the line. -/
theorem column_after (front rest : List Char) : ∃ n ≤ (rowAt (front ++ rest) (front.count '\n')).length,
    (Mark.after front).column = (Utf8.encode ((rowAt (front ++ rest) (front.count '\n')).take n)).length := by
  induction hk : front.count '\n' generalizing front with
  | zero =>
    have hnot : '\n' ∉ front := List.count_eq_zero.mp hk
    obtain ⟨more, hrow⟩ := isPrefix_rowAt_zero hnot rest
    refine ⟨front.length, ?_, ?_⟩
    · rw [← hrow, List.length_append]
      omega
    · rw [← hrow, List.take_left, Mark.after, Mark.advanceAll_of_not_mem hnot, Nat.zero_add]
  | succ k ih =>
    have hmem : '\n' ∈ front := List.count_pos_iff.mp (by omega)
    obtain ⟨l, s, rfl, hl⟩ := List.eq_append_cons_of_mem hmem
    have hcount : s.count '\n' = k := by
      rw [List.count_append, List.count_cons_self, List.count_eq_zero.mpr hl] at hk
      omega
    obtain ⟨n, hn, hcolumn⟩ := ih s hcount
    rw [List.append_assoc, List.cons_append, rowAt_append_feed hl, Mark.after_append_feed hl]
    exact ⟨n, hn, hcolumn⟩

namespace Utf8

/-- What a front part of some bytes spells is a front part of what they spell. -/
theorem isPrefix_decodeFrom (p : Option Partial) (a b : List UInt8) :
    (decodeFrom p a).filterMap id <+: (decodeFrom p (a ++ b)).filterMap id := by
  induction a generalizing p with
  | nil => cases p <;> simp [decodeFrom]
  | cons x a ih =>
    have hlead : ∀ (f : List (Option Char) → List (Option Char)) (q : Option Partial),
        (∀ l, (f l).filterMap id = (f []).filterMap id ++ l.filterMap id) →
        (f (decodeFrom q a)).filterMap id <+: (f (decodeFrom q (a ++ b))).filterMap id := by
      intro f q hf
      rw [hf, hf (decodeFrom q (a ++ b))]
      exact (List.prefix_append_right_inj _).mpr (ih q)
    cases p with
    | none =>
      simp only [List.cons_append, decodeFrom]
      cases lead x with
      | char c => exact hlead (some c :: ·) none (by simp)
      | begins q => exact ih (some q)
      | bad => exact hlead (none :: ·) none (by simp)
    | some p =>
      simp only [List.cons_append, decodeFrom]
      split
      · split
        · generalize Char.ofNat _ = c
          exact hlead (some c :: ·) none (by simp)
        · exact ih _
      · cases lead x with
        | char c => exact hlead (fun l => none :: some c :: l) none (by simp)
        | begins q => exact hlead (none :: ·) (some q) (by simp)
        | bad => exact hlead (fun l => none :: none :: l) none (by simp)

theorem decodeDropping_encode (s : List Char) : decodeDropping (encode s) = s := by
  rw [decodeDropping, decode_encode]
  simp

theorem length_decodeDropping_take_le {m n : Nat} (h : m ≤ n) (bytes : List UInt8) :
    (decodeDropping (bytes.take m)).length ≤ (decodeDropping (bytes.take n)).length := by
  have hsplit : bytes.take n = bytes.take m ++ (bytes.take n).drop m := by
    conv_lhs => rw [← List.take_append_drop m (bytes.take n)]
    rw [List.take_take, Nat.min_eq_left h]
  rw [hsplit]
  exact (isPrefix_decodeFrom none _ _).length_le

end Utf8

theorem line_positionOfBytes (text : List Char) (line column : Int) :
    (positionOfBytes text line column).line = line := by
  unfold positionOfBytes
  dsimp only
  split <;> rfl

/-- The position of a place in the source. -/
def positionOf (text : List Char) (m : Mark) : Position := positionOfBytes text m.line m.column

theorem line_positionOf (text : List Char) (m : Mark) : (positionOf text m).line = m.line :=
  line_positionOfBytes _ _ _

theorem character_positionOf (text : List Char) (m : Mark) : (positionOf text m).character =
    if m.line < (lineStarts text).length then
      ((Utf8.decodeDropping ((Utf8.encode (cut text ((lineStarts text).getD m.line 0)
        (offsetAt text ⟨m.line + 1, 0⟩))).take m.column)).length : Int)
    else m.column := by
  unfold positionOf positionOfBytes
  dsimp only
  rcases Nat.eq_zero_or_pos m.column with hzero | hpos
  · simp [hzero, Utf8.decodeDropping, Utf8.decode, Utf8.decodeFrom]
  · by_cases hm : m.line < (lineStarts text).length
    · rw [if_neg (by omega), if_pos hm, Int.toNat_natCast, Int.toNat_natCast]
    · rw [if_pos (by omega), if_neg hm]
      dsimp only
      omega

/-- Positions come in the order of the places. -/
theorem not_precedes_positionOf {text : List Char} {a b : Mark} (h : a.Le b) :
    ¬(positionOf text b).Precedes (positionOf text a) := by
  have hline := line_positionOf text
  have hcharacter := character_positionOf text
  unfold Position.Precedes
  rw [hline, hline, hcharacter, hcharacter]
  rcases h with h | ⟨hl, hc⟩
  · omega
  · rw [hl]
    have hle := Utf8.length_decodeDropping_take_le hc (Utf8.encode (cut text ((lineStarts text).getD b.line 0)
        (offsetAt text ⟨b.line + 1, 0⟩)))
    split <;> omega

theorem length_lineStarts (text : List Char) : (lineStarts text).length = text.count '\n' + 1 := by
  rw [lineStarts, List.length_cons, length_startsAfterFeeds]

/-- A place that is at least a character behind another one has a later position. -/
theorem precedes_positionOf {text : List Char} {a b : Mark} (h : a.Before text b) :
    (positionOf text a).Precedes (positionOf text b) := by
  have hline := line_positionOf text
  unfold Position.Precedes
  rw [hline, hline]
  rcases h with h | ⟨hl, hc, -, hwhole⟩
  · exact .inl (by omega)
  refine .inr ⟨by omega, ?_⟩
  have hlength := length_lineStarts text
  by_cases hin : b.line < (lineStarts text).length
  · -- the characters in front of `a` end before `b`, where some number of characters ends
    obtain ⟨front, ⟨rest, htext⟩, hfront⟩ := hwhole (by omega)
    obtain ⟨n, hn, hcolumn⟩ := column_after front rest
    rw [htext, ← Mark.line_after, hfront] at hn hcolumn
    obtain ⟨⟨hka, hbytes⟩, -⟩ := Utf8.isGreatest_decodeDropping_take (rowAt text b.line) a.column
    obtain ⟨-, hgreatest⟩ := Utf8.isGreatest_decodeDropping_take (rowAt text b.line) b.column
    have hlast := hgreatest ⟨hn, hcolumn.symm.le⟩
    have hless : (Utf8.decodeDropping ((Utf8.encode (rowAt text b.line)).take a.column)).length < n := by
      by_contra hnot
      rcases Nat.lt_or_eq_of_le (Nat.not_lt.mp hnot) with hlt | e
      · have hmore := Utf8.length_encode_take_lt hlt hka
        omega
      · rw [← e] at hbytes
        omega
    rw [positionOf, positionOf, hl, positionOfBytes_eq hin, positionOfBytes_eq hin]
    dsimp only
    omega
  · have hcharacter := character_positionOf text
    rw [hcharacter, hcharacter, if_neg (by omega), if_neg (by omega)]
    omega

/-- A place on one of the lines of a text is not behind the end of the text. -/
theorem not_precedes_endPosition {text : List Char} {m : Mark} (h : m.line ≤ text.count '\n') :
    ¬(endPosition text).Precedes (positionOf text m) := by
  have hlength := length_lineStarts text
  have hend : endPosition text = ⟨text.count '\n', text.length - (lineStarts text).getLast?.getD 0⟩ := by
    rw [endPosition, hlength]
    simp
  have hline := line_positionOf text m
  have hcharacter := character_positionOf text m
  rw [if_pos (by omega)] at hcharacter
  rw [hend]
  unfold Position.Precedes
  rw [hline, hcharacter]
  dsimp only
  rcases Nat.lt_or_eq_of_le h with h | h
  · omega
  · -- on the last line there are no more characters than up to the end
    have hlast : (lineStarts text).getLast?.getD 0 = (lineStarts text).getD m.line 0 := by
      rw [List.getLast?_eq_getElem?, List.getD_eq_getElem?_getD, hlength, h]
      rfl
    have hstop : offsetAt text ⟨m.line + 1, 0⟩ = text.length := by
      rw [offsetAt, if_pos (by dsimp only; omega)]
    have hrow : (cut text ((lineStarts text).getD m.line 0) text.length).length =
        text.length - (lineStarts text).getD m.line 0 := by
      rw [cut, List.length_take, List.length_drop, Nat.min_self]
    have hcount := Utf8.length_decodeDropping_take_le (Nat.le_max_left m.column
      (Utf8.encode (cut text ((lineStarts text).getD m.line 0) text.length)).length)
      (Utf8.encode (cut text ((lineStarts text).getD m.line 0) text.length))
    rw [List.take_of_length_le (Nat.le_max_right _ _), Utf8.decodeDropping_encode, hrow] at hcount
    have hstart := getD_lineStarts_le (Nat.zero_le text.length) m.line
    rw [hlast, hstop]
    omega

end OutlineIndex
