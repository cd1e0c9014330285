import Mathlib.Data.List.GetD
import Mathlib.Order.Bounds.Defs
import OutlineIndex.Proofs.Coding
import OutlineIndex.Proofs.Positions

namespace OutlineIndex

namespace Utf8

/-- A byte inside a character, behind its first. -/
def IsContinuation (b : UInt8) : Prop := 0x80 ≤ b.toNat ∧ b.toNat < 0xC0

theorem lead_of_isContinuation {b : UInt8} (h : IsContinuation b) : lead b = .bad := by
  have hlow : ¬b.toNat < 0x80 := by have := h.1; omega
  have hhigh : b.toNat < 0xC2 := by have := h.2; omega
  simp [lead, UInt8.lt_iff_toNat_lt, hlow, hhigh]

section Continuations

variable {bs : List UInt8} (hbs : ∀ b ∈ bs, IsContinuation b)
include hbs

theorem filterMap_decodeFrom_none : (decodeFrom none bs).filterMap id = [] := by
  induction bs with
  | nil => rfl
  | cons b bs ih =>
    rw [decodeFrom, lead_of_isContinuation (hbs b (by simp))]
    exact ih fun x hx => hbs x (List.mem_cons_of_mem b hx)

/-- A character of which bytes are missing is not spelled. -/
theorem filterMap_decodeFrom_some {p : Partial} (hp : bs.length < p.owed) :
    (decodeFrom (some p) bs).filterMap id = [] := by
  induction bs generalizing p with
  | nil => rfl
  | cons b bs ih =>
    have hrest : ∀ x ∈ bs, IsContinuation x := fun x hx => hbs x (List.mem_cons_of_mem b hx)
    rw [List.length_cons] at hp
    rw [decodeFrom]
    dsimp only
    split
    · rw [if_neg (by omega)]
      exact ih hrest (by dsimp only; omega)
    · rw [lead_of_isContinuation (hbs b (by simp))]
      exact filterMap_decodeFrom_none hrest

end Continuations

/-- A character is one byte, or a first byte that says how many continue it. -/
theorem utf8EncodeChar_cases (c : Char) : (String.utf8EncodeChar c).length = 1 ∨
    ∃ b bs p, String.utf8EncodeChar c = b :: bs ∧ lead b = .begins p ∧ bs.length = p.owed ∧
      ∀ x ∈ bs, IsContinuation x := by
  have hvalid : c.val.toNat < 0xD800 ∨ (0xDFFF < c.val.toNat ∧ c.val.toNat < 0x110000) := c.valid
  have hcontinues : ∀ n, IsContinuation (UInt8.ofNat (n % 0x40 + 0x80)) := by
    intro n
    rw [IsContinuation, toNat_ofNat_of_lt (by omega)]
    omega
  unfold String.utf8EncodeChar
  generalize c.val.toNat = v at hvalid ⊢
  dsimp only
  split
  · exact .inl rfl
  split
  · exact .inr ⟨_, _, _, rfl, lead_two (by omega) (by omega), rfl,
      List.forall_mem_singleton.mpr (hcontinues v)⟩
  split
  · exact .inr ⟨_, _, _, rfl, lead_three (by omega) (by omega), rfl,
      List.forall_mem_cons.mpr ⟨hcontinues (v / 64), List.forall_mem_singleton.mpr (hcontinues v)⟩⟩
  · exact .inr ⟨_, _, _, rfl, lead_four (by omega) (by omega), rfl,
      List.forall_mem_cons.mpr ⟨hcontinues (v / 4096), List.forall_mem_cons.mpr
        ⟨hcontinues (v / 64), List.forall_mem_singleton.mpr (hcontinues v)⟩⟩⟩

/-- The first bytes of a character without its last spell nothing. -/
theorem decodeDropping_take_encodeChar {c : Char} {n : Nat} (h : n < (String.utf8EncodeChar c).length) :
    decodeDropping ((String.utf8EncodeChar c).take n) = [] := by
  cases n with
  | zero => rfl
  | succ n =>
    rcases utf8EncodeChar_cases c with hone | ⟨b, bs, p, hc, hlead, howed, hbs⟩
    · omega
    · rw [hc, List.length_cons] at h
      rw [hc, List.take_succ_cons, decodeDropping, decode, decodeFrom, hlead]
      refine filterMap_decodeFrom_some (fun x hx => hbs x (List.mem_of_mem_take hx)) ?_
      rw [List.length_take]
      omega

theorem encode_cons (c : Char) (s : List Char) : encode (c :: s) = String.utf8EncodeChar c ++ encode s := rfl

/-- Each character adds to the bytes before it. -/
theorem length_encode_take_lt {s : List Char} {m n : Nat} (hmn : m < n) (hn : n ≤ s.length) :
    (encode (s.take m)).length < (encode (s.take n)).length := by
  have hsplit : s.take n = s.take m ++ (s.drop m).take (n - m) := by
    rw [← List.take_add, Nat.add_sub_cancel' hmn.le]
  have hmore : (s.drop m).take (n - m) ≠ [] := by
    intro hnone
    have hlength := congrArg List.length hnone
    rw [List.length_take, List.length_drop, List.length_nil] at hlength
    omega
  obtain ⟨c, rest, hcons⟩ := List.exists_cons_of_ne_nil hmore
  obtain ⟨b, bs, hc, -⟩ := utf8EncodeChar_head c
  have hbytes : encode (s.take n) = encode (s.take m) ++ (b :: bs ++ encode rest) := by
    rw [hsplit, hcons, ← hc]
    exact List.flatMap_append
  rw [hbytes, List.length_append, List.cons_append, List.length_cons]
  omega

/-- The bytes up to a column spell as many characters as have all their bytes before it. -/
theorem isGreatest_decodeDropping_take (s : List Char) (b : Nat) :
    IsGreatest {n | n ≤ s.length ∧ (encode (s.take n)).length ≤ b}
      (decodeDropping ((encode s).take b)).length := by
  induction s generalizing b with
  | nil =>
    refine ⟨by simp [encode, decodeDropping, decode, decodeFrom], fun n hn => ?_⟩
    exact Nat.le_trans hn.1 (Nat.zero_le _)
  | cons c s ih =>
    by_cases hfits : (String.utf8EncodeChar c).length ≤ b
    · -- the first character is spelled, and the rest has the bytes that it leaves
      obtain ⟨⟨hlength, hbytes⟩, hgreatest⟩ := ih (b - (String.utf8EncodeChar c).length)
      have hspelled : decodeDropping ((encode (c :: s)).take b) =
          c :: decodeDropping ((encode s).take (b - (String.utf8EncodeChar c).length)) := by
        rw [encode_cons, List.take_append, List.take_of_length_le hfits, decodeDropping, decode,
          decodeFrom_encodeChar]
        rfl
      rw [hspelled]
      constructor
      · refine ⟨Nat.succ_le_succ hlength, ?_⟩
        rw [List.length_cons, List.take_succ_cons, encode_cons, List.length_append]
        omega
      · rintro n ⟨hn, hle⟩
        cases n with
        | zero => exact Nat.zero_le _
        | succ n =>
          rw [List.take_succ_cons, encode_cons, List.length_append] at hle
          exact Nat.succ_le_succ (hgreatest ⟨Nat.le_of_succ_le_succ hn, by omega⟩)
    · have hnothing : decodeDropping ((encode (c :: s)).take b) = [] := by
        rw [encode_cons, List.take_append_of_le_length (by omega)]
        exact decodeDropping_take_encodeChar (by omega)
      rw [hnothing]
      refine ⟨⟨Nat.zero_le _, Nat.zero_le _⟩, fun n hn => ?_⟩
      cases n with
      | zero => exact Nat.le_refl _
      | succ n =>
        have hle := hn.2
        rw [List.take_succ_cons, encode_cons, List.length_append] at hle
        omega

end Utf8

/-- The line of a text with a number, and the line feed that ends it. -/
def rowAt (text : List Char) (i : Nat) : List Char :=
  (Text.split '\n' text).getD i [] ++ if i + 1 < (Text.split '\n' text).length then ['\n'] else []

theorem rowAt_append_feed {l : List Char} (h : '\n' ∉ l) (s : List Char) (i : Nat) :
    rowAt (l ++ '\n' :: s) (i + 1) = rowAt s i := by
  simp [rowAt, Text.split_append_sep h]

theorem startsAfterFeeds_add (n m : Nat) (s : List Char) :
    startsAfterFeeds (n + m) s = (startsAfterFeeds n s).map (· + m) := by
  induction s generalizing n with
  | nil => rfl
  | cons c s ih =>
    have hrest := ih (n + 1)
    rw [Nat.add_right_comm] at hrest
    rw [startsAfterFeeds, startsAfterFeeds, hrest]
    split
    · rw [List.map_cons, Nat.add_right_comm]
    · rfl

theorem lineStarts_of_not_mem {l : List Char} (h : '\n' ∉ l) : lineStarts l = [0] := by
  have hlength := length_startsAfterFeeds 0 l
  rw [List.count_eq_zero.mpr h] at hlength
  rw [lineStarts, List.eq_nil_of_length_eq_zero hlength]

/-- Behind a first line, the lines start as in the rest on its own. -/
theorem lineStarts_append_feed {l : List Char} (h : '\n' ∉ l) (s : List Char) :
    lineStarts (l ++ '\n' :: s) = 0 :: (lineStarts s).map (· + (l.length + 1)) := by
  have hnone : startsAfterFeeds 0 l = [] := (List.cons.inj (lineStarts_of_not_mem h)).2
  rw [lineStarts, startsAfterFeeds_append, hnone, List.nil_append, startsAfterFeeds, if_pos rfl, lineStarts,
    List.map_cons, Nat.add_assoc, startsAfterFeeds_add]

/-- The line after another starts where that one ends. -/
theorem offsetAt_next (text : List Char) (i : Nat) :
    offsetAt text ⟨i + 1, 0⟩ = (lineStarts text).getD (i + 1) text.length := by
  unfold offsetAt
  dsimp only
  by_cases hi : i + 1 < (lineStarts text).length
  · have hline : ((i : Int) + 1).toNat = i + 1 := by omega
    rw [if_neg (by omega), if_neg (by omega), hline, List.getD_eq_getElem _ _ hi, List.getD_eq_getElem _ _ hi]
    omega
  · rw [if_pos (by omega), List.getD_eq_default _ _ (by omega)]

theorem cut_append_left (a s : List Char) (i j : Nat) : cut (a ++ s) (i + a.length) (j + a.length) = cut s i j := by
  rw [cut, cut, Nat.add_sub_add_right, Nat.add_comm i, List.drop_length_add_append]

/-- What lies between the starts of two lines is the first of them. -/
theorem cut_lineStarts {text : List Char} {i : Nat} (hi : i < (lineStarts text).length) :
    cut text ((lineStarts text).getD i 0) ((lineStarts text).getD (i + 1) text.length) = rowAt text i := by
  induction i generalizing text with
  | zero =>
    by_cases hfeed : '\n' ∈ text
    · obtain ⟨l, s, rfl, hl⟩ := List.eq_append_cons_of_mem hfeed
      have hlines := List.length_pos_iff.mpr (Text.split_ne_nil '\n' s)
      rw [lineStarts_append_feed hl, rowAt, Text.split_append_sep hl, if_pos (by simpa using hlines)]
      simp [lineStarts, cut, List.take_append, List.take_of_length_le]
    · rw [lineStarts_of_not_mem hfeed, rowAt, Text.split_of_not_mem hfeed]
      simp [cut]
  | succ i ih =>
    by_cases hfeed : '\n' ∈ text
    · obtain ⟨l, s, rfl, hl⟩ := List.eq_append_cons_of_mem hfeed
      have happend : l ++ '\n' :: s = (l ++ ['\n']) ++ s := by simp
      have hlength : (l ++ ['\n']).length = l.length + 1 := by simp
      have htotal : (l ++ '\n' :: s).length = s.length + (l.length + 1) := by simp; omega
      rw [lineStarts_append_feed hl, List.length_cons, List.length_map] at hi
      have hinside : i < (lineStarts s).length := by omega
      have hstart : ((lineStarts s).map (· + (l.length + 1))).getD i 0 =
          (lineStarts s).getD i 0 + (l.length + 1) := by
        rw [List.getD_eq_getElem _ _ (by simpa using hinside), List.getD_eq_getElem _ _ hinside,
          List.getElem_map]
      rw [lineStarts_append_feed hl, List.getD_cons_succ, List.getD_cons_succ, htotal, hstart, List.getD_map,
        happend, ← hlength, cut_append_left, ih hinside, ← rowAt_append_feed hl, happend]
    · rw [lineStarts_of_not_mem hfeed, List.length_singleton] at hi
      omega

/-- A column counted in bytes, on one of the lines of a text. -/
theorem positionOfBytes_eq {text : List Char} {i : Nat} (hi : i < (lineStarts text).length) (b : Nat) :
    positionOfBytes text i b =
      ⟨i, (Utf8.decodeDropping ((Utf8.encode (rowAt text i)).take b)).length⟩ := by
  unfold positionOfBytes
  dsimp only
  rcases Nat.eq_zero_or_pos b with rfl | hb
  · rw [if_pos (by omega)]
    rfl
  · rw [if_neg (by omega), Int.toNat_natCast, Int.toNat_natCast, offsetAt_next, cut_lineStarts hi]

/-- The column of a byte is the largest number of characters of its line, with the line feed, whose bytes
all lie before it. So the byte at which a character starts has the column of the character, and so have
the other bytes of the character. -/
theorem isGreatest_positionOfBytes (d : Document) {i : Nat} (hi : i < d.lineCount) :
    let text := d.text.toList
    let row := rowAt text i
    (∀ b : Nat, ∃ k : Nat, positionOfBytes text i b = ⟨i, k⟩ ∧
      IsGreatest {n | n ≤ row.length ∧ (Utf8.encode (row.take n)).length ≤ b} k) ∧
    (∀ c ≤ row.length, positionOfBytes text i (Utf8.encode (row.take c)).length = ⟨i, c⟩) ∧
    ∀ c < row.length, ∀ b : Nat, (Utf8.encode (row.take c)).length ≤ b →
      b < (Utf8.encode (row.take (c + 1))).length → positionOfBytes text i b = ⟨i, c⟩ := by
  intro text row
  have hcolumn : ∀ b : Nat, ∃ k : Nat, positionOfBytes text i b = ⟨i, k⟩ ∧
      IsGreatest {n | n ≤ row.length ∧ (Utf8.encode (row.take n)).length ≤ b} k :=
    fun b => ⟨_, positionOfBytes_eq hi b, Utf8.isGreatest_decodeDropping_take row b⟩
  have hunique : ∀ c ≤ row.length, ∀ b : Nat, (Utf8.encode (row.take c)).length ≤ b →
      (∀ n ≤ row.length, c < n → b < (Utf8.encode (row.take n)).length) →
      positionOfBytes text i b = ⟨i, c⟩ := by
    intro c hc b hb hbeyond
    obtain ⟨k, hposition, ⟨hk, hbytes⟩, hgreatest⟩ := hcolumn b
    have hck : c ≤ k := hgreatest ⟨hc, hb⟩
    rcases Nat.lt_or_eq_of_le hck with hlt | rfl
    · exact absurd (hbeyond k hk hlt) (Nat.not_lt.mpr hbytes)
    · exact hposition
  refine ⟨hcolumn, fun c hc => ?_, fun c hc b hb hbeyond => ?_⟩
  · exact hunique c hc _ (Nat.le_refl _) fun n hn hlt => Utf8.length_encode_take_lt hlt hn
  · refine hunique c hc.le b hb fun n hn hlt => ?_
    rcases Nat.lt_or_eq_of_le (Nat.succ_le_of_lt hlt) with hlater | rfl
    · exact hbeyond.trans (Utf8.length_encode_take_lt hlater hn)
    · exact hbeyond

/-- On the line of two characters of two and four bytes, a column in the middle of the second and one past
the line feed. -/
theorem isGreatest_positionOfBytes_wide :
    let text := "x\né😀\n".toList
    positionOfBytes text 1 4 = ⟨1, 1⟩ ∧ positionOfBytes text 1 6 = ⟨1, 2⟩ ∧
      ∃ k : Nat, positionOfBytes text 1 9 = ⟨1, k⟩ ∧
        IsGreatest {n | n ≤ 3 ∧ (Utf8.encode (['é', '😀', '\n'].take n)).length ≤ 9} k := by
  obtain ⟨hgreatest, hstart, hinside⟩ :=
    isGreatest_positionOfBytes ⟨"", "x\né😀\n"⟩ (i := 1) (by decide)
  exact ⟨hinside 1 (by decide) 4 (by decide) (by decide), hstart 2 (by decide), hgreatest 9⟩

end OutlineIndex
