import OutlineIndex.Uri.Percent

namespace OutlineIndex

namespace Utf8

theorem toNat_ofNat_of_lt {n : Nat} (h : n < 256) : (UInt8.ofNat n).toNat = n := by
  simpa using Nat.mod_eq_of_lt h

theorem lead_one {n : Nat} (h : n < 0x80) : lead (UInt8.ofNat n) = .char (Char.ofNat n) := by
  have hn := toNat_ofNat_of_lt (n := n) (by omega)
  simp [lead, UInt8.lt_iff_toNat_lt, hn, h]

theorem lead_two {n : Nat} (h : 0xC2 ≤ n) (h' : n < 0xE0) :
    lead (UInt8.ofNat n) = .begins ⟨n - 0xC0, 1, 0x80, 0xBF⟩ := by
  have hn := toNat_ofNat_of_lt (n := n) (by omega)
  have h1 : ¬n < 128 := by omega
  have h2 : ¬n < 194 := by omega
  simp [lead, UInt8.lt_iff_toNat_lt, hn, h1, h2, h']

theorem lead_three {n : Nat} (h : 0xE0 ≤ n) (h' : n < 0xF0) :
    lead (UInt8.ofNat n) =
      .begins ⟨n - 0xE0, 2, if n = 0xE0 then 0xA0 else 0x80, if n = 0xED then 0x9F else 0xBF⟩ := by
  have hn := toNat_ofNat_of_lt (n := n) (by omega)
  have h1 : ¬n < 128 := by omega
  have h2 : ¬n < 194 := by omega
  have h3 : ¬n < 224 := by omega
  simp [lead, UInt8.lt_iff_toNat_lt, ← UInt8.toNat_inj, hn, h1, h2, h3, h']

theorem lead_four {n : Nat} (h : 0xF0 ≤ n) (h' : n < 0xF5) :
    lead (UInt8.ofNat n) =
      .begins ⟨n - 0xF0, 3, if n = 0xF0 then 0x90 else 0x80, if n = 0xF4 then 0x8F else 0xBF⟩ := by
  have hn := toNat_ofNat_of_lt (n := n) (by omega)
  have h1 : ¬n < 128 := by omega
  have h2 : ¬n < 194 := by omega
  have h3 : ¬n < 224 := by omega
  have h4 : ¬n < 240 := by omega
  simp [lead, UInt8.lt_iff_toNat_lt, ← UInt8.toNat_inj, hn, h1, h2, h3, h4, h']

/-- A byte that a character under construction takes. -/
theorem decodeFrom_some {p : Partial} {n : Nat} (h : n < 256) (hlow : p.low.toNat ≤ n)
    (hhigh : n ≤ p.high.toNat) (rest : List UInt8) :
    decodeFrom (some p) (UInt8.ofNat n :: rest) =
      if p.owed ≤ 1 then some (Char.ofNat (p.bits * 64 + (n - 0x80))) :: decodeFrom none rest
      else decodeFrom (some ⟨p.bits * 64 + (n - 0x80), p.owed - 1, 0x80, 0xBF⟩) rest := by
  have hn := toNat_ofNat_of_lt h
  have hin : p.low ≤ UInt8.ofNat n ∧ UInt8.ofNat n ≤ p.high := by
    simpa [UInt8.le_iff_toNat_le, hn] using ⟨hlow, hhigh⟩
  rw [decodeFrom, if_pos hin, hn]

theorem decodeFrom_encodeChar (c : Char) (rest : List UInt8) :
    decodeFrom none (String.utf8EncodeChar c ++ rest) = some c :: decodeFrom none rest := by
  have hc : Char.ofNat c.val.toNat = c := Char.ofNat_toNat c
  have hvalid : c.val.toNat < 0xD800 ∨ (0xDFFF < c.val.toNat ∧ c.val.toNat < 0x110000) := c.valid
  unfold String.utf8EncodeChar
  generalize c.val.toNat = v at hc hvalid ⊢
  dsimp only
  split
  · rename_i h1
    rw [List.singleton_append, decodeFrom, lead_one (by omega), hc]
  split
  · rename_i h1 h2
    rw [List.cons_append, List.singleton_append, decodeFrom, lead_two (by omega) (by omega)]
    dsimp only
    rw [decodeFrom_some (by omega) (by simp) (by simp; omega), if_pos (by simp)]
    dsimp only
    rw [show (v / 64 % 0x20 + 0xc0 - 0xC0) * 64 + (v % 0x40 + 0x80 - 0x80) = v by omega, hc]
  split
  · rename_i h1 h2 h3
    rw [List.cons_append, List.cons_append, List.singleton_append, decodeFrom,
      lead_three (by omega) (by omega)]
    dsimp only
    rw [decodeFrom_some (by omega) (by dsimp only; split <;> simp <;> omega)
        (by dsimp only; split <;> simp <;> omega), if_neg (by simp), decodeFrom_some (by omega) (by simp)
        (by simp; omega), if_pos (by simp)]
    dsimp only
    rw [show ((v / 4096 % 0x10 + 0xe0 - 0xE0) * 64 + (v / 64 % 0x40 + 0x80 - 0x80)) * 64 +
      (v % 0x40 + 0x80 - 0x80) = v by omega, hc]
  · rename_i h1 h2 h3
    rw [List.cons_append, List.cons_append, List.cons_append, List.singleton_append, decodeFrom,
      lead_four (by omega) (by omega)]
    dsimp only
    rw [decodeFrom_some (by omega) (by dsimp only; split <;> simp <;> omega)
        (by dsimp only; split <;> simp <;> omega), if_neg (by simp), decodeFrom_some (by omega) (by simp)
        (by simp; omega), if_neg (by simp), decodeFrom_some (by omega) (by simp) (by simp; omega),
        if_pos (by simp)]
    dsimp only
    rw [show (((v / 262144 % 0x08 + 0xf0 - 0xF0) * 64 + (v / 4096 % 0x40 + 0x80 - 0x80)) * 64 +
      (v / 64 % 0x40 + 0x80 - 0x80)) * 64 + (v % 0x40 + 0x80 - 0x80) = v by omega, hc]

theorem decode_encode_append (s : List Char) (rest : List UInt8) :
    decode (encode s ++ rest) = s.map some ++ decode rest := by
  induction s with
  | nil => rfl
  | cons c s ih =>
    simp only [decode, encode, List.flatMap_cons, List.append_assoc, List.map_cons,
      List.cons_append] at ih ⊢
    rw [decodeFrom_encodeChar, ih]

theorem decode_encode (s : List Char) : decode (encode s) = s.map some := by
  simpa [decode, decodeFrom] using decode_encode_append s []

theorem decodeReplacing_encode (s : List Char) : decodeReplacing (encode s) = s := by
  simp [decodeReplacing, decode_encode, Function.comp_def]

/-- The next byte of a character under construction is a continuation byte. -/
def Partial.Sound (p : Partial) : Prop := 0x80 ≤ p.low.toNat ∧ p.high.toNat ≤ 0xBF

theorem sound_of_lead {b : UInt8} {p : Partial} (h : lead b = .begins p) : p.Sound := by
  unfold lead at h
  repeat' split at h
  all_goals simp only [Lead.begins.injEq, reduceCtorEq] at h
  all_goals rw [← h]
  all_goals constructor
  all_goals dsimp only
  all_goals decide

theorem sound_continuation (bits owed : Nat) : Partial.Sound ⟨bits, owed, 0x80, 0xBF⟩ :=
  ⟨Nat.le_refl 0x80, Nat.le_refl 0xBF⟩

/-- A byte below 128 ends whatever stands before it. -/
theorem decodeFrom_append_ascii (p : Option Partial) (a b : List UInt8) {n : Nat} (h : n < 0x80)
    (hp : ∀ q, p = some q → q.Sound) :
    decodeFrom p (a ++ UInt8.ofNat n :: b) =
      decodeFrom p a ++ some (Char.ofNat n) :: decodeFrom none b := by
  induction a generalizing p with
  | nil =>
    cases p with
    | none => simp only [List.nil_append, decodeFrom, lead_one h]
    | some q =>
      have hout : ¬(q.low ≤ UInt8.ofNat n ∧ UInt8.ofNat n ≤ q.high) := by
        have hlow := (hp q rfl).1
        have hn := toNat_ofNat_of_lt (n := n) (by omega)
        rw [UInt8.le_iff_toNat_le, hn]
        omega
      simp only [List.nil_append, decodeFrom, if_neg hout, lead_one h, List.cons_append]
  | cons x a ih =>
    have hnone := ih none (by simp)
    cases p with
    | none =>
      simp only [List.cons_append, decodeFrom]
      cases hx : lead x with
      | char c => simp only [hnone, List.cons_append]
      | bad => simp only [hnone, List.cons_append]
      | begins q => exact ih (some q) fun _ hq => Option.some.inj hq ▸ sound_of_lead hx
    | some q =>
      simp only [List.cons_append, decodeFrom]
      by_cases hin : q.low ≤ x ∧ x ≤ q.high
      · simp only [if_pos hin]
        by_cases ho : q.owed ≤ 1
        · simp only [if_pos ho, hnone, List.cons_append]
        · simp only [if_neg ho]
          exact ih _ fun _ hq => Option.some.inj hq ▸ sound_continuation _ _
      · simp only [if_neg hin, List.cons_append]
        cases hx : lead x with
        | char c => simp only [hnone, List.cons_append]
        | bad => simp only [hnone, List.cons_append]
        | begins r => simp only [ih (some r) fun _ hq => Option.some.inj hq ▸ sound_of_lead hx]

theorem decodeFrom_some_of_out {p : Partial} {b : UInt8} (h : ¬(p.low ≤ b ∧ b ≤ p.high))
    (rest : List UInt8) : decodeFrom (some p) (b :: rest) = none :: decodeFrom none (b :: rest) := by
  simp only [decodeFrom, if_neg h]

/-- What is owed for a character under construction: one `none`, should it end here. -/
def pending (p : Option Partial) : Nat := p.elim 0 fun _ => 1

def SoundState (p : Option Partial) : Prop := ∀ q, p = some q → q.Sound

theorem soundState_none : SoundState none := by simp [SoundState]

theorem soundState_some {p : Partial} (h : p.Sound) : SoundState (some p) :=
  fun _ hq => Option.some.inj hq ▸ h

/-- A byte adds at most one character to what is owed. -/
theorem length_decodeFrom_cons {rest : List UInt8} {k : Nat}
    (hrest : ∀ q, SoundState q → (decodeFrom q rest).length ≤ pending q + k)
    (p : Option Partial) (b : UInt8) : (decodeFrom p (b :: rest)).length ≤ pending p + 1 + k := by
  have hnone : (decodeFrom none (b :: rest)).length ≤ 1 + k := by
    have h0 : (decodeFrom none rest).length ≤ 0 + k := hrest none soundState_none
    rw [decodeFrom]
    cases hb : lead b with
    | char c =>
      rw [List.length_cons]
      omega
    | bad =>
      rw [List.length_cons]
      omega
    | begins q => simpa [pending] using hrest (some q) (soundState_some (sound_of_lead hb))
  cases p with
  | none => simpa [pending] using hnone
  | some q =>
    by_cases hin : q.low ≤ b ∧ b ≤ q.high
    · rw [decodeFrom, if_pos hin]
      have h0 := hrest none soundState_none
      have h1 := hrest (some ⟨q.bits * 64 + (b.toNat - 0x80), q.owed - 1, 0x80, 0xBF⟩)
        (soundState_some (sound_continuation _ _))
      dsimp only
      split
      · simp only [List.length_cons, pending, Option.elim] at h0 ⊢
        omega
      · simp only [pending, Option.elim] at h1 ⊢
        omega
    · rw [decodeFrom_some_of_out hin]
      simp only [List.length_cons, pending, Option.elim]
      omega

/-- The first byte of a character is no continuation byte. -/
theorem utf8EncodeChar_head (c : Char) : ∃ b bs, String.utf8EncodeChar c = b :: bs ∧
    (b.toNat < 0x80 ∨ 0xC0 ≤ b.toNat) := by
  unfold String.utf8EncodeChar
  dsimp only
  repeat' split
  all_goals exact ⟨_, _, rfl, by rw [toNat_ofNat_of_lt (by omega)]; omega⟩

theorem length_decodeFrom_encodeChar {p : Option Partial} (hp : SoundState p) (c : Char)
    (rest : List UInt8) : (decodeFrom p (String.utf8EncodeChar c ++ rest)).length =
      pending p + 1 + (decodeFrom none rest).length := by
  cases p with
  | none =>
    rw [decodeFrom_encodeChar, List.length_cons]
    simp only [pending, Option.elim]
    omega
  | some q =>
    obtain ⟨b, bs, hb, hout⟩ := utf8EncodeChar_head c
    obtain ⟨hlow, hhigh⟩ := hp q rfl
    have hnot : ¬(q.low ≤ b ∧ b ≤ q.high) := by
      rw [UInt8.le_iff_toNat_le, UInt8.le_iff_toNat_le]
      omega
    rw [hb, List.cons_append, decodeFrom_some_of_out hnot, ← List.cons_append, ← hb,
      decodeFrom_encodeChar]
    simp only [List.length_cons, pending, Option.elim]
    omega

end Utf8

namespace Percent

theorem digit?_upperDigit {n : Nat} (h : n < 16) : digit? (upperDigit n) = some n := by
  have hall : ∀ k : Fin 16, digit? (upperDigit k) = some k.val := by decide
  exact hall ⟨n, h⟩

theorem bytes_escape (b : UInt8) (rest : List Char) : bytes (escape b ++ rest) = b :: bytes rest := by
  have hb : b.toNat < 256 := b.toNat_lt
  simp only [escape, List.cons_append, List.nil_append, bytes, digit?_upperDigit (n := b.toNat / 16) (by omega),
    digit?_upperDigit (n := b.toNat % 16) (by omega)]
  rw [Nat.div_add_mod, UInt8.ofNat_toNat]

theorem bytes_flatMap_escape (bs : List UInt8) (rest : List Char) :
    bytes (bs.flatMap escape ++ rest) = bs ++ bytes rest := by
  induction bs with
  | nil => rfl
  | cons b bs ih => rw [List.flatMap_cons, List.append_assoc, bytes_escape, ih, List.cons_append]

theorem bytes_cons {c : Char} (h : c ≠ '%') (rest : List Char) :
    bytes (c :: rest) = String.utf8EncodeChar c ++ bytes rest := by
  rw [bytes]
  rintro _ _ _ rfl
  exact absurd rfl h

theorem bytes_encodeChar (c : Char) (rest : List Char) :
    bytes (encodeChar c ++ rest) = String.utf8EncodeChar c ++ bytes rest := by
  unfold encodeChar
  split
  · rename_i hc
    have hne : c ≠ '%' := by
      rintro rfl
      exact absurd hc (by decide)
    rw [List.singleton_append, bytes_cons hne]
  · rw [bytes_flatMap_escape]

theorem bytes_encode_append (s rest : List Char) :
    bytes (encode s ++ rest) = Utf8.encode s ++ bytes rest := by
  induction s with
  | nil => rfl
  | cons c s ih =>
    simp only [encode, Utf8.encode, List.flatMap_cons, List.append_assoc] at ih ⊢
    rw [bytes_encodeChar, ih]

/-- Decoding undoes encoding. -/
theorem decode_encode (s : List Char) : decode (encode s) = s := by
  have h : bytes (encode s) = Utf8.encode s := by simpa [bytes] using bytes_encode_append s []
  rw [decode, h, Utf8.decodeReplacing_encode]

theorem bytes_of_not_mem {s : List Char} (h : '%' ∉ s) : bytes s = Utf8.encode s := by
  induction s with
  | nil => rfl
  | cons c s ih =>
    have hc : c ≠ '%' := fun e => h (by simp [e])
    rw [bytes_cons hc, ih fun hm => h (by simp [hm])]
    rfl

theorem decode_of_not_mem {s : List Char} (h : '%' ∉ s) : decode s = s := by
  rw [decode, bytes_of_not_mem h, Utf8.decodeReplacing_encode]

theorem bytes_append_slash (s t : List Char) :
    bytes (s ++ '/' :: t) = bytes s ++ 0x2F :: bytes t := by
  have hslash : ∀ u, bytes ('/' :: u) = 0x2F :: bytes u := fun u => bytes_cons (by decide) u
  have hnot : digit? '/' = none := by decide
  have hpercent : String.utf8EncodeChar '%' = [0x25] := rfl
  fun_induction bytes s with
  | case1 => exact hslash t
  | case2 a b rest m n ha hb ih => simp only [List.cons_append, bytes, ha, hb, ih]
  | case3 a b rest h ih =>
    simp only [List.cons_append, bytes] at ih ⊢
    rw [ih]
  | case4 c rest h ih =>
    by_cases hc : c = '%'
    · subst hc
      -- the sign stands at most one character before the slash, which is no digit
      match rest, h with
      | [], _ =>
        cases t with
        | nil => rfl
        | cons b t => simp only [List.cons_append, List.nil_append, bytes, hnot, hslash]; rfl
      | [a], _ =>
        simp only [List.cons_append, List.nil_append, bytes, hnot] at ih ⊢
        rw [ih]
        cases digit? a <;> simp [hpercent]
      | a :: b :: rest, h => exact absurd rfl (h a b rest rfl)
    · rw [List.cons_append, bytes_cons hc, ih, List.append_assoc]

theorem decode_append_slash (s t : List Char) :
    decode (s ++ '/' :: t) = decode s ++ '/' :: decode t := by
  have h := Utf8.decodeFrom_append_ascii none (bytes s) (bytes t) (n := 0x2F) (by decide) (by simp)
  rw [decode, Utf8.decodeReplacing, Utf8.decode, bytes_append_slash]
  change List.map _ (Utf8.decodeFrom none (bytes s ++ UInt8.ofNat 0x2F :: bytes t)) = _
  rw [h, List.map_append]
  rfl

theorem length_decodeFrom_bytes (s : List Char) {p : Option Utf8.Partial} (hp : Utf8.SoundState p) :
    (Utf8.decodeFrom p (bytes s)).length ≤ Utf8.pending p + s.length := by
  fun_induction bytes s generalizing p with
  | case1 => cases p <;> simp [Utf8.decodeFrom, Utf8.pending]
  | case2 a b rest m n ha hb ih =>
    have := Utf8.length_decodeFrom_cons (fun q hq => ih hq) p (UInt8.ofNat (16 * m + n))
    simp only [List.length_cons]
    omega
  | case3 a b rest h ih =>
    have := Utf8.length_decodeFrom_cons (fun q hq => ih hq) p 0x25
    simp only [List.length_cons] at this ⊢
    omega
  | case4 c rest h ih =>
    have := ih Utf8.soundState_none
    rw [Utf8.length_decodeFrom_encodeChar hp]
    simp only [List.length_cons, Utf8.pending, Option.elim] at this ⊢
    omega

/-- A text either stands for itself, or some escape in it makes what it stands for shorter. -/
theorem bytes_eq_or_shorter (s : List Char) : bytes s = Utf8.encode s ∨
    ∀ p, Utf8.SoundState p → (Utf8.decodeFrom p (bytes s)).length < Utf8.pending p + s.length := by
  fun_induction bytes s with
  | case1 => exact .inl rfl
  | case2 a b rest m n ha hb ih =>
    refine .inr fun p hp => ?_
    have := Utf8.length_decodeFrom_cons (fun q hq => length_decodeFrom_bytes rest hq) p
      (UInt8.ofNat (16 * m + n))
    simp only [List.length_cons]
    omega
  | case3 a b rest h ih =>
    rcases ih with ih | ih
    · exact .inl (by rw [ih]; rfl)
    · refine .inr fun p hp => ?_
      have hrest : ∀ q, Utf8.SoundState q → (Utf8.decodeFrom q (bytes (a :: b :: rest))).length ≤
          Utf8.pending q + (rest.length + 1) := fun q hq => Nat.le_of_lt_succ (ih q hq)
      have := Utf8.length_decodeFrom_cons hrest p 0x25
      simp only [List.length_cons]
      omega
  | case4 c rest h ih =>
    rcases ih with ih | ih
    · exact .inl (by rw [ih]; rfl)
    · refine .inr fun p hp => ?_
      have := ih none Utf8.soundState_none
      rw [Utf8.length_decodeFrom_encodeChar hp]
      simp only [List.length_cons, Utf8.pending, Option.elim] at this ⊢
      omega

theorem decode_eq_or_shorter (s : List Char) : decode s = s ∨ (decode s).length < s.length := by
  rcases bytes_eq_or_shorter s with h | h
  · exact .inl (by rw [decode, h, Utf8.decodeReplacing_encode])
  · have := h none Utf8.soundState_none
    exact .inr (by simpa [decode, Utf8.decodeReplacing, Utf8.decode, Utf8.pending] using this)

end Percent

end OutlineIndex
