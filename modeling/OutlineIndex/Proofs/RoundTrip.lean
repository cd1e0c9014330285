import Mathlib.Data.List.Infix
import OutlineIndex.Proofs.Relocation

namespace OutlineIndex

namespace Percent

/-- The digits to base sixteen, in both cases. -/
def hexDigits : List Char := "0123456789abcdefABCDEF".toList

/-- A percent sign with two digits right behind it. -/
def HasEscape (s : List Char) : Prop := ∃ x ∈ hexDigits, ∃ y ∈ hexDigits, ['%', x, y] <:+: s

theorem isSome_digit?_iff {c : Char} : (digit? c).isSome ↔ c ∈ hexDigits := by
  have hsome : hexDigits.all (fun x => (digit? x).isSome) = true := by decide
  refine ⟨fun h => ?_, List.all_eq_true.mp hsome c⟩
  have hascii : c.toNat < 128 := by
    have hnine : '9'.val.toNat = 57 := rfl
    have hlower : 'f'.val.toNat = 102 := rfl
    have hupper : 'F'.val.toNat = 70 := rfl
    change c.val.toNat < 128
    simp only [digit?, Char.isDigit, Char.le_def, UInt32.le_iff_toNat_le, ge_iff_le, Bool.and_eq_true,
      decide_eq_true_eq] at h
    split at h
    · omega
    split at h
    · omega
    split at h
    · omega
    · cases h
  have hall : ∀ n : Fin 128, (digit? (Char.ofNat n)).isSome → Char.ofNat n ∈ hexDigits := by decide
  simpa using hall ⟨c.toNat, hascii⟩ (by simpa using h)

theorem hasEscape_cons {c : Char} {s : List Char} : HasEscape (c :: s) ↔
    (c = '%' ∧ ∃ x ∈ hexDigits, ∃ y ∈ hexDigits, [x, y] <+: s) ∨ HasEscape s := by
  unfold HasEscape
  simp only [List.infix_cons_iff, List.cons_prefix_cons]
  grind

theorem hasEscape_cons_of_ne {c : Char} {s : List Char} (h : c ≠ '%') : HasEscape (c :: s) ↔ HasEscape s := by
  simp [hasEscape_cons, h]

theorem length_encode_cons (c : Char) (s : List Char) :
    (Utf8.encode s).length < (Utf8.encode (c :: s)).length := by
  have := c.utf8Size_pos
  simp only [Utf8.encode, List.flatMap_cons, List.length_append, String.length_utf8EncodeChar]
  omega

/-- What a text stands for is no longer than the text. -/
theorem length_bytes_le (s : List Char) : (bytes s).length ≤ (Utf8.encode s).length := by
  fun_induction bytes s with
  | case1 => exact Nat.le_refl 0
  | case2 a b rest m n ha hb ih =>
    have h₁ := length_encode_cons b rest
    have h₂ := length_encode_cons a (b :: rest)
    have h₃ := length_encode_cons '%' (a :: b :: rest)
    rw [List.length_cons]
    omega
  | case3 a b rest h ih =>
    have := length_encode_cons '%' (a :: b :: rest)
    rw [List.length_cons]
    omega
  | case4 c rest h ih =>
    simp only [Utf8.encode, List.flatMap_cons, List.length_append] at ih ⊢
    omega

/-- A text stands for itself exactly if there is no escape in it. -/
theorem bytes_eq_iff (s : List Char) : bytes s = Utf8.encode s ↔ ¬HasEscape s := by
  fun_induction bytes s with
  | case1 => simp [Utf8.encode, HasEscape]
  | case2 a b rest m n hb ha ih =>
    have hescape : HasEscape ('%' :: a :: b :: rest) := by
      refine hasEscape_cons.mpr (.inl ⟨rfl, a, ?_, b, ?_, by simp⟩)
      · exact isSome_digit?_iff.mp (by rw [ha]; rfl)
      · exact isSome_digit?_iff.mp (by rw [hb]; rfl)
    refine iff_of_false (fun h => ?_) (not_not_intro hescape)
    have hle := length_bytes_le rest
    have h₁ := length_encode_cons b rest
    have h₂ := length_encode_cons a (b :: rest)
    have h₃ := length_encode_cons '%' (a :: b :: rest)
    have hlen := congrArg List.length h
    rw [List.length_cons] at hlen
    omega
  | case3 a b rest h ih =>
    have hnot : ¬∃ x ∈ hexDigits, ∃ y ∈ hexDigits, [x, y] <+: a :: b :: rest := by
      rintro ⟨x, hx, y, hy, hprefix⟩
      obtain ⟨rfl, rfl⟩ : x = a ∧ y = b := by simpa using hprefix
      obtain ⟨m, hm⟩ := Option.isSome_iff_exists.mp (isSome_digit?_iff.mpr hx)
      obtain ⟨n, hn⟩ := Option.isSome_iff_exists.mp (isSome_digit?_iff.mpr hy)
      exact h m n hm hn
    have hencode : Utf8.encode ('%' :: a :: b :: rest) = 0x25 :: Utf8.encode (a :: b :: rest) := rfl
    rw [hasEscape_cons, hencode, List.cons.injEq, ih]
    simp only [hnot, and_false, false_or, true_and]
  | case4 c rest h ih =>
    have hnot : ¬(c = '%' ∧ ∃ x ∈ hexDigits, ∃ y ∈ hexDigits, [x, y] <+: rest) := by
      rintro ⟨rfl, x, -, y, -, tail, rfl⟩
      exact h x y tail rfl rfl
    have hencode : Utf8.encode (c :: rest) = String.utf8EncodeChar c ++ Utf8.encode rest := rfl
    rw [hasEscape_cons, hencode, List.append_cancel_left_eq, ih]
    simp only [hnot, false_or]

instance (s : List Char) : Decidable (HasEscape s) :=
  decidable_of_iff (bytes s ≠ Utf8.encode s) (by rw [Ne, bytes_eq_iff, not_not])

/-- Decoding leaves exactly those texts alone that have no escape in them. -/
theorem decode_eq_iff (s : List Char) : decode s = s ↔ ¬HasEscape s := by
  rw [← bytes_eq_iff]
  refine ⟨fun h => ?_, fun h => by rw [decode, h, Utf8.decodeReplacing_encode]⟩
  rcases bytes_eq_or_shorter s with heq | hshorter
  · exact heq
  · have hlen : (decode s).length < s.length := by
      simpa [decode, Utf8.decodeReplacing, Utf8.decode, Utf8.pending] using
        hshorter none Utf8.soundState_none
    rw [h] at hlen
    exact absurd hlen (Nat.lt_irrefl _)

end Percent

namespace Path

/-- An absolute path with nothing to normalise, and no null character in its names. -/
structure Normal (p : Path) : Prop where
  resolved : p.Resolved
  plain : Plain p.parts
  nul_not_mem : ∀ x ∈ p.parts, '\x00' ∉ x.toList

theorem mem_joined {c : Char} {parts : List String} (h : c ∈ joined parts) :
    c = '/' ∨ ∃ x ∈ parts, c ∈ x.toList := by
  induction parts with
  | nil => cases h
  | cons x parts ih =>
    cases parts with
    | nil => exact .inr ⟨x, by simp, h⟩
    | cons y parts =>
      rw [joined_cons_cons] at h
      rcases List.mem_append.mp h with h | h
      · exact .inr ⟨x, by simp, h⟩
      rcases List.mem_cons.mp h with h | h
      · exact .inl h
      · exact (ih h).imp_right fun ⟨z, hz, hc⟩ => ⟨z, List.mem_cons_of_mem x hz, hc⟩

theorem mem_chars_relative {c : Char} {parts : List String} (h : c ∈ chars ⟨.relative, parts⟩) :
    c = '.' ∨ c ∈ joined parts := by
  cases parts with
  | nil => exact .inl (List.mem_singleton.mp h)
  | cons x parts => exact .inr h

theorem mem_parts_append {p q : Path} {x : String} (h : x ∈ (p ++ q).parts) : x ∈ p.parts ∨ x ∈ q.parts := by
  change x ∈ (append p q).parts at h
  unfold append at h
  split at h
  · exact .inr h
  · exact List.mem_append.mp h

/-- What is read from an absolute path does not depend on the current directory. -/
theorem resolve_append_eq {p : Path} (h : p.Resolved) (q cwd cwd' : Path) :
    resolve cwd (p ++ q) = resolve cwd' (p ++ q) := by
  have habs : (p ++ q).isAbsolute = true := by
    change (append p q).isAbsolute = true
    unfold append
    split
    · assumption
    · simp [isAbsolute, h.anchor]
  simp only [resolve, fromRoot, habs, if_true]

theorem mem_of_mem_components {c : Char} {s : List Char} {x : String} (hx : x ∈ components s)
    (hc : c ∈ x.toList) : c ∈ s := by
  obtain ⟨piece, hpiece, rfl⟩ := List.mem_map.mp hx
  rw [String.toList_ofList] at hc
  exact Text.mem_of_mem_split (List.mem_filter.mp hpiece).1 hc

section Normal

variable {p : Path}

theorem Normal.ofPath_eq (h : p.Normal) (cwd : Path) : Uri.ofPath cwd p = .ok (Uri.ofResolved p) := by
  rw [Uri.ofPath, hasNul_eq_false h.nul_not_mem, resolve_of_resolved h.resolved]
  rfl

theorem Normal.hasEscape_chars (h : p.Normal) : Percent.HasEscape p.chars ↔ Percent.HasEscape (joined p.parts) := by
  rw [h.resolved.eq, chars_root]
  exact Percent.hasEscape_cons_of_ne (by decide)

/-- A path survives its URI exactly if there is no escape in it. -/
theorem Normal.canonical_iff (h : p.Normal) (cwd : Path) : Canonical cwd p ↔ ¬Percent.HasEscape p.chars := by
  rw [h.hasEscape_chars, ← Percent.decode_eq_iff, decode_joined_eq_iff, Path.canonical_iff]
  exact ⟨fun hcanonical => hcanonical.2.2.2, fun hdecode => ⟨h.resolved, h.plain, h.nul_not_mem, hdecode⟩⟩

end Normal

end Path

/-- The URI of a path without anything to normalise is always read as a path, and it is that path exactly
if no percent sign in it has two hexadecimal digits right behind. -/
theorem Uri.toPath_ofPath_eq_iff {p : Path} (h : p.Normal) (cwd : Path) : ∃ uri q,
    ofPath cwd p = .ok uri ∧ toPath uri = .ok q ∧ (q = p ↔ ¬Percent.HasEscape p.chars) := by
  have hof := h.ofPath_eq cwd
  have hto := toPath_ofResolved h.resolved.anchor
  refine ⟨_, _, hof, hto, ?_⟩
  rw [← h.canonical_iff cwd]
  constructor
  · intro hq
    exact ⟨_, hof, hto.trans (congrArg Except.ok hq)⟩
  · rintro ⟨uri, huri, hback⟩
    cases hof.symm.trans huri
    exact Except.ok.inj (hto.symm.trans hback)

/-- Blanks, a `#`, signs with fewer than two digits behind them; and a sign that was itself escaped. -/
theorem Uri.toPath_ofPath_eq_iff_sample :
    let kept : Path := ⟨.root, ["a b#?;", "%4", "1é%g0", "100%"]⟩
    let lost : Path := ⟨.root, ["50%25"]⟩
    kept.Normal ∧ lost.Normal ∧ (∃ uri, ofPath lost kept = .ok uri ∧ toPath uri = .ok kept) ∧
      ∃ uri q, ofPath kept lost = .ok uri ∧ toPath uri = .ok q ∧ q ≠ lost := by
  intro kept lost
  have hkept : kept.Normal := ⟨⟨rfl, by decide⟩, by unfold Path.Plain; decide, by decide⟩
  have hlost : lost.Normal := ⟨⟨rfl, by decide⟩, by unfold Path.Plain; decide, by decide⟩
  refine ⟨hkept, hlost, ?_, ?_⟩
  · obtain ⟨uri, q, hof, hto, hiff⟩ := toPath_ofPath_eq_iff hkept lost
    obtain rfl := hiff.mpr (by decide +kernel)
    exact ⟨uri, hof, hto⟩
  · obtain ⟨uri, q, hof, hto, hiff⟩ := toPath_ofPath_eq_iff hlost kept
    exact ⟨uri, q, hof, hto, fun heq => hiff.mp heq (by decide +kernel)⟩

namespace NodeId

/-- A `#` with nothing before it splits nothing. -/
theorem splitChars_cons_hash {s : List Char} (h : '#' ∉ s) : splitChars ('#' :: s) = ('#' :: s, []) := by
  have hpos : ∀ c ∈ s.reverse, decide (c ≠ '#') = true := by
    intro c hc
    have hne : c ≠ '#' := fun e => h (e ▸ List.mem_reverse.mp hc)
    simp [hne]
  have hfragment : ((('#' :: s).reverse.takeWhile (· ≠ '#')).reverse) = s := by
    rw [List.reverse_cons, List.takeWhile_append_of_pos hpos]
    simp
  simp only [splitChars, hfragment]
  simp

theorem exists_last {c : Char} {s : List Char} (h : c ∈ s) : ∃ a b, s = a ++ c :: b ∧ c ∉ b := by
  obtain ⟨a, b, hs, hnot⟩ := List.eq_append_cons_of_mem (List.mem_reverse.mpr h)
  refine ⟨b.reverse, a.reverse, ?_, by simpa using hnot⟩
  rw [← List.reverse_reverse s, hs]
  simp

/-- A text is left whole exactly if there is no `#` behind its first character. -/
theorem splitChars_eq_self_iff (s : List Char) :
    splitChars s = (s, []) ↔ ∀ k, 0 < k → s[k]? ≠ some '#' := by
  cases s with
  | nil => exact iff_of_true (splitChars_of_not_mem (by simp)) (by simp)
  | cons c s =>
    have hlater : (∀ k, 0 < k → (c :: s)[k]? ≠ some '#') ↔ '#' ∉ s := by
      rw [List.mem_iff_getElem?, not_exists]
      refine ⟨fun h k => h (k + 1) (Nat.succ_pos k), fun h k hk => ?_⟩
      obtain ⟨k, rfl⟩ := Nat.exists_eq_succ_of_ne_zero (Nat.pos_iff_ne_zero.mp hk)
      exact h k
    rw [hlater]
    constructor
    · intro hsplit hmem
      obtain ⟨a, b, rfl, hb⟩ := exists_last hmem
      rw [← List.cons_append, splitChars_append (List.cons_ne_nil c a) hb] at hsplit
      have hlen := congrArg (fun x => x.1.length) hsplit
      simp at hlen
    · intro hs
      by_cases hc : c = '#'
      · rw [hc, splitChars_cons_hash hs]
      · exact splitChars_of_not_mem (by simp [hs, Ne.symm hc])

theorem split_eq_self_iff (id : String) :
    split id = (id, "") ↔ ∀ k, 0 < k → id.toList[k]? ≠ some '#' := by
  rw [← splitChars_eq_self_iff, split, Prod.mk.injEq, Prod.ext_iff]
  refine and_congr ?_ ?_
  · rw [← String.toList_inj, String.toList_ofList]
  · rw [← String.toList_inj, String.toList_ofList]
    rfl

theorem mem_of_mem_split {id : String} {c : Char} (h : c ∈ (split id).1.toList) : c ∈ id.toList := by
  rw [split, String.toList_ofList] at h
  unfold splitChars at h
  dsimp only at h
  split at h
  · exact h
  · exact List.mem_of_mem_take h

section RoundTrip

variable {base p : Path}

theorem nul_not_mem_relativePath (cwd base : Path) (hp : p.Normal) :
    '\x00' ∉ (Uri.relativePath cwd base p).toList := by
  obtain ⟨n, k, hway⟩ : ∃ n k, Path.relativeTo cwd base p =
      ⟨.relative, List.replicate n ".." ++ p.parts.drop k⟩ := by
    rw [Path.relativeTo, Path.resolve_of_resolved hp.resolved]
    exact ⟨_, _, rfl⟩
  have hnames : ∀ x ∈ List.replicate n ".." ++ p.parts.drop k, '\x00' ∉ x.toList := by
    intro x hx
    rcases List.mem_append.mp hx with hx | hx
    · rw [List.eq_of_mem_replicate hx]
      decide
    · exact hp.nul_not_mem x (List.mem_of_mem_drop hx)
  rw [Uri.relativePath, Path.toString, String.toList_ofList, hway]
  intro hmem
  rcases Path.mem_chars_relative hmem with hdot | hmem
  · cases hdot
  rcases Path.mem_joined hmem with hslash | ⟨x, hx, hc⟩
  · cases hslash
  · exact hnames x hx hc

/-- Without null characters an identifier has an absolute form. -/
theorem toAbsolute_eq (cwd : Path) (hb : base.Normal) {id : String} (hid : '\x00' ∉ id.toList) :
    toAbsolute cwd base id = .ok (absolute base id) := by
  unfold toAbsolute absolute
  split
  · rfl
  have hrel : '\x00' ∉ (NodeId.split id).1.toList := fun hmem => hid (mem_of_mem_split hmem)
  generalize NodeId.split id = parts at hrel ⊢
  obtain ⟨rel, fragment⟩ := parts
  have hnul : ∀ x ∈ (base ++ Path.ofString rel).parts, '\x00' ∉ x.toList := by
    intro x hx hmem
    rcases Path.mem_parts_append hx with hx | hx
    · exact hb.nul_not_mem x hx hmem
    · exact hrel (Path.mem_of_mem_components hx hmem)
  dsimp only
  rw [Uri.ofPath, Path.hasNul_eq_false hnul, Path.resolve_append_eq hb.resolved _ cwd base]
  rfl

theorem nul_not_mem_fragment (r : Span) : '\x00' ∉ (fragment r).toList := by
  have h := fun n : Int => Decimal.not_mem_toString_int (c := '\x00') (by decide) (by decide) n
  simp only [fragment, String.toList_append, List.mem_append, not_or]
  exact ⟨⟨h _, by decide⟩, h _⟩

/-- The relative form of an identifier always has an absolute form. -/
theorem toAbsolute_toRelative (cwd : Path) (hb : base.Normal) (hp : p.Normal) (hescape : ¬Percent.HasEscape p.chars)
    {f : String} (hf : '#' ∉ f.toList) (hnul : '\x00' ∉ f.toList) :
    (toRelative cwd base (withFragment (Uri.ofResolved p) f) >>= toAbsolute cwd base) =
      .ok (absolute base (withFragment (Uri.relativePath cwd base p) f)) := by
  have hto := ((hp.canonical_iff cwd).mpr hescape).toPath
  have hid : '\x00' ∉ (withFragment (Uri.relativePath cwd base p) f).toList := by
    have hrel := nul_not_mem_relativePath cwd base hp
    unfold withFragment
    split
    · exact hrel
    · simp only [String.toList_append, List.mem_append, not_or]
      exact ⟨⟨hrel, by decide⟩, hnul⟩
  rw [toRelative_ofResolved hto hf]
  exact toAbsolute_eq cwd hb hid

/-- For a path that its URI leads back to, the identifiers of definitions survive being made relative to a
directory and absolute again; that of the module does exactly if the way from the directory to the path
has no `#` behind its first character. -/
theorem toAbsolute_toRelative_eq_iff (hb : base.Normal) (hp : p.Normal) (hescape : ¬Percent.HasEscape p.chars)
    (cwd : Path) : ∃ uri, Uri.ofPath cwd p = .ok uri ∧
      (∀ r : Span, (toRelative cwd base (make uri r) >>= toAbsolute cwd base) = .ok (make uri r)) ∧
      ((toRelative cwd base uri >>= toAbsolute cwd base) = .ok uri ↔
        ∀ k, 0 < k → (Uri.relativePath cwd base p).toList[k]? ≠ some '#') := by
  have hresolve : Path.resolve cwd p = p := Path.resolve_of_resolved hp.resolved cwd
  have hplain : Path.Plain (Path.resolve cwd p).parts := hresolve.symm ▸ hp.plain
  have hto := ((hp.canonical_iff cwd).mpr hescape).toPath
  refine ⟨_, hp.ofPath_eq cwd, fun r => ?_, ?_⟩
  · have hsplit := @split_relativePath cwd base p _ hplain (fragment_ne_empty r) (not_mem_fragment r)
    rw [make_eq, toAbsolute_toRelative cwd hb hp hescape (not_mem_fragment r) (nul_not_mem_fragment r),
      absolute_relativePath hb.resolved hplain hsplit, hresolve]
  · have hback := toAbsolute_toRelative cwd hb hp hescape (f := "") (by simp) (by simp)
    have hwith : ∀ s, withFragment s "" = s := fun _ => rfl
    rw [hwith, hwith] at hback
    rw [hback, Except.ok.injEq, ← split_eq_self_iff]
    constructor
    · intro habsolute
      exact split_relativePath_of_absolute_eq (f := "") hb.resolved hp.resolved hto (by simp) habsolute
    · intro hsplit
      have habsolute := absolute_relativePath (f := "") hb.resolved hplain hsplit
      rwa [hresolve] at habsolute

/-- A file in the directory whose name starts with `#`, and one outside with a `#` further behind. -/
theorem toAbsolute_toRelative_eq_iff_sample :
    let base : Path := ⟨.root, ["w", "a#"]⟩
    let kept : Path := ⟨.root, ["w", "a#", "#b.py"]⟩
    let lost : Path := ⟨.root, ["w", "c#.py"]⟩
    (∃ uri, Uri.ofPath base kept = .ok uri ∧ (toRelative base base uri >>= toAbsolute base base) = .ok uri) ∧
      ∃ uri, Uri.ofPath base lost = .ok uri ∧
        (∀ r : Span, (toRelative base base (make uri r) >>= toAbsolute base base) = .ok (make uri r)) ∧
        (toRelative base base uri >>= toAbsolute base base) ≠ .ok uri := by
  intro base kept lost
  have hbase : base.Normal := ⟨⟨rfl, by decide⟩, by unfold Path.Plain; decide, by decide⟩
  have hkept : kept.Normal := ⟨⟨rfl, by decide⟩, by unfold Path.Plain; decide, by decide⟩
  have hlost : lost.Normal := ⟨⟨rfl, by decide⟩, by unfold Path.Plain; decide, by decide⟩
  constructor
  · obtain ⟨uri, hof, -, hiff⟩ := toAbsolute_toRelative_eq_iff hbase hkept (by decide +kernel) base
    exact ⟨uri, hof, hiff.mpr ((split_eq_self_iff _).mp (by decide))⟩
  · obtain ⟨uri, hof, hdefinitions, hiff⟩ := toAbsolute_toRelative_eq_iff hbase hlost (by decide +kernel) base
    exact ⟨uri, hof, hdefinitions, fun hback => hiff.mp hback 4 (by decide) (by decide)⟩

end RoundTrip

end NodeId

end OutlineIndex
