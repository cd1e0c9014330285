import Mathlib.Algebra.GroupWithZero.Nat
import Mathlib.Algebra.Order.BigOperators.Group.List
import Mathlib.Algebra.Order.Group.Nat
import Mathlib.Data.List.TakeWhile
import OutlineIndex.Proofs.Coding
import OutlineIndex.Proofs.Path
import OutlineIndex.Uri

namespace OutlineIndex

namespace Percent

/-- The characters of an encoded text. -/
def IsCoded (c : Char) : Prop := isPlain c = true ∨ c = '%'

theorem isCoded_of_mem_encode {c : Char} {s : List Char} (h : c ∈ encode s) : IsCoded c := by
  obtain ⟨x, -, hx⟩ := List.mem_flatMap.mp h
  unfold encodeChar at hx
  split at hx
  · rename_i hplain
    obtain rfl : c = x := by simpa using hx
    exact .inl hplain
  · obtain ⟨b, -, hb⟩ := List.mem_flatMap.mp hx
    have hdigit : ∀ k : Fin 16, isPlain (upperDigit k) = true := by decide
    have hlt : b.toNat < 256 := b.toNat_lt
    simp only [escape, List.mem_cons, List.not_mem_nil, or_false] at hb
    rcases hb with rfl | rfl | rfl
    · exact .inr rfl
    · exact .inl (hdigit ⟨b.toNat / 16, by omega⟩)
    · exact .inl (hdigit ⟨b.toNat % 16, by omega⟩)

theorem IsCoded.ne {c d : Char} (h : IsCoded c) (hd : isPlain d = false ∧ d ≠ '%') : c ≠ d := by
  rintro rfl
  rcases h with h | h
  · rw [hd.1] at h
    cases h
  · exact hd.2 h

end Percent

namespace Uri

theorem takeWhile_encode (s : List Char) :
    (Percent.encode s).takeWhile (fun c => c ≠ '#' && c ≠ '?') = Percent.encode s := by
  refine List.takeWhile_eq_self_iff.mpr fun c hc => ?_
  have h := Percent.isCoded_of_mem_encode hc
  simp [h.ne (d := '#') (by decide), h.ne (d := '?') (by decide)]

theorem clean_ofResolved (s : List Char) :
    clean (schemeMark ++ Percent.encode s) = schemeMark ++ Percent.encode s := by
  have hdrop : (schemeMark ++ Percent.encode s).dropWhile (·.toNat ≤ 0x20) =
      schemeMark ++ Percent.encode s := rfl
  rw [clean, hdrop, List.filter_append]
  congr 1
  refine List.filter_eq_self.mpr fun c hc => ?_
  have h := Percent.isCoded_of_mem_encode hc
  simp [h.ne (d := '\t') (by decide), h.ne (d := '\r') (by decide), h.ne (d := '\n') (by decide)]

theorem split_ofResolved (s : List Char) :
    split (schemeMark ++ Percent.encode ('/' :: s)) =
      ⟨"file".toList, [], Percent.encode ('/' :: s)⟩ := by
  have hhead : (schemeMark ++ Percent.encode ('/' :: s)).takeWhile (· ≠ ':') = "file".toList := rfl
  have hlen : "file".toList.length < (schemeMark ++ Percent.encode ('/' :: s)).length := by
    rw [List.length_append]
    exact Nat.lt_of_lt_of_le (by decide) (Nat.le_add_right schemeMark.length _)
  have hscheme : (decide ("file".toList.length < (schemeMark ++ Percent.encode ('/' :: s)).length) &&
      (("file".toList.head?.map Char.isAlpha).getD false) && "file".toList.all isSchemeChar) = true := by
    rw [decide_eq_true hlen]
    rfl
  simp only [split, clean_ofResolved, hhead, hscheme, if_true]
  exact congrArg (Parts.mk "file".toList []) (takeWhile_encode ('/' :: s))

theorem toPath_ofResolved {q : Path} (h : q.anchor = .root) :
    toPath (ofResolved q) = .ok (Path.ofString (String.ofList (Percent.decode q.chars))) := by
  obtain ⟨a, parts⟩ := q
  obtain rfl : a = .root := h
  have hs : split (ofResolved ⟨.root, parts⟩).toList =
      ⟨"file".toList, [], Percent.encode (Path.chars ⟨.root, parts⟩)⟩ := by
    rw [ofResolved, String.toList_ofList, Path.chars_root]
    exact split_ofResolved _
  rw [toPath]
  simp only [hs, Percent.decode_encode]
  rfl

theorem eq_of_ofPath {cwd p : Path} {uri : String} (h : ofPath cwd p = .ok uri) :
    uri = ofResolved (Path.resolve cwd p) := by
  unfold ofPath at h
  split at h <;> cases h
  rfl

/-- The way to a path, followed from where it starts, ends at that path. -/
theorem resolve_relativePath {cwd base p : Path} (hb : base.Resolved)
    (hp : Path.Plain (Path.resolve cwd p).parts) (cwd' : Path) :
    Path.resolve cwd' (base ++ Path.ofString (relativePath cwd base p)) = Path.resolve cwd p := by
  have hbase : Path.resolve cwd base = base := Path.resolve_of_resolved hb cwd
  have hp' := Path.resolved_resolve cwd p
  rw [relativePath, Path.relativeTo, hbase, Path.ofString_toString_relative (Path.plain_way hp _ _),
    Path.resolve_append_relative hb, Path.cancel_append_way hb.climbs hp'.climbs, ← hp'.eq]

/-- Files with the same relative path are the same file. -/
theorem resolve_eq_of_relativePath_eq {cwd base p q : Path} (hb : base.Resolved)
    (hp : Path.Plain (Path.resolve cwd p).parts) (hq : Path.Plain (Path.resolve cwd q).parts)
    (h : relativePath cwd base p = relativePath cwd base q) :
    Path.resolve cwd p = Path.resolve cwd q := by
  rw [← resolve_relativePath hb hp cwd, h, resolve_relativePath hb hq cwd]

end Uri

namespace Path

/-- The characters of components, each with a slash. -/
def size (parts : List String) : Nat := (parts.map (·.length + 1)).sum

theorem size_append (a b : List String) : size (a ++ b) = size a + size b := by simp [size]

theorem size_dropLast_le (a : List String) : size a.dropLast ≤ size a := by
  cases a using List.reverseRecOn with
  | nil => simp
  | append_singleton a p => simp [size]

theorem size_cancel_le (parts : List String) : size (cancel parts) ≤ size parts :=
  ((cancel_sublist parts).map _).sum_le_sum fun _ _ => Nat.zero_le _

theorem size_cancel_lt {parts : List String} (h : ".." ∈ parts) :
    size (cancel parts) + 3 ≤ size parts := by
  induction parts using List.reverseRecOn with
  | nil => simp at h
  | append_singleton parts p ih =>
    have hle := size_cancel_le parts
    have hdrop := size_dropLast_le (cancel parts)
    have hdots : size [".."] = 3 := by decide
    rw [cancel_concat, size_append]
    split
    · rename_i hp
      rw [hp, hdots]
      omega
    · rename_i hp
      have hmem : ".." ∈ parts := by
        rcases List.mem_append.mp h with h | h
        · exact h
        · exact absurd (by simpa using h) (Ne.symm hp)
      have hlt := ih hmem
      rw [size_append]
      omega

theorem length_joined (p : String) (ps : List String) : (joined (p :: ps)).length + 1 = size (p :: ps) := by
  induction ps generalizing p with
  | nil => simp [joined, Text.join, size, String.length_toList]
  | cons q qs ih =>
    have htail := ih q
    simp only [joined, List.map_cons, Text.join, size, List.sum_cons, List.length_append,
      List.length_cons, List.length_nil, String.length_toList] at htail ⊢
    omega

theorem length_chars_root_le (parts : List String) :
    (chars ⟨.root, parts⟩).length ≤ max 1 (size parts) := by
  rw [chars_root, List.length_cons]
  cases parts with
  | nil => simp [joined, Text.join]
  | cons p ps =>
    have := length_joined p ps
    omega

theorem sum_split (sep : Char) (s : List Char) :
    ((Text.split sep s).map (·.length + 1)).sum = s.length + 1 := by
  induction s with
  | nil => rfl
  | cons c s ih =>
    rw [Text.split]
    cases h : Text.split sep s with
    | nil => exact absurd h (Text.split_ne_nil sep s)
    | cons l ls =>
      rw [h] at ih
      simp only [List.map_cons, List.sum_cons] at ih
      dsimp only
      split <;> simp only [List.map_cons, List.sum_cons, List.length_cons, List.length_nil] <;> omega

theorem size_components_slash_le (s : List Char) : size (components ('/' :: s)) ≤ s.length + 1 := by
  rw [← sum_split '/' s, components, Text.split_cons_sep]
  simp only [size, List.map_map]
  refine List.Sublist.sum_le_sum ?_ fun _ _ => Nat.zero_le _
  have hfilter : (List.filter (fun p => decide (p ≠ []) && decide (p ≠ ['.'])) ([] :: Text.split '/' s)) =
      (Text.split '/' s).filter fun p => decide (p ≠ []) && decide (p ≠ ['.']) := rfl
  rw [hfilter]
  simpa [Function.comp_def] using List.filter_sublist.map (fun l : List Char => l.length + 1)

theorem joined_cons_cons (p q : String) (ps : List String) :
    joined (p :: q :: ps) = p.toList ++ '/' :: joined (q :: ps) := by
  simp [joined, Text.join]

/-- Decoding leaves a path alone exactly when it leaves every component alone. -/
theorem decode_joined_eq_iff (parts : List String) :
    Percent.decode (joined parts) = joined parts ↔
      ∀ p ∈ parts, Percent.decode p.toList = p.toList := by
  induction parts with
  | nil => simp [joined, Text.join, Percent.decode, Percent.bytes, Utf8.decodeReplacing, Utf8.decode,
      Utf8.decodeFrom]
  | cons p ps ih =>
    cases ps with
    | nil => simp [joined, Text.join]
    | cons q qs =>
      rw [joined_cons_cons, Percent.decode_append_slash]
      constructor
      · intro h
        have hlen := congrArg List.length h
        simp only [List.length_append, List.length_cons] at hlen
        have hp : Percent.decode p.toList = p.toList := by
          rcases Percent.decode_eq_or_shorter p.toList with e | hlt
          · exact e
          · rcases Percent.decode_eq_or_shorter (joined (q :: qs)) with e | hlt'
            · rw [e] at hlen
              omega
            · omega
        rw [hp, List.append_cancel_left_eq, List.cons.injEq] at h
        intro x hx
        rcases List.mem_cons.mp hx with rfl | hx
        · exact hp
        · exact ih.mp h.2 x hx
      · intro h
        rw [h p (by simp), ih.mpr fun x hx => h x (List.mem_cons_of_mem _ hx)]

theorem decode_chars_root (parts : List String) :
    Percent.decode (chars ⟨.root, parts⟩) = '/' :: Percent.decode (joined parts) :=
  Percent.decode_append_slash [] (joined parts)

/-- A path that its URI leads back to. -/
def Canonical (cwd p : Path) : Prop := ∃ uri, Uri.ofPath cwd p = .ok uri ∧ Uri.toPath uri = .ok p

theorem canonical_of_parts {p : Path} (hr : p.Resolved) (hplain : Plain p.parts)
    (hnul : ∀ x ∈ p.parts, '\x00' ∉ x.toList)
    (hdecode : ∀ x ∈ p.parts, Percent.decode x.toList = x.toList) (cwd : Path) :
    Uri.ofPath cwd p = .ok (Uri.ofResolved p) ∧ Uri.toPath (Uri.ofResolved p) = .ok p := by
  constructor
  · rw [Uri.ofPath, hasNul_eq_false hnul, resolve_of_resolved hr]
    rfl
  · rw [Uri.toPath_ofResolved hr.anchor, hr.eq, decode_chars_root, (decode_joined_eq_iff _).mpr hdecode,
      ← chars_root, ofString_chars_root hplain]

theorem Canonical.parts {cwd p : Path} (h : Canonical cwd p) : p.Resolved ∧ Plain p.parts ∧
    (∀ x ∈ p.parts, '\x00' ∉ x.toList) ∧ ∀ x ∈ p.parts, Percent.decode x.toList = x.toList := by
  obtain ⟨uri, hof, hto⟩ := h
  rw [Uri.ofPath] at hof
  split at hof
  · cases hof
  rename_i hnul
  obtain rfl := Except.ok.inj hof
  rw [Uri.toPath_ofResolved rfl] at hto
  have hp := Except.ok.inj hto
  rw [resolve, decode_chars_root] at hp
  have habs : p.isAbsolute = true := by
    rw [← hp, isAbsolute, ofString, String.toList_ofList]
    generalize Percent.decode _ = t
    unfold anchorOf
    split <;> simp_all
  rw [fromRoot, habs, if_pos rfl] at hp
  -- reading the decoded text gives components that take no more room than those it was made from
  have hsize : size p.parts ≤ (Percent.decode (joined (cancel p.parts))).length + 1 := by
    conv_lhs => rw [← hp]
    rw [ofString, String.toList_ofList]
    exact size_components_slash_le _
  have hjoined : (joined (cancel p.parts)).length + 1 ≤ max 1 (size (cancel p.parts)) := by
    simpa [chars_root] using length_chars_root_le (cancel p.parts)
  have hdecode := Percent.decode_eq_or_shorter (joined (cancel p.parts))
  have hclimb : ".." ∉ p.parts := by
    intro hmem
    have hlt := size_cancel_lt hmem
    rcases hdecode with e | hlt'
    · rw [e] at hsize
      omega
    · omega
  rw [cancel_of_not_mem hclimb] at hp hsize hjoined hdecode
  have heq : Percent.decode (joined p.parts) = joined p.parts := by
    rcases hdecode with e | hlt
    · exact e
    · omega
  have hplain : Plain p.parts := by
    rw [← hp]
    exact plain_ofString _
  rw [heq, ← chars_root, ofString_chars_root hplain] at hp
  refine ⟨⟨by rw [← hp], hclimb⟩, hplain, ?_, (decode_joined_eq_iff _).mp heq⟩
  intro x hx hmem
  exact hnul (List.any_eq_true.mpr ⟨x, hx, by simpa using hmem⟩)

theorem canonical_iff {cwd p : Path} : Canonical cwd p ↔ p.Resolved ∧ Plain p.parts ∧
    (∀ x ∈ p.parts, '\x00' ∉ x.toList) ∧ ∀ x ∈ p.parts, Percent.decode x.toList = x.toList :=
  ⟨Canonical.parts, fun ⟨hr, hplain, hnul, hdecode⟩ =>
    ⟨_, canonical_of_parts hr hplain hnul hdecode cwd⟩⟩

/-- A resolved path whose names have no percent sign is canonical. -/
theorem canonical_of_percent_not_mem {p : Path} (hr : p.Resolved) (hplain : Plain p.parts)
    (hnul : ∀ x ∈ p.parts, '\x00' ∉ x.toList) (hpercent : ∀ x ∈ p.parts, '%' ∉ x.toList) (cwd : Path) :
    Canonical cwd p :=
  canonical_iff.mpr ⟨hr, hplain, hnul, fun x hx => Percent.decode_of_not_mem (hpercent x hx)⟩

end Path

end OutlineIndex
