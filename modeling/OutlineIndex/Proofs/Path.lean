import Mathlib.Data.List.Basic
import Mathlib.Data.List.Induction
import OutlineIndex.Path

namespace OutlineIndex

namespace Text

theorem split_ne_nil (sep : Char) (s : List Char) : split sep s ≠ [] := by
  induction s with
  | nil => simp [split]
  | cons c rest ih =>
    rw [split]
    cases h : split sep rest with
    | nil => exact absurd h ih
    | cons l ls => by_cases hc : c = sep <;> simp [hc]

theorem split_cons_sep (sep : Char) (s : List Char) : split sep (sep :: s) = [] :: split sep s := by
  rw [split]
  cases h : split sep s with
  | nil => exact absurd h (split_ne_nil sep s)
  | cons l ls => simp

theorem split_append_sep {sep : Char} {l : List Char} (h : sep ∉ l) (s : List Char) :
    split sep (l ++ sep :: s) = l :: split sep s := by
  induction l with
  | nil => exact split_cons_sep sep s
  | cons c l ih =>
    have hc : c ≠ sep := fun e => h (by simp [e])
    have hl : sep ∉ l := fun hm => h (by simp [hm])
    rw [List.cons_append, split, ih hl]
    simp [hc]

theorem split_of_not_mem {sep : Char} {l : List Char} (h : sep ∉ l) : split sep l = [l] := by
  induction l with
  | nil => rfl
  | cons c l ih =>
    have hc : c ≠ sep := fun e => h (by simp [e])
    have hl : sep ∉ l := fun hm => h (by simp [hm])
    rw [split, ih hl]
    simp [hc]

theorem not_mem_of_mem_split {sep : Char} {s l : List Char} (h : l ∈ split sep s) : sep ∉ l := by
  induction s generalizing l with
  | nil =>
    obtain rfl : l = [] := by simpa [split] using h
    simp
  | cons c rest ih =>
    rw [split] at h
    cases hs : split sep rest with
    | nil => exact absurd hs (split_ne_nil sep rest)
    | cons x xs =>
      have hx : sep ∉ x := ih (by simp [hs])
      simp only [hs] at h
      by_cases hc : c = sep
      · rw [if_pos hc] at h
        rcases List.mem_cons.mp h with rfl | h
        · simp
        · exact ih (hs ▸ h)
      · rw [if_neg hc] at h
        rcases List.mem_cons.mp h with rfl | h
        · simp [Ne.symm hc, hx]
        · exact ih (by simp [hs, h])

theorem mem_of_mem_split {sep c : Char} {s piece : List Char} (hpiece : piece ∈ split sep s)
    (hc : c ∈ piece) : c ∈ s := by
  induction s generalizing piece with
  | nil =>
    obtain rfl : piece = [] := by simpa [split] using hpiece
    exact hc
  | cons x rest ih =>
    rw [split] at hpiece
    cases hs : split sep rest with
    | nil => exact absurd hs (split_ne_nil sep rest)
    | cons l ls =>
      simp only [hs] at hpiece ih
      split at hpiece
      · rcases List.mem_cons.mp hpiece with rfl | hpiece
        · cases hc
        · exact List.mem_cons_of_mem x (ih hpiece hc)
      · rcases List.mem_cons.mp hpiece with rfl | hpiece
        · rcases List.mem_cons.mp hc with rfl | hc
          · exact List.mem_cons_self
          · exact List.mem_cons_of_mem x (ih List.mem_cons_self hc)
        · exact List.mem_cons_of_mem x (ih (List.mem_cons_of_mem l hpiece) hc)

theorem split_join {sep : Char} {ls : List (List Char)} (hne : ls ≠ []) (h : ∀ l ∈ ls, sep ∉ l) :
    split sep (join [sep] ls) = ls := by
  induction ls with
  | nil => exact absurd rfl hne
  | cons l ls ih =>
    cases ls with
    | nil => exact split_of_not_mem (h l (by simp))
    | cons m ms =>
      have htail := ih (by simp) fun x hx => h x (by simp [hx])
      rw [join, List.append_assoc, List.singleton_append, split_append_sep (h l (by simp)), htail]
      simp

end Text

namespace Path

/-- Components that survive being written and read: not empty, not a dot, without a slash. -/
def Plain (parts : List String) : Prop :=
  ∀ p ∈ parts, p.toList ≠ [] ∧ p.toList ≠ ['.'] ∧ '/' ∉ p.toList

theorem plain_components (s : List Char) : Plain (components s) := by
  intro p hp
  obtain ⟨l, hl, rfl⟩ := List.mem_map.mp hp
  obtain ⟨hmem, hne⟩ := List.mem_filter.mp hl
  have hslash := Text.not_mem_of_mem_split hmem
  simp at hne
  simpa using ⟨hne.1, hne.2, hslash⟩

theorem plain_ofString (s : String) : Plain (ofString s).parts := plain_components _

theorem Plain.append {a b : List String} (ha : Plain a) (hb : Plain b) : Plain (a ++ b) := by
  intro p hp
  rcases List.mem_append.mp hp with h | h
  · exact ha p h
  · exact hb p h

theorem Plain.sublist {a b : List String} (hb : Plain b) (h : ∀ p ∈ a, p ∈ b) : Plain a :=
  fun p hp => hb p (h p hp)

theorem components_joined {parts : List String} (h : Plain parts) :
    components (joined parts) = parts := by
  cases parts with
  | nil => rfl
  | cons p ps =>
    have hslash : ∀ l ∈ (p :: ps).map String.toList, '/' ∉ l := by
      intro l hl
      obtain ⟨x, hx, rfl⟩ := List.mem_map.mp hl
      exact (h x hx).2.2
    have hkeep : ((p :: ps).map String.toList).filter (fun l => l ≠ [] && l ≠ ['.'])
        = (p :: ps).map String.toList := by
      refine List.filter_eq_self.mpr fun l hl => ?_
      obtain ⟨x, hx, rfl⟩ := List.mem_map.mp hl
      simp [-String.toList_eq_nil_iff, (h x hx).1, (h x hx).2.1]
    rw [components, joined, Text.split_join (by simp) hslash, hkeep, List.map_map]
    simp [Function.comp_def]

theorem head_joined {p : String} {ps : List String} (h : Plain (p :: ps)) :
    ∃ c rest, joined (p :: ps) = c :: rest ∧ c ≠ '/' := by
  obtain ⟨hne, -, hslash⟩ := h p (by simp)
  cases hp : p.toList with
  | nil => exact absurd hp hne
  | cons c l =>
    have hc : c ≠ '/' := fun e => hslash (by simp [hp, e])
    cases ps with
    | nil => exact ⟨c, l, by simp [joined, Text.join, hp], hc⟩
    | cons q qs => exact ⟨c, _, by simp [joined, Text.join, hp]; rfl, hc⟩

theorem anchorOf_of_head_ne {c : Char} {rest : List Char} (h : c ≠ '/') :
    anchorOf (c :: rest) = .relative := by
  unfold anchorOf
  split <;> simp_all

/-- A relative path written out is read back. -/
theorem ofString_toString_relative {parts : List String} (h : Plain parts) :
    ofString (toString ⟨.relative, parts⟩) = ⟨.relative, parts⟩ := by
  cases parts with
  | nil => rfl
  | cons p ps =>
    obtain ⟨c, rest, hj, hc⟩ := head_joined h
    have hchars : chars ⟨.relative, p :: ps⟩ = joined (p :: ps) := rfl
    rw [ofString, toString, String.toList_ofList, hchars, components_joined h, hj,
      anchorOf_of_head_ne hc]

theorem chars_root (parts : List String) : chars ⟨.root, parts⟩ = '/' :: joined parts := rfl

/-- A path from the root written out is read back. -/
theorem ofString_chars_root {parts : List String} (h : Plain parts) :
    ofString (String.ofList (chars ⟨.root, parts⟩)) = ⟨.root, parts⟩ := by
  have hparts : components ('/' :: joined parts) = parts := by
    rw [components, Text.split_cons_sep, List.filter_cons]
    simpa [components] using components_joined h
  rw [ofString, String.toList_ofList, chars_root, hparts]
  cases parts with
  | nil => rfl
  | cons p ps =>
    obtain ⟨c, rest, hj, hc⟩ := head_joined h
    rw [hj]
    unfold anchorOf
    split <;> simp_all

theorem cancel_append (a b : List String) :
    cancel (a ++ b) = b.foldl (fun acc p => if p = ".." then acc.dropLast else acc ++ [p]) (cancel a) :=
  List.foldl_append

theorem cancel_concat (a : List String) (p : String) :
    cancel (a ++ [p]) = if p = ".." then (cancel a).dropLast else cancel a ++ [p] :=
  cancel_append a [p]

theorem cancel_sublist (parts : List String) : (cancel parts).Sublist parts := by
  induction parts using List.reverseRecOn with
  | nil => exact .refl _
  | append_singleton parts p ih =>
    rw [cancel_concat]
    split
    · exact ((List.dropLast_sublist _).trans ih).trans (List.sublist_append_left _ _)
    · exact ih.append (.refl _)

theorem mem_cancel {p : String} {parts : List String} (h : p ∈ cancel parts) :
    p ∈ parts ∧ p ≠ ".." := by
  induction parts using List.reverseRecOn with
  | nil => simp [cancel] at h
  | append_singleton parts q ih =>
    rw [cancel_concat] at h
    split at h
    · have hp := ih (List.dropLast_subset _ h)
      exact ⟨List.mem_append_left _ hp.1, hp.2⟩
    · rename_i hq
      rcases List.mem_append.mp h with h | h
      · exact ⟨List.mem_append_left _ (ih h).1, (ih h).2⟩
      · obtain rfl : p = q := by simpa using h
        exact ⟨by simp, hq⟩

theorem not_mem_cancel (parts : List String) : ".." ∉ cancel parts := fun h => (mem_cancel h).2 rfl

theorem cancel_append_of_not_mem (a : List String) {b : List String} (h : ".." ∉ b) :
    cancel (a ++ b) = cancel a ++ b := by
  induction b using List.reverseRecOn with
  | nil => simp
  | append_singleton b p ih =>
    have hp : p ≠ ".." := fun e => h (by simp [e])
    have hb : ".." ∉ b := fun hm => h (by simp [hm])
    rw [← List.append_assoc, cancel_concat, if_neg hp, ih hb, List.append_assoc]

theorem cancel_of_not_mem {parts : List String} (h : ".." ∉ parts) : cancel parts = parts :=
  cancel_append_of_not_mem [] h

theorem cancel_append_replicate {a : List String} (h : ".." ∉ a) (n : Nat) :
    cancel (a ++ List.replicate n "..") = a.take (a.length - n) := by
  induction n with
  | zero => simpa using cancel_of_not_mem h
  | succ n ih =>
    rw [List.replicate_succ', ← List.append_assoc, cancel_concat, if_pos rfl, ih,
      List.dropLast_eq_take, List.take_take, List.length_take]
    congr 1
    omega

theorem commonLength_le_left (a b : List String) : commonLength a b ≤ a.length := by
  fun_induction commonLength a b <;> simp_all

theorem take_commonLength (a b : List String) :
    a.take (commonLength a b) = b.take (commonLength a b) := by
  fun_induction commonLength a b <;> simp_all

/-- The way from `base` to `target`, followed from `base`, ends at `target`. -/
theorem cancel_append_way {base target : List String} (hb : ".." ∉ base) (ht : ".." ∉ target) :
    cancel (base ++ (List.replicate (base.length - commonLength base target) ".." ++
      target.drop (commonLength base target))) = target := by
  have hdrop : ".." ∉ target.drop (commonLength base target) := fun h => ht (List.mem_of_mem_drop h)
  have hk := commonLength_le_left base target
  rw [← List.append_assoc, cancel_append_of_not_mem _ hdrop, cancel_append_replicate hb,
    Nat.sub_sub_self hk, take_commonLength, List.take_append_drop]

theorem hasNul_eq_false {p : Path} (h : ∀ x ∈ p.parts, '\x00' ∉ x.toList) : p.hasNul = false := by
  refine List.any_eq_false.mpr fun x hx => ?_
  simpa using h x hx

/-- From the root, without any `..`. -/
structure Resolved (p : Path) : Prop where
  anchor : p.anchor = .root
  climbs : ".." ∉ p.parts

theorem resolved_resolve (cwd p : Path) : Resolved (resolve cwd p) := ⟨rfl, not_mem_cancel _⟩

theorem Resolved.eq {p : Path} (h : Resolved p) : p = ⟨.root, p.parts⟩ := by
  cases p
  cases h.anchor
  rfl

theorem resolve_of_resolved {p : Path} (h : Resolved p) (cwd : Path) : resolve cwd p = p := by
  have habs : p.isAbsolute = true := by simp [isAbsolute, h.anchor]
  rw [resolve, fromRoot, habs, if_pos rfl, cancel_of_not_mem h.climbs, ← h.eq]

theorem plain_resolve {cwd p : Path} (hp : Plain p.parts) (hc : p.isAbsolute ∨ Plain cwd.parts) :
    Plain (resolve cwd p).parts := by
  refine Plain.sublist ?_ fun x hx => (mem_cancel hx).1
  unfold fromRoot
  split
  · exact hp
  · rename_i habs
    exact (hc.resolve_left habs).append hp

theorem resolve_append_relative {base : Path} (h : Resolved base) (parts : List String) (cwd : Path) :
    resolve cwd (base ++ (⟨.relative, parts⟩ : Path)) = ⟨.root, cancel (base.parts ++ parts)⟩ := by
  rw [h.eq]
  rfl

theorem plain_way {target : List String} (h : Plain target) (k n : Nat) :
    Plain (List.replicate n ".." ++ target.drop k) := by
  refine Plain.append ?_ (h.sublist fun p hp => List.mem_of_mem_drop hp)
  intro p hp
  obtain rfl := List.eq_of_mem_replicate hp
  decide

theorem joined_concat (ps : List String) (p : String) : ∃ s, joined (ps ++ [p]) = s ++ p.toList := by
  induction ps with
  | nil => exact ⟨[], rfl⟩
  | cons x ps ih =>
    obtain ⟨s, hs⟩ := ih
    cases ps with
    | nil => exact ⟨x.toList ++ ['/'], rfl⟩
    | cons y ps =>
      refine ⟨x.toList ++ ['/'] ++ s, ?_⟩
      rw [List.append_assoc, ← hs]
      rfl

/-- A name ends with its suffix. -/
theorem getLast?_name {p : Path} (h : p.suffix ≠ "") :
    p.name.toList.getLast? = p.suffix.toList.getLast? := by
  have hsplit : (splitName p.name.toList).2 ≠ [] := by
    intro hnil
    rw [suffix, hnil] at h
    exact h rfl
  rw [suffix, String.toList_ofList]
  generalize p.name.toList = name at hsplit ⊢
  unfold splitName at hsplit ⊢
  dsimp only at hsplit ⊢
  split at hsplit
  · exact absurd rfl hsplit
  · rename_i hcond
    rw [if_neg hcond]
    simp only [Bool.or_eq_true, decide_eq_true_eq, not_or] at hcond
    obtain ⟨s, hs⟩ : (name.reverse.takeWhile (· ≠ '.')).reverse <:+ name := by
      rw [← List.reverse_reverse name, List.reverse_suffix, List.reverse_reverse]
      exact List.takeWhile_prefix _
    conv_lhs => rw [← hs]
    rw [List.getLast?_append_of_ne_nil _ hcond.1.1, List.getLast?_cons, List.getLast?_eq_some_getLast hcond.1.1]
    simp

/-- The way to a file with a suffix ends with the suffix, or climbs to the end. -/
theorem getLast?_relativeTo {cwd base p : Path} (h : p.suffix ≠ "") :
    (relativeTo cwd base p).chars.getLast? = some '.' ∨
      (relativeTo cwd base p).chars.getLast? = p.suffix.toList.getLast? := by
  have hname : p.name ≠ "" := by
    intro hnil
    rw [suffix, hnil] at h
    exact h rfl
  have hclimb : p.name ≠ ".." := by
    intro hdots
    rw [suffix, hdots] at h
    exact h rfl
  obtain ⟨init, hparts⟩ : ∃ init, p.parts = init ++ [p.name] := by
    unfold name at hname ⊢
    cases hlast : p.parts.getLast? with
    | none =>
      rw [hlast] at hname
      exact absurd rfl hname
    | some x => exact ⟨p.parts.dropLast, (List.dropLast_append_getLast? x (by simpa using hlast)).symm⟩
  obtain ⟨above, htarget⟩ : ∃ above, (resolve cwd p).parts = above ++ [p.name] := by
    unfold resolve fromRoot
    dsimp only
    split
    · rw [hparts, cancel_concat, if_neg hclimb]
      exact ⟨_, rfl⟩
    · rw [hparts, ← List.append_assoc, cancel_concat, if_neg hclimb]
      exact ⟨_, rfl⟩
  unfold relativeTo
  dsimp only
  rw [htarget]
  generalize commonLength _ _ = k
  generalize List.length _ - k = n
  by_cases hk : k ≤ above.length
  · right
    obtain ⟨s, hs⟩ := joined_concat (List.replicate n ".." ++ above.drop k) p.name
    have hway : List.replicate n ".." ++ (above ++ [p.name]).drop k =
        (List.replicate n ".." ++ above.drop k) ++ [p.name] := by
      rw [List.drop_append_of_le_length hk, List.append_assoc]
    have hchars : chars ⟨.relative, List.replicate n ".." ++ (above ++ [p.name]).drop k⟩ = s ++ p.name.toList := by
      rw [hway, ← hs]
      unfold chars
      split
      · rename_i hnil
        simp at hnil
      · rename_i h1
        cases h1
        rfl
    rw [hchars, List.getLast?_append_of_ne_nil _ (by simpa using hname), getLast?_name h]
  · left
    have hdrop : (above ++ [p.name]).drop k = [] := List.drop_eq_nil_of_le (by simp; omega)
    rw [hdrop, List.append_nil]
    cases n with
    | zero => rfl
    | succ n =>
      obtain ⟨s, hs⟩ := joined_concat (List.replicate n "..") ".."
      have hchars : chars ⟨.relative, List.replicate (n + 1) ".."⟩ = s ++ "..".toList := by
        rw [← hs, ← List.replicate_succ']
        rfl
      rw [hchars]
      simp

end Path

end OutlineIndex
