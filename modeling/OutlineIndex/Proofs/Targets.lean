import OutlineIndex.Proofs.Changes

namespace OutlineIndex

namespace IdSet

theorem sdiff_empty (s : IdSet) : s.sdiff .empty = s := ext fun a => by simp

theorem sdiff_sdiff (s t u : IdSet) : (s.sdiff t).sdiff u = s.sdiff (t.union u) :=
  ext fun a => by simp [and_assoc]

theorem isEmpty_sdiff {s : IdSet} (h : s.isEmpty = true) (t : IdSet) : (s.sdiff t).isEmpty = true := by
  rw [isEmpty_iff] at h ⊢
  intro a ha
  exact h a (mem_sdiff.mp ha).1

end IdSet

namespace CodeGraph

/-- The absolute identifiers that a change enters for its file. -/
def Change.ids (base : Path) : Change → IdSet
  | .enter _ _ e _ => .ofList (e.nodeIds.toList.map (NodeId.absolute base))
  | .remove _ => .empty

/-- What is entered gives targets to identifiers of its own file only, and to none an empty set. -/
def Change.OwnsImports (base : Path) : Change → Prop
  | .enter uri path e m => ∀ edge ∈ m.imports.entries,
      edge.1 ∈ (Change.enter uri path e m).ids base ∧ edge.2.isEmpty = false
  | .remove _ => True

instance (base : Path) : ∀ x : Change, Decidable (x.OwnsImports base)
  | .enter uri path e m => inferInstanceAs (Decidable (∀ edge ∈ m.imports.entries,
      edge.1 ∈ (Change.enter uri path e m).ids base ∧ edge.2.isEmpty = false))
  | .remove _ => inferInstanceAs (Decidable True)

/-- The targets that an identifier was given when the file at a path was last entered. -/
def lastTargets? (path k : String) : List Change → Option IdSet
  | [] => none
  | .enter _ p _ m :: h => if p = path then m.imports.find? k else lastTargets? path k h
  | .remove _ :: h => lastTargets? path k h

/-- What files listed when they were removed, since the file at a path was last entered. -/
def removedSince (g : CodeGraph) (path : String) : List Change → IdSet
  | [] => .empty
  | .enter _ p _ _ :: h => if p = path then .empty else g.removedSince path h
  | .remove p :: h => (g.removedSince path h).union ((g.after h).listed p)

section Listed

variable {g : CodeGraph} {path p x : String}

theorem workspace_after (g : CodeGraph) (h : List Change) : (g.after h).workspace = g.workspace := by
  induction h with
  | nil => rfl
  | cons c h ih => exact (workspace_apply _ c).trans ih

theorem mem_listed_enter {uri : String} {e : FileEntry} {m : CodeMap} :
    x ∈ (g.apply (.enter uri p e m)).listed path ↔
      if path = p then x ∈ (Change.enter uri p e m).ids g.workspace else x ∈ g.listed path := by
  have hworkspace := workspace_apply g (.enter uri p e m)
  rw [mem_listed, entry?_apply_enter]
  split
  · rw [Change.ids, IdSet.mem_ofList, List.mem_map]
    simp [absolute, hworkspace, IdSet.mem_def]
  · simp only [mem_listed, absolute, hworkspace]

theorem mem_listed_remove :
    x ∈ (g.apply (.remove p)).listed path ↔ path ≠ p ∧ x ∈ g.listed path := by
  have hworkspace := workspace_apply g (.remove p)
  rw [mem_listed, entry?_apply_remove]
  split
  · rename_i heq
    simp [heq]
  · rename_i hne
    simp only [mem_listed, absolute, hworkspace, hne, ne_eq, not_false_eq_true, true_and]

/-- What is listed for a file was entered for it. -/
theorem exists_of_mem_listed {base : Path} {h : List Change} (hx : x ∈ ((empty base).after h).listed path) :
    ∃ c ∈ h, c.path = path ∧ x ∈ c.ids base := by
  induction h with
  | nil =>
    obtain ⟨e, he, -⟩ := mem_listed.mp hx
    cases he
  | cons c h ih =>
    have hearlier : x ∈ ((empty base).after h).listed path → ∃ c' ∈ c :: h, c'.path = path ∧ x ∈ c'.ids base := by
      intro hx
      obtain ⟨c', hc', hpath, hid⟩ := ih hx
      exact ⟨c', List.mem_cons_of_mem c hc', hpath, hid⟩
    cases c with
    | enter uri p e m =>
      rw [after, mem_listed_enter, workspace_after] at hx
      split at hx
      · rename_i hp
        exact ⟨_, List.mem_cons_self, hp.symm, hx⟩
      · exact hearlier hx
    | remove p =>
      rw [after, mem_listed_remove] at hx
      exact hearlier hx.2

end Listed

section Targets

variable {g : CodeGraph} {p k : String}

/-- A file that is entered replaces what its identifiers import, and leaves those of other files alone. -/
theorem importsOf?_enter {uri : String} {e : FileEntry} {m : CodeMap}
    (hown : (Change.enter uri p e m).OwnsImports g.workspace) :
    (g.apply (.enter uri p e m)).importsOf? k =
      (m.imports.find? k).or (if k ∈ g.listed p then none else g.importsOf? k) := by
  rw [importsOf?, apply, imports_update, find?_replaced]
  cases hm : m.imports.find? k with
  | none => exact (Option.none_or).symm
  | some targets =>
    have hk : k ∈ g.absoluteSet e.nodeIds := (hown _ (Table.find?_eq_some_iff.mp hm)).1
    exact congrArg some (if_pos hk)

/-- A file that is removed takes what it listed out of all sets. -/
theorem importsOf?_remove : (g.apply (.remove p)).importsOf? k =
    if (g.entry? p).isSome then
      ((if k ∈ g.listed p then none else g.importsOf? k).map (·.sdiff (g.listed p))).filter (!·.isEmpty)
    else g.importsOf? k := by
  rw [importsOf?, apply, imports_remove]
  split
  · rw [find?_withoutTargets, find?_filter_contains]
    rfl
  · rfl

end Targets

/-- What an identifier imports after a history: what it was given last, if a file still lists it. -/
structure Stands (g : CodeGraph) (h : List Change) (k : String) : Prop where
  listed : ∀ path, k ∈ (g.after h).listed path → (g.after h).importsOf? k =
    ((lastTargets? path k h).map (·.sdiff (g.removedSince path h))).filter (!·.isEmpty)
  unlisted : (∀ path, k ∉ (g.after h).listed path) → (g.after h).importsOf? k = none

namespace Stands

variable {g : CodeGraph} {h : List Change} {p k : String}

theorem enter {uri : String} {e : FileEntry} {m : CodeMap} (hs : Stands g h k)
    (hown : (Change.enter uri p e m).OwnsImports g.workspace)
    (hapart : ∀ q, q ≠ p → k ∈ (g.after h).listed q →
      k ∉ (g.after h).listed p ∧ k ∉ (Change.enter uri p e m).ids g.workspace) :
    Stands g (.enter uri p e m :: h) k := by
  have hworkspace := workspace_after g h
  have hfind : (g.after (.enter uri p e m :: h)).importsOf? k =
      (m.imports.find? k).or (if k ∈ (g.after h).listed p then none else (g.after h).importsOf? k) :=
    importsOf?_enter (hworkspace ▸ hown)
  have hlisted : ∀ path, k ∈ (g.after (.enter uri p e m :: h)).listed path ↔
      if path = p then k ∈ (Change.enter uri p e m).ids g.workspace else k ∈ (g.after h).listed path := by
    intro path
    rw [after, mem_listed_enter, hworkspace]
  have hnone : k ∉ (Change.enter uri p e m).ids g.workspace → m.imports.find? k = none := by
    intro hk
    cases hm : m.imports.find? k with
    | none => rfl
    | some targets => exact absurd (hown _ (Table.find?_eq_some_iff.mp hm)).1 hk
  -- an identifier that no other file lists has nothing left once the file's old edges are gone
  have hold : (∀ q, q ≠ p → k ∉ (g.after h).listed q) →
      (if k ∈ (g.after h).listed p then none else (g.after h).importsOf? k) = none := by
    intro hother
    split
    · rfl
    · rename_i hp
      refine hs.unlisted fun q hq => ?_
      by_cases hqp : q = p
      · exact hp (hqp ▸ hq)
      · exact hother q hqp hq
  refine ⟨fun path hk => ?_, fun hk => ?_⟩
  · rw [hlisted] at hk
    rw [hfind, lastTargets?, removedSince]
    by_cases hpath : path = p
    · rw [if_pos hpath] at hk
      rw [if_pos hpath.symm, if_pos hpath.symm, hold fun q hqp hq => (hapart q hqp hq).2 hk]
      cases hm : m.imports.find? k with
      | none => rfl
      | some targets =>
        have hne := (hown _ (Table.find?_eq_some_iff.mp hm)).2
        simp [IdSet.sdiff_empty, Option.filter, hne]
    · rw [if_neg hpath] at hk
      obtain ⟨hp, hids⟩ := hapart path hpath hk
      rw [hnone hids, Option.none_or, if_neg hp, if_neg (Ne.symm hpath), if_neg (Ne.symm hpath)]
      exact hs.listed path hk
  · have hids := hk p
    rw [hlisted, if_pos rfl] at hids
    rw [hfind, hnone hids, Option.none_or]
    refine hold fun q hqp hq => hk q ((hlisted q).mpr ?_)
    rwa [if_neg hqp]

theorem remove (hs : Stands g h k)
    (hapart : ∀ q, q ≠ p → k ∈ (g.after h).listed q → k ∉ (g.after h).listed p) :
    Stands g (.remove p :: h) k := by
  have hfind : (g.after (.remove p :: h)).importsOf? k = _ := importsOf?_remove
  have hlisted : ∀ path, k ∈ (g.after (.remove p :: h)).listed path ↔
      path ≠ p ∧ k ∈ (g.after h).listed path := fun path => mem_listed_remove
  refine ⟨fun path hk => ?_, fun hk => ?_⟩
  · obtain ⟨hpath, hk⟩ := (hlisted path).mp hk
    rw [hfind, if_neg (hapart path hpath hk), hs.listed path hk, lastTargets?, removedSince]
    cases lastTargets? path k h with
    | none => split <;> rfl
    | some targets =>
      rw [Option.map_some, Option.map_some, ← IdSet.sdiff_sdiff]
      generalize targets.sdiff (g.removedSince path h) = left
      split
      · by_cases hleft : left.isEmpty = true
        · simp [Option.filter, hleft, IdSet.isEmpty_sdiff hleft]
        · simp [Option.filter, hleft]
      · rename_i hentry
        have hempty : (g.after h).listed p = .empty :=
          IdSet.eq_empty_iff.mpr (listed_eq_empty (Bool.eq_false_iff.mpr hentry))
        rw [hempty, IdSet.sdiff_empty]
  · rw [hfind]
    by_cases hp : k ∈ (g.after h).listed p
    · obtain ⟨e, he, -⟩ := mem_listed.mp hp
      rw [he, if_pos hp]
      rfl
    · have hnone : (g.after h).importsOf? k = none := by
        refine hs.unlisted fun q hq => ?_
        by_cases hqp : q = p
        · exact hp (hqp ▸ hq)
        · exact hk q ((hlisted q).mpr ⟨hqp, hq⟩)
      rw [if_neg hp, hnone]
      split <;> rfl

end Stands

theorem stands_empty {base : Path} {h : List Change} (hown : ∀ x ∈ h, x.OwnsImports base)
    (hdisjoint : ∀ x ∈ h, ∀ y ∈ h, x.path ≠ y.path → ∀ k ∈ x.ids base, k ∉ y.ids base) (k : String) :
    Stands (empty base) h k := by
  induction h with
  | nil =>
    refine ⟨fun path hk => ?_, fun _ => rfl⟩
    obtain ⟨e, he, -⟩ := mem_listed.mp hk
    cases he
  | cons x h ih =>
    have hs := ih (fun y hy => hown y (List.mem_cons_of_mem x hy)) fun y hy z hz =>
      hdisjoint y (List.mem_cons_of_mem x hy) z (List.mem_cons_of_mem x hz)
    have hlisted : ∀ q, q ≠ x.path → k ∈ ((empty base).after h).listed q →
        k ∉ ((empty base).after h).listed x.path ∧ k ∉ x.ids base := by
      intro q hq hk
      obtain ⟨y, hy, hpath, hid⟩ := exists_of_mem_listed hk
      refine ⟨fun hk' => ?_, ?_⟩
      · obtain ⟨z, hz, hpath', hid'⟩ := exists_of_mem_listed hk'
        refine hdisjoint y (List.mem_cons_of_mem x hy) z (List.mem_cons_of_mem x hz) ?_ k hid hid'
        rwa [hpath, hpath']
      · exact hdisjoint y (List.mem_cons_of_mem x hy) x List.mem_cons_self (hpath ▸ hq) k hid
    cases x with
    | enter uri p e m => exact hs.enter (hown _ List.mem_cons_self) hlisted
    | remove p => exact hs.remove fun q hq hk => (hlisted q hq hk).1

/-- The import edges after any history in which files give targets to their own identifiers only, no
empty sets, and no two files have an identifier in common. Under an identifier that a file lists stand the
targets that it was given when that file was last entered, less what files listed when they were removed
since; if none of them is left, or if it was given none, there is nothing. There is nothing under any
other identifier. -/
theorem importsOf?_after {base : Path} {h : List Change} (hown : ∀ x ∈ h, x.OwnsImports base)
    (hdisjoint : ∀ x ∈ h, ∀ y ∈ h, x.path ≠ y.path → ∀ k ∈ x.ids base, k ∉ y.ids base) (k : String) :
    let g := (empty base).after h
    (∀ path targets, k ∈ g.listed path → lastTargets? path k h = some targets →
      let left := targets.sdiff ((empty base).removedSince path h)
      g.importsOf? k = if left.isEmpty then none else some left) ∧
    ((∀ path, k ∈ g.listed path → lastTargets? path k h = none) → g.importsOf? k = none) := by
  intro g
  have hs := stands_empty hown hdisjoint k
  refine ⟨fun path targets hk hlast => ?_, fun hlast => ?_⟩
  · intro left
    rw [hs.listed path hk, hlast, Option.map_some, Option.filter]
    by_cases hleft : left.isEmpty = true <;> simp [left] at hleft <;> simp [left, hleft]
  · by_cases hlisted : ∃ path, k ∈ g.listed path
    · obtain ⟨path, hk⟩ := hlisted
      rw [hs.listed path hk, hlast path hk]
      rfl
    · exact hs.unlisted fun path hk => hlisted ⟨path, hk⟩

section Sample

/-- A file at the root that lists its module and imports some others. -/
def sampleFile (path : String) (imported : List String) : Change :=
  .enter ("file:///" ++ path) path ⟨.ofList [path], ""⟩
    ⟨.empty, .ofList (if imported = [] then []
      else [("file:///" ++ path, .ofList (imported.map ("file:///" ++ ·)))]), .empty⟩

/-- The file `a.py` imports `d.py`, then `b.py` and `c.py` instead; `c.py` is entered and removed. -/
def sampleHistory : List Change :=
  [.remove "c.py", sampleFile "c.py" [], sampleFile "a.py" ["b.py", "c.py"], sampleFile "a.py" ["d.py"]]

theorem importsOf?_after_sampleHistory :
    ((empty ⟨.root, []⟩).after sampleHistory).importsOf? "file:///a.py" = some (.ofList ["file:///b.py"]) := by
  have hown : ∀ x ∈ sampleHistory, x.OwnsImports ⟨.root, []⟩ := by decide +kernel
  have hdisjoint : ∀ x ∈ sampleHistory, ∀ y ∈ sampleHistory, x.path ≠ y.path →
      ∀ k ∈ (x.ids ⟨.root, []⟩).toList, k ∉ y.ids ⟨.root, []⟩ := by decide +kernel
  have hlaw := (importsOf?_after hown hdisjoint "file:///a.py").1 "a.py"
    (.ofList ["file:///b.py", "file:///c.py"]) (by decide +kernel) (by decide +kernel)
  refine hlaw.trans ?_
  decide +kernel

end Sample

end CodeGraph

end OutlineIndex
