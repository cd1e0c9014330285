namespace OutlineIndex

structure IdSet where
  toList : List String
  sorted : toList.Pairwise (· < ·)
  deriving DecidableEq, Repr

namespace IdSet

def empty : IdSet := ⟨[], .nil⟩

instance : Inhabited IdSet := ⟨empty⟩

def insertSorted (a : String) : List String → List String
  | [] => [a]
  | b :: rest => if a = b then b :: rest else if a < b then a :: b :: rest else b :: insertSorted a rest

theorem mem_insertSorted {a b : String} {l : List String} :
    a ∈ insertSorted b l ↔ a = b ∨ a ∈ l := by
  induction l with
  | nil => simp [insertSorted]
  | cons c rest ih => grind [insertSorted]

theorem lt_of_not_lt {a b : String} (h : ¬a < b) (hne : a ≠ b) : b < a := by
  apply Decidable.by_contra
  intro hba
  exact hne (String.toList_inj.mp (List.le_antisymm hba h))

theorem sorted_insertSorted {a : String} {l : List String} (h : l.Pairwise (· < ·)) :
    (insertSorted a l).Pairwise (· < ·) := by
  induction l with
  | nil => simp [insertSorted]
  | cons b rest ih =>
    obtain ⟨hb, hrest⟩ := List.pairwise_cons.mp h
    unfold insertSorted
    split
    · exact h
    · split
      · rename_i hab
        refine List.pairwise_cons.mpr ⟨?_, h⟩
        intro x hx
        rcases List.mem_cons.mp hx with rfl | hx
        · exact hab
        · exact List.lt_trans hab (hb x hx)
      · rename_i hne hab
        refine List.pairwise_cons.mpr ⟨?_, ih hrest⟩
        intro x hx
        rcases mem_insertSorted.mp hx with rfl | hx
        · exact lt_of_not_lt hab hne
        · exact hb x hx

def insert (s : IdSet) (a : String) : IdSet := ⟨insertSorted a s.toList, sorted_insertSorted s.sorted⟩

def ofList (l : List String) : IdSet := l.foldl insert empty

def contains (s : IdSet) (a : String) : Bool := s.toList.contains a

def isEmpty (s : IdSet) : Bool := s.toList.isEmpty

def union (s t : IdSet) : IdSet := t.toList.foldl insert s

def filter (p : String → Bool) (s : IdSet) : IdSet := ⟨s.toList.filter p, s.sorted.filter p⟩

/-- The members of `s` that are not in `t`. -/
def sdiff (s t : IdSet) : IdSet := s.filter (!t.contains ·)

instance : Membership String IdSet := ⟨fun s a => a ∈ s.toList⟩

theorem mem_def {a : String} {s : IdSet} : a ∈ s ↔ a ∈ s.toList := Iff.rfl

@[simp] theorem mem_insert {a b : String} {s : IdSet} : a ∈ s.insert b ↔ a = b ∨ a ∈ s :=
  mem_insertSorted

@[simp] theorem not_mem_empty {a : String} : a ∉ empty := by simp [mem_def, empty]

theorem mem_foldl_insert {a : String} {l : List String} {s : IdSet} :
    a ∈ l.foldl insert s ↔ a ∈ s ∨ a ∈ l := by
  induction l generalizing s with
  | nil => simp
  | cons b rest ih => simp only [List.foldl_cons, ih, mem_insert, List.mem_cons]; grind

@[simp] theorem mem_ofList {a : String} {l : List String} : a ∈ ofList l ↔ a ∈ l := by
  simp [ofList, mem_foldl_insert]

@[simp] theorem mem_union {a : String} {s t : IdSet} : a ∈ s.union t ↔ a ∈ s ∨ a ∈ t := by
  rw [union, mem_foldl_insert, mem_def (s := t)]

@[simp] theorem mem_filter {a : String} {p : String → Bool} {s : IdSet} :
    a ∈ s.filter p ↔ a ∈ s ∧ p a = true := by
  simp [filter, mem_def]

@[simp] theorem contains_iff {a : String} {s : IdSet} : s.contains a = true ↔ a ∈ s := by
  simp [contains, mem_def]

instance {a : String} {s : IdSet} : Decidable (a ∈ s) := decidable_of_iff _ contains_iff

@[simp] theorem mem_sdiff {a : String} {s t : IdSet} : a ∈ s.sdiff t ↔ a ∈ s ∧ a ∉ t := by
  rw [sdiff, mem_filter, Bool.not_eq_true', ← Bool.not_eq_true, contains_iff]

theorem isEmpty_iff {s : IdSet} : s.isEmpty = true ↔ ∀ a, a ∉ s := by
  rw [isEmpty, List.isEmpty_iff, List.eq_nil_iff_forall_not_mem]
  exact Iff.rfl

theorem nodup_toList (s : IdSet) : s.toList.Nodup := by
  refine List.Pairwise.imp ?_ s.sorted
  rintro a b h rfl
  exact List.lt_irrefl _ h

theorem eq_of_sorted {l m : List String} (hl : l.Pairwise (· < ·)) (hm : m.Pairwise (· < ·))
    (h : ∀ a, a ∈ l ↔ a ∈ m) : l = m := by
  induction l generalizing m with
  | nil => exact (List.eq_nil_iff_forall_not_mem.mpr fun a ha => by simpa using (h a).mpr ha).symm
  | cons a l ih =>
    cases m with
    | nil => exact absurd ((h a).mp (by simp)) (by simp)
    | cons b m =>
      obtain ⟨ha, htail⟩ := List.pairwise_cons.mp hl
      obtain ⟨hb, htail'⟩ := List.pairwise_cons.mp hm
      have hab : a = b := by
        rcases List.mem_cons.mp ((h a).mp (by simp)) with e | hmem
        · exact e
        · rcases List.mem_cons.mp ((h b).mpr (by simp)) with e | hmem'
          · exact e.symm
          · exact absurd (List.lt_trans (hb a hmem) (ha b hmem')) (List.lt_irrefl _)
      subst hab
      have hrest : ∀ x, x ∈ l ↔ x ∈ m := by
        intro x
        have hx := h x
        simp only [List.mem_cons] at hx
        constructor
        · intro hxl
          rcases hx.mp (.inr hxl) with rfl | hxm
          · exact absurd (ha x hxl) (List.lt_irrefl _)
          · exact hxm
        · intro hxm
          rcases hx.mpr (.inr hxm) with rfl | hxl
          · exact absurd (hb x hxm) (List.lt_irrefl _)
          · exact hxl
      exact congrArg (List.cons a) (ih htail htail' hrest)

/-- Sets with the same members are equal. -/
theorem ext {s t : IdSet} (h : ∀ a, a ∈ s ↔ a ∈ t) : s = t := by
  obtain ⟨l, hl⟩ := s
  obtain ⟨m, hm⟩ := t
  have e : l = m := eq_of_sorted hl hm h
  subst e
  rfl

theorem eq_empty_iff {s : IdSet} : s = empty ↔ ∀ a, a ∉ s :=
  ⟨fun h a => h ▸ not_mem_empty, fun h => ext fun a => by simp [h a]⟩

theorem ofList_toList (s : IdSet) : ofList s.toList = s := ext fun a => by simp [mem_def.symm]

end IdSet

end OutlineIndex
