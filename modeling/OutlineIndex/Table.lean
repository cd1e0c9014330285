namespace OutlineIndex

structure Table (α : Type) where
  entries : List (String × α)
  distinct : (entries.map (·.1)).Nodup
  deriving DecidableEq, Repr

namespace Table

variable {α : Type}

def empty : Table α := ⟨[], .nil⟩

instance : Inhabited (Table α) := ⟨empty⟩

def find? (t : Table α) (k : String) : Option α := (t.entries.find? (·.1 == k)).map (·.2)

def contains (t : Table α) (k : String) : Bool := t.entries.any (·.1 == k)

def keys (t : Table α) : List String := t.entries.map (·.1)

def values (t : Table α) : List α := t.entries.map (·.2)

/-- Sets the value of a key in a list of pairs. -/
def putEntry (l : List (String × α)) (k : String) (v : α) : List (String × α) :=
  if l.any (·.1 == k) then l.map fun e => if e.1 == k then (k, v) else e else l ++ [(k, v)]

theorem map_putEntry (l : List (String × α)) (k : String) (v : α) :
    (putEntry l k v).map (·.1) = if l.any (·.1 == k) then l.map (·.1) else l.map (·.1) ++ [k] := by
  unfold putEntry
  split
  · rw [List.map_map]
    apply List.map_congr_left
    intro e _
    by_cases h : e.1 = k <;> simp [h]
  · simp

theorem distinct_putEntry {l : List (String × α)} (h : (l.map (·.1)).Nodup) (k : String) (v : α) :
    ((putEntry l k v).map (·.1)).Nodup := by
  rw [map_putEntry]
  split
  · exact h
  · rename_i hk
    refine List.nodup_append.mpr ⟨h, by simp, ?_⟩
    intro a ha b hb e
    obtain rfl : b = k := by simpa using hb
    obtain ⟨p, hp, rfl⟩ := List.mem_map.mp ha
    exact hk (List.any_eq_true.mpr ⟨p, hp, by simp [e]⟩)

/-- Sets the value of a key. -/
def put (t : Table α) (k : String) (v : α) : Table α :=
  ⟨putEntry t.entries k v, distinct_putEntry t.distinct k v⟩

def filter (p : String → α → Bool) (t : Table α) : Table α :=
  ⟨t.entries.filter fun e => p e.1 e.2, t.distinct.sublist (List.filter_sublist.map _)⟩

def erase (t : Table α) (k : String) : Table α := t.filter fun k' _ => k' != k

def map {β : Type} (f : String → α → β) (t : Table α) : Table β :=
  ⟨t.entries.map fun e => (e.1, f e.1 e.2), by simpa [Function.comp_def] using t.distinct⟩

def ofList (l : List (String × α)) : Table α := l.foldl (fun t e => t.put e.1 e.2) empty

/-- The pairs in the order of their keys. -/
def sorted (t : Table α) : List (String × α) := t.entries.mergeSort fun a b => a.1 ≤ b.1

@[simp] theorem find?_empty (k : String) : (empty : Table α).find? k = none := rfl

theorem find?_eq_some_iff {t : Table α} {k : String} {v : α} :
    t.find? k = some v ↔ (k, v) ∈ t.entries := by
  obtain ⟨l, hl⟩ := t
  simp only [find?]
  induction l with
  | nil => simp
  | cons e l ih =>
    obtain ⟨he, hrest⟩ := List.nodup_cons.mp hl
    by_cases hk : e.1 = k
    · subst hk
      have hout : (e.1, v) ∉ l := fun h => he (List.mem_map.mpr ⟨_, h, rfl⟩)
      simp [hout, Prod.ext_iff, eq_comm]
    · have hne : (k, v) ≠ e := fun h => hk (h ▸ rfl)
      simp [hk, hne, ih hrest]

theorem find?_eq_none_iff {t : Table α} {k : String} : t.find? k = none ↔ k ∉ t.keys := by
  simp [find?, keys]
  grind

theorem contains_iff {t : Table α} {k : String} : t.contains k = true ↔ (t.find? k).isSome := by
  simp [contains, find?]

theorem mem_keys_iff {t : Table α} {k : String} : k ∈ t.keys ↔ ∃ v, t.find? k = some v := by
  rw [← Option.isSome_iff_exists, Option.isSome_iff_ne_none, Ne, find?_eq_none_iff, Decidable.not_not]

theorem mem_values_iff {t : Table α} {v : α} : v ∈ t.values ↔ ∃ k, t.find? k = some v := by
  simp [values, find?_eq_some_iff]

theorem mem_putEntry {l : List (String × α)} {k k' : String} {v w : α} :
    (k', w) ∈ putEntry l k v ↔ (k' = k ∧ w = v) ∨ (k' ≠ k ∧ (k', w) ∈ l) := by
  unfold putEntry
  split
  · rename_i hany
    obtain ⟨e, he, hk⟩ := List.any_eq_true.mp hany
    grind
  · rename_i hany
    have hout : ∀ x, (k, x) ∉ l := fun x hx => hany (List.any_eq_true.mpr ⟨_, hx, by simp⟩)
    grind

@[simp] theorem find?_put (t : Table α) (k k' : String) (v : α) :
    (t.put k v).find? k' = if k' = k then some v else t.find? k' := by
  ext w
  rw [find?_eq_some_iff, put, mem_putEntry]
  by_cases hk : k' = k
  · simp [hk, eq_comm]
  · simp [hk, find?_eq_some_iff]

theorem find?_filter (t : Table α) (p : String → α → Bool) (k : String) :
    (t.filter p).find? k = (t.find? k).filter (p k) := by
  ext v
  simp [find?_eq_some_iff, filter, Option.filter_eq_some_iff]

@[simp] theorem find?_erase (t : Table α) (k k' : String) :
    (t.erase k).find? k' = if k' = k then none else t.find? k' := by
  rw [erase, find?_filter]
  by_cases h : k' = k
  · simp [h]
  · cases t.find? k' <;> simp [h, Option.filter]

theorem find?_map {β : Type} (t : Table α) (f : String → α → β) (k : String) :
    (t.map f).find? k = (t.find? k).map (f k) := by
  ext v
  simp only [find?_eq_some_iff, map, List.mem_map, Prod.mk.injEq, Prod.exists, Option.map_eq_some_iff]
  constructor
  · rintro ⟨k, a, h, rfl, rfl⟩
    exact ⟨a, h, rfl⟩
  · rintro ⟨a, h, rfl⟩
    exact ⟨k, a, h, rfl, rfl⟩

theorem find?_foldl_put {β : Type} (key : β → String) (val : β → α) (l : List β) (t : Table α)
    (k : String) : (l.foldl (fun t x => t.put (key x) (val x)) t).find? k =
      ((l.reverse.find? (key · == k)).map val).or (t.find? k) := by
  induction l generalizing t with
  | nil => rfl
  | cons x l ih =>
    rw [List.foldl_cons, ih, List.reverse_cons, List.find?_append, find?_put]
    by_cases hk : k = key x
    · subst hk
      cases l.reverse.find? (key · == key x) <;> simp
    · have hx : (key x == k) = false := by simpa using Ne.symm hk
      cases l.reverse.find? (key · == k) <;> simp [hk, hx]

/-- What a key holds after some writes was there before or is one of the values written to it. -/
theorem find?_foldl_put_cases {β : Type} {key : β → String} {val : β → α} {l : List β} {t : Table α}
    {k : String} {v : α} (h : (l.foldl (fun t x => t.put (key x) (val x)) t).find? k = some v) :
    (∃ x ∈ l, key x = k ∧ val x = v) ∨ (t.find? k = some v ∧ ∀ x ∈ l, key x ≠ k) := by
  rw [find?_foldl_put] at h
  cases hf : l.reverse.find? (key · == k) with
  | some x =>
    rw [hf] at h
    have hx := List.find?_some hf
    exact .inl ⟨x, List.mem_reverse.mp (List.mem_of_find?_eq_some hf), by simpa using hx, by simpa using h⟩
  | none =>
    rw [hf] at h
    refine .inr ⟨by simpa using h, fun x hx e => ?_⟩
    have := List.find?_eq_none.mp hf x (List.mem_reverse.mpr hx)
    exact this (by simp [e])

theorem isSome_find?_foldl_put {β : Type} {key : β → String} {val : β → α} {l : List β} {t : Table α}
    {k : String} (h : (∃ x ∈ l, key x = k) ∨ (t.find? k).isSome) :
    ((l.foldl (fun t x => t.put (key x) (val x)) t).find? k).isSome := by
  rw [find?_foldl_put]
  cases hf : l.reverse.find? (key · == k) with
  | some x => rfl
  | none =>
    rcases h with ⟨x, hx, e⟩ | h
    · exact absurd (by simp [e]) (List.find?_eq_none.mp hf x (List.mem_reverse.mpr hx))
    · simpa using h

theorem entries_foldl_put (l : List (String × α)) (t : Table α) (hl : (l.map (·.1)).Nodup)
    (hnew : ∀ e ∈ l, e.1 ∉ t.keys) :
    (l.foldl (fun t e => t.put e.1 e.2) t).entries = t.entries ++ l := by
  induction l generalizing t with
  | nil => exact (List.append_nil _).symm
  | cons e l ih =>
    obtain ⟨he, hl⟩ := List.nodup_cons.mp hl
    have hput : (t.put e.1 e.2).entries = t.entries ++ [e] := by
      have hany : t.entries.any (·.1 == e.1) = false := by
        refine List.any_eq_false.mpr fun x hx heq => ?_
        exact hnew e (by simp) (List.mem_map.mpr ⟨x, hx, by simpa using heq⟩)
      exact if_neg (Bool.not_eq_true _ ▸ hany)
    rw [List.foldl_cons, ih _ hl ?_, hput, List.append_assoc]
    · rfl
    · intro x hx hmem
      rw [keys, hput, List.map_append, List.mem_append] at hmem
      rcases hmem with hmem | hmem
      · exact hnew x (List.mem_cons_of_mem _ hx) hmem
      · exact he (List.mem_map.mpr ⟨x, hx, by simpa using hmem⟩)

/-- A list of pairs with distinct keys is the table that it makes. -/
theorem entries_ofList {l : List (String × α)} (h : (l.map (·.1)).Nodup) : (ofList l).entries = l := by
  have hentries := entries_foldl_put l empty h fun _ _ hmem => by cases hmem
  exact hentries

end Table

end OutlineIndex
