import Mathlib.Data.List.Nodup
import OutlineIndex.Settings.Sections

namespace OutlineIndex

/-- The value of a key in a list of pairs after one has been set, in its place or at the end. -/
theorem find?_setEntry {κ α : Type} [BEq κ] [LawfulBEq κ] [DecidableEq κ] (l : List (κ × α)) (k : κ) (v : α)
    (k' : κ) :
    ((if l.any (·.1 == k) then l.map fun e => if e.1 == k then (k, v) else e else l ++ [(k, v)]).find?
      (·.1 == k')).map (·.2) = if k' = k then some v else (l.find? (·.1 == k')).map (·.2) := by
  have hset : ((l.map fun e => if e.1 == k then (k, v) else e).find? (·.1 == k')).map (·.2) =
      if k' = k then (l.find? (·.1 == k)).map fun _ => v else (l.find? (·.1 == k')).map (·.2) := by
    induction l with
    | nil => simp
    | cons e l ih =>
      by_cases he : e.1 = k
      · by_cases hk : k' = k
        · simp [he, hk]
        · simpa [he, hk, Ne.symm hk] using ih
      · by_cases hk : k' = k
        · simpa [he, hk] using ih
        · by_cases hek : e.1 = k' <;> simp_all
  split
  · rename_i hany
    obtain ⟨e, he, hk⟩ := List.any_eq_true.mp hany
    have hsome : (l.find? (·.1 == k)).isSome = true := List.find?_isSome.mpr ⟨e, he, hk⟩
    obtain ⟨w, hw⟩ := Option.isSome_iff_exists.mp hsome
    rw [hset, hw]
    rfl
  · rename_i hany
    have hnone : l.find? (·.1 == k) = none := List.find?_eq_none.mpr fun e he hk =>
      hany (List.any_eq_true.mpr ⟨e, he, hk⟩)
    rw [List.find?_append]
    by_cases hk : k' = k
    · subst hk
      simp [hnone]
    · simp [hk, Ne.symm hk]

namespace Data

/-- A step into a value. -/
inductive Way where
  | field (name : String)
  | item (i : Nat)

/-- What steps into a value lead to. -/
def locate : List Way → Data → Option Data
  | [], v => some v
  | .field name :: rest, .record fields => ((Data.record fields).field? name).bind (locate rest)
  | .item i :: rest, .list items => items[i]?.bind (locate rest)
  | _ :: _, _ => none

/-- A value without what is in it. Of a record the names are left, each as often as it occurs. -/
def face : Data → Data
  | .list _ => .list []
  | .record fields => .record (((fields.map (·.1)).mergeSort (· ≤ ·)).map (·, .null))
  | v => v

/-- What a value means when the order of fields does not count. -/
def meaning (v : Data) (way : List Way) : Option Data := (v.locate way).map face

theorem eq_text_of_meaning {v : Data} {s : String} (h : v.meaning = (Data.text s).meaning) :
    v = .text s := by
  have hface : some v.face = some (.text s) := congrFun h []
  cases v with
  | text t => exact Option.some.inj hface
  | _ => cases hface

end Data

namespace Settings

open Data (meaning)

/-- What fields have under a name. -/
def look (fields : Fields) (k : String) : Option Data := (Data.record fields).field? k

theorem look_cons (e : String × Data) (fields : Fields) (k : String) :
    look (e :: fields) k = if k = e.1 then some e.2 else look fields k := by
  by_cases hk : k = e.1
  · subst hk
    simp [look, Data.field?]
  · simp [look, Data.field?, hk, Ne.symm hk]

theorem look_eq_none_iff {fields : Fields} {k : String} : look fields k = none ↔ k ∉ fields.map (·.1) := by
  induction fields with
  | nil => simp [look, Data.field?]
  | cons e fields ih =>
    rw [look_cons, List.map_cons, List.mem_cons, not_or, ← ih]
    by_cases hk : k = e.1 <;> simp [hk]

theorem look_putField (fields : Fields) (k : String) (v : Data) (k' : String) :
    look (Data.putField fields k v) k' = if k' = k then some v else look fields k' :=
  find?_setEntry fields k v k'

/-- Of fields laid over others those count that are given there. -/
theorem look_overlay (base : Fields) {upper : Fields} (h : (upper.map (·.1)).Nodup) (k : String) :
    look (Data.overlay base upper) k = (look upper k).or (look base k) := by
  unfold Data.overlay
  induction upper generalizing base with
  | nil => rfl
  | cons e upper ih =>
    obtain ⟨hout, hrest⟩ := List.nodup_cons.mp h
    rw [List.foldl_cons, ih _ hrest, look_putField, look_cons]
    by_cases hk : k = e.1
    · subst hk
      rw [look_eq_none_iff.mpr hout]
      simp
    · simp [hk]

theorem nodup_overlay {base : Fields} (h : (base.map (·.1)).Nodup) (upper : Fields) :
    ((Data.overlay base upper).map (·.1)).Nodup := by
  unfold Data.overlay
  induction upper generalizing base with
  | nil => exact h
  | cons e upper ih => exact ih (Table.distinct_putEntry h e.1 e.2)

/-- What means the same as a record is a record with the same names, and what it has under each of them
means the same. -/
theorem record_of_meaning {fields : Fields} {v : Data} (h : v.meaning = (Data.record fields).meaning) :
    ∃ fields', v = .record fields' ∧ (fields'.map (·.1)).Perm (fields.map (·.1)) ∧
      ∀ k, (look fields' k).map meaning = (look fields k).map meaning := by
  have hface : some v.face = some (Data.record fields).face := congrFun h []
  cases v with
  | record fields' =>
    refine ⟨fields', rfl, ?_, fun k => ?_⟩
    · have hsorted := Option.some.inj hface
      simp only [Data.face, Data.record.injEq] at hsorted
      have hnames := List.map_injective_iff.mpr (fun a b hab => (Prod.mk.inj hab).1) hsorted
      have hperm := List.mergeSort_perm (fields'.map (·.1)) fun a b => decide (a ≤ b)
      rw [hnames] at hperm
      exact hperm.symm.trans (List.mergeSort_perm _ _)
    · -- under a name both have something, of which every way leads to the same, or both have nothing
      have hways : ∀ way, (look fields' k).bind (meaning · way) = (look fields k).bind (meaning · way) := by
        intro way
        have hway := congrFun h (.field k :: way)
        simp only [meaning, Data.locate, Option.map_bind] at hway
        exact hway
      cases hl : look fields' k with
      | none =>
        cases hr : look fields k with
        | none => rfl
        | some w =>
          have hnil := hways []
          rw [hl, hr] at hnil
          cases hnil
      | some u =>
        cases hr : look fields k with
        | none =>
          have hnil := hways []
          rw [hl, hr] at hnil
          cases hnil
        | some w =>
          refine congrArg some (funext fun way => ?_)
          have hway := hways way
          rwa [hl, hr] at hway
  | _ => cases hface

end Settings

end OutlineIndex
