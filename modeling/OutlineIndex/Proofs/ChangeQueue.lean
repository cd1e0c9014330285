import Mathlib.Data.List.Nodup
import OutlineIndex.ChangeQueue
import OutlineIndex.Proofs.Path

namespace OutlineIndex

namespace Path

/-- A path written out is read back. -/
theorem ofString_toString {p : Path} (h : Plain p.parts) : ofString p.toString = p := by
  obtain ⟨anchor, parts⟩ := p
  cases anchor with
  | relative => exact ofString_toString_relative h
  | root => exact ofString_chars_root h
  | network =>
    have hparts : components ('/' :: '/' :: joined parts) = parts := by
      rw [components, Text.split_cons_sep, Text.split_cons_sep, List.filter_cons, List.filter_cons]
      simpa [components] using components_joined h
    have hchars : chars ⟨.network, parts⟩ = '/' :: '/' :: joined parts := rfl
    rw [ofString, toString, String.toList_ofList, hchars, hparts]
    cases parts with
    | nil => rfl
    | cons p ps =>
      obtain ⟨c, rest, hj, hc⟩ := head_joined h
      rw [hj]
      simp [anchorOf, hc]

end Path

/-- The paths that a change is about. -/
def FileChange.ends (c : FileChange) : List String :=
  if c.directory then [] else if c.destination = "" then [c.source] else [c.source, c.destination]

namespace ChangeQueue

variable {τ : Type}

/-- A path worth an indexing pass: a source file that is not hidden, in no hidden directory. -/
def Accepted (p : Path) : Prop :=
  (p.suffix = ".py" ∨ p.suffix = ".pyi") ∧ ∀ part ∈ p.parts, part.toList.head? ≠ some '.'

instance (p : Path) : Decidable (Accepted p) := inferInstanceAs (Decidable (_ ∧ _))

theorem accepts_iff {p : Path} : accepts p = true ↔ Accepted p := by
  simp [accepts, Accepted, CodeMap.supports, CodeMap.extensions, isHidden]

/-- What happens to a queue. The ends of a move can also be added one by one, as a flush may come in
between. -/
inductive Step (τ : Type)
  | dispatch (now : τ) (c : FileChange)
  | add (now : τ) (path : String)
  | flush (now : τ) (busy : Bool)

namespace Step

def time : Step τ → τ
  | .dispatch now _ => now
  | .add now _ => now
  | .flush now _ => now

def ends : Step τ → List String
  | .dispatch _ c => c.ends
  | .add _ path => [path]
  | .flush _ _ => []

/-- The paths that a step brings and that are accepted. -/
def paths (s : Step τ) : List Path := (s.ends.map Path.ofString).filter (Accepted ·)

theorem paths_eq (s : Step τ) : s.paths = (s.ends.map Path.ofString).filter accepts :=
  List.filter_congr fun _ _ => by rw [Bool.eq_iff_iff, decide_eq_true_iff, accepts_iff]

end Step

section Runs

variable [Sub τ] [LT τ] [DecidableLT τ]

def apply (q : ChangeQueue τ) : Step τ → ChangeQueue τ
  | .dispatch now c => q.dispatch now c
  | .add now path => q.add now path
  | .flush now busy => (q.flush now busy).1

/-- The batch that a step hands over, empty for none. -/
def handed (q : ChangeQueue τ) : Step τ → List Path
  | .flush now busy => (q.flush now busy).2
  | _ => []

/-- The queue after a history, the last step first. -/
def after (q : ChangeQueue τ) : List (Step τ) → ChangeQueue τ
  | [] => q
  | s :: h => (q.after h).apply s

/-- The accepted paths since the last batch. -/
def waiting (q : ChangeQueue τ) : List (Step τ) → List Path
  | [] => []
  | s :: h => if (q.after h).handed s = [] then s.paths ++ q.waiting h else []

/-- A path is in a batch that one of the later steps hands over. -/
def HandedOver (q : ChangeQueue τ) (p : Path) (earlier : List (Step τ)) : List (Step τ) → Prop
  | [] => False
  | s :: later => p ∈ (q.after (later ++ earlier)).handed s ∨ q.HandedOver p earlier later

end Runs

/-- When the last accepted path came. -/
def lastTime? : List (Step τ) → Option τ
  | [] => none
  | s :: h => if s.paths = [] then lastTime? h else some s.time

section Adding

variable {q : ChangeQueue τ} {now : τ}

theorem dispatch_eq (q : ChangeQueue τ) (now : τ) (c : FileChange) :
    q.dispatch now c = c.ends.foldl (fun q path => q.add now path) q := by
  rw [dispatch, FileChange.ends]
  by_cases hdirectory : c.directory = true
  · rw [if_pos hdirectory, if_pos hdirectory, List.foldl_nil]
  · rw [if_neg hdirectory, if_neg hdirectory]
    by_cases hdestination : c.destination = "" <;> simp [hdestination]

theorem mem_pending_add {path x : String} : x ∈ (q.add now path).pending ↔
    x ∈ q.pending ∨ accepts (Path.ofString path) = true ∧ x = (Path.ofString path).toString := by
  unfold add
  dsimp only
  split
  · rename_i haccepts
    simp [haccepts, or_comm]
  · rename_i haccepts
    simp [haccepts]

theorem mem_pending_foldl_add {ends : List String} {x : String} :
    x ∈ (ends.foldl (fun q path => q.add now path) q).pending ↔
      x ∈ q.pending ∨ ∃ p ∈ (ends.map Path.ofString).filter accepts, x = p.toString := by
  induction ends generalizing q with
  | nil => simp
  | cons path ends ih =>
    rw [List.foldl_cons, ih, mem_pending_add, List.map_cons, List.filter_cons]
    split
    · rename_i haccepts
      simp [haccepts, or_assoc]
    · rename_i haccepts
      simp [haccepts]

/-- Only accepted paths move the clock. -/
theorem lastChange_foldl_add {ends : List String} :
    (ends.foldl (fun q path => q.add now path) q).lastChange =
      if (ends.map Path.ofString).filter accepts = [] then q.lastChange else now := by
  induction ends generalizing q with
  | nil => rfl
  | cons path ends ih =>
    rw [List.foldl_cons, ih, List.map_cons, List.filter_cons, add]
    by_cases haccepts : accepts (Path.ofString path) = true <;> simp [haccepts]

theorem debounce_foldl_add {ends : List String} :
    (ends.foldl (fun q path => q.add now path) q).debounce = q.debounce := by
  induction ends generalizing q with
  | nil => rfl
  | cons path ends ih =>
    rw [List.foldl_cons, ih, add]
    by_cases haccepts : accepts (Path.ofString path) = true <;> simp [haccepts]

end Adding

section Order

/-- The order by components tells paths apart. -/
theorem eq_of_pathKey_eq {p q : Path} (hp : Path.Plain p.parts) (hq : Path.Plain q.parts)
    (h : pathKey p = pathKey q) : p = q := by
  have hanchor : ∀ {a : Anchor} {parts rest : List String}, Path.Plain parts → a ≠ .relative →
      parts ≠ String.ofList a.text :: rest := by
    intro a parts rest hplain ha heq
    have hslash := (hplain (String.ofList a.text) (by simp [heq])).2.2
    cases a with
    | relative => exact ha rfl
    | root => simp [Anchor.text] at hslash
    | network => simp [Anchor.text] at hslash
  obtain ⟨a, parts⟩ := p
  obtain ⟨b, parts'⟩ := q
  cases a <;> cases b <;> simp only [pathKey] at h
  · rw [h]
  · exact absurd h (hanchor hp (by simp))
  · exact absurd h (hanchor hp (by simp))
  · exact absurd h.symm (hanchor hq (by simp))
  · rw [(List.cons.inj h).2]
  · exact absurd (List.cons.inj h).1 (by decide)
  · exact absurd h.symm (hanchor hq (by simp))
  · exact absurd (List.cons.inj h).1 (by decide)
  · rw [(List.cons.inj h).2]

theorem mem_batch {q : ChangeQueue τ} {p : Path} :
    p ∈ q.batch ↔ ∃ x ∈ q.pending, Path.ofString x = p := by
  rw [batch, List.mem_mergeSort, List.mem_map]
  rfl

/-- Pending paths as they are written out leave in order, each once. -/
theorem pairwise_batch {q : ChangeQueue τ} (h : ∀ x ∈ q.pending, (Path.ofString x).toString = x) :
    q.batch.Pairwise fun p p' => pathKey p < pathKey p' := by
  have htrans : ∀ p p' p'' : Path, !(pathKey p' < pathKey p) → !(pathKey p'' < pathKey p') →
      !(pathKey p'' < pathKey p) := by
    intro p p' p'' hp hp'
    simp only [Bool.not_eq_true', decide_eq_false_iff_not] at hp hp' ⊢
    exact List.le_trans hp hp'
  have htotal : ∀ p p' : Path, (!(pathKey p' < pathKey p) || !(pathKey p < pathKey p')) = true := by
    intro p p'
    simp only [Bool.or_eq_true, Bool.not_eq_true', decide_eq_false_iff_not]
    exact List.le_total (pathKey p) (pathKey p')
  have hsorted : q.batch.Pairwise fun p p' => (!(pathKey p' < pathKey p)) = true :=
    List.pairwise_mergeSort htrans htotal _
  have hnodup : q.batch.Nodup := by
    rw [batch, (List.mergeSort_perm _ _).nodup_iff]
    refine List.Nodup.map_on (fun x hx y hy hxy => ?_) q.pending.nodup_toList
    rw [← h x hx, ← h y hy, hxy]
  refine (hsorted.and hnodup).imp_of_mem fun {p p'} hp hp' ⟨hle, hne⟩ => ?_
  obtain ⟨x, -, rfl⟩ := mem_batch.mp hp
  obtain ⟨y, -, rfl⟩ := mem_batch.mp hp'
  simp only [Bool.not_eq_true', decide_eq_false_iff_not] at hle
  by_contra hlt
  exact hne (eq_of_pathKey_eq (Path.plain_ofString x) (Path.plain_ofString y) (List.le_antisymm hle hlt))

end Order

section Flush

variable [Sub τ] [LT τ] [DecidableLT τ] {q : ChangeQueue τ} {now : τ} {busy : Bool} {s : Step τ}

/-- Why a flush hands nothing over. -/
def Refuses (q : ChangeQueue τ) (now : τ) (busy : Bool) : Prop :=
  q.pending.isEmpty = true ∨ now - q.lastChange < q.debounce ∨ busy = true

theorem flush_of_refuses (h : q.Refuses now busy) : q.flush now busy = (q, []) := by
  rw [flush, if_pos]
  simpa [Refuses, or_assoc] using h

theorem flush_of_not_refuses (h : ¬q.Refuses now busy) :
    q.flush now busy = ({ q with pending := .empty }, q.batch) := by
  rw [flush, if_neg]
  simpa [Refuses, or_assoc] using h

/-- A flush that is not refused hands something over. -/
theorem handed_flush_eq_nil_iff : (q.flush now busy).2 = [] ↔ q.Refuses now busy := by
  by_cases h : q.Refuses now busy
  · simp [flush_of_refuses h, h]
  · have hsome : ∃ x, x ∈ q.pending := by
      by_contra hnone
      exact h (.inl (IdSet.isEmpty_iff.mpr fun x hx => hnone ⟨x, hx⟩))
    obtain ⟨x, hx⟩ := hsome
    have hmem : Path.ofString x ∈ q.batch := mem_batch.mpr ⟨x, hx, rfl⟩
    rw [flush_of_not_refuses h]
    exact iff_of_false (List.ne_nil_of_mem hmem) h

/-- A step that hands nothing over adds what it brings. -/
theorem apply_of_handed_eq_nil (h : q.handed s = []) :
    q.apply s = s.ends.foldl (fun q path => q.add s.time path) q := by
  cases s with
  | dispatch now c => exact dispatch_eq q now c
  | add now path => simp only [apply, Step.ends, Step.time, List.foldl_cons, List.foldl_nil]
  | flush now busy =>
    rw [apply, flush_of_refuses (handed_flush_eq_nil_iff.mp h), Step.ends, List.foldl_nil]

/-- Only a flush hands something over, and then all of it. -/
theorem apply_of_handed_ne_nil (h : q.handed s ≠ []) :
    s.ends = [] ∧ q.apply s = { q with pending := .empty } ∧ q.handed s = q.batch := by
  cases s with
  | dispatch now c => exact absurd rfl h
  | add now path => exact absurd rfl h
  | flush now busy =>
    have hflush := flush_of_not_refuses (handed_flush_eq_nil_iff.not.mp h)
    exact ⟨rfl, congrArg Prod.fst hflush, congrArg Prod.snd hflush⟩

end Flush

section Histories

variable [Sub τ] [LT τ] [DecidableLT τ] {q : ChangeQueue τ} {h : List (Step τ)}

/-- How the queue after a history follows from the history. -/
structure Tracks (q : ChangeQueue τ) (h : List (Step τ)) : Prop where
  debounce : (q.after h).debounce = q.debounce
  lastChange : (q.after h).lastChange = (lastTime? h).getD q.lastChange
  pending : ∀ x, x ∈ (q.after h).pending ↔ ∃ p ∈ q.waiting h, x = p.toString
  read : ∀ p ∈ q.waiting h, Path.ofString p.toString = p
  timed : q.waiting h ≠ [] → (lastTime? h).isSome

theorem Tracks.step (ht : q.Tracks h) (s : Step τ) : q.Tracks (s :: h) := by
  by_cases hhanded : (q.after h).handed s = []
  · have hafter : q.after (s :: h) = s.ends.foldl (fun q path => q.add s.time path) (q.after h) :=
      apply_of_handed_eq_nil hhanded
    have hwaiting : q.waiting (s :: h) = s.paths ++ q.waiting h := if_pos hhanded
    refine ⟨?_, ?_, fun x => ?_, fun p hp => ?_, fun hne => ?_⟩
    · rw [hafter, debounce_foldl_add, ht.debounce]
    · rw [hafter, lastChange_foldl_add, lastTime?, ht.lastChange, Step.paths_eq]
      split <;> rfl
    · rw [hafter, mem_pending_foldl_add, ht.pending, hwaiting, Step.paths_eq]
      simp only [List.mem_append, or_and_right, exists_or, or_comm]
    · rw [hwaiting, List.mem_append] at hp
      rcases hp with hp | hp
      · obtain ⟨path, -, rfl⟩ := List.mem_map.mp (List.mem_filter.mp hp).1
        exact Path.ofString_toString (Path.plain_ofString path)
      · exact ht.read p hp
    · rw [lastTime?]
      split
      · rename_i hpaths
        rw [hwaiting, hpaths, List.nil_append] at hne
        exact ht.timed hne
      · rfl
  · obtain ⟨hends, happly, -⟩ := apply_of_handed_ne_nil hhanded
    have hafter : q.after (s :: h) = { q.after h with pending := .empty } := happly
    have hwaiting : q.waiting (s :: h) = [] := if_neg hhanded
    have hpaths : s.paths = [] := by rw [Step.paths, hends]; rfl
    refine ⟨?_, ?_, fun x => ?_, fun p hp => ?_, fun hne => absurd hwaiting hne⟩
    · rw [hafter]
      exact ht.debounce
    · rw [hafter, lastTime?, if_pos hpaths]
      exact ht.lastChange
    · rw [hafter, hwaiting]
      simp
    · rw [hwaiting] at hp
      cases hp

theorem tracks_start (debounce now : τ) (h : List (Step τ)) : (start debounce now).Tracks h := by
  induction h with
  | nil =>
    refine ⟨rfl, rfl, fun x => ?_, fun p hp => ?_, fun hne => absurd rfl hne⟩
    · simp [after, waiting, start]
    · cases hp
  | cons s h ih => exact ih.step s

namespace Tracks

theorem isEmpty_pending_iff (ht : q.Tracks h) : (q.after h).pending.isEmpty = true ↔ q.waiting h = [] := by
  rw [IdSet.isEmpty_iff]
  constructor
  · intro hnone
    refine List.eq_nil_iff_forall_not_mem.mpr fun p hp => ?_
    exact hnone p.toString ((ht.pending _).mpr ⟨p, hp, rfl⟩)
  · intro hnil x hx
    obtain ⟨p, hp, -⟩ := (ht.pending x).mp hx
    rw [hnil] at hp
    cases hp

/-- A flush hands over what has been waiting. -/
theorem mem_batch_iff (ht : q.Tracks h) {p : Path} : p ∈ (q.after h).batch ↔ p ∈ q.waiting h := by
  rw [mem_batch]
  constructor
  · rintro ⟨x, hx, rfl⟩
    obtain ⟨p, hp, rfl⟩ := (ht.pending x).mp hx
    rwa [ht.read p hp]
  · intro hp
    exact ⟨p.toString, (ht.pending _).mpr ⟨p, hp, rfl⟩, ht.read p hp⟩

theorem refuses_iff (ht : q.Tracks h) {now : τ} {busy : Bool} : (q.after h).Refuses now busy ↔
    q.waiting h = [] ∨ (∃ t, lastTime? h = some t ∧ now - t < q.debounce) ∨ busy = true := by
  rw [Refuses, ht.isEmpty_pending_iff, ht.debounce, ht.lastChange]
  by_cases hnil : q.waiting h = []
  · simp [hnil]
  · obtain ⟨t, htime⟩ := Option.isSome_iff_exists.mp (ht.timed hnil)
    simp [htime]

end Tracks

/-- What has come in is still waiting or has been handed over since. -/
theorem mem_waiting_or_handedOver (hall : ∀ h, q.Tracks h) {s : Step τ} {p : Path} (hp : p ∈ s.paths)
    (later earlier : List (Step τ)) :
    p ∈ q.waiting (later ++ s :: earlier) ∨ q.HandedOver p (s :: earlier) later := by
  induction later with
  | nil =>
    by_cases hhanded : (q.after earlier).handed s = []
    · refine .inl ?_
      rw [List.nil_append, waiting, if_pos hhanded]
      exact List.mem_append_left _ hp
    · -- a step that hands something over brings nothing
      rw [Step.paths, (apply_of_handed_ne_nil hhanded).1] at hp
      cases hp
  | cons s' later ih =>
    rcases ih with hwaiting | hover
    · by_cases hhanded : (q.after (later ++ s :: earlier)).handed s' = []
      · refine .inl ?_
        rw [List.cons_append, waiting, if_pos hhanded]
        exact List.mem_append_right _ hwaiting
      · refine .inr (.inl ?_)
        rw [(apply_of_handed_ne_nil hhanded).2.2]
        exact (hall _).mem_batch_iff.mpr hwaiting
    · exact .inr (.inr hover)

/-- What can be relied on at the end of a history, with a flush that may come next. -/
structure Reliable (q : ChangeQueue τ) (h : List (Step τ)) : Prop where
  kept : ∀ later s earlier, h = later ++ s :: earlier → ∀ p ∈ s.paths,
    p.toString ∈ (q.after h).pending ∨ q.HandedOver p (s :: earlier) later
  pending : ∀ x, x ∈ (q.after h).pending ↔ ∃ p ∈ q.waiting h, x = p.toString
  refused : ∀ now busy, ((q.after h).flush now busy).2 = [] ↔
    q.waiting h = [] ∨ (∃ t, lastTime? h = some t ∧ now - t < q.debounce) ∨ busy = true
  sorted : ∀ now busy, ((q.after h).flush now busy).2.Pairwise fun p p' => pathKey p < pathKey p'
  batch : ∀ now busy, ((q.after h).flush now busy).2 ≠ [] →
    ∀ p, p ∈ ((q.after h).flush now busy).2 ↔ p ∈ q.waiting h

/-- A queue loses nothing, for any times of changes and flushes, in any order and with any answers on
whether a pass is going on: every accepted path is pending or has been handed over since it came. A flush
hands nothing over if nothing is waiting, if it comes too soon after the last accepted path or if a pass
is going on; otherwise it hands over just the accepted paths since the last batch, in strict order. -/
theorem reliable_start (debounce now : τ) (h : List (Step τ)) : (start debounce now).Reliable h := by
  have hall := tracks_start debounce now
  refine ⟨fun later s earlier heq p hp => ?_, (hall h).pending, fun now' busy => ?_, fun now' busy => ?_,
    fun now' busy hne p => ?_⟩
  · subst heq
    rcases mem_waiting_or_handedOver hall hp later earlier with hwaiting | hover
    · exact .inl (((hall _).pending _).mpr ⟨p, hwaiting, rfl⟩)
    · exact .inr hover
  · rw [handed_flush_eq_nil_iff, (hall h).refuses_iff]
  · by_cases hrefuses : ((start debounce now).after h).Refuses now' busy
    · rw [flush_of_refuses hrefuses]
      exact .nil
    · rw [flush_of_not_refuses hrefuses]
      refine pairwise_batch fun x hx => ?_
      obtain ⟨p, hp, rfl⟩ := ((hall h).pending x).mp hx
      rw [(hall h).read p hp]
  · rw [flush_of_not_refuses (handed_flush_eq_nil_iff.not.mp hne)]
    exact (hall h).mem_batch_iff

end Histories

end ChangeQueue

end OutlineIndex
