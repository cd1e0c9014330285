import Mathlib.Data.List.Sort
import OutlineIndex.Proofs.Enclosure
import OutlineIndex.Proofs.Positions

namespace OutlineIndex.Skeleton

/-- The patches come one after the other, from `start` up to `stop`. -/
def InOrder (start stop : Nat) : List Patch → Prop
  | [] => start ≤ stop
  | p :: ps => start ≤ p.start ∧ p.start ≤ p.stop ∧ InOrder p.stop stop ps

/-- The text from `start` up to `stop` with patches in the order of the text, all between them kept. -/
def patched (text : List Char) (start stop : Nat) : List Patch → List Char
  | [] => cut text start stop
  | p :: ps => cut text start p.start ++ p.text ++ patched text p.stop stop ps

/-- The patch as far as a text that ends at `b`. -/
def Patch.clip (p : Patch) (b : Nat) : Patch := ⟨min p.start b, min p.stop b, p.text⟩

section Patched

variable {text text' : List Char} {ps : List Patch} {p : Patch} {a b i j : Nat}

theorem patched_concat (text : List Char) (a b : Nat) (ps : List Patch) (p : Patch) :
    patched text a b (ps ++ [p]) = patched text a p.start ps ++ p.text ++ cut text p.stop b := by
  induction ps generalizing a with
  | nil => rfl
  | cons q ps ih =>
    rw [List.cons_append, patched, patched, ih]
    simp only [List.append_assoc]

theorem inOrder_concat :
    InOrder a b (ps ++ [p]) ↔ InOrder a p.start ps ∧ p.start ≤ p.stop ∧ p.stop ≤ b := by
  induction ps generalizing a with
  | nil => rfl
  | cons q ps ih => simp only [List.cons_append, InOrder, ih, and_assoc]

theorem InOrder.le (h : InOrder a b ps) : a ≤ b := by
  induction ps generalizing a with
  | nil => exact h
  | cons p ps ih =>
    obtain ⟨hstart, hstop, hrest⟩ := h
    have hle := ih hrest
    omega

theorem InOrder.le_start (h : InOrder a b ps) (hp : p ∈ ps) : a ≤ p.start := by
  induction ps generalizing a with
  | nil => cases hp
  | cons q ps ih =>
    obtain ⟨hstart, hstop, hrest⟩ := h
    rcases List.mem_cons.mp hp with rfl | hp
    · exact hstart
    · have hle := ih hrest hp
      omega

theorem InOrder.pairwise (h : InOrder a b ps) (hps : ∀ p ∈ ps, p.start < p.stop) :
    ps.Pairwise fun p q => p.start < q.start := by
  induction ps generalizing a with
  | nil => exact .nil
  | cons p ps ih =>
    obtain ⟨-, -, hrest⟩ := h
    refine .cons (fun q hq => ?_) (ih hrest fun q hq => hps q (by simp [hq]))
    exact Nat.lt_of_lt_of_le (hps p (by simp)) (hrest.le_start hq)

theorem cut_congr (h : text.take b = text'.take b) (hi : i ≤ b) : cut text a i = cut text' a i := by
  have htake : text.take i = text'.take i := by
    rw [← Nat.min_eq_left hi, ← List.take_take, h, List.take_take]
  rw [cut, cut, ← List.drop_take, ← List.drop_take, htake]

/-- What lies behind the patches has no part in them. -/
theorem patched_congr (h : text.take b = text'.take b) (hps : InOrder a b ps) :
    patched text a b ps = patched text' a b ps := by
  induction ps generalizing a with
  | nil => exact cut_congr h (Nat.le_refl b)
  | cons p ps ih =>
    obtain ⟨-, hstop, hrest⟩ := hps
    have hle := hrest.le
    rw [patched, patched, ih hrest, cut_congr h (by omega)]

theorem cut_cut (ha : a ≤ i) (hj : j ≤ b) : cut (cut text a b) (i - a) (j - a) = cut text i j := by
  rw [cut, cut, cut, List.drop_take, List.take_take, List.drop_drop]
  congr 1
  · omega
  · congr 1
    omega

theorem patched_shift (ha : a ≤ i) (h : InOrder i b ps) :
    patched (cut text a b) (i - a) (b - a) (ps.map (·.shift a)) = patched text i b ps := by
  induction ps generalizing i with
  | nil => exact cut_cut ha (Nat.le_refl b)
  | cons p ps ih =>
    obtain ⟨hstart, hstop, hrest⟩ := h
    have hle := hrest.le
    rw [List.map_cons, patched, patched]
    simp only [Patch.shift]
    rw [cut_cut ha (by omega), ← ih (by omega) hrest]
    rfl

theorem inOrder_of_shift (ha : a ≤ i) (hb : a ≤ b) (hps : ∀ p ∈ ps, a ≤ p.start ∧ a ≤ p.stop)
    (h : InOrder (i - a) (b - a) (ps.map (·.shift a))) : InOrder i b ps := by
  induction ps generalizing i with
  | nil =>
    have hle : i - a ≤ b - a := h
    exact (by omega : i ≤ b)
  | cons p ps ih =>
    obtain ⟨hstart, hstop, hrest⟩ := h
    obtain ⟨hpstart, hpstop⟩ := hps p (by simp)
    simp only [Patch.shift] at hstart hstop
    exact ⟨by omega, by omega, ih hpstop (fun q hq => hps q (by simp [hq])) hrest⟩

end Patched

section Chosen

variable {α : Type}

/-- Those whose patches are put in, when they come from the last to the first. -/
def chosen (f : α → Patch) : Nat → List α → List α
  | _, [] => []
  | bound, x :: xs => if bound < (f x).stop then chosen f bound xs else x :: chosen f (f x).start xs

variable {f : α → Patch} {xs : List α} {b bound : Nat}

theorem chosen_sublist : (chosen f bound xs).Sublist xs := by
  induction xs generalizing bound with
  | nil => exact .slnil
  | cons x xs ih =>
    rw [chosen]
    split
    · exact ih.cons x
    · exact ih.cons_cons x

theorem inOrder_chosen (hle : ∀ x ∈ xs, (f x).start ≤ (f x).stop)
    (hb : ∀ x ∈ xs, (f x).stop ≤ bound → (f x).stop ≤ b) :
    InOrder 0 b ((chosen f bound xs).reverse.map f) := by
  induction xs generalizing b bound with
  | nil => exact Nat.zero_le b
  | cons x xs ih =>
    have hle' : ∀ y ∈ xs, (f y).start ≤ (f y).stop := fun y hy => hle y (by simp [hy])
    rw [chosen]
    split
    · exact ih hle' fun y hy => hb y (by simp [hy])
    · rw [List.reverse_cons, List.map_append]
      exact inOrder_concat.mpr ⟨ih hle' fun _ _ => id, hle x (by simp), hb x (by simp) (by omega)⟩

theorem applyPatches_map (hle : ∀ x ∈ xs, (f x).start ≤ (f x).stop)
    (hb : ∀ x ∈ xs, (f x).stop ≤ bound → (f x).stop ≤ b) {text : List Char} (hlength : b ≤ text.length) :
    applyPatches text bound (xs.map f) =
      patched text 0 b ((chosen f bound xs).reverse.map f) ++ text.drop b := by
  induction xs generalizing text b bound with
  | nil =>
    change text = cut text 0 b ++ text.drop b
    rw [cut, List.drop_zero, Nat.sub_zero, List.take_append_drop]
  | cons x xs ih =>
    have hle' : ∀ y ∈ xs, (f y).start ≤ (f y).stop := fun y hy => hle y (by simp [hy])
    rw [List.map_cons, applyPatches, chosen]
    split
    · exact ih hle' (fun y hy => hb y (by simp [hy])) hlength
    · have hstart := hle x (by simp)
      have hstop := hb x (by simp) (by omega)
      have hwidth : (text.take (f x).start).length = (f x).start := by
        rw [List.length_take]
        omega
      -- the text changes only behind the patches that are still to come
      have hbefore : (text.take (f x).start ++ (f x).text ++ text.drop (f x).stop).take (f x).start =
          text.take (f x).start := by
        rw [List.append_assoc, List.take_append_of_le_length (by omega), List.take_of_length_le (by omega)]
      have hbehind : (text.take (f x).start ++ (f x).text ++ text.drop (f x).stop).drop (f x).start =
          (f x).text ++ text.drop (f x).stop := by
        rw [List.append_assoc, List.drop_append_of_le_length (by omega), List.drop_of_length_le (by omega),
          List.nil_append]
      have hrest : text.drop (f x).stop = cut text (f x).stop b ++ text.drop b := by
        rw [cut, ← List.drop_take, ← List.drop_append_of_le_length, List.take_append_drop]
        rw [List.length_take]
        omega
      rw [ih hle' (fun _ _ => id) (by simp; omega), hbehind,
        patched_congr hbefore (inOrder_chosen hle' fun _ _ => id), hrest, List.reverse_cons, List.map_append,
        List.map_singleton, patched_concat]
      simp only [List.append_assoc]

/-- What is left out reaches past the start of something that is put in and that it does not start
after. -/
theorem exists_of_not_mem_chosen (hdesc : xs.Pairwise fun x y => (f y).start ≤ (f x).start) {x : α}
    (hx : x ∈ xs) (hnot : x ∉ chosen f bound xs) : bound < (f x).stop ∨
      ∃ y ∈ chosen f bound xs, (f x).start ≤ (f y).start ∧ (f y).start < (f x).stop := by
  induction xs generalizing bound with
  | nil => cases hx
  | cons y xs ih =>
    obtain ⟨hfirst, hrest⟩ := List.pairwise_cons.mp hdesc
    rw [chosen] at hnot ⊢
    split at hnot
    · rename_i hskip
      rw [if_pos hskip]
      rcases List.mem_cons.mp hx with rfl | hx
      · exact .inl hskip
      · exact ih hrest hx hnot
    · rename_i hkeep
      rw [if_neg hkeep]
      rw [List.mem_cons, not_or] at hnot
      obtain ⟨hne, hnot⟩ := hnot
      have hx := (List.mem_cons.mp hx).resolve_left hne
      rcases ih hrest hx hnot with hpast | ⟨z, hz, hle, hlt⟩
      · exact .inr ⟨y, by simp, hfirst x hx, hpast⟩
      · exact .inr ⟨z, by simp [hz], hle, hlt⟩

/-- The patches in descending order are those of a list in descending order. -/
theorem exists_descending_eq (f : α → Patch) (xs : List α) : ∃ ys : List α, ys.Perm xs ∧
    descending (xs.map f) = ys.map f ∧ ys.Pairwise fun x y => (f y).start ≤ (f x).start := by
  have hmap : descending (xs.map f) = (xs.mergeSort fun x y => (f y).start ≤ (f x).start).map f := by
    rw [descending, List.map_mergeSort]
    intro x _ y _
    rfl
  have hsorted := sorted_descending (xs.map f)
  rw [hmap, List.pairwise_map] at hsorted
  exact ⟨_, List.mergeSort_perm _ _, hmap, hsorted⟩

/-- Patches of a text in any order are put in, but for those that reach past the start of one that is put
in and that they do not start after. -/
theorem exists_applyPatches_descending {raw : List Char} (hle : ∀ x ∈ xs, (f x).start ≤ (f x).stop)
    (hstop : ∀ x ∈ xs, (f x).stop ≤ raw.length) : ∃ kept : List α, kept.Subperm xs ∧
      InOrder 0 raw.length (kept.map f) ∧
      applyPatches raw (raw.length + 1) (descending (xs.map f)) = patched raw 0 raw.length (kept.map f) ∧
      ∀ x ∈ xs, x ∉ kept → ∃ y ∈ kept, (f x).start ≤ (f y).start ∧ (f y).start < (f x).stop := by
  obtain ⟨ys, hperm, hdescending, hsorted⟩ := exists_descending_eq f xs
  have hle' : ∀ x ∈ ys, (f x).start ≤ (f x).stop := fun x hx => hle x (hperm.mem_iff.mp hx)
  have hstop' : ∀ x ∈ ys, (f x).stop ≤ raw.length := fun x hx => hstop x (hperm.mem_iff.mp hx)
  refine ⟨(chosen f (raw.length + 1) ys).reverse, ?_, ?_, ?_, fun x hx hnot => ?_⟩
  · exact ((List.reverse_perm _).subperm).trans (chosen_sublist.subperm.trans hperm.subperm)
  · exact inOrder_chosen hle' fun x hx _ => hstop' x hx
  · rw [hdescending, applyPatches_map hle' (fun x hx _ => hstop' x hx) (Nat.le_refl _), List.drop_length,
      List.append_nil]
  · have hx := hperm.mem_iff.mpr hx
    rw [List.mem_reverse] at hnot
    rcases exists_of_not_mem_chosen hsorted hx hnot with hpast | ⟨y, hy, hoverlap⟩
    · have hbounds := hstop' x hx
      omega
    · exact ⟨y, List.mem_reverse.mpr hy, hoverlap⟩

end Chosen

section Wanted

variable {childIds : List String} {completed : List Completed} {c : Completed}

/-- The completed children by their ids. -/
def wantedTable (childIds : List String) (completed : List Completed) : Table Completed :=
  .ofList ((completed.filter fun c => childIds.contains c.node.id).map fun c => (c.node.id, c))

theorem find?_wantedTable {id : String} (h : (wantedTable childIds completed).find? id = some c) :
    c ∈ completed ∧ c.node.id ∈ childIds ∧ c.node.id = id := by
  rw [wantedTable, Table.ofList] at h
  rcases Table.find?_foldl_put_cases h with ⟨e, he, hkey, hval⟩ | ⟨hempty, -⟩
  · obtain ⟨d, hd, rfl⟩ := List.mem_map.mp he
    obtain ⟨hmem, hid⟩ := List.mem_filter.mp hd
    dsimp only at hkey hval
    subst hval
    exact ⟨hmem, List.contains_iff_mem.mp hid, hkey⟩
  · simp at hempty

theorem mem_of_mem_wanted (h : c ∈ wanted childIds completed) : c ∈ completed ∧ c.node.id ∈ childIds := by
  obtain ⟨id, hid⟩ := Table.mem_values_iff.mp h
  obtain ⟨hmem, hchild, -⟩ := find?_wantedTable hid
  exact ⟨hmem, hchild⟩

/-- Each child that is completed is wanted, with one of its skeletons. -/
theorem exists_mem_wanted (hc : c ∈ completed) (hid : c.node.id ∈ childIds) :
    ∃ d ∈ wanted childIds completed, d.node.id = c.node.id := by
  have hsome : ((wantedTable childIds completed).find? c.node.id).isSome := by
    refine Table.isSome_find?_foldl_put (.inl ⟨(c.node.id, c), List.mem_map.mpr ⟨c, ?_, rfl⟩, rfl⟩)
    exact List.mem_filter.mpr ⟨hc, List.contains_iff_mem.mpr hid⟩
  obtain ⟨d, hd⟩ := Option.isSome_iff_exists.mp hsome
  exact ⟨d, Table.mem_values_iff.mpr ⟨_, hd⟩, (find?_wantedTable hd).2.2⟩

theorem nodup_wanted : ((wanted childIds completed).map (·.node.id)).Nodup := by
  have hkeys : (wanted childIds completed).map (·.node.id) = (wantedTable childIds completed).keys := by
    rw [wanted, Table.values, Table.keys, List.map_map]
    refine List.map_congr_left fun e he => ?_
    exact (find?_wantedTable (Table.find?_eq_some_iff.mpr he)).2.2
  rw [hkeys]
  exact Table.distinct _

end Wanted

/-- The part of a span that a node takes up, with its skeleton: what lies behind the span is cut off. -/
def Completed.patchIn (text : List Char) (span : Span) (c : Completed) : Patch :=
  (c.patch text).clip (offsetAt text span.stop)

/-- What is completed under the id of a child is this child, with one skeleton. -/
structure Consistent (children : List Node) (completed : List Completed) : Prop where
  node : ∀ c ∈ completed, c.node.id ∈ children.map (·.id) → c.node ∈ children
  once : ∀ c ∈ completed, ∀ d ∈ completed, c.node = d.node → c.node ∈ children → c = d

/-- The text of a span with patches in the order of the text. -/
structure IsReplacement (text : List Char) (span : Span) (ps : List Patch) (result : List Char) : Prop where
  inOrder : InOrder (offsetAt text span.start) (offsetAt text span.stop) ps
  result : result = patched text (offsetAt text span.start) (offsetAt text span.stop) ps

section Splice

variable {text : List Char} {span : Span} {children : List Node} {completed : List Completed}

theorem Consistent.mem_wanted_iff (h : Consistent children completed) (hids : (children.map (·.id)).Nodup)
    {c : Completed} :
    c ∈ wanted (children.map (·.id)) completed ↔ c ∈ completed ∧ c.node ∈ children := by
  constructor
  · intro hc
    obtain ⟨hmem, hid⟩ := mem_of_mem_wanted hc
    exact ⟨hmem, h.node c hmem hid⟩
  · intro ⟨hmem, hchild⟩
    obtain ⟨d, hd, hid⟩ := exists_mem_wanted hmem (List.mem_map_of_mem (f := (·.id)) hchild)
    obtain ⟨hdmem, hdid⟩ := mem_of_mem_wanted hd
    have hnode := List.inj_on_of_nodup_map hids hchild (h.node d hdmem hdid) hid.symm
    rwa [h.once c hmem d hdmem hnode hchild]

/-- A child that starts in a node, as a patch of the text of the node. -/
theorem patchOf_eq_patchIn {c : Completed} (hspan : span.start.IsIn text)
    (hstart : ¬c.node.span.start.Precedes span.start) (hstop : ¬c.node.span.stop.Precedes c.node.span.start) :
    patchOf (slice text span) span.start c =
      (c.patchIn text span).shift (offsetAt text span.start) := by
  have hbehind : ¬c.node.span.stop.Precedes span.start := by
    unfold Position.Precedes at *
    omega
  rw [patchOf, slice, offsetAt_rebase hspan hstart, offsetAt_rebase hspan hbehind]
  rfl

/-- Of a child that ends in a node nothing is cut off. -/
theorem Completed.patchIn_eq {c : Completed} (hstop : ¬c.node.span.stop.Precedes c.node.span.start)
    (hinside : ¬span.stop.Precedes c.node.span.stop) : c.patchIn text span = c.patch text := by
  have hle : (c.patch text).stop ≤ offsetAt text span.stop := offsetAt_mono hinside
  have hstart : (c.patch text).start ≤ (c.patch text).stop := offsetAt_mono hstop
  rw [Completed.patchIn, Patch.clip, Nat.min_eq_left hle, Nat.min_eq_left (Nat.le_trans hstart hle)]

theorem length_slice (h : offsetAt text span.start ≤ offsetAt text span.stop) :
    (slice text span).length = offsetAt text span.stop - offsetAt text span.start := by
  have hle := offsetAt_le text span.stop
  rw [slice, cut, List.length_take, List.length_drop]
  omega

/-- Patches of the text of a span, counted from where it starts. -/
theorem isReplacement_of_shift {ps : List Patch} (hle : offsetAt text span.start ≤ offsetAt text span.stop)
    (hps : ∀ p ∈ ps, offsetAt text span.start ≤ p.start ∧ offsetAt text span.start ≤ p.stop)
    (h : InOrder 0 (slice text span).length (ps.map (·.shift (offsetAt text span.start)))) :
    IsReplacement text span ps (patched (slice text span) 0 (slice text span).length
      (ps.map (·.shift (offsetAt text span.start)))) := by
  rw [length_slice hle] at h ⊢
  have hwhole := inOrder_of_shift (Nat.le_refl _) hle hps (by rwa [Nat.sub_self])
  have hpatched : patched (slice text span) (offsetAt text span.start - offsetAt text span.start) _ _ = _ :=
    patched_shift (Nat.le_refl _) hwhole
  rw [Nat.sub_self] at hpatched
  exact ⟨hwhole, hpatched⟩

/-- Children that start in a node are put in, but for those that reach past the start of one that is put
in. -/
theorem exists_isReplacement (hspan : span.start.IsIn text) (horder : ¬span.stop.Precedes span.start)
    {cs : List Completed} (hcs : ∀ c ∈ cs, ¬c.node.span.start.Precedes span.start ∧
      ¬c.node.span.stop.Precedes c.node.span.start) :
    ∃ kept : List Completed, kept.Subperm cs ∧
      IsReplacement text span (kept.map (·.patchIn text span))
        (applyPatches (slice text span) ((slice text span).length + 1)
          (descending (cs.map (patchOf (slice text span) span.start)))) ∧
      ∀ c ∈ cs, c ∉ kept → ∃ d ∈ kept,
        (c.patch text).start ≤ (d.patch text).start ∧ (d.patch text).start < (c.patch text).stop := by
  have hle : offsetAt text span.start ≤ offsetAt text span.stop := offsetAt_mono horder
  have hoffsets : ∀ c ∈ cs, offsetAt text span.start ≤ (c.patch text).start ∧
      (c.patch text).start ≤ (c.patch text).stop :=
    fun c hc => ⟨offsetAt_mono (hcs c hc).1, offsetAt_mono (hcs c hc).2⟩
  have hpatches : cs.map (patchOf (slice text span) span.start) =
      cs.map fun c => (c.patchIn text span).shift (offsetAt text span.start) :=
    List.map_congr_left fun c hc => patchOf_eq_patchIn hspan (hcs c hc).1 (hcs c hc).2
  have hranges : ∀ c ∈ cs,
      ((c.patchIn text span).shift (offsetAt text span.start)).start ≤
        ((c.patchIn text span).shift (offsetAt text span.start)).stop ∧
      ((c.patchIn text span).shift (offsetAt text span.start)).stop ≤ (slice text span).length := by
    intro c hc
    have hbounds := hoffsets c hc
    rw [length_slice hle]
    simp only [Completed.patchIn, Patch.shift, Patch.clip]
    omega
  obtain ⟨kept, hsub, hinOrder, htext, hleft⟩ :=
    exists_applyPatches_descending (fun c hc => (hranges c hc).1) fun c hc => (hranges c hc).2
  have hmap : kept.map (fun c => (c.patchIn text span).shift (offsetAt text span.start)) =
      (kept.map (·.patchIn text span)).map (·.shift (offsetAt text span.start)) := by
    rw [List.map_map]
    rfl
  refine ⟨kept, hsub, ?_, fun c hc hnot => ?_⟩
  · rw [hpatches, htext, hmap]
    refine isReplacement_of_shift hle (fun p hp => ?_) (hmap ▸ hinOrder)
    obtain ⟨c, hc, rfl⟩ := List.mem_map.mp hp
    have hbounds := hoffsets c (hsub.subset hc)
    simp only [Completed.patchIn, Patch.clip]
    omega
  · obtain ⟨d, hd, hstarts, hpast⟩ := hleft c hc hnot
    have hbounds := hoffsets d (hsub.subset hd)
    refine ⟨d, hd, ?_⟩
    simp only [Completed.patchIn, Patch.shift, Patch.clip] at hstarts hpast
    omega

/-- Some of the children that are completed are put in; what is left out reaches past the start of one of
them. -/
theorem Consistent.exists_kept (h : Consistent children completed) (hspan : span.start.IsIn text)
    (horder : ¬span.stop.Precedes span.start) (hids : (children.map (·.id)).Nodup)
    (hchildren : ∀ n ∈ children, ¬n.span.start.Precedes span.start ∧ ¬n.span.stop.Precedes n.span.start) :
    ∃ kept : List Completed, (kept.map (·.node.id)).Nodup ∧ (∀ c ∈ kept, c ∈ completed ∧ c.node ∈ children) ∧
      IsReplacement text span (kept.map (·.patchIn text span))
        (splice span (slice text span) (children.map (·.id)) completed) ∧
      ∀ c ∈ completed, c.node ∈ children → c ∉ kept → ∃ d ∈ kept,
        (c.patch text).start ≤ (d.patch text).start ∧ (d.patch text).start < (c.patch text).stop := by
  have hmem : ∀ c, c ∈ wanted (children.map (·.id)) completed ↔ c ∈ completed ∧ c.node ∈ children :=
    fun _ => h.mem_wanted_iff hids
  obtain ⟨kept, hsub, hreplacement, hleft⟩ := exists_isReplacement hspan horder
    fun c hc => hchildren c.node ((hmem c).mp hc).2
  refine ⟨kept, ?_, fun c hc => (hmem c).mp (hsub.subset hc), hreplacement,
    fun c hc hchild => hleft c ((hmem c).mpr ⟨hc, hchild⟩)⟩
  obtain ⟨l, hperm, hsublist⟩ := hsub
  exact (hperm.map _).nodup_iff.mp (nodup_wanted.sublist (hsublist.map _))

/-- Children in a span that are not empty and do not overlap. -/
structure SideBySide (text : List Char) (span : Span) (children : List Node) : Prop where
  inBounds : ∀ n ∈ children, n.span.start.InBounds text ∧ n.span.stop.InBounds text
  nonempty : ∀ n ∈ children, n.span.start.Precedes n.span.stop
  inside : ∀ n ∈ children, span.Contains n.span
  apart : children.Pairwise fun m n => m.span.Apart n.span

namespace SideBySide

variable {c d : Completed}

theorem start_lt_stop (h : SideBySide text span children) (hc : c.node ∈ children) :
    (c.patch text).start < (c.patch text).stop :=
  have hin := h.inBounds c.node hc
  (hin.1.isIn.precedes_iff hin.2.isIn).mp (h.nonempty c.node hc)

/-- No child reaches past the start of another that it does not start after. -/
theorem eq_of_overlap (h : SideBySide text span children) (hc : c.node ∈ children) (hd : d.node ∈ children)
    (hle : (c.patch text).start ≤ (d.patch text).start) (hlt : (d.patch text).start < (c.patch text).stop) :
    c.node = d.node := by
  by_contra hne
  have hsymm : Std.Symm fun m n : Node => m.span.Apart n.span := ⟨fun _ _ => Or.symm⟩
  have hd' := h.start_lt_stop hd
  rcases h.apart.forall hc hd hne with hapart | hapart
  · have hstop : (c.patch text).stop ≤ (d.patch text).start := offsetAt_mono hapart
    omega
  · have hstop : (d.patch text).stop ≤ (c.patch text).start := offsetAt_mono hapart
    omega

end SideBySide

/-- Children side by side are all put in, in the order of the text. -/
theorem Consistent.exists_all (h : Consistent children completed) (hspan : span.start.IsIn text)
    (horder : ¬span.stop.Precedes span.start) (hids : (children.map (·.id)).Nodup)
    (hside : SideBySide text span children) :
    ∃ kept : List Completed, (kept.Pairwise fun c d => (c.patch text).start < (d.patch text).start) ∧
      (∀ c, c ∈ kept ↔ c ∈ completed ∧ c.node ∈ children) ∧
      IsReplacement text span (kept.map (·.patch text))
        (splice span (slice text span) (children.map (·.id)) completed) := by
  have hchildren : ∀ n ∈ children,
      ¬n.span.start.Precedes span.start ∧ ¬n.span.stop.Precedes n.span.start := by
    intro n hn
    have hnonempty := hside.nonempty n hn
    refine ⟨(hside.inside n hn).1, ?_⟩
    unfold Position.Precedes at *
    omega
  obtain ⟨kept, -, hmem, hreplacement, hleft⟩ := h.exists_kept hspan horder hids hchildren
  have hmap : kept.map (·.patchIn text span) = kept.map (·.patch text) :=
    List.map_congr_left fun c hc =>
      have hchild := (hmem c hc).2
      Completed.patchIn_eq (hchildren c.node hchild).2 (hside.inside c.node hchild).2
  rw [hmap] at hreplacement
  refine ⟨kept, ?_, fun c => ⟨hmem c, fun ⟨hc, hchild⟩ => ?_⟩, hreplacement⟩
  · have hpairwise := hreplacement.inOrder.pairwise fun p hp => by
      obtain ⟨c, hc, rfl⟩ := List.mem_map.mp hp
      exact hside.start_lt_stop (hmem c hc).2
    rwa [List.pairwise_map] at hpairwise
  · by_contra hnot
    obtain ⟨d, hd, hle, hlt⟩ := hleft c hc hchild hnot
    obtain ⟨hdmem, hdchild⟩ := hmem d hd
    have hnode := hside.eq_of_overlap hchild hdchild hle hlt
    exact hnot (h.once c hc d hdmem hnode hchild ▸ hd)

/-- The text of a node with the skeletons of its children put in is the text of its span in which some of
the children are replaced by their skeletons, all else being kept; a child that is completed and left out
reaches past the start of one that is replaced. Of children side by side none is left out, whatever else
is completed and in whatever order. -/
theorem splice_isReplacement (hspan : span.start.InBounds text) (horder : ¬span.stop.Precedes span.start)
    (hids : (children.map (·.id)).Nodup) (hcompleted : Consistent children completed)
    (hchildren : ∀ n ∈ children, ¬n.span.start.Precedes span.start ∧ ¬n.span.stop.Precedes n.span.start) :
    (∃ kept : List Completed, (kept.map (·.node.id)).Nodup ∧
      (∀ c ∈ kept, c ∈ completed ∧ c.node ∈ children ∧
        (¬span.stop.Precedes c.node.span.stop → c.patchIn text span = c.patch text)) ∧
      IsReplacement text span (kept.map (·.patchIn text span))
        (splice span (slice text span) (children.map (·.id)) completed) ∧
      ∀ c ∈ completed, c.node ∈ children → c ∉ kept → ∃ d ∈ kept,
        (c.patch text).start ≤ (d.patch text).start ∧ (d.patch text).start < (c.patch text).stop) ∧
    (SideBySide text span children → ∃ kept : List Completed,
      (∀ c, c ∈ kept ↔ c ∈ completed ∧ c.node ∈ children) ∧
      ∀ completed', Consistent children completed' →
        (∀ c, c.node ∈ children → (c ∈ completed' ↔ c ∈ completed)) →
        IsReplacement text span (kept.map (·.patch text))
          (splice span (slice text span) (children.map (·.id)) completed')) := by
  obtain ⟨part, hnodup, hpart, hreplaced, hleft⟩ := hcompleted.exists_kept hspan.isIn horder hids hchildren
  refine ⟨⟨part, hnodup, fun c hc => ?_, hreplaced, hleft⟩, fun hside => ?_⟩
  · obtain ⟨hc, hchild⟩ := hpart c hc
    exact ⟨hc, hchild, Completed.patchIn_eq (hchildren c.node hchild).2⟩
  obtain ⟨kept, hsorted, hmem, -⟩ := hcompleted.exists_all hspan.isIn horder hids hside
  refine ⟨kept, hmem, fun completed' hcompleted' hsame => ?_⟩
  obtain ⟨kept', hsorted', hmem', hreplacement⟩ := hcompleted'.exists_all hspan.isIn horder hids hside
  have hkept : kept' = kept := by
    have hirrefl : Std.Irrefl fun c d : Completed => (c.patch text).start < (d.patch text).start :=
      ⟨fun _ => Nat.lt_irrefl _⟩
    have hantisymm : Std.Antisymm fun c d : Completed => (c.patch text).start < (d.patch text).start :=
      ⟨fun _ _ hcd hdc => absurd hcd (Nat.lt_asymm hdc)⟩
    refine hsorted'.eq_of_mem_iff hsorted fun c => ?_
    rw [hmem, hmem']
    exact and_congr_left (hsame c)
  exact hkept ▸ hreplacement

end Splice

section Sample

/-- Two lines, of which a node takes up `(bc,` and `de)`. -/
def sampleText : List Char := "a(bc,\nde)f".toList

def sampleSpan : Span := ⟨⟨0, 1⟩, ⟨1, 3⟩⟩

def sampleNode (id : String) (start stop : Position) : Node := ⟨id, "", ⟨start, stop⟩, none, .function, ""⟩

/-- The children are `bc` and `de`. -/
def sampleChildren : List Node := [sampleNode "de" ⟨1, 0⟩ ⟨1, 2⟩, sampleNode "bc" ⟨0, 2⟩ ⟨0, 4⟩]

def sampleCompleted : List Completed :=
  [⟨sampleNode "f" ⟨1, 3⟩ ⟨1, 4⟩, "x"⟩, ⟨sampleNode "bc" ⟨0, 2⟩ ⟨0, 4⟩, "B\nB"⟩,
    ⟨sampleNode "de" ⟨1, 0⟩ ⟨1, 2⟩, ""⟩]

theorem splice_isReplacement_sample : ∃ kept : List Completed,
    (∀ c, c ∈ kept ↔ c ∈ sampleCompleted ∧ c.node ∈ sampleChildren) ∧
    IsReplacement sampleText sampleSpan (kept.map (·.patch sampleText))
      (splice sampleSpan (slice sampleText sampleSpan) (sampleChildren.map (·.id)) sampleCompleted.reverse) := by
  have hcompleted : Consistent sampleChildren sampleCompleted := ⟨by decide, by decide⟩
  have hreverse : Consistent sampleChildren sampleCompleted.reverse := ⟨by decide, by decide⟩
  have hside : SideBySide sampleText sampleSpan sampleChildren :=
    ⟨by decide, by decide, by decide, by decide⟩
  have hspan : sampleSpan.start.InBounds sampleText := by decide
  obtain ⟨kept, hmem, hall⟩ :=
    (splice_isReplacement hspan (by decide) (by decide) hcompleted (by decide)).2 hside
  exact ⟨kept, hmem, hall _ hreverse fun c _ => List.mem_reverse⟩

end Sample

end OutlineIndex.Skeleton
