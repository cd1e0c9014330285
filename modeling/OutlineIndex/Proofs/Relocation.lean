import OutlineIndex.Proofs.Frontier
import OutlineIndex.Proofs.Persistence

namespace OutlineIndex

theorem Table.pairwise_sorted {α : Type} (t : Table α) : t.sorted.Pairwise fun a b => a.1 ≤ b.1 := by
  have htrans : ∀ a b d : String × α, decide (a.1 ≤ b.1) → decide (b.1 ≤ d.1) → decide (a.1 ≤ d.1) := by
    intro a b d hab hbd
    exact decide_eq_true (String.le_trans (of_decide_eq_true hab) (of_decide_eq_true hbd))
  have htotal : ∀ a b : String × α, (decide (a.1 ≤ b.1) || decide (b.1 ≤ a.1)) = true := by
    intro a b
    simpa using String.le_total a.1 b.1
  exact (List.pairwise_mergeSort htrans htotal t.entries).imp fun h => of_decide_eq_true h

/-- Of the entries whose keys become one, the last is kept. -/
theorem Table.find?_ofList_map {α β : Type} {t : Table α} {key : String → String} {val : α → β}
    {k : String} {v : α} (hk : t.find? k = some v)
    (hlast : ∀ k', (t.find? k').isSome → key k' = key k → k' ≤ k) :
    (Table.ofList (t.sorted.map fun e => (key e.1, val e.2))).find? (key k) = some (val v) := by
  have hperm : t.sorted.Perm t.entries := List.mergeSort_perm _ _
  have hdistinct : (t.sorted.map (·.1)).Nodup := (hperm.map _).nodup_iff.mpr t.distinct
  have hpairs := t.pairwise_sorted
  obtain ⟨l₁, l₂, hsorted⟩ := List.append_of_mem (hperm.mem_iff.mpr (Table.find?_eq_some_iff.mp hk))
  have hlater : ∀ e ∈ l₂, key e.1 ≠ key k := by
    intro e he hkey
    rw [hsorted, List.pairwise_append, List.pairwise_cons] at hpairs
    rw [hsorted, List.map_append, List.map_cons, List.nodup_append, List.nodup_cons] at hdistinct
    have hfind : t.find? e.1 = some e.2 :=
      Table.find?_eq_some_iff.mpr (hperm.mem_iff.mp (by simp [hsorted, he]))
    have hle : e.1 ≤ k := hlast e.1 (by rw [hfind]; rfl) hkey
    have hge : k ≤ e.1 := hpairs.2.1.1 e he
    have hsame : e.1 = k := String.le_antisymm hle hge
    exact hdistinct.2.1.1 (List.mem_map.mpr ⟨e, he, hsame⟩)
  have hnone : l₂.reverse.find? (fun e => key e.1 == key k) = none := by
    refine List.find?_eq_none.mpr fun e he => ?_
    simpa using hlater e (List.mem_reverse.mp he)
  rw [Table.ofList, List.foldl_map, Table.find?_foldl_put, hsorted]
  simp [List.find?_append, hnone]

/-- Without documents only the write of the snapshot can fail. -/
theorem Store.save_nil_eq_ok {s : Store} (h : s.graphFile ≠ .directory) (imports exports : EdgeList)
    (files : Table FileEntry) (incremental : Bool) :
    (s.save [] imports exports files incremental).2 = .ok () := by
  have hwrite : ∀ (s' : Store) (snapshot : Snapshot), s'.graphFile = s.graphFile →
      (s'.writeGraph snapshot).2 = .ok () := by
    intro s' snapshot hs'
    unfold writeGraph
    split
    · rename_i hdirectory
      exact absurd (hs'.symm.trans hdirectory) h
    · rfl
  unfold save saveSteps
  cases incremental with
  | true => exact Results.mapError_eq_ok.mpr (hwrite s _ rfl)
  | false => exact Results.mapError_eq_ok.mpr (hwrite (s.prune files) _ rfl)

namespace Path

theorem commonLength_append (a b : List String) : commonLength a (a ++ b) = a.length := by
  induction a with
  | nil => cases b <;> rfl
  | cons x a ih => simp [commonLength, ih]

/-- Reading the URI of a path gives a path that takes no more room. -/
theorem size_resolve_toPath (cwd : Path) {q path : Path} (hq : q.anchor = .root)
    (h : Uri.toPath (Uri.ofResolved q) = .ok path) :
    size (resolve cwd path).parts ≤ max 1 (size q.parts) := by
  obtain ⟨a, parts⟩ := q
  obtain rfl : a = .root := hq
  rw [Uri.toPath_ofResolved rfl, decode_chars_root] at h
  obtain rfl := Except.ok.inj h
  have habs : (ofString (String.ofList ('/' :: Percent.decode (joined parts)))).isAbsolute = true := by
    rw [isAbsolute, ofString, String.toList_ofList]
    generalize Percent.decode _ = t
    unfold anchorOf
    split <;> simp_all
  have hcancel := size_cancel_le (components ('/' :: Percent.decode (joined parts)))
  have hcomponents := size_components_slash_le (Percent.decode (joined parts))
  have hjoined : (joined parts).length + 1 ≤ max 1 (size parts) := by
    simpa [chars_root] using length_chars_root_le parts
  have hdecode : (Percent.decode (joined parts)).length ≤ (joined parts).length := by
    rcases Percent.decode_eq_or_shorter (joined parts) with e | hlt
    · rw [e]
    · exact hlt.le
  rw [resolve, fromRoot, habs, if_pos rfl]
  simp only [ofString, String.toList_ofList]
  omega

theorem joined_concat_append (ps : List String) (x t : List Char) :
    joined (ps ++ [String.ofList (x ++ t)]) = joined (ps ++ [String.ofList x]) ++ t := by
  induction ps with
  | nil => simp [joined, Text.join]
  | cons p ps ih =>
    cases ps with
    | nil => simp [joined, Text.join]
    | cons q qs =>
      rw [List.cons_append, List.cons_append, List.cons_append, List.cons_append, joined_cons_cons,
        joined_cons_cons, List.append_assoc, List.cons_append]
      exact congrArg (fun s => p.toList ++ '/' :: s) ih

/-- A last component that is not plain is not read back, and neither is more than it. -/
theorem components_joined_concat {ps : List String} (hps : Plain ps) {x : List Char} (hx : '/' ∉ x) :
    components (joined (ps ++ [String.ofList x])) = ps ∨
      components (joined (ps ++ [String.ofList x])) = ps ++ [String.ofList x] := by
  by_cases hplain : x ≠ [] ∧ x ≠ ['.']
  · refine .inr (components_joined (hps.append ?_))
    intro p hp
    obtain rfl := List.mem_singleton.mp hp
    rw [String.toList_ofList]
    exact ⟨hplain.1, hplain.2, hx⟩
  · refine .inl ?_
    have hslash : ∀ l ∈ (ps ++ [String.ofList x]).map String.toList, '/' ∉ l := by
      intro l hl
      obtain ⟨p, hp, rfl⟩ := List.mem_map.mp hl
      rcases List.mem_append.mp hp with hp | hp
      · exact (hps p hp).2.2
      · rw [List.mem_singleton.mp hp, String.toList_ofList]
        exact hx
    have hkeep : (ps.map String.toList).filter (fun l => l ≠ [] && l ≠ ['.']) = ps.map String.toList := by
      refine List.filter_eq_self.mpr fun l hl => ?_
      obtain ⟨p, hp, rfl⟩ := List.mem_map.mp hl
      simp [-String.toList_eq_nil_iff, (hps p hp).1, (hps p hp).2.1]
    have hdrop : [x].filter (fun l => l ≠ [] && l ≠ ['.']) = [] := by
      rw [not_and_or, not_ne_iff, not_ne_iff] at hplain
      rcases hplain with rfl | rfl <;> rfl
    rw [components, joined, Text.split_join (by simp) hslash, List.map_append, List.filter_append, hkeep,
      List.map_singleton, String.toList_ofList, hdrop]
    simp [Function.comp_def]

/-- A way that ends with a further character leads to a longer path. -/
theorem size_cancel_lt_of_concat {base ps : List String} (hps : Plain ps) {s : List Char} {t : Char}
    (ht : t ≠ '.') (hs : joined ps = s ++ [t]) :
    max 1 (size (cancel (base ++ components s))) < size (cancel (base ++ ps)) := by
  obtain ⟨init, x, hinit⟩ : ∃ init x, ps = init ++ [String.ofList (x ++ [t])] := by
    cases ps using List.reverseRecOn with
    | nil => simp [joined, Text.join] at hs
    | append_singleton init l =>
      obtain ⟨pre, hpre⟩ := joined_concat init l
      have hl : l.toList ≠ [] := (hps l (by simp)).1
      have hlast : l.toList.getLast? = some t := by
        rw [hpre] at hs
        have hend := congrArg List.getLast? hs
        rwa [List.getLast?_append_of_ne_nil _ hl, List.getLast?_append_of_ne_nil _ (by simp),
          List.getLast?_singleton] at hend
      obtain ⟨x, hx⟩ := List.getLast?_eq_some_iff.mp hlast
      exact ⟨init, x, by rw [← hx, String.ofList_toList]⟩
  subst hinit
  have hslash := (hps (String.ofList (x ++ [t])) (by simp)).2.2
  rw [String.toList_ofList] at hslash
  rw [joined_concat_append] at hs
  obtain rfl := List.append_cancel_right hs
  have hdots : String.ofList (x ++ [t]) ≠ ".." := by
    intro h
    have hchars := congrArg String.toList h
    rw [String.toList_ofList] at hchars
    have hend := congrArg List.getLast? hchars
    rw [List.getLast?_append_of_ne_nil _ (by simp)] at hend
    exact ht (by simpa using hend)
  have hlong : size (cancel (base ++ (init ++ [String.ofList (x ++ [t])]))) =
      size (cancel (base ++ init)) + x.length + 2 := by
    rw [← List.append_assoc, cancel_concat, if_neg hdots, size_append]
    simp [size, String.length_ofList]
    omega
  have hshort : size (cancel (base ++ components (joined (init ++ [String.ofList x])))) ≤
      size (cancel (base ++ init)) + x.length + 1 := by
    have hplain : Plain init := hps.sublist fun p hp => List.mem_append_left _ hp
    rcases components_joined_concat hplain (fun h => hslash (List.mem_append_left _ h)) with heq | heq
    · rw [heq]
      omega
    · rw [heq, ← List.append_assoc, cancel_concat]
      have hdrop := size_dropLast_le (cancel (base ++ init))
      split
      · omega
      · rw [size_append]
        simp [size, String.length_ofList, Nat.add_assoc]
  omega

end Path

namespace Uri

theorem ofResolved_inj {a b : List String} (ha : Path.Plain a) (hb : Path.Plain b)
    (h : ofResolved ⟨.root, a⟩ = ofResolved ⟨.root, b⟩) : a = b := by
  have hchars := congrArg String.toList h
  rw [ofResolved, ofResolved, String.toList_ofList, String.toList_ofList] at hchars
  have hdecode := congrArg Percent.decode (List.append_cancel_left hchars)
  rw [Percent.decode_encode, Percent.decode_encode] at hdecode
  have hread := congrArg (fun s => (Path.ofString (String.ofList s)).parts) hdecode
  simpa only [Path.ofString_chars_root ha, Path.ofString_chars_root hb] using hread

theorem relativePath_of_resolve {cwd base p : Path} {parts : List String} (hb : base.Resolved)
    (h : Path.resolve cwd p = ⟨.root, base.parts ++ parts⟩) :
    relativePath cwd base p = Path.toString ⟨.relative, parts⟩ := by
  rw [relativePath, Path.relativeTo, h, Path.resolve_of_resolved hb, Path.commonLength_append]
  simp

/-- A way that ends with `#` leads further than the same way without it. -/
theorem size_lt_of_relativePath {cwd base p : Path} (hb : base.Resolved)
    (hp : Path.Plain (Path.resolve cwd p).parts) {s : List Char} (hne : s ≠ [])
    (hs : (relativePath cwd base p).toList = s ++ ['#']) :
    max 1 (Path.size (Path.resolve base (base ++ Path.ofString (String.ofList s))).parts) <
      Path.size (Path.resolve cwd p).parts := by
  have hback := resolve_relativePath hb hp base
  obtain ⟨way, hway, hplain⟩ : ∃ way, relativePath cwd base p = Path.toString ⟨.relative, way⟩ ∧
      Path.Plain way := ⟨_, rfl, Path.plain_way hp _ _⟩
  rw [hway] at hs hback
  rw [Path.ofString_toString_relative hplain, Path.resolve_append_relative hb] at hback
  rw [← hback]
  cases way with
  | nil =>
    rw [Path.toString, String.toList_ofList] at hs
    exact absurd (congrArg List.getLast? hs) (by simp [Path.chars])
  | cons a way =>
    rw [Path.toString, String.toList_ofList] at hs
    change Path.joined (a :: way) = s ++ ['#'] at hs
    obtain ⟨c, rest, hhead, hslash⟩ := Path.head_joined hplain
    obtain ⟨d, s', rfl⟩ := List.exists_cons_of_ne_nil hne
    obtain rfl : c = d := by
      rw [hhead] at hs
      exact (List.cons.inj hs).1
    have hread : Path.ofString (String.ofList (c :: s')) = ⟨.relative, Path.components (c :: s')⟩ := by
      rw [Path.ofString, String.toList_ofList, Path.anchorOf_of_head_ne hslash]
    rw [hread, Path.resolve_append_relative hb]
    exact Path.size_cancel_lt_of_concat hplain (by decide) hs

end Uri

namespace NodeId

variable {cwd base : Path} {f : String}

theorem split_of_concat {id : String} {s : List Char} (h : id.toList = s ++ ['#']) (hs : s ≠ []) :
    split id = (String.ofList s, "") := by
  rw [split, h, splitChars_append hs (by simp)]

/-- A relative identifier that leads back to the one it was made from is split where it was joined. A
`#` at its end would be lost, and what is found from the rest would be too short. -/
theorem split_relativePath_of_absolute_eq {q path : Path} (hb : base.Resolved) (hq : q.Resolved)
    (hpath : Uri.toPath (Uri.ofResolved q) = .ok path) (hf : '#' ∉ f.toList)
    (h : absolute base (withFragment (Uri.relativePath cwd base path) f) =
      withFragment (Uri.ofResolved q) f) :
    split (withFragment (Uri.relativePath cwd base path) f) = (Uri.relativePath cwd base path, f) := by
  have hp := Context.plain_of_toPath hq hpath cwd
  by_cases hne : f = ""
  · subst hne
    change absolute base (Uri.relativePath cwd base path) = Uri.ofResolved q at h
    change split (Uri.relativePath cwd base path) = (Uri.relativePath cwd base path, "")
    have habs : isAbsolute (Uri.relativePath cwd base path) = false := isAbsolute_relativePath (f := "") hp
    rw [absolute, habs, if_neg Bool.false_ne_true] at h
    by_cases hlast : (Uri.relativePath cwd base path).toList.getLast? = some '#'
    · obtain ⟨s, hs⟩ := List.getLast?_eq_some_iff.mp hlast
      by_cases hnil : s = []
      · subst hnil
        rw [String.toList_inj.mp (hs.trans (by decide : ([] ++ ['#'] : List Char) = "#".toList))]
        rfl
      rw [split_of_concat hs hnil] at h
      change Uri.ofResolved _ = Uri.ofResolved q at h
      rw [← h] at hpath
      have hshort := Path.size_resolve_toPath cwd rfl hpath
      have hlong := Uri.size_lt_of_relativePath hb hp hnil hs
      exact absurd hshort hlong.not_ge
    · rcases split_eq_or hlast with hsplit | hsplit
      · exact hsplit
      · refine absurd ?_ (hash_not_mem_ofResolved q)
        rw [← h]
        simp [withFragment, hsplit]
  · exact split_relativePath hp hne hf

/-- The identifier with a fragment of the file that is reached from a directory through some names. -/
structure Below (base : Path) (parts : List String) (f id : String) : Prop where
  plain : Path.Plain (base.parts ++ parts)
  climbs : ".." ∉ parts
  hash_not_mem : '#' ∉ f.toList
  id_eq : id = withFragment (Uri.ofResolved ⟨.root, base.parts ++ parts⟩) f

theorem Below.unique {parts parts' : List String} {f' id : String} (h : Below base parts f id)
    (h' : Below base parts' f' id) : parts = parts' ∧ f = f' := by
  have hsplit := split_ofResolved ⟨.root, base.parts ++ parts⟩ h.hash_not_mem
  rw [← h.id_eq, h'.id_eq, split_ofResolved _ h'.hash_not_mem] at hsplit
  obtain ⟨huri, hf⟩ := Prod.mk.inj hsplit
  have hparts := Uri.ofResolved_inj h'.plain h.plain huri
  exact ⟨(List.append_cancel_left hparts).symm, hf.symm⟩

theorem Below.absolute_relative {base' : Path} {parts : List String} {id : String}
    (h : Below base parts f id) (hb' : base'.Resolved) (hplain : Path.Plain base'.parts)
    (hsplit : split (withFragment (Path.toString ⟨.relative, parts⟩) f) =
      (Path.toString ⟨.relative, parts⟩, f)) :
    Below base' parts f (absolute base' (withFragment (Path.toString ⟨.relative, parts⟩) f)) := by
  have hparts : Path.Plain parts := h.plain.sublist fun p hp => List.mem_append_right _ hp
  refine ⟨hplain.append hparts, h.climbs, h.hash_not_mem, ?_⟩
  rw [absolute, not_isAbsolute_relative hparts, if_neg Bool.false_ne_true, hsplit]
  dsimp only
  rw [Path.ofString_toString_relative hparts, Path.resolve_append_relative hb',
    Path.cancel_append_of_not_mem _ h.climbs, Path.cancel_of_not_mem hb'.climbs]

end NodeId

namespace Context

/-- A file inside the workspace that is found again is found at the same place of the other one. -/
theorem below_relocate {c : Context} {base : Path} {parts : List String} {f id : String}
    (hb : base.Resolved) (hplain : Path.Plain base.parts) (h : NodeId.Below c.base parts f id)
    (hid : c.FindsAgain id) : NodeId.Below base parts f (c.relocate base id) := by
  obtain ⟨rel, hrel, hback⟩ := hid
  rw [relocate, hrel]
  dsimp only
  have hq : Path.Resolved ⟨.root, c.base.parts ++ parts⟩ := by
    refine ⟨rfl, fun hmem => ?_⟩
    rcases List.mem_append.mp hmem with hmem | hmem
    · exact c.resolved_base.climbs hmem
    · exact h.climbs hmem
  have hpath := Uri.toPath_ofResolved hq.anchor
  generalize Path.ofString (String.ofList (Percent.decode (Path.chars ⟨.root, c.base.parts ++ parts⟩))) =
    path at hpath
  rw [h.id_eq, relativeId, NodeId.toRelative_ofResolved hpath h.hash_not_mem] at hrel
  obtain rfl : _ = rel := Except.ok.inj hrel
  rw [h.id_eq] at hback
  have hsplit := NodeId.split_relativePath_of_absolute_eq c.resolved_base hq hpath h.hash_not_mem hback
  have hp := plain_of_toPath hq hpath c.workspace.cwd
  rw [NodeId.absolute_relativePath c.resolved_base hp hsplit] at hback
  have hplace : Path.resolve c.workspace.cwd path = ⟨.root, c.base.parts ++ parts⟩ := by
    have huri := NodeId.split_ofResolved (Path.resolve c.workspace.cwd path) h.hash_not_mem
    rw [hback, NodeId.split_ofResolved _ h.hash_not_mem] at huri
    have hroot := (Path.resolved_resolve c.workspace.cwd path).eq
    rw [hroot] at huri ⊢
    rw [Uri.ofResolved_inj h.plain hp (Prod.mk.inj huri).1]
  rw [Uri.relativePath_of_resolve c.resolved_base hplace] at hsplit ⊢
  exact h.absolute_relative hb hplain hsplit

/-- The edges `t'` are what `t` becomes at another directory. A file inside the workspace keeps its
place. Where several keys become one, the targets of the last are kept. -/
structure Moves (c : Context) (base : Path) (t t' : Table IdSet) : Prop where
  file : ∀ k s, t.find? k = some s → ∀ id, id = k ∨ id ∈ s →
    ∀ parts f, NodeId.Below c.base parts f id → NodeId.Below base parts f (c.relocate base id)
  last : ∀ k s, t.find? k = some s →
    (∀ k', (t.find? k').isSome → c.relocate base k' = c.relocate base k → k' ≤ k) →
    t'.find? (c.relocate base k) = some (c.relocateSet base s)
  only : ∀ id s', t'.find? id = some s' →
    ∃ k s, t.find? k = some s ∧ c.relocate base k = id ∧ c.relocateSet base s = s'
  inside : (∀ k, (t.find? k).isSome → ∃ parts f, NodeId.Below c.base parts f k) →
    ∀ k s, t.find? k = some s → t'.find? (c.relocate base k) = some (c.relocateSet base s)

theorem moves_of_relativeEdges {c : Context} {base : Path} {t : Table IdSet} {es : EdgeList}
    (hb : base.Resolved) (hplain : Path.Plain base.parts) (ht : c.Recovers t)
    (hes : c.relativeEdges t = .ok es) : c.Moves base t ((CodeGraph.empty base).absoluteEdges es) := by
  have hfile : ∀ k s, t.find? k = some s → ∀ id, id = k ∨ id ∈ s → ∀ parts f,
      NodeId.Below c.base parts f id → NodeId.Below base parts f (c.relocate base id) := by
    intro k s hk id hid parts f hbelow
    exact below_relocate hb hplain hbelow (ht k s hk id hid)
  rw [Index.absoluteEdges_eq hes]
  refine ⟨hfile, fun k s hk hlast => Table.find?_ofList_map hk hlast, ?_, ?_⟩
  · intro id s' hid
    rw [Table.ofList, List.foldl_map] at hid
    rcases Table.find?_foldl_put_cases hid with ⟨e, he, hkey, hval⟩ | ⟨hnone, -⟩
    · exact ⟨e.1, e.2, Table.find?_eq_some_iff.mpr (List.mem_mergeSort.mp he), hkey, hval⟩
    · rw [Table.find?_empty] at hnone
      cases hnone
  · intro hinside k s hk
    refine Table.find?_ofList_map hk fun k' hk' hsame => ?_
    obtain ⟨s', hs'⟩ := Option.isSome_iff_exists.mp hk'
    obtain ⟨parts, f, hbelow⟩ := hinside k (by rw [hk]; rfl)
    obtain ⟨parts', f', hbelow'⟩ := hinside k' hk'
    have hmoved := hfile k s hk k (.inl rfl) parts f hbelow
    have hmoved' := hfile k' s' hs' k' (.inl rfl) parts' f' hbelow'
    replace hmoved : NodeId.Below base parts f (c.relocate base k') := hsame ▸ hmoved
    obtain ⟨rfl, rfl⟩ := hmoved.unique hmoved'
    have hkeys : k = k' := hbelow.id_eq.trans hbelow'.id_eq.symm
    exact hkeys ▸ String.le_refl k

theorem recovers_empty (c : Context) : c.Recovers .empty := by
  intro k s hk
  rw [Table.find?_empty] at hk
  cases hk

theorem Recovers.put {c : Context} {t : Table IdSet} {k : String} {s : IdSet} (h : c.Recovers t)
    (hk : c.FindsAgain k) (hs : ∀ id ∈ s, c.FindsAgain id) : c.Recovers (t.put k s) := by
  intro k' s' hk' id hid
  rw [Table.find?_put] at hk'
  split at hk'
  · rename_i heq
    obtain rfl := Option.some.inj hk'
    rcases hid with rfl | hid
    · rw [heq]
      exact hk
    · exact hs id hid
  · exact h k' s' hk' id hid

end Context

/-- An item of a document that is there ends with the graph of its walk, whatever comes of the save. -/
theorem Pass.graph_attempt {c : Context} {full : Bool} {p : Pass} {uri : String} {path : Path}
    (hnew : uri ∉ p.visited) (hpath : Uri.toPath uri = .ok path) (hpresent : c.present path = .ok true) :
    (attempt c full p uri).1.graph = (walk c (walkFuel c) p (.start uri) [uri]).1.graph := by
  obtain ⟨p₁, r, reports, hworked, hattempt⟩ :=
    worked_of_attempt (Prod.mk.eta (p := attempt c full p uri)).symm
  rw [hattempt]
  change p₁.graph = _
  have hwalk := walks_walk c p uri
  cases hworked with
  | seen hseen => exact absurd hseen hnew
  | nowhere _ faulty =>
    obtain ⟨e, he⟩ := faulty path hpath
    cases hpresent.symm.trans he
  | gone hpath' habsent =>
    cases hpath.symm.trans hpath'
    cases hpresent.symm.trans habsent
  | broken walks => rw [hwalk.unique walks]
  | blank walks => rw [hwalk.unique walks]
  | finished walks _ hfinish => rw [(alike_finish hfinish).graph, hwalk.unique walks]

/-- The graph `g'` is what `g` becomes at another directory. -/
structure CodeGraph.Relocated (c : Context) (base : Path) (g g' : CodeGraph) : Prop where
  files : g'.files.Same g.files
  imports : c.Moves base g.imports g'.imports
  exports : c.Moves base g.exports g'.exports

namespace Index

theorem commit_nil_eq_ok {c : Context} {i : Index} (himports : c.Recovers i.graph.imports)
    (hexports : c.Recovers i.graph.exports) (hfile : i.store.graphFile ≠ .directory) (incremental : Bool) :
    (Pass.commit c (.start i) [] incremental).2 = .ok () := by
  obtain ⟨imports, hims⟩ := himports.exists_relativeEdges
  obtain ⟨exports, hexs⟩ := hexports.exists_relativeEdges
  have hgraph : (Pass.start i).graph = i.graph := rfl
  unfold Pass.commit
  rw [hgraph, hims, hexs]
  exact Store.save_nil_eq_ok hfile imports exports i.graph.files incremental

/-- What a fresh index of any directory loads after a graph was committed. -/
theorem load_of_commit {c : Context} {i : Index} {docs : List IndexDocument} {incremental : Bool} {p : Pass}
    (h : Pass.commit c (.start i) docs incremental = (p, .ok ())) : ∃ imports exports,
    c.relativeEdges i.graph.imports = .ok imports ∧ c.relativeEdges i.graph.exports = .ok exports ∧
      ∀ base pattern exclusion, (make base p.store pattern exclusion).load.2.result = .ok true ∧
        (make base p.store pattern exclusion).load.1.graph =
          (CodeGraph.empty base).restore (.ofList i.graph.files.sorted) imports exports := by
  obtain ⟨imports, exports, himports, hexports, hsave, -⟩ := Pass.commit_eq_ok h
  obtain ⟨new, -, -, hfile⟩ := Store.save_eq_ok hsave
  exact ⟨imports, exports, himports, hexports, fun base pattern exclusion =>
    load_of_written (i := make base p.store pattern exclusion) hfile⟩

/-- Where every identifier of the edges is found again, the graph can be committed, a fresh index of the
workspace loads the same graph, and one of another directory loads the relocated graph. -/
theorem relocated_of_commit {c : Context} {i : Index} (himports : c.Recovers i.graph.imports)
    (hexports : c.Recovers i.graph.exports) :
    (i.store.graphFile ≠ .directory →
      ∀ incremental, (Pass.commit c (.start i) [] incremental).2 = .ok ()) ∧
    ∀ docs incremental p, Pass.commit c (.start i) docs incremental = (p, .ok ()) →
      ∀ pattern exclusion,
        let fresh := fun base => (make base p.store pattern exclusion).load
        ((fresh c.base).2.result = .ok true ∧ (fresh c.base).1.graph.Matches i.graph) ∧
        ∀ base : Path, base.Resolved → Path.Plain base.parts →
          (fresh base).2.result = .ok true ∧ i.graph.Relocated c base (fresh base).1.graph := by
  refine ⟨commit_nil_eq_ok himports hexports, ?_⟩
  intro docs incremental p hcommit pattern exclusion fresh
  obtain ⟨imports, exports, hims, hexs, hload⟩ := load_of_commit hcommit
  obtain ⟨hresult, hgraph⟩ := hload c.base pattern exclusion
  refine ⟨⟨hresult, ?_⟩, fun base hb hplain => ?_⟩
  · rw [hgraph]
    exact ⟨Table.find?_ofList_sorted _, himports.absoluteEdges_same hims, hexports.absoluteEdges_same hexs⟩
  · obtain ⟨hresult', hgraph'⟩ := hload base pattern exclusion
    refine ⟨hresult', ?_⟩
    rw [hgraph']
    exact ⟨Table.find?_ofList_sorted _, Context.moves_of_relativeEdges hb hplain himports hims,
      Context.moves_of_relativeEdges hb hplain hexports hexs⟩

/-- `a.py` is indexed with the module that it imports, and the snapshot is loaded for a copy. -/
theorem relocated_of_commit_import :
    let c := sampleContext [("a.py", "import b\n"), ("b.py", "y\n")] ""
    let i := ((make c.base (.empty "graph.json" 4) "b.py" []).process c ["file:///tmp/w/ws/a.py"] false).1
    let copy : Path := ⟨.root, ["tmp", "w", "copy"]⟩
    let saved := (Pass.commit c (.start i) [] true).1.store
    i.graph.Relocated c copy (make copy saved "b.py" []).load.1.graph := by
  intro c i copy saved
  have hgraph : i.graph.imports =
        Table.empty.put "file:///tmp/w/ws/a.py" (.ofList ["file:///tmp/w/ws/b.py"]) ∧
      i.graph.exports = Table.empty.put "file:///tmp/w/ws/b.py" (.ofList ["file:///tmp/w/ws/a.py"]) ∧
      i.store.graphFile ≠ .directory := by decide +kernel
  have ha : c.FindsAgain "file:///tmp/w/ws/a.py" := ⟨"a.py", by decide +kernel⟩
  have hb : c.FindsAgain "file:///tmp/w/ws/b.py" := ⟨"b.py", by decide +kernel⟩
  clear_value i c
  obtain ⟨hims, hexs, hfile⟩ := hgraph
  have himports : c.Recovers i.graph.imports := by
    rw [hims]
    exact c.recovers_empty.put ha (by simpa using hb)
  have hexports : c.Recovers i.graph.exports := by
    rw [hexs]
    exact c.recovers_empty.put hb (by simpa using ha)
  obtain ⟨hcommit, hload⟩ := relocated_of_commit himports hexports
  have hloaded := hload [] true _ (Prod.ext rfl (hcommit hfile true)) "b.py" []
  refine (hloaded.2 copy ⟨rfl, by decide⟩ ?_).2
  intro x hx
  revert x
  decide

/-- The file outside becomes the one at the place of `a.py`, and the import of `b.py` is lost. -/
theorem not_importsOf_of_outside :
    let a := "file:///tmp/w/ws/a.py"
    let outside := "file:///tmp/w/x/a.py"
    let files : FileTree := ⟨[(["tmp"], .directory), (["tmp", "w"], .directory), (["tmp", "w", "ws"], .directory),
      (["tmp", "w", "ws", "a.py"], .file (Utf8.encode "import b\n".toList)),
      (["tmp", "w", "ws", "b.py"], .file []), (["tmp", "w", "x"], .directory),
      (["tmp", "w", "x", "a.py"], .file (Utf8.encode "import a\n".toList))]⟩
    let c := { sampleContext [] "" with
      workspace := ⟨files, ⟨.root, ["tmp", "w"]⟩, ⟨.root, ["tmp", "w", "ws"]⟩⟩ }
    let i := ((make c.base (.empty "graph.json" 4) "z.py" []).process c [a] false).1
    let g := (i.process c [outside] false).1.graph
    let saved := (Pass.commit c (.start ⟨g, .empty "graph.json" 4, .make "z.py" [], false⟩) [] true).1.store
    let moved := (make ⟨.root, ["tmp", "w", "x"]⟩ saved "z.py" []).load.1.graph
    c.Recovers g.imports ∧ c.Recovers g.exports ∧
      g.importsOf? a = some (.ofList ["file:///tmp/w/ws/b.py"]) ∧
      moved.importsOf? outside = some (.ofList [outside]) := by
  intro a outside files c i g saved moved
  have hg : g.imports =
        (Table.empty.put a (.ofList ["file:///tmp/w/ws/b.py"])).put outside (.ofList [a]) ∧
      g.exports = (Table.empty.put "file:///tmp/w/ws/b.py" (.ofList [a])).put a (.ofList [outside]) := by
    have hwalk : g = (Pass.walk c (Pass.walkFuel c) (.start i) (.start outside) [outside]).1.graph := by
      have hpath : Uri.toPath outside = .ok ⟨.root, ["tmp", "w", "x", "a.py"]⟩ := by decide +kernel
      rw [← Pass.graph_attempt List.not_mem_nil hpath (by decide +kernel), ← graph_process_singleton]
    rw [hwalk]
    decide +kernel
  have ha : c.FindsAgain a := ⟨"a.py", by decide +kernel⟩
  have hb : c.FindsAgain "file:///tmp/w/ws/b.py" := ⟨"b.py", by decide +kernel⟩
  have hout : c.FindsAgain outside := ⟨"../x/a.py", by decide +kernel⟩
  have hmoved : c.relocate ⟨.root, ["tmp", "w", "x"]⟩ outside = outside ∧
      c.relocateSet ⟨.root, ["tmp", "w", "x"]⟩ (.ofList [a]) = .ofList [outside] := by decide +kernel
  clear_value g c i
  obtain ⟨hims, hexs⟩ := hg
  have himports : c.Recovers g.imports := by
    rw [hims]
    exact (c.recovers_empty.put ha (by simpa using hb)).put hout (by simpa using ha)
  have hexports : c.Recovers g.exports := by
    rw [hexs]
    exact (c.recovers_empty.put hb (by simpa using ha)).put ha (by simpa using hout)
  have hcommit := commit_nil_eq_ok (i := ⟨g, .empty "graph.json" 4, .make "z.py" [], false⟩) himports
    hexports (show Store.GraphFile.absent ≠ .directory by decide) true
  obtain ⟨imports, exports, hrel, -, hload⟩ := load_of_commit (Prod.ext rfl hcommit)
  have hmoves : c.Moves ⟨.root, ["tmp", "w", "x"]⟩ g.imports moved.imports := by
    rw [show moved = _ from (hload _ _ _).2]
    exact Context.moves_of_relativeEdges ⟨rfl, by decide⟩ (by intro x hx; revert x; decide) himports hrel
  refine ⟨himports, hexports, by rw [CodeGraph.importsOf?, hims]; decide +kernel, ?_⟩
  have hlast := hmoves.last outside (.ofList [a]) (by rw [hims]; simp) ?_
  · rwa [hmoved.1, hmoved.2] at hlast
  · intro k hk _
    rw [hims, Table.find?_put, Table.find?_put, Table.find?_empty] at hk
    by_cases hkey : k = outside
    · exact hkey ▸ String.le_refl k
    · obtain rfl : k = a := by simpa [hkey] using hk
      decide +kernel

end Index

end OutlineIndex
