import OutlineIndex.Proofs.Source.Concurrence
import OutlineIndex.Proofs.WellFormed

namespace OutlineIndex

open Source (Mark Site Written Imported Concurs)

theorem Text.feed_mem_of_returnsPaired {s : List Char} (h : returnsPaired s = true) (hmem : '\r' ∈ s) :
    '\n' ∈ s := by
  fun_induction returnsPaired s with
  | case1 => cases hmem
  | case2 rest => simp
  | case3 c rest _ ih =>
    simp only [Bool.and_eq_true, decide_eq_true_eq] at h
    rcases List.mem_cons.mp hmem with e | hmem
    · exact absurd e.symm h.1
    · exact List.mem_cons_of_mem _ (ih h.2 hmem)

namespace Source.Site

/-- Where a program's definition at a site is taken to start. -/
def taken (s : Site) : Mark :=
  match s.gap with
  | none => .after (Text.foldReturns s.front)
  | some gap => (Mark.after (Text.foldReturns (s.front ++ '@' :: gap))).back

/-- What makes up a site is in the text. -/
def In (text : List Char) (s : Site) : Prop :=
  match s.gap with
  | none => s.front <+: text
  | some gap => s.front ++ '@' :: gap <+: text

theorem Heads.startOf_eq {text : List Char} {s : Site} {decorators : List Mark} {start : Mark}
    (h : s.Heads text decorators start) : Program.Statement.startOf decorators start = s.taken := by
  obtain ⟨front, gap⟩ := s
  cases gap with
  | none =>
    obtain ⟨-, rfl, rfl⟩ := h
    rfl
  | some gap =>
    obtain ⟨-, hhead⟩ := h
    cases decorators with
    | nil => cases hhead
    | cons e es =>
      cases hhead
      rfl

theorem Heads.in {text : List Char} {s : Site} {decorators : List Mark} {start : Mark}
    (h : s.Heads text decorators start) : s.In text := by
  obtain ⟨front, gap⟩ := s
  cases gap with
  | none => exact h.1
  | some gap => exact h.1

/-- The place behind a decorator's sign and a gap on one line. -/
theorem after_sign {front gap : List Char} (hfeed : '\n' ∉ gap) : Mark.after (front ++ '@' :: gap) =
    ⟨(Mark.after front).line, (Mark.after front).column + ((Utf8.encode gap).length + 1)⟩ := by
  have hline : '\n' ∉ '@' :: gap := by simp [hfeed]
  have hsign : (Utf8.encode ('@' :: gap)).length = (Utf8.encode gap).length + 1 := by
    rw [Utf8.encode_cons, List.length_append, String.length_utf8EncodeChar, Nat.add_comm]
    rfl
  rw [Mark.after_append, Mark.advanceAll_of_not_mem hline, hsign]

/-- A gap with a line end in it, or a return alone in front of it, leads to a later line. -/
theorem count_lt_of_not_plain {front gap : List Char}
    (h : ¬(Text.returnsPaired front = true ∧ '\n' ∉ gap ∧ '\r' ∉ gap)) :
    front.count '\n' < (Text.foldReturns (front ++ '@' :: gap)).count '\n' := by
  have hcount : (front ++ '@' :: gap).count '\n' = front.count '\n' + gap.count '\n' := by simp
  rcases Text.count_foldReturns_cases (front ++ '@' :: gap) with ⟨hpaired, e⟩ | ⟨-, hlt⟩
  · rw [Text.returnsPaired_append_at, Bool.and_eq_true] at hpaired
    have hfeed : '\n' ∈ gap := by
      by_contra hfeed
      exact h ⟨hpaired.1, hfeed, fun hmem => hfeed (Text.feed_mem_of_returnsPaired hpaired.2 hmem)⟩
    have hpos := List.count_pos_iff.mpr hfeed
    omega
  · omega

theorem positionOf_ne_of_line_ne {text : List Char} {m n : Mark} (h : m.line ≠ n.line) :
    positionOf text m ≠ positionOf text n := by
  intro e
  have hline := congrArg Position.line e
  rw [line_positionOf, line_positionOf] at hline
  omega

/-- On one line, the expression of a decorator is taken to start behind the gap, not the sign. -/
theorem taken_of_plain {front gap : List Char} (hpaired : Text.returnsPaired front = true) (hfeed : '\n' ∉ gap)
    (hreturn : '\r' ∉ gap) : taken ⟨front, some gap⟩ =
      ⟨(Mark.after front).line, (Mark.after front).column + (Utf8.encode gap).length⟩ := by
  have hall : Text.returnsPaired (front ++ '@' :: gap) = true := by
    rw [Text.returnsPaired_append_at, hpaired, Text.returnsPaired_of_not_mem hreturn]
    rfl
  change (Mark.advanceAll ⟨0, 0⟩ (Text.foldReturns (front ++ '@' :: gap))).back = _
  rw [Text.advanceAll_foldReturns hall]
  change (Mark.after (front ++ '@' :: gap)).back = _
  rw [after_sign hfeed]
  rfl

/-- A place behind a gap is another one than that of the sign in front of it, also in characters. -/
theorem positionOf_behind_gap_ne {text front gap : List Char} (hin : front ++ '@' :: gap <+: text)
    (hgap : gap ≠ []) :
    positionOf text ⟨(Mark.after front).line, (Mark.after front).column + (Utf8.encode gap).length⟩ ≠
      positionOf text (.after front) := by
  intro e
  -- the end of the sign is between the two places
  have hsign : Mark.after (front ++ ['@']) =
      ⟨(Mark.after front).line, (Mark.after front).column + 1⟩ := after_sign List.not_mem_nil
  have hprefix : front ++ ['@'] <+: text := by
    refine List.IsPrefix.trans ?_ hin
    exact ⟨gap, by simp⟩
  have hbefore : (Mark.after front).Before text (.after (front ++ ['@'])) := by
    refine .inr ⟨by rw [hsign], by rw [hsign]; exact Nat.lt_succ_self _, fun _ => ?_, fun _ => ?_⟩
    · exact ⟨front, (List.prefix_append front _).trans hprefix, rfl⟩
    · exact ⟨_, hprefix, rfl⟩
  have hle : (Mark.after (front ++ ['@'])).Le
      ⟨(Mark.after front).line, (Mark.after front).column + (Utf8.encode gap).length⟩ := by
    have hpos : 0 < (Utf8.encode gap).length := by
      obtain ⟨c, rest, rfl⟩ := List.exists_cons_of_ne_nil hgap
      rw [Utf8.encode_cons, List.length_append, String.length_utf8EncodeChar]
      have hc := c.utf8Size_pos
      omega
    rw [hsign]
    exact .inr ⟨rfl, by dsimp only; omega⟩
  have hlater := (precedes_positionOf hbefore).trans_le (not_precedes_positionOf hle)
  rw [e] at hlater
  unfold Position.Precedes at hlater
  omega

/-- A program's definition is taken to start where it starts just at a flush site. -/
theorem positionOf_taken_iff {text : List Char} {s : Site} (h : s.In text) :
    positionOf text s.taken = positionOf text (.after s.front) ↔ s.Flush := by
  obtain ⟨front, gap⟩ := s
  cases gap with
  | none =>
    rcases Text.count_foldReturns_cases front with ⟨hpaired, -⟩ | ⟨hnot, hlt⟩
    · refine iff_of_true ?_ ⟨hpaired, by simp⟩
      exact congrArg (positionOf text) (Text.advanceAll_foldReturns hpaired _)
    · refine iff_of_false (positionOf_ne_of_line_ne ?_) fun hflush => ?_
      · change (Mark.after (Text.foldReturns front)).line ≠ (Mark.after front).line
        rw [Mark.line_after, Mark.line_after]
        omega
      · rw [hflush.1] at hnot
        cases hnot
  | some gap =>
    by_cases hplain : Text.returnsPaired front = true ∧ '\n' ∉ gap ∧ '\r' ∉ gap
    · obtain ⟨hpaired, hfeed, hreturn⟩ := hplain
      rw [taken_of_plain hpaired hfeed hreturn]
      by_cases hgap : gap = []
      · subst hgap
        exact iff_of_true rfl ⟨hpaired, by simp⟩
      · exact iff_of_false (positionOf_behind_gap_ne h hgap) fun hflush => hgap (hflush.2 gap rfl)
    · have hlt := count_lt_of_not_plain hplain
      refine iff_of_false (positionOf_ne_of_line_ne ?_) fun hflush => hplain ?_
      · change (Mark.after (Text.foldReturns (front ++ '@' :: gap))).line ≠ (Mark.after front).line
        rw [Mark.line_after, Mark.line_after]
        omega
      · obtain rfl : gap = [] := hflush.2 gap rfl
        exact ⟨hflush.1, by simp, by simp⟩

end Source.Site

namespace Definition

/-- All of a definition that its node is named by: kind, name, start, and start of the one around it. -/
def key (x : Definition) : Source.DefinitionKind × String × Position × Option Position :=
  (x.kind, x.name, x.span.start, x.parent.map (·.start))

end Definition

namespace Source.Written

mutual

/-- The keys of a definition and of those inside it, given where sites are and how names are read. -/
def keys (place : Site → Position) (name : String → String) (outer : Option Position) :
    Written → List (DefinitionKind × String × Position × Option Position)
  | .mk kind n site inner => (kind, name n, place site, outer) :: keysAll place name (some (place site)) inner

def keysAll (place : Site → Position) (name : String → String) (outer : Option Position) :
    List Written → List (DefinitionKind × String × Position × Option Position)
  | [] => []
  | w :: ws => keys place name outer w ++ keysAll place name outer ws

end

section Keys

variable {place place' : Site → Position} {name name' : String → String}

mutual

theorem map_start_keys (outer : Option Position) (w : Written) :
    (keys place name outer w).map (·.2.2.1) = w.sites.map place := by
  match w with
  | .mk kind n site inner => rw [keys, sites, List.map_cons, List.map_cons, map_start_keysAll]

theorem map_start_keysAll (outer : Option Position) (ws : List Written) :
    (keysAll place name outer ws).map (·.2.2.1) = (sitesAll ws).map place := by
  match ws with
  | [] => rfl
  | w :: ws => rw [keysAll, sitesAll, List.map_append, List.map_append, map_start_keys, map_start_keysAll]

end

mutual

theorem map_name_keys (outer : Option Position) (w : Written) :
    (keys place name outer w).map (·.2.1) = w.names.map name := by
  match w with
  | .mk kind n site inner => rw [keys, names, List.map_cons, List.map_cons, map_name_keysAll]

theorem map_name_keysAll (outer : Option Position) (ws : List Written) :
    (keysAll place name outer ws).map (·.2.1) = (namesAll ws).map name := by
  match ws with
  | [] => rfl
  | w :: ws => rw [keysAll, namesAll, List.map_append, List.map_append, map_name_keys, map_name_keysAll]

end

mutual

theorem keys_congr (outer : Option Position) (w : Written) (hplace : ∀ s ∈ w.sites, place s = place' s)
    (hname : ∀ n ∈ w.names, name n = name' n) : keys place name outer w = keys place' name' outer w := by
  match w with
  | .mk kind n site inner =>
    rw [keys, keys, hplace site List.mem_cons_self, hname n List.mem_cons_self,
      keysAll_congr _ inner (fun s hs => hplace s (List.mem_cons_of_mem _ hs))
        fun n hn => hname n (List.mem_cons_of_mem _ hn)]

/-- Where sites are the same and names are read the same, keys are. -/
theorem keysAll_congr (outer : Option Position) (ws : List Written)
    (hplace : ∀ s ∈ sitesAll ws, place s = place' s) (hname : ∀ n ∈ namesAll ws, name n = name' n) :
    keysAll place name outer ws = keysAll place' name' outer ws := by
  match ws with
  | [] => rfl
  | w :: ws =>
    rw [keysAll, keysAll,
      keys_congr outer w (fun s hs => hplace s (List.mem_append_left _ hs))
        (fun n hn => hname n (List.mem_append_left _ hn)),
      keysAll_congr outer ws (fun s hs => hplace s (List.mem_append_right _ hs))
        fun n hn => hname n (List.mem_append_right _ hn)]

end

end Keys

end Source.Written

namespace Definition

open Source.Written (sitesAll namesAll keysAll)

section Keys

variable {text : List Char} {normal : String → String} {ws : List Written}

/-- The definitions of a program have the keys of those that it shows. -/
theorem map_key_program {ss : List Source.Program.Statement}
    (h : Source.Program.Statement.ShowsAll normal text ws ss) (parent : Option Span) :
    (ofLocatedAll text parent (Source.Program.Statement.locatedAll ss)).map key =
      keysAll (fun s => positionOf text s.taken) normal (parent.map (·.start)) ws := by
  induction h generalizing parent with
  | nil => rfl
  | other hs _ ih => rw [Source.Program.Statement.locatedAll, hs, List.nil_append, ih]
  | @definition kind name site inner ws decorators start stop body ss hsite _ _ ihinner ih =>
    rw [Source.Program.Statement.locatedAll, Source.Program.Statement.located, hsite.startOf_eq,
      List.singleton_append, ofLocatedAll, ofLocated, keysAll, Source.Written.keys, List.map_append, ih,
      List.map_cons, ihinner]
    rfl

/-- The definitions of a tree have the keys of those that it shows. -/
theorem map_key_tree {ts : List Source.Tree} (h : Source.Tree.ShowsAll ws ts) (parent : Option Span) :
    (ofLocatedAll text parent (Source.Tree.locatedAll ts)).map key =
      keysAll (fun s => positionOf text (.after s.front)) id (parent.map (·.start)) ws := by
  induction h generalizing parent with
  | nil => rfl
  | other ht _ ih => rw [Source.Tree.locatedAll, ht, List.nil_append, ih]
  | @definition kind name site inner ws t body ts hstart ht _ _ ihinner ih =>
    rw [Source.Tree.locatedAll, Source.Tree.located_of_defines ht, hstart, List.singleton_append,
      ofLocatedAll, ofLocated, keysAll, Source.Written.keys, List.map_append, ih, List.map_cons, ihinner]
    rfl

theorem in_of_mem_sitesAll {ss : List Source.Program.Statement}
    (h : Source.Program.Statement.ShowsAll normal text ws ss) : ∀ s ∈ sitesAll ws, s.In text := by
  induction h with
  | nil => exact fun s hs => nomatch hs
  | other _ _ ih => exact ih
  | definition hsite _ _ ihinner ih =>
    intro s hs
    rcases List.mem_append.mp hs with hs | hs
    · rcases List.mem_cons.mp hs with rfl | hs
      · exact hsite.in
      · exact ihinner s hs
    · exact ih s hs

end Keys

/-- Definitions in their order that start at the same places, in whatever order, start there in the same
order. -/
theorem Arranged.map_start_eq {xs ys : List Definition} (hx : Arranged none xs) (hy : Arranged none ys)
    (h : ∀ p, p ∈ xs.map (·.span.start) ↔ p ∈ ys.map (·.span.start)) :
    xs.map (·.span.start) = ys.map (·.span.start) := by
  have hsorted : ∀ {xs : List Definition}, Arranged none xs →
      (xs.map (·.span.start)).Pairwise Position.Precedes :=
    fun h => List.pairwise_map.mpr (h.pairwise.imp And.left)
  have hnodup : ∀ {xs : List Definition}, Arranged none xs → (xs.map (·.span.start)).Nodup := by
    intro xs h
    refine (hsorted h).imp ?_
    rintro p _ hlt rfl
    unfold Position.Precedes at hlt
    omega
  refine List.Perm.eq_of_pairwise (fun p q _ _ hpq hqp => ?_) (hsorted hx) (hsorted hy)
    ((List.perm_ext_iff_of_nodup (hnodup hx) (hnodup hy)).mpr h)
  unfold Position.Precedes at hpq hqp
  omega

end Definition

/-- What a node is known by: identifier, kind, name and the identifier of the node around it. -/
def Node.label (n : Node) : String × NodeKind × String × Option String := (n.id, n.kind, n.name, n.parent)

namespace CodeMap

/-- The label of the node of a definition with a key. -/
def labelOf (uri : String) (k : Source.DefinitionKind × String × Position × Option Position) :
    String × NodeKind × String × Option String :=
  (NodeId.make uri ⟨k.2.2.1, k.2.2.1⟩, k.1.nodeKind, k.2.1,
    some ((k.2.2.2.map fun p => NodeId.make uri ⟨p, p⟩).getD uri))

theorem label_definitionNode (uri : String) (x : Definition) :
    (definitionNode uri x).label = labelOf uri x.key := by
  obtain ⟨kind, name, span, parent⟩ := x
  cases parent <;> rfl

theorem map_label_outlined (d : Document) (path : Path) (xs : List Source.Located) :
    (outlined d path xs).map Node.label = (moduleNode d path).label ::
      ((Definition.ofLocatedAll d.text.toList none xs).map Definition.key).map (labelOf d.uri) := by
  rw [outlined, List.map_cons, List.map_map, List.map_map]
  exact congrArg _ (List.map_congr_left fun x _ => label_definitionNode d.uri x)

/-- A label tells where a definition starts and what it is called. -/
theorem map_eq_of_map_label {uri : String}
    {ks ks' : List (Source.DefinitionKind × String × Position × Option Position)}
    (h : ks.map (labelOf uri) = ks'.map (labelOf uri)) :
    ks.map (·.2.2.1) = ks'.map (·.2.2.1) ∧ ks.map (·.2.1) = ks'.map (·.2.1) := by
  have hinj : Function.Injective fun p : Position => NodeId.make uri ⟨p, p⟩ :=
    fun p q e => NodeId.start_of_make_eq e
  constructor
  · have hids := congrArg (List.map Prod.fst) h
    rw [List.map_map, List.map_map] at hids
    refine List.map_injective_iff.mpr hinj ?_
    rw [List.map_map, List.map_map]
    exact hids
  · have hnames := congrArg (List.map (·.2.2.1)) h
    rw [List.map_map, List.map_map] at hnames
    exact hnames

/-- The identifiers of the definitions of a document tell where they start. -/
theorem exists_id_outlined_iff (d : Document) (path : Path) (xs : List Source.Located) (p : Position) :
    (∃ n ∈ outlined d path xs, n.id = NodeId.make d.uri ⟨p, p⟩) ↔
      p ∈ (Definition.ofLocatedAll d.text.toList none xs).map (·.span.start) := by
  constructor
  · rintro ⟨n, hn, hid⟩
    rcases List.mem_cons.mp hn with rfl | hn
    · exact absurd hid.symm (make_ne d.uri _)
    · obtain ⟨x, hx, rfl⟩ := List.mem_map.mp hn
      exact List.mem_map.mpr ⟨x, hx, NodeId.start_of_make_eq hid⟩
  · intro hp
    obtain ⟨x, hx, rfl⟩ := List.mem_map.mp hp
    exact ⟨_, List.mem_cons_of_mem _ (List.mem_map_of_mem hx), rfl⟩

section Nodes

variable {d : Document} {path : Path} {normal : String → String} {ss : List Source.Program.Statement}
  {ts : List Source.Tree} {ws : List Written}
  (hprogram : Source.Program.Statement.ShowsAll normal d.text.toList ws ss) (htree : Source.Tree.ShowsAll ws ts)
include hprogram htree

/-- At flush sites the nodes of program and tree are called the same, but for the names. -/
theorem map_label_of_flush (hflush : ∀ s ∈ Written.sitesAll ws, s.Flush)
    (hnames : ∀ n ∈ Written.namesAll ws, normal n = n) :
    (outlined d path (Source.Program.Statement.locatedAll ss)).map Node.label =
      (outlined d path (Source.Tree.locatedAll ts)).map Node.label := by
  have hplace : ∀ s ∈ Written.sitesAll ws,
      positionOf d.text.toList s.taken = positionOf d.text.toList (.after s.front) := fun s hs =>
    (Site.positionOf_taken_iff (Definition.in_of_mem_sitesAll hprogram s hs)).mpr (hflush s hs)
  rw [map_label_outlined, map_label_outlined, Definition.map_key_program hprogram, Definition.map_key_tree htree,
    Written.keysAll_congr _ ws hplace hnames]
  rfl

theorem map_start_iff_flush :
    (Definition.ofLocatedAll d.text.toList none (Source.Program.Statement.locatedAll ss)).map (·.span.start) =
      (Definition.ofLocatedAll d.text.toList none (Source.Tree.locatedAll ts)).map (·.span.start) ↔
      ∀ s ∈ Written.sitesAll ws, s.Flush := by
  have hstart : ∀ xs : List Definition, xs.map (·.span.start) = (xs.map Definition.key).map (·.2.2.1) := by
    intro xs
    rw [List.map_map]
    rfl
  rw [hstart, hstart, Definition.map_key_program hprogram, Definition.map_key_tree htree,
    Written.map_start_keysAll, Written.map_start_keysAll, List.map_inj_left]
  exact forall₂_congr fun s hs =>
    Site.positionOf_taken_iff (Definition.in_of_mem_sitesAll hprogram s hs)

/-- Program and tree have the same identifiers just if all sites are flush. -/
theorem same_ids_iff_flush
    (hss : Source.Located.LaidAll d.text.toList (Source.Program.Statement.locatedAll ss))
    (hts : Source.Located.LaidAll d.text.toList (Source.Tree.locatedAll ts)) :
    (∀ id, (∃ n ∈ outlined d path (Source.Program.Statement.locatedAll ss), n.id = id) ↔
      ∃ n ∈ outlined d path (Source.Tree.locatedAll ts), n.id = id) ↔
      ∀ s ∈ Written.sitesAll ws, s.Flush := by
  rw [← map_start_iff_flush hprogram htree]
  constructor
  · intro h
    refine (Definition.arranged_ofLocatedAll _ none _ hss).map_start_eq
      (Definition.arranged_ofLocatedAll _ none _ hts) fun p => ?_
    rw [← exists_id_outlined_iff d path, ← exists_id_outlined_iff d path]
    exact h _
  · intro h id
    have hids : ∀ xs, (outlined d path xs).map (·.id) = d.uri ::
        ((Definition.ofLocatedAll d.text.toList none xs).map (·.span.start)).map
          fun p => NodeId.make d.uri ⟨p, p⟩ := by
      intro xs
      rw [outlined, List.map_cons, List.map_map, List.map_map]
      rfl
    have hmem : ∀ xs, (∃ n ∈ outlined d path xs, n.id = id) ↔ id ∈ (outlined d path xs).map (·.id) :=
      fun xs => List.mem_map.symm
    rw [hmem, hmem, hids, hids, h]

/-- And they have the same labels just if also all names are in their normal form. -/
theorem same_labels_iff :
    (outlined d path (Source.Program.Statement.locatedAll ss)).map Node.label =
      (outlined d path (Source.Tree.locatedAll ts)).map Node.label ↔
      (∀ s ∈ Written.sitesAll ws, s.Flush) ∧ ∀ n ∈ Written.namesAll ws, normal n = n := by
  constructor
  · intro h
    rw [map_label_outlined, map_label_outlined] at h
    obtain ⟨hstarts, hnames⟩ := map_eq_of_map_label (List.cons.inj h).2
    constructor
    · rw [← map_start_iff_flush hprogram htree]
      rw [List.map_map, List.map_map] at hstarts
      exact hstarts
    · rw [Definition.map_key_program hprogram, Definition.map_key_tree htree, Written.map_name_keysAll,
        Written.map_name_keysAll, List.map_inj_left] at hnames
      exact hnames
  · rintro ⟨hflush, hnames⟩
    exact map_label_of_flush hprogram htree hflush hnames

end Nodes

end CodeMap

namespace Source.Imported

open CodeMap (targets)

/-- An import is read as it is written, and where a tree has no names for it, those that a program has find
nothing. -/
def Alike (normal : String → String) (w : Workspace) (path : Path) : Imported → Prop
  | .modules names => ∀ n ∈ names, n.Plain normal
  | .members .names _ module names => (∀ n ∈ module, n.Plain normal) ∧ ∀ n ∈ names, n.Plain normal
  | .members .star level module names => (∀ n ∈ module, n.Plain normal) ∧
    targets w path ⟨(module.map (·.value normal)).getD "", level, names.map (·.value normal)⟩ =
      targets w path ⟨(module.map (·.value normal)).getD "", level, []⟩
  | .members .future level module names =>
    targets w path ⟨(module.map (·.value normal)).getD "", level, names.map (·.value normal)⟩ = .ok []

instance (normal : String → String) (w : Workspace) (path : Path) (i : Imported) :
    Decidable (i.Alike normal w path) :=
  match i with
  | .modules names => inferInstanceAs (Decidable (∀ n ∈ names, n.Plain normal))
  | .members .names _ module names =>
    inferInstanceAs (Decidable ((∀ n ∈ module, n.Plain normal) ∧ ∀ n ∈ names, n.Plain normal))
  | .members .star _ module _ => inferInstanceAs (Decidable ((∀ n ∈ module, n.Plain normal) ∧ _ = _))
  | .members .future _ _ _ => inferInstanceAs (Decidable (_ = _))

theorem map_value_eq {normal : String → String} {names : List Dotted} (h : ∀ n ∈ names, n.Plain normal) :
    names.map (·.value normal) = names.map Dotted.written := List.map_congr_left h

theorem getD_value_eq {normal : String → String} {module : Option Dotted} (h : ∀ n ∈ module, n.Plain normal) :
    (module.map (·.value normal)).getD "" = (module.map Dotted.written).getD "" := by
  cases module with
  | none => rfl
  | some n => exact h n rfl

/-- Program and tree come to the same for an import, unless it finds nothing. -/
theorem Alike.targets_iff {normal : String → String} {w : Workspace} {path : Path} {i : Imported}
    (h : i.Alike normal w path) {r : Except CodeMap.Error (List Path)} (hr : r ≠ .ok []) :
    (∃ ref ∈ i.strictRefs normal, targets w path ref = r) ↔ ∃ ref ∈ i.tolerantRefs, targets w path ref = r := by
  cases i with
  | modules names =>
    have hrefs : (Imported.modules names).strictRefs normal = tolerantRefs (.modules names) := by
      refine List.map_congr_left fun n hn => ?_
      rw [show n.value normal = n.written from h n hn]
    rw [hrefs]
  | members form level module names =>
    cases form with
    | names =>
      obtain ⟨hmodule, hnames⟩ := h
      rw [strictRefs, tolerantRefs, getD_value_eq hmodule, map_value_eq hnames]
    | star =>
      obtain ⟨hmodule, hstar⟩ := h
      rw [strictRefs, tolerantRefs, ← getD_value_eq hmodule]
      simp only [List.mem_singleton, exists_eq_left, hstar]
    | future =>
      have hnothing : targets w path _ = .ok [] := h
      simp only [strictRefs, tolerantRefs, List.mem_singleton, exists_eq_left, hnothing, List.not_mem_nil, false_and,
        exists_false, iff_false]
      exact Ne.symm hr

end Source.Imported

namespace CodeMap

section Edges

variable {w : Workspace} {path : Path} {refs refs' : List Source.ImportRef} {foreign foreign' : List Node}

variable (h : ∀ r : Except Error (List Path), r ≠ .ok [] →
  ((∃ ref ∈ refs, targets w path ref = r) ↔ ∃ ref ∈ refs', targets w path ref = r))
include h

/-- References that come to the same are linked or not alike. -/
theorem exists_linked_of_same (hlinked : ∃ foreign, Linked w path refs foreign) :
    ∃ foreign, Linked w path refs' foreign := by
  rw [exists_linked_iff] at hlinked ⊢
  obtain ⟨hrefs, hfiles⟩ := hlinked
  constructor
  · intro ref' href'
    cases hr : targets w path ref' with
    | ok ps => exact ⟨ps, rfl⟩
    | error e =>
      obtain ⟨ref, href, he⟩ := (h (.error e) nofun).mpr ⟨ref', href', hr⟩
      obtain ⟨ps, hps⟩ := hrefs ref href
      rw [he] at hps
      cases hps
  · intro ref' href' ps hps p hp
    have hne : (.ok ps : Except Error (List Path)) ≠ .ok [] := by
      rintro ⟨⟩
      cases hp
    obtain ⟨ref, href, htargets⟩ := (h _ hne).mpr ⟨ref', href', hps⟩
    exact hfiles ref href ps htargets p hp

theorem linkedIds_eq_of_same (hf : Linked w path refs foreign) (hf' : Linked w path refs' foreign')
    (uri : String) : linkedIds uri foreign = linkedIds uri foreign' := by
  have hmem : ∀ f, f ∈ foreign ↔ f ∈ foreign' := by
    intro f
    have hswap : ∀ refs : List Source.ImportRef,
        (∃ ref ∈ refs, ∃ ps p, targets w path ref = .ok ps ∧ p ∈ ps ∧ foreignNode? w p = .ok (some f)) ↔
          ∃ ps p, p ∈ ps ∧ foreignNode? w p = .ok (some f) ∧ ∃ ref ∈ refs, targets w path ref = .ok ps := by
      intro refs
      constructor
      · rintro ⟨ref, href, ps, p, hps, hp, hnode⟩
        exact ⟨ps, p, hp, hnode, ref, href, hps⟩
      · rintro ⟨ps, p, hp, hnode, ref, href, hps⟩
        exact ⟨ref, href, ps, p, hps, hp, hnode⟩
    rw [hf.mem_iff, hf'.mem_iff, hswap, hswap]
    refine exists₂_congr fun ps p => and_congr_right fun hp => and_congr_right fun _ => h _ ?_
    rintro ⟨⟩
    cases hp
  apply IdSet.ext
  intro a
  simp only [linkedIds, IdSet.mem_ofList, List.mem_filter, List.mem_map, hmem]

end Edges

section Backends

variable {d : Document} {o : Source.Outline}

theorem outline_program {p : Source.Program.Parser} {ss : List Source.Program.Statement}
    (hparse : p.parse d.text.toList = some ss) : outline (.program p) d =
      if '\x00' ∈ d.text.toList then .error .nulCharacter
      else .ok ⟨Source.Program.Statement.locatedAll ss, Source.Program.Statement.refs ss⟩ := by
  unfold outline
  dsimp only
  rw [hparse]
  by_cases hnul : '\x00' ∈ d.text.toList
  · rw [if_pos hnul, if_pos (List.contains_iff_mem.mpr hnul)]
  · rw [if_neg hnul, if_neg fun hcontains => hnul (List.contains_iff_mem.mp hcontains)]

theorem eq_of_outline_program {p : Source.Program.Parser} {ss : List Source.Program.Statement}
    (hparse : p.parse d.text.toList = some ss) (h : outline (.program p) d = .ok o) :
    o = ⟨Source.Program.Statement.locatedAll ss, Source.Program.Statement.refs ss⟩ := by
  rw [outline_program hparse] at h
  split at h
  · cases h
  · exact (Except.ok.inj h).symm

theorem eq_of_outline_tree {q : Source.Tree.Parser} {stack : Nat} (h : outline (.tree q stack) d = .ok o) :
    o = ⟨Source.Tree.locatedAll (q.parse d.text.toList).children,
      Source.Tree.refsAll (q.parse d.text.toList).children⟩ := by
  unfold outline at h
  dsimp only at h
  split at h
  · cases h
  · exact (Except.ok.inj h).symm

end Backends

/-- Let a reader of programs and a reader of trees show the same definitions and imports of a text. The two
backends then give the same nodes just if all definitions stand at flush sites and under names in their normal
form, and the same edges if all imports are alike. -/
theorem backends_agree {p : Source.Program.Parser} {q : Source.Tree.Parser} {stack : Nat} {w : Workspace}
    {d : Document} {path : Path} {normal : String → String} {ss : List Source.Program.Statement}
    {definitions : List Written} {imports : List Imported} (hpath : Uri.toPath d.uri = .ok path)
    (hs : supports path = true) (hblank : Text.blank d.text.toList = false)
    (hparse : p.parse d.text.toList = some ss)
    (h : Concurs normal d.text.toList ss (q.parse d.text.toList).children definitions imports) :
    (∀ m m', ofDocument (.program p) w d = .ok m → ofDocument (.tree q stack) w d = .ok m' →
      ((∀ id, (∃ n ∈ Pass.ownNodes d.uri m, n.id = id) ↔ ∃ n ∈ Pass.ownNodes d.uri m', n.id = id) ↔
        ∀ s ∈ Written.sitesAll definitions, s.Flush) ∧
      ((Pass.ownNodes d.uri m).map Node.label = (Pass.ownNodes d.uri m').map Node.label ↔
        (∀ s ∈ Written.sitesAll definitions, s.Flush) ∧
          ∀ n ∈ Written.namesAll definitions, normal n = n)) ∧
    ((∀ i ∈ imports, i.Alike normal w path) →
      (∀ m m', ofDocument (.program p) w d = .ok m → ofDocument (.tree q stack) w d = .ok m' →
        ∀ k, m.imports.find? k = m'.imports.find? k ∧ m.exports.find? k = m'.exports.find? k) ∧
      ('\x00' ∉ d.text.toList → Source.Tree.depthAll (q.parse d.text.toList).children ≤ stack →
        ((∃ m, ofDocument (.program p) w d = .ok m) ↔ ∃ m, ofDocument (.tree q stack) w d = .ok m))) := by
  constructor
  · intro m m' hm hm'
    obtain ⟨o, ho, hlaid, hown⟩ := ownNodes_ofDocument hpath hs hblank hm
    obtain ⟨o', ho', hlaid', hown'⟩ := ownNodes_ofDocument hpath hs hblank hm'
    obtain rfl := eq_of_outline_program hparse ho
    obtain rfl := eq_of_outline_tree ho'
    rw [hown, hown']
    exact ⟨same_ids_iff_flush h.program h.tree hlaid hlaid', same_labels_iff h.program h.tree⟩
  · intro halike
    have hsame : ∀ r : Except Error (List Path), r ≠ .ok [] →
        ((∃ ref ∈ Source.Program.Statement.refs ss, targets w path ref = r) ↔
          ∃ ref ∈ Source.Tree.refsAll (q.parse d.text.toList).children, targets w path ref = r) := by
      intro r hr
      simp only [Source.Program.Statement.mem_refs_iff h.statements, Source.Tree.mem_refsAll_iff h.nodes]
      constructor
      · rintro ⟨ref, ⟨i, hi, href⟩, htargets⟩
        obtain ⟨ref', href', htargets'⟩ := ((halike i hi).targets_iff hr).mp ⟨ref, href, htargets⟩
        exact ⟨ref', ⟨i, hi, href'⟩, htargets'⟩
      · rintro ⟨ref, ⟨i, hi, href⟩, htargets⟩
        obtain ⟨ref', href', htargets'⟩ := ((halike i hi).targets_iff hr).mpr ⟨ref, href, htargets⟩
        exact ⟨ref', ⟨i, hi, href'⟩, htargets'⟩
    constructor
    · intro m m' hm hm' k
      obtain ⟨o, foreign, ho, hlinked, rfl⟩ := (ofDocument_eq_ok_iff hpath hs hblank).mp hm
      obtain ⟨o', foreign', ho', hlinked', rfl⟩ := (ofDocument_eq_ok_iff hpath hs hblank).mp hm'
      obtain rfl := eq_of_outline_program hparse ho
      obtain rfl := eq_of_outline_tree ho'
      rw [find?_imports_foldl_link, find?_imports_foldl_link, find?_exports_foldl_link, find?_exports_foldl_link,
        linkedIds_eq_of_same hsame hlinked hlinked' d.uri]
      exact ⟨rfl, rfl⟩
    · intro hnul hdepth
      have hprogram := outline_program (p := p) hparse
      rw [if_neg hnul] at hprogram
      have htree : outline (.tree q stack) d = .ok ⟨Source.Tree.locatedAll (q.parse d.text.toList).children,
          Source.Tree.refsAll (q.parse d.text.toList).children⟩ := if_neg (Nat.not_lt.mpr hdepth)
      rw [exists_ofDocument_iff hpath hs hblank hprogram, exists_ofDocument_iff hpath hs hblank htree]
      exact ⟨exists_linked_of_same hsame, exists_linked_of_same fun r hr => (hsame r hr).symm⟩

theorem backends_agree_decorated :
    let text := "from __future__ import x\nimport b.c as d, e\nfrom .b import *\nclass A:\n\t@x\n\tdef f(): 1\n"
    let d : Document := ⟨"file:///w/a.py", text⟩
    let path : Path := ⟨.root, ["w", "a.py"]⟩
    let w : Workspace := ⟨⟨[(["w"], .directory), (["w", "a.py"], .file (Utf8.encode text.toList)),
      (["w", "b.py"], .file []), (["w", "b"], .directory), (["w", "b", "c.py"], .file [])]⟩, ⟨.root, []⟩,
      ⟨.root, ["w"]⟩⟩
    Uri.toPath d.uri = .ok path ∧ supports path = true ∧ Text.blank text.toList = false ∧
      ∃ ss definitions imports m m', (Source.Program.Parser.lexical id).parse text.toList = some ss ∧
        Concurs id text.toList ss (Source.Tree.Parser.lexical.parse text.toList).children definitions imports ∧
        ofDocument .strict w d = .ok m ∧ ofDocument .tolerant w d = .ok m' ∧
        (Pass.ownNodes d.uri m).map Node.label = (Pass.ownNodes d.uri m').map Node.label ∧
        (∀ k, m.imports.find? k = m'.imports.find? k ∧ m.exports.find? k = m'.exports.find? k) ∧
        m.imports.entries = [(d.uri, .ofList ["file:///w/b.py", "file:///w/b/c.py"])] := by
  intro text d path w
  have hpath : Uri.toPath d.uri = .ok path := by decide +kernel
  have hs : supports path = true := by decide +kernel
  have hblank : Text.blank text.toList = false := by decide +kernel
  have hshared : Source.Shared text.toList := ⟨by decide +kernel, by decide +kernel, by decide +kernel⟩
  have hparse : (Source.Program.Parser.lexical id).parse text.toList = some _ := if_pos hshared.accepted
  have hdepth : Source.Tree.depthAll (Source.Tree.Parser.lexical.parse text.toList).children ≤ 1000 := by
    decide +kernel
  obtain ⟨hnodes, hedges⟩ := @backends_agree _ _ 1000 w _ _ _ _ _ _ hpath hs hblank hparse (hshared.concurs id)
  obtain ⟨hsame, hreturns⟩ := hedges (by decide +kernel)
  have himports : (ofDocument .strict w d).map (·.imports.entries) =
      .ok [(d.uri, .ofList ["file:///w/b.py", "file:///w/b/c.py"])] := by decide +kernel
  cases hm : ofDocument .strict w d with
  | error e =>
    rw [hm] at himports
    cases himports
  | ok m =>
    obtain ⟨m', hm'⟩ := (hreturns (by decide +kernel) hdepth).mp ⟨m, hm⟩
    rw [hm] at himports
    exact ⟨hpath, hs, hblank, _, _, _, m, m', hparse, hshared.concurs id, rfl, hm',
      (hnodes m m' hm hm').2.mpr ⟨by decide +kernel, fun _ _ => rfl⟩, hsame m m' hm hm', Except.ok.inj himports⟩

/-- With a blank between mark and expression the strict backend takes a decorated definition to start
behind the mark, and the tolerant one at the mark. -/
theorem ids_differ_at_decorator :
    let d : Document := ⟨"file:///tmp/w/ws/m.py", "@ a\ndef f(): pass\n"⟩
    let w : Workspace := ⟨.empty, ⟨.root, []⟩, ⟨.root, ["tmp", "w", "ws"]⟩⟩
    (ofDocument .strict w d).map (fun m => (Pass.ownNodes d.uri m).map (·.id)) =
        .ok [d.uri, "file:///tmp/w/ws/m.py#0:1"] ∧
      (ofDocument .tolerant w d).map (fun m => (Pass.ownNodes d.uri m).map (·.id)) =
        .ok [d.uri, "file:///tmp/w/ws/m.py#0:0"] := by
  decide +kernel

end CodeMap

end OutlineIndex
