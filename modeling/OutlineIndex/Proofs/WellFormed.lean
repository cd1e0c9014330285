import OutlineIndex.Proofs.Changes
import OutlineIndex.Proofs.Enclosure
import OutlineIndex.Source.Lexical

namespace OutlineIndex

theorem NodeId.start_of_make_eq {uri : String} {r s : Span} (h : make uri r = make uri s) :
    r.start = s.start := by
  apply fragment_inj
  rw [make_eq, make_eq, withFragment, withFragment, if_neg (fragment_ne_empty r),
    if_neg (fragment_ne_empty s)] at h
  have hchars : (fragment r).toList = (fragment s).toList := by simpa using congrArg String.toList h
  exact String.toList_inj.mp hchars

namespace CodeMap

/-- The module of a document and its definitions. -/
def outlined (d : Document) (path : Path) (xs : List Source.Located) : List Node :=
  moduleNode d path :: (Definition.ofLocatedAll d.text.toList none xs).map (definitionNode d.uri)

theorem nodup_outlined {d : Document} (path : Path) {xs : List Source.Located}
    (h : Definition.Arranged none (Definition.ofLocatedAll d.text.toList none xs)) :
    ((outlined d path xs).map (·.id)).Nodup := by
  refine List.nodup_cons.mpr ⟨?_, ?_⟩
  · intro hmem
    obtain ⟨n, hn, hid⟩ := List.mem_map.mp hmem
    obtain ⟨x, -, rfl⟩ := List.mem_map.mp hn
    exact make_ne d.uri x.span hid
  · rw [List.map_map]
    refine List.pairwise_map.mpr (h.pairwise.imp fun {x y} hxy e => ?_)
    have hlt := hxy.1
    rw [NodeId.start_of_make_eq e] at hlt
    unfold Position.Precedes at hlt
    omega

/-- The nodes that a document has of its own are those of its text, in their order. -/
theorem values_ownNodes {d : Document} {path : Path} {xs : List Source.Located}
    (h : ((outlined d path xs).map (·.id)).Nodup) : (ownNodes d path xs).values = outlined d path xs := by
  obtain ⟨hmodule, hdefinitions⟩ := List.nodup_cons.mp h
  have hentries := Table.entries_foldl_put
    (((Definition.ofLocatedAll d.text.toList none xs).map (definitionNode d.uri)).map fun x => (x.id, x))
    (Table.empty.put d.uri (moduleNode d path)) (by simpa [Function.comp_def] using hdefinitions) (by
      intro e he hkey
      obtain ⟨n, hn, rfl⟩ := List.mem_map.mp he
      exact hmodule (List.mem_map.mpr ⟨n, hn, List.mem_singleton.mp hkey⟩))
  rw [List.foldl_map, List.foldl_map] at hentries
  have hown : (ownNodes d path xs).entries = _ := hentries
  rw [Table.values, hown, outlined]
  simp [Table.put, Table.putEntry, Table.empty, Function.comp_def]

/-- Linking adds no nodes of the document itself. -/
theorem ownNodes_foldl_link {uri : String} {foreign : List Node} (hf : ∀ f ∈ foreign, f.id = f.uri)
    (m : CodeMap) : Pass.ownNodes uri (foreign.foldl (link uri) m) = Pass.ownNodes uri m := by
  induction foreign generalizing m with
  | nil => rfl
  | cons f fs ih =>
    rw [List.foldl_cons, ih (fun g hg => hf g (List.mem_cons_of_mem _ hg))]
    have hid := hf f List.mem_cons_self
    unfold link
    split
    · rfl
    rename_i hne
    unfold Pass.ownNodes
    dsimp only
    split
    · rfl
    · rename_i hnew
      have hput : (m.nodes.put f.id f).entries = m.nodes.entries ++ [(f.id, f)] := if_neg hnew
      rw [Table.values, hput, List.map_append, List.filter_append, Table.values]
      have hother : (f.uri == uri) = false := by simpa [hid] using hne
      simp [hother]

end CodeMap

/-- The backend counts the lines of a text as the document does. -/
def Backend.KeepsLines (b : Backend) (text : List Char) : Prop :=
  (∃ parser stack, b = .tree parser stack) ∨ Text.returnsPaired text = true

namespace CodeMap

/-- Every definition among the nodes that is around `n` is around `p` or is `p`. -/
def Innermost (nodes : List Node) (p n : Node) : Prop :=
  ∀ q ∈ nodes, q.parent ≠ none → q ≠ n → q.span.Contains n.span → p.parent ≠ none ∧ q.span.Contains p.span

/-- The contribution `m` of a document: its own nodes, which are the module and one for each of the
definitions `found` in the text, stand one in another as the spans do; its edges lead from the module to
the modules of other files of the workspace, and back. -/
structure WellFormed (b : Backend) (w : Workspace) (d : Document) (path : Path)
    (found : List (NodeKind × String × Span)) (m : CodeMap) : Prop where
  nodes : ∃ definitions, Pass.ownNodes d.uri m = moduleNode d path :: definitions ∧
    definitions.map (fun n => (n.kind, n.name, n.span)) = found
  distinct : ((Pass.ownNodes d.uri m).map (·.id)).Nodup
  parents : ∀ pre n post, Pass.ownNodes d.uri m = pre ++ n :: post → pre ≠ [] →
    ∃ p ∈ pre, n.parent = some p.id ∧ Innermost (Pass.ownNodes d.uri m) p n ∧
      (p.parent ≠ none ∨ b.KeepsLines d.text.toList → p.span.Contains n.span)
  siblings : ∀ n ∈ Pass.ownNodes d.uri m, ∀ n' ∈ Pass.ownNodes d.uri m, n ≠ n' → n.parent = n'.parent →
    n.span.Apart n'.span
  importer : ∀ k ∈ m.imports.keys, k = d.uri
  targets : ∀ t, CodeGraph.HasEdge m.imports d.uri t ↔ ∃ n ∈ m.nodes.values, n.uri ≠ d.uri ∧ n.id = t
  converse : ∀ k t, CodeGraph.HasEdge m.exports t k ↔ CodeGraph.HasEdge m.imports k t
  irreflexive : ∀ k, ¬CodeGraph.HasEdge m.imports k k
  foreign : ∀ n ∈ m.nodes.values, n.uri ≠ d.uri → ∃ p, IsTarget w p ∧ n.uri = Uri.ofResolved p ∧ n.id = n.uri

section Nodes

variable {d : Document} {path : Path} {xs : List Source.Located}

theorem parent_definitionNode_eq {uri : String} {x y : Definition}
    (h : (definitionNode uri x).parent = (definitionNode uri y).parent) :
    x.parent.map (·.start) = y.parent.map (·.start) := by
  have hid := Option.some.inj h
  cases hx : x.parent with
  | none =>
    cases hy : y.parent with
    | none => rfl
    | some r =>
      rw [hx, hy] at hid
      exact absurd hid.symm (make_ne uri r)
  | some r =>
    cases hy : y.parent with
    | none =>
      rw [hx, hy] at hid
      exact absurd hid (make_ne uri r)
    | some r' =>
      rw [hx, hy] at hid
      exact congrArg some (NodeId.start_of_make_eq hid)

/-- The module contains every definition in it, if those that are directly in it end on the lines of the
document. -/
theorem fullSpan_contains (hlaid : Source.Located.LaidAll d.text.toList xs)
    (hends : ∀ l ∈ xs, l.stop.line ≤ d.text.toList.count '\n') {x : Definition}
    (hx : x ∈ Definition.ofLocatedAll d.text.toList none xs) : d.fullSpan.Contains x.span := by
  obtain ⟨l, hl, -, a, b, hspan, -, -, hb, -⟩ := Definition.within_of_mem_ofLocatedAll xs hlaid hx
  have hstart : x.span.start = positionOf d.text.toList a := congrArg Span.start hspan
  have hstop : x.span.stop = positionOf d.text.toList b := congrArg Span.stop hspan
  constructor
  · have hline := line_positionOf d.text.toList a
    have hcharacter := character_positionOf d.text.toList a
    have hnonneg : 0 ≤ (positionOf d.text.toList a).character := by
      rw [hcharacter]
      split <;> omega
    rw [hstart]
    unfold Position.Precedes
    dsimp only [Document.fullSpan, OutlineIndex.fullSpan]
    omega
  · rw [hstop]
    exact not_precedes_endPosition (hb.line_le.trans (hends l hl))

variable (h : Definition.Arranged none (Definition.ofLocatedAll d.text.toList none xs))
include h

theorem innermost_of_contains {x : Definition} (hx : x ∈ Definition.ofLocatedAll d.text.toList none xs)
    {p : Node} (hp : ∀ r, x.parent = some r → p.parent ≠ none ∧ p.span = r) :
    Innermost (outlined d path xs) p (definitionNode d.uri x) := by
  intro q hq hqparent hne hcontains
  rcases List.mem_cons.mp hq with rfl | hq
  · exact absurd rfl hqparent
  · obtain ⟨y, hy, rfl⟩ := List.mem_map.mp hq
    obtain ⟨r, hr, hyr⟩ := h.contains_parent hx hy (fun e => hne (e ▸ rfl)) hcontains
    obtain ⟨hparent, rfl⟩ := hp r hr
    exact ⟨hparent, hyr⟩

theorem exists_parent_outlined {b : Backend} (hmodule : b.KeepsLines d.text.toList →
      ∀ x ∈ Definition.ofLocatedAll d.text.toList none xs, d.fullSpan.Contains x.span)
    {pre post : List Node} {n : Node} (e : outlined d path xs = pre ++ n :: post) (hpre : pre ≠ []) :
    ∃ p ∈ pre, n.parent = some p.id ∧ Innermost (outlined d path xs) p n ∧
      (p.parent ≠ none ∨ b.KeepsLines d.text.toList → p.span.Contains n.span) := by
  cases pre with
  | nil => exact absurd rfl hpre
  | cons a pre =>
    obtain ⟨rfl, htail⟩ := List.cons.inj e
    obtain ⟨before, rest, hxs, rfl, hrest⟩ := List.map_eq_append_iff.mp htail
    obtain ⟨x, after, rfl, rfl, -⟩ := List.map_eq_cons_iff.mp hrest
    have hx : x ∈ Definition.ofLocatedAll d.text.toList none xs := by
      rw [hxs]
      simp
    rcases h.parents before x after hxs with hnone | ⟨y, hy, hparent, hcontains⟩
    · refine ⟨moduleNode d path, List.mem_cons_self, ?_, ?_, ?_⟩
      · simp [definitionNode, hnone, moduleNode]
      · refine innermost_of_contains h hx fun r hr => ?_
        rw [hnone] at hr
        cases hr
      · rintro (hparent | hkeeps)
        · exact absurd rfl hparent
        · exact hmodule hkeeps x hx
    · refine ⟨definitionNode d.uri y, List.mem_cons_of_mem _ (List.mem_map_of_mem hy), ?_, ?_, ?_⟩
      · simp [definitionNode, hparent]
      · refine innermost_of_contains h hx fun r hr => ?_
        cases hr.symm.trans hparent
        exact ⟨by simp [definitionNode], rfl⟩
      · exact fun _ => hcontains

theorem apart_outlined {n n' : Node} (hn : n ∈ outlined d path xs) (hn' : n' ∈ outlined d path xs)
    (hne : n ≠ n') (hparent : n.parent = n'.parent) : n.span.Apart n'.span := by
  rcases List.mem_cons.mp hn with rfl | hn
  · rcases List.mem_cons.mp hn' with rfl | hn'
    · exact absurd rfl hne
    · obtain ⟨y, -, rfl⟩ := List.mem_map.mp hn'
      cases hparent
  · obtain ⟨x, hx, rfl⟩ := List.mem_map.mp hn
    rcases List.mem_cons.mp hn' with rfl | hn'
    · cases hparent
    · obtain ⟨y, hy, rfl⟩ := List.mem_map.mp hn'
      exact h.apart hx hy (fun e => hne (e ▸ rfl)) (parent_definitionNode_eq hparent)

end Nodes

/-- A document's own nodes are the module and the definitions of its text. -/
theorem ownNodes_linked {w : Workspace} {d : Document} {path : Path} {xs : List Source.Located}
    {foreign : List Node} (hforeign : ∀ f ∈ foreign, IsForeign w f)
    (h : ((outlined d path xs).map (·.id)).Nodup) :
    Pass.ownNodes d.uri (foreign.foldl (link d.uri) ⟨ownNodes d path xs, .empty, .empty⟩) =
      outlined d path xs := by
  rw [ownNodes_foldl_link (fun f hf => (hforeign f hf).id_eq), Pass.ownNodes, values_ownNodes h]
  refine List.filter_eq_self.mpr fun n hn => ?_
  rcases List.mem_cons.mp hn with rfl | hn
  · simp [moduleNode]
  · obtain ⟨x, -, rfl⟩ := List.mem_map.mp hn
    simp [definitionNode]

namespace Contribution

variable {w : Workspace} {uri : String} {m : CodeMap} (h : Contribution w uri m)
include h

theorem hasEdge_imports {k t : String} :
    CodeGraph.HasEdge m.imports k t ↔ k = uri ∧ t ∈ foreignSet uri m := by
  unfold CodeGraph.HasEdge
  rw [h.imports]
  by_cases hk : k = uri ∧ foreignSet uri m ≠ .empty
  · simp [hk]
  · rw [if_neg hk]
    constructor
    · rintro ⟨s, hs, -⟩
      cases hs
    · rintro ⟨rfl, ht⟩
      refine absurd ⟨rfl, fun hempty => ?_⟩ hk
      exact (IdSet.eq_empty_iff.mp hempty) t ht

theorem hasEdge_exports {k t : String} :
    CodeGraph.HasEdge m.exports t k ↔ k = uri ∧ t ∈ foreignSet uri m := by
  unfold CodeGraph.HasEdge
  rw [h.exports]
  by_cases ht : t ∈ foreignSet uri m
  · simp [ht]
  · simp [ht]

theorem isForeign {n : Node} (hn : n ∈ m.nodes.values) (hne : n.uri ≠ uri) : IsForeign w n := by
  obtain ⟨k, hk⟩ := Table.mem_values_iff.mp hn
  rcases h.nodes k n hk with hown | ⟨-, hforeign⟩
  · exact absurd hown.uri_eq hne
  · exact hforeign

theorem mem_foreignSet_iff {t : String} :
    t ∈ foreignSet uri m ↔ ∃ n ∈ m.nodes.values, n.uri ≠ uri ∧ n.id = t := by
  rw [mem_foreignSet]
  constructor
  · rintro ⟨hne, k, n, hk, rfl⟩
    have hn := Table.mem_values_iff.mpr ⟨k, hk⟩
    exact ⟨n, hn, hne, (h.isForeign hn hne).id_eq⟩
  · rintro ⟨n, hn, hne, rfl⟩
    have hid := (h.isForeign hn hne).id_eq
    obtain ⟨k, hk⟩ := Table.mem_values_iff.mp hn
    exact ⟨hid ▸ hne, k, n, hk, hid.symm⟩

end Contribution

/-- A document's own nodes are in the order of its text. -/
theorem ownNodes_ofDocument {b : Backend} {w : Workspace} {d : Document} {path : Path} {m : CodeMap}
    (hpath : Uri.toPath d.uri = .ok path) (hs : supports path = true)
    (hblank : Text.blank d.text.toList = false) (h : ofDocument b w d = .ok m) :
    ∃ o, outline b d = .ok o ∧ Source.Located.LaidAll d.text.toList o.definitions ∧
      Pass.ownNodes d.uri m = outlined d path o.definitions := by
  obtain ⟨o, foreign, ho, hlinked, rfl⟩ := (ofDocument_eq_ok_iff hpath hs hblank).mp h
  have hlaid := laidAll_outline ho
  exact ⟨o, ho, hlaid, ownNodes_linked hlinked.isForeign
    (nodup_outlined path (Definition.arranged_ofLocatedAll _ none _ hlaid))⟩

/-- A backend that counts lines as the document does finds no definition behind its last line. -/
theorem stop_le_of_keepsLines {b : Backend} {d : Document} {o : Source.Outline} (h : outline b d = .ok o)
    (hkeeps : b.KeepsLines d.text.toList) : ∀ l ∈ o.definitions, l.stop.line ≤ d.text.toList.count '\n' := by
  cases b with
  | unavailable => cases h
  | tree p stack =>
    unfold outline at h
    dsimp only at h
    split at h
    · cases h
    · cases h
      exact p.ends d.text.toList
  | program p =>
    have hpaired : Text.returnsPaired d.text.toList = true := hkeeps.resolve_left nofun
    unfold outline at h
    dsimp only at h
    split at h
    · cases h
    cases hparse : p.parse d.text.toList with
    | none =>
      rw [hparse] at h
      cases h
    | some ss =>
      rw [hparse] at h
      cases h
      intro l hl
      obtain ⟨_, _, _, _, _, _, hmem, rfl⟩ := Source.Program.Statement.mem_locatedAll hl
      rw [← Text.count_foldReturns hpaired]
      exact p.ends _ ss hparse _ hmem

/-- What a document contributes is well formed, whoever reads it, as far as the definitions that the reader
finds are nested and disjoint. -/
theorem wellFormed_ofDocument {b : Backend} {w : Workspace} {d : Document} {path : Path} {m : CodeMap}
    (hpath : Uri.toPath d.uri = .ok path) (hs : supports path = true)
    (hblank : Text.blank d.text.toList = false) (h : ofDocument b w d = .ok m) :
    ∃ o, outline b d = .ok o ∧
      WellFormed b w d path (Definition.declaredAll d.text.toList o.definitions) m := by
  have hcontribution := contribution_ofDocument h
  obtain ⟨o, ho, hlaid, hown⟩ := ownNodes_ofDocument hpath hs hblank h
  have harranged := Definition.arranged_ofLocatedAll d.text.toList none o.definitions hlaid
  have hnodup := nodup_outlined path harranged
  refine ⟨o, ho, ⟨_, hown, ?_⟩, by rwa [hown], ?_, ?_, ?_, ?_, ?_, ?_, ?_⟩
  · rw [List.map_map, ← Definition.map_ofLocatedAll d.text.toList none o.definitions]
    rfl
  · rw [hown]
    intro pre n post e hpre
    exact exists_parent_outlined harranged
      (fun hkeeps x hx => fullSpan_contains hlaid (stop_le_of_keepsLines ho hkeeps) hx) e hpre
  · rw [hown]
    intro n hn n' hn' hne hparent
    exact apart_outlined harranged hn hn' hne hparent
  · intro k hk
    obtain ⟨s, hs⟩ := Table.mem_keys_iff.mp hk
    rw [hcontribution.imports] at hs
    split at hs
    · rename_i hkey
      exact hkey.1
    · cases hs
  · intro t
    rw [hcontribution.hasEdge_imports, hcontribution.mem_foreignSet_iff]
    simp
  · intro k t
    rw [hcontribution.hasEdge_exports, hcontribution.hasEdge_imports]
  · intro k hk
    obtain ⟨rfl, ht⟩ := hcontribution.hasEdge_imports.mp hk
    exact (mem_foreignSet.mp ht).1 rfl
  · intro n hn hne
    have hforeign := hcontribution.isForeign hn hne
    obtain ⟨p, hp, huri⟩ := hforeign.target
    exact ⟨p, hp, huri, hforeign.id_eq⟩

/-- A class with a decorated function in it and a comment below, behind an import. -/
theorem wellFormed_ofDocument_nested :
    let text := "import b\nclass A:\n  @x\n  def f(): 1\n  # end\ndef g(): 2\n"
    let d : Document := ⟨"file:///w/a.py", text⟩
    let w : Workspace := ⟨⟨[(["w"], .directory), (["w", "b.py"], .file [])]⟩, ⟨.root, []⟩, ⟨.root, ["w"]⟩⟩
    Uri.toPath d.uri = .ok ⟨.root, ["w", "a.py"]⟩ ∧ supports ⟨.root, ["w", "a.py"]⟩ = true ∧
      Text.blank d.text.toList = false ∧ ∃ m o, ofDocument .tolerant w d = .ok m ∧
        outline .tolerant d = .ok o ∧ WellFormed .tolerant w d ⟨.root, ["w", "a.py"]⟩
          (Definition.declaredAll text.toList o.definitions) m ∧
        m.imports.keys = [d.uri] ∧
        Definition.declaredAll text.toList o.definitions = [(.classDef, "A", ⟨⟨1, 0⟩, ⟨4, 7⟩⟩),
          (.function, "f", ⟨⟨2, 2⟩, ⟨3, 12⟩⟩), (.function, "g", ⟨⟨5, 0⟩, ⟨5, 10⟩⟩)] := by
  intro text d w
  have hpath : Uri.toPath d.uri = .ok ⟨.root, ["w", "a.py"]⟩ := by decide +kernel
  have hs : supports ⟨.root, ["w", "a.py"]⟩ = true := by decide +kernel
  have hblank : Text.blank d.text.toList = false := by decide +kernel
  have hkeys : (ofDocument .tolerant w d).map (·.imports.keys) = .ok [d.uri] := by decide +kernel
  have hdeclared : (outline .tolerant d).map (fun o => Definition.declaredAll text.toList o.definitions) =
      .ok [(.classDef, "A", ⟨⟨1, 0⟩, ⟨4, 7⟩⟩), (.function, "f", ⟨⟨2, 2⟩, ⟨3, 12⟩⟩),
        (.function, "g", ⟨⟨5, 0⟩, ⟨5, 10⟩⟩)] := by decide +kernel
  cases hm : ofDocument .tolerant w d with
  | error e =>
    rw [hm] at hkeys
    cases hkeys
  | ok m =>
    rw [hm] at hkeys
    obtain ⟨o, ho, hwell⟩ := wellFormed_ofDocument hpath hs hblank hm
    rw [ho] at hdeclared
    exact ⟨hpath, hs, hblank, m, o, rfl, ho, hwell, Except.ok.inj hkeys, Except.ok.inj hdeclared⟩

/-- A lone carriage return ends a line for the strict reading and not for the document, so a definition
after it lies behind the end of its module. -/
theorem not_contains_after_return :
    let d : Document := ⟨"file:///w/a.py", "x\rdef f():0"⟩
    let w : Workspace := ⟨.empty, ⟨.root, []⟩, ⟨.root, ["w"]⟩⟩
    ∃ m p n, ofDocument .strict w d = .ok m ∧ Pass.ownNodes d.uri m = [p, n] ∧ n.parent = some p.id ∧
      ¬p.span.Contains n.span := by
  intro d w
  have hnodes : (ofDocument .strict w d).map (Pass.ownNodes d.uri) = .ok
      [⟨d.uri, d.uri, ⟨⟨0, 0⟩, ⟨0, 11⟩⟩, none, .module, "a"⟩,
        ⟨"file:///w/a.py#1:0", d.uri, ⟨⟨1, 0⟩, ⟨1, 9⟩⟩, some d.uri, .function, "f"⟩] := by decide +kernel
  cases hm : ofDocument .strict w d with
  | error e =>
    rw [hm] at hnodes
    cases hnodes
  | ok m =>
    rw [hm] at hnodes
    exact ⟨m, _, _, rfl, Except.ok.inj hnodes, rfl, by decide⟩

end CodeMap

end OutlineIndex
