import OutlineIndex.Proofs.Places
import OutlineIndex.Proofs.Source.Spans

namespace OutlineIndex.Source

/-- A dotted name as it is written: its parts, dots included, each with the text that is skipped before it. -/
structure Dotted where
  parts : List (String × String)

namespace Dotted

/-- The text from the first part to the last. -/
def written (n : Dotted) : String :=
  match n.parts with
  | [] => ""
  | p :: rest => rest.foldl (fun s q => s ++ q.1 ++ q.2) p.2

/-- The normal forms of the parts, joined. -/
def value (normal : String → String) (n : Dotted) : String :=
  n.parts.foldl (fun s p => s ++ normal p.2) ""

/-- The name is read as it is written. -/
def Plain (normal : String → String) (n : Dotted) : Prop := n.value normal = n.written

instance (normal : String → String) (n : Dotted) : Decidable (n.Plain normal) :=
  inferInstanceAs (Decidable (_ = _))

/-- The node of a name in a list: the name alone, or with an alias. -/
def IsListed (n : Dotted) (t : Tree) : Prop :=
  (t.kind = .dottedName ∧ t.text = n.written) ∨
    (t.kind = .aliasedImport ∧ ∃ name, Tree.field? .name t.children = some name ∧ name.text = n.written)

end Dotted

/-- What is taken from a module: names, all it has, or features of the language itself. -/
inductive Imported.Form where
  | names
  | star
  | future
  deriving DecidableEq

/-- An import as it is written. -/
inductive Imported where
  | modules (names : List Dotted)
  | members (form : Imported.Form) (level : Nat) (module : Option Dotted) (names : List Dotted)

namespace Imported

/-- How an import comes in a program. -/
def statement (normal : String → String) : Imported → Program.Statement
  | .modules names => .imports (names.map (·.value normal))
  | .members _ level module names =>
    .importsFrom (module.map (·.value normal)) level (names.map (·.value normal))

/-- The node of the module that names are taken from: a name, or dots that may have a name behind them. -/
def IsSource (level : Nat) (module : Option Dotted) (t : Tree) : Prop :=
  (t.kind ≠ .relativeImport ∧ level = 0 ∧ t.text = (module.map Dotted.written).getD "") ∨
    (t.kind = .relativeImport ∧ ∃ dots : Tree, dots.kind = .importPrefix ∧ dots.text.toList.count '.' = level ∧
      match module with
      | none => t.children.filter (·.kind ≠ .other) = [dots]
      | some n => ∃ name : Tree, name.kind = .dottedName ∧ name.text = n.written ∧
        t.children.filter (·.kind ≠ .other) = [dots, name])

/-- How an import comes in a tree. A star is no name, and features of the language are no import. -/
def IsNode : Imported → Tree → Prop
  | .modules names, t => t.kind = .importStatement ∧
    List.Forall₂ Dotted.IsListed names
      (t.children.filter fun c => c.kind = .dottedName || c.kind = .aliasedImport)
  | .members form level module names, t => t.kind = .importFromStatement ∧
    (∃ m, Tree.field? .moduleName t.children = some m ∧ IsSource level module m) ∧
      match form with
      | .names => List.Forall₂ Dotted.IsListed names (t.children.filter (·.role == some .name))
      | .star => t.children.filter (·.role == some .name) = []
      | .future => False

/-- Whether trees have a node of an import for it. -/
def isNoded : Imported → Bool
  | .members .future _ _ _ => false
  | _ => true

/-- The references of an import in a program. -/
def strictRefs (normal : String → String) : Imported → List ImportRef
  | .modules names => names.map fun n => ⟨n.value normal, 0, []⟩
  | .members _ level module names =>
    [⟨(module.map (·.value normal)).getD "", level, names.map (·.value normal)⟩]

/-- The references of an import in a tree. -/
def tolerantRefs : Imported → List ImportRef
  | .modules names => names.map fun n => ⟨n.written, 0, []⟩
  | .members .names level module names =>
    [⟨(module.map Dotted.written).getD "", level, names.map Dotted.written⟩]
  | .members .star level module _ => [⟨(module.map Dotted.written).getD "", level, []⟩]
  | .members .future _ _ _ => []

end Imported

namespace Program.Statement

mutual

/-- The imports in and below a statement, in the order of the text. -/
def importsIn : Statement → List Statement
  | .definition _ _ _ _ _ body => importsAll body
  | .imports modules => [.imports modules]
  | .importsFrom module level names => [.importsFrom module level names]
  | .compound inner => importsAll inner

def importsAll : List Statement → List Statement
  | [] => []
  | s :: ss => importsIn s ++ importsAll ss

end

theorem perm_flatten_merge {α : Type} (xs ys : List (List α)) :
    (merge xs ys).flatten.Perm (xs.flatten ++ ys.flatten) := by
  fun_induction merge xs ys with
  | case1 ys => simp
  | case2 x xs => simp
  | case3 x xs y ys ih =>
    have hswap : (y ++ (xs.flatten ++ ys.flatten)).Perm (xs.flatten ++ (y ++ ys.flatten)) := by
      rw [← List.append_assoc, ← List.append_assoc]
      exact List.perm_append_comm.append_right _
    simp only [List.flatten_cons, List.append_assoc]
    exact ((ih.append_left y).trans hswap).append_left x

mutual

theorem perm_flatten_levels (s : Statement) :
    (levels s).flatten.Perm ((importsIn s).flatMap fun i => (levels i).flatten) := by
  match s with
  | .definition _ _ _ _ _ body => simpa [levels, importsIn] using perm_flatten_levelsAll body
  | .imports modules => simp [importsIn]
  | .importsFrom module level names => simp [importsIn]
  | .compound inner => simpa [levels, importsIn] using perm_flatten_levelsAll inner

theorem perm_flatten_levelsAll (ss : List Statement) :
    (levelsAll ss).flatten.Perm ((importsAll ss).flatMap fun i => (levels i).flatten) := by
  match ss with
  | [] => exact .nil
  | s :: ss =>
    rw [levelsAll, importsAll, List.flatMap_append]
    exact (perm_flatten_merge _ _).trans ((perm_flatten_levels s).append (perm_flatten_levelsAll ss))

end

/-- The references of a program are those of its imports, if in another order. -/
theorem mem_refs_iff {normal : String → String} {ss : List Statement} {imports : List Imported}
    (h : importsAll ss = imports.map (·.statement normal)) {ref : ImportRef} :
    ref ∈ refs ss ↔ ∃ i ∈ imports, ref ∈ i.strictRefs normal := by
  have hlevels : ∀ i : Imported, (levels (i.statement normal)).flatten = i.strictRefs normal := by
    intro i
    cases i <;> simp [levels, Imported.statement, Imported.strictRefs]
  rw [refs, (perm_flatten_levelsAll ss).mem_iff, h, List.flatMap_map]
  simp only [List.mem_flatMap, hlevels]

end Program.Statement

namespace Tree

def start : Tree → Mark
  | .node _ _ start _ _ _ => start

def stop : Tree → Mark
  | .node _ _ _ stop _ _ => stop

mutual

/-- The nodes of imports at and below a node, in the order of the text. -/
def importNodes : Tree → List Tree
  | .node kind role start stop text children =>
    match kind with
    | .importStatement => [.node .importStatement role start stop text children]
    | .importFromStatement => [.node .importFromStatement role start stop text children]
    | _ => importNodesAll children

def importNodesAll : List Tree → List Tree
  | [] => []
  | t :: ts => importNodes t ++ importNodesAll ts

end

mutual

theorem refs_eq_flatMap (t : Tree) : refs t = (importNodes t).flatMap refs := by
  match t with
  | .node kind role start stop text children =>
    have hall := refsAll_eq_flatMap children
    cases kind <;> first
      | exact (List.append_nil _).symm
      | exact hall

theorem refsAll_eq_flatMap (ts : List Tree) : refsAll ts = (importNodesAll ts).flatMap refs := by
  match ts with
  | [] => rfl
  | t :: ts => rw [refsAll, importNodesAll, List.flatMap_append, refs_eq_flatMap t, refsAll_eq_flatMap ts]

end

theorem imported_of_isListed {n : Dotted} {t : Tree} (h : n.IsListed t) : imported t = some n.written := by
  unfold imported
  rcases h with ⟨hkind, htext⟩ | ⟨hkind, name, hname, htext⟩
  · rw [hkind, ← htext]
  · rw [hkind, hname, ← htext]
    rfl

theorem taken_of_isListed {n : Dotted} {t : Tree} (h : n.IsListed t) : taken t = some n.written := by
  unfold taken
  rcases h with ⟨hkind, htext⟩ | ⟨hkind, name, hname, htext⟩
  · rw [hkind, if_neg (by decide), htext]
  · rw [if_pos hkind, hname, ← htext]
    rfl

theorem filterMap_of_forall₂ {f : Tree → Option String} (hf : ∀ n t, Dotted.IsListed n t → f t = some n.written)
    {names : List Dotted} {ts : List Tree} (h : List.Forall₂ Dotted.IsListed names ts) :
    ts.filterMap f = names.map Dotted.written := by
  induction h with
  | nil => rfl
  | cons hnt _ ih => rw [List.filterMap_cons, hf _ _ hnt, ih, List.map_cons]

/-- Only nodes of the kinds that name modules count in an import. -/
theorem filterMap_imported (ts : List Tree) : ts.filterMap imported =
    (ts.filter fun c => c.kind = .dottedName || c.kind = .aliasedImport).filterMap imported := by
  induction ts with
  | nil => rfl
  | cons t ts ih =>
    rw [List.filterMap_cons, List.filter_cons]
    split
    · rename_i hnone
      split
      · rw [List.filterMap_cons, hnone, ih]
      · exact ih
    · rename_i name hsome
      have hkind : (t.kind = .dottedName || t.kind = .aliasedImport) = true := by
        unfold imported at hsome
        split at hsome
        · rename_i e
          simp [e]
        · rename_i e
          simp [e]
        · cases hsome
      rw [if_pos hkind, List.filterMap_cons, hsome, ih]

/-- Name and level of a module are read off the dots and the name, whatever else is between them. -/
theorem source_of_isSource {level : Nat} {module : Option Dotted} {t : Tree}
    (h : Imported.IsSource level module t) : source t = ((module.map Dotted.written).getD "", level) := by
  unfold source
  rcases h with ⟨hkind, rfl, htext⟩ | ⟨hkind, dots, hdots, hcount, hmodule⟩
  · rw [if_neg hkind, htext]
  rw [if_pos hkind]
  have hfilter : ∀ (ts : List Tree) (s : String × Nat),
      ts.foldl refine s = (ts.filter (·.kind ≠ .other)).foldl refine s := by
    intro ts
    induction ts with
    | nil => exact fun _ => rfl
    | cons c ts ih =>
      intro s
      rw [List.foldl_cons, ih, List.filter_cons]
      by_cases hother : c.kind = .other
      · simp [refine, hother]
      · simp [hother]
  rw [hfilter]
  cases module with
  | none =>
    dsimp only at hmodule
    rw [hmodule]
    simp [refine, hdots, hcount]
  | some n =>
    obtain ⟨name, hname, htext, hchildren⟩ := hmodule
    rw [hchildren]
    simp [refine, hdots, hname, hcount, htext]

theorem refs_of_isNode {i : Imported} {t : Tree} (h : i.IsNode t) : refs t = i.tolerantRefs := by
  obtain ⟨kind, role, start, stop, text, children⟩ := t
  cases i with
  | modules names =>
    obtain ⟨hkind, hnames⟩ := h
    obtain rfl : kind = .importStatement := hkind
    have himported := filterMap_of_forall₂ (fun _ _ => imported_of_isListed) hnames
    rw [← filterMap_imported] at himported
    change (children.filterMap imported).map (fun m => (⟨m, 0, []⟩ : ImportRef)) = _
    rw [show children.filterMap imported = _ from himported, List.map_map]
    rfl
  | members form level module names =>
    obtain ⟨hkind, ⟨m, hm, hsource⟩, hform⟩ := h
    obtain rfl : kind = .importFromStatement := hkind
    have hm' : field? .moduleName children = some m := hm
    rw [refs, hm']
    dsimp only
    rw [source_of_isSource hsource]
    cases form with
    | names =>
      have htaken := filterMap_of_forall₂ (fun _ _ => taken_of_isListed) hform
      exact congrArg (fun names => [(⟨_, _, names⟩ : ImportRef)]) htaken
    | star =>
      have hnone : children.filter (·.role == some .name) = [] := hform
      rw [hnone]
      rfl
    | future => cases hform

/-- The references of a tree are those of the imports that it has nodes for. -/
theorem mem_refsAll_iff {ts : List Tree} {imports : List Imported}
    (h : List.Forall₂ Imported.IsNode (imports.filter (·.isNoded)) (importNodesAll ts)) {ref : ImportRef} :
    ref ∈ refsAll ts ↔ ∃ i ∈ imports, ref ∈ i.tolerantRefs := by
  have hnodes : ∀ {is : List Imported} {nodes : List Tree}, List.Forall₂ Imported.IsNode is nodes →
      nodes.flatMap refs = is.flatMap Imported.tolerantRefs := by
    intro is nodes h
    induction h with
    | nil => rfl
    | cons hit _ ih => rw [List.flatMap_cons, List.flatMap_cons, refs_of_isNode hit, ih]
  rw [refsAll_eq_flatMap, hnodes h]
  simp only [List.mem_flatMap, List.mem_filter]
  constructor
  · rintro ⟨i, ⟨hi, -⟩, href⟩
    exact ⟨i, hi, href⟩
  · rintro ⟨i, hi, href⟩
    refine ⟨i, ⟨hi, ?_⟩, href⟩
    cases i with
    | modules names => rfl
    | members form level module names =>
      cases form with
      | names => rfl
      | star => rfl
      | future => cases href

end Tree

/-- Where a definition starts in a text: what is in front of it and, if it has decorators, what is between the
sign and the expression of the first one. -/
structure Site where
  front : List Char
  gap : Option (List Char)
  deriving DecidableEq

namespace Site

/-- A definition of a program is at a site. All kinds of line ends count in its places. -/
def Heads (text : List Char) (s : Site) (decorators : List Mark) (start : Mark) : Prop :=
  match s.gap with
  | none => s.front <+: text ∧ decorators = [] ∧ start = .after (Text.foldReturns s.front)
  | some gap => s.front ++ '@' :: gap <+: text ∧
    decorators.head? = some (.after (Text.foldReturns (s.front ++ '@' :: gap)))

/-- No line in front of the site ends in a return alone, and the expression of the first decorator stands
right behind its sign. -/
def Flush (s : Site) : Prop := Text.returnsPaired s.front = true ∧ ∀ gap ∈ s.gap, gap = []

instance (s : Site) : Decidable s.Flush := inferInstanceAs (Decidable (_ ∧ ∀ gap ∈ s.gap, gap = []))

end Site

/-- A definition as it is written, with those directly in its body. -/
inductive Written where
  | mk (kind : DefinitionKind) (name : String) (site : Site) (inner : List Written)

namespace Written

mutual

/-- Where a definition and those inside it start, outer ones first. -/
def sites : Written → List Site
  | .mk _ _ site inner => site :: sitesAll inner

def sitesAll : List Written → List Site
  | [] => []
  | w :: ws => sites w ++ sitesAll ws

end

mutual

/-- The names of a definition and of those inside it, outer ones first. -/
def names : Written → List String
  | .mk _ name _ inner => name :: namesAll inner

def namesAll : List Written → List String
  | [] => []
  | w :: ws => names w ++ namesAll ws

end

end Written

namespace Program.Statement

/-- The statements of a body have these definitions among them. -/
inductive ShowsAll (normal : String → String) (text : List Char) : List Written → List Statement → Prop
  | nil : ShowsAll normal text [] []
  | other {ws : List Written} {s : Statement} {ss : List Statement} (hs : located s = [])
      (h : ShowsAll normal text ws ss) : ShowsAll normal text ws (s :: ss)
  | definition {kind : DefinitionKind} {name : String} {site : Site} {inner ws : List Written}
      {decorators : List Mark} {start stop : Mark} {body ss : List Statement}
      (hsite : site.Heads text decorators start) (hinner : ShowsAll normal text inner body)
      (h : ShowsAll normal text ws ss) : ShowsAll normal text (.mk kind name site inner :: ws)
        (.definition kind (normal name) decorators start stop body :: ss)

end Program.Statement

namespace Tree

/-- The node of a definition without decorators: it has a name, and a body that holds nodes. -/
def Defines (kind : DefinitionKind) (name : String) (body : List Tree) (t : Tree) : Prop :=
  t.kind.defines? = some kind ∧ (∃ n, field? .name t.children = some n ∧ n.text = name) ∧
    ∃ b, field? .body t.children = some b ∧ b.children = body

/-- The nodes of a body have these definitions among them. -/
inductive ShowsAll : List Written → List Tree → Prop
  | nil : ShowsAll [] []
  | other {ws : List Written} {t : Tree} {ts : List Tree} (ht : located t = [])
      (h : ShowsAll ws ts) : ShowsAll ws (t :: ts)
  | definition {kind : DefinitionKind} {name : String} {site : Site} {inner ws : List Written}
      {t : Tree} {body ts : List Tree} (hstart : t.start = .after site.front)
      (ht : t.Defines kind name body ∨ t.kind = .decoratedDefinition ∧
        ∃ t', field? .definition t.children = some t' ∧ t'.Defines kind name body)
      (hinner : ShowsAll inner body) (h : ShowsAll ws ts) : ShowsAll (.mk kind name site inner :: ws) (t :: ts)

theorem inBody_eq (children : List Tree) :
    inBody children = ((field? .body children).map fun b => locatedAll b.children).getD [] := by
  induction children with
  | nil => rfl
  | cons t ts ih =>
    obtain ⟨kind, role, start, stop, text, children⟩ := t
    rw [inBody]
    by_cases hrole : role = some .body
    · simp [hrole, field?, Tree.role, Tree.children]
    · have hskip : field? .body (.node kind role start stop text children :: ts) = field? .body ts := by
        simp [field?, Tree.role, hrole]
      rw [if_neg hrole, hskip, ih]

theorem pack_of_defines {kind : DefinitionKind} {name : String} {body : List Tree} {t : Tree}
    (h : t.Defines kind name body) (start stop : Mark) :
    pack t.kind t.children start stop (inBody t.children) = [.mk kind name start stop (locatedAll body)] := by
  obtain ⟨hkind, ⟨n, hname, htext⟩, b, hbody, hchildren⟩ := h
  rw [pack, hkind, hname, inBody_eq, hbody, ← htext, ← hchildren]
  rfl

theorem decorated_eq (start stop : Mark) (children : List Tree) : decorated start stop children =
    ((field? .definition children).map fun t => pack t.kind t.children start stop (inBody t.children)).getD [] := by
  induction children with
  | nil => rfl
  | cons t ts ih =>
    obtain ⟨kind, role, start', stop', text, children⟩ := t
    rw [decorated]
    by_cases hrole : role = some .definition
    · simp [hrole, field?, Tree.role, Tree.kind, Tree.children]
    · have hskip : field? .definition (.node kind role start' stop' text children :: ts) =
          field? .definition ts := by simp [field?, Tree.role, hrole]
      rw [if_neg hrole, hskip, ih]

/-- What is found at the node of a definition, with or without decorators. -/
theorem located_of_defines {kind : DefinitionKind} {name : String} {body : List Tree} {t : Tree}
    (h : t.Defines kind name body ∨ t.kind = .decoratedDefinition ∧
      ∃ t', field? .definition t.children = some t' ∧ t'.Defines kind name body) :
    located t = [.mk kind name t.start t.stop (locatedAll body)] := by
  obtain ⟨k, role, start, stop, text, children⟩ := t
  rw [located]
  rcases h with h | ⟨hkind, t', hfield, ht'⟩
  · have hbare : k ≠ .decoratedDefinition := by
      rintro rfl
      cases h.1
    rw [if_neg hbare]
    exact pack_of_defines h start stop
  · have hkind : k = .decoratedDefinition := hkind
    have hfield : field? .definition children = some t' := hfield
    rw [if_pos hkind, decorated_eq, hfield]
    exact pack_of_defines ht' start stop

end Tree

/-- Two readings of a text, as a program and as a tree, show the same definitions at the same places and the
same imports. The program has names in their normal form. -/
structure Concurs (normal : String → String) (text : List Char) (ss : List Program.Statement)
    (ts : List Tree) (definitions : List Written) (imports : List Imported) : Prop where
  program : Program.Statement.ShowsAll normal text definitions ss
  tree : Tree.ShowsAll definitions ts
  statements : Program.Statement.importsAll ss = imports.map (·.statement normal)
  nodes : List.Forall₂ Imported.IsNode (imports.filter (·.isNoded)) (Tree.importNodesAll ts)

end OutlineIndex.Source
