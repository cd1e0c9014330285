import OutlineIndex.Proofs.CodeMap
import OutlineIndex.Source.Lexical

namespace OutlineIndex

namespace Results

variable {ε α β : Type}

theorem bind_eq_error {x : Except ε α} {f : α → Except ε β} {e : ε} :
    x >>= f = .error e ↔ x = .error e ∨ ∃ a, x = .ok a ∧ f a = .error e := by
  cases x with
  | error e' =>
    change Except.error e' = Except.error e ↔ _
    simp
  | ok a =>
    change f a = .error e ↔ _
    simp

theorem exists_error_of_mapM {f : α → Except ε β} {l : List α} {e : ε} (h : l.mapM f = .error e) :
    ∃ x ∈ l, f x = .error e := by
  induction l with
  | nil => cases h
  | cons x l ih =>
    rw [List.mapM_cons, bind_eq_error] at h
    rcases h with h | ⟨y, -, h⟩
    · exact ⟨x, by simp, h⟩
    · rcases bind_eq_error.mp h with h | ⟨ys, -, ⟨⟩⟩
      obtain ⟨x', hx', h⟩ := ih h
      exact ⟨x', List.mem_cons_of_mem _ hx', h⟩

end Results

/-- The way from a directory is refused for a name just when the components before the name lead to a
directory. -/
theorem FileTree.follow_eq_nameTooLong_iff {t : FileTree} {dir rest : List String} :
    t.follow dir rest = .error .nameTooLong ↔
      ∃ pre c post, rest = pre ++ c :: post ∧ t.follow dir pre = .ok .directory ∧
        maxName < c.utf8ByteSize := by
  induction rest generalizing dir with
  | nil => simp [follow]
  | cons a rest ih =>
    -- the name is `a` itself, or it comes after a step through `a`
    have hsplit : (∃ pre c post, a :: rest = pre ++ c :: post ∧ t.follow dir pre = .ok .directory ∧
        maxName < c.utf8ByteSize) ↔ maxName < a.utf8ByteSize ∨ ∃ pre c post, rest = pre ++ c :: post ∧
          t.follow dir (a :: pre) = .ok .directory ∧ maxName < c.utf8ByteSize := by
      constructor
      · rintro ⟨pre, c, post, e, hpre, hc⟩
        cases pre with
        | nil =>
          cases e
          exact .inl hc
        | cons x pre =>
          cases e
          exact .inr ⟨pre, c, post, rfl, hpre, hc⟩
      · rintro (ha | ⟨pre, c, post, rfl, hpre, hc⟩)
        · exact ⟨[], a, rest, rfl, rfl, ha⟩
        · exact ⟨a :: pre, c, post, rfl, hpre, hc⟩
    rw [hsplit]
    by_cases hdots : a = ".."
    · subst hdots
      have hshort : ¬maxName < "..".utf8ByteSize := by decide
      simp only [follow, if_true, hshort, false_or]
      exact ih
    by_cases hlong : maxName < a.utf8ByteSize
    · rw [follow, if_neg hdots, if_pos hlong]
      exact iff_of_true rfl (.inl hlong)
    simp only [follow, if_neg hdots, hlong, if_false, false_or]
    cases t.entry? (dir ++ [a]) with
    | none => simp
    | some e =>
      cases e with
      | directory => exact ih
      | file bytes =>
        refine iff_of_false (fun h => ?_) ?_
        · by_cases hrest : rest = [] <;> simp [hrest] at h
        · rintro ⟨pre, c, post, -, hpre, -⟩
          by_cases hnil : pre = [] <;> simp [hnil] at hpre

namespace Workspace

/-- Looking up a path meets a limit: the path is too long, or one of its names is that is looked for in a
directory that is there. -/
def Overlong (w : Workspace) (p : Path) : Prop :=
  p.hasNul = false ∧ (FileTree.maxPath < (Utf8.encode p.chars).length ∨
    ∃ pre c post, Path.fromRoot w.cwd p = pre ++ c :: post ∧ w.files.follow [] pre = .ok .directory ∧
      FileTree.maxName < c.utf8ByteSize)

variable {w : Workspace} {p : Path}

theorem status_eq_nameTooLong_iff : w.status p = .error .nameTooLong ↔
    FileTree.maxPath < (Utf8.encode p.chars).length ∨
      ∃ pre c post, Path.fromRoot w.cwd p = pre ++ c :: post ∧ w.files.follow [] pre = .ok .directory ∧
        FileTree.maxName < c.utf8ByteSize := by
  rw [← FileTree.follow_eq_nameTooLong_iff, status, FileTree.status]
  by_cases hlong : FileTree.maxPath < (Utf8.encode p.chars).length
  · rw [if_pos hlong]
    exact iff_of_true rfl (.inl hlong)
  · rw [if_neg hlong]
    simp [hlong]

/-- A lookup gives an answer unless it meets a limit. -/
theorem isFile_eq_error_iff {e : FileTree.Error} :
    w.isFile p = .error e ↔ e = .nameTooLong ∧ w.Overlong p := by
  rw [Overlong, ← status_eq_nameTooLong_iff, isFile]
  cases p.hasNul with
  | true => simp
  | false =>
    cases hstatus : w.status p with
    | ok found => cases found <;> simp
    | error e' => cases e' <;> simp [eq_comm]

end Workspace

namespace CodeMap

variable {w : Workspace}

/-- Where a reference looks below a root: for the module, then for each of the names. -/
def basesBelow (root : Path) (ref : Source.ImportRef) : List Path :=
  moduleBase root ref :: ref.names.map fun n => moduleBase root ref ++ Path.ofString n

/-- A path at which a module can be looked for: it has a name, and neither the file of the module nor, if
this is not there, that of the package is beyond the limits. -/
def Usable (w : Workspace) (base : Path) : Prop :=
  base.name ≠ "" ∧ ¬w.Overlong (base.parent.child (base.name ++ ".py")) ∧
    (w.isFile (base.parent.child (base.name ++ ".py")) = .ok false → ¬w.Overlong (base.child "__init__.py"))

/-- Where a reference looks below some roots. It goes on to the next root if it found nothing. -/
inductive Searched (w : Workspace) (ref : Source.ImportRef) : List Path → Path → Prop
  | here {root base : Path} {roots : List Path} (h : base ∈ basesBelow root ref) :
      Searched w ref (root :: roots) base
  | next {root base : Path} {roots : List Path} (hnone : filesBelow w root ref = .ok [])
      (h : Searched w ref roots base) : Searched w ref (root :: roots) base

/-- The errors of a search, of reading what it finds, and of following a tree. -/
def Error.IsLost (e : Error) : Prop :=
  e = .emptyModuleName ∨ e = .file .nameTooLong ∨ e = .uri .nulInPath ∨ e = .tooDeep

/-- The errors by which a reader refuses a text. -/
def Error.IsRefusal : Error → Prop
  | .unavailable _ | .notAProgram _ => True
  | _ => False

/-- The lookup of a file succeeds just when it meets no limit. -/
theorem existing?_cases (w : Workspace) (p : Path) :
    (¬w.Overlong p ∧ ∃ there, w.isFile p = .ok there ∧
        existing? w p = .ok (if there then some (Path.resolve w.cwd p) else none)) ∨
      (w.Overlong p ∧ existing? w p = .error (.file .nameTooLong)) := by
  cases hfile : w.isFile p with
  | error e =>
    obtain ⟨rfl, hlong⟩ := Workspace.isFile_eq_error_iff.mp hfile
    refine .inr ⟨hlong, ?_⟩
    rw [existing?, hfile]
    rfl
  | ok there =>
    refine .inl ⟨fun hlong => ?_, there, rfl, ?_⟩
    · have herror := Workspace.isFile_eq_error_iff.mpr ⟨rfl, hlong⟩
      rw [hfile] at herror
      cases herror
    · rw [existing?, hfile]
      cases there <;> rfl

/-- The search at one path succeeds just when the path is usable. -/
theorem moduleFile?_cases (w : Workspace) (base : Path) :
    (Usable w base ∧ ∃ r, moduleFile? w base = .ok r) ∨
      (¬Usable w base ∧ ∃ e, moduleFile? w base = .error e ∧ e.IsLost) := by
  unfold moduleFile?
  by_cases hname : base.name = ""
  · rw [if_pos hname]
    exact .inr ⟨fun h => h.1 hname, _, rfl, .inl rfl⟩
  rw [if_neg hname]
  rcases existing?_cases w (base.parent.child (base.name ++ ".py")) with
    ⟨hplain, there, hfile, hexisting⟩ | ⟨hlong, herror⟩
  · rw [hexisting]
    cases there with
    | true =>
      refine .inl ⟨⟨hname, hplain, fun hnot => ?_⟩, _, rfl⟩
      rw [hfile] at hnot
      cases hnot
    | false =>
      change (_ ∧ ∃ r, existing? w (base.child "__init__.py") = .ok r) ∨
        (_ ∧ ∃ e, existing? w (base.child "__init__.py") = .error e ∧ e.IsLost)
      rcases existing?_cases w (base.child "__init__.py") with ⟨hpackage, _, -, hok⟩ | ⟨hlong, herror⟩
      · exact .inl ⟨⟨hname, hplain, fun _ => hpackage⟩, _, hok⟩
      · exact .inr ⟨fun h => h.2.2 hfile hlong, _, herror, .inr (.inl rfl)⟩
  · rw [herror]
    exact .inr ⟨fun h => h.2.1 hlong, _, rfl, .inr (.inl rfl)⟩

theorem moduleFile?_isOk_iff {base : Path} : (∃ r, moduleFile? w base = .ok r) ↔ Usable w base := by
  rcases moduleFile?_cases w base with ⟨h, hok⟩ | ⟨h, e, he, -⟩
  · exact iff_of_true hok h
  · refine iff_of_false ?_ h
    rintro ⟨r, hr⟩
    rw [he] at hr
    cases hr

theorem isLost_of_moduleFile? {base : Path} {e : Error} (h : moduleFile? w base = .error e) : e.IsLost := by
  rcases moduleFile?_cases w base with ⟨-, r, hr⟩ | ⟨-, e', he, hlost⟩
  · rw [h] at hr
    cases hr
  · rw [h] at he
    cases he
    exact hlost

theorem filesBelow_isOk_iff {root : Path} {ref : Source.ImportRef} :
    (∃ ps, filesBelow w root ref = .ok ps) ↔ ∀ base ∈ basesBelow root ref, Usable w base := by
  constructor
  · rintro ⟨ps, h⟩ base hbase
    obtain ⟨own, hown, h⟩ := Results.bind_eq_ok.mp h
    obtain ⟨named, hnamed, -⟩ := Results.bind_eq_ok.mp h
    rcases List.mem_cons.mp hbase with rfl | hbase
    · exact moduleFile?_isOk_iff.mp ⟨own, hown⟩
    · obtain ⟨n, hn, rfl⟩ := List.mem_map.mp hbase
      obtain ⟨r, -, hr⟩ := Results.exists_mem_of_mapM hnamed hn
      exact moduleFile?_isOk_iff.mp ⟨r, hr⟩
  · intro h
    obtain ⟨own, hown⟩ := moduleFile?_isOk_iff.mpr (h _ List.mem_cons_self)
    obtain ⟨named, hnamed⟩ := Results.exists_mapM_eq_ok
      (f := fun n => moduleFile? w (moduleBase root ref ++ Path.ofString n)) (l := ref.names) fun n hn =>
        moduleFile?_isOk_iff.mpr (h _ (List.mem_cons_of_mem _ (List.mem_map_of_mem hn)))
    exact ⟨_, Results.bind_eq_ok.mpr ⟨own, hown, Results.bind_eq_ok.mpr ⟨named, hnamed, rfl⟩⟩⟩

theorem isLost_of_filesBelow {root : Path} {ref : Source.ImportRef} {e : Error}
    (h : filesBelow w root ref = .error e) : e.IsLost := by
  rcases Results.bind_eq_error.mp h with h | ⟨own, -, h⟩
  · exact isLost_of_moduleFile? h
  rcases Results.bind_eq_error.mp h with h | ⟨named, -, ⟨⟩⟩
  obtain ⟨n, -, h⟩ := Results.exists_error_of_mapM h
  exact isLost_of_moduleFile? h

theorem filesAt_isOk_iff {ref : Source.ImportRef} {roots : List Path} :
    (∃ ps, filesAt w ref roots = .ok ps) ↔ ∀ base, Searched w ref roots base → Usable w base := by
  induction roots with
  | nil =>
    refine iff_of_true ⟨[], rfl⟩ ?_
    rintro base ⟨⟩
  | cons root roots ih =>
    constructor
    · rintro ⟨ps, h⟩ base hbase
      obtain ⟨found, hfound, h⟩ := Results.bind_eq_ok.mp h
      cases hbase with
      | here hmem => exact filesBelow_isOk_iff.mp ⟨found, hfound⟩ base hmem
      | next hnone hlater =>
        obtain rfl : found = [] := Except.ok.inj (hfound.symm.trans hnone)
        exact ih.mp ⟨ps, h⟩ base hlater
    · intro h
      obtain ⟨found, hfound⟩ := filesBelow_isOk_iff.mpr fun base hmem => h base (.here hmem)
      by_cases hempty : found = []
      · subst hempty
        obtain ⟨ps, hps⟩ := ih.mpr fun base hlater => h base (.next hfound hlater)
        exact ⟨ps, Results.bind_eq_ok.mpr ⟨[], hfound, hps⟩⟩
      · refine ⟨found, Results.bind_eq_ok.mpr ⟨found, hfound, ?_⟩⟩
        rw [if_neg (by simpa using hempty)]
        rfl

theorem isLost_of_filesAt {ref : Source.ImportRef} {roots : List Path} {e : Error}
    (h : filesAt w ref roots = .error e) : e.IsLost := by
  induction roots with
  | nil => cases h
  | cons root roots ih =>
    rcases Results.bind_eq_error.mp h with h | ⟨found, -, h⟩
    · exact isLost_of_filesBelow h
    · split at h
      · exact ih h
      · cases h

theorem targets_isOk_iff {file : Path} {ref : Source.ImportRef} : (∃ ps, targets w file ref = .ok ps) ↔
    ∀ base, Searched w ref (searchRoots w file ref) base → Usable w base := by
  rw [← filesAt_isOk_iff]
  constructor
  · rintro ⟨ps, h⟩
    obtain ⟨found, hfound, -⟩ := Results.bind_eq_ok.mp h
    exact ⟨found, hfound⟩
  · rintro ⟨found, hfound⟩
    exact ⟨_, Results.bind_eq_ok.mpr ⟨found, hfound, rfl⟩⟩

theorem isLost_of_targets {file : Path} {ref : Source.ImportRef} {e : Error}
    (h : targets w file ref = .error e) : e.IsLost := by
  rcases Results.bind_eq_error.mp h with h | ⟨found, -, ⟨⟩⟩
  exact isLost_of_filesAt h

end CodeMap

namespace Source.ImportRef

/-- A text that can be a component of a dotted name. -/
def IsName (s : List Char) : Prop := s ≠ [] ∧ '.' ∉ s ∧ '/' ∉ s

/-- The reference of an import statement: it names a module, or it is relative. -/
structure Valid (ref : ImportRef) : Prop where
  relative : ref.module = "" → 0 < ref.level
  module : ref.module ≠ "" → ∀ part ∈ Text.split '.' ref.module.toList, IsName part
  names : ∀ n ∈ ref.names, IsName n.toList

end Source.ImportRef

namespace Path

open Source.ImportRef (IsName)

theorem ofString_of_isName {s : String} (h : IsName s.toList) : ofString s = ⟨.relative, [s]⟩ := by
  obtain ⟨hne, hdot, hslash⟩ := h
  have hanchor : anchorOf s.toList = .relative := by
    cases hs : s.toList with
    | nil => exact absurd hs hne
    | cons c rest => exact anchorOf_of_head_ne fun e => hslash (by simp [hs, e])
  have hplain : s.toList ≠ ['.'] := fun e => hdot (by simp [e])
  rw [ofString, hanchor, components, Text.split_of_not_mem hslash]
  simp [hne, hplain]

theorem append_of_isName (p : Path) {s : String} (h : IsName s.toList) : p ++ ofString s = p.child s := by
  rw [ofString_of_isName h]
  rfl

theorem name_child (p : Path) (s : String) : (p.child s).name = s := by
  simp [name, child]

/-- Going up as often as there are components leads to the anchor. -/
theorem parts_climb (p : Path) (n : Nat) :
    ((List.range n).foldl (fun p _ => p.parent) p).parts = p.parts.take (p.parts.length - n) := by
  induction n with
  | zero => simp
  | succ n ih =>
    rw [List.range_succ, List.foldl_append]
    change (((List.range n).foldl (fun p _ => p.parent) p).parts).dropLast = _
    rw [ih, List.dropLast_eq_take, List.length_take, List.take_take]
    congr 1
    omega

theorem name_eq_empty_iff {p : Path} (h : Plain p.parts) : p.name = "" ↔ p.parts = [] := by
  unfold name
  cases hlast : p.parts.getLast? with
  | none => simpa using hlast
  | some x =>
    have hx := (h x (List.mem_of_getLast? hlast)).1
    have hne : p.parts ≠ [] := fun e => by simp [e] at hlast
    simpa [hne] using hx

end Path

namespace CodeMap

variable {w : Workspace}

open Source.ImportRef (IsName)

theorem moduleBase_of_module (root : Path) {ref : Source.ImportRef} (hm : ref.module ≠ "")
    (h : ∀ part ∈ Text.split '.' ref.module.toList, IsName part) :
    ∃ p s, moduleBase root ref = Path.child p s ∧ s ≠ "" := by
  have hfold : ∀ (parts : List (List Char)) (q : Path), parts ≠ [] → (∀ part ∈ parts, IsName part) →
      ∃ p s, parts.foldl (fun p part => p ++ Path.ofString (String.ofList part)) q = Path.child p s ∧
        s ≠ "" := by
    intro parts
    induction parts with
    | nil => exact fun _ hne => absurd rfl hne
    | cons part parts ih =>
      intro q _ hparts
      have hpart := hparts part (by simp)
      rw [List.foldl_cons, Path.append_of_isName q (by simpa using hpart)]
      cases parts with
      | nil => exact ⟨q, String.ofList part, rfl, by simpa using hpart.1⟩
      | cons x xs => exact ih _ (by simp) fun y hy => hparts y (List.mem_cons_of_mem _ hy)
  unfold moduleBase
  rw [if_neg hm]
  exact hfold _ root (Text.split_ne_nil _ _) h

/-- An import leads to the anchor just when it names no module and goes up as far as the components
of the importing file allow. -/
theorem exists_searched_anchor_iff {file : Path} (hfile : Path.Plain file.parts) {ref : Source.ImportRef}
    (href : ref.Valid) : (∃ base, Searched w ref (searchRoots w file ref) base ∧ base.name = "") ↔
      ref.module = "" ∧ file.parts.length ≤ ref.level := by
  have hnamed : ∀ root base, base ∈ basesBelow root ref → base.name = "" → ref.module = "" ∧ base = root := by
    intro root base hbase hname
    rcases List.mem_cons.mp hbase with rfl | hbase
    · by_cases hm : ref.module = ""
      · exact ⟨hm, if_pos hm⟩
      · obtain ⟨p, s, e, hs⟩ := moduleBase_of_module root hm (href.module hm)
        rw [e, Path.name_child] at hname
        exact absurd hname hs
    · obtain ⟨n, hn, rfl⟩ := List.mem_map.mp hbase
      have hisName := href.names n hn
      rw [Path.append_of_isName _ hisName, Path.name_child] at hname
      exact absurd (by simp [hname]) hisName.1
  have hroot : ref.module = "" → searchRoots w file ref =
      [(List.range ref.level).foldl (fun p _ => p.parent) file] := by
    intro hm
    exact if_pos (href.relative hm)
  have hclimb : ((List.range ref.level).foldl (fun p _ => p.parent) file).name = "" ↔
      file.parts.length ≤ ref.level := by
    have hparts := Path.parts_climb file ref.level
    have hplain : Path.Plain ((List.range ref.level).foldl (fun p _ => p.parent) file).parts := by
      rw [hparts]
      exact hfile.sublist fun x hx => List.mem_of_mem_take hx
    rw [Path.name_eq_empty_iff hplain, hparts, List.take_eq_nil_iff]
    constructor
    · rintro (h | h)
      · omega
      · simp [h]
    · intro h
      exact .inl (by omega)
  constructor
  · rintro ⟨base, hsearched, hname⟩
    have hmodule : ref.module = "" := by
      generalize searchRoots w file ref = roots at hsearched
      induction hsearched with
      | here hmem => exact (hnamed _ _ hmem hname).1
      | next _ _ ih => exact ih hname
    refine ⟨hmodule, ?_⟩
    rw [hroot hmodule] at hsearched
    cases hsearched with
    | here hmem =>
      rw [(hnamed _ _ hmem hname).2] at hname
      exact hclimb.mp hname
    | next _ hlater => cases hlater
  · rintro ⟨hmodule, hlevel⟩
    rw [hroot hmodule]
    exact ⟨_, .here List.mem_cons_self, by rw [moduleBase, if_pos hmodule]; exact hclimb.mpr hlevel⟩

/-- The URI of a file is read as a path with a null character in it. Escapes are decoded twice, so the file
may have one written in its name. -/
def Misread (p : Path) : Prop := ∃ q, Uri.toPath (Uri.ofResolved p) = .ok q ∧ q.hasNul = true

/-- The ways in which a text that is read goes astray: its tree is deeper than the stack, one of its imports
looks for a module where none can be looked for, or one of the files it finds cannot be asked for. -/
inductive Strays (b : Backend) (w : Workspace) (d : Document) (path : Path) : Prop
  | deep (parser : Source.Tree.Parser) (stack : Nat) (hb : b = .tree parser stack)
      (h : stack < Source.Tree.depthAll (parser.parse d.text.toList).children)
  | search (o : Source.Outline) (ref : Source.ImportRef) (base : Path) (ho : outline b d = .ok o)
      (href : ref ∈ o.refs) (hbase : Searched w ref (searchRoots w path ref) base) (h : ¬Usable w base)
  | reading (o : Source.Outline) (ref : Source.ImportRef) (ps : List Path) (p : Path)
      (ho : outline b d = .ok o) (href : ref ∈ o.refs) (hps : targets w path ref = .ok ps) (hp : p ∈ ps)
      (h : Misread p)

/-- A document with a text that goes astray. -/
def Astray (b : Backend) (w : Workspace) (d : Document) (path : Path) : Prop :=
  Text.blank d.text.toList = false ∧ Strays b w d path

theorem outline_cases {b : Backend} (hb : b ≠ .unavailable) {d : Document}
    (hnul : '\x00' ∉ d.text.toList) :
    (∃ o, outline b d = .ok o) ∨ outline b d = .error (.notAProgram d.uri) ∨
      outline b d = .error .tooDeep ∧ ∃ parser stack, b = .tree parser stack ∧
        stack < Source.Tree.depthAll (parser.parse d.text.toList).children := by
  cases b with
  | unavailable => exact absurd rfl hb
  | program p =>
    have hcontains : ¬d.text.toList.contains '\x00' = true := fun h => hnul (List.contains_iff_mem.mp h)
    unfold outline
    dsimp only
    rw [if_neg hcontains]
    cases p.parse d.text.toList with
    | none => exact .inr (.inl rfl)
    | some ss => exact .inl ⟨_, rfl⟩
  | tree p stack =>
    unfold outline
    dsimp only
    split
    · rename_i hdeep
      exact .inr (.inr ⟨rfl, p, stack, rfl, hdeep⟩)
    · exact .inl ⟨_, rfl⟩

/-- Every file that can be asked for has a node, or none if it cannot be read. -/
theorem foreignNode?_cases {p : Path} (hp : p.Resolved) :
    (¬Misread p ∧ ∃ n, foreignNode? w p = .ok n) ∨
      (Misread p ∧ foreignNode? w p = .error (.uri .nulInPath)) := by
  have hpath := Uri.toPath_ofResolved hp.anchor
  rcases Workspace.read_cases (w := w) hpath with ⟨hnul, herror⟩ | ⟨hnul, r, hr⟩
  · refine .inr ⟨⟨_, hpath, hnul⟩, ?_⟩
    rw [foreignNode?, herror]
    rfl
  · refine .inl ⟨?_, ?_⟩
    · rintro ⟨q, hq, hqnul⟩
      cases hpath.symm.trans hq
      rw [hnul] at hqnul
      cases hqnul
    · rw [foreignNode?, hr]
      cases r <;> exact ⟨_, rfl⟩

/-- A text with an outline does not go astray just if its modules are linked. -/
theorem exists_linked_iff_not_strays {b : Backend} {d : Document} {path : Path} {o : Source.Outline}
    (ho : outline b d = .ok o) : (∃ foreign, Linked w path o.refs foreign) ↔ ¬Strays b w d path := by
  rw [exists_linked_iff]
  constructor
  · rintro ⟨hrefs, hfiles⟩ hstrays
    cases hstrays with
    | deep parser stack hb hdeep =>
      rw [hb, outline, if_pos hdeep] at ho
      cases ho
    | search o' ref base ho' href hbase hbad =>
      cases ho.symm.trans ho'
      exact hbad (targets_isOk_iff.mp (hrefs ref href) base hbase)
    | reading o' ref ps p ho' href hps hp hmisread =>
      cases ho.symm.trans ho'
      obtain ⟨n, hnode⟩ := hfiles ref href ps hps p hp
      rcases foreignNode?_cases (w := w) (isTarget_of_mem_targets hps hp).resolved with ⟨hread, -⟩ | ⟨-, herror⟩
      · exact hread hmisread
      · rw [hnode] at herror
        cases herror
  · intro hstrays
    refine ⟨fun ref href => targets_isOk_iff.mpr fun base hbase => ?_, fun ref href ps hps p hp => ?_⟩
    · by_contra hbad
      exact hstrays (.search o ref base ho href hbase hbad)
    · rcases foreignNode?_cases (w := w) (isTarget_of_mem_targets hps hp).resolved with
        ⟨-, hnode⟩ | ⟨hmisread, -⟩
      · exact hnode
      · exact absurd (.reading o ref ps p ho href hps hp hmisread) hstrays

/-- All that a text with an outline fails by is that it goes astray. -/
theorem isLost_of_ofDocument {b : Backend} {d : Document} {path : Path} {o : Source.Outline} {e : Error}
    (hpath : Uri.toPath d.uri = .ok path) (hs : supports path = true)
    (hblank : Text.blank d.text.toList = false) (ho : outline b d = .ok o)
    (h : ofDocument b w d = .error e) : e.IsLost := by
  rw [ofDocument_of_supports hpath hs, hblank, ho] at h
  rcases Results.bind_eq_error.mp h with ⟨⟨⟩⟩ | ⟨o', ⟨⟩, h⟩
  rcases Results.bind_eq_error.mp h with hfound | ⟨found, hfound, h⟩
  · obtain ⟨ref, -, hlost⟩ := Results.exists_error_of_mapM hfound
    exact isLost_of_targets hlost
  rcases Results.bind_eq_error.mp h with hnodes | ⟨nodes, -, ⟨⟩⟩
  obtain ⟨p, hp, herror⟩ := Results.exists_error_of_mapM hnodes
  obtain ⟨ps, hps, hp⟩ := List.mem_flatten.mp (List.mem_eraseDups.mp hp)
  obtain ⟨ref, -, htargets⟩ := Results.exists_of_mem_mapM hfound hps
  rcases foreignNode?_cases (w := w) (isTarget_of_mem_targets htargets hp).resolved with ⟨-, n, hnode⟩ | ⟨-, hnul⟩
  · rw [herror] at hnode
    cases hnode
  · exact .inr (.inr (.inl (Except.error.inj (herror.symm.trans hnul))))

theorem ofDocument_of_not_astray {b : Backend} (hb : b ≠ .unavailable) {d : Document} {path : Path}
    (hpath : Uri.toPath d.uri = .ok path) (hs : supports path = true) (hnul : '\x00' ∉ d.text.toList)
    (h : ¬Astray b w d path) :
    (∃ m, ofDocument b w d = .ok m) ∨ ofDocument b w d = .error (.notAProgram d.uri) := by
  cases hblank : Text.blank d.text.toList with
  | true =>
    rw [ofDocument_of_supports hpath hs, hblank]
    exact .inl ⟨_, rfl⟩
  | false =>
    have hstrays : ¬Strays b w d path := fun hstrays => h ⟨hblank, hstrays⟩
    rcases outline_cases hb hnul with ⟨o, ho⟩ | hrefused | ⟨-, parser, stack, htree, hdeep⟩
    · exact .inl ((exists_ofDocument_iff hpath hs hblank ho).mpr ((exists_linked_iff_not_strays ho).mpr hstrays))
    · rw [ofDocument_of_supports hpath hs, hblank, hrefused]
      exact .inr rfl
    · exact absurd (.deep parser stack htree hdeep) hstrays

theorem ofDocument_of_astray {b : Backend} {d : Document} {path : Path}
    (hpath : Uri.toPath d.uri = .ok path) (hs : supports path = true) (h : Astray b w d path) :
    ∃ e, ofDocument b w d = .error e ∧ e.IsLost := by
  obtain ⟨hblank, hstrays⟩ := h
  have hlost : ∀ o, outline b d = .ok o → ∃ e, ofDocument b w d = .error e ∧ e.IsLost := by
    intro o ho
    cases hm : ofDocument b w d with
    | ok m =>
      have hlinked := (exists_ofDocument_iff hpath hs hblank ho).mp ⟨m, hm⟩
      exact absurd hstrays ((exists_linked_iff_not_strays ho).mp hlinked)
    | error e => exact ⟨e, rfl, isLost_of_ofDocument hpath hs hblank ho hm⟩
  cases hstrays with
  | deep parser stack hb hdeep =>
    refine ⟨.tooDeep, ?_, .inr (.inr (.inr rfl))⟩
    rw [ofDocument_of_supports hpath hs, hblank, hb, outline, if_pos hdeep]
    rfl
  | search o ref base ho href hbase hbad => exact hlost o ho
  | reading o ref ps p ho href hps hp hmisread => exact hlost o ho

theorem plain_parts_of_toPath {uri : String} {path : Path} (h : Uri.toPath uri = .ok path) :
    Path.Plain path.parts := by
  unfold Uri.toPath at h
  dsimp only at h
  split at h
  · cases h
  split at h
  · obtain rfl := Except.ok.inj h
    exact Path.plain_ofString _
  split at h
  · obtain rfl := Except.ok.inj h
    exact Path.plain_ofString _
  · cases h

/-- A document of a supported kind gives a code map or is refused as no program, unless it goes astray: then
there is another error. One way to go astray is an import that leads to the anchor of the path, which happens
just when it names no module and has at least as many dots as the importing file has components. -/
theorem ofDocument_outcome {b : Backend} (hb : b ≠ .unavailable) (w : Workspace) {d : Document}
    {path : Path} (hpath : Uri.toPath d.uri = .ok path) (hs : supports path = true)
    (hnul : '\x00' ∉ d.text.toList) :
    (¬Astray b w d path →
      (∃ m, ofDocument b w d = .ok m) ∨ ofDocument b w d = .error (.notAProgram d.uri)) ∧
    (Astray b w d path → ∃ e, ofDocument b w d = .error e ∧ e.IsLost) ∧
    ∀ ref : Source.ImportRef, ref.Valid →
      ((∃ base, Searched w ref (searchRoots w path ref) base ∧ base.name = "") ↔
        ref.module = "" ∧ path.parts.length ≤ ref.level) :=
  ⟨ofDocument_of_not_astray hb hpath hs hnul, ofDocument_of_astray hpath hs,
    fun _ => exists_searched_anchor_iff (plain_parts_of_toPath hpath)⟩

def sampleClimber : Document := ⟨"file:///w/a.py", "from .. import b\n"⟩

def emptyWorkspace : Workspace := ⟨.empty, ⟨.root, []⟩, ⟨.root, ["w"]⟩⟩

theorem ofDocument_outcome_above_root : Uri.toPath sampleClimber.uri = .ok ⟨.root, ["w", "a.py"]⟩ ∧
    supports ⟨.root, ["w", "a.py"]⟩ = true ∧ '\x00' ∉ sampleClimber.text.toList ∧
    ∃ e, ofDocument .strict emptyWorkspace sampleClimber = .error e ∧ e.IsLost := by
  have hpath : Uri.toPath sampleClimber.uri = .ok ⟨.root, ["w", "a.py"]⟩ := by decide +kernel
  have hs : supports ⟨.root, ["w", "a.py"]⟩ = true := by decide +kernel
  have hnul : '\x00' ∉ sampleClimber.text.toList := by decide +kernel
  obtain ⟨-, hlost, hanchor⟩ := ofDocument_outcome (b := .strict) nofun emptyWorkspace hpath hs hnul
  have hrefs : (outline .strict sampleClimber).map (·.refs) = .ok [⟨"", 2, ["b"]⟩] := by decide +kernel
  have hvalid : Source.ImportRef.Valid ⟨"", 2, ["b"]⟩ := by
    refine ⟨fun _ => by decide, fun h => absurd rfl h, fun n hn => ?_⟩
    obtain rfl := List.mem_singleton.mp hn
    exact ⟨by decide, by decide, by decide⟩
  refine ⟨hpath, hs, hnul, hlost ?_⟩
  obtain ⟨base, hbase, hname⟩ := (hanchor _ hvalid).mpr ⟨rfl, by decide⟩
  cases ho : outline .strict sampleClimber with
  | error e =>
    rw [ho] at hrefs
    cases hrefs
  | ok o =>
    rw [ho] at hrefs
    have hall : o.refs = [⟨"", 2, ["b"]⟩] := Except.ok.inj hrefs
    exact ⟨by decide, .search o _ base ho (by rw [hall]; exact List.mem_cons_self) hbase fun h => h.1 hname⟩

/-- An import that goes up to the root is neither resolved nor refused. -/
theorem not_refused_above_root : Uri.toPath sampleClimber.uri = .ok ⟨.root, ["w", "a.py"]⟩ ∧
    supports ⟨.root, ["w", "a.py"]⟩ = true ∧ '\x00' ∉ sampleClimber.text.toList ∧
    ¬((∃ m, ofDocument .strict emptyWorkspace sampleClimber = .ok m) ∨
      ∃ e, ofDocument .strict emptyWorkspace sampleClimber = .error e ∧ e.IsRefusal) := by
  have hfails : ofDocument .strict emptyWorkspace sampleClimber = .error .emptyModuleName := by
    decide +kernel
  refine ⟨by decide +kernel, by decide +kernel, by decide +kernel, ?_⟩
  rintro (⟨m, hm⟩ | ⟨e, he, hrefusal⟩)
  · rw [hfails] at hm
    cases hm
  · rw [hfails] at he
    cases he
    exact hrefusal

end CodeMap

end OutlineIndex
