import OutlineIndex.Proofs.Source.Dialects
import OutlineIndex.Proofs.Source.Reading
import OutlineIndex.Proofs.Source.Writing
import OutlineIndex.Source.Lexical

namespace OutlineIndex.Source

namespace Mark

theorem lt_advanceAll (m : Mark) {text : List Char} (h : text ≠ []) : m.Lt (m.advanceAll text) := by
  obtain ⟨c, rest, rfl⟩ := List.exists_cons_of_ne_nil h
  exact (m.lt_advance c).trans_le ((m.advance c).le_advanceAll rest)

/-- Of two beginnings of a text the one that does not lead further is a beginning of the other. -/
theorem isPrefix_of_le {text a b : List Char} (ha : a <+: text) (hb : b <+: text) (h : (after a).Le (after b)) :
    a <+: b := by
  rcases List.prefix_or_prefix_of_prefix ha hb with hab | ⟨rest, rfl⟩
  · exact hab
  · have hrest : rest = [] := by
      by_contra hne
      have hlt := (after b).lt_advanceAll hne
      rw [← after_append] at hlt
      unfold Le at h
      unfold Lt at hlt
      omega
    simp [hrest]

/-- What a text has up to a place, read from the place `m` on. -/
def upTo (stop : Mark) (m : Mark) : List Char → List Char
  | [] => []
  | c :: rest => if m = stop then [] else c :: upTo stop (m.advance c) rest

theorem upTo_after {text front : List Char} (h : front <+: text) : upTo (after front) ⟨0, 0⟩ text = front := by
  have hgeneral : ∀ (front rest : List Char) (m : Mark), upTo (m.advanceAll front) m (front ++ rest) = front := by
    intro front rest
    induction front with
    | nil =>
      intro m
      cases rest with
      | nil => rfl
      | cons c rest => exact if_pos rfl
    | cons c front ih =>
      intro m
      have hne : m ≠ m.advanceAll (c :: front) := by
        intro e
        have hlt := m.lt_advanceAll (List.cons_ne_nil c front)
        rw [← e] at hlt
        unfold Lt at hlt
        omega
      rw [List.cons_append, upTo, if_neg hne]
      exact congrArg (c :: ·) (ih (m.advance c))
  obtain ⟨rest, rfl⟩ := h
  exact hgeneral front rest ⟨0, 0⟩

end Mark

namespace Token

/-- A token is a piece of the text, from its start to its stop. -/
def Piece (text : List Char) (t : Token) : Prop :=
  ∃ front, front ++ t.text.toList <+: text ∧ t.start = .after front ∧ t.stop = .after (front ++ t.text.toList)

theorem text_of_isSymbol {t : Token} {text : String} (h : t.isSymbol text = true) : t.text = text := by
  simp only [isSymbol, Bool.and_eq_true, beq_iff_eq] at h
  exact h.2

end Token

namespace Lexer

/-- A step gives a token that is not refused only where it reads one. -/
theorem eq_token_of_mem_step {d : Dialect} {x : Lexer} {fresh : Bool} {s : List Char} {t : Token}
    (h : .token t ∈ (step d x fresh s).1) (hkind : t.kind ≠ .invalid) : t = (token d x s).1 := by
  have hrefused : ∀ y : Lexer, .token t ∉ [Item.token (y.emit .invalid []).1] := by
    intro y hy
    rw [Item.token.inj (List.mem_singleton.mp hy)] at hkind
    exact hkind rfl
  cases fresh with
  | true =>
    rw [step] at h
    rcases List.mem_append.mp h with h | h
    · split at h <;> simp at h
    · split at h
      · exact absurd h (hrefused _)
      · cases h
  | false =>
    cases s with
    | nil =>
      rw [step] at h
      split at h
      · cases h
      · exact absurd h (hrefused x)
    | cons c rest =>
      rw [step] at h
      split at h
      · dsimp only at h
        split at h <;> simp at h
      split at h
      · cases h
      split at h
      · simp at h
      split at h
      · cases h
      split at h
      · dsimp only at h
        split at h
        · exact absurd h (hrefused _)
        · cases h
      · dsimp only at h
        exact Item.token.inj (List.mem_singleton.mp h)

theorem piece_of_mem_run (d : Dialect) (fuel : Nat) (x : Lexer) (fresh : Bool) (passed s : List Char)
    {text : List Char} (htext : passed ++ s = text) (hmark : x.mark = .after passed) {t : Token}
    (ht : .token t ∈ run d fuel x fresh s) (hkind : t.kind ≠ .invalid) : t.Piece text := by
  induction fuel generalizing x fresh s passed with
  | zero => cases ht
  | succ fuel ih =>
    rw [run_succ] at ht
    rcases List.mem_append.mp ht with ht | ht
    · obtain rfl := eq_token_of_mem_step ht hkind
      have hpasses := passes_token d x s
      have htakes := takes_token d x s
      refine ⟨passed, ⟨(token d x s).2.2, ?_⟩, hpasses.start.trans hmark, ?_⟩
      · rw [List.append_assoc, htakes.append, htext]
      · rw [hpasses.stop, htakes.mark, hmark, Mark.after_append]
    · cases hnext : (step d x fresh s).2 with
      | none =>
        rw [hnext] at ht
        cases ht
      | some z =>
        obtain ⟨y, fresh', left⟩ := z
        rw [hnext] at ht
        obtain ⟨taken, hs, hy⟩ := onward_step hnext
        refine ih y fresh' (passed ++ taken) left ?_ ?_ ht
        · rw [List.append_assoc, hs, htext]
        · rw [hy, hmark, Mark.after_append]

end Lexer

/-- The tokens of the lines are those of the items. -/
theorem Line.mem_items_of_mem_ofItems {items : List Item} {l : Line} (hl : l ∈ ofItems items) {t : Token}
    (ht : t ∈ l.tokens) : .token t ∈ items := by
  have hfinished : t ∈ (items.foldl Builder.add .start).close.finished.flatten :=
    List.mem_flatten.mpr ⟨_, List.mem_map_of_mem hl, ht⟩
  have hpassed : t ∈ (items.foldl Builder.add .start).passed := by
    rw [← Builder.passed_close]
    exact List.mem_append_left _ hfinished
  rw [Builder.passed_foldl] at hpassed
  rcases List.mem_append.mp hpassed with hnone | hsome
  · cases hnone
  · obtain ⟨i, hi, e⟩ := List.mem_filterMap.mp hsome
    cases i with
    | token u =>
      cases e
      exact hi
    | margin m => cases e
    | comment m => cases e
    | feed => cases e

namespace Line

/-- A line starts at a place in the text. -/
def Stands (text : List Char) (l : Line) : Prop := ∃ front, front <+: text ∧ l.start = .after front

/-- The line of a decorator starts with its sign, and the expression comes after a gap. -/
def Signs (text : List Char) (l : Line) : Prop :=
  ∃ front gap, front ++ '@' :: gap <+: text ∧ l.start = .after front ∧
    Sentence.expressionOf l = .after (front ++ '@' :: gap)

/-- A line of a text, which may be that of a decorator. -/
def Fits (text : List Char) (l : Line) : Prop :=
  l.Stands text ∧ (Sentence.isDecorator l = true → l.Signs text)

theorem fits_of_pieces {text : List Char} {l : Line} (hsound : l.Sound) (h : ∀ t ∈ l.tokens, t.Piece text) :
    l.Fits text := by
  obtain ⟨t, ts, htokens⟩ := List.exists_cons_of_ne_nil hsound.nonempty
  have hstart : l.start = t.start := by simp [start, htokens]
  obtain ⟨front, hfront, hplace, hstop⟩ := h t (by simp [htokens])
  refine ⟨⟨front, (List.prefix_append _ _).trans hfront, hstart.trans hplace⟩, fun hdecorator => ?_⟩
  have hsign : t.text.toList = ['@'] := by
    have hsymbol : t.isSymbol "@" = true := by simpa [Sentence.isDecorator, htokens] using hdecorator
    rw [Token.text_of_isSymbol hsymbol]
    rfl
  rw [hsign] at hfront hstop
  cases hexpression : Grammar.decoratorStart? l.tokens.tail with
  | none =>
    refine ⟨front, [], hfront, hstart.trans hplace, ?_⟩
    rw [Sentence.expressionOf, hexpression, hstart, hplace, Mark.after_append]
    rfl
  | some m =>
    obtain ⟨u, hu, rfl⟩ := Grammar.decoratorStart?_mem hexpression
    obtain ⟨front', hfront', hplace', -⟩ := h u (List.mem_of_mem_tail hu)
    have hascending := hsound.ascending
    rw [htokens] at hascending hu
    have hle := (List.pairwise_cons.mp hascending).1 u hu
    rw [hstop, hplace'] at hle
    obtain ⟨gap, rfl⟩ := Mark.isPrefix_of_le hfront ((List.prefix_append _ _).trans hfront') hle
    have hsplit : front ++ ['@'] ++ gap = front ++ '@' :: gap := List.append_assoc _ _ _
    rw [hsplit] at hfront' hplace'
    refine ⟨front, gap, (List.prefix_append _ _).trans hfront', hstart.trans hplace, ?_⟩
    rw [Sentence.expressionOf, hexpression]
    exact hplace'

end Line

/-- A text that is strictly a program, has no carriage returns, and whose indentations are in the same order by
both ways to count tabs. -/
structure Shared (text : List Char) : Prop where
  accepted : Grammar.accepts (Layout.ofText .strict text) = true
  unreturned : '\r' ∉ text
  steady : Line.Steady (Layout.linesAll (Layout.ofText .strict text))

theorem Shared.lexed {text : List Char} (h : Shared text) :
    Grammar.lexedForest (Layout.ofText .strict text) = true := by
  have haccepted := h.accepted
  simp only [Grammar.accepts, Bool.and_eq_true] at haccepted
  exact haccepted.1.1

theorem Shared.fits {text : List Char} (h : Shared text) :
    ∀ l ∈ Layout.linesAll (Layout.ofText .strict text), l.Fits text := by
  intro l hl
  refine Line.fits_of_pieces ((Layout.inOrder_ofText .strict text).1.sound l hl) fun t ht => ?_
  have hkind := Layout.kind_of_lexedForest _ h.lexed l hl t ht
  rw [Layout.linesAll_ofText, Layout.readText_eq_self .strict h.unreturned] at hl
  exact Lexer.piece_of_mem_run .strict _ _ _ [] text rfl rfl
    (Line.mem_items_of_mem_ofItems hl ht) hkind

/-- A dotted name by its tokens. -/
def Dotted.ofTokens (ts : List Token) : Dotted := ⟨ts.map fun t => (t.gap, t.text)⟩

theorem Dotted.written_ofTokens (ts : List Token) : (ofTokens ts).written = Token.spelling ts := by
  cases ts with
  | nil => rfl
  | cons t ts => exact List.foldl_map

theorem Dotted.value_ofTokens (normal : String → String) (ts : List Token) :
    (ofTokens ts).value normal = dotted normal ts := List.foldl_map

namespace Import

/-- Whether an import takes names, all or features of the language. -/
def form (dots module : List Token) (names : List Listed) : Imported.Form :=
  if dots.isEmpty && Token.spelling module = "__future__" then .future
  else if isStar names then .star
  else .names

/-- An import by its words. -/
def imported : Import → Imported
  | .modules names => .modules (names.map fun n => .ofTokens n.name)
  | .members dots module names =>
    .members (form dots module names) (levelOf dots)
      (if module.isEmpty then none else some (.ofTokens module)) (names.map fun n => .ofTokens n.name)

/-- The dots of an import are dots. -/
def Proper : Import → Prop
  | .modules _ => True
  | .members dots _ _ => ∀ t ∈ dots, Grammar.isDots t = true

theorem statement_imported (normal : String → String) (i : Import) :
    i.imported.statement normal = i.statement normal := by
  have hnames : ∀ names : List Listed, (names.map fun n => Dotted.ofTokens n.name).map (·.value normal) =
      names.map fun n => dotted normal n.name := by
    intro names
    rw [List.map_map]
    exact List.map_congr_left fun n _ => Dotted.value_ofTokens normal n.name
  cases i with
  | modules names => exact congrArg _ (hnames names)
  | members dots module names =>
    rw [imported, Imported.statement, hnames, statement]
    congr 1
    split
    · rfl
    · exact congrArg some (Dotted.value_ofTokens normal module)

theorem isListed_tree (n : Listed) : (Dotted.ofTokens n.name).IsListed n.tree := by
  rw [Dotted.IsListed, Dotted.written_ofTokens, Listed.tree]
  split
  · exact .inr ⟨rfl, _, rfl, rfl⟩
  · exact .inl ⟨rfl, rfl⟩

theorem forall₂_isListed (names : List Listed) :
    List.Forall₂ Dotted.IsListed (names.map fun n => .ofTokens n.name) (names.map Listed.tree) := by
  induction names with
  | nil => exact .nil
  | cons n names ih => exact .cons (isListed_tree n) ih

theorem count_join_dots (dots : List Token) (h : ∀ t ∈ dots, Grammar.isDots t = true) :
    (String.join (dots.map Token.text)).toList.count '.' = levelOf dots := by
  have hdots : ∀ t ∈ dots, t.text.toList.count '.' = t.text.length := by
    intro t ht
    rcases Bool.or_eq_true_iff.mp (h t ht) with hone | hthree
    · rw [Token.text_of_isSymbol hone]
      rfl
    · rw [Token.text_of_isSymbol hthree]
      rfl
  have hfold : ∀ (dots : List Token) (s : String) (n : Nat), s.toList.count '.' = n →
      (∀ t ∈ dots, t.text.toList.count '.' = t.text.length) →
      ((dots.map Token.text).foldl (· ++ ·) s).toList.count '.' = dots.foldl (fun n t => n + t.text.length) n := by
    intro dots
    induction dots with
    | nil => exact fun _ _ hs _ => hs
    | cons t dots ih =>
      intro s n hs hdots
      refine ih (s ++ t.text) (n + t.text.length) ?_ fun u hu => hdots u (List.mem_cons_of_mem _ hu)
      rw [String.toList_append, List.count_append, hs, hdots t List.mem_cons_self]
  exact hfold dots "" 0 rfl hdots

theorem isSource_sourceTree {dots : List Token} (module : List Token) (h : ∀ t ∈ dots, Grammar.isDots t = true) :
    Imported.IsSource (levelOf dots) (if module.isEmpty then none else some (.ofTokens module))
      (sourceTree dots module) := by
  have hmodule : ∀ role, (Tree.ofTokens .dottedName role module []).text =
      ((if module.isEmpty then none else some (Dotted.ofTokens module)).map Dotted.written).getD "" := by
    intro role
    cases module with
    | nil => rfl
    | cons t ts => exact (Dotted.written_ofTokens (t :: ts)).symm
  unfold sourceTree
  cases dots with
  | nil => exact .inl ⟨by simp [Tree.ofTokens, Tree.kind], rfl, hmodule _⟩
  | cons d ds =>
    refine .inr ⟨rfl, .node .importPrefix none ⟨0, 0⟩ ⟨0, 0⟩ (String.join ((d :: ds).map Token.text)) [], rfl,
      count_join_dots _ h, ?_⟩
    cases module with
    | nil => rfl
    | cons t ts => exact ⟨.ofTokens .dottedName none (t :: ts) [], rfl, (Dotted.written_ofTokens (t :: ts)).symm, rfl⟩

theorem role_sourceTree (dots module : List Token) : (sourceTree dots module).role = some .moduleName := by
  unfold sourceTree
  split <;> rfl

theorem filter_listed {p : Tree → Bool} (hp : ∀ n : Listed, p n.tree = true) (names : List Listed) :
    (names.map Listed.tree).filter p = names.map Listed.tree := by
  rw [List.filter_eq_self]
  intro t ht
  obtain ⟨n, -, rfl⟩ := List.mem_map.mp ht
  exact hp n

theorem isNode_tree {i : Import} (h : i.Proper) (hnoded : i.imported.isNoded = true) : i.imported.IsNode i.tree := by
  cases i with
  | modules names =>
    refine ⟨rfl, ?_⟩
    change List.Forall₂ _ _ ((names.map Listed.tree).filter _)
    rw [filter_listed fun n => by unfold Listed.tree; split <;> rfl]
    exact forall₂_isListed names
  | members dots module names =>
    by_cases hfuture : (dots.isEmpty && Token.spelling module = "__future__") = true
    · rw [imported, form, if_pos hfuture] at hnoded
      cases hnoded
    have hfield : ∀ ts, Tree.field? .moduleName (sourceTree dots module :: ts) = some (sourceTree dots module) := by
      intro ts
      simp [Tree.field?, role_sourceTree]
    have hsource := isSource_sourceTree module h
    rw [imported, tree, form, if_neg hfuture, if_neg hfuture]
    by_cases hstar : isStar names = true
    · rw [if_pos hstar, if_pos hstar]
      refine ⟨rfl, ⟨_, hfield _, hsource⟩, ?_⟩
      simp [Tree.children, role_sourceTree]
    · rw [if_neg hstar, if_neg hstar]
      refine ⟨rfl, ⟨_, hfield _, hsource⟩, ?_⟩
      change List.Forall₂ _ _ ((sourceTree dots module :: names.map Listed.tree).filter _)
      rw [List.filter_cons, role_sourceTree, if_neg (by decide),
        filter_listed fun n => by unfold Listed.tree; split <;> rfl]
      exact forall₂_isListed names

theorem importNodes_tree (i : Import) : Tree.importNodes i.tree = if i.imported.isNoded then [i.tree] else [] := by
  cases i with
  | modules names => rfl
  | members dots module names =>
    by_cases hfuture : (dots.isEmpty && Token.spelling module = "__future__") = true
    · rw [imported, tree, form, if_pos hfuture, if_pos hfuture]
      rfl
    · rw [imported, tree, form, if_neg hfuture, if_neg hfuture]
      split <;> rfl

end Import

namespace Sentence

mutual

/-- The imports in and below a statement. -/
def importsIn : Sentence → List Import
  | .definition _ _ _ _ body => importsAll body
  | .imports i => [i]
  | .compound inner => importsAll inner

def importsAll : List Sentence → List Import
  | [] => []
  | s :: ss => importsIn s ++ importsAll ss

end

mutual

theorem importsIn_statement (normal : String → String) (s : Sentence) :
    (s.statement normal).importsIn = s.importsIn.map (·.statement normal) := by
  match s with
  | .definition _ _ _ _ body => exact importsAll_statements normal body
  | .imports i => cases i <;> rfl
  | .compound inner => exact importsAll_statements normal inner

theorem importsAll_statements (normal : String → String) (ss : List Sentence) :
    Program.Statement.importsAll (statements normal ss) = (importsAll ss).map (·.statement normal) := by
  match ss with
  | [] => rfl
  | s :: ss =>
    rw [statements, Program.Statement.importsAll, importsAll, List.map_append, importsIn_statement,
      importsAll_statements normal ss]

end

mutual

theorem importNodes_tree (s : Sentence) :
    s.tree.importNodes = (s.importsIn.filter (·.imported.isNoded)).map Import.tree := by
  match s with
  | .definition kind name decorators layout body =>
    have hbody := importNodesAll_trees body
    cases kind <;> cases decorators <;>
      simp [tree, definitionKind, Tree.ofTokens, Tree.importNodes, Tree.importNodesAll, importsIn, hbody]
  | .imports i =>
    rw [tree, Import.importNodes_tree, importsIn]
    cases h : i.imported.isNoded <;> simp [h]
  | .compound inner => exact importNodesAll_trees inner

theorem importNodesAll_trees (ss : List Sentence) :
    Tree.importNodesAll (trees ss) = ((importsAll ss).filter (·.imported.isNoded)).map Import.tree := by
  match ss with
  | [] => rfl
  | s :: ss =>
    rw [trees, Tree.importNodesAll, importsAll, List.filter_append, List.map_append, importNodes_tree,
      importNodesAll_trees ss]

end

/-- Where a definition starts in a text: at its first decorator, or else at its own line. -/
def siteOf (text : List Char) (decorators : List Line) (line : Line) : Site :=
  match decorators with
  | [] => ⟨line.start.upTo ⟨0, 0⟩ text, none⟩
  | l :: _ =>
    let front := l.start.upTo ⟨0, 0⟩ text
    ⟨front, some (((expressionOf l).upTo ⟨0, 0⟩ text).drop (front.length + 1))⟩

mutual

/-- The definition that a statement is. -/
def written (text : List Char) : Sentence → List Written
  | .definition kind name decorators layout body =>
    [.mk kind name.text (siteOf text decorators layout.line) (writtenAll text body)]
  | .imports _ => []
  | .compound _ => []

def writtenAll (text : List Char) : List Sentence → List Written
  | [] => []
  | s :: ss => written text s ++ writtenAll text ss

end

mutual

/-- Definitions are at lines of the text, decorators are written as such, and dots of imports are dots. -/
def Made (text : List Char) : Sentence → Prop
  | .definition _ _ decorators layout body =>
    (∀ l ∈ decorators, l.Signs text) ∧ layout.line.Stands text ∧ MadeAll text body
  | .imports i => i.Proper
  | .compound inner => MadeAll text inner

def MadeAll (text : List Char) : List Sentence → Prop
  | [] => True
  | s :: ss => Made text s ∧ MadeAll text ss

end

theorem madeAll_iff {text : List Char} {ss : List Sentence} : MadeAll text ss ↔ ∀ s ∈ ss, Made text s := by
  induction ss with
  | nil => simp [MadeAll]
  | cons s ss ih => rw [MadeAll, ih, List.forall_mem_cons]

theorem madeAll_append {text : List Char} {a b : List Sentence} (ha : MadeAll text a) (hb : MadeAll text b) :
    MadeAll text (a ++ b) := by
  rw [madeAll_iff] at *
  exact fun s hs => (List.mem_append.mp hs).elim (ha s) (hb s)

theorem made_clause {text : List Char} (n : Nat) {body : List Sentence} (h : MadeAll text body) :
    Made text (clause n body) := by
  induction n with
  | zero => exact h
  | succ n ih => exact ⟨ih, trivial⟩

theorem proper_import? {ts : List Token} {i : Import} (h : import? ts = some i) : i.Proper := by
  cases ts with
  | nil => cases h
  | cons t rest =>
    rw [import?] at h
    split at h
    · cases h
      trivial
    split at h
    · cases h
      exact fun u hu => List.mem_takeWhile_imp hu
    · cases h

theorem madeAll_lineImports (text : List Char) (sel : Bool) (l : Line) : MadeAll text (lineImports sel l) := by
  rw [madeAll_iff]
  intro s hs
  obtain ⟨i, hi, rfl⟩ := List.mem_map.mp hs
  obtain ⟨ts, -, h⟩ := List.mem_filterMap.mp hi
  exact proper_import? h

mutual

theorem madeAll_ofTree {text : List Char} (sel : Bool) (elifs : Nat) (decorators : List Line)
    (hdecorators : ∀ l ∈ decorators, l.Signs text) (t : Layout) (h : ∀ l ∈ t.lines, l.Fits text) :
    MadeAll text (ofTree sel elifs decorators t) := by
  match t with
  | .node line block =>
    have hline := h line (Layout.line_mem_lines (.node line block))
    have hblock : ∀ l ∈ Layout.linesAll block, l.Fits text := fun l hl => h l (List.mem_cons_of_mem _ hl)
    have hhere := madeAll_lineImports text sel line
    have hbelow := madeAll_ofForest (headWord line == "match") 0 [] (fun _ h => nomatch h) block hblock
    have hbody := madeAll_append hhere hbelow
    rw [ofTree]
    split
    · exact ⟨⟨hdecorators, hline.1, hbody⟩, trivial⟩
    split
    · exact ⟨made_clause _ hbody, trivial⟩
    · refine madeAll_append hhere ?_
      split
      · trivial
      · exact ⟨hbelow, trivial⟩

theorem madeAll_ofForest {text : List Char} (sel : Bool) (elifs : Nat) (decorators : List Line)
    (hdecorators : ∀ l ∈ decorators, l.Signs text) (ts : List Layout)
    (h : ∀ l ∈ Layout.linesAll ts, l.Fits text) : MadeAll text (ofForest sel elifs decorators ts) := by
  match ts with
  | [] => trivial
  | t :: ts =>
    have ht : ∀ l ∈ t.lines, l.Fits text := fun l hl => h l (List.mem_append_left _ hl)
    have hts : ∀ l ∈ Layout.linesAll ts, l.Fits text := fun l hl => h l (List.mem_append_right _ hl)
    rw [ofForest]
    split
    · rename_i hdecorator
      refine madeAll_ofForest sel 0 _ ?_ ts hts
      intro l hl
      rcases List.mem_append.mp hl with hl | hl
      · exact hdecorators l hl
      · rw [List.mem_singleton.mp hl]
        exact (ht _ (Layout.line_mem_lines t)).2 hdecorator
    · exact madeAll_append (madeAll_ofTree sel elifs decorators hdecorators t ht)
        (madeAll_ofForest sel _ [] (fun _ h => nomatch h) ts hts)

end

variable {text : List Char}

theorem front_siteOf {decorators : List Line} {line : Line} (hdecorators : ∀ l ∈ decorators, l.Signs text)
    (hline : line.Stands text) :
    (.after (siteOf text decorators line).front : Mark) = (decorators.head?.getD line).start := by
  cases decorators with
  | nil =>
    obtain ⟨front, hfront, hstart⟩ := hline
    change Mark.after (line.start.upTo ⟨0, 0⟩ text) = line.start
    rw [hstart, Mark.upTo_after hfront]
  | cons l ls =>
    obtain ⟨front, gap, hgap, hstart, -⟩ := hdecorators l List.mem_cons_self
    change Mark.after (l.start.upTo ⟨0, 0⟩ text) = l.start
    rw [hstart, Mark.upTo_after ((List.prefix_append _ _).trans hgap)]

theorem heads_siteOf (hreturn : '\r' ∉ text) {decorators : List Line} {line : Line}
    (hdecorators : ∀ l ∈ decorators, l.Signs text) (hline : line.Stands text) :
    (siteOf text decorators line).Heads text (decorators.map expressionOf) line.start := by
  have hfold : ∀ front, front <+: text → Text.foldReturns front = front := fun front hfront =>
    Layout.readText_eq_self .strict fun hmem => hreturn (hfront.subset hmem)
  cases decorators with
  | nil =>
    obtain ⟨front, hfront, hstart⟩ := hline
    have hupTo : line.start.upTo ⟨0, 0⟩ text = front := by rw [hstart, Mark.upTo_after hfront]
    refine ⟨?_, rfl, ?_⟩
    · change line.start.upTo ⟨0, 0⟩ text <+: text
      rwa [hupTo]
    · change line.start = .after (Text.foldReturns (line.start.upTo ⟨0, 0⟩ text))
      rw [hupTo, hfold front hfront, hstart]
  | cons l ls =>
    obtain ⟨front, gap, hgap, hstart, hexpression⟩ := hdecorators l List.mem_cons_self
    have hsite : siteOf text (l :: ls) line = ⟨front, some gap⟩ := by
      rw [siteOf, hstart, Mark.upTo_after ((List.prefix_append _ _).trans hgap), hexpression,
        Mark.upTo_after hgap]
      simp
    rw [hsite]
    refine ⟨hgap, ?_⟩
    rw [hfold _ hgap, List.map_cons, List.head?_cons, hexpression]

mutual

theorem showsAll_program (normal : String → String) (hreturn : '\r' ∉ text) (s : Sentence) (h : Made text s)
    {ws : List Written} {ss : List Program.Statement} (hss : Program.Statement.ShowsAll normal text ws ss) :
    Program.Statement.ShowsAll normal text (written text s ++ ws) (s.statement normal :: ss) := by
  match s with
  | .definition kind name decorators layout body =>
    obtain ⟨hdecorators, hline, hbody⟩ := h
    exact .definition (heads_siteOf hreturn hdecorators hline) (showsAll_programAll normal hreturn body hbody) hss
  | .imports i =>
    refine .other ?_ hss
    cases i <;> rfl
  | .compound inner => exact .other rfl hss

theorem showsAll_programAll (normal : String → String) (hreturn : '\r' ∉ text) (ss : List Sentence)
    (h : MadeAll text ss) :
    Program.Statement.ShowsAll normal text (writtenAll text ss) (statements normal ss) := by
  match ss with
  | [] => exact .nil
  | s :: ss => exact showsAll_program normal hreturn s h.1 (showsAll_programAll normal hreturn ss h.2)

end

mutual

theorem showsAll_tree (s : Sentence) (h : Made text s) {ws : List Written} {ts : List Tree}
    (hts : Tree.ShowsAll ws ts) : Tree.ShowsAll (written text s ++ ws) (s.tree :: ts) := by
  match s with
  | .definition kind name decorators layout body =>
    obtain ⟨hdecorators, hline, hbody⟩ := h
    have hfront := front_siteOf hdecorators hline
    have hkind : (definitionKind kind).defines? = some kind := by cases kind <;> rfl
    refine .definition ?_ ?_ (showsAll_trees body hbody) hts
    · cases decorators <;> exact hfront.symm
    · cases decorators with
      | nil => exact .inl ⟨hkind, ⟨_, rfl, rfl⟩, _, rfl, rfl⟩
      | cons l ls => exact .inr ⟨rfl, _, rfl, hkind, ⟨_, rfl, rfl⟩, _, rfl, rfl⟩
  | .imports i => exact .other (located_tree_import i) hts
  | .compound inner => exact .other rfl hts

theorem showsAll_trees (ss : List Sentence) (h : MadeAll text ss) :
    Tree.ShowsAll (writtenAll text ss) (trees ss) := by
  match ss with
  | [] => exact .nil
  | s :: ss => exact showsAll_tree s h.1 (showsAll_trees ss h.2)

end

mutual

theorem proper_of_mem_importsIn {i : Import} (s : Sentence) (h : Made text s) (hi : i ∈ importsIn s) : i.Proper := by
  match s with
  | .definition _ _ _ _ body => exact proper_of_mem_importsAll body h.2.2 hi
  | .imports j =>
    rw [List.mem_singleton.mp hi]
    exact h
  | .compound inner => exact proper_of_mem_importsAll inner h hi

theorem proper_of_mem_importsAll {i : Import} (ss : List Sentence) (h : MadeAll text ss) (hi : i ∈ importsAll ss) :
    i.Proper := by
  match ss with
  | s :: ss =>
    rcases List.mem_append.mp hi with hi | hi
    · exact proper_of_mem_importsIn s h.1 hi
    · exact proper_of_mem_importsAll ss h.2 hi

end

end Sentence

/-- The parsers by lines and tokens concur on every text that they share. -/
theorem Shared.concurs {text : List Char} (h : Shared text) (normal : String → String) :
    Concurs normal text (Sentence.statements normal (Sentence.ofForest false 0 [] (Layout.ofText .strict text)))
      (Tree.Parser.lexical.parse text).children
      (Sentence.writtenAll text (Sentence.ofForest false 0 [] (Layout.ofText .strict text)))
      ((Sentence.importsAll (Sentence.ofForest false 0 [] (Layout.ofText .strict text))).map Import.imported) := by
  have hmade := Sentence.madeAll_ofForest false 0 [] (fun _ h => nomatch h) _ h.fits
  have htree : (Tree.Parser.lexical.parse text).children =
      Sentence.trees (Sentence.ofForest false 0 [] (Layout.ofText .strict text)) := by
    rw [← Layout.ofText_tolerant h.unreturned h.lexed h.steady]
    rfl
  rw [htree]
  refine ⟨Sentence.showsAll_programAll normal h.unreturned _ hmade, Sentence.showsAll_trees _ hmade, ?_, ?_⟩
  · rw [Sentence.importsAll_statements, List.map_map]
    exact List.map_congr_left fun i _ => (i.statement_imported normal).symm
  · rw [Sentence.importNodesAll_trees, List.filter_map, List.forall₂_map_left_iff, List.forall₂_map_right_iff]
    refine List.forall₂_same.mpr fun i hi => ?_
    obtain ⟨hmem, hnoded⟩ := List.mem_filter.mp hi
    exact Import.isNode_tree (Sentence.proper_of_mem_importsAll _ hmade hmem) hnoded

end OutlineIndex.Source
