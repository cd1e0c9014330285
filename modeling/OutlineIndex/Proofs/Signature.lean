import OutlineIndex.Proofs.Path
import OutlineIndex.Proofs.Source.LineEnds
import OutlineIndex.Source.Sentence

namespace OutlineIndex

open Source
open Skeleton (lastCode)
open Text (lastLine)

namespace Text

/-- Induction on the lines of a text. -/
@[elab_as_elim]
theorem line_induction {motive : List Char → Prop} (last : ∀ l, '\n' ∉ l → motive l)
    (feed : ∀ l s, '\n' ∉ l → motive s → motive (l ++ '\n' :: s)) (s : List Char) : motive s := by
  have hfront : ∀ l, '\n' ∉ l → motive (l ++ s) := by
    induction s with
    | nil => exact fun l hl => last (l ++ []) (by simpa using hl)
    | cons c s ih =>
      intro l hl
      by_cases hc : c = '\n'
      · rw [hc]
        exact feed l s hl (ih [] (by simp))
      · rw [← List.singleton_append, ← List.append_assoc]
        exact ih (l ++ [c]) (by simpa using ⟨hl, Ne.symm hc⟩)
  exact hfront [] (by simp)

theorem lines_cons {c : Char} (hc : isBoundary c = false) {s l : List Char} {ls : List (List Char)}
    (h : lines s = l :: ls) : lines (c :: s) = (c :: l) :: ls := by
  rw [lines]
  · rw [if_neg (by simp [hc]), h]
  · rintro _ rfl
    cases hc

theorem lines_cons_of_nil {c : Char} (hc : isBoundary c = false) {s : List Char} (h : lines s = []) :
    lines (c :: s) = [[c]] := by
  rw [lines]
  · rw [if_neg (by simp [hc]), h]
  · rintro _ rfl
    cases hc

section Lines

variable {l : List Char} (h : ∀ c ∈ l, isBoundary c = false)
include h

theorem lines_append_feed (s : List Char) : lines (l ++ '\n' :: s) = l :: lines s := by
  induction l with
  | nil => rfl
  | cons c l ih => exact lines_cons (h c List.mem_cons_self) (ih fun d hd => h d (List.mem_cons_of_mem _ hd))

theorem lines_concat {c : Char} (hc : isBoundary c = false) : lines (l ++ [c]) = [l ++ [c]] := by
  induction l with
  | nil => exact lines_cons_of_nil hc rfl
  | cons d l ih => exact lines_cons (h d List.mem_cons_self) (ih fun e he => h e (List.mem_cons_of_mem _ he))

end Lines

/-- The only line boundaries of a text are line feeds. -/
def Fed (s : List Char) : Prop := ∀ c ∈ s, isBoundary c = true → c = '\n'

-- over the text, and not over all characters there are
instance (s : List Char) : Decidable (Fed s) := List.decidableBAll (fun c => isBoundary c = true → c = '\n') s

theorem Fed.not_boundary {s : List Char} (h : Fed s) (hfeed : '\n' ∉ s) : ∀ c ∈ s, isBoundary c = false := by
  intro c hc
  by_contra hboundary
  exact hfeed (h c hc (by simpa using hboundary) ▸ hc)

theorem lastLine_append_feed (l s : List Char) : lastLine (l ++ '\n' :: s) = lastLine s := by
  by_cases hs : '\n' ∈ s
  · rw [← List.singleton_append, ← List.append_assoc, lastLine_append_of_mem _ hs]
  · rw [← List.singleton_append, ← List.append_assoc, lastLine_append_of_not_mem _ hs, lastLine_concat_feed,
      lastLine_of_not_mem hs, List.nil_append]

theorem feed_not_mem_lastLine (s : List Char) : '\n' ∉ lastLine s := by
  induction s using line_induction with
  | last l hl => rwa [lastLine_of_not_mem hl]
  | feed l s _ ih => rwa [lastLine_append_feed]

theorem Fed.lastLine {s : List Char} (h : Fed s) : ∀ c ∈ lastLine s, isBoundary c = false :=
  not_boundary (fun c hc => h c (lastLine_subset s hc)) (feed_not_mem_lastLine s)

theorem lines_ne_nil {s : List Char} (h : s ≠ []) : lines s ≠ [] := by
  fun_cases lines s with
  | case1 => exact absurd rfl h
  | _ => simp

/-- What stands before the first boundary of a text is its first line. -/
theorem lines_append_boundary {u v : List Char} (hu : ∀ c ∈ u, isBoundary c = false) (hne : u ≠ [])
    (hv : ∀ c ∈ v.head?, isBoundary c = true) : ∃ more, lines (u ++ v) = u :: more := by
  have hrest : lines v = [] ∨ ∃ more, lines v = [] :: more := by
    fun_cases lines v with
    | case1 => exact .inl rfl
    | case2 rest => exact .inr ⟨_, rfl⟩
    | case3 c rest _ _ => exact .inr ⟨_, rfl⟩
    | case4 c rest _ hc => exact absurd (hv c rfl) hc
    | case5 c rest _ hc => exact absurd (hv c rfl) hc
  induction u with
  | nil => exact absurd rfl hne
  | cons c u ih =>
    have hc := hu c List.mem_cons_self
    cases u with
    | nil =>
      rcases hrest with hrest | ⟨more, hrest⟩
      · exact ⟨[], lines_cons_of_nil hc hrest⟩
      · exact ⟨more, lines_cons hc hrest⟩
    | cons d u =>
      obtain ⟨more, hmore⟩ := ih (fun e he => hu e (List.mem_cons_of_mem _ he)) (by simp)
      exact ⟨more, lines_cons hc hmore⟩

theorem feed_not_mem_lines (s : List Char) : ∀ l ∈ lines s, '\n' ∉ l := by
  fun_induction lines s with
  | case1 => simp
  | case2 rest ih => simpa using ih
  | case3 c rest _ _ ih => simpa using ih
  | case4 c rest _ hc _ _ =>
    have hne : c ≠ '\n' := fun e => hc (e ▸ by decide)
    simpa using Ne.symm hne
  | case5 c rest _ hc l ls hlines ih =>
    have hne : c ≠ '\n' := fun e => hc (e ▸ by decide)
    rw [hlines] at ih
    intro m hm
    rcases List.mem_cons.mp hm with rfl | hm
    · simpa using ⟨Ne.symm hne, ih l List.mem_cons_self⟩
    · exact ih m (List.mem_cons_of_mem _ hm)

/-- The lines of a text are the ended ones, as many as it has line feeds, and those of its last line with what
follows. -/
theorem lines_append {s : List Char} (h : Fed s) : ∃ above : List (List Char), above.length = s.count '\n' ∧
    ∀ rest, lines (s ++ rest) = above ++ lines (lastLine s ++ rest) := by
  induction s using line_induction with
  | last l hl =>
    refine ⟨[], (List.count_eq_zero.mpr hl).symm, fun rest => ?_⟩
    rw [lastLine_of_not_mem hl, List.nil_append]
  | feed l s hl ih =>
    obtain ⟨above, hlength, hlines⟩ := ih fun c hc => h c (by simp [hc])
    have hplain := Fed.not_boundary (fun c hc => h c (List.mem_append_left _ hc)) hl
    refine ⟨l :: above, ?_, fun rest => ?_⟩
    · rw [List.length_cons, hlength, List.count_append, List.count_eq_zero.mpr hl, List.count_cons_self, Nat.zero_add]
    · rw [List.append_assoc, List.cons_append, lines_append_feed hplain, hlines, lastLine_append_feed,
        List.cons_append]

/-- Folding carriage returns leaves the lines as they are. -/
theorem lines_foldReturns (s : List Char) : lines (foldReturns s) = lines s := by
  fun_induction foldReturns s with
  | case1 => rfl
  | case2 rest ih =>
    rw [lines, ← ih]
    rfl
  | case3 c rest hpair ih =>
    by_cases hc : c = '\r'
    · subst hc
      have hreturn : lines ('\r' :: rest) = [] :: lines rest := by
        rw [lines]
        · exact if_pos (by decide)
        · exact fun more _ e => hpair more rfl e
      rw [if_pos rfl, hreturn, ← ih]
      rfl
    · rw [if_neg hc, lines, lines, ih]
      · exact fun _ e => absurd e hc
      · exact fun _ e => absurd e hc

end Text

namespace Skeleton

theorem depthAfter_append (d : Int) (s u : List Char) : depthAfter d (s ++ u) = depthAfter (depthAfter d s) u :=
  List.foldl_append

theorem depthAfter_feed (d : Int) (s : List Char) : depthAfter d ('\n' :: s) = depthAfter d s := rfl

/-- Lines that have ended and do not close the signature are passed over. -/
theorem signatureEnd?_append {s : List Char} (hfed : Text.Fed s) {d : Int}
    (hquiet : ∀ p, p ++ ['\n'] <+: s → 0 < depthAfter d p ∨ closesSignature (lastLine p) = false) :
    ∃ d', depthAfter d' (lastLine s) = depthAfter d s ∧ ∀ rest, signatureEnd? d (Text.lines (s ++ rest)) =
      (signatureEnd? d' (Text.lines (lastLine s ++ rest))).map (· + s.count '\n') := by
  induction s using Text.line_induction generalizing d with
  | last l hl =>
    rw [Text.lastLine_of_not_mem hl]
    refine ⟨d, rfl, fun rest => ?_⟩
    rw [List.count_eq_zero.mpr hl]
    simp
  | feed l s hl ih =>
    have hplain := Text.Fed.not_boundary (fun c hc => hfed c (List.mem_append_left _ hc)) hl
    have hline := hquiet l ⟨s, by simp⟩
    rw [Text.lastLine_of_not_mem hl] at hline
    obtain ⟨d', hdepth, hend⟩ := ih (fun c hc => hfed c (by simp [hc])) (d := depthAfter d l) fun p hp => by
      have hp' : (l ++ '\n' :: p) ++ ['\n'] <+: l ++ '\n' :: s := by
        rw [List.append_assoc, List.cons_append, List.prefix_append_right_inj]
        exact List.prefix_cons_iff.mpr (.inr ⟨_, rfl, hp⟩)
      have := hquiet _ hp'
      rwa [depthAfter_append, depthAfter_feed, Text.lastLine_append_feed] at this
    refine ⟨d', by rw [Text.lastLine_append_feed, hdepth, depthAfter_append, depthAfter_feed], fun rest => ?_⟩
    have hclosed : (decide (depthAfter d l ≤ 0) && closesSignature l) = false := by
      rcases hline with hline | hline
      · simp [Int.not_le.mpr hline]
      · simp [hline]
    rw [List.append_assoc, List.cons_append, Text.lines_append_feed hplain, signatureEnd?]
    simp only [hclosed, Bool.false_eq_true, if_false, hend, Option.map_map]
    rw [Text.lastLine_append_feed, List.count_append, List.count_eq_zero.mpr hl, List.count_cons_self, Nat.zero_add]
    rfl

end Skeleton

namespace Source.Mark

theorem column_advanceAll (m : Mark) {s : List Char} (h : '\n' ∉ s) :
    m.column + s.length ≤ (m.advanceAll s).column := by
  induction s generalizing m with
  | nil => exact Nat.le_refl _
  | cons c s ih =>
    rw [List.mem_cons, not_or] at h
    have hrest := ih (m.advance c) h.2
    have hcolumn : (m.advance c).column = m.column + c.utf8Size := by rw [advance, if_neg (Ne.symm h.1)]
    have hsize := Char.utf8Size_pos c
    rw [List.length_cons]
    change _ ≤ ((m.advance c).advanceAll s).column
    omega

/-- A place tells how much of a text is before it. -/
theorem advanceAll_inj {m : Mark} {p q s u : List Char} (htext : p ++ s = q ++ u)
    (h : m.advanceAll p = m.advanceAll q) : p = q := by
  have hstay : ∀ (n : Mark) (v : List Char), n.advanceAll v = n → v = [] := by
    intro n v hv
    have hline := line_advanceAll n v
    rw [hv] at hline
    have hfeed : '\n' ∉ v := List.count_eq_zero.mp (by omega)
    have hcolumn := column_advanceAll n hfeed
    rw [hv] at hcolumn
    exact List.eq_nil_of_length_eq_zero (by omega)
  have hmore : ∀ v w : List Char, m.advanceAll (v ++ w) = (m.advanceAll v).advanceAll w :=
    fun v w => List.foldl_append
  rcases List.append_eq_append_iff.mp htext with ⟨a, rfl, -⟩ | ⟨a, rfl, -⟩
  · rw [hmore] at h
    rw [hstay _ a h.symm, List.append_nil]
  · rw [hmore] at h
    rw [hstay _ a h, List.append_nil]

end Source.Mark

namespace Skeleton

/-- The text of one function: decorators, a header, and a body behind the colon of the header or below it. -/
structure FunctionBlock where
  code : List Char
  decorators : List Line
  header : Line
  body : List Line
  /-- The tokens of the header before its closing colon, the colon, and those behind it. -/
  front : List Token
  colon : Token
  inline : List Token
  /-- The text before the colon and behind it. -/
  before : List Char
  behind : List Char
  lines_eq : Line.ofItems (items .strict (Text.foldReturns code)) = decorators ++ header :: body
  header_eq : header.tokens = front ++ colon :: inline
  text_eq : Text.foldReturns code = before ++ ':' :: behind
  start_eq : colon.start = Mark.advanceAll ⟨0, 0⟩ before
  isDecorator : ∀ l ∈ decorators, Sentence.isDecorator l = true
  isFunction : ∃ name, Sentence.defined? header = some (.function, name)
  isColon : colon.isSymbol ":" = true
  closing : Sentence.afterColon 0 0 header.tokens = inline
  valid : ∀ l ∈ decorators ++ [header], ∀ t ∈ l.tokens, t.kind ≠ .invalid
  /-- Neither an expression nor a statement ends in a colon. -/
  complete : ∀ ts ∈ inline :: decorators.map Line.tokens, ∀ t ∈ ts.getLast?, t.isSymbol ":" = false
  bodied : inline = [] ↔ body ≠ []

namespace FunctionBlock

variable (b : FunctionBlock)

def text : List Char := Text.foldReturns b.code

/-- The tokens of the decorators and the header. -/
def tokens : List Token := (b.decorators ++ [b.header]).flatMap Line.tokens

/-- How many lines the signature has, from the first one to that of the colon. -/
def height : Nat := (Text.lines (b.before ++ [':'])).length

/-- The lines of the signature. -/
def signature : List (List Char) := (Text.lines b.code).take b.height

/-- The outline starts with the lines of the signature. -/
def Kept : Prop := b.signature <+: Text.split '\n' (outlineFunction b.code)

/-- A part of the text, from its start, in which counting brackets finds one open wherever there is one at the end
of a line. -/
structure Legible (part : List Char) : Prop where
  plain : Plain b.tokens
  fed : Text.Fed part
  counted : ∀ n < part.length, part[n]? = some '\n' →
    0 < depth (b.tokens.filter (·.start.line ≤ (part.take n).count '\n')) → 0 < depthAfter 0 (part.take n)

instance (part : List Char) : Decidable (b.Legible part) :=
  decidable_of_iff (_ ∧ Text.Fed part ∧ _)
    ⟨fun h => Legible.mk h.1 h.2.1 h.2.2, fun h => ⟨h.plain, h.fed, h.counted⟩⟩

/-- What follows the colon on its line. -/
def remainder : List Char := b.behind.takeWhile (!Text.isBoundary ·)

/-- The body is below, the line of the colon ends with it, but for blanks and a comment, and does not start with
an at sign, and counting brackets finds none open after it. -/
structure Closing : Prop where
  below : b.inline = []
  bare : Text.blank (b.remainder.takeWhile (· ≠ '#')) = true
  unmarked : (Text.trimLeft (lastLine b.before)).head? ≠ some '@'
  counted : depthAfter 0 (b.before ++ ':' :: b.remainder) ≤ 0

instance : Decidable b.Closing :=
  decidable_of_iff (_ ∧ _ ∧ _ ∧ _)
    ⟨fun h => Closing.mk h.1 h.2.1 h.2.2.1 h.2.2.2, fun h => ⟨h.below, h.bare, h.unmarked, h.counted⟩⟩

variable {b} in
theorem Legible.pos_depthAfter {part p : List Char} (h : b.Legible part) (hp : p ++ ['\n'] <+: part)
    (hopen : 0 < depth (b.tokens.filter (·.start.line ≤ p.count '\n'))) : 0 < depthAfter 0 p := by
  obtain ⟨rest, rfl⟩ := hp
  have hcounted := h.counted p.length (by simp) (by simp)
  rw [List.append_assoc, List.take_left] at hcounted
  exact hcounted hopen

instance : Decidable b.Kept := inferInstanceAs (Decidable (_ <+: _))

theorem lines_code : Text.lines b.code = Text.lines (b.before ++ ':' :: b.behind) := by
  rw [← Text.lines_foldReturns, b.text_eq]

/-- The lines as they are read. -/
def reading : Line.Builder := (items .strict b.text).foldl Line.Builder.add .start

theorem finished_reading : b.reading.close.finished = (b.decorators ++ b.header :: b.body).map Line.tokens := by
  rw [← b.lines_eq]
  rfl

theorem passed_reading : b.reading.passed = b.tokens ++ b.body.flatMap Line.tokens := by
  rw [← Line.Builder.passed_close, Line.Builder.passed, Line.Builder.tokens_close, finished_reading, tokens]
  simp [List.flatMap]

theorem tokens_eq : b.tokens = (b.decorators.flatMap Line.tokens ++ b.front) ++ b.colon :: b.inline := by
  simp [tokens, b.header_eq]

theorem toList_colon : b.colon.text.toList = [':'] := by
  have hcolon := b.isColon
  simp only [Token.isSymbol, Bool.and_eq_true, beq_iff_eq] at hcolon
  rw [hcolon.2]
  rfl

/-- The reading of the text comes to the colon. -/
theorem sound_colon (hplain : Plain b.tokens) : ∃ c y, Sound b.before c y false (':' :: b.behind) ∧
    c.passed = b.decorators.flatMap Line.tokens ++ b.front ∧ c.finished <+: b.reading.finished := by
  have htokens : b.reading.passed = (b.decorators.flatMap Line.tokens ++ b.front) ++
      b.colon :: (b.inline ++ b.body.flatMap Line.tokens) := by
    rw [passed_reading, tokens_eq]
    simp
  have hvalid : ∀ t ∈ (b.decorators.flatMap Line.tokens ++ b.front) ++ [b.colon], t.kind ≠ .invalid := by
    intro t ht
    have hmem : t ∈ b.tokens := by
      rw [tokens_eq]
      rcases List.mem_append.mp ht with ht | ht
      · exact List.mem_append_left _ ht
      · exact List.mem_append_right _ (by simp [List.mem_singleton.mp ht])
    obtain ⟨l, hl, ht⟩ := List.mem_flatMap.mp hmem
    exact b.valid l hl t ht
  obtain ⟨before, c, y, z, left, hreached, hmove, hpassed, hfinished⟩ :=
    Reached.start.exists_token (2 * b.text.length + 2) htokens hvalid (Nat.zero_le _)
  have hsound := hreached.sound (by rw [hpassed]; rw [tokens_eq] at hplain; exact hplain.left)
  have hbefore : before = b.before := by
    refine Mark.advanceAll_inj (m := ⟨0, 0⟩) (hreached.append_eq.trans b.text_eq) ?_
    rw [← hsound.mark, ← b.start_eq]
    exact hmove.start_eq.symm
  subst hbefore
  have happend := hreached.append_eq.trans b.text_eq
  rw [b.toList_colon] at hsound happend
  rw [List.append_cancel_left happend] at hsound
  exact ⟨c, y, hsound, hpassed, hfinished⟩

theorem prefix_of_length_flatten {fs ds bs : List (List Token)} {h : List Token} (hfs : fs <+: ds ++ h :: bs)
    (hlength : fs.flatten.length < ds.flatten.length + h.length) : fs <+: ds := by
  rcases List.prefix_or_prefix_of_prefix hfs (List.prefix_append ds (h :: bs)) with hprefix | ⟨r, rfl⟩
  · exact hprefix
  · cases r with
    | nil => simp
    | cons g r =>
      have hg : g = h := by
        have := (List.prefix_append_right_inj ds).mp hfs
        exact (List.cons_prefix_cons.mp this).1
      subst hg
      rw [List.flatten_append, List.flatten_cons, List.length_append, List.length_append] at hlength
      omega

theorem not_endsInColon {c : Line.Builder} (hpassed : c.passed = b.decorators.flatMap Line.tokens ++ b.front)
    (hfinished : c.finished <+: b.reading.finished) : ¬EndsInColon c.finished := by
  rintro ⟨ts, hts, t, hlast, hcolon⟩
  have hbefore : c.finished <+: b.decorators.map Line.tokens := by
    have hlines : c.finished <+: b.decorators.map Line.tokens ++ b.header.tokens :: b.body.map Line.tokens := by
      have hclose : b.reading.finished <+: b.reading.close.finished := ⟨_, (Line.Builder.finished_close _).symm⟩
      rw [finished_reading, List.map_append, List.map_cons] at hclose
      exact hfinished.trans hclose
    refine prefix_of_length_flatten hlines ?_
    have hall := congrArg List.length hpassed
    rw [Line.Builder.passed, List.length_append, List.length_append, List.flatMap] at hall
    rw [b.header_eq, List.length_append, List.length_cons]
    omega
  have hquiet := b.complete ts (List.mem_cons_of_mem _ (hbefore.subset hts)) t hlast
  rw [hquiet] at hcolon
  cases hcolon

theorem height_of_fed {b : FunctionBlock} (hfed : Text.Fed b.before) : b.height = b.before.count '\n' + 1 := by
  obtain ⟨above, hlength, hlines⟩ := Text.lines_append hfed
  rw [height, hlines, Text.lines_concat hfed.lastLine (by decide), List.length_append, hlength]
  rfl

/-- The line of the colon is the last line of the text before it, the colon and what follows on the line. -/
theorem lines_colon {b : FunctionBlock} (hfed : Text.Fed b.before) : ∃ more,
    Text.lines (lastLine b.before ++ ':' :: b.behind) = (lastLine b.before ++ ':' :: b.remainder) :: more := by
  have hline : ∀ c ∈ lastLine b.before ++ ':' :: b.remainder, Text.isBoundary c = false := by
    intro c hc
    rcases List.mem_append.mp hc with hc | hc
    · exact hfed.lastLine c hc
    · rcases List.mem_cons.mp hc with rfl | hc
      · decide
      · simpa using List.mem_takeWhile_imp hc
  have hsplit : lastLine b.before ++ ':' :: b.behind =
      (lastLine b.before ++ ':' :: b.remainder) ++ b.behind.dropWhile (!Text.isBoundary ·) := by
    simp [remainder]
  rw [hsplit]
  refine Text.lines_append_boundary hline (by simp) fun c hc => ?_
  have hhead := List.head?_dropWhile_not (fun c : Char => !Text.isBoundary c) b.behind
  rw [Option.mem_def.mp hc] at hhead
  simpa using hhead

end FunctionBlock

section Lines

theorem subset_upTo (mark s : List Char) : upTo mark s ⊆ s := by
  induction s with
  | nil => exact List.Subset.refl _
  | cons c s ih =>
    rw [upTo]
    split
    · simp
    · exact List.cons_subset_cons c ih

theorem subset_trim (s : List Char) : Text.trim s ⊆ s := by
  intro c hc
  have hright : c ∈ Text.trimLeft s := by
    have hmem := (List.dropWhile_sublist isBlank).subset (List.mem_reverse.mp hc)
    exact List.mem_reverse.mp hmem
  exact (List.dropWhile_sublist isBlank).subset hright

theorem shown_of_openingQuotes {s quotes : List Char} (h : openingQuotes? s = some quotes) :
    '\n' ∉ quotes ∧ Text.blank quotes = false := by
  unfold openingQuotes? at h
  dsimp only at h
  repeat' split at h
  all_goals cases h
  all_goals decide

theorem feed_not_mem_docstringLine {line quotes : List Char} (hline : '\n' ∉ line) (hquotes : '\n' ∉ quotes) :
    '\n' ∉ docstringLine line quotes := by
  have hinner : '\n' ∉ Text.trim (upTo quotes (after quotes (Text.trim line))) := by
    intro hmem
    have hafter := (List.drop_sublist _ _).subset (subset_upTo _ _ (subset_trim _ hmem))
    exact hline (subset_trim _ hafter)
  simp [docstringLine, hquotes, hinner]

theorem feed_not_mem_bodyLines {rest : List (List Char)} (h : ∀ l ∈ rest, '\n' ∉ l) :
    ∀ l ∈ bodyLines rest, '\n' ∉ l := by
  unfold bodyLines
  split
  · simp
  · rename_i line hline
    have hfeed := h line (List.mem_of_find?_eq_some hline)
    have hindent : '\n' ∉ line.take (line.length - (Text.trimLeft line).length) :=
      fun hmem => hfeed (List.mem_of_mem_take hmem)
    intro l hl
    rcases List.mem_append.mp hl with hl | hl
    · obtain ⟨doc, hdoc, rfl⟩ := List.mem_map.mp hl
      obtain ⟨quotes, hquotes, rfl⟩ := Option.map_eq_some_iff.mp (Option.mem_toList.mp hdoc)
      simpa using ⟨hindent, feed_not_mem_docstringLine hfeed (shown_of_openingQuotes hquotes).1⟩
    · rw [List.mem_singleton.mp hl]
      simpa using hindent

/-- The lines of an outline. -/
theorem split_outlineFunction {code : List Char} (h : Text.lines code ≠ []) :
    Text.split '\n' (outlineFunction code) = outlineLines (Text.lines code) := by
  refine Text.split_join ?_ ?_
  · simp [outlineLines, h]
  · intro l hl
    rcases List.mem_append.mp hl with hl | hl
    · exact Text.feed_not_mem_lines code l (List.mem_of_mem_take hl)
    · exact feed_not_mem_bodyLines (fun m hm => Text.feed_not_mem_lines code m (List.mem_of_mem_drop hm)) l hl

end Lines

namespace FunctionBlock

variable (b : FunctionBlock)

theorem lines_code_ne_nil : Text.lines b.code ≠ [] := by
  rw [b.lines_code]
  exact Text.lines_ne_nil (by simp)

/-- A signature that ends no lower than the outline takes it to end is kept. -/
theorem kept_of_height_le (h : b.height ≤ signatureEnd (Text.lines b.code) + 1) : b.Kept := by
  rw [Kept, split_outlineFunction b.lines_code_ne_nil]
  exact (List.take_prefix_take_left h).trans (List.prefix_append _ _)

variable {b} in
/-- Where a reading of a legible part has met no line that ends in a colon, none closes the signature. -/
theorem Legible.quiet {part p left : List Char} {c : Line.Builder} {y : Lexer} {fresh : Bool}
    (hlegible : b.Legible part) (hsound : Sound part c y fresh left) (hends : ¬EndsInColon c.finished)
    (hp : p ++ ['\n'] <+: part)
    (htokens : c.passed.filter (·.start.line ≤ p.count '\n') = b.tokens.filter (·.start.line ≤ p.count '\n')) :
    0 < depthAfter 0 p ∨ closesSignature (lastLine p) = false := by
  refine or_iff_not_imp_right.mpr fun hcloses => hlegible.pos_depthAfter hp ?_
  have hcode := lastCode_of_closesSignature (by simpa using hcloses)
  rw [← htokens]
  exact (hsound.ends p hp hcode).resolve_right hends

/-- No line above that of the colon closes the signature. -/
theorem quiet_before (hlegible : b.Legible b.before) (hbelow : b.inline = []) (p : List Char)
    (hp : p ++ ['\n'] <+: b.before) : 0 < depthAfter 0 p ∨ closesSignature (lastLine p) = false := by
  obtain ⟨c, y, hsound, hpassed, hfinished⟩ := b.sound_colon hlegible.plain
  refine hlegible.quiet hsound (b.not_endsInColon hpassed hfinished) hp ?_
  have hcount : p.count '\n' < b.colon.start.line := by
    have hle := hp.sublist.count_le '\n'
    rw [List.count_append] at hle
    rw [b.start_eq, Mark.line_advanceAll]
    exact Nat.lt_of_lt_of_le hle (Nat.le_add_left _ _)
  rw [tokens_eq, hbelow, ← hpassed, List.filter_append, List.filter_cons_of_neg (by simpa using hcount),
    List.filter_nil, List.append_nil]

theorem closesSignature_colon {front rest : List Char} (hhash : '#' ∉ front)
    (hfront : (Text.trimLeft front).head? ≠ some '@') (hrest : Text.blank (rest.takeWhile (· ≠ '#')) = true) :
    closesSignature (front ++ ':' :: rest) = true := by
  have hcode : Text.trimRight ((front ++ ':' :: rest).takeWhile (· ≠ '#')) = front ++ [':'] := by
    have hplain : ∀ c ∈ front ++ [':'], decide (c ≠ '#') = true := by
      intro c hc
      refine decide_eq_true ?_
      rintro rfl
      simp [hhash] at hc
    rw [← List.singleton_append, ← List.append_assoc, List.takeWhile_append_of_pos hplain,
      Text.trimRight_append_of_blank _ hrest, Text.trimRight_append_of_not_blank front (by decide)]
    rfl
  have hhead : (Text.trimLeft (front ++ [':'])).head? ≠ some '@' := by
    rw [Text.trimLeft, List.dropWhile_append]
    split
    · decide
    · rename_i hne
      rwa [List.head?_append_of_ne_nil _ (by simpa using hne)]
  simp only [closesSignature, hcode]
  simpa using hhead

/-- The line of the colon does. -/
theorem signatureEnd_eq (hlegible : b.Legible b.before) (hclosing : b.Closing) :
    signatureEnd (Text.lines b.code) = b.before.count '\n' := by
  obtain ⟨d, hdepth, hend⟩ := signatureEnd?_append hlegible.fed (b.quiet_before hlegible hclosing.below)
  have hhash : '#' ∉ lastLine b.before := by
    obtain ⟨c, y, hsound, -, -⟩ := b.sound_colon hlegible.plain
    exact hsound.hash_not_mem (by decide)
  obtain ⟨more, hmore⟩ := lines_colon hlegible.fed
  have hcloses := closesSignature_colon hhash hclosing.unmarked hclosing.bare
  have hcount : depthAfter d (lastLine b.before ++ ':' :: b.remainder) ≤ 0 := by
    rw [depthAfter_append, hdepth, ← depthAfter_append]
    exact hclosing.counted
  rw [signatureEnd, b.lines_code, hend, hmore, signatureEnd?]
  simp [hcount, hcloses]

section Inline

variable {b : FunctionBlock}

theorem reached_end (hbody : b.body = []) : ∃ y, Reached b.text b.text b.reading y false [] := by
  have hvalid : ∀ t ∈ b.reading.passed, t.kind ≠ .invalid := by
    intro t ht
    rw [passed_reading, hbody, List.flatMap_nil, List.append_nil] at ht
    obtain ⟨l, hl, ht⟩ := List.mem_flatMap.mp ht
    exact b.valid l hl t ht
  have hfuel : 2 * b.text.length + true.toNat < 2 * b.text.length + 2 := by simp
  have hstart : Reached b.text [] .start ⟨⟨0, 0⟩, [], []⟩ true b.text := .start
  obtain ⟨y, hy, -⟩ := hstart.exists_end hfuel hvalid
  exact ⟨y, hy⟩

variable (hinline : b.inline ≠ [])
include hinline

theorem body_eq_nil : b.body = [] := by
  by_contra hbody
  exact hinline (b.bodied.mpr hbody)

/-- With the body on the line of the header no line ends in a colon. -/
theorem not_endsInColon_reading : ¬EndsInColon b.reading.close.finished := by
  rintro ⟨ts, hts, t, hlast, hcolon⟩
  have hquiet : t.isSymbol ":" = false := by
    rw [finished_reading, body_eq_nil hinline] at hts
    simp only [List.map_append, List.map_cons, List.map_nil, List.mem_append, List.mem_singleton] at hts
    rcases hts with hts | rfl
    · exact b.complete ts (List.mem_cons_of_mem _ hts) t hlast
    · refine b.complete b.inline List.mem_cons_self t ?_
      rw [b.header_eq, List.getLast?_append, List.getLast?_cons, List.getLast?_eq_some_getLast hinline] at hlast
      rw [List.getLast?_eq_some_getLast hinline]
      simpa using hlast
  rw [hquiet] at hcolon
  cases hcolon

/-- So no line closes the signature. -/
theorem signatureEnd?_eq_none (hlegible : b.Legible b.text) : signatureEnd? 0 (Text.lines b.code) = none := by
  obtain ⟨y, hreached⟩ := b.reached_end (body_eq_nil hinline)
  have hpassed : b.reading.passed = b.tokens := by
    rw [passed_reading, body_eq_nil hinline, List.flatMap_nil, List.append_nil]
  have hsound := hreached.sound (hpassed ▸ hlegible.plain)
  have hquiet := not_endsInColon_reading hinline
  rw [Line.Builder.finished_close] at hquiet
  have hends : ¬EndsInColon b.reading.finished :=
    fun ⟨ts, hts, hcolon⟩ => hquiet ⟨ts, List.mem_append_left _ hts, hcolon⟩
  have hended : ∀ p, p ++ ['\n'] <+: b.text → 0 < depthAfter 0 p ∨ closesSignature (lastLine p) = false :=
    fun p hp => hlegible.quiet hsound hends hp (by rw [hpassed])
  have hlast : closesSignature (lastLine b.text) = false := by
    by_contra hcloses
    obtain ⟨t, ht, hcolon⟩ := hsound.last (lastCode_of_closesSignature (by simpa using hcloses))
    refine hquiet ⟨b.reading.tokens.reverse, ?_, t, by rw [List.getLast?_reverse, ht], hcolon⟩
    have hne : b.reading.tokens ≠ [] := fun e => by rw [e] at ht; cases ht
    rw [if_neg hne]
    simp
  obtain ⟨d, -, hend⟩ := signatureEnd?_append hlegible.fed hended
  have hline : signatureEnd? d (Text.lines (lastLine b.text)) = none := by
    rcases List.eq_nil_or_concat (lastLine b.text) with hnil | ⟨l, c, hconcat⟩
    · rw [hnil]
      rfl
    · have hplain := hlegible.fed.lastLine
      rw [hconcat, List.concat_eq_append] at hplain hlast ⊢
      rw [Text.lines_concat (fun e he => hplain e (by simp [he])) (hplain c (by simp)), signatureEnd?, hlast]
      simp [signatureEnd?]
  have hall := hend []
  rw [List.append_nil, List.append_nil, hline] at hall
  rw [← Text.lines_foldReturns]
  exact hall

end Inline

end FunctionBlock

theorem isBlank_of_mem_indent {line : List Char} {c : Char}
    (hc : c ∈ line.take (line.length - (Text.trimLeft line).length)) : isBlank c = true := by
  have hlength : line.length - (Text.trimLeft line).length = (line.takeWhile isBlank).length := by
    have hsplit := congrArg List.length (List.takeWhile_append_dropWhile (p := isBlank) (l := line))
    rw [List.length_append] at hsplit
    rw [Text.trimLeft]
    omega
  rw [hlength, ← List.prefix_iff_eq_take.mp (List.takeWhile_prefix isBlank)] at hc
  exact List.mem_takeWhile_imp hc

theorem not_blank_of_mem_bodyLines {rest : List (List Char)} {l : List Char} (h : l ∈ bodyLines rest) :
    Text.blank l = false := by
  unfold bodyLines at h
  split at h
  · cases h
  · rcases List.mem_append.mp h with h | h
    · obtain ⟨doc, hdoc, rfl⟩ := List.mem_map.mp h
      obtain ⟨quotes, hquotes, rfl⟩ := Option.map_eq_some_iff.mp (Option.mem_toList.mp hdoc)
      have hshown := (shown_of_openingQuotes hquotes).2
      simp only [Text.blank, docstringLine, List.all_append] at hshown ⊢
      simp [hshown]
    · rw [List.mem_singleton.mp h]
      simp [Text.blank, isBlank]

/-- Lines that end with one that holds a colon are not the lines below a signature, unless the first of them
opens with quotes. -/
theorem not_prefix_bodyLines {above : List (List Char)} {line : List Char} (hcolon : ':' ∈ line)
    (hquotes : ∀ l ∈ (above ++ [line]).head?, openingQuotes? (Text.trimLeft l) = none) (more : List (List Char)) :
    ¬above ++ [line] <+: bodyLines (above ++ line :: more) := by
  intro hprefix
  obtain ⟨l, rest, hlines, hhead⟩ :
      ∃ l rest, above ++ line :: more = l :: rest ∧ (above ++ [line]).head? = some l := by
    cases above with
    | nil => exact ⟨line, more, rfl, rfl⟩
    | cons a above => exact ⟨a, above ++ line :: more, rfl, rfl⟩
  have hl : l ∈ bodyLines (above ++ line :: more) := hprefix.subset (List.mem_of_head? hhead)
  -- the first line is not blank, so the lines below are made of it
  have hfind : (above ++ line :: more).find? (!Text.blank ·) = some l := by
    rw [hlines, List.find?_cons_of_pos]
    rw [not_blank_of_mem_bodyLines hl]
    rfl
  unfold bodyLines at hprefix
  simp only [hfind, hquotes l hhead, Option.map_none, Option.toList_none, List.map_nil, List.nil_append] at hprefix
  obtain rfl : above = [] := by
    have hlength := hprefix.length_le
    rw [List.length_append] at hlength
    exact List.eq_nil_of_length_eq_zero (by simpa using hlength)
  obtain rfl : line = _ := by simpa using hprefix
  rcases List.mem_append.mp hcolon with hmem | hmem
  · exact absurd (isBlank_of_mem_indent hmem) (by decide)
  · exact absurd hmem (by decide)

namespace FunctionBlock

variable {b : FunctionBlock}

theorem not_kept (hlegible : b.Legible b.text) (hinline : b.inline ≠ []) (hheight : b.height ≠ 1)
    (hquotes : ∀ l ∈ (Text.lines b.code)[1]?, openingQuotes? (Text.trimLeft l) = none) : ¬b.Kept := by
  have hfed : Text.Fed b.before := by
    intro c hc
    refine hlegible.fed c ?_
    rw [text, b.text_eq]
    exact List.mem_append_left _ hc
  obtain ⟨above, hlength, hlines⟩ := Text.lines_append hfed
  obtain ⟨more, hline⟩ := lines_colon hfed
  generalize hcolon : lastLine b.before ++ ':' :: b.remainder = line at hline
  have hcode : Text.lines b.code = above ++ line :: more := by rw [b.lines_code, hlines, hline]
  obtain ⟨first, above, rfl⟩ : ∃ first rest, above = first :: rest := by
    refine List.exists_cons_of_length_pos ?_
    rw [height_of_fed hfed] at hheight
    omega
  have hsignature : b.signature = first :: (above ++ [line]) := by
    rw [signature, hcode, height_of_fed hfed, ← hlength]
    simp [List.take_append, List.take_of_length_le]
  have houtline : outlineLines (Text.lines b.code) = first :: bodyLines (above ++ line :: more) := by
    rw [outlineLines, signatureEnd, signatureEnd?_eq_none hinline hlegible, hcode]
    rfl
  rw [Kept, split_outlineFunction b.lines_code_ne_nil, houtline, hsignature, List.cons_prefix_cons]
  refine fun ⟨_, hbody⟩ => not_prefix_bodyLines (by simp [← hcolon]) (fun l hl => hquotes l ?_) more hbody
  rw [hcode]
  cases above <;> simpa using hl

/-- What an outline keeps of a signature. One on a single line is kept whatever it holds. One of several lines is
kept when its lines are legible and the body is below it, and is not kept when they are legible and the body
stands on the line of the header, unless the second line opens with quotes. -/
theorem keeps_signature (b : FunctionBlock) : (b.height = 1 → b.Kept) ∧
    (b.Legible b.before → b.Closing → b.Kept) ∧
    (b.Legible b.text → b.inline ≠ [] → b.height ≠ 1 →
      (∀ l ∈ (Text.lines b.code)[1]?, openingQuotes? (Text.trimLeft l) = none) → ¬b.Kept) := by
  refine ⟨fun hheight => b.kept_of_height_le ?_, fun hlegible hclosing => b.kept_of_height_le ?_, not_kept⟩
  · rw [hheight]
    exact Nat.le_add_left _ _
  · rw [b.signatureEnd_eq hlegible hclosing, height_of_fed hlegible.fed]

/-- A text as a block, cut before its header, before a token of the header and before a character. -/
def cut? (code : List Char) (line token character : Nat) : Option FunctionBlock :=
  let text := Text.foldReturns code
  let decorators := (Line.ofItems (items .strict text)).take line
  match hline : (Line.ofItems (items .strict text)).drop line with
  | [] => none
  | header :: body =>
    match htoken : header.tokens.drop token, hcharacter : text.drop character with
    | colon :: inline, ':' :: behind =>
      if h : colon.start = Mark.advanceAll ⟨0, 0⟩ (text.take character) ∧
          (∀ l ∈ decorators, Sentence.isDecorator l = true) ∧
          (Sentence.defined? header).any (·.1 = .function) = true ∧ colon.isSymbol ":" = true ∧
          Sentence.afterColon 0 0 header.tokens = inline ∧
          (∀ l ∈ decorators ++ [header], ∀ t ∈ l.tokens, t.kind ≠ .invalid) ∧
          (∀ ts ∈ inline :: decorators.map Line.tokens, ∀ t ∈ ts.getLast?, t.isSymbol ":" = false) ∧
          (inline = [] ↔ body ≠ []) then
        some {
          code, decorators, header, body, colon, inline, behind
          front := header.tokens.take token
          before := text.take character
          lines_eq := by rw [← hline, List.take_append_drop]
          header_eq := by rw [← htoken, List.take_append_drop]
          text_eq := by rw [← hcharacter, List.take_append_drop]
          start_eq := h.1
          isDecorator := h.2.1
          isFunction := by
            obtain ⟨⟨k, name⟩, hname, hk⟩ := (Option.any_eq_true _ _).mp h.2.2.1
            obtain rfl : k = .function := of_decide_eq_true hk
            exact ⟨name, hname⟩
          isColon := h.2.2.2.1
          closing := h.2.2.2.2.1
          valid := h.2.2.2.2.2.1
          complete := h.2.2.2.2.2.2.1
          bodied := h.2.2.2.2.2.2.2 }
      else none
    | _, _ => none

theorem exists_of_cut? (code : List Char) (line token character : Nat) {p : FunctionBlock → Prop} [DecidablePred p]
    (h : ((cut? code line token character).any fun b => decide (p b)) = true) : ∃ b, p b := by
  obtain ⟨b, -, hb⟩ := (Option.any_eq_true _ _).mp h
  exact ⟨b, of_decide_eq_true hb⟩

/-- A signature on one line. -/
def single : List Char := "def f(x=')'): return x".toList

/-- A signature of four lines, with brackets in literals and comments that make up for one another. -/
def spread : List Char :=
  "@d('(', # )\n  2)\nasync def f(x=1,\n    y=lambda: ')') -> int: # (\n    return x".toList

/-- A decorated function on one line. -/
def decorated : List Char := "@d\ndef f(): return 1".toList

theorem keeps_signature_samples : (∃ b : FunctionBlock, b.code = single ∧ b.height = 1 ∧ b.Kept) ∧
    (∃ b : FunctionBlock, b.code = spread ∧ b.height = 4 ∧ b.Legible b.before ∧ b.Closing ∧ b.Kept) ∧
    ∃ b : FunctionBlock, b.code = decorated ∧ b.Legible b.text ∧ b.inline ≠ [] ∧ b.height ≠ 1 ∧
      (∀ l ∈ (Text.lines b.code)[1]?, openingQuotes? (Text.trimLeft l) = none) ∧ ¬b.Kept := by
  refine ⟨?_, ?_, ?_⟩
  · obtain ⟨b, hcode, hheight⟩ : ∃ b : FunctionBlock, b.code = single ∧ b.height = 1 :=
      exists_of_cut? single 0 7 12 (by decide +kernel)
    exact ⟨b, hcode, hheight, b.keeps_signature.1 hheight⟩
  · obtain ⟨b, hcode, hheight, hlegible, hclosing⟩ :
        ∃ b : FunctionBlock, b.code = spread ∧ b.height = 4 ∧ b.Legible b.before ∧ b.Closing :=
      exists_of_cut? spread 1 16 59 (by decide +kernel)
    exact ⟨b, hcode, hheight, hlegible, hclosing, b.keeps_signature.2.1 hlegible hclosing⟩
  · obtain ⟨b, hcode, hlegible, hinline, hheight, hquotes⟩ : ∃ b : FunctionBlock, b.code = decorated ∧
        b.Legible b.text ∧ b.inline ≠ [] ∧ b.height ≠ 1 ∧
        ∀ l ∈ (Text.lines b.code)[1]?, openingQuotes? (Text.trimLeft l) = none :=
      exists_of_cut? decorated 1 4 10 (by decide +kernel)
    exact ⟨b, hcode, hlegible, hinline, hheight, hquotes, b.keeps_signature.2.2 hlegible hinline hheight hquotes⟩

/-- The outline of a decorated function on one line has lost its name. -/
theorem outline_decorated : (∃ b : FunctionBlock, b.code = decorated ∧ ¬b.Kept) ∧
    outlineFunction decorated = "@d\n...".toList :=
  ⟨exists_of_cut? decorated 1 4 10 (by decide +kernel), by decide +kernel⟩

end FunctionBlock

end Skeleton

end OutlineIndex
