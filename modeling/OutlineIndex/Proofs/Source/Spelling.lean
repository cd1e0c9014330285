import Mathlib.Data.List.TakeWhile
import OutlineIndex.Proofs.Source.Dialects
import OutlineIndex.Skeleton.Outline

namespace OutlineIndex

namespace Text

/-- The line at hand after one more character. -/
def extend (line : List Char) (c : Char) : List Char := if c = '\n' then [] else line ++ [c]

/-- What follows the last line feed of a text. -/
def lastLine (s : List Char) : List Char := s.foldl extend []

theorem foldl_extend_of_not_mem {u : List Char} (h : '\n' ∉ u) (line : List Char) :
    u.foldl extend line = line ++ u := by
  induction u generalizing line with
  | nil => simp
  | cons c u ih =>
    rw [List.mem_cons, not_or] at h
    rw [List.foldl_cons, extend, if_neg (Ne.symm h.1), ih h.2, List.append_assoc, List.singleton_append]

theorem foldl_extend_of_mem {u : List Char} (h : '\n' ∈ u) (line line' : List Char) :
    u.foldl extend line = u.foldl extend line' := by
  induction u generalizing line line' with
  | nil => cases h
  | cons c u ih =>
    rw [List.foldl_cons, List.foldl_cons]
    by_cases hc : c = '\n'
    · rw [extend, extend, if_pos hc, if_pos hc]
    · exact ih ((List.mem_cons.mp h).resolve_left (Ne.symm hc)) _ _

theorem lastLine_append_of_not_mem (s : List Char) {u : List Char} (h : '\n' ∉ u) :
    lastLine (s ++ u) = lastLine s ++ u := by
  rw [lastLine, List.foldl_append, foldl_extend_of_not_mem h, lastLine]

theorem lastLine_append_of_mem (s : List Char) {u : List Char} (h : '\n' ∈ u) : lastLine (s ++ u) = lastLine u := by
  rw [lastLine, List.foldl_append, foldl_extend_of_mem h, lastLine]

theorem lastLine_of_not_mem {s : List Char} (h : '\n' ∉ s) : lastLine s = s := lastLine_append_of_not_mem [] h

theorem lastLine_concat_feed (s : List Char) : lastLine (s ++ ['\n']) = [] := lastLine_append_of_mem s (by simp)

theorem getLast?_lastLine {s : List Char} {c : Char} (h : s.getLast? = some c) (hc : c ≠ '\n') :
    (lastLine s).getLast? = some c := by
  obtain ⟨s, rfl⟩ := List.getLast?_eq_some_iff.mp h
  rw [lastLine_append_of_not_mem s (by simpa using Ne.symm hc), List.getLast?_concat]

theorem lastLine_subset (s : List Char) : lastLine s ⊆ s := by
  by_cases h : '\n' ∈ s
  · obtain ⟨a, b, hsplit, hb⟩ := List.eq_append_cons_of_mem (List.mem_reverse.mpr h)
    have hs : s = b.reverse ++ ['\n'] ++ a.reverse := by
      rw [← List.reverse_reverse s, hsplit]
      simp
    rw [hs, lastLine_append_of_not_mem _ (by simpa using hb), lastLine_concat_feed]
    exact List.subset_append_right _ _
  · rw [lastLine_of_not_mem h]
    exact List.Subset.refl _

/-- Blanks at the end are trimmed, and nothing else. -/
theorem trimRight_append_of_blank (s : List Char) {u : List Char} (h : blank u = true) :
    trimRight (s ++ u) = trimRight s := by
  have hu : ∀ c ∈ u.reverse, isBlank c = true := fun c hc => List.all_eq_true.mp h c (List.mem_reverse.mp hc)
  rw [trimRight, List.reverse_append, List.dropWhile_append_of_pos hu, trimRight]

theorem trimRight_ne_nil {u : List Char} (h : blank u = false) : trimRight u ≠ [] := by
  intro e
  rw [trimRight, List.reverse_eq_nil_iff, List.dropWhile_eq_nil_iff] at e
  rw [← Bool.not_eq_true] at h
  exact h (List.all_eq_true.mpr fun c hc => e c (List.mem_reverse.mpr hc))

theorem trimRight_append_of_not_blank (s : List Char) {u : List Char} (h : blank u = false) :
    trimRight (s ++ u) = s ++ trimRight u := by
  have hne : u.reverse.dropWhile isBlank ≠ [] := fun e => trimRight_ne_nil h (by rw [trimRight, e]; rfl)
  rw [trimRight, List.reverse_append, List.dropWhile_append, if_neg (by simpa using hne), List.reverse_append,
    List.reverse_reverse, trimRight]

end Text

namespace Skeleton

/-- The last character of a line, up to a hash sign, that is no blank. -/
def lastCode (line : List Char) : Option Char := (Text.trimRight (line.takeWhile (· ≠ '#'))).getLast?

theorem lastCode_of_closesSignature {line : List Char} (h : closesSignature line = true) :
    lastCode line = some ':' := by
  simp only [closesSignature, Bool.and_eq_true, decide_eq_true_eq] at h
  exact h.1

theorem takeWhile_of_hash_not_mem {u : List Char} (h : '#' ∉ u) : u.takeWhile (· ≠ '#') = u :=
  List.takeWhile_eq_self_iff.mpr fun _ hc => decide_eq_true fun e => h (e ▸ hc)

theorem hash_not_mem_of_blank {u : List Char} (h : Text.blank u = true) : '#' ∉ u := by
  intro hmem
  exact absurd (List.all_eq_true.mp h _ hmem) (by decide)

theorem lastCode_append_blank {line u : List Char} (h : '#' ∉ line) (hu : Text.blank u = true) :
    lastCode (line ++ u) = lastCode line := by
  have hboth : '#' ∉ line ++ u := by simpa using ⟨h, hash_not_mem_of_blank hu⟩
  rw [lastCode, takeWhile_of_hash_not_mem hboth, Text.trimRight_append_of_blank _ hu, lastCode,
    takeWhile_of_hash_not_mem h]

theorem lastCode_append_comment {line : List Char} (h : '#' ∉ line) (u : List Char) :
    lastCode (line ++ '#' :: u) = lastCode line := by
  have hline : ∀ c ∈ line, decide (c ≠ '#') = true := fun _ hc => decide_eq_true fun e => h (e ▸ hc)
  rw [lastCode, List.takeWhile_append_of_pos hline, List.takeWhile_cons_of_neg (by simp), List.append_nil, lastCode,
    takeWhile_of_hash_not_mem h]

theorem lastCode_append {line u : List Char} (h : '#' ∉ line) (hu : '#' ∉ u) (hshown : Text.blank u = false) :
    lastCode (line ++ u) = lastCode u := by
  have hboth : '#' ∉ line ++ u := by simpa using ⟨h, hu⟩
  rw [lastCode, takeWhile_of_hash_not_mem hboth, Text.trimRight_append_of_not_blank _ hshown, lastCode,
    takeWhile_of_hash_not_mem hu, List.getLast?_append, List.getLast?_eq_some_getLast (Text.trimRight_ne_nil hshown)]
  rfl

theorem lastCode_eq_getLast? {line : List Char} {c : Char} (h : '#' ∉ line) (hlast : line.getLast? = some c)
    (hc : isBlank c = false) : lastCode line = some c := by
  obtain ⟨s, rfl⟩ := List.getLast?_eq_some_iff.mp hlast
  rw [lastCode, takeWhile_of_hash_not_mem h, Text.trimRight]
  simp [hc]

theorem mem_of_lastCode {line : List Char} {c : Char} (h : lastCode line = some c) : c ∈ line := by
  have hmem : c ∈ Text.trimRight (line.takeWhile (· ≠ '#')) := List.mem_of_getLast? h
  have hdrop := (List.dropWhile_sublist isBlank).subset (List.mem_reverse.mp hmem)
  exact (List.takeWhile_prefix _).subset (List.mem_reverse.mp hdrop)

end Skeleton

namespace Source

/-- How many more brackets are open after a token. -/
def Token.weight (t : Token) : Int := if t.kind = .symbol then Skeleton.depthAfter 0 t.text.toList else 0

namespace Quoted

theorem getLast?_cons_cons {q : Scan} {a c : Char} (h : q.taken.getLast? = some a) :
    (q.cons c).taken.getLast? = some a := by
  rw [Scan.cons, List.getLast?_cons, h]
  rfl

theorem getLast?_single {quote : Char} {s : List Char} (h : (single quote s).closed = true) :
    (single quote s).taken.getLast? = some quote := by
  fun_induction single quote s with
  | case1 => cases h
  | case2 c rest ih => exact getLast?_cons_cons (getLast?_cons_cons (ih h))
  | case3 rest => rfl
  | case4 rest => cases h
  | case5 c rest _ _ _ ih => exact getLast?_cons_cons (ih h)

theorem getLast?_triple {quote : Char} {s : List Char} (h : (triple quote s).closed = true) :
    (triple quote s).taken.getLast? = some quote := by
  fun_induction triple quote s with
  | case1 => cases h
  | case2 c rest ih => exact getLast?_cons_cons (getLast?_cons_cons (ih h))
  | case3 a b c rest _ hquotes =>
    simp only [Bool.and_eq_true, decide_eq_true_eq] at hquotes
    rw [hquotes.2]
    rfl
  | case4 a b c rest _ _ ih => exact getLast?_cons_cons (ih h)
  | case5 c rest _ _ ih => exact getLast?_cons_cons (ih h)

/-- A closed literal ends in the quote it opens with. -/
theorem getLast?_scan {quote : Char} {s : List Char} (h : (scan (quote :: s)).closed = true) :
    (scan (quote :: s)).taken.getLast? = some quote := by
  unfold scan at h ⊢
  split at h
  · rename_i a b c rest heq
    cases heq
    split
    · rename_i hquotes
      rw [if_pos hquotes] at h
      exact getLast?_cons_cons (getLast?_cons_cons (getLast?_cons_cons (getLast?_triple h)))
    · rename_i hquotes
      rw [if_neg hquotes] at h
      exact getLast?_cons_cons (getLast?_single h)
  · rename_i a rest _ heq
    cases heq
    exact getLast?_cons_cons (getLast?_single h)
  · rename_i heq
    cases heq

end Quoted

namespace Number

/-- A text without line feeds, hash signs and colons. -/
def Bare (u : List Char) : Prop := ∀ c ∈ u, c ≠ '\n' ∧ c ≠ '#' ∧ c ≠ ':'

theorem bare_of_forall {p : Char → Bool} {u : List Char} (h : ∀ c ∈ u, p c = true) (hfeed : p '\n' = false)
    (hhash : p '#' = false) (hcolon : p ':' = false) : Bare u := by
  intro c hc
  have hp := h c hc
  refine ⟨?_, ?_, ?_⟩ <;> rintro rfl <;> simp_all

@[simp]
theorem bare_nil : Bare [] := fun _ h => nomatch h

@[simp]
theorem bare_cons {c : Char} {u : List Char} : Bare (c :: u) ↔ (c ≠ '\n' ∧ c ≠ '#' ∧ c ≠ ':') ∧ Bare u :=
  List.forall_mem_cons

@[simp]
theorem bare_append {u v : List Char} : Bare (u ++ v) ↔ Bare u ∧ Bare v := List.forall_mem_append

theorem bare_digits {isDigit : Char → Bool} (hfeed : isDigit '\n' = false) (hhash : isDigit '#' = false)
    (hcolon : isDigit ':' = false) (s : List Char) : Bare (digits isDigit s).taken := by
  have hrun : ∀ c ∈ (digits isDigit s).taken, (isDigit c || c == '_') = true := fun c hc =>
    List.mem_takeWhile_imp (p := fun c => isDigit c || c == '_') hc
  exact bare_of_forall hrun (by simp [hfeed]) (by simp [hhash]) (by simp [hcolon])

@[simp]
theorem bare_decimalDigits (s : List Char) : Bare (digits Char.isDigit s).taken :=
  bare_digits (by decide) (by decide) (by decide) s

theorem bare_fraction (s : List Char) : Bare (fraction s).taken := by
  unfold fraction
  split
  · split <;> simp
  · simp

theorem bare_exponent (s : List Char) : Bare (exponent s).taken := by
  unfold exponent
  dsimp only
  split
  · rename_i e rest
    split
    · simp
    rename_i he
    have hmark : e = 'e' ∨ e = 'E' := by
      simpa [or_iff_not_imp_left] using he
    split
    · rename_i c more
      split
      · rename_i hc
        have hsign : c = '+' ∨ c = '-' := by simpa using hc
        rcases hmark with rfl | rfl <;> rcases hsign with rfl | rfl <;> split <;> simp
      split
      · rcases hmark with rfl | rfl <;> simp
      · simp
    · simp
  · simp

theorem bare_imaginary (s : List Char) : Bare (imaginary s).taken := by
  unfold imaginary
  split <;> simp

theorem bare_decimal (s : List Char) : Bare (decimal s).taken := by
  have hwhole : Bare (if s.head? = some '.' then ⟨[], s, true⟩ else digits Char.isDigit s : Scan).taken := by
    split <;> simp
  exact bare_append.mpr ⟨bare_append.mpr ⟨bare_append.mpr ⟨hwhole, bare_fraction _⟩, bare_exponent _⟩,
    bare_imaginary _⟩

theorem bare_based {isDigit : Char → Bool} {x : Char} (hx : x ≠ '\n' ∧ x ≠ '#' ∧ x ≠ ':')
    (hfeed : isDigit '\n' = false) (hhash : isDigit '#' = false) (hcolon : isDigit ':' = false) (s : List Char) :
    Bare (based isDigit ['0', x] s).taken := by
  have hmark : Bare ['0', x] := by simp [hx]
  exact bare_append.mpr ⟨hmark, bare_digits hfeed hhash hcolon s⟩

theorem bare_scan (s : List Char) : Bare (scan s).taken := by
  unfold scan
  split
  · rename_i x rest
    have hplain : ∀ a b : Char, (x = a || x = b) = true → (a ≠ '\n' ∧ a ≠ '#' ∧ a ≠ ':') →
        (b ≠ '\n' ∧ b ≠ '#' ∧ b ≠ ':') → x ≠ '\n' ∧ x ≠ '#' ∧ x ≠ ':' := by
      intro a b h ha hb
      simp only [Bool.or_eq_true, decide_eq_true_eq] at h
      rcases h with rfl | rfl <;> assumption
    split
    · rename_i hx
      exact bare_based (hplain _ _ hx (by decide) (by decide)) (by decide) (by decide) (by decide) rest
    split
    · rename_i hx
      exact bare_based (hplain _ _ hx (by decide) (by decide)) (by decide) (by decide) (by decide) rest
    split
    · rename_i hx
      exact bare_based (hplain _ _ hx (by decide) (by decide)) (by decide) (by decide) (by decide) rest
    · exact bare_decimal _
  · exact bare_decimal _

theorem decimal_taken_ne_nil {s : List Char} (h : Lexer.startsNumber s = true) : (decimal s).taken ≠ [] := by
  have hstart : (if s.head? = some '.' then ⟨[], s, true⟩ else digits Char.isDigit s : Scan).taken ++
      (fraction (if s.head? = some '.' then ⟨[], s, true⟩ else digits Char.isDigit s : Scan).rest).taken ≠ [] := by
    unfold Lexer.startsNumber at h
    split at h
    · rename_i c rest
      simp [fraction, h]
    · rename_i c rest _
      have hc : c ≠ '.' := by
        rintro rfl
        cases h
      simp [digits, hc, h]
    · cases h
  intro e
  exact hstart (List.append_eq_nil_iff.mp (List.append_eq_nil_iff.mp e).1).1

theorem scan_taken_ne_nil {s : List Char} (h : Lexer.startsNumber s = true) : (scan s).taken ≠ [] := by
  unfold scan
  split
  · split
    · simp [based]
    split
    · simp [based]
    split
    · simp [based]
    · exact decimal_taken_ne_nil h
  · exact decimal_taken_ne_nil h

end Number

namespace Lexer

theorem mem_symbols {s text : List Char} (h : symbol? s = some text) :
    text ∈ longSymbols ∨ ∃ c ∈ shortSymbols, text = [c] := by
  unfold symbol? at h
  split at h
  · rename_i l hl
    cases h
    exact .inl (List.mem_of_find?_eq_some hl)
  · split at h
    · rename_i c _ _ hc
      cases h
      exact .inr ⟨c, List.contains_iff_mem.mp hc, rfl⟩
    · cases h
  · cases h

/-- What holds of all symbols holds of the one at the head of a text. -/
theorem symbol_of_forall {p : List Char → Prop} (hlong : ∀ l ∈ longSymbols, p l)
    (hshort : ∀ l ∈ shortSymbols.map fun c => [c], p l) {s text : List Char} (h : symbol? s = some text) :
    p text := by
  rcases mem_symbols h with hl | ⟨c, hc, rfl⟩
  · exact hlong text hl
  · exact hshort [c] (List.mem_map_of_mem hc)

/-- A valid token: line feeds and hash signs stand in literals alone, its last line is not blank, it ends in a
colon if it is one, and the brackets open after it are those before it with its own. -/
structure Spells (x : Lexer) (t : Token) (y : Lexer) : Prop where
  flat : t.kind ≠ .quoted → '\n' ∉ t.text.toList ∧ '#' ∉ t.text.toList
  shown : Text.blank (Text.lastLine t.text.toList) = false
  colon : '#' ∉ t.text.toList → Skeleton.lastCode (Text.lastLine t.text.toList) = some ':' → t.isSymbol ":" = true
  opened : (y.opened.length : Int) = x.opened.length + t.weight

theorem Spells.text_ne_nil {x y : Lexer} {t : Token} (h : Spells x t y) : t.text.toList ≠ [] := by
  intro hnil
  have hshown := h.shown
  rw [hnil] at hshown
  cases hshown

theorem spells_bare (x : Lexer) {k : Token.Kind} (hk : k ≠ .symbol) {u : List Char} (hbare : Number.Bare u)
    (hshown : Text.blank u = false) : Spells x (x.emit k u).1 (x.emit k u).2 := by
  have htext : (x.emit k u).1.text.toList = u := String.toList_ofList
  have hfeed : '\n' ∉ u := fun h => (hbare _ h).1 rfl
  refine ⟨fun _ => ?_, ?_, fun _ h => ?_, ?_⟩
  · rw [htext]
    exact ⟨hfeed, fun h => (hbare _ h).2.1 rfl⟩
  · rw [htext, Text.lastLine_of_not_mem hfeed, hshown]
  · rw [htext, Text.lastLine_of_not_mem hfeed] at h
    exact absurd rfl (hbare _ (Skeleton.mem_of_lastCode h)).2.2
  · rw [Token.weight, if_neg (show (x.emit k u).1.kind ≠ .symbol from hk), Int.add_zero]
    rfl

theorem opened_track {x : Lexer} {s text : List Char} (h : symbol? s = some text)
    (hfits : (x.track text).2 = true) :
    ((x.track text).1.opened.length : Int) = x.opened.length + Skeleton.depthAfter 0 text := by
  rcases mem_symbols h with hlong | ⟨c, -, rfl⟩
  · have hplain : ∀ l ∈ longSymbols, l.length ≠ 1 ∧ Skeleton.depthAfter 0 l = 0 := by decide
    obtain ⟨hlength, hdepth⟩ := hplain text hlong
    have htrack : x.track text = (x, true) := by
      unfold track
      split
      · exact absurd rfl hlength
      · rfl
    rw [htrack, hdepth, Int.add_zero]
  · unfold track at hfits ⊢
    unfold Skeleton.depthAfter
    dsimp only [List.foldl] at hfits ⊢
    split at hfits
    · rename_i hopen
      rw [if_pos hopen, if_pos hopen]
      simp
    · rename_i hopen
      rw [if_neg hopen, if_neg hopen]
      split at hfits
      · rename_i hclose
        rw [if_pos hclose, if_pos hclose]
        split at hfits
        · rename_i o os ho
          simp only [ho, List.length_cons]
          omega
        · cases hfits
      · rename_i hclose
        rw [if_neg hclose, if_neg hclose]
        simp

theorem spells_symbol {x : Lexer} {s text : List Char} (h : symbol? s = some text)
    (hfits : (x.track text).2 = true) :
    Spells x ((x.track text).1.emit .symbol text).1 ((x.track text).1.emit .symbol text).2 := by
  have htext : ((x.track text).1.emit .symbol text).1.text.toList = text := String.toList_ofList
  have hflat : '\n' ∉ text ∧ '#' ∉ text :=
    symbol_of_forall (p := fun l => '\n' ∉ l ∧ '#' ∉ l) (by decide) (by decide) h
  have hshown : Text.blank text = false :=
    symbol_of_forall (p := fun l => Text.blank l = false) (by decide) (by decide) h
  have hcolon : Skeleton.lastCode text = some ':' → text = [':'] :=
    symbol_of_forall (p := fun l => Skeleton.lastCode l = some ':' → l = [':']) (by decide) (by decide) h
  refine ⟨fun _ => by rwa [htext], ?_, fun _ he => ?_, ?_⟩
  · rw [htext, Text.lastLine_of_not_mem hflat.1, hshown]
  · rw [htext, Text.lastLine_of_not_mem hflat.1] at he
    rw [hcolon he]
    rfl
  · have hkind : ((x.track text).1.emit .symbol text).1.kind = .symbol := rfl
    rw [Token.weight, if_pos hkind, htext, ← opened_track h hfits]
    rfl

theorem spells_quoted (x : Lexer) {u : List Char} {quote : Char} (hlast : u.getLast? = some quote)
    (hquote : quote = '"' ∨ quote = '\'') : Spells x (x.emit .quoted u).1 (x.emit .quoted u).2 := by
  have htext : (x.emit .quoted u).1.text.toList = u := String.toList_ofList
  have hplain : quote ≠ '\n' ∧ isBlank quote = false ∧ quote ≠ ':' := by
    rcases hquote with rfl | rfl <;> decide
  have hline := Text.getLast?_lastLine hlast hplain.1
  refine ⟨fun h => absurd rfl h, ?_, fun hhash he => ?_, ?_⟩
  · rw [htext, ← Bool.not_eq_true]
    intro hblank
    exact absurd (List.all_eq_true.mp hblank _ (List.mem_of_getLast? hline)) (by simp [hplain.2.1])
  · rw [htext] at hhash he
    rw [Skeleton.lastCode_eq_getLast? (fun h => hhash (Text.lastLine_subset u h)) hline hplain.2.1] at he
    exact absurd (Option.some.inj he) hplain.2.2
  · rw [Token.weight, if_neg (by simp [emit]), Int.add_zero]
    rfl

theorem isIdentifierStart_of_isBlank {c : Char} (h : isBlank c = true) (hwide : 128 ≤ c.toNat) :
    isIdentifierStart c = false := by
  have hblanks : ∀ n ∈ [0x85, 0xA0, 0x1680, 0x2000, 0x2001, 0x2002, 0x2003, 0x2004, 0x2005, 0x2006, 0x2007, 0x2008,
      0x2009, 0x200A, 0x2028, 0x2029, 0x202F, 0x205F, 0x3000], isIdentifierStart (Char.ofNat n) = false := by
    decide +kernel
  have hmem : c.toNat ∈ [0x85, 0xA0, 0x1680, 0x2000, 0x2001, 0x2002, 0x2003, 0x2004, 0x2005, 0x2006, 0x2007, 0x2008,
      0x2009, 0x200A, 0x2028, 0x2029, 0x202F, 0x205F, 0x3000] := by
    simp only [isBlank, Bool.or_eq_true, Bool.and_eq_true, decide_eq_true_eq, beq_iff_eq] at h
    simp only [List.mem_cons, List.not_mem_nil, or_false]
    omega
  rw [← Char.ofNat_toNat c]
  exact hblanks _ hmem

/-- No blank starts a token. -/
theorem kind_token_of_isBlank (x : Lexer) {c : Char} (rest : List Char) (h : isBlank c = true) :
    (token .strict x (c :: rest)).1.kind = .invalid := by
  by_cases hwide : 128 ≤ c.toNat
  · exact kind_token_of_wide hwide (isIdentifierStart_of_isBlank h hwide)
  · have hmem : c.toNat ∈ [0x09, 0x0A, 0x0B, 0x0C, 0x0D, 0x1C, 0x1D, 0x1E, 0x1F, 0x20] := by
      simp only [isBlank, Bool.or_eq_true, Bool.and_eq_true, decide_eq_true_eq, beq_iff_eq] at h
      simp only [List.mem_cons, List.not_mem_nil, or_false]
      omega
    rw [← Char.ofNat_toNat c]
    simp only [List.mem_cons, List.not_mem_nil, or_false] at hmem
    rcases hmem with e | e | e | e | e | e | e | e | e | e <;> rw [e] <;> rfl

theorem exists_quote_of_head {s : List Char} (h : (s.head?.map fun c => c == '"' || c == '\'').getD false = true) :
    ∃ quote rest, s = quote :: rest ∧ (quote = '"' ∨ quote = '\'') := by
  cases s with
  | nil => cases h
  | cons quote rest => exact ⟨quote, rest, rfl, by simpa using h⟩

theorem spells_token {x : Lexer} {c : Char} {rest : List Char}
    (hvalid : (token .strict x (c :: rest)).1.kind ≠ .invalid) :
    Spells x (token .strict x (c :: rest)).1 (token .strict x (c :: rest)).2.1 := by
  have hblank : isBlank c = false := by
    by_contra hblank
    exact hvalid (kind_token_of_isBlank x rest (by simpa using hblank))
  -- a text taken from the front shows its first character
  have hshown : ∀ u v, u ++ v = c :: rest → u ≠ [] → Text.blank u = false := by
    intro u v huv hu
    obtain ⟨a, u, rfl⟩ := List.exists_cons_of_ne_nil hu
    obtain ⟨rfl, -⟩ := List.cons.inj huv
    simp [Text.blank, hblank]
  have hword : (c :: rest).takeWhile isWordRest ++ (c :: rest).drop ((c :: rest).takeWhile isWordRest).length =
      c :: rest := List.prefix_iff_eq_append.mp (List.takeWhile_prefix _)
  unfold token at hvalid ⊢
  dsimp only at hvalid ⊢
  split at hvalid
  · rename_i hnumber
    rw [if_pos hnumber]
    refine spells_bare x ?_ (Number.bare_scan _)
      (hshown _ _ (Number.splits_scan _) (Number.scan_taken_ne_nil hnumber))
    split <;> simp
  rename_i hnumber
  rw [if_neg hnumber]
  split at hvalid
  · rename_i hquoted
    rw [if_pos hquoted]
    have hhead : (((c :: rest).drop ((c :: rest).takeWhile isWordRest).length).head?.map
        fun c => c == '"' || c == '\'').getD false = true := by
      simp only [Bool.or_eq_true, Bool.and_eq_true, decide_eq_true_eq] at hquoted
      rcases hquoted with hquoted | ⟨hnil, hquoted⟩
      · exact hquoted.1
      · rw [hnil]
        exact hquoted
    obtain ⟨quote, more, hafter, hquote⟩ := exists_quote_of_head hhead
    have hstrict : (Dialect.strict == Dialect.tolerant) = false := rfl
    simp only [hstrict, Bool.false_and, Bool.false_or, Bool.false_eq_true, if_false, hafter] at hvalid ⊢
    have hfine : ((Quoted.scan (quote :: more)).closed && ((Quoted.scan (quote :: more)).closed &&
        (Grammar.Literal.ofText ((c :: rest).takeWhile isWordRest ++
          (Quoted.scan (quote :: more)).taken)).check.isSome)) = true := by
      by_contra hfine
      exact hvalid (by rw [if_neg hfine]; rfl)
    rw [if_pos hfine]
    have hclosed : (Quoted.scan (quote :: more)).closed = true := (Bool.and_eq_true_iff.mp hfine).1
    refine spells_quoted x ?_ hquote
    rw [List.getLast?_append, Quoted.getLast?_scan hclosed]
    rfl
  rename_i hquoted
  rw [if_neg hquoted]
  split at hvalid
  · rename_i hstart
    rw [if_pos hstart]
    refine spells_bare x ?_ ?_ (hshown _ _ hword ?_)
    · split <;> simp
    · exact Number.bare_of_forall (fun _ hc => List.mem_takeWhile_imp hc) (by decide) (by decide) (by decide)
    · have hrest : isWordRest c = true := by
        have : isWordStart c = true := hstart
        simp [isWordRest, this]
      simp [hrest]
  rename_i hstart
  rw [if_neg hstart]
  split at hvalid
  · rename_i text htext
    have hfits : (x.track text).2 = true := by
      by_contra hfits
      exact hvalid (by rw [if_neg hfits]; rfl)
    simp only [hfits, if_true]
    exact spells_symbol htext hfits
  · exact absurd rfl hvalid

end Lexer

end Source

end OutlineIndex
