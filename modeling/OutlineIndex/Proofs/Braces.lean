import Mathlib.Computability.Language
import OutlineIndex.Pattern.Braces
import OutlineIndex.Proofs.Path

namespace OutlineIndex.Braces

/-- Whether a character stands for itself: all do but braces and, within a group, commas. -/
def isLiteral (inGroup : Bool) (c : Char) : Bool := !isBrace c && !(inGroup && c == ',')

mutual

/-- A sequence of characters and groups, which is itself within a group or not. -/
inductive Pattern : Bool → Type
  | done {inGroup : Bool} : Pattern inGroup
  | char {inGroup : Bool} (c : Char) (literal : isLiteral inGroup c = true) (rest : Pattern inGroup) :
      Pattern inGroup
  | group {inGroup : Bool} (options : Options) (rest : Pattern inGroup) : Pattern inGroup

/-- The options of a group, of which there is at least one. -/
inductive Options : Type
  | last (p : Pattern true) : Options
  | more (p : Pattern true) (rest : Options) : Options

end

mutual

/-- The text of a pattern. -/
def Pattern.render {inGroup : Bool} : Pattern inGroup → List Char
  | .done => []
  | .char c _ rest => c :: rest.render
  | .group options rest => '\x7b' :: (options.render ++ '\x7d' :: rest.render)

def Options.render : Options → List Char
  | .last p => p.render
  | .more p rest => p.render ++ ',' :: rest.render

end

mutual

/-- What a pattern denotes: a sequence all concatenations, a group the union of its options. -/
def Pattern.language {inGroup : Bool} : Pattern inGroup → Language Char
  | .done => 1
  | .char c _ rest => {[c]} * rest.language
  | .group options rest => options.language * rest.language

def Options.language : Options → Language Char
  | .last p => p.language
  | .more p rest => p.language + rest.language

end

mutual

/-- The texts that a pattern is expanded to, in order and with repetitions. -/
def Pattern.alternatives {inGroup : Bool} : Pattern inGroup → List (List Char)
  | .done => [[]]
  | .char c _ rest => rest.alternatives.map (c :: ·)
  | .group options rest => options.choices.flatten.flatMap fun a => rest.alternatives.map (a ++ ·)

/-- All ways to take one text of each option, those of the first option varying slowest. -/
def Options.choices : Options → List (List (List Char))
  | .last p => p.alternatives.map ([·])
  | .more p rest => p.alternatives.flatMap fun a => rest.choices.map (a :: ·)

end

section FirstGroup

variable {s head body tail : List Char}

/-- What a group that is found was cut out of. -/
theorem firstGroup?_eq_some (h : firstGroup? s = some (head, body, tail)) :
    s = head ++ '\x7b' :: (body ++ '\x7d' :: tail) ∧ ∀ c ∈ body, isBrace c = false := by
  induction s generalizing head with
  | nil => cases h
  | cons c rest ih =>
    rw [firstGroup?] at h
    dsimp only at h
    split at h
    · rename_i hopen
      obtain ⟨rfl, rfl, rfl⟩ : [] = head ∧ _ = body ∧ _ = tail := by simpa using h
      obtain ⟨rfl, hclose⟩ : c = '\x7b' ∧ (rest.dropWhile (!isBrace ·)).head? = some '\x7d' := by
        simpa using hopen
      constructor
      · rw [List.nil_append, List.cons_head?_tail hclose, List.takeWhile_append_dropWhile]
      · intro x hx
        simpa using List.all_eq_true.mp List.all_takeWhile x hx
    · obtain ⟨⟨head', body', tail'⟩, hrest, heq⟩ := Option.map_eq_some_iff.mp h
      obtain ⟨rfl, rfl, rfl⟩ : c :: head' = head ∧ body' = body ∧ tail' = tail := by simpa using heq
      obtain ⟨hs, hbody⟩ := ih hrest
      exact ⟨by rw [hs, List.cons_append], hbody⟩

/-- Where nothing is closed before a group opens, the next brace opens one. -/
theorem head?_dropWhile_append (h : '\x7d' ∉ head) (rest : List Char) :
    ((head ++ '\x7b' :: rest).dropWhile (!isBrace ·)).head? = some '\x7b' := by
  induction head with
  | nil => rfl
  | cons c head ih =>
    have hc : c ≠ '\x7d' := fun e => h (by simp [e])
    have hrest := ih fun hm => h (List.mem_cons_of_mem c hm)
    by_cases hopen : c = '\x7b'
    · subst hopen
      rfl
    · have hplain : isBrace c = false := by simp [isBrace, hopen, hc]
      rw [List.cons_append, List.dropWhile_cons_of_pos (by simp [hplain])]
      exact hrest

/-- The first group without braces is found behind a text that closes none. -/
theorem firstGroup?_append (hhead : '\x7d' ∉ head) (hbody : ∀ c ∈ body, isBrace c = false)
    (tail : List Char) :
    firstGroup? (head ++ '\x7b' :: (body ++ '\x7d' :: tail)) = some (head, body, tail) := by
  have hpos : ∀ c ∈ body, (!isBrace c) = true := fun c hc => by simp [hbody c hc]
  induction head with
  | nil =>
    have htake : (body ++ '\x7d' :: tail).takeWhile (!isBrace ·) = body := by
      rw [List.takeWhile_append_of_pos hpos]
      exact List.append_nil body
    have hdrop : (body ++ '\x7d' :: tail).dropWhile (!isBrace ·) = '\x7d' :: tail := by
      rw [List.dropWhile_append_of_pos hpos]
      rfl
    rw [List.nil_append, firstGroup?]
    simp only [htake, hdrop]
    rfl
  | cons c head ih =>
    have hrest := fun hm => hhead (List.mem_cons_of_mem c hm)
    have hnext := head?_dropWhile_append hrest (body ++ '\x7d' :: tail)
    rw [List.cons_append, firstGroup?]
    simp only [hnext, ih hrest]
    simp

/-- A group is found exactly if there is one without braces in it. -/
theorem firstGroup?_eq_none_iff : firstGroup? s = none ↔
    ∀ head body tail, s = head ++ '\x7b' :: (body ++ '\x7d' :: tail) → ∃ c ∈ body, isBrace c = true := by
  constructor
  · intro h head body tail hs
    by_contra hnone
    have hbody : ∀ c ∈ body, isBrace c = false := by simpa using hnone
    subst hs
    induction head with
    | nil =>
      cases (firstGroup?_append List.not_mem_nil hbody tail).symm.trans h
    | cons c head ih =>
      rw [List.cons_append, firstGroup?] at h
      dsimp only at h
      split at h
      · cases h
      · exact ih (Option.map_eq_none_iff.mp h)
  · intro h
    cases hs : firstGroup? s with
    | none => rfl
    | some group =>
      obtain ⟨head, body, tail⟩ := group
      obtain ⟨heq, hbody⟩ := firstGroup?_eq_some hs
      obtain ⟨c, hc, hbrace⟩ := h head body tail heq
      rw [hbody c hc] at hbrace
      cases hbrace

theorem firstGroup?_of_not_mem (h : '\x7b' ∉ s) : firstGroup? s = none := by
  cases hs : firstGroup? s with
  | none => rfl
  | some group =>
    obtain ⟨head, body, tail⟩ := group
    rw [(firstGroup?_eq_some hs).1] at h
    exact absurd (by simp) h

end FirstGroup

section Recursion

variable {s head body tail option : List Char}

/-- Each step uses up one opening brace. -/
theorem openings_step (h : firstGroup? s = some (head, body, tail)) (hoption : option ∈ Text.split ',' body) :
    openings s = openings (head ++ option ++ tail) + 1 := by
  obtain ⟨rfl, hbody⟩ := firstGroup?_eq_some h
  have hplain : ∀ t : List Char, (∀ c ∈ t, isBrace c = false) → t.count '\x7b' = 0 := by
    intro t ht
    refine List.count_eq_zero.mpr fun hmem => ?_
    cases ht _ hmem
  have hcount := hplain option fun c hc => hbody c (Text.mem_of_mem_split hoption hc)
  simp only [openings, List.count_append, List.count_cons, hplain body hbody, hcount]
  simp
  omega

/-- Expanding is distributing the first group without braces, and expanding what this gives. -/
theorem expand_eq (s : List Char) : expand s = match firstGroup? s with
    | none => [s]
    | some (head, body, tail) =>
      (Text.split ',' body).flatMap fun option => expand (head ++ option ++ tail) := by
  cases hs : firstGroup? s with
  | none =>
    rw [expand]
    cases openings s with
    | zero => rfl
    | succ n => rw [expandWith, hs]
  | some group =>
    obtain ⟨head, body, tail⟩ := group
    obtain ⟨n, hn⟩ : ∃ n, openings s = n + 1 := by
      obtain ⟨option, hoption⟩ := List.exists_mem_of_ne_nil _ (Text.split_ne_nil ',' body)
      exact ⟨_, openings_step hs hoption⟩
    rw [expand, hn, expandWith, hs]
    refine List.flatMap_congr fun option hoption => ?_
    have := openings_step hs hoption
    rw [expand, show openings (head ++ option ++ tail) = n by omega]

theorem expand_of_not_mem (h : '\x7b' ∉ s) : expand s = [s] := by
  rw [expand_eq, firstGroup?_of_not_mem h]

/-- No group without braces is left in what a text is expanded to. -/
theorem firstGroup?_of_mem_expand {t : List Char} (h : t ∈ expand s) : firstGroup? t = none := by
  generalize hn : openings s = n
  induction n generalizing s with
  | zero =>
    have hs : '\x7b' ∉ s := List.count_eq_zero.mp hn
    rw [expand_of_not_mem hs, List.mem_singleton] at h
    rw [h]
    exact firstGroup?_of_not_mem hs
  | succ n ih =>
    rw [expand_eq] at h
    cases hs : firstGroup? s with
    | none =>
      rw [hs] at h
      rw [List.mem_singleton.mp h]
      exact hs
    | some group =>
      obtain ⟨head, body, tail⟩ := group
      rw [hs] at h
      obtain ⟨option, hoption, hmem⟩ := List.mem_flatMap.mp h
      have := openings_step hs hoption
      exact ih hmem (by omega)

end Recursion

section Literal

theorem isLiteral_of_inGroup {c : Char} (h : isLiteral true c = true) (inGroup : Bool) :
    isLiteral inGroup c = true := by
  cases inGroup <;> simp_all [isLiteral]

theorem isBrace_of_isLiteral {inGroup : Bool} {c : Char} (h : isLiteral inGroup c = true) :
    isBrace c = false := by
  simp_all [isLiteral]

theorem comma_of_isLiteral {c : Char} (h : isLiteral true c = true) : c ≠ ',' := by
  simp_all [isLiteral]

mutual

/-- A pattern is expanded to literal text. -/
theorem Pattern.isLiteral_alternatives {inGroup : Bool} (p : Pattern inGroup) :
    ∀ w ∈ p.alternatives, ∀ c ∈ w, isLiteral inGroup c = true := by
  intro w hw
  cases p with
  | done =>
    obtain rfl : w = [] := by simpa [Pattern.alternatives] using hw
    simp
  | char x literal rest =>
    obtain ⟨v, hv, rfl⟩ := List.mem_map.mp hw
    intro c hc
    rcases List.mem_cons.mp hc with rfl | hc
    · exact literal
    · exact rest.isLiteral_alternatives v hv c hc
  | group options rest =>
    obtain ⟨a, ha, hw⟩ := List.mem_flatMap.mp hw
    obtain ⟨v, hv, rfl⟩ := List.mem_map.mp hw
    obtain ⟨ws, hws, ha⟩ := List.mem_flatten.mp ha
    intro c hc
    rcases List.mem_append.mp hc with hc | hc
    · exact isLiteral_of_inGroup (options.isLiteral_choices ws hws a ha c hc) inGroup
    · exact rest.isLiteral_alternatives v hv c hc

theorem Options.isLiteral_choices (o : Options) :
    ∀ ws ∈ o.choices, ∀ w ∈ ws, ∀ c ∈ w, isLiteral true c = true := by
  intro ws hws w hw
  cases o with
  | last p =>
    obtain ⟨a, ha, rfl⟩ := List.mem_map.mp hws
    rw [List.mem_singleton.mp hw]
    exact p.isLiteral_alternatives a ha
  | more p rest =>
    obtain ⟨a, ha, hws⟩ := List.mem_flatMap.mp hws
    obtain ⟨vs, hvs, rfl⟩ := List.mem_map.mp hws
    rcases List.mem_cons.mp hw with rfl | hw
    · exact p.isLiteral_alternatives w ha
    · exact rest.isLiteral_choices vs hvs w hw

end

end Literal

/-- Options that are already literal, each with the comma behind it. -/
def listed (ws : List (List Char)) : List Char := ws.flatMap (· ++ [','])

theorem listed_concat (ws : List (List Char)) (w : List Char) : listed (ws ++ [w]) = listed ws ++ (w ++ [',']) := by
  simp [listed]

theorem isBrace_listed {ws : List (List Char)} (h : ∀ w ∈ ws, ∀ c ∈ w, isLiteral true c = true) :
    ∀ c ∈ listed ws, isBrace c = false := by
  intro c hc
  obtain ⟨w, hw, hc⟩ := List.mem_flatMap.mp hc
  rcases List.mem_append.mp hc with hc | hc
  · exact isBrace_of_isLiteral (h w hw c hc)
  · rw [List.mem_singleton.mp hc]
    rfl

theorem split_listed {ws : List (List Char)} {w : List Char} (hws : ∀ w ∈ ws, ∀ c ∈ w, isLiteral true c = true)
    (hw : ∀ c ∈ w, isLiteral true c = true) : Text.split ',' (listed ws ++ w) = ws ++ [w] := by
  induction ws with
  | nil => exact Text.split_of_not_mem fun hm => comma_of_isLiteral (hw _ hm) rfl
  | cons v ws ih =>
    have hv : ',' ∉ v := fun hm => comma_of_isLiteral (hws v List.mem_cons_self _ hm) rfl
    have hlisted : listed (v :: ws) ++ w = v ++ ',' :: (listed ws ++ w) := by simp [listed]
    rw [hlisted, Text.split_append_sep hv, ih fun u hu => hws u (List.mem_cons_of_mem v hu),
      List.cons_append]

section Expand

variable {head : List Char}

/-- A group of literal options is replaced by each of them. -/
theorem expand_group (hhead : '\x7d' ∉ head) {ws : List (List Char)} {w : List Char}
    (hws : ∀ w ∈ ws, ∀ c ∈ w, isLiteral true c = true) (hw : ∀ c ∈ w, isLiteral true c = true)
    (tail : List Char) :
    expand (head ++ '\x7b' :: (listed ws ++ (w ++ '\x7d' :: tail))) =
      (ws ++ [w]).flatMap fun a => expand (head ++ (a ++ tail)) := by
  have hbody : ∀ c ∈ listed ws ++ w, isBrace c = false := by
    intro c hc
    rcases List.mem_append.mp hc with hc | hc
    · exact isBrace_listed hws c hc
    · exact isBrace_of_isLiteral (hw c hc)
  rw [← List.append_assoc (listed ws), expand_eq, firstGroup?_append hhead hbody]
  simp only [split_listed hws hw, List.append_assoc]

/-- Text without braces closes no group. -/
theorem close_not_mem_append {s : List Char} (hhead : '\x7d' ∉ head) (h : ∀ c ∈ s, isBrace c = false) :
    '\x7d' ∉ head ++ s := by
  intro hm
  rcases List.mem_append.mp hm with hm | hm
  · exact hhead hm
  · cases h _ hm

mutual

/-- A pattern between two texts, of which the first closes no group, is expanded as if its alternatives
stood there one after the other. -/
theorem Pattern.expand_append {inGroup : Bool} (p : Pattern inGroup) : ∀ {head : List Char}, '\x7d' ∉ head →
    ∀ tail, expand (head ++ (p.render ++ tail)) =
      p.alternatives.flatMap fun w => expand (head ++ (w ++ tail)) := by
  intro head hhead tail
  match p with
  | .done => simp [Pattern.render, Pattern.alternatives]
  | .char c literal rest =>
    have hc : '\x7d' ∉ head ++ [c] := close_not_mem_append hhead (by simp [isBrace_of_isLiteral literal])
    have hrest := rest.expand_append hc tail
    simp only [List.append_assoc, List.singleton_append] at hrest
    rw [Pattern.render, List.cons_append, hrest, Pattern.alternatives, List.flatMap_map]
    rfl
  | .group options rest =>
    have hnone : ∀ w ∈ ([] : List (List Char)), ∀ c ∈ w, isLiteral true c = true := by simp
    have hoptions := options.expand_append hhead hnone (rest.render ++ tail)
    have hchosen : ∀ ws ∈ options.choices, ∀ a ∈ ws,
        expand (head ++ (a ++ (rest.render ++ tail))) =
          (rest.alternatives.map (a ++ ·)).flatMap fun w => expand (head ++ (w ++ tail)) := by
      intro ws hws a ha
      have hclose : '\x7d' ∉ head ++ a := close_not_mem_append hhead fun c hc =>
        isBrace_of_isLiteral (options.isLiteral_choices ws hws a ha c hc)
      have hrest := rest.expand_append hclose tail
      simp only [List.append_assoc] at hrest
      rw [hrest, List.flatMap_map]
      simp only [List.append_assoc]
    have hrender : (Pattern.group options rest : Pattern inGroup).render ++ tail =
        '\x7b' :: (listed [] ++ (options.render ++ '\x7d' :: (rest.render ++ tail))) := by
      simp [Pattern.render, listed]
    rw [hrender, hoptions, Pattern.alternatives, List.flatMap_assoc, ← List.flatMap_id, List.flatMap_assoc]
    refine List.flatMap_congr fun ws hws => ?_
    rw [List.nil_append]
    exact List.flatMap_congr fun a ha => hchosen ws hws a ha

/-- The options of a group behind some that are literal. -/
theorem Options.expand_append (o : Options) : ∀ {head : List Char}, '\x7d' ∉ head → ∀ {ws : List (List Char)},
    (∀ w ∈ ws, ∀ c ∈ w, isLiteral true c = true) → ∀ tail,
    expand (head ++ '\x7b' :: (listed ws ++ (o.render ++ '\x7d' :: tail))) =
      o.choices.flatMap fun vs => (ws ++ vs).flatMap fun a => expand (head ++ (a ++ tail)) := by
  intro head hhead ws hws tail
  have hopen : '\x7d' ∉ head ++ '\x7b' :: listed ws := by
    rw [List.append_cons]
    refine close_not_mem_append ?_ (isBrace_listed hws)
    simpa using hhead
  match o with
  | .last p =>
    have hp := p.expand_append hopen ('\x7d' :: tail)
    simp only [List.append_assoc, List.cons_append] at hp
    rw [Options.render, hp, Options.choices, List.flatMap_map]
    exact List.flatMap_congr fun w hw => expand_group hhead hws (p.isLiteral_alternatives w hw) tail
  | .more p rest =>
    have hp := p.expand_append hopen (',' :: (rest.render ++ '\x7d' :: tail))
    simp only [List.append_assoc, List.cons_append] at hp
    rw [Options.render, List.append_assoc, List.cons_append, hp, Options.choices, List.flatMap_assoc]
    refine List.flatMap_congr fun w hw => ?_
    have hws' : ∀ v ∈ ws ++ [w], ∀ c ∈ v, isLiteral true c = true := by
      intro v hv
      rcases List.mem_append.mp hv with hv | hv
      · exact hws v hv
      · rw [List.mem_singleton.mp hv]
        exact p.isLiteral_alternatives w hw
    have hrest := rest.expand_append hhead hws' tail
    simp only [listed_concat, List.append_assoc, List.singleton_append] at hrest
    rw [hrest, List.flatMap_map]

end

/-- The text of a pattern is expanded to the alternatives of the pattern. -/
theorem Pattern.expand_render {inGroup : Bool} (p : Pattern inGroup) : expand p.render = p.alternatives := by
  have h := p.expand_append List.not_mem_nil []
  simp only [List.nil_append, List.append_nil] at h
  rw [h]
  have hplain : ∀ w ∈ p.alternatives, expand w = [w] := by
    intro w hw
    refine expand_of_not_mem fun hm => ?_
    cases isBrace_of_isLiteral (p.isLiteral_alternatives w hw _ hm)
  rw [List.flatMap_congr hplain, List.flatMap_singleton']

end Expand

section Language

mutual

theorem Pattern.exists_alternative {inGroup : Bool} (p : Pattern inGroup) : ∃ w, w ∈ p.alternatives := by
  match p with
  | .done => exact ⟨[], List.mem_singleton.mpr rfl⟩
  | .char c _ rest =>
    obtain ⟨w, hw⟩ := rest.exists_alternative
    exact ⟨c :: w, List.mem_map_of_mem hw⟩
  | .group options rest =>
    obtain ⟨a, ws, hws⟩ := options.exists_choice
    obtain ⟨w, hw⟩ := rest.exists_alternative
    have ha : a ∈ options.choices.flatten := List.mem_flatten.mpr ⟨_, hws, List.mem_cons_self⟩
    exact ⟨a ++ w, List.mem_flatMap.mpr ⟨a, ha, List.mem_map_of_mem hw⟩⟩

theorem Options.exists_choice (o : Options) : ∃ w ws, w :: ws ∈ o.choices := by
  match o with
  | .last p =>
    obtain ⟨w, hw⟩ := p.exists_alternative
    exact ⟨w, [], List.mem_map_of_mem hw⟩
  | .more p rest =>
    obtain ⟨w, hw⟩ := p.exists_alternative
    obtain ⟨v, vs, hvs⟩ := rest.exists_choice
    exact ⟨w, v :: vs, List.mem_flatMap.mpr ⟨w, hw, List.mem_map_of_mem hvs⟩⟩

end

mutual

/-- The alternatives of a pattern are the texts that it denotes. -/
theorem Pattern.mem_alternatives {inGroup : Bool} (p : Pattern inGroup) :
    ∀ w, w ∈ p.alternatives ↔ w ∈ p.language := by
  intro w
  match p with
  | .done => simp [Pattern.alternatives, Pattern.language]
  | .char c _ rest =>
    have hc : ∀ a, a ∈ ({[c]} : Language Char) ↔ a = [c] := fun _ => Iff.rfl
    simp only [Pattern.alternatives, Pattern.language, Language.mem_mul, List.mem_map, hc,
      rest.mem_alternatives, exists_eq_left, List.singleton_append]
  | .group options rest =>
    simp only [Pattern.alternatives, Pattern.language, Language.mem_mul, List.mem_flatMap, List.mem_flatten,
      List.mem_map, options.mem_choices, rest.mem_alternatives]

/-- What can be taken of some option is what the options denote together. -/
theorem Options.mem_choices (o : Options) : ∀ w, (∃ ws ∈ o.choices, w ∈ ws) ↔ w ∈ o.language := by
  intro w
  match o with
  | .last p =>
    rw [Options.language, ← p.mem_alternatives]
    simp [Options.choices]
  | .more p rest =>
    rw [Options.language, Language.mem_add, ← p.mem_alternatives, ← rest.mem_choices]
    constructor
    · rintro ⟨_, hws, hw⟩
      obtain ⟨a, ha, hws⟩ := List.mem_flatMap.mp hws
      obtain ⟨vs, hvs, rfl⟩ := List.mem_map.mp hws
      rcases List.mem_cons.mp hw with rfl | hw
      · exact .inl ha
      · exact .inr ⟨vs, hvs, hw⟩
    · rintro (hw | ⟨vs, hvs, hw⟩)
      · obtain ⟨v, vs, hvs⟩ := rest.exists_choice
        exact ⟨w :: v :: vs, List.mem_flatMap.mpr ⟨w, hw, List.mem_map_of_mem hvs⟩, List.mem_cons_self⟩
      · obtain ⟨a, ha⟩ := p.exists_alternative
        exact ⟨a :: vs, List.mem_flatMap.mpr ⟨a, ha, List.mem_map_of_mem hvs⟩, List.mem_cons_of_mem a hw⟩

end

end Language

section Flat

/-- No group at all. -/
def Pattern.IsText {inGroup : Bool} : Pattern inGroup → Prop
  | .done => True
  | .char _ _ rest => rest.IsText
  | .group _ _ => False

def Options.AreTexts : Options → Prop
  | .last p => p.IsText
  | .more p rest => p.IsText ∧ rest.AreTexts

/-- No group within another. -/
def Pattern.IsFlat {inGroup : Bool} : Pattern inGroup → Prop
  | .done => True
  | .char _ _ rest => rest.IsFlat
  | .group options rest => options.AreTexts ∧ rest.IsFlat

/-- The options of a group as they are written. -/
def Options.texts : Options → List (List Char)
  | .last p => [p.render]
  | .more p rest => p.render :: rest.texts

/-- The ordered product of a sequence whose groups hold only text, the first group varying slowest. -/
def Pattern.product {inGroup : Bool} : Pattern inGroup → List (List Char)
  | .done => [[]]
  | .char c _ rest => rest.product.map (c :: ·)
  | .group options rest => options.texts.flatMap fun a => rest.product.map (a ++ ·)

theorem Pattern.alternatives_of_isText {inGroup : Bool} (p : Pattern inGroup) (h : p.IsText) :
    p.alternatives = [p.render] := by
  match p, h with
  | .done, _ => rfl
  | .char c _ rest, h => simp [Pattern.alternatives, Pattern.render, rest.alternatives_of_isText h]

theorem Options.choices_of_areTexts (o : Options) (h : o.AreTexts) : o.choices = [o.texts] := by
  match o, h with
  | .last p, h => simp [Options.choices, Options.texts, p.alternatives_of_isText h]
  | .more p rest, ⟨hp, hrest⟩ =>
    simp [Options.choices, Options.texts, p.alternatives_of_isText hp, rest.choices_of_areTexts hrest]

theorem Pattern.alternatives_of_isFlat {inGroup : Bool} (p : Pattern inGroup) (h : p.IsFlat) :
    p.alternatives = p.product := by
  match p, h with
  | .done, _ => rfl
  | .char c _ rest, h => simp only [Pattern.alternatives, Pattern.product, rest.alternatives_of_isFlat h]
  | .group options rest, ⟨hoptions, hrest⟩ =>
    simp [Pattern.alternatives, Pattern.product, options.choices_of_areTexts hoptions,
      rest.alternatives_of_isFlat hrest]

end Flat

/-- Expanding the text of a pattern gives the texts that the pattern denotes, and in the order of the
product if no group is within another. For every text at all, expanding distributes its first group
without braces over the options, each step on a text with fewer opening braces, until no such group is
left. -/
theorem expand_denotes :
    (∀ p : Pattern false, (∀ w, w ∈ expand p.render ↔ w ∈ p.language) ∧
      (p.IsFlat → expand p.render = p.product)) ∧
    ∀ s : List Char,
      (expand s = match firstGroup? s with
        | none => [s]
        | some (head, body, tail) =>
          (Text.split ',' body).flatMap fun option => expand (head ++ option ++ tail)) ∧
      (∀ head body tail, firstGroup? s = some (head, body, tail) → ∀ option ∈ Text.split ',' body,
        openings (head ++ option ++ tail) < openings s) ∧
      ∀ t ∈ expand s, ∀ head body tail, t = head ++ '\x7b' :: (body ++ '\x7d' :: tail) →
        ∃ c ∈ body, isBrace c = true := by
  refine ⟨fun p => ⟨fun w => ?_, fun hflat => ?_⟩, fun s => ⟨expand_eq s, ?_, fun t ht => ?_⟩⟩
  · rw [p.expand_render]
    exact p.mem_alternatives w
  · rw [p.expand_render]
    exact p.alternatives_of_isFlat hflat
  · intro head body tail hs option hoption
    have := openings_step hs hoption
    omega
  · exact firstGroup?_eq_none_iff.mp (firstGroup?_of_mem_expand ht)

/-- A group within a group, with an empty option; and two groups in sequence. -/
theorem expand_denotes_sample :
    let nested : Pattern false := .char 'x' rfl (.group (.more (.char 'a' rfl .done) (.last
      (.group (.more (.char 'b' rfl .done) (.last .done)) (.char 'c' rfl .done)))) .done)
    let flat : Pattern false := .group (.more (.char 'a' rfl .done) (.last (.char 'b' rfl .done)))
      (.char ',' rfl (.group (.more (.char 'c' rfl .done) (.last .done)) .done))
    nested.render = "x\x7ba,\x7bb,\x7dc\x7d".toList ∧ "xc".toList ∈ nested.language ∧
      flat.render = "\x7ba,b\x7d,\x7bc,\x7d".toList ∧ flat.IsFlat ∧
      expand flat.render = ["a,c", "a,", "b,c", "b,"].map String.toList := by
  intro nested flat
  have hflat : flat.IsFlat := ⟨⟨trivial, trivial⟩, ⟨trivial, trivial⟩, trivial⟩
  refine ⟨rfl, ((expand_denotes.1 nested).1 _).mp ?_, rfl, hflat, ((expand_denotes.1 flat).2 hflat).trans rfl⟩
  decide

end OutlineIndex.Braces
