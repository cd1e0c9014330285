import OutlineIndex.Proofs.Source.Spelling

namespace OutlineIndex.Source

def Item.token? : Item → Option Token
  | .token t => some t
  | _ => none

namespace Line.Builder

/-- The tokens of the finished lines. -/
def finished (b : Builder) : List (List Token) := b.done.reverse.map Line.tokens

/-- All tokens so far. -/
def passed (b : Builder) : List Token := b.finished.flatten ++ b.tokens.reverse

theorem finished_close (b : Builder) :
    b.close.finished = b.finished ++ if b.tokens = [] then [] else [b.tokens.reverse] := by
  obtain ⟨done, margin, tokens, remark⟩ := b
  cases tokens with
  | cons t ts => simp [close, finished]
  | nil =>
    cases remark with
    | none => simp [close, finished]
    | some stop => cases done <;> simp [close, finished]

theorem tokens_close (b : Builder) : b.close.tokens = [] := by
  obtain ⟨done, margin, tokens, remark⟩ := b
  cases tokens with
  | cons t ts => rfl
  | nil =>
    cases remark with
    | none => rfl
    | some stop => cases done <;> rfl

theorem passed_close (b : Builder) : b.close.passed = b.passed := by
  rw [passed, finished_close, tokens_close, passed]
  split
  · rename_i h
    simp [h]
  · simp

theorem passed_add (b : Builder) (i : Item) : (b.add i).passed = b.passed ++ i.token?.toList := by
  cases i with
  | margin m => exact (List.append_nil _).symm
  | token t => simp [add, passed, finished, Item.token?]
  | comment stop => exact (List.append_nil _).symm
  | feed => exact (passed_close b).trans (List.append_nil _).symm

theorem passed_foldl (b : Builder) (items : List Item) :
    (items.foldl add b).passed = b.passed ++ items.filterMap Item.token? := by
  induction items generalizing b with
  | nil => simp
  | cons i items ih =>
    rw [List.foldl_cons, ih, passed_add, List.append_assoc]
    cases h : i.token? <;> simp [h]

theorem finished_prefix_add (b : Builder) (i : Item) : b.finished <+: (b.add i).finished := by
  cases i with
  | feed => exact ⟨_, (finished_close b).symm⟩
  | _ => exact List.prefix_rfl

theorem finished_prefix_foldl (b : Builder) (items : List Item) : b.finished <+: (items.foldl add b).finished := by
  induction items generalizing b with
  | nil => exact List.prefix_rfl
  | cons i items ih => exact (finished_prefix_add b i).trans (ih _)

end Line.Builder

namespace Lexer

/-- The front of a line: blanks, and backslashes that join the next line to it. -/
inductive Indent : List Char → Prop where
  | nil : Indent []
  | blank {c : Char} {u : List Char} (hc : isBlank c = true) (hfeed : c ≠ '\n') (hu : Indent u) : Indent (c :: u)
  | join {u : List Char} (hu : Indent u) : Indent ('\\' :: '\n' :: u)

theorem indent_margin (m : Margin) (kept : Option Margin) (s : List Char) : Indent (margin m kept s).2.1 := by
  fun_induction margin m kept s with
  | case1 m kept rest r taken left hrest ih =>
    rw [hrest] at ih
    exact .blank (by decide) (by decide) ih
  | case2 m kept rest r taken left hrest ih =>
    rw [hrest] at ih
    exact .blank (by decide) (by decide) ih
  | case3 m kept rest r taken left hrest ih =>
    rw [hrest] at ih
    exact .blank (by decide) (by decide) ih
  | case4 m kept rest r taken left hrest ih =>
    rw [hrest] at ih
    exact .blank (by decide) (by decide) ih
  | case5 m kept rest kept' r taken left hrest ih =>
    rw [hrest] at ih
    exact .join ih
  | case6 => exact .nil

namespace Indent

variable {u : List Char}

theorem hash_not_mem (h : Indent u) : '#' ∉ u := by
  induction h with
  | nil => simp
  | blank hc _ _ ih =>
    rw [List.mem_cons, not_or]
    refine ⟨?_, ih⟩
    rintro rfl
    exact absurd hc (by decide)
  | join _ ih => simpa using ih

theorem blank_lastLine (h : Indent u) : Text.blank (Text.lastLine u) = true := by
  induction h with
  | nil => rfl
  | @blank c u hc hfeed _ ih =>
    by_cases hmem : '\n' ∈ u
    · rwa [← List.singleton_append, Text.lastLine_append_of_mem [c] hmem]
    · have hall : '\n' ∉ c :: u := by simpa using ⟨Ne.symm hfeed, hmem⟩
      rw [Text.lastLine_of_not_mem hmem] at ih
      rw [Text.lastLine_of_not_mem hall]
      exact List.all_cons.trans (by rw [hc]; exact ih)
  | @join u _ ih =>
    have hjoin : '\\' :: '\n' :: u = ['\\', '\n'] ++ u := rfl
    by_cases hmem : '\n' ∈ u
    · rwa [hjoin, Text.lastLine_append_of_mem _ hmem]
    · rw [hjoin, Text.lastLine_append_of_not_mem _ hmem]
      rwa [Text.lastLine_of_not_mem hmem] at ih

/-- A line feed in the front of a line follows a backslash. -/
theorem getLast?_of_feed (h : Indent u) {v w : List Char} (hu : u = v ++ '\n' :: w) : v.getLast? = some '\\' := by
  induction h generalizing v with
  | nil => simp at hu
  | blank _ hfeed _ ih =>
    cases v with
    | nil => exact absurd (List.cons.inj hu).1 hfeed
    | cons a v =>
      rw [List.getLast?_cons, ih (List.cons.inj hu).2]
      rfl
  | join _ ih =>
    cases v with
    | nil => cases hu
    | cons a v =>
      obtain ⟨rfl, hrest⟩ := List.cons.inj hu
      cases v with
      | nil => rfl
      | cons b v =>
        rw [List.getLast?_cons, List.getLast?_cons, ih (List.cons.inj hrest).2]
        rfl

end Indent

/-- What a step of the strict dialect can do that refuses no token: the text it takes, the text left, the items
it gives, and where the lexer stands after it. -/
inductive Move (x : Lexer) : Bool → List Char → List Char → List Item → Lexer → Bool → Prop where
  | margin {taken left : List Char} {items : List Item} {y : Lexer} (htaken : Indent taken)
      (hitems : items = [] ∨ ∃ m, items = [.margin m]) (hmark : y.mark = x.mark.advanceAll taken)
      (hopened : y.opened = x.opened) : Move x true taken left items y false
  | feed {left : List Char} (hopened : x.opened = []) : Move x false ['\n'] left [.feed] (x.skip ['\n']) true
  | inner {left : List Char} (hopened : x.opened ≠ []) : Move x false ['\n'] left [] (x.skip ['\n']) true
  | gap {c : Char} {left : List Char} (hc : isBlank c = true) (hfeed : c ≠ '\n') :
      Move x false [c] left [] (x.skip [c]) false
  | comment {u left : List Char} {stop : Mark} (hfeed : '\n' ∉ u) (hleft : ∀ c ∈ left.head?, c = '\n') :
      Move x false ('#' :: u) left [.comment stop] (x.skip ('#' :: u)) false
  | join {left : List Char} : Move x false ['\\', '\n'] left [] (x.skip ['\\', '\n']) false
  | token {t : Token} {left : List Char} {y : Lexer} (hvalid : t.kind ≠ .invalid) (hspells : Spells x t y)
      (hfront : (t.text.toList ++ left).head? ≠ some '\n') (hstart : t.start = x.mark)
      (hmark : y.mark = x.mark.advanceAll t.text.toList) : Move x false t.text.toList left [.token t] y false

theorem Move.start_eq {x y : Lexer} {fresh fresh' : Bool} {taken left : List Char} {t : Token}
    (h : Move x fresh taken left [.token t] y fresh') : t.start = x.mark := by
  cases h with
  | margin _ hitems _ _ => rcases hitems with hitems | ⟨m, hitems⟩ <;> cases hitems
  | token _ _ _ hstart _ => exact hstart

/-- The text of a token is what the lexer takes for it. -/
structure Takes (x : Lexer) (s : List Char) (t : Token) (y : Lexer) (left : List Char) : Prop where
  append : t.text.toList ++ left = s
  mark : y.mark = x.mark.advanceAll t.text.toList

theorem takes_emit (x : Lexer) (k : Token.Kind) {s text left : List Char} (h : text ++ left = s) :
    Takes x s (x.emit k text).1 (x.emit k text).2 left := by
  have htext : (x.emit k text).1.text.toList = text := String.toList_ofList
  exact ⟨by rw [htext, h], by rw [htext]; rfl⟩

theorem takes_token (d : Dialect) (x : Lexer) (s : List Char) :
    Takes x s (token d x s).1 (token d x s).2.1 (token d x s).2.2 := by
  have hword : s.takeWhile isWordRest ++ s.drop (s.takeWhile isWordRest).length = s :=
    List.prefix_iff_eq_append.mp (List.takeWhile_prefix _)
  unfold token
  dsimp only
  split
  · exact takes_emit x _ (Number.splits_scan s)
  split
  · refine takes_emit x _ ?_
    rw [List.append_assoc]
    split
    · rw [Quoted.splits_scanNested, hword]
    · rw [Quoted.splits_scan, hword]
  split
  · exact takes_emit x _ hword
  split
  · rename_i text htext
    obtain ⟨happend, hmark⟩ := takes_emit (x.track text).1
      (if (x.track text).2 = true then .symbol else .invalid) (symbol?_append htext)
    rw [mark_track] at hmark
    exact ⟨happend, hmark⟩
  · exact takes_emit x _ (List.take_append_drop 1 s)

theorem isBlank_of_isGap {c : Char} (h : isGap .strict c = true) : isBlank c = true := by
  have hgap : c = ' ' ∨ c = '\t' ∨ c = '\x0c' := by simpa [isGap, or_assoc] using h
  rcases hgap with rfl | rfl | rfl <;> decide

theorem move_of_step {x y : Lexer} {fresh fresh' : Bool} {s left : List Char}
    (h : (step .strict x fresh s).2 = some (y, fresh', left))
    (hvalid : ∀ t, .token t ∈ (step .strict x fresh s).1 → t.kind ≠ .invalid) :
    ∃ taken, s = taken ++ left ∧ Move x fresh taken left (step .strict x fresh s).1 y fresh' := by
  cases fresh with
  | true =>
    cases h
    refine ⟨_, (margin_append ⟨0, 0, 0⟩ none s).symm, .margin (indent_margin _ _ s) ?_ ?_ ?_⟩
    · rw [step] at hvalid ⊢
      dsimp only at hvalid ⊢
      have hdangling : ¬((margin ⟨0, 0, 0⟩ none s).2.1.getLast? = some '\n' &&
          (margin ⟨0, 0, 0⟩ none s).2.2 = []) = true := by
        intro hdangling
        rw [if_pos hdangling] at hvalid
        exact hvalid _ (List.mem_append_right _ List.mem_cons_self) rfl
      rw [if_neg hdangling, List.append_nil]
      split
      · exact .inr ⟨_, rfl⟩
      · exact .inl rfl
    · split <;> rfl
    · split <;> rfl
  | false =>
    cases s with
    | nil => cases h
    | cons c rest =>
      rw [step] at h hvalid ⊢
      split at h
      · rename_i hc
        subst hc
        cases h
        refine ⟨['\n'], rfl, ?_⟩
        rw [if_pos rfl]
        dsimp only
        split
        · rename_i hopened
          exact .feed hopened
        · rename_i hopened
          exact .inner hopened
      rename_i hc
      rw [if_neg hc] at hvalid ⊢
      split at h
      · rename_i hgap
        rw [if_pos hgap]
        cases h
        exact ⟨[c], rfl, .gap (isBlank_of_isGap hgap) hc⟩
      rename_i hgap
      rw [if_neg hgap] at hvalid ⊢
      split at h
      · rename_i hcomment
        subst hcomment
        cases h
        rw [if_pos rfl]
        have hsplit : ('#' :: rest).takeWhile (· ≠ '\n') ++
            ('#' :: rest).drop (('#' :: rest).takeWhile (· ≠ '\n')).length = '#' :: rest :=
          List.prefix_iff_eq_append.mp (List.takeWhile_prefix _)
        have hleft : ('#' :: rest).drop (('#' :: rest).takeWhile (· ≠ '\n')).length =
            ('#' :: rest).dropWhile (· ≠ '\n') :=
          List.append_cancel_left (hsplit.trans List.takeWhile_append_dropWhile.symm)
        refine ⟨_, hsplit.symm, ?_⟩
        rw [hleft]
        dsimp only
        have htext : ('#' :: rest).takeWhile (· ≠ '\n') = '#' :: rest.takeWhile (· ≠ '\n') := by simp
        rw [htext]
        refine .comment (fun hmem => ?_) fun c hc => ?_
        · simpa using List.mem_takeWhile_imp hmem
        · have hhead := List.head?_dropWhile_not (fun c : Char => decide (c ≠ '\n')) ('#' :: rest)
          rw [Option.mem_def.mp hc] at hhead
          simpa using hhead
      rename_i hcomment
      rw [if_neg hcomment] at hvalid ⊢
      split at h
      · rename_i hreturn
        simp at hreturn
      rename_i hreturn
      rw [if_neg hreturn] at hvalid ⊢
      split at h
      · rename_i hjoin
        rw [if_pos hjoin] at hvalid ⊢
        simp only [Bool.and_eq_true, decide_eq_true_eq] at hjoin
        obtain ⟨more, rfl⟩ := List.head?_eq_some_iff.mp hjoin.2
        obtain rfl := hjoin.1
        cases h
        refine ⟨['\\', '\n'], rfl, ?_⟩
        dsimp only at hvalid ⊢
        have hmore : ¬('\n' :: more).tail = [] := by
          intro hmore
          rw [if_pos hmore] at hvalid
          exact hvalid _ List.mem_cons_self rfl
        rw [if_neg hmore]
        exact .join
      · rename_i hjoin
        rw [if_neg hjoin] at hvalid ⊢
        cases h
        have htakes := takes_token .strict x (c :: rest)
        have hkind := hvalid _ List.mem_cons_self
        have hfront : ((token .strict x (c :: rest)).1.text.toList ++ (token .strict x (c :: rest)).2.2).head? ≠
            some '\n' := by
          rw [htakes.append]
          exact fun e => hc (Option.some.inj e)
        have hstart := (passes_token .strict x (c :: rest)).start
        exact ⟨_, htakes.append.symm, .token hkind (spells_token hkind) hfront hstart htakes.mark⟩

end Lexer

/-- A strict reading of a text that has refused no token stands here: the text it has passed, the lines so far,
and the lexer before the text that is left. -/
inductive Reached (text : List Char) : List Char → Line.Builder → Lexer → Bool → List Char → Prop where
  | start : Reached text [] .start ⟨⟨0, 0⟩, [], []⟩ true text
  | move {passed taken left : List Char} {b : Line.Builder} {x y : Lexer} {fresh fresh' : Bool} {items : List Item}
      (h : Reached text passed b x fresh (taken ++ left)) (hmove : Lexer.Move x fresh taken left items y fresh') :
      Reached text (passed ++ taken) (items.foldl Line.Builder.add b) y fresh' left

namespace Reached

open Lexer Line.Builder

variable {text passed s : List Char} {b : Line.Builder} {x : Lexer} {fresh : Bool}

theorem append_eq (h : Reached text passed b x fresh s) : passed ++ s = text := by
  induction h with
  | start => rfl
  | move _ _ ih => rw [List.append_assoc, ih]

theorem length_tokens_step (d : Dialect) (x : Lexer) (fresh : Bool) (s : List Char) :
    ((step d x fresh s).1.filterMap Item.token?).length ≤ 1 := by
  cases fresh with
  | true =>
    rw [step]
    dsimp only
    split <;> split <;> simp [Item.token?, List.filterMap_cons]
  | false =>
    cases s with
    | nil =>
      rw [step]
      dsimp only
      split <;> simp [Item.token?]
    | cons c rest =>
      rw [step]
      split
      · dsimp only
        split <;> simp [Item.token?, List.filterMap_cons]
      split
      · simp
      split
      · simp [Item.token?, List.filterMap_cons]
      split
      · simp
      split
      · dsimp only
        split <;> simp [Item.token?]
      · simp [Item.token?]

/-- A step gives one token at most. -/
theorem tokens_step_of_mem {d : Dialect} {x : Lexer} {fresh : Bool} {s : List Char} {t : Token}
    (h : .token t ∈ (step d x fresh s).1) : (step d x fresh s).1.filterMap Item.token? = [t] := by
  have hmem : t ∈ (step d x fresh s).1.filterMap Item.token? := List.mem_filterMap.mpr ⟨_, h, rfl⟩
  have hlength := length_tokens_step d x fresh s
  generalize (step d x fresh s).1.filterMap Item.token? = ts at hmem hlength
  match ts, hmem, hlength with
  | [u], hmem, _ => rw [List.mem_singleton.mp hmem]

/-- A step that is not the last one and refuses no token is a move. -/
theorem step_move (h : Reached text passed b x fresh s) {y : Lexer} {fresh' : Bool} {left : List Char}
    (hnext : (step .strict x fresh s).2 = some (y, fresh', left))
    (hvalid : ∀ t, .token t ∈ (step .strict x fresh s).1 → t.kind ≠ .invalid) :
    ∃ taken, s = taken ++ left ∧ Move x fresh taken left (step .strict x fresh s).1 y fresh' ∧
      Reached text (passed ++ taken) ((step .strict x fresh s).1.foldl add b) y fresh' left := by
  obtain ⟨taken, hs, hmove⟩ := move_of_step hnext hvalid
  refine ⟨taken, hs, hmove, ?_⟩
  rw [hs] at h
  exact h.move hmove

theorem taken_ne_nil {taken left : List Char} {items : List Item} {y : Lexer} {fresh' : Bool}
    (h : Move x false taken left items y fresh') : taken ≠ [] := by
  cases h with
  | token _ hspells _ _ _ => exact hspells.text_ne_nil
  | _ => simp

theorem step_last {fresh : Bool} {s : List Char} (h : (step .strict x fresh s).2 = none)
    (hvalid : ∀ t, .token t ∈ (step .strict x fresh s).1 → t.kind ≠ .invalid) :
    fresh = false ∧ s = [] ∧ x.opened = [] ∧ (step .strict x fresh s).1 = [] := by
  cases fresh with
  | true => cases h
  | false =>
    cases s with
    | nil =>
      by_cases hopened : x.opened = []
      · exact ⟨rfl, rfl, hopened, by rw [step, if_pos hopened]⟩
      · rw [step, if_neg hopened] at hvalid
        exact absurd rfl (hvalid _ List.mem_cons_self)
    | cons c rest =>
      rw [step] at h
      repeat' split at h
      all_goals cases h

/-- A reading with enough fuel that refuses no token comes to the end of its text, and leaves no bracket open
there. -/
theorem exists_end (h : Reached text passed b x fresh s) {fuel : Nat} (hfuel : 2 * s.length + fresh.toNat < fuel)
    (hvalid : ∀ t ∈ ((run .strict fuel x fresh s).foldl add b).passed, t.kind ≠ .invalid) :
    ∃ y, Reached text text ((run .strict fuel x fresh s).foldl add b) y false [] ∧ y.opened = [] := by
  induction fuel generalizing passed b x fresh s with
  | zero => exact absurd hfuel (Nat.not_lt_zero _)
  | succ fuel ih =>
    rw [run_succ, List.foldl_append] at hvalid ⊢
    have hstep : ∀ t, .token t ∈ (step .strict x fresh s).1 → t.kind ≠ .invalid := by
      intro t ht
      refine hvalid t ?_
      rw [passed_foldl, passed_foldl]
      exact List.mem_append_left _ (List.mem_append_right _ (List.mem_filterMap.mpr ⟨_, ht, rfl⟩))
    cases hnext : (step .strict x fresh s).2 with
    | none =>
      obtain ⟨rfl, rfl, hopened, hitems⟩ := step_last hnext hstep
      rw [hitems]
      have happend := h.append_eq
      rw [List.append_nil] at happend
      rw [happend] at h
      exact ⟨x, h, hopened⟩
    | some z =>
      obtain ⟨y, fresh', left⟩ := z
      rw [hnext] at hvalid
      obtain ⟨taken, rfl, hmove, hreached⟩ := h.step_move hnext hstep
      refine ih hreached ?_ hvalid
      -- only at the start of a line can a step take nothing, and the next one then does
      have hshorter : fresh = false → 0 < taken.length := by
        rintro rfl
        exact List.length_pos_iff.mpr (taken_ne_nil hmove)
      have hturn : fresh = true → fresh' = false := by
        rintro rfl
        cases hmove
        rfl
      rw [List.length_append] at hfuel
      cases fresh <;> cases fresh' <;> simp_all <;> omega

theorem mem_of_append_cons_eq {l r ts us : List Token} {u t : Token} (h : l ++ u :: r = ts ++ t :: us)
    (hlength : l.length ≤ ts.length) : u ∈ ts ++ [t] := by
  rcases List.append_eq_append_iff.mp h with ⟨a, rfl, ha⟩ | ⟨a, rfl, ha⟩
  · cases a with
    | nil => simp [(List.cons.inj ha).1]
    | cons c a => simp [(List.cons.inj ha).1]
  · rw [List.length_append] at hlength
    obtain rfl : a = [] := List.eq_nil_of_length_eq_zero (by omega)
    simp [(List.cons.inj ha).1]

/-- A reading that gives a token with no refused one before it stands at some point right before that token. -/
theorem exists_token (h : Reached text passed b x fresh s) (fuel : Nat) {ts us : List Token} {t : Token}
    (htokens : ((run .strict fuel x fresh s).foldl add b).passed = ts ++ t :: us)
    (hvalid : ∀ u ∈ ts ++ [t], u.kind ≠ .invalid) (hlength : b.passed.length ≤ ts.length) :
    ∃ before c y z left, Reached text before c y false (t.text.toList ++ left) ∧
      Move y false t.text.toList left [.token t] z false ∧ c.passed = ts ∧
      c.finished <+: ((run .strict fuel x fresh s).foldl add b).finished := by
  induction fuel generalizing passed b x fresh s with
  | zero =>
    have hnone : b.passed = ts ++ t :: us := htokens
    rw [hnone, List.length_append, List.length_cons] at hlength
    omega
  | succ fuel ih =>
    rw [run_succ, List.foldl_append] at htokens ⊢
    have hall : b.passed ++ ((step .strict x fresh s).1.filterMap Item.token? ++
        ((step .strict x fresh s).2.elim [] fun z => run .strict fuel z.1 z.2.1 z.2.2).filterMap Item.token?) =
        ts ++ t :: us := by
      rw [← htokens, passed_foldl, passed_foldl, List.append_assoc]
    have hstep : ∀ u, .token u ∈ (step .strict x fresh s).1 → u.kind ≠ .invalid := by
      intro u hu
      rw [tokens_step_of_mem hu] at hall
      exact hvalid u (mem_of_append_cons_eq hall hlength)
    cases hnext : (step .strict x fresh s).2 with
    | none =>
      obtain ⟨rfl, rfl, hopened, hitems⟩ := step_last hnext hstep
      rw [hnext, hitems] at hall
      simp only [List.filterMap_nil, Option.elim_none, List.append_nil] at hall
      rw [hall, List.length_append, List.length_cons] at hlength
      omega
    | some z =>
      obtain ⟨y, fresh', left⟩ := z
      rw [hnext] at htokens
      obtain ⟨taken, rfl, hmove, hreached⟩ := h.step_move hnext hstep
      by_cases hmore : ((step .strict x fresh (taken ++ left)).1.foldl add b).passed.length ≤ ts.length
      · exact ih hreached htokens hmore
      · have hone := length_tokens_step .strict x fresh (taken ++ left)
        rw [passed_foldl, List.length_append] at hmore
        obtain ⟨u, hu⟩ : ∃ u, (step .strict x fresh (taken ++ left)).1.filterMap Item.token? = [u] :=
          List.length_eq_one_iff.mp (by omega)
        rw [hu] at hall hmore
        obtain ⟨hpassed, htail⟩ := List.append_inj hall (by simp at hmore; omega)
        obtain rfl : u = t := (List.cons.inj htail).1
        generalize (step .strict x fresh (taken ++ left)).1 = items at hmove hu ⊢
        cases hmove with
        | token hkind hspells hfront hstart hmark =>
          obtain rfl : _ = u := List.singleton_inj.mp hu
          exact ⟨passed, b, x, y, left, h, .token hkind hspells hfront hstart hmark, hpassed,
            (finished_prefix_foldl b _).trans (finished_prefix_foldl _ _)⟩
        | margin _ hitems _ _ => rcases hitems with rfl | ⟨m, rfl⟩ <;> cases hu
        | _ => cases hu

end Reached

end OutlineIndex.Source
