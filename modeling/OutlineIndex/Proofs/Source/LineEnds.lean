import OutlineIndex.Proofs.Source.Reading

namespace OutlineIndex

open Skeleton (lastCode)
open Text (lastLine)

namespace Source

/-- How many brackets are open after some tokens. -/
def depth : List Token → Int
  | [] => 0
  | t :: ts => t.weight + depth ts

theorem depth_append (ts us : List Token) : depth (ts ++ us) = depth ts + depth us := by
  induction ts with
  | nil => exact (Int.zero_add _).symm
  | cons t ts ih => rw [List.cons_append, depth, depth, ih, Int.add_assoc]

/-- Literals that hold no hash sign, and a line feed in brackets only. -/
structure Plain (ts : List Token) : Prop where
  hashes : ∀ t ∈ ts, t.kind = .quoted → '#' ∉ t.text.toList
  feeds : ∀ n < ts.length, ∀ t ∈ ts[n]?, t.kind = .quoted → '\n' ∈ t.text.toList → 0 < depth (ts.take n)

instance (ts : List Token) : Decidable (Plain ts) :=
  decidable_of_iff (_ ∧ _) ⟨fun h => Plain.mk h.1 h.2, fun h => ⟨h.hashes, h.feeds⟩⟩

theorem Plain.left {ts us : List Token} (h : Plain (ts ++ us)) : Plain ts where
  hashes t ht := h.hashes t (List.mem_append_left us ht)
  feeds n hn t ht hkind hfeed := by
    have hlonger : n < (ts ++ us).length := by
      rw [List.length_append]
      omega
    have hdepth := h.feeds n hlonger t (by rwa [List.getElem?_append_left hn]) hkind hfeed
    rwa [List.take_append_of_le_length (Nat.le_of_lt hn)] at hdepth

/-- Some line has ended in a colon. -/
def EndsInColon (ls : List (List Token)) : Prop := ∃ ts ∈ ls, ∃ t, ts.getLast? = some t ∧ t.isSymbol ":" = true

/-- What a reader of lines sees where a reading stands: the last line it has passed shows a colon at its end only
after the token of one, and so does each line that has ended, unless in brackets. -/
structure Sound (passed : List Char) (b : Line.Builder) (x : Lexer) (fresh : Bool) (left : List Char) : Prop where
  mark : x.mark = Mark.advanceAll ⟨0, 0⟩ passed
  opened : (x.opened.length : Int) = depth b.passed
  starts : ∀ t ∈ b.passed, t.start.line ≤ passed.count '\n'
  fresh : fresh = true → lastLine passed = []
  hash : '#' ∈ lastLine passed → ∀ c ∈ left.head?, c = '\n'
  last : lastCode (lastLine passed) = some ':' → ∃ t, b.tokens.head? = some t ∧ t.isSymbol ":" = true
  ends : ∀ p, p ++ ['\n'] <+: passed → lastCode (lastLine p) = some ':' →
    0 < depth (b.passed.filter (·.start.line ≤ p.count '\n')) ∨ EndsInColon b.finished

namespace Sound

open Line.Builder

variable {passed taken left left' : List Char} {b c : Line.Builder} {x y : Lexer} {fresh fresh' : Bool}

theorem line_mark (h : Sound passed b x fresh left) : x.mark.line = passed.count '\n' := by
  rw [h.mark, Mark.line_advanceAll]
  exact Nat.zero_add _

/-- A line end in a text that goes on lies in what was there, or in what is added. -/
theorem feed_prefix_append {p passed taken : List Char} (h : p ++ ['\n'] <+: passed ++ taken) :
    p ++ ['\n'] <+: passed ∨ ∃ u v, taken = u ++ '\n' :: v ∧ p = passed ++ u := by
  obtain ⟨q, hq⟩ := h
  rcases List.append_eq_append_iff.mp hq with ⟨a, hpassed, -⟩ | ⟨a, hp, htaken⟩
  · exact .inl ⟨a, hpassed.symm⟩
  · rcases List.eq_nil_or_concat a with rfl | ⟨u, d, rfl⟩
    · rw [List.append_nil] at hp
      exact .inl ⟨[], by rw [hp, List.append_nil]⟩
    · rw [List.concat_eq_append, ← List.append_assoc] at hp
      obtain ⟨hpu, hd⟩ := List.append_inj' hp rfl
      obtain rfl : '\n' = d := List.singleton_inj.mp hd
      exact .inr ⟨u, q, by rw [htaken]; simp, hpu⟩

/-- A line that has ended stays as it is while the reading goes on. -/
theorem ends_append (h : Sound passed b x fresh left) (new : List Token) (hpassed : c.passed = b.passed ++ new)
    (hnew : ∀ t ∈ new, passed.count '\n' ≤ t.start.line) (hfinished : b.finished <+: c.finished)
    (htaken : ∀ u v, taken = u ++ '\n' :: v → lastCode (lastLine (passed ++ u)) = some ':' →
      0 < depth (c.passed.filter (·.start.line ≤ (passed ++ u).count '\n')) ∨ EndsInColon c.finished)
    (p : List Char) (hp : p ++ ['\n'] <+: passed ++ taken) (hcode : lastCode (lastLine p) = some ':') :
    0 < depth (c.passed.filter (·.start.line ≤ p.count '\n')) ∨ EndsInColon c.finished := by
  rcases feed_prefix_append hp with hp | ⟨u, v, hu, rfl⟩
  · have hcount : p.count '\n' < passed.count '\n' := by
      have hle := hp.sublist.count_le '\n'
      rw [List.count_append] at hle
      exact hle
    have hnone : new.filter (·.start.line ≤ p.count '\n') = [] :=
      List.filter_eq_nil_iff.mpr fun t ht => by simpa using Nat.lt_of_lt_of_le hcount (hnew t ht)
    rw [hpassed, List.filter_append, hnone, List.append_nil]
    exact (h.ends p hp hcode).imp id fun ⟨ts, hts, hlast⟩ => ⟨ts, hfinished.subset hts, hlast⟩
  · exact htaken u v hu hcode

theorem hash_not_mem_append (hline : '#' ∉ lastLine passed) (htaken : '#' ∉ taken) :
    '#' ∉ lastLine (passed ++ taken) := by
  by_cases hfeed : '\n' ∈ taken
  · rw [Text.lastLine_append_of_mem _ hfeed]
    exact fun hmem => htaken (Text.lastLine_subset _ hmem)
  · rw [Text.lastLine_append_of_not_mem _ hfeed]
    simpa using ⟨hline, htaken⟩

/-- A line that ends in a backslash shows no colon. -/
theorem lastCode_backslash {p : List Char} (hlast : p.getLast? = some '\\') (hhash : '#' ∉ lastLine p) :
    lastCode (lastLine p) ≠ some ':' := by
  rw [Skeleton.lastCode_eq_getLast? hhash (Text.getLast?_lastLine hlast (by decide)) (by decide)]
  decide

theorem starts_append (h : Sound passed b x fresh left) (hpassed : c.passed = b.passed) :
    ∀ t ∈ c.passed, t.start.line ≤ (passed ++ taken).count '\n' := by
  intro t ht
  rw [hpassed] at ht
  rw [List.count_append]
  exact Nat.le_add_right_of_le (h.starts t ht)

theorem mark_append (h : Sound passed b x fresh left) (hmark : y.mark = x.mark.advanceAll taken) :
    y.mark = Mark.advanceAll ⟨0, 0⟩ (passed ++ taken) := by
  rw [hmark, h.mark, Mark.advanceAll, Mark.advanceAll, Mark.advanceAll, List.foldl_append]

/-- A move without a line end or a token: only the last line changes. -/
theorem within (h : Sound passed b x false left) (hfeed : '\n' ∉ taken) (hpassed : c.passed = b.passed)
    (hfinished : b.finished <+: c.finished) (htokens : c.tokens = b.tokens) (hopened : y.opened = x.opened)
    (hmark : y.mark = x.mark.advanceAll taken)
    (hhash : '#' ∈ lastLine (passed ++ taken) → ∀ c ∈ left'.head?, c = '\n')
    (hlast : lastCode (lastLine (passed ++ taken)) = some ':' → lastCode (lastLine passed) = some ':') :
    Sound (passed ++ taken) c y false left' where
  mark := h.mark_append hmark
  opened := by rw [hopened, hpassed, h.opened]
  starts := h.starts_append hpassed
  fresh := fun e => nomatch e
  hash := hhash
  last hcode := by
    rw [htokens]
    exact h.last (hlast hcode)
  ends := h.ends_append [] (by simpa using hpassed) (by simp) hfinished fun u v hu =>
    absurd (by rw [hu]; simp) hfeed

theorem margin (h : Sound passed b x true left) (htaken : Lexer.Indent taken) (hpassed : c.passed = b.passed)
    (hfinished : b.finished <+: c.finished) (hopened : y.opened = x.opened)
    (hmark : y.mark = x.mark.advanceAll taken) : Sound (passed ++ taken) c y false left' := by
  have hline : ∀ u, lastLine (passed ++ u) = lastLine u := by
    intro u
    by_cases hfeed : '\n' ∈ u
    · exact Text.lastLine_append_of_mem _ hfeed
    · rw [Text.lastLine_append_of_not_mem _ hfeed, h.fresh rfl, List.nil_append, Text.lastLine_of_not_mem hfeed]
  have hhash : '#' ∉ lastLine taken := fun hmem => htaken.hash_not_mem (Text.lastLine_subset _ hmem)
  have hblank : lastCode (lastLine taken) = none := by
    have hnil : '#' ∉ ([] : List Char) := by simp
    exact Skeleton.lastCode_append_blank hnil htaken.blank_lastLine
  refine ⟨h.mark_append hmark, by rw [hopened, hpassed, h.opened], h.starts_append hpassed, by simp, ?_, ?_,
    h.ends_append [] (by simpa using hpassed) (by simp) hfinished fun u v hu hcode => ?_⟩
  · rw [hline]
    exact fun hmem => absurd hmem hhash
  · rw [hline, hblank]
    exact fun e => nomatch e
  · have hslash := htaken.getLast?_of_feed hu
    rw [hline] at hcode
    refine absurd hcode (lastCode_backslash hslash fun hmem => htaken.hash_not_mem ?_)
    rw [hu]
    exact List.mem_append_left _ (Text.lastLine_subset _ hmem)

/-- A line feed ends the last line. -/
theorem feed (h : Sound passed b x false left) (hpassed : c.passed = b.passed) (hfinished : b.finished <+: c.finished)
    (hopened : y.opened = x.opened) (hmark : y.mark = x.mark.advanceAll ['\n'])
    (hend : lastCode (lastLine passed) = some ':' →
      0 < depth (c.passed.filter (·.start.line ≤ passed.count '\n')) ∨ EndsInColon c.finished) :
    Sound (passed ++ ['\n']) c y true left' where
  mark := h.mark_append hmark
  opened := by rw [hopened, hpassed, h.opened]
  starts := h.starts_append hpassed
  fresh _ := Text.lastLine_concat_feed passed
  hash := by simp [Text.lastLine_concat_feed]
  last := by
    rw [Text.lastLine_concat_feed]
    exact fun e => nomatch e
  ends := h.ends_append [] (by simpa using hpassed) (by simp) hfinished fun u v hu hcode => by
    obtain rfl : u = [] := by
      cases u with
      | nil => rfl
      | cons d u => simp at hu
    rw [List.append_nil] at hcode ⊢
    exact hend hcode

theorem hash_not_mem {d : Char} (h : Sound passed b x fresh (d :: left)) (hd : d ≠ '\n') : '#' ∉ lastLine passed :=
  fun hmem => hd (h.hash hmem d rfl)

/-- A backslash joins the next line. -/
theorem join (h : Sound passed b x false ('\\' :: left)) (hopened : y.opened = x.opened)
    (hmark : y.mark = x.mark.advanceAll ['\\', '\n']) : Sound (passed ++ ['\\', '\n']) b y false left' := by
  have hline : lastLine (passed ++ ['\\', '\n']) = [] := Text.lastLine_append_of_mem passed (by simp)
  refine ⟨h.mark_append hmark, by rw [hopened, h.opened], h.starts_append rfl, by simp, by simp [hline], ?_,
    h.ends_append [] (List.append_nil _).symm (by simp) List.prefix_rfl fun u v hu hcode => ?_⟩
  · rw [hline]
    exact fun e => nomatch e
  · obtain rfl : u = ['\\'] := by
      match u, hu with
      | [], hu => cases hu
      | [d], hu => rw [(List.cons.inj hu).1]
      | d :: e :: u, hu => simp at hu
    exact absurd hcode (lastCode_backslash (by simp)
      (hash_not_mem_append (h.hash_not_mem (by decide)) (by simp)))

theorem lastCode_lastLine_append (hline : '#' ∉ lastLine passed) (htaken : '#' ∉ taken)
    (hshown : Text.blank (lastLine taken) = false) :
    lastCode (lastLine (passed ++ taken)) = lastCode (lastLine taken) := by
  by_cases hfeed : '\n' ∈ taken
  · rw [Text.lastLine_append_of_mem _ hfeed]
  · rw [Text.lastLine_of_not_mem hfeed] at hshown ⊢
    rw [Text.lastLine_append_of_not_mem _ hfeed, Skeleton.lastCode_append hline htaken hshown]

theorem token {t : Token} (h : Sound passed b x false left) (hline : '#' ∉ lastLine passed)
    (hspells : Lexer.Spells x t y) (hstart : t.start = x.mark) (hmark : y.mark = x.mark.advanceAll t.text.toList)
    (hplain : Plain (b.passed ++ [t])) :
    Sound (passed ++ t.text.toList) (b.add (.token t)) y false left' := by
  have hpassed : (b.add (.token t)).passed = b.passed ++ [t] := passed_add b (.token t)
  have hhash : '#' ∉ t.text.toList := by
    by_cases hkind : t.kind = .quoted
    · exact hplain.hashes t (by simp) hkind
    · exact (hspells.flat hkind).2
  have hstartLine : t.start.line = passed.count '\n' := by rw [hstart, h.line_mark]
  have hstarts : ∀ u ∈ b.passed ++ [t], ∀ v, u.start.line ≤ (passed ++ v).count '\n' := by
    intro u hu v
    rw [List.count_append]
    refine Nat.le_add_right_of_le ?_
    rcases List.mem_append.mp hu with hu | hu
    · exact h.starts u hu
    · rw [List.mem_singleton.mp hu, hstartLine]
  refine ⟨h.mark_append hmark, ?_, fun u hu => hstarts u (hpassed ▸ hu) _, by simp,
    fun hmem => absurd hmem (hash_not_mem_append hline hhash), fun hcode => ?_,
    h.ends_append [t] hpassed (by simp [hstartLine]) List.prefix_rfl fun u v hu _ => .inl ?_⟩
  · rw [hspells.opened, h.opened, hpassed, depth_append]
    simp [depth]
  · rw [lastCode_lastLine_append hline hhash hspells.shown] at hcode
    exact ⟨t, rfl, hspells.colon hhash hcode⟩
  · have hfeed : '\n' ∈ t.text.toList := by
      rw [hu]
      simp
    have hkind : t.kind = .quoted := by
      by_contra hkind
      exact (hspells.flat hkind).1 hfeed
    have hopen : 0 < depth b.passed := by
      have hdepth := hplain.feeds b.passed.length (by simp) t (by simp) hkind hfeed
      rwa [List.take_left] at hdepth
    have hall : (b.passed ++ [t]).filter (·.start.line ≤ (passed ++ u).count '\n') = b.passed ++ [t] :=
      List.filter_eq_self.mpr fun w hw => decide_eq_true (hstarts w hw u)
    have hweight : t.weight = 0 := by simp [Token.weight, hkind]
    rw [hpassed, hall, depth_append]
    simpa [depth, hweight] using hopen

/-- A move keeps a reading sound. -/
theorem move {items : List Item} (h : Sound passed b x fresh (taken ++ left))
    (hmove : Lexer.Move x fresh taken left items y fresh') (hplain : Plain (items.foldl add b).passed) :
    Sound (passed ++ taken) (items.foldl add b) y fresh' left := by
  cases hmove with
  | margin htaken hitems hmark hopened =>
    rcases hitems with rfl | ⟨m, rfl⟩
    · exact h.margin htaken rfl List.prefix_rfl hopened hmark
    · exact h.margin htaken rfl List.prefix_rfl hopened hmark
  | feed hopened =>
    refine h.feed (passed_close b) (finished_prefix_add b .feed) rfl rfl fun hcode => .inr ?_
    -- with no bracket open the line ends here, and its last token is the colon
    obtain ⟨t, ht, hcolon⟩ := h.last hcode
    refine ⟨b.tokens.reverse, ?_, t, by rw [List.getLast?_reverse, ht], hcolon⟩
    have hne : b.tokens ≠ [] := fun e => by rw [e] at ht; cases ht
    change b.tokens.reverse ∈ b.close.finished
    rw [finished_close, if_neg hne]
    simp
  | inner hopened =>
    refine h.feed rfl List.prefix_rfl rfl rfl fun _ => .inl ?_
    have hall : b.passed.filter (·.start.line ≤ passed.count '\n') = b.passed :=
      List.filter_eq_self.mpr fun t ht => decide_eq_true (h.starts t ht)
    change 0 < depth (b.passed.filter _)
    rw [hall, ← h.opened]
    have hpos := List.length_pos_iff.mpr hopened
    omega
  | @gap d _ hblank hfeed =>
    have hhash := h.hash_not_mem hfeed
    have hone : '\n' ∉ [d] := by simpa using Ne.symm hfeed
    refine h.within hone rfl List.prefix_rfl rfl rfl rfl (fun hmem => ?_) fun hcode => ?_
    · refine absurd hmem (hash_not_mem_append hhash (Skeleton.hash_not_mem_of_blank ?_))
      simp [Text.blank, hblank]
    · rw [Text.lastLine_append_of_not_mem _ hone, Skeleton.lastCode_append_blank hhash (by simp [Text.blank, hblank])]
        at hcode
      exact hcode
  | @comment u _ _ hfeed hleft =>
    have hhash := h.hash_not_mem (by decide : '#' ≠ '\n')
    have hone : '\n' ∉ '#' :: u := by simpa using hfeed
    refine h.within hone rfl List.prefix_rfl rfl rfl rfl (fun _ => hleft) fun hcode => ?_
    rwa [Text.lastLine_append_of_not_mem _ hone, Skeleton.lastCode_append_comment hhash] at hcode
  | join => exact Sound.join h rfl rfl
  | @token t _ _ _ hspells hfront hstart hmark =>
    have hline : '#' ∉ lastLine passed := by
      intro hmem
      obtain ⟨d, rest, htext⟩ := List.exists_cons_of_ne_nil hspells.text_ne_nil
      have hhead : (t.text.toList ++ left).head? = some d := by
        rw [htext]
        rfl
      exact hfront (hhead.trans (congrArg some (h.hash hmem d hhead)))
    exact h.token hline hspells hstart hmark (passed_add b (.token t) ▸ hplain)

end Sound

/-- Every reading is sound as far as it has got, if its literals are plain. -/
theorem Reached.sound {text passed left : List Char} {b : Line.Builder} {x : Lexer} {fresh : Bool}
    (h : Reached text passed b x fresh left) (hplain : Plain b.passed) : Sound passed b x fresh left := by
  induction h with
  | start =>
    have hnone : ∀ t, t ∉ Line.Builder.start.passed := by
      simp [Line.Builder.start, Line.Builder.passed, Line.Builder.finished]
    have hlast : lastCode (lastLine []) ≠ some ':' := by decide
    exact ⟨rfl, rfl, fun t ht => absurd ht (hnone t), fun _ => rfl, by simp [lastLine],
      fun hcode => absurd hcode hlast, by simp⟩
  | move _ hmove ih =>
    rw [Line.Builder.passed_foldl] at hplain
    exact (ih hplain.left).move hmove (by rwa [Line.Builder.passed_foldl])

end Source

end OutlineIndex
