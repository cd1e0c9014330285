import OutlineIndex.Proofs.Source.Scanning
import OutlineIndex.Source.Layout

namespace OutlineIndex.Source

/-- The tokens and comments stand in order from the place `m` on and end by the line `hi`, none ending before
its start, and each feed leads to a further line. -/
def Rising (hi : Nat) : Mark → List Item → Prop
  | m, [] => m.line ≤ hi
  | m, .token t :: rest => m.Le t.start ∧ t.start.Le t.stop ∧ Rising hi t.stop rest
  | m, .comment stop :: rest => m.Le stop ∧ Rising hi stop rest
  | m, .feed :: rest => Rising hi ⟨m.line + 1, 0⟩ rest
  | m, .margin _ :: rest => Rising hi m rest

theorem Mark.Le.feed {a b : Mark} (h : a.Le b) : Mark.Le ⟨a.line + 1, 0⟩ ⟨b.line + 1, 0⟩ := by
  have hline := h.line_le
  rcases Nat.lt_or_eq_of_le hline with hlt | heq
  · exact .inl (Nat.succ_lt_succ hlt)
  · exact .inr ⟨congrArg Nat.succ heq, Nat.le_refl _⟩

theorem Rising.mono {hi : Nat} {a b : Mark} (hab : a.Le b) {items : List Item} (h : Rising hi b items) :
    Rising hi a items := by
  induction items generalizing a b with
  | nil => exact Nat.le_trans hab.line_le h
  | cons i rest ih =>
    cases i with
    | token t => exact ⟨hab.trans h.1, h.2⟩
    | feed => exact ih hab.feed h
    | margin g => exact ih hab h
    | comment s => exact ⟨hab.trans h.1, h.2⟩

namespace Lexer

theorem le_skip (x : Lexer) (text : List Char) : x.mark.Le (x.skip text).mark := x.mark.le_advanceAll text

/-- The line on which a text ends does not change as the lexer moves on in it. -/
theorem Onward.lastLine {x y : Lexer} {s left : List Char} (h : Onward x s y left) :
    y.mark.line + left.count '\n' = x.mark.line + s.count '\n' := by
  obtain ⟨taken, htaken, hmark⟩ := h
  rw [← htaken, List.count_append, hmark, Mark.line_advanceAll, Nat.add_assoc]

theorem rising_invalid {hi : Nat} {m : Mark} {p : Prop} [Decidable p] {x : Lexer} {rest : List Item}
    (hx : m.Le x.mark) (h : Rising hi x.mark rest) :
    Rising hi m ((if p then [.token (x.emit .invalid []).1] else []) ++ rest) := by
  split
  · exact ⟨hx, .refl _, h⟩
  · exact h.mono hx

/-- The items of a step rise from where the lexer stands to where it goes on. -/
theorem rising_step (d : Dialect) (x : Lexer) (fresh : Bool) (s : List Char) {hi : Nat} {rest : List Item}
    (hrest : Rising hi ((step d x fresh s).2.elim x fun z => z.1).mark rest) :
    Rising hi x.mark ((step d x fresh s).1 ++ rest) := by
  have hskip := fun text => x.le_skip text
  cases fresh with
  | true =>
    rw [step] at hrest ⊢
    dsimp only at hrest ⊢
    rw [List.append_assoc]
    by_cases hopened : x.opened = []
    · simp only [if_pos hopened] at hrest ⊢
      exact rising_invalid (hskip _) hrest
    · simp only [if_neg hopened] at hrest ⊢
      exact rising_invalid (hskip _) hrest
  | false =>
    cases s with
    | nil =>
      rw [step]
      split
      · exact hrest
      · exact ⟨.refl _, .refl _, hrest⟩
    | cons c left =>
      rw [step] at hrest ⊢
      split at hrest
      · rename_i hc
        rw [if_pos hc]
        have hfeed : (x.skip [c]).mark = ⟨x.mark.line + 1, 0⟩ := by
          rw [hc]
          rfl
        have hlater : Rising hi ⟨x.mark.line + 1, 0⟩ rest := hfeed ▸ hrest
        dsimp only
        split
        · exact hlater
        · exact hlater.mono (.inl (Nat.lt_succ_self _))
      rename_i hc
      rw [if_neg hc]
      split at hrest
      · rename_i hgap
        rw [if_pos hgap]
        exact hrest.mono (hskip _)
      rename_i hgap
      rw [if_neg hgap]
      split at hrest
      · rename_i hcomment
        rw [if_pos hcomment]
        exact ⟨hskip _, hrest⟩
      rename_i hcomment
      rw [if_neg hcomment]
      split at hrest
      · rename_i hreturn
        rw [if_pos hreturn]
        exact hrest.mono (hskip _)
      rename_i hreturn
      rw [if_neg hreturn]
      split at hrest
      · rename_i hjoin
        rw [if_pos hjoin]
        exact rising_invalid (hskip _) hrest
      · rename_i hjoin
        rw [if_neg hjoin]
        obtain ⟨hstart, hstop, taken, -, hmark⟩ := passes_token d x (c :: left)
        generalize token d x (c :: left) = r at hrest hstart hstop hmark ⊢
        refine ⟨?_, ?_, ?_⟩
        · rw [hstart]
          exact .refl _
        · rw [hstart, hstop, hmark]
          exact hskip taken
        · rw [hstop]
          exact hrest

theorem rising_run (d : Dialect) (fuel : Nat) (x : Lexer) (fresh : Bool) (s : List Char) {hi : Nat}
    (hhi : x.mark.line + s.count '\n' = hi) : Rising hi x.mark (run d fuel x fresh s) := by
  have hle : x.mark.line ≤ hi := hhi ▸ Nat.le_add_right _ _
  induction fuel generalizing x fresh s with
  | zero => exact hle
  | succ fuel ih =>
    rw [run_succ]
    refine rising_step d x fresh s ?_
    cases h : (step d x fresh s).2 with
    | none => exact hle
    | some z =>
      have hend := (onward_step h).lastLine.trans hhi
      exact ih z.1 z.2.1 z.2.2 hend (hend ▸ Nat.le_add_right _ _)

end Lexer

theorem rising_items (d : Dialect) (text : List Char) : Rising (text.count '\n') ⟨0, 0⟩ (items d text) :=
  Lexer.rising_run d _ ⟨⟨0, 0⟩, [], []⟩ true text (Nat.zero_add _)

namespace Line

/-- The places where a line may be taken to end: its last token, the comment that closes it and the
comments below it. -/
def ends (l : Line) : List Mark := l.codeStop :: (l.remark.toList ++ l.after.map Comment.stop)

/-- `l` ends, wherever it is taken to end, on an earlier line of the text than every token of `m`
starts. -/
def Before (l m : Line) : Prop := ∀ x ∈ l.ends, ∀ u ∈ m.tokens, x.line < u.start.line

/-- The end of a line without the comments below it. -/
def finish (l : Line) : Mark := l.remark.getD l.codeStop

theorem finish_mem_ends (l : Line) : l.finish ∈ l.ends := by
  unfold finish ends
  cases l.remark <;> simp

theorem mem_ends_of_comment {l : Line} {c : Comment} (hc : c ∈ l.after) : c.stop ∈ l.ends := by
  have hmem : c.stop ∈ l.after.map Comment.stop := List.mem_map_of_mem hc
  simp [ends, hmem]

/-- A line of at least one token, none of which starts behind one of its ends; each token ends before the
next one starts, and the comments below the line follow one another. -/
structure Sound (l : Line) : Prop where
  nonempty : l.tokens ≠ []
  reach : ∀ t ∈ l.tokens, ∀ x ∈ l.ends, t.start.Le x
  ascending : l.tokens.Pairwise fun t u => t.stop.Le u.start
  follow : (l.finish :: l.after.map Comment.stop).Pairwise fun x y => x.line < y.line

theorem Sound.lt_of_before {l m : Line} (hl : l.Sound) (h : l.Before m) {t u : Token}
    (ht : t ∈ l.tokens) (hu : u ∈ m.tokens) : t.start.line < u.start.line :=
  Nat.lt_of_le_of_lt (hl.reach t ht l.codeStop (by simp [ends])).line_le (h _ (by simp [ends]) u hu)

namespace Builder

/-- The current line as it would be closed now. -/
def current (b : Builder) : Line := ⟨b.margin, b.tokens.reverse, b.remark, []⟩

/-- The finished lines are in order and end above the line of `m`, a place that the current one has
reached. -/
structure Ordered (m : Mark) (b : Builder) : Prop where
  pairwise : b.done.Pairwise fun l m => Before m l
  sound : ∀ l ∈ b.done, l.Sound
  above : ∀ l ∈ b.done, ∀ x ∈ l.ends, x.line < m.line
  reached : ∀ u ∈ b.tokens, u.stop.Le m
  remarked : ∀ r ∈ b.remark, r.Le m
  apart : ∀ l ∈ b.done, ∀ x ∈ l.ends,
    (∀ u ∈ b.tokens, x.line < u.start.line) ∧ ∀ r ∈ b.remark, x.line < r.line
  sound_current : b.tokens ≠ [] → b.current.Sound

theorem ordered_start : Ordered ⟨0, 0⟩ start := by
  constructor <;> simp [start]

theorem Ordered.mono {m n : Mark} {b : Builder} (h : Ordered m b) (hmn : m.Le n) : Ordered n b :=
  ⟨h.pairwise, h.sound, fun l hl x hx => Nat.lt_of_lt_of_le (h.above l hl x hx) hmn.line_le,
    fun u hu => (h.reached u hu).trans hmn, fun r hr => (h.remarked r hr).trans hmn,
    h.apart, h.sound_current⟩

theorem codeStop_current {b : Builder} {t : Token} {ts : List Token} (h : b.tokens = t :: ts) :
    b.current.codeStop = t.stop := by
  simp [current, codeStop, h]

theorem Ordered.start_le {m : Mark} {b : Builder} (h : Ordered m b) {u : Token} (hu : u ∈ b.tokens) :
    u.start.Le m := by
  have hs := h.sound_current (List.ne_nil_of_mem hu)
  cases ht : b.tokens with
  | nil => simp [ht] at hu
  | cons t ts =>
    have hle := hs.reach u (List.mem_reverse.mpr hu) b.current.codeStop (by simp [ends])
    rw [codeStop_current ht] at hle
    exact hle.trans (h.reached t (by simp [ht]))

theorem Ordered.token {m : Mark} {b : Builder} (h : Ordered m b) {t : Token} (hm : m.Le t.start)
    (ht : t.start.Le t.stop) : Ordered t.stop (b.add (.token t)) where
  pairwise := h.pairwise
  sound := h.sound
  above l hl x hx := Nat.lt_of_lt_of_le (h.above l hl x hx) (hm.trans ht).line_le
  reached u hu := by
    rcases List.mem_cons.mp hu with rfl | hu
    · exact .refl _
    · exact (h.reached u hu).trans (hm.trans ht)
  remarked := by simp [add]
  apart l hl x hx := by
    refine ⟨?_, by simp [add]⟩
    intro v hv
    rcases List.mem_cons.mp hv with rfl | hv
    · exact Nat.lt_of_lt_of_le (h.above l hl x hx) hm.line_le
    · exact (h.apart l hl x hx).1 v hv
  sound_current _ := by
    refine ⟨by simp [current, add], ?_, ?_, by simp [current]⟩
    · intro u hu x hx
      obtain rfl : x = t.stop := by simpa [ends, current, add, codeStop] using hx
      have hmem : u ∈ t :: b.tokens := List.mem_reverse.mp hu
      rcases List.mem_cons.mp hmem with rfl | hmem
      · exact ht
      · exact (h.start_le hmem).trans (hm.trans ht)
    · -- every token so far ends by `m`, and the new one starts there or later
      have hold : b.tokens.reverse.Pairwise fun t u => t.stop.Le u.start := by
        by_cases hne : b.tokens = []
        · simp [hne]
        · exact (h.sound_current hne).ascending
      change (t :: b.tokens).reverse.Pairwise _
      rw [List.reverse_cons]
      refine List.pairwise_append.mpr ⟨hold, by simp, fun u hu v hv => ?_⟩
      obtain rfl := List.mem_singleton.mp hv
      exact (h.reached u (List.mem_reverse.mp hu)).trans hm

theorem Ordered.comment {m : Mark} {b : Builder} (h : Ordered m b) {stop : Mark} (hm : m.Le stop) :
    Ordered stop (b.add (.comment stop)) where
  pairwise := h.pairwise
  sound := h.sound
  above l hl x hx := Nat.lt_of_lt_of_le (h.above l hl x hx) hm.line_le
  reached u hu := (h.reached u hu).trans hm
  remarked := by
    intro r hr
    obtain rfl : stop = r := by simpa [add] using hr
    exact .refl _
  apart l hl x hx := by
    refine ⟨(h.apart l hl x hx).1, ?_⟩
    intro r hr
    obtain rfl : stop = r := by simpa [add] using hr
    exact Nat.lt_of_lt_of_le (h.above l hl x hx) hm.line_le
  sound_current hne := by
    refine ⟨by simpa [current, add] using hne, ?_, (h.sound_current hne).ascending, by simp [current]⟩
    intro u hu x hx
    have hmem : u ∈ b.tokens := List.mem_reverse.mp hu
    have hcases : x = b.current.codeStop ∨ x = stop := by simpa [ends, current, add, codeStop] using hx
    rcases hcases with rfl | rfl
    · exact (h.sound_current hne).reach u hu _ (by simp [ends])
    · exact (h.start_le hmem).trans hm

/-- The comment goes to the last finished line, whose tokens stay. -/
theorem Ordered.attach {m : Mark} {l : Line} {ls : List Line} {g : Margin} {stop : Mark}
    (h : Ordered m ⟨l :: ls, g, [], some stop⟩) :
    Ordered ⟨m.line + 1, 0⟩ ⟨{ l with after := l.after ++ [⟨g, stop⟩] } :: ls, ⟨0, 0, 0⟩, [], none⟩ := by
  have hends : ∀ x, x ∈ ends { l with after := l.after ++ [⟨g, stop⟩] } ↔ x ∈ l.ends ∨ x = stop := by
    intro x
    simp [ends, codeStop, or_assoc]
  have hstop : ∀ x ∈ l.ends, x.line < stop.line :=
    fun x hx => (h.apart l (by simp) x hx).2 stop rfl
  obtain ⟨hl, hls⟩ := List.pairwise_cons.mp h.pairwise
  refine ⟨List.pairwise_cons.mpr ⟨hl, hls⟩, ?_, ?_, by simp, by simp, by simp, by simp⟩
  · intro m hm
    rcases List.mem_cons.mp hm with rfl | hm
    · have hs := h.sound l (by simp)
      refine ⟨hs.nonempty, ?_, hs.ascending, ?_⟩
      · intro t ht x hx
        rcases (hends x).mp hx with hx | rfl
        · exact hs.reach t ht x hx
        · have hcode : l.codeStop ∈ l.ends := by simp [ends]
          exact (hs.reach t ht _ hcode).trans (.inl (hstop _ hcode))
      · have hlast : (l.finish :: l.after.map Comment.stop ++ [stop]).Pairwise fun x y => x.line < y.line := by
          refine List.pairwise_append.mpr ⟨hs.follow, by simp, ?_⟩
          intro x hx y hy
          obtain rfl := List.mem_singleton.mp hy
          rcases List.mem_cons.mp hx with rfl | hx
          · exact hstop _ l.finish_mem_ends
          · obtain ⟨c, hc, rfl⟩ := List.mem_map.mp hx
            exact hstop _ (mem_ends_of_comment hc)
        rw [List.map_append]
        exact hlast
    · exact h.sound m (by simp [hm])
  · intro m hm x hx
    rcases List.mem_cons.mp hm with rfl | hm
    · rcases (hends x).mp hx with hx | rfl
      · exact Nat.lt_succ_of_lt (h.above l (by simp) x hx)
      · exact Nat.lt_succ_of_le (h.remarked x rfl).line_le
    · exact Nat.lt_succ_of_lt (h.above m (by simp [hm]) x hx)

theorem Ordered.close {m : Mark} {b : Builder} (h : Ordered m b) : Ordered ⟨m.line + 1, 0⟩ b.close := by
  obtain ⟨done, margin, tokens, remark⟩ := b
  have hbelow : ∀ l ∈ done, ∀ x ∈ l.ends, x.line < m.line + 1 :=
    fun l hl x hx => Nat.lt_succ_of_lt (h.above l hl x hx)
  have hkept : Ordered ⟨m.line + 1, 0⟩ ⟨done, ⟨0, 0, 0⟩, [], none⟩ :=
    ⟨h.pairwise, h.sound, hbelow, by simp, by simp, by simp, by simp⟩
  cases tokens with
  | cons t ts =>
    have hsound := h.sound_current (by simp)
    refine ⟨List.pairwise_cons.mpr ⟨?_, h.pairwise⟩, ?_, ?_, by simp [Builder.close],
      by simp [Builder.close], by simp [Builder.close], by simp [Builder.close]⟩
    · intro l hl x hx u hu
      exact (h.apart l hl x hx).1 u (List.mem_reverse.mp hu)
    · intro l hl
      rcases List.mem_cons.mp hl with rfl | hl
      · exact hsound
      · exact h.sound l hl
    · intro l hl x hx
      rcases List.mem_cons.mp hl with rfl | hl
      · have hcases : x = t.stop ∨ x ∈ remark := by simpa [ends, codeStop] using hx
        rcases hcases with rfl | hx
        · exact Nat.lt_succ_of_le (h.reached t (by simp)).line_le
        · exact Nat.lt_succ_of_le (h.remarked x hx).line_le
      · exact hbelow l hl x hx
  | nil =>
    cases remark with
    | none => exact hkept
    | some stop =>
      cases done with
      | nil => exact hkept
      | cons l ls => exact h.attach

/-- Once all items are added, the finished lines end by the line `hi`. -/
theorem ordered_foldl {m : Mark} {hi : Nat} {b : Builder} (h : Ordered m b) {items : List Item}
    (hr : Rising hi m items) : ∃ n : Mark, n.line ≤ hi ∧ Ordered n (items.foldl add b) := by
  induction items generalizing m b with
  | nil => exact ⟨m, hr, h⟩
  | cons i rest ih =>
    cases i with
    | token t => exact ih (h.token hr.1 hr.2.1) hr.2.2
    | feed => exact ih h.close hr
    | margin g =>
      have hsound : b.tokens ≠ [] → (b.add (.margin g)).current.Sound :=
        fun hne => ⟨(h.sound_current hne).1, (h.sound_current hne).2, (h.sound_current hne).3,
          (h.sound_current hne).4⟩
      exact ih (b := b.add (.margin g)) ⟨h.1, h.2, h.3, h.4, h.5, h.6, hsound⟩ hr
    | comment s => exact ih (h.comment hr.1) hr.2

end Builder

/-- The lines of a text in order, none of them empty. -/
structure InOrder (lines : List Line) : Prop where
  pairwise : lines.Pairwise Before
  sound : ∀ l ∈ lines, l.Sound

/-- All tokens of some lines start on the line `n` or below, and the lines end above the line `m`. -/
def Between (n m : Nat) (lines : List Line) : Prop :=
  ∀ l ∈ lines, (∀ t ∈ l.tokens, n ≤ t.start.line) ∧ ∀ x ∈ l.ends, x.line < m

theorem inOrder_ofItems {hi : Nat} {items : List Item} (h : Rising hi ⟨0, 0⟩ items) :
    InOrder (ofItems items) ∧ Between 0 (hi + 1) (ofItems items) := by
  obtain ⟨n, hn, hordered⟩ := Builder.ordered_foldl Builder.ordered_start h
  have hclose := hordered.close
  refine ⟨⟨List.pairwise_reverse.mpr hclose.pairwise, ?_⟩, ?_⟩
  · intro l hl
    exact hclose.sound l (List.mem_reverse.mp hl)
  · intro l hl
    refine ⟨fun _ _ => Nat.zero_le _, fun x hx => ?_⟩
    exact Nat.lt_of_lt_of_le (hclose.above l (List.mem_reverse.mp hl) x hx) (Nat.succ_le_succ hn)

/-- The first line from `n` on that lies below some places. -/
theorem exists_least_below (n : Nat) (xs : List Mark) : ∃ k, n ≤ k ∧ (∀ x ∈ xs, x.line < k) ∧
    ∀ v, n ≤ v → (∀ x ∈ xs, x.line < v) → k ≤ v := by
  induction xs with
  | nil => exact ⟨n, Nat.le_refl _, by simp, fun v hv _ => hv⟩
  | cons x xs ih =>
    obtain ⟨k, hnk, hbelow, hleast⟩ := ih
    refine ⟨max k (x.line + 1), by omega, ?_, ?_⟩
    · intro y hy
      rcases List.mem_cons.mp hy with rfl | hy
      · omega
      · exact Nat.lt_of_lt_of_le (hbelow y hy) (Nat.le_max_left _ _)
    · intro v hnv hv
      have hk := hleast v hnv fun y hy => hv y (List.mem_cons_of_mem _ hy)
      have hx := hv x List.mem_cons_self
      omega

/-- Between lines that come before others and those others there is a line to part them. -/
theorem exists_between {n m : Nat} (hnm : n ≤ m) {above below : List Line}
    (hb : Between n m (above ++ below)) (hbefore : ∀ l ∈ above, ∀ l' ∈ below, l.Before l') :
    ∃ k, n ≤ k ∧ k ≤ m ∧ Between n k above ∧ Between k m below := by
  obtain ⟨k, hnk, hbelow, hleast⟩ := exists_least_below n (above.flatMap ends)
  have hleast : ∀ v, n ≤ v → (∀ l ∈ above, ∀ x ∈ l.ends, x.line < v) → k ≤ v := by
    intro v hnv hv
    refine hleast v hnv fun x hx => ?_
    obtain ⟨l, hl, hx⟩ := List.mem_flatMap.mp hx
    exact hv l hl x hx
  refine ⟨k, hnk, ?_, ?_, ?_⟩
  · exact hleast m hnm fun l hl => (hb l (List.mem_append_left _ hl)).2
  · intro l hl
    exact ⟨(hb l (List.mem_append_left _ hl)).1, fun x hx => hbelow x (List.mem_flatMap.mpr ⟨l, hl, hx⟩)⟩
  · intro l hl
    obtain ⟨htokens, hends⟩ := hb l (List.mem_append_right _ hl)
    exact ⟨fun u hu => hleast _ (htokens u hu) fun l' hl' x hx => hbefore l' hl' l hl x hx u hu, hends⟩

theorem start_mem {l : Line} (h : l.tokens ≠ []) : ∃ t ∈ l.tokens, l.start = t.start := by
  cases ht : l.tokens with
  | nil => exact absurd ht h
  | cons t ts => exact ⟨t, by simp, by simp [start, ht]⟩

end Line

namespace Layout

mutual

/-- The lines of a tree from top to bottom. -/
def lines : Layout → List Line
  | .node l b => l :: linesAll b

def linesAll : List Layout → List Line
  | [] => []
  | t :: ts => lines t ++ linesAll ts

end

theorem linesAll_append (a b : List Layout) : linesAll (a ++ b) = linesAll a ++ linesAll b := by
  induction a with
  | nil => rfl
  | cons t a ih => simp [linesAll, ih]

theorem mem_linesAll {ts : List Layout} {t : Layout} (ht : t ∈ ts) {l : Line} (hl : l ∈ t.lines) :
    l ∈ linesAll ts := by
  obtain ⟨a, b, rfl⟩ := List.append_of_mem ht
  rw [linesAll_append, linesAll]
  exact List.mem_append_right _ (List.mem_append_left _ hl)

/-- A forest has the lines that it was made of. -/
theorem linesAll_ofLines (d : Dialect) (ls : List Line) : linesAll (ofLines d ls) = ls := by
  induction ls with
  | nil => rfl
  | cons l ls ih =>
    have hforest : ∀ p : Layout → Bool, linesAll ((ofLines d ls).takeWhile p) ++
        linesAll ((ofLines d ls).dropWhile p) = ls := by
      intro p
      rw [← linesAll_append, List.takeWhile_append_dropWhile, ih]
    change l :: linesAll ((ofLines d ls).takeWhile _) ++ linesAll ((ofLines d ls).dropWhile _) = _
    rw [List.cons_append, hforest]

mutual

theorem getLast?_lines (t : Layout) : t.lines.getLast? = some t.lastLine := by
  match t with
  | .node l b => exact getLast?_linesAll l b

theorem getLast?_linesAll (l : Line) (ts : List Layout) :
    (l :: linesAll ts).getLast? = some (lastLineOf l ts) := by
  match ts with
  | [] => rfl
  | t :: ts =>
    have htree := getLast?_lines t
    have hrest := getLast?_linesAll t.lastLine ts
    rw [List.getLast?_cons] at hrest
    rw [linesAll, ← List.cons_append, List.getLast?_append, List.getLast?_cons, htree, lastLineOf,
      ← hrest]
    cases (linesAll ts).getLast? <;> rfl

end

theorem lastLine_mem (t : Layout) : t.lastLine ∈ t.lines := List.mem_of_getLast? t.getLast?_lines

mutual

/-- Every line of a block is deeper than the line above the block. -/
def Deep (d : Dialect) : Layout → Prop
  | .node l b => (∀ t ∈ b, width d l.margin < width d t.line.margin) ∧ DeepAll d b

def DeepAll (d : Dialect) : List Layout → Prop
  | [] => True
  | t :: ts => Deep d t ∧ DeepAll d ts

end

theorem deepAll_iff {d : Dialect} {ts : List Layout} : DeepAll d ts ↔ ∀ t ∈ ts, Deep d t := by
  induction ts with
  | nil => simp [DeepAll]
  | cons t ts ih => simp [DeepAll, ih]

theorem deepAll_ofLines (d : Dialect) (ls : List Line) : DeepAll d (ofLines d ls) := by
  induction ls with
  | nil => trivial
  | cons l ls ih =>
    have hforest := deepAll_iff.mp ih
    refine ⟨⟨?_, deepAll_iff.mpr fun t ht => ?_⟩, deepAll_iff.mpr fun t ht => ?_⟩
    · intro t ht
      simpa using List.all_eq_true.mp List.all_takeWhile t ht
    · exact hforest t ((List.takeWhile_prefix _).subset ht)
    · exact hforest t ((List.dropWhile_suffix _).subset ht)

/-- The text that a dialect splits into items. -/
def readText (d : Dialect) (text : List Char) : List Char :=
  match d with
  | .strict => Text.foldReturns text
  | .tolerant => text

/-- A text without carriage returns is read as it is. -/
theorem readText_eq_self (d : Dialect) {text : List Char} (h : '\r' ∉ text) : readText d text = text := by
  cases d with
  | tolerant => rfl
  | strict =>
    change Text.foldReturns text = text
    fun_induction Text.foldReturns text with
    | case1 => rfl
    | case2 rest ih => exact absurd List.mem_cons_self h
    | case3 c rest _ ih =>
      rw [List.mem_cons, not_or] at h
      rw [if_neg (Ne.symm h.1), ih h.2]

theorem linesAll_ofText (d : Dialect) (text : List Char) :
    linesAll (ofText d text) = Line.ofItems (items d (readText d text)) := linesAll_ofLines d _

/-- The lines of a text are in order, and they end where the text ends or above. -/
theorem inOrder_ofText (d : Dialect) (text : List Char) : Line.InOrder (linesAll (ofText d text)) ∧
    Line.Between 0 ((readText d text).count '\n' + 1) (linesAll (ofText d text)) := by
  rw [linesAll_ofText]
  exact Line.inOrder_ofItems (rising_items d _)

end Layout

end OutlineIndex.Source
