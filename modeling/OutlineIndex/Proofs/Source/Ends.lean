import OutlineIndex.Proofs.Source.Lines
import OutlineIndex.Source.Sentence

namespace OutlineIndex.Source

/-- The end of a line that ends at `m`, with those of the comments below it that come first and are
indented by `w` or more. -/
def trailing (w : Nat) : Mark → List Comment → Mark
  | m, [] => m
  | m, c :: cs => if w ≤ c.margin.eights then trailing w c.stop cs else m

theorem trailing_eq (w : Nat) (m : Mark) (cs : List Comment) :
    (match (cs.takeWhile fun c => w ≤ c.margin.eights).getLast? with
      | some c => c.stop
      | none => m) = trailing w m cs := by
  induction cs generalizing m with
  | nil => rfl
  | cons c cs ih =>
    rw [trailing, ← ih, List.takeWhile_cons]
    by_cases hc : w ≤ c.margin.eights
    · simp only [hc, decide_true, if_true, List.getLast?_cons]
      cases (cs.takeWhile fun c => w ≤ c.margin.eights).getLast? <;> rfl
    · simp [hc]

/-- The comments follow the end of the line and one another. -/
def Follow (m : Mark) (cs : List Comment) : Prop := (m :: cs.map Comment.stop).Pairwise fun x y => x.line < y.line

theorem le_trailing {m : Mark} {cs : List Comment} (h : Follow m cs) (w : Nat) : m.Le (trailing w m cs) := by
  induction cs generalizing m with
  | nil => exact Mark.Le.refl m
  | cons c cs ih =>
    obtain ⟨hm, hcs⟩ := List.pairwise_cons.mp h
    rw [trailing]
    split
    · exact .inl (Nat.lt_of_lt_of_le (hm c.stop (by simp)) (ih hcs).line_le)
    · exact Mark.Le.refl m

/-- The less the comments have to be indented, the later the end. -/
theorem trailing_le {m : Mark} {cs : List Comment} (h : Follow m cs) {v w : Nat} (hvw : v ≤ w) :
    (trailing w m cs).Le (trailing v m cs) := by
  induction cs generalizing m with
  | nil => exact Mark.Le.refl m
  | cons c cs ih =>
    by_cases hw : w ≤ c.margin.eights
    · rw [trailing, trailing, if_pos hw, if_pos (Nat.le_trans hvw hw)]
      exact ih (List.pairwise_cons.mp h).2
    · rw [trailing, if_neg hw]
      exact le_trailing h v

namespace Sentence

/-- A definition ends at one of the ends of its last line. -/
theorem stopOf_mem_ends (d : Dialect) (t : Layout) : stopOf d t ∈ t.lastLine.ends := by
  unfold stopOf
  cases d with
  | strict => exact List.mem_cons_self
  | tolerant =>
    dsimp only
    split
    · rename_i c hc
      split at hc
      · cases hc
      · exact Line.mem_ends_of_comment ((List.takeWhile_prefix _).subset (List.mem_of_getLast? hc))
    · exact t.lastLine.finish_mem_ends

/-- Where a tolerantly read definition ends: with its last line and the comments below that belong to
its block. -/
theorem stopOf_tolerant (t : Layout) : stopOf .tolerant t = match t.block.getLast? with
    | none => t.lastLine.finish
    | some final => trailing final.line.margin.eights t.lastLine.finish t.lastLine.after := by
  unfold stopOf
  dsimp only
  cases t.block.getLast? with
  | none => rfl
  | some final => exact trailing_eq _ _ _

/-- A definition ends with the last tree of its block, or later. -/
theorem stopOf_le {d : Dialect} {line : Line} {block : List Layout}
    (ho : Line.InOrder (Layout.node line block).lines) (hdeep : Layout.DeepAll d block) {t : Layout}
    (ht : t ∈ block) : (stopOf d t).Le (stopOf d (.node line block)) := by
  obtain ⟨init, final, rfl⟩ : ∃ init final, block = init ++ [final] :=
    ⟨_, _, (List.dropLast_concat_getLast (List.ne_nil_of_mem ht)).symm⟩
  have hlines : (Layout.node line (init ++ [final])).lines =
      (line :: Layout.linesAll init) ++ final.lines := by
    simp [Layout.lines, Layout.linesAll_append, Layout.linesAll]
  have hlast : (Layout.node line (init ++ [final])).lastLine = final.lastLine := by
    have h := (Layout.node line (init ++ [final])).getLast?_lines
    rw [hlines, List.getLast?_append, final.getLast?_lines] at h
    exact (Option.some.inj h).symm
  have hsound : final.lastLine.Sound :=
    ho.sound _ (by rw [hlines]; exact List.mem_append_right _ final.lastLine_mem)
  rcases List.mem_append.mp ht with ht | ht
  · -- an earlier tree ends above the tokens of the last line
    have hmem : t.lastLine ∈ line :: Layout.linesAll init :=
      List.mem_cons_of_mem _ (Layout.mem_linesAll ht t.lastLine_mem)
    have hpair := ho.pairwise
    rw [hlines] at hpair
    have hbefore := (List.pairwise_append.mp hpair).2.2 _ hmem _ final.lastLine_mem
    obtain ⟨u, hu, -⟩ := Line.start_mem hsound.nonempty
    have hstop := stopOf_mem_ends d (.node line (init ++ [final]))
    rw [hlast] at hstop
    exact .inl (Nat.lt_of_lt_of_le (hbefore _ (stopOf_mem_ends d t) u hu) (hsound.reach u hu _ hstop).line_le)
  · obtain rfl := List.mem_singleton.mp ht
    cases d with
    | strict =>
      unfold stopOf
      rw [hlast]
      exact Mark.Le.refl _
    | tolerant =>
      have hblock : (Layout.node line (init ++ [t])).block.getLast? = some t := by simp [Layout.block]
      rw [stopOf_tolerant, stopOf_tolerant (.node _ _), hblock, hlast]
      cases hfinal : t.block.getLast? with
      | none => exact le_trailing hsound.follow _
      | some g =>
        obtain ⟨l, b⟩ := t
        have hdeeper := (Layout.deepAll_iff.mp hdeep (.node l b) (by simp)).1 g (List.mem_of_getLast? hfinal)
        exact trailing_le hsound.follow (Nat.le_of_lt hdeeper)

end Sentence

end OutlineIndex.Source
