import OutlineIndex.NodeId
import OutlineIndex.Proofs.Uri

namespace OutlineIndex

namespace Decimal

theorem toList_repr_nat (n : Nat) : (Nat.repr n).toList = Nat.toDigits 10 n := by
  simp [Nat.repr]

theorem not_isDigit_not_mem {c : Char} (h : c.isDigit = false) (n : Nat) :
    c ∉ (Nat.repr n).toList := by
  intro hc
  rw [toList_repr_nat] at hc
  have := Nat.isDigit_of_mem_toDigits (by decide) (by decide) hc
  rw [h] at this
  cases this

theorem repr_nat_inj {m n : Nat} (h : Nat.repr m = Nat.repr n) : m = n := by
  have := congrArg (fun s => Nat.ofDigitChars 10 s.toList 0) h
  simpa [toList_repr_nat] using this

theorem not_mem_toString_int {c : Char} (h : c.isDigit = false) (hsign : c ≠ '-') (n : Int) :
    c ∉ (toString n).toList := by
  rw [Int.toString_eq_repr, Int.repr_eq_if]
  split
  · exact not_isDigit_not_mem h _
  · rw [String.toList_append, List.mem_append, not_or]
    refine ⟨?_, not_isDigit_not_mem h _⟩
    rw [show "-".toList = ['-'] from rfl, List.mem_singleton]
    exact hsign

theorem toString_int_inj {m n : Int} (h : toString m = toString n) : m = n := by
  have hminus : ∀ (a b : Nat), "-" ++ Nat.repr a ≠ Nat.repr b := by
    intro a b e
    have : '-' ∈ (Nat.repr b).toList := by
      rw [← e]
      simp
    exact not_isDigit_not_mem (by decide) b this
  rw [Int.toString_eq_repr, Int.toString_eq_repr, Int.repr_eq_if, Int.repr_eq_if] at h
  split at h <;> split at h
  · have := repr_nat_inj h
    omega
  · exact absurd h.symm (hminus _ _)
  · exact absurd h (hminus _ _)
  · have := repr_nat_inj (String.append_right_inj _ |>.mp h)
    omega

end Decimal

namespace NodeId

theorem splitChars_of_not_mem {s : List Char} (h : '#' ∉ s) : splitChars s = (s, []) := by
  have hall : s.reverse.takeWhile (· ≠ '#') = s.reverse := by
    refine List.takeWhile_eq_self_iff.mpr fun c hc => ?_
    have hc : c ∈ s := List.mem_reverse.mp hc
    have hne : c ≠ '#' := fun e => h (e ▸ hc)
    simp [hne]
  simp only [splitChars, hall, List.reverse_reverse, decide_true, Bool.true_or, if_true]

theorem splitChars_append {s f : List Char} (hs : s ≠ []) (hf : '#' ∉ f) :
    splitChars (s ++ '#' :: f) = (s, f) := by
  have htake : (s ++ '#' :: f).reverse.takeWhile (· ≠ '#') = f.reverse := by
    have hpos : ∀ c ∈ f.reverse, decide (c ≠ '#') = true := by
      intro c hc
      have hne : c ≠ '#' := fun e => hf (e ▸ List.mem_reverse.mp hc)
      simp [hne]
    rw [List.reverse_append, List.reverse_cons, List.append_assoc, List.takeWhile_append_of_pos hpos]
    simp
  have hlen : (s ++ '#' :: f).length - f.length - 1 = s.length := by
    simp only [List.length_append, List.length_cons]
    omega
  have hne : f.length ≠ (s ++ '#' :: f).length := by
    simp only [List.length_append, List.length_cons]
    omega
  simp only [splitChars, htake, List.reverse_reverse, hlen, List.take_left]
  rw [if_neg (by simpa [hs] using hne)]

/-- An identifier falls into the URI and the fragment that it was made of. -/
theorem split_withFragment {u f : String} (hu : '#' ∉ u.toList) (hne : u ≠ "") (hf : '#' ∉ f.toList) :
    split (withFragment u f) = (u, f) := by
  have hu' : u.toList ≠ [] := by simpa using hne
  by_cases h : f = ""
  · subst h
    simp [split, withFragment, splitChars_of_not_mem hu]
  · have hchars : (u ++ "#" ++ f).toList = u.toList ++ '#' :: f.toList := by simp
    simp [split, withFragment, h, hchars, splitChars_append hu' hf]

/-- The part of an identifier that says where its node starts. -/
def fragment (r : Span) : String := toString r.start.line ++ ":" ++ toString r.start.character

theorem fragment_ne_empty (r : Span) : fragment r ≠ "" := by
  intro h
  have := congrArg String.toList h
  simp [fragment] at this

theorem make_eq (u : String) (r : Span) : make u r = withFragment u (fragment r) := by
  rw [withFragment, if_neg (fragment_ne_empty r), fragment, ← String.append_assoc,
    ← String.append_assoc]
  rfl

theorem not_mem_fragment (r : Span) : '#' ∉ (fragment r).toList := by
  have h := fun n : Int => Decimal.not_mem_toString_int (c := '#') (by decide) (by decide) n
  simp only [fragment, String.toList_append, List.mem_append, not_or]
  exact ⟨⟨h _, by decide⟩, h _⟩

theorem append_colon_inj {a b c d : List Char} (ha : ':' ∉ a) (hc : ':' ∉ c)
    (h : a ++ ':' :: b = c ++ ':' :: d) : a = c ∧ b = d := by
  have hsplit := congrArg (fun s => (Text.split ':' s).head?) h
  simp only [Text.split_append_sep ha, Text.split_append_sep hc, List.head?_cons] at hsplit
  obtain rfl := Option.some.inj hsplit
  simpa using h

theorem fragment_inj {r s : Span} (h : fragment r = fragment s) : r.start = s.start := by
  have hcolon := fun n : Int => Decimal.not_mem_toString_int (c := ':') (by decide) (by decide) n
  have hchars : (toString r.start.line).toList ++ ':' :: (toString r.start.character).toList =
      (toString s.start.line).toList ++ ':' :: (toString s.start.character).toList := by
    simpa [fragment] using congrArg String.toList h
  obtain ⟨hl, hc⟩ := append_colon_inj (hcolon _) (hcolon _) hchars
  have hline := Decimal.toString_int_inj (String.toList_inj.mp hl)
  have hchar := Decimal.toString_int_inj (String.toList_inj.mp hc)
  cases hr : r.start
  cases hs : s.start
  simp_all

theorem hash_not_mem_ofResolved (q : Path) : '#' ∉ (Uri.ofResolved q).toList := by
  rw [Uri.ofResolved, String.toList_ofList, List.mem_append, not_or]
  refine ⟨by decide, fun h => ?_⟩
  exact (Percent.isCoded_of_mem_encode h).ne (by decide) rfl

theorem ofResolved_ne_empty (q : Path) : Uri.ofResolved q ≠ "" := by
  intro h
  have := congrArg String.toList h
  simp [Uri.ofResolved, Uri.schemeMark] at this

/-- A text that does not end with `#` has something after its last one, or is not split. -/
theorem split_eq_or {id : String} (h : id.toList.getLast? ≠ some '#') :
    split id = (id, "") ∨ (split id).2 ≠ "" := by
  unfold split splitChars
  dsimp only
  split
  · exact .inl (by simp)
  · rename_i hcond
    refine .inr fun hnil => ?_
    have htake : id.toList.reverse.takeWhile (· ≠ '#') = [] := by simpa using hnil
    cases hrev : id.toList.reverse with
    | nil => exact absurd (by simp [List.reverse_eq_nil_iff.mp hrev]) hcond
    | cons c rest =>
      rw [hrev, List.takeWhile_cons] at htake
      have hc : c = '#' := by simpa using htake
      refine h ?_
      rw [← List.head?_reverse, hrev, hc]
      rfl

theorem split_ofResolved (q : Path) {f : String} (hf : '#' ∉ f.toList) :
    split (withFragment (Uri.ofResolved q) f) = (Uri.ofResolved q, f) :=
  split_withFragment (hash_not_mem_ofResolved q) (ofResolved_ne_empty q) hf

theorem split_make (q : Path) (r : Span) :
    split (make (Uri.ofResolved q) r) = (Uri.ofResolved q, fragment r) := by
  rw [make_eq]
  exact split_ofResolved q (not_mem_fragment r)

theorem split_uri (q : Path) : split (Uri.ofResolved q) = (Uri.ofResolved q, "") := by
  have h := split_ofResolved q (f := "") (by simp)
  rwa [withFragment, if_pos rfl] at h

theorem isAbsolute_ofResolved (q : Path) (f : String) :
    isAbsolute (withFragment (Uri.ofResolved q) f) = true := by
  have hof : ∃ rest, (withFragment (Uri.ofResolved q) f).toList = Uri.schemeMark ++ rest := by
    unfold withFragment
    split
    · exact ⟨_, by rw [Uri.ofResolved, String.toList_ofList]⟩
    · exact ⟨_, by rw [String.toList_append, String.toList_append, Uri.ofResolved,
        String.toList_ofList, List.append_assoc, List.append_assoc]⟩
  obtain ⟨rest, h⟩ := hof
  rw [isAbsolute, h]
  exact List.isPrefixOf_iff_prefix.mpr (List.prefix_append _ _)

section Relative

variable {cwd base q path : Path} {f : String}

theorem toRelative_ofResolved (hq : Uri.toPath (Uri.ofResolved q) = .ok path) (hf : '#' ∉ f.toList) :
    toRelative cwd base (withFragment (Uri.ofResolved q) f) =
      .ok (withFragment (Uri.relativePath cwd base path) f) := by
  rw [toRelative, isAbsolute_ofResolved, if_pos rfl, split_ofResolved q hf]
  simp only [hq]
  rfl

theorem filePath_ofResolved (hq : Uri.toPath (Uri.ofResolved q) = .ok path) (hf : '#' ∉ f.toList) :
    filePath cwd base (withFragment (Uri.ofResolved q) f) =
      .ok (Uri.relativePath cwd base path) := by
  have habs : isAbsolute (Uri.ofResolved q) = true := isAbsolute_ofResolved q ""
  rw [filePath, split_ofResolved q hf]
  simp only [habs, if_pos, hq]
  rfl

/-- No relative path looks like a URI. -/
theorem not_mark_prefix {parts : List String} (h : Path.Plain parts) {t : List Char}
    (ht : t = [] ∨ t.head? = some '#') :
    ¬Uri.schemeMark <+: Path.chars ⟨.relative, parts⟩ ++ t := by
  rintro ⟨x, hx⟩
  have hsplit : Text.split '/' (Uri.schemeMark ++ x) = "file:".toList :: [] :: Text.split '/' x := by
    rw [show Uri.schemeMark ++ x = "file:".toList ++ '/' :: '/' :: x from rfl,
      Text.split_append_sep (by decide), Text.split_cons_sep]
  rw [hx] at hsplit
  -- the first component would be all that stands before the mark's slashes
  have hfirst : ∀ l : List Char, '/' ∉ l → Text.split '/' (l ++ t) ≠ "file:".toList :: [] :: Text.split '/' x := by
    intro l hl e
    rcases ht with rfl | ht
    · rw [List.append_nil, Text.split_of_not_mem hl] at e
      simp at e
    · obtain ⟨t, rfl⟩ : ∃ u, t = '#' :: u := by
        cases t with
        | nil => simp at ht
        | cons c u => exact ⟨u, by simpa using ht⟩
      have hhash : '#' ∈ ((Text.split '/' (l ++ '#' :: t)).head?.getD []) := by
        clear e
        induction l with
        | nil =>
          rw [List.nil_append, Text.split]
          cases ht : Text.split '/' t with
          | nil => exact absurd ht (Text.split_ne_nil _ _)
          | cons a as => simp
        | cons c l ih =>
          have hc : c ≠ '/' := fun e => hl (by simp [e])
          have hmem := ih fun hm => hl (by simp [hm])
          rw [List.cons_append, Text.split]
          cases ht : Text.split '/' (l ++ '#' :: t) with
          | nil => exact absurd ht (Text.split_ne_nil _ _)
          | cons a as =>
            rw [ht] at hmem
            simpa [hc] using .inr hmem
      rw [e] at hhash
      exact absurd (show '#' ∈ "file:".toList from hhash) (by decide)
  rcases parts with _ | ⟨p, _ | ⟨r, rs⟩⟩
  · exact hfirst ['.'] (by decide) hsplit
  · have hchars : Path.chars ⟨.relative, [p]⟩ = p.toList := by simp [Path.chars, Path.joined, Text.join, Anchor.text]
    rw [hchars] at hsplit
    exact hfirst p.toList (h p (by simp)).2.2 hsplit
  · have hchars : Path.chars ⟨.relative, p :: r :: rs⟩ = p.toList ++ '/' :: Path.joined (r :: rs) :=
      Path.joined_cons_cons p r rs
    have htail : Path.Plain (r :: rs) := h.sublist fun x hx => List.mem_cons_of_mem _ hx
    obtain ⟨c, rest, hj, hc⟩ := Path.head_joined htail
    rw [hchars, hj, List.append_assoc, List.cons_append, Text.split_append_sep (h p (by simp)).2.2,
      List.cons_append, Text.split] at hsplit
    cases ht : Text.split '/' (rest ++ t) with
    | nil => exact absurd ht (Text.split_ne_nil _ _)
    | cons a as => simp [ht, hc] at hsplit

theorem not_isAbsolute_relative {parts : List String} (h : Path.Plain parts) :
    isAbsolute (withFragment (Path.toString ⟨.relative, parts⟩) f) = false := by
  rw [isAbsolute, ← Bool.not_eq_true, List.isPrefixOf_iff_prefix]
  unfold withFragment
  split
  · simpa [Path.toString] using not_mark_prefix h (.inl rfl)
  · have := not_mark_prefix h (t := '#' :: f.toList) (.inr rfl)
    simpa [Path.toString] using this

theorem isAbsolute_relativePath (hp : Path.Plain (Path.resolve cwd path).parts) :
    isAbsolute (withFragment (Uri.relativePath cwd base path) f) = false :=
  not_isAbsolute_relative (Path.plain_way hp _ _)

theorem relativePath_ne_empty (hp : Path.Plain (Path.resolve cwd path).parts) :
    Uri.relativePath cwd base path ≠ "" := by
  intro h
  have hback : Path.ofString "" = Path.relativeTo cwd base path := by
    rw [← h, Uri.relativePath, Path.relativeTo, Path.ofString_toString_relative (Path.plain_way hp _ _)]
  rw [Uri.relativePath, ← hback] at h
  exact absurd h (by decide)

/-- A relative identifier whose parts are told apart is that of the same place when absolute. -/
theorem absolute_relativePath (hb : base.Resolved) (hp : Path.Plain (Path.resolve cwd path).parts)
    (hsplit : split (withFragment (Uri.relativePath cwd base path) f) =
      (Uri.relativePath cwd base path, f)) :
    absolute base (withFragment (Uri.relativePath cwd base path) f) =
      withFragment (Uri.ofResolved (Path.resolve cwd path)) f := by
  rw [absolute, isAbsolute_relativePath hp, hsplit]
  simp only [Bool.false_eq_true, if_false, Uri.resolve_relativePath hb hp]

theorem split_relativePath (hp : Path.Plain (Path.resolve cwd path).parts) (hne : f ≠ "")
    (hf : '#' ∉ f.toList) : split (withFragment (Uri.relativePath cwd base path) f) =
      (Uri.relativePath cwd base path, f) := by
  have hrel : (Uri.relativePath cwd base path).toList ≠ [] := by
    simpa using relativePath_ne_empty hp
  have hchars : (Uri.relativePath cwd base path ++ "#" ++ f).toList =
      (Uri.relativePath cwd base path).toList ++ '#' :: f.toList := by simp
  simp [split, withFragment, hne, hchars, splitChars_append hrel hf]

/-- The relative path of a file, read as an identifier, stands for the file or for something with a
fragment. -/
theorem absolute_relativePath_or (hb : base.Resolved) (hp : Path.Plain (Path.resolve cwd path).parts)
    (hlast : (Uri.relativePath cwd base path).toList.getLast? ≠ some '#') :
    absolute base (Uri.relativePath cwd base path) = Uri.ofResolved (Path.resolve cwd path) ∨
      '#' ∈ (absolute base (Uri.relativePath cwd base path)).toList := by
  have hwith : ∀ s : String, withFragment s "" = s := fun _ => rfl
  rcases split_eq_or hlast with hsplit | hfragment
  · rw [← hwith (Uri.relativePath cwd base path)] at hsplit ⊢
    rw [absolute_relativePath hb hp hsplit, hwith]
    exact .inl rfl
  · have habs : isAbsolute (withFragment (Uri.relativePath cwd base path) "") = false :=
      isAbsolute_relativePath hp
    rw [hwith] at habs
    refine .inr ?_
    rw [absolute, habs]
    simp only [Bool.false_eq_true, if_false]
    rw [withFragment, if_neg hfragment]
    simp

end Relative

end NodeId

end OutlineIndex
