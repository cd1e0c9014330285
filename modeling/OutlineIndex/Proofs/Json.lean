import OutlineIndex.Data.Json

namespace OutlineIndex.Json

/-- The code units of a character: one, or the two halves of a pair. -/
def unitsOf (c : Char) : List Nat :=
  if c.toNat < 0x10000 then [c.toNat]
  else [0xD800 + (c.toNat - 0x10000) / 0x400, 0xDC00 + (c.toNat - 0x10000) % 0x400]

theorem hexDigit?_hexChar : ∀ n < 16, hexDigit? (hexChar n) = some n := by decide

theorem units?_unitEscape {n : Nat} (hn : n < 0x10000) (rest : List Char) :
    units? (unitEscape n ++ rest) = (units? rest).map fun p => (n :: p.1, p.2) := by
  have ha := hexDigit?_hexChar (n / 4096 % 16) (by omega)
  have hb := hexDigit?_hexChar (n / 256 % 16) (by omega)
  have hc := hexDigit?_hexChar (n / 16 % 16) (by omega)
  have hd := hexDigit?_hexChar (n % 16) (by omega)
  have hunit : hexUnit? (hexChar (n / 4096 % 16)) (hexChar (n / 256 % 16)) (hexChar (n / 16 % 16))
      (hexChar (n % 16)) = some n := by
    rw [hexUnit?, ha, hb, hc, hd]
    exact congrArg some (by omega)
  change units? ('\\' :: 'u' :: _ :: _ :: _ :: _ :: rest) = _
  rw [units?, hunit]
  cases units? rest <;> rfl

/-- A character that has a short escape. -/
theorem units?_short {c x : Char} (hx : x ≠ 'u') (hc : escaped? x = some c.toNat)
    (hlt : c.toNat < 0x10000) (rest : List Char) :
    units? (['\\', x] ++ rest) = (units? rest).map fun p => (unitsOf c ++ p.1, p.2) := by
  change units? ('\\' :: x :: rest) = _
  rw [units?.eq_4 x rest fun _ _ _ _ _ hu _ => hx hu, hc, unitsOf, if_pos hlt]
  cases units? rest <;> rfl

/-- A character that stands for itself. -/
theorem units?_plain {c : Char} (hquote : c ≠ '"') (hslash : c ≠ '\\') (hge : 32 ≤ c.toNat)
    (hlt : c.toNat < 0x10000) (rest : List Char) :
    units? ([c] ++ rest) = (units? rest).map fun p => (unitsOf c ++ p.1, p.2) := by
  have hnot : ¬(decide (c.toNat < 32) || decide (c = '\\')) = true := by
    simp only [Bool.or_eq_true, decide_eq_true_eq, not_or, Nat.not_lt]
    exact ⟨hge, hslash⟩
  change units? (c :: rest) = _
  rw [units?.eq_5 c rest hquote (fun _ _ _ _ _ h _ => hslash h) (fun _ _ h _ => hslash h), if_neg hnot,
    unitsOf, if_pos hlt]
  cases units? rest <;> rfl

theorem units?_escape (c : Char) (rest : List Char) :
    units? (escape c ++ rest) = (units? rest).map fun p => (unitsOf c ++ p.1, p.2) := by
  have hvalid : c.toNat < 0xD800 ∨ (0xDFFF < c.toNat ∧ c.toNat < 0x110000) := c.valid
  unfold escape
  -- the seven characters with a short escape of their own
  iterate 7
    split
    · rename_i h
      subst h
      exact units?_short (by decide) (by decide) (by decide) rest
  rename_i hquote hslash _ _ _ _ _
  split
  · rename_i hprint
    obtain ⟨hlow, hhigh⟩ := (Bool.and_eq_true _ _).mp hprint
    have hlow : 32 ≤ c.toNat := of_decide_eq_true hlow
    have hhigh : c.toNat ≤ 126 := of_decide_eq_true hhigh
    exact units?_plain hquote hslash hlow (by omega) rest
  split
  · rename_i hlt
    rw [units?_unitEscape hlt, unitsOf, if_pos hlt]
    rfl
  · rename_i hge
    rw [List.append_assoc, units?_unitEscape (by omega), units?_unitEscape (by omega), unitsOf, if_neg hge]
    cases units? rest <;> rfl

theorem units?_flatMap_escape (s rest : List Char) :
    units? (s.flatMap escape ++ '"' :: rest) = some (s.flatMap unitsOf, rest) := by
  induction s with
  | nil => exact units?.eq_2 rest
  | cons c s ih => rw [List.flatMap_cons, List.append_assoc, units?_escape, ih]; rfl

theorem joinPairs_cons {n : Nat} (h : isHigh n = false) (ns : List Nat) :
    joinPairs (n :: ns) = single n :: joinPairs ns := by
  cases ns with
  | nil => rfl
  | cons m ns => rw [joinPairs, h, Bool.false_and, if_neg Bool.false_ne_true]

theorem joinPairs_unitsOf (c : Char) (ns : List Nat) : joinPairs (unitsOf c ++ ns) = c :: joinPairs ns := by
  have hvalid : c.toNat < 0xD800 ∨ (0xDFFF < c.toNat ∧ c.toNat < 0x110000) := c.valid
  have hself : Char.ofNat c.toNat = c := Char.ofNat_toNat c
  unfold unitsOf
  generalize c.toNat = n at hvalid hself
  split
  · have hhigh : isHigh n = false := by
      simp only [isHigh, Bool.and_eq_false_iff, decide_eq_false_iff_not]
      omega
    have hlow : isLow n = false := by
      simp only [isLow, Bool.and_eq_false_iff, decide_eq_false_iff_not]
      omega
    rw [List.cons_append, joinPairs_cons hhigh, single, hhigh, hlow, hself]
    rfl
  · have hhigh : isHigh (0xD800 + (n - 0x10000) / 0x400) = true := by
      simp only [isHigh, Bool.and_eq_true, decide_eq_true_eq]
      omega
    have hlow : isLow (0xDC00 + (n - 0x10000) % 0x400) = true := by
      simp only [isLow, Bool.and_eq_true, decide_eq_true_eq]
      omega
    have hn : 0x10000 + (0xD800 + (n - 0x10000) / 0x400 - 0xD800) * 0x400 +
        (0xDC00 + (n - 0x10000) % 0x400 - 0xDC00) = n := by omega
    rw [List.cons_append, List.cons_append, joinPairs, hhigh, hlow, Bool.true_and, if_pos rfl, hn, hself]
    rfl

theorem joinPairs_flatMap_unitsOf (s : List Char) : joinPairs (s.flatMap unitsOf) = s := by
  induction s with
  | nil => rfl
  | cons c s ih => rw [List.flatMap_cons, joinPairs_unitsOf, ih]

theorem quote_append (s : String) (rest : List Char) :
    quote s ++ rest = '"' :: (s.toList.flatMap escape ++ '"' :: rest) := by simp [quote]

/-- A text of blanks, as it may stand between the parts of a value. -/
def Gap (s : List Char) : Prop := ∀ c ∈ s, isBlank c = true

theorem gap_newline (level : Nat) : Gap (newline level) := by
  intro c hc
  rcases List.mem_cons.mp hc with rfl | hc
  · rfl
  · rw [List.eq_of_mem_replicate hc]
    rfl

theorem gap_nil : Gap [] := fun _ hc => absurd hc List.not_mem_nil

theorem gap_space : Gap [' '] := by
  intro c hc
  rw [List.mem_singleton.mp hc]
  rfl

theorem skip_append {gap : List Char} (h : Gap gap) (s : List Char) : skip (gap ++ s) = skip s :=
  List.dropWhile_append_of_pos h

theorem skip_cons {c : Char} (h : isBlank c = false) (s : List Char) : skip (c :: s) = c :: s :=
  List.dropWhile_cons_of_neg (by simp [h])

mutual

/-- A value of texts, lists and records in which no name is repeated, with at most `depth` lists and records
in one another. -/
def Simple : Nat → Data → Prop
  | _, .text _ => True
  | depth + 1, .list items => SimpleItems depth items
  | depth + 1, .record fields => (fields.map (·.1)).Nodup ∧ SimpleFields depth fields
  | _, _ => False

def SimpleItems : Nat → List Data → Prop
  | _, [] => True
  | depth, v :: rest => Simple depth v ∧ SimpleItems depth rest

def SimpleFields : Nat → List (String × Data) → Prop
  | _, [] => True
  | depth, (_, v) :: rest => Simple depth v ∧ SimpleFields depth rest

end

/-- A simple value starts with a quote or an opening bracket. -/
theorem write_eq_cons {depth : Nat} {v : Data} (h : Simple depth v) (level : Nat) :
    ∃ c s, write level v = c :: s ∧ isBlank c = false ∧ c ≠ ']' ∧ c ≠ '\x7d' := by
  cases v with
  | text s => exact ⟨'"', _, by rw [write, quote]; rfl, by decide, by decide, by decide⟩
  | list items =>
    cases items with
    | nil => exact ⟨'[', _, by rw [write], by decide, by decide, by decide⟩
    | cons v rest => exact ⟨'[', _, by rw [write]; rfl, by decide, by decide, by decide⟩
  | record fields =>
    cases fields with
    | nil => exact ⟨'\x7b', _, by rw [write], by decide, by decide, by decide⟩
    | cons e rest => exact ⟨'\x7b', _, by rw [write]; rfl, by decide, by decide, by decide⟩
  | _ => cases depth <;> exact h.elim

/-- What follows an item in a list: a comma and the next one, or the end of the list. -/
theorem write_list_append (level : Nat) (v : Data) (items : List Data) (rest : List Char) :
    write level (.list (v :: items)) ++ rest = '[' :: (newline (level + 1) ++ (write (level + 1) v ++
      (writeItems (level + 1) items ++ (newline level ++ ']' :: rest)))) := by
  rw [write]
  simp

theorem write_record_append (level : Nat) (k : String) (v : Data) (fields : List (String × Data))
    (rest : List Char) : write level (.record ((k, v) :: fields)) ++ rest = '\x7b' ::
      (newline (level + 1) ++ (quote k ++ ':' :: ' ' :: (write (level + 1) v ++
        (writeFields (level + 1) fields ++ (newline level ++ '\x7d' :: rest))))) := by
  rw [write]
  simp

theorem writeItems_append (level : Nat) (v : Data) (items : List Data) (rest : List Char) :
    writeItems level (v :: items) ++ rest =
      ',' :: (newline level ++ (write level v ++ (writeItems level items ++ rest))) := by
  rw [writeItems]
  simp

theorem writeFields_append (level : Nat) (k : String) (v : Data) (fields : List (String × Data))
    (rest : List Char) : writeFields level ((k, v) :: fields) ++ rest =
      ',' :: (newline level ++ (quote k ++ ':' :: ' ' :: (write level v ++
        (writeFields level fields ++ rest)))) := by
  rw [writeFields]
  simp

theorem skip_write {depth : Nat} {v : Data} (h : Simple depth v) (level : Nat) (rest : List Char) :
    skip (write level v ++ rest) = write level v ++ rest := by
  obtain ⟨c, s, heq, hblank, -⟩ := write_eq_cons h level
  rw [heq]
  exact skip_cons hblank _

theorem skip_quote (s : String) (rest : List Char) : skip (quote s ++ rest) = quote s ++ rest := by
  rw [quote_append]
  exact skip_cons (by decide) _

theorem value_quote (fuel depth : Nat) (s : String) (rest : List Char) :
    value (fuel + 1) depth (quote s ++ rest) = .ok (.text s, rest) := by
  rw [quote_append, value, units?_flatMap_escape]
  change Except.ok (Data.text (String.ofList (joinPairs (s.toList.flatMap unitsOf))), rest) = _
  rw [joinPairs_flatMap_unitsOf, String.ofList_toList]

section parts

variable {fuel depth : Nat} {gap : List Char} {s s' rest : List Char} {v : Data} {vs : List Data} {k : String}
  {es : List (String × Data)}

theorem value_openList (hgap : Gap gap) (hblank : skip s = s) (hs : ∀ r, s ≠ ']' :: r)
    (h : items fuel depth s = .ok (vs, rest)) :
    value (fuel + 1) (depth + 1) ('[' :: (gap ++ s)) = .ok (.list vs, rest) := by
  rw [value, skip_append hgap, hblank]
  split
  · exact absurd rfl (hs _)
  · rw [h]
    rfl

theorem value_openRecord (hgap : Gap gap) (hs : ∃ r, s = '"' :: r)
    (h : fields fuel depth s = .ok (es, rest)) :
    value (fuel + 1) (depth + 1) ('\x7b' :: (gap ++ s)) = .ok (.record (Table.ofList es).entries, rest) := by
  obtain ⟨r, rfl⟩ := hs
  rw [value, skip_append hgap, skip_cons (by decide)]
  split
  · rename_i heq
    exact absurd (List.cons.inj heq).1 (by decide)
  · rw [h]
    rfl

theorem items_last (hgap : Gap gap) (h : value fuel depth s = .ok (v, gap ++ ']' :: rest)) :
    items (fuel + 1) depth s = .ok ([v], rest) := by
  have hskip : skip (gap ++ ']' :: rest) = ']' :: rest := by rw [skip_append hgap, skip_cons (by decide)]
  rw [items, h]
  simp only [bind, Except.bind, hskip]
  rfl

theorem items_comma (hgap : Gap gap) (h : value fuel depth s = .ok (v, ',' :: (gap ++ s')))
    (hblank : skip s' = s') (hitems : items fuel depth s' = .ok (vs, rest)) :
    items (fuel + 1) depth s = .ok (v :: vs, rest) := by
  have hskip : skip (',' :: (gap ++ s')) = ',' :: (gap ++ s') := skip_cons (by decide) _
  have hnext : items fuel depth (skip (gap ++ s')) = .ok (vs, rest) := by rw [skip_append hgap, hblank, hitems]
  rw [items, h]
  simp only [bind, Except.bind, hskip, hnext]
  rfl

theorem fields_name {t : List Char} (hblank : skip s = s) (h : value fuel depth s = .ok (v, t)) :
    fields (fuel + 1) depth (quote k ++ ':' :: ' ' :: s) =
      match skip t with
      | '\x7d' :: rest => .ok ([(k, v)], rest)
      | ',' :: rest => fields fuel depth (skip rest) >>= fun p => .ok ((k, v) :: p.1, p.2)
      | _ => .error .malformed := by
  have hk : String.ofList (joinPairs (k.toList.flatMap unitsOf)) = k := by
    rw [joinPairs_flatMap_unitsOf, String.ofList_toList]
  have hskip : skip (' ' :: s) = s := (skip_append gap_space s).trans hblank
  rw [quote_append, fields, units?_flatMap_escape]
  dsimp only
  rw [hk, skip_cons (by decide)]
  change (value fuel depth (skip (' ' :: s)) >>= _) = _
  rw [hskip, h]
  rfl

theorem fields_last (hgap : Gap gap) (hblank : skip s = s)
    (h : value fuel depth s = .ok (v, gap ++ '\x7d' :: rest)) :
    fields (fuel + 1) depth (quote k ++ ':' :: ' ' :: s) = .ok ([(k, v)], rest) := by
  rw [fields_name hblank h, skip_append hgap, skip_cons (by decide)]
  rfl

theorem fields_comma (hgap : Gap gap) (hblank : skip s = s)
    (h : value fuel depth s = .ok (v, ',' :: (gap ++ s'))) (hblank' : skip s' = s')
    (hfields : fields fuel depth s' = .ok (es, rest)) :
    fields (fuel + 1) depth (quote k ++ ':' :: ' ' :: s) = .ok ((k, v) :: es, rest) := by
  rw [fields_name hblank h, skip_cons (by decide)]
  change (fields fuel depth (skip (gap ++ s')) >>= fun p => Except.ok ((k, v) :: p.1, p.2)) = _
  rw [skip_append hgap, hblank', hfields]
  rfl

end parts

mutual

theorem value_write {depth : Nat} {v : Data} (h : Simple depth v) {fuel : Nat} (level : Nat)
    (rest : List Char) (hfuel : (write level v).length ≤ fuel) :
    value fuel depth (write level v ++ rest) = .ok (v, rest) := by
  match depth, v with
  | depth, .text s =>
    obtain ⟨f, rfl⟩ : ∃ f, fuel = f + 1 := ⟨fuel - 1, by simp [write, quote] at hfuel; omega⟩
    rw [write]
    exact value_quote f depth s rest
  | depth + 1, .list [] =>
    obtain ⟨f, rfl⟩ : ∃ f, fuel = f + 1 := ⟨fuel - 1, by simp [write] at hfuel; omega⟩
    rw [write, List.cons_append, value]
    rfl
  | depth + 1, .record [] =>
    obtain ⟨f, rfl⟩ : ∃ f, fuel = f + 1 := ⟨fuel - 1, by simp [write] at hfuel; omega⟩
    rw [write, List.cons_append, value]
    rfl
  | depth + 1, .list (v :: items) =>
    obtain ⟨hv, hitems⟩ : Simple depth v ∧ SimpleItems depth items := h
    have hlength : (write level (.list (v :: items))).length =
        (write (level + 1) v).length + (writeItems (level + 1) items).length + 4 * level + 6 := by
      simp [write, newline]
      omega
    obtain ⟨f, rfl⟩ : ∃ f, fuel = f + 1 := ⟨fuel - 1, by omega⟩
    rw [write_list_append]
    refine value_openList (gap_newline _) (skip_write hv _ _) ?_ (items_write hv hitems _ _ _ (by omega))
    intro r heq
    obtain ⟨c, s, hc, -, hne, -⟩ := write_eq_cons hv (level + 1)
    rw [hc] at heq
    exact hne (List.cons.inj heq).1
  | depth + 1, .record ((k, v) :: fields) =>
    obtain ⟨hnodup, hfields⟩ := h
    obtain ⟨hv, hfields⟩ : Simple depth v ∧ SimpleFields depth fields := hfields
    have hlength : (write level (.record ((k, v) :: fields))).length = (quote k).length +
        (write (level + 1) v).length + (writeFields (level + 1) fields).length + 4 * level + 8 := by
      simp [write, newline]
      omega
    obtain ⟨f, rfl⟩ : ∃ f, fuel = f + 1 := ⟨fuel - 1, by omega⟩
    rw [write_record_append, value_openRecord (gap_newline _) ⟨_, quote_append _ _⟩
      (fields_write hv hfields k _ _ _ (by omega)), Table.entries_ofList hnodup]
termination_by fuel

theorem items_write {depth : Nat} {v : Data} (hv : Simple depth v) {vs : List Data}
    (h : SimpleItems depth vs) {fuel : Nat} (level outer : Nat) (rest : List Char)
    (hfuel : (write level v).length + (writeItems level vs).length + 1 ≤ fuel) :
    items fuel depth (write level v ++ (writeItems level vs ++ (newline outer ++ ']' :: rest))) =
      .ok (v :: vs, rest) := by
  obtain ⟨f, rfl⟩ : ∃ f, fuel = f + 1 := ⟨fuel - 1, by omega⟩
  have hvalue := value_write hv level (writeItems level vs ++ (newline outer ++ ']' :: rest))
    (show (write level v).length ≤ f by omega)
  match vs with
  | [] => exact items_last (gap_newline outer) hvalue
  | w :: ws =>
    obtain ⟨hw, hws⟩ : Simple depth w ∧ SimpleItems depth ws := h
    have hlength : (writeItems level (w :: ws)).length =
        (write level w).length + (writeItems level ws).length + 2 * level + 2 := by
      simp [writeItems, newline]
      omega
    rw [writeItems_append] at hvalue ⊢
    exact items_comma (gap_newline level) hvalue (skip_write hw _ _)
      (items_write hw hws level outer rest (by omega))
termination_by fuel

theorem fields_write {depth : Nat} {v : Data} (hv : Simple depth v) {es : List (String × Data)}
    (h : SimpleFields depth es) {fuel : Nat} (k : String) (level outer : Nat) (rest : List Char)
    (hfuel : (write level v).length + (writeFields level es).length + 1 ≤ fuel) :
    fields fuel depth (quote k ++ ':' :: ' ' :: (write level v ++ (writeFields level es ++
      (newline outer ++ '\x7d' :: rest)))) = .ok ((k, v) :: es, rest) := by
  obtain ⟨f, rfl⟩ : ∃ f, fuel = f + 1 := ⟨fuel - 1, by omega⟩
  have hvalue := value_write hv level (writeFields level es ++ (newline outer ++ '\x7d' :: rest))
    (show (write level v).length ≤ f by omega)
  match es with
  | [] => exact fields_last (gap_newline outer) (skip_write hv _ _) hvalue
  | (l, w) :: ws =>
    obtain ⟨hw, hws⟩ : Simple depth w ∧ SimpleFields depth ws := h
    have hlength : (writeFields level ((l, w) :: ws)).length = (quote l).length +
        (write level w).length + (writeFields level ws).length + 2 * level + 4 := by
      simp [writeFields, newline]
      omega
    rw [writeFields_append] at hvalue ⊢
    exact fields_comma (gap_newline level) (skip_write hv _ _) hvalue (skip_quote _ _)
      (fields_write hw hws l level outer rest (by omega))
termination_by fuel

end

/-- A simple value is read back from its text. -/
theorem read_print {depth : Nat} {v : Data} (h : Simple depth v) : read depth (print v).toList = .ok v := by
  have hvalue := value_write h 0 [] (Nat.le_add_right (write 0 v).length 1)
  have hskip := skip_write h 0 []
  rw [List.append_nil] at hvalue hskip
  rw [read, print, String.toList_ofList, hskip, hvalue]
  rfl

/-- The texts of a list on one line, up to its closing bracket. -/
theorem items_texts (t : String) (ts : List String) (fuel depth : Nat) (rest : List Char)
    (hfuel : ts.length + 2 ≤ fuel) :
    items fuel depth (Text.join [',', ' '] ((t :: ts).map quote) ++ ']' :: rest) =
      .ok ((t :: ts).map .text, rest) := by
  induction ts generalizing t fuel with
  | nil =>
    obtain ⟨f, rfl⟩ : ∃ f, fuel = f + 2 := ⟨fuel - 2, by simp at hfuel; omega⟩
    exact items_last gap_nil (value_quote f depth t _)
  | cons u us ih =>
    rw [List.length_cons] at hfuel
    obtain ⟨f, rfl⟩ : ∃ f, fuel = f + 2 := ⟨fuel - 2, by omega⟩
    have hrest := ih u (f + 1) (by omega)
    have hjoin : Text.join [',', ' '] ((t :: u :: us).map quote) ++ ']' :: rest = quote t ++
        ',' :: ([' '] ++ (Text.join [',', ' '] ((u :: us).map quote) ++ ']' :: rest)) := by
      simp [Text.join]
    have hblank : skip (Text.join [',', ' '] ((u :: us).map quote) ++ ']' :: rest) =
        Text.join [',', ' '] ((u :: us).map quote) ++ ']' :: rest := by
      cases us <;> simp [Text.join, skip_quote]
    rw [hjoin]
    exact items_comma gap_space (value_quote f depth t _) hblank hrest

theorem length_join_quote (t : String) (ts : List String) :
    ts.length + 1 ≤ (Text.join [',', ' '] ((t :: ts).map quote)).length := by
  induction ts generalizing t with
  | nil => simp [Text.join, quote]
  | cons u us ih =>
    have hu := ih u
    simp only [List.map_cons, Text.join, List.length_append, List.length_cons] at hu ⊢
    omega

/-- A list of texts is read back from its line. -/
theorem read_printTexts (depth : Nat) (ts : List String) :
    read (depth + 1) (printTexts ts).toList = .ok (.list (ts.map .text)) := by
  rw [printTexts, String.toList_ofList, read]
  cases ts with
  | nil => rfl
  | cons t ts =>
    have hlength := length_join_quote t ts
    have hblank : ∀ rest, skip (Text.join [',', ' '] ((t :: ts).map quote) ++ rest) =
        Text.join [',', ' '] ((t :: ts).map quote) ++ rest := by
      intro rest
      cases ts <;> simp [Text.join, skip_quote]
    have hopen : ∀ rest r, Text.join [',', ' '] ((t :: ts).map quote) ++ rest ≠ ']' :: r := by
      intro rest r
      cases ts <;> simp [Text.join, quote]
    rw [List.cons_append, skip_cons (by decide)]
    have hitems := items_texts t ts
      ('[' :: (Text.join [',', ' '] ((t :: ts).map quote) ++ [']'])).length depth []
      (by simp only [List.length_append, List.length_cons]; omega)
    have hvalue := value_openList gap_nil (hblank _) (hopen _) hitems
    rw [List.nil_append] at hvalue
    rw [hvalue]
    rfl

end OutlineIndex.Json
