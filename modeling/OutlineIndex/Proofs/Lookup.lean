import OutlineIndex.Workspace
import OutlineIndex.Proofs.Results
import OutlineIndex.Proofs.Uri

namespace OutlineIndex

namespace Path

/-- The bytes of components, each with a slash. -/
def byteSize (parts : List String) : Nat := (parts.map fun c => (Utf8.encode c.toList).length + 1).sum

theorem length_encode_joined (p : String) (ps : List String) :
    (Utf8.encode (joined (p :: ps))).length + 1 = byteSize (p :: ps) := by
  induction ps generalizing p with
  | nil => simp [joined, Text.join, byteSize]
  | cons q qs ih =>
    have htail := ih q
    have hjoined : Utf8.encode (joined (p :: q :: qs)) =
        Utf8.encode p.toList ++ (Utf8.encode ['/'] ++ Utf8.encode (joined (q :: qs))) := by
      simp [joined, Text.join, Utf8.encode]
    have hslash : (Utf8.encode ['/']).length = 1 := by decide
    rw [hjoined, List.length_append, List.length_append, hslash]
    simp only [byteSize, List.map_cons, List.sum_cons] at htail ⊢
    omega

/-- A path from the root has the bytes of its components, or only a slash. -/
theorem length_encode_chars_root (parts : List String) :
    (Utf8.encode (chars ⟨.root, parts⟩)).length = max 1 (byteSize parts) := by
  have hroot : Utf8.encode (chars ⟨.root, parts⟩) = Utf8.encode ['/'] ++ Utf8.encode (joined parts) := by
    rw [chars_root]
    simp [Utf8.encode]
  have hslash : (Utf8.encode ['/']).length = 1 := by decide
  rw [hroot, List.length_append, hslash]
  cases parts with
  | nil => rfl
  | cons p ps =>
    have hbytes := length_encode_joined p ps
    omega

theorem length_encode_chars_network (parts : List String) :
    (Utf8.encode (chars ⟨.root, parts⟩)).length ≤ (Utf8.encode (chars ⟨.network, parts⟩)).length := by
  have hnetwork : chars ⟨.network, parts⟩ = '/' :: chars ⟨.root, parts⟩ := rfl
  rw [hnetwork]
  simp [Utf8.encode]

/-- What an absolute path denotes is not longer than the path. -/
theorem length_encode_resolve_le {p : Path} (h : p.isAbsolute = true) (cwd : Path) :
    (Utf8.encode (resolve cwd p).chars).length ≤ (Utf8.encode p.chars).length := by
  have hsize : byteSize (cancel p.parts) ≤ byteSize p.parts :=
    ((cancel_sublist p.parts).map _).sum_le_sum fun _ _ => Nat.zero_le _
  have hroot : (Utf8.encode (resolve cwd p).chars).length ≤ (Utf8.encode (chars ⟨.root, p.parts⟩)).length := by
    rw [resolve, fromRoot, if_pos h, length_encode_chars_root, length_encode_chars_root]
    omega
  obtain ⟨anchor, parts⟩ := p
  cases anchor with
  | relative => cases h
  | root => exact hroot
  | network => exact hroot.trans (length_encode_chars_network parts)

end Path

namespace FileTree

variable {t : FileTree} {e : Entry}

theorem mem_entries_of_file {p : List String} {bytes : List UInt8} (h : t.entry? p = some (.file bytes)) :
    (p, .file bytes) ∈ t.entries := by
  unfold entry? at h
  split at h
  · cases h
  · obtain ⟨found, hfind, he⟩ := Option.map_eq_some_iff.mp h
    have hparts : found.1 = p := by simpa using List.find?_some hfind
    rw [← he, ← hparts]
    exact List.mem_of_find?_eq_some hfind

theorem exists_mem_of_isFile {p : List String} (h : t.isFile p = true) :
    ∃ bytes, (p, .file bytes) ∈ t.entries := by
  unfold isFile at h
  split at h
  · rename_i bytes hentry
    exact ⟨bytes, mem_entries_of_file hentry⟩
  · cases h

/-- Components lead from the root to an entry, through directories and by names that are not too long. -/
structure Reaches (t : FileTree) (p : List String) (e : Entry) : Prop where
  names : ∀ c ∈ p, c.utf8ByteSize ≤ maxName
  above : ∀ q, q <+: p → q ≠ p → t.entry? q = some .directory
  entry : t.entry? p = some e

namespace Reaches

theorem root (t : FileTree) : t.Reaches [] .directory where
  names _ h := by cases h
  above q hq hne := absurd (List.prefix_nil.mp hq) hne
  entry := by simp [ entry?]

theorem dropLast {p : List String} (h : t.Reaches p .directory) : t.Reaches p.dropLast .directory where
  names c hc := h.names c (List.dropLast_subset p hc)
  above q hq hne := by
    refine h.above q (hq.trans (List.dropLast_prefix p)) fun e => ?_
    rw [e] at hq hne
    exact hne (hq.eq_of_length_le (by simp))
  entry := by
    by_cases hp : p.dropLast = p
    · rw [hp]
      exact h.entry
    · exact h.above _ (List.dropLast_prefix p) hp

theorem concat {p : List String} {c : String} (h : t.Reaches p .directory) (hc : c.utf8ByteSize ≤ maxName)
    (he : t.entry? (p ++ [c]) = some e) : t.Reaches (p ++ [c]) e where
  names x hx := by
    rcases List.mem_append.mp hx with hx | hx
    · exact h.names x hx
    · rwa [List.mem_singleton.mp hx]
  above q hq hne := by
    rcases List.prefix_concat_iff.mp hq with e | hq
    · exact absurd e hne
    · by_cases hp : q = p
      · rw [hp]
        exact h.entry
      · exact h.above q hq hp
  entry := he

end Reaches

/-- Where components lead to from a directory, the path without `..` leads to from the root. -/
theorem reaches_of_follow {a rest : List String} (ha : t.Reaches (Path.cancel a) .directory)
    (h : t.follow (Path.cancel a) rest = .ok e) : t.Reaches (Path.cancel (a ++ rest)) e := by
  induction rest generalizing a with
  | nil =>
    cases h
    rwa [List.append_nil]
  | cons c rest ih =>
    have hconcat := Path.cancel_concat a c
    rw [List.append_cons]
    rw [follow] at h
    by_cases hdots : c = ".."
    · rw [if_pos hdots] at h hconcat
      rw [← hconcat] at h
      refine ih ?_ h
      rw [hconcat]
      exact ha.dropLast
    · rw [if_neg hdots] at h hconcat
      split at h
      · cases h
      rename_i hlong
      rw [← hconcat] at h
      cases hentry : t.entry? (Path.cancel (a ++ [c])) with
      | none =>
        rw [hentry] at h
        cases h
      | some found =>
        rw [hentry] at h
        have hreaches : t.Reaches (Path.cancel (a ++ [c])) found := by
          rw [hconcat] at hentry ⊢
          exact ha.concat (Nat.le_of_not_lt hlong) hentry
        cases found with
        | directory => exact ih hreaches h
        | file bytes =>
          dsimp only at h
          split at h
          · rename_i hrest
            cases h
            rw [hrest, List.append_nil]
            exact hreaches
          · cases h

theorem follow_of_reaches {dir rest : List String} (hdots : ".." ∉ rest)
    (hdir : t.entry? dir = some .directory) (h : t.Reaches (dir ++ rest) e) : t.follow dir rest = .ok e := by
  induction rest generalizing dir with
  | nil =>
    have hentry := h.entry
    rw [List.append_nil, hdir] at hentry
    cases hentry
    rfl
  | cons c rest ih =>
    have hc : c ≠ ".." := fun e => hdots (e ▸ List.mem_cons_self)
    have hrest : ".." ∉ rest := fun hmem => hdots (List.mem_cons_of_mem _ hmem)
    have hname : ¬c.utf8ByteSize > maxName := Nat.not_lt.mpr (h.names c (by simp))
    rw [List.append_cons] at h
    rw [follow, if_neg hc, if_neg hname]
    by_cases hlast : rest = []
    · subst hlast
      rw [List.append_nil] at h
      rw [h.entry]
      cases e with
      | directory => rfl
      | file bytes => exact if_pos rfl
    · have hnext : t.entry? (dir ++ [c]) = some .directory := by
        refine h.above _ (List.prefix_append _ _) fun e => hlast ?_
        simpa using e
      rw [hnext]
      exact ih hrest hnext h

/-- What is at a path is at the place that the path denotes. -/
theorem reaches_of_status {cwd p : Path} (h : t.status cwd p = .ok e) :
    t.Reaches (Path.resolve cwd p).parts e := by
  unfold status at h
  split at h
  · cases h
  · exact reaches_of_follow (a := []) (.root t) h

theorem Reaches.status {p : Path} (hp : p.Resolved) (hsize : (Utf8.encode p.chars).length ≤ maxPath)
    (h : t.Reaches p.parts e) (cwd : Path) : t.status cwd p = .ok e := by
  have habs : p.isAbsolute = true := by simp [Path.isAbsolute, hp.anchor]
  rw [FileTree.status, if_neg (Nat.not_lt.mpr hsize), Path.fromRoot, if_pos habs]
  exact follow_of_reaches hp.climbs (Reaches.root t).entry h

/-- An absolute path may as well be resolved before it is looked up. -/
theorem status_resolve {cwd p : Path} (habs : p.isAbsolute = true) (h : t.status cwd p = .ok e) :
    t.status cwd (Path.resolve cwd p) = .ok e := by
  refine (reaches_of_status h).status (Path.resolved_resolve cwd p) ?_ cwd
  unfold status at h
  split at h
  · cases h
  · rename_i hsize
    exact (Path.length_encode_resolve_le habs cwd).trans (Nat.le_of_not_lt hsize)

end FileTree

namespace Workspace

variable {w : Workspace}

theorem read_eq_text {uri : String} {d : Document} (h : w.read uri = .ok (.text d)) :
    ∃ path bytes, Uri.toPath uri = .ok path ∧ path.hasNul = false ∧ w.status path = .ok (.file bytes) ∧
      d = ⟨uri, FileTree.textOf bytes⟩ := by
  obtain ⟨path, hpath, h⟩ := Results.bind_eq_ok.mp h
  dsimp only at h
  split at h
  · cases h
  rename_i hnul
  cases hstatus : w.status path with
  | error e =>
    rw [hstatus] at h
    cases e <;> cases h
  | ok found =>
    rw [hstatus] at h
    cases found with
    | directory => cases h
    | file bytes =>
      cases h
      exact ⟨path, bytes, hpath, by simpa using hnul, hstatus, rfl⟩

/-- A document can be asked for unless its path has a null character. -/
theorem read_cases {uri : String} {path : Path} (h : Uri.toPath uri = .ok path) :
    (path.hasNul = true ∧ w.read uri = .error .nulInPath) ∨
      (path.hasNul = false ∧ ∃ r, w.read uri = .ok r) := by
  unfold read
  rw [h]
  simp only [bind, Except.bind]
  cases path.hasNul with
  | true => exact .inl ⟨rfl, rfl⟩
  | false =>
    refine .inr ⟨rfl, ?_⟩
    cases w.status path with
    | ok found => cases found <;> exact ⟨_, rfl⟩
    | error e => cases e <;> exact ⟨_, rfl⟩

theorem entry?_of_status {p : Path} {e : FileTree.Entry} (h : w.status p = .ok e) :
    w.files.entry? (Path.resolve w.cwd p).parts = some e := (FileTree.reaches_of_status h).entry

/-- A file that is found is one of the tree. -/
theorem isFile_resolve {p : Path} (h : w.isFile p = .ok true) :
    w.files.isFile (Path.resolve w.cwd p).parts = true := by
  unfold isFile at h
  split at h
  · cases h
  cases hstatus : w.status p with
  | error e =>
    rw [hstatus] at h
    cases e <;> cases h
  | ok found =>
    rw [hstatus] at h
    cases found with
    | directory => cases h
    | file bytes => rw [FileTree.isFile, entry?_of_status hstatus]

theorem present_of_status {p : Path} {e : FileTree.Entry} (hnul : p.hasNul = false)
    (h : w.status p = .ok e) : w.present p = .ok true := by
  rw [present, hnul, h]
  rfl

end Workspace

end OutlineIndex
