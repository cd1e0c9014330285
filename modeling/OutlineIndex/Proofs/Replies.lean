import Mathlib
import OutlineIndex.Completion.LanguageModel
import OutlineIndex.Proofs.Results

namespace OutlineIndex

namespace Data

/-- A completion or the lack of one. -/
def isAnswer : Data → Bool
  | .null => true
  | .text _ => true
  | _ => false

/-- The value is a record, and what it has under a name, if it has it, is as asked for. -/
def fieldMeets (name : String) (p : Data → Bool) : Data → Bool
  | .record fields => ((Data.record fields).field? name).all p
  | _ => false

/-- The value has a first item as asked for or is without items. A text has its characters; a record has
no items. -/
def firstMeets (p : Data → Bool) : Data → Bool
  | .list items => items.head?.all p
  | .text s => s.toList.head?.all fun c => p (.text (String.ofList [c]))
  | .record _ => true
  | _ => false

end Data

namespace Provider

variable {post : Transport} {prompt : String} {maxTokens : Int} {depth : Nat}

/-- The messages that a vendor's completion can be read from. -/
def readable : Vendor → Data → Bool
  | .ollama => Data.fieldMeets "response" Data.isAnswer
  | .anthropic => Data.fieldMeets "content" (Data.firstMeets (Data.fieldMeets "text" Data.isAnswer))
  | .openai | .groq =>
    Data.fieldMeets "choices"
      (Data.firstMeets (Data.fieldMeets "message" (Data.fieldMeets "content" Data.isAnswer)))

/-- Every step into a value can be taken or leads nowhere, and the last one taken leads to an answer. -/
def legible : List Step → Data → Bool
  | [] => Data.isAnswer
  | .name s :: rest => Data.fieldMeets s (legible rest)
  | .first :: rest => Data.firstMeets (legible rest)

theorem follow_cons (s : Step) (rest : List Step) (v : Data) :
    follow (s :: rest) v = s.apply v >>= fun w => w.elim (.ok .null) (follow rest) := by
  rw [follow]
  congr 1
  funext w
  cases w <;> rfl

theorem isAnswer_error_iff {ε : Type} (e : ε) :
    (∃ w : Data, Except.error e = .ok w ∧ w.isAnswer = true) ↔ false = true := by simp

theorem isAnswer_follow_iff (steps : List Step) (v : Data) :
    (∃ w, follow steps v = .ok w ∧ w.isAnswer = true) ↔ legible steps v = true := by
  induction steps generalizing v with
  | nil => exact ⟨fun ⟨w, hw, h⟩ => Except.ok.inj hw ▸ h, fun h => ⟨v, rfl, h⟩⟩
  | cons s rest ih =>
    -- a step that leads nowhere ends at null, which is an answer
    have hfound : ∀ o : Option Data,
        (∃ w, o.elim (.ok .null) (follow rest) = .ok w ∧ w.isAnswer = true) ↔
          o.all (legible rest) = true := by
      intro o
      cases o with
      | none => exact ⟨fun _ => rfl, fun _ => ⟨.null, rfl, rfl⟩⟩
      | some u => exact ih u
    rw [follow_cons]
    cases s with
    | name n =>
      cases v with
      | record fields => exact hfound _
      | _ => exact isAnswer_error_iff _
    | first =>
      cases v with
      | list items => exact hfound items.head?
      | text t =>
        have hchar := hfound (t.toList.head?.map fun c => .text (String.ofList [c]))
        rw [Option.all_map] at hchar
        exact hchar
      | record fields => exact hfound none
      | _ => exact isAnswer_error_iff _

theorem isAnswer_extract_iff (v : Vendor) (message : Data) :
    (∃ w, extract v message = .ok w ∧ w.isAnswer = true) ↔ readable v message = true := by
  cases v with
  | anthropic => exact isAnswer_follow_iff contentSteps message
  | openai => exact isAnswer_follow_iff chatSteps message
  | groq => exact isAnswer_follow_iff chatSteps message
  | ollama =>
    cases message with
    | record fields =>
      change (∃ w, .ok (((Data.record fields).field? "response").getD .null) = Except.ok w ∧ _) ↔
        ((Data.record fields).field? "response").all Data.isAnswer = true
      cases (Data.record fields).field? "response" with
      | none => exact ⟨fun _ => rfl, fun _ => ⟨.null, rfl, rfl⟩⟩
      | some u =>
        constructor
        · rintro ⟨w, hw, h⟩
          cases hw
          exact h
        · exact fun h => ⟨u, rfl, h⟩
    | _ => exact isAnswer_error_iff _

/-- Where nothing is sent, or what comes back is refused or empty, there is no completion. A message that is
too deep is a failure. Otherwise the completion is looked for in the message. -/
theorem result_complete (p : Provider) : (p.complete post prompt maxTokens depth).result =
    match p.request? prompt maxTokens with
    | none => .ok .null
    | some r => match decode depth (post r) with
      | .error e => if e = .json .tooDeep then .error e else .ok .null
      | .ok message =>
        if message.holds then (extract p.vendor message).mapError .shape else .ok .null := by
  rw [complete]
  cases p.request? prompt maxTokens with
  | none => rfl
  | some r =>
    simp only [Traced.result_bind]
    cases decode depth (post r) with
    | error e =>
      by_cases hdeep : e = .json .tooDeep
      · subst hdeep
        rfl
      · dsimp only
        rw [if_neg hdeep]
        split
        · rename_i heq
          exact absurd (Except.error.inj heq) hdeep
        · rfl
        · contradiction
    | ok message =>
      by_cases hholds : message.holds = true
      · simp only [if_pos hholds]
        rfl
      · simp only [if_neg hholds]
        rfl

/-- Whatever is sent for a prompt, what comes back is not too deep, and it is no message, an empty one or a
readable one. -/
def Settles (p : Provider) (post : Transport) (prompt : String) (maxTokens : Int) (depth : Nat) : Prop :=
  ∀ r ∈ p.request? prompt maxTokens, decode depth (post r) ≠ .error (.json .tooDeep) ∧
    ∀ message, decode depth (post r) = .ok message → message.holds = true → readable p.vendor message = true

theorem isAnswer_complete_iff (p : Provider) :
    (∃ v, (p.complete post prompt maxTokens depth).result = .ok v ∧ v.isAnswer = true) ↔
      p.Settles post prompt maxTokens depth := by
  have hnull : ∃ v, Except.ok (ε := Failure) Data.null = .ok v ∧ v.isAnswer = true := ⟨.null, rfl, rfl⟩
  rw [result_complete, Settles]
  cases p.request? prompt maxTokens with
  | none => exact ⟨fun _ => by simp, fun _ => hnull⟩
  | some r =>
    dsimp only
    cases hdecode : decode depth (post r) with
    | error e =>
      dsimp only
      by_cases hdeep : e = .json .tooDeep
      · rw [if_pos hdeep]
        simp [hdecode, hdeep]
      · rw [if_neg hdeep]
        exact ⟨fun _ => by simp [hdecode, hdeep], fun _ => hnull⟩
    | ok message =>
      dsimp only
      by_cases hholds : message.holds = true
      · rw [if_pos hholds]
        simp only [Results.mapError_eq_ok, isAnswer_extract_iff]
        simp [hdecode, hholds]
      · rw [if_neg hholds]
        exact ⟨fun _ => by simp [hdecode, hholds], fun _ => hnull⟩

/-- A provider fails by the shape of a message or by its depth only. -/
theorem shape_of_complete_eq_error {p : Provider} {e : Failure}
    (h : (p.complete post prompt maxTokens depth).result = .error e) :
    (∃ m, e = .shape m) ∨ e = .json .tooDeep := by
  rw [result_complete] at h
  cases hrequest : p.request? prompt maxTokens with
  | none =>
    rw [hrequest] at h
    cases h
  | some r =>
    rw [hrequest] at h
    dsimp only at h
    cases hdecode : decode depth (post r) with
    | error f =>
      rw [hdecode] at h
      dsimp only at h
      split at h
      · rename_i hdeep
        cases h
        exact .inr hdeep
      · cases h
    | ok message =>
      rw [hdecode] at h
      dsimp only at h
      split at h
      · cases hextract : extract p.vendor message with
        | error m =>
          rw [hextract] at h
          cases h
          exact .inl ⟨m, rfl⟩
        | ok w =>
          rw [hextract] at h
          cases h
      · cases h

end Provider

namespace LanguageModel

variable {post : Transport} {prompt : String} {maxTokens : Int} {depth : Nat}

/-- The outcome of a model is that of its provider, where blank texts are left out and anything but a text
or null is a failure. -/
theorem result_generate (m : LanguageModel) : (m.generate post prompt maxTokens depth).result =
    (m.provider.complete post prompt maxTokens depth).result >>= fun v => match v with
      | .null => .ok none
      | .text s => .ok (if Text.blank s.toList then none else some s)
      | _ => .error (.shape .notText) := by
  rw [generate, Traced.result_bind]
  congr 1
  funext v
  cases v <;> rfl

theorem notBlank_generate_iff (m : LanguageModel) :
    (∃ a, (m.generate post prompt maxTokens depth).result = .ok a ∧ ∀ s ∈ a, Text.blank s.toList = false) ↔
      m.provider.Settles post prompt maxTokens depth := by
  rw [← Provider.isAnswer_complete_iff, result_generate]
  constructor
  · rintro ⟨a, h, -⟩
    obtain ⟨v, hv, hanswer⟩ := Results.bind_eq_ok.mp h
    refine ⟨v, hv, ?_⟩
    cases v <;> first | rfl | cases hanswer
  · rintro ⟨v, hv, hanswer⟩
    rw [hv]
    cases v with
    | null => exact ⟨none, rfl, by simp⟩
    | text s =>
      refine ⟨if Text.blank s.toList then none else some s, rfl, ?_⟩
      by_cases hblank : Text.blank s.toList = true <;> simp [hblank]
    | _ => cases hanswer

theorem shape_of_generate_eq_error {m : LanguageModel} {e : Failure}
    (h : (m.generate post prompt maxTokens depth).result = .error e) :
    (∃ x, e = .shape x) ∨ e = .json .tooDeep := by
  rw [result_generate] at h
  cases hcomplete : (m.provider.complete post prompt maxTokens depth).result with
  | error f =>
    rw [hcomplete] at h
    cases h
    exact Provider.shape_of_complete_eq_error hcomplete
  | ok v =>
    rw [hcomplete] at h
    cases v <;> cases h <;> exact .inl ⟨_, rfl⟩

/-- Whatever a service sends, a provider comes to a text or to nothing, and a model to a text that is not
blank or to nothing, exactly if no message that is there is of another shape than the vendor's completions
are read from, and none is deeper than the reader goes. All that they fail by is such a shape or depth. -/
theorem answers_iff_settles (post : Transport) (prompt : String) (maxTokens : Int) (depth : Nat) :
    (∀ p : Provider,
      ((∃ v, (p.complete post prompt maxTokens depth).result = .ok v ∧ v.isAnswer = true) ↔
        p.Settles post prompt maxTokens depth) ∧
      ∀ e, (p.complete post prompt maxTokens depth).result = .error e →
        (∃ x, e = .shape x) ∨ e = .json .tooDeep) ∧
    ∀ m : LanguageModel,
      ((∃ a, (m.generate post prompt maxTokens depth).result = .ok a ∧
          ∀ s ∈ a, Text.blank s.toList = false) ↔
        m.provider.Settles post prompt maxTokens depth) ∧
      ∀ e, (m.generate post prompt maxTokens depth).result = .error e →
        (∃ x, e = .shape x) ∨ e = .json .tooDeep :=
  ⟨fun p => ⟨p.isAnswer_complete_iff, fun _ => Provider.shape_of_complete_eq_error⟩,
    fun m => ⟨m.notBlank_generate_iff, fun _ => shape_of_generate_eq_error⟩⟩

/-- A service that is asked with a key, at its own address and for its own model. -/
def keyed : LanguageModel := ⟨"openai", .text "", .text "key", .text ""⟩

/-- A message with no choices settles a prompt. One with null for its choices does not, nor does one with a
list in a list for a reader that goes into one list. -/
theorem answers_iff_settles_choices :
    keyed.provider.Settles (fun _ => .response 200 "\x7b\"choices\": []\x7d") "hi" 1024 2 ∧
      ¬keyed.provider.Settles (fun _ => .response 200 "\x7b\"choices\": null\x7d") "hi" 1024 2 ∧
      ¬keyed.provider.Settles (fun _ => .response 200 "[[]]") "hi" 1024 1 := by
  refine ⟨?_, fun hsettles => ?_, fun hsettles => ?_⟩
  · have hnone : (keyed.generate (fun _ => .response 200 "\x7b\"choices\": []\x7d") "hi" 1024 2).result =
        .ok none := by cbv
    exact ((answers_iff_settles _ _ _ _).2 keyed).1.mp ⟨none, hnone, by simp⟩
  · have hfails : (keyed.generate (fun _ => .response 200 "\x7b\"choices\": null\x7d") "hi" 1024 2).result =
        .error (.shape .notIndexable) := by cbv
    obtain ⟨a, ha, -⟩ := ((answers_iff_settles _ _ _ _).2 keyed).1.mpr hsettles
    rw [hfails] at ha
    cases ha
  · have hfails : (keyed.generate (fun _ => .response 200 "[[]]") "hi" 1024 1).result =
        .error (.json .tooDeep) := by cbv
    obtain ⟨a, ha, -⟩ := ((answers_iff_settles _ _ _ _).2 keyed).1.mpr hsettles
    rw [hfails] at ha
    cases ha

/-- A service may send null for the list of its choices, and neither the provider nor the model comes to
anything then. -/
theorem fails_of_null_choices :
    (keyed.provider.complete (fun _ => .response 200 "\x7b\"choices\": null\x7d") "hi" 1024).result =
        .error (.shape .notIndexable) ∧
      (keyed.generate (fun _ => .response 200 "\x7b\"choices\": null\x7d") "hi" 1024).result =
        .error (.shape .notIndexable) := by
  constructor <;> cbv

end LanguageModel

end OutlineIndex
