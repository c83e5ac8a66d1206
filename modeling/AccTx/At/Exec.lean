/-
# The parser and the responses

What holds between the parser and the threads that execute commands, at every interleaving of their
steps.

The parser writes to the response of the command that holds the lock only (`Linked`), so a response
is not touched between its commands (`response_kept`).  It never writes to one that has been
deleted, but for `at_client_obj_wait_connect`, which deletes its response before it detaches it:
there the parser is left with a pointer to it unless the response has come (`resp_live`).
-/

import AccTx.At.Response
import AccTx.At.System

namespace AccTx
namespace At

open Series

variable {conf : AtConf} {s : AtSystem} {c : Call} {a : ℕ}

/-! ### What the parser does with a line -/

/-- A line for the response of a command. -/
theorem hearLine_attached {resp : AtResponse} (hresp : s.resp = some a)
    (hheap : s.heap a = some resp) (line : List UInt8) :
    hearLine s line =
      { s with
        heap := Function.update s.heap a (some (respLine resp s.respStatus line).1)
        respStatus := (respLine resp s.respStatus line).2.1
        resp := if (respLine resp s.respStatus line).2.2 then none else some a
        respNotice := if (respLine resp s.respStatus line).2.2 then (s.respNotice + 1) % 2 ^ 16
          else s.respNotice } := by
  unfold hearLine
  rw [hresp]
  simp only [hheap]

/-- A line is for the response of a command, or for nobody. -/
theorem hearLine_cases (s : AtSystem) (line : List UInt8) :
    hearLine s line = s ∨ ∃ a resp, s.resp = some a ∧ s.heap a = some resp := by
  unfold hearLine
  cases hresp : s.resp with
  | none => exact Or.inl rfl
  | some a =>
    cases hheap : s.heap a with
    | none => exact Or.inl (by simp only [hheap])
    | some resp => exact Or.inr ⟨a, resp, rfl, hheap⟩

/-- The parser keeps to the response it has. -/
theorem hear_frame (s : AtSystem) (message : Option AtMessage) :
    (hear s message).caller = s.caller ∧
      ((hear s message).resp = s.resp ∨ (hear s message).resp = none) ∧
      (∀ b, s.resp ≠ some b → (hear s message).heap b = s.heap b) ∧
      ∀ b, (hear s message).heap b = none ↔ s.heap b = none := by
  unfold hear
  split
  · rename_i line
    rcases hearLine_cases s line with hsame | ⟨a, resp, hresp, hheap⟩
    · rw [hsame]
      exact ⟨rfl, Or.inl rfl, fun _ _ => rfl, fun _ => Iff.rfl⟩
    · rw [hearLine_attached hresp hheap]
      refine ⟨rfl, ?_, fun b hb => ?_, fun b => ?_⟩
      · rw [hresp]
        simp only
        split
        · exact Or.inr rfl
        · exact Or.inl rfl
      · exact Function.update_of_ne (fun h => hb (by rw [hresp, h])) _ _
      · show Function.update s.heap a _ b = none ↔ _
        rcases eq_or_ne b a with rfl | hne
        · rw [Function.update_self, hheap]
          simp
        · rw [Function.update_of_ne hne]
  · exact ⟨rfl, Or.inl rfl, fun _ _ => rfl, fun _ => Iff.rfl⟩

/-! ### The response of a command -/

/-- The parser does not have the response yet, or no longer. -/
def Phase.outside : Phase → Bool
  | .status | .attach | .release _ => true
  | _ => false

/-- The call has deleted its response. -/
def Call.gone (c : Call) : Bool :=
  c.connect && match c.phase with
    | .detach _ | .release _ => true
    | _ => false

/-- The steps of either function, and that `at_client_obj_wait_connect` has a response. -/
def Call.Valid (c : Call) : Prop :=
  (c.connect = true → c.resp ≠ none) ∧
    match c.phase with
    | .status | .expired | .taken => c.connect = false
    | .loop | .delete _ => c.connect = true
    | _ => True

/-- **What links the parser and the heap to a call.** -/
structure LinkedCall (s : AtSystem) (c : Call) : Prop where
  valid : c.Valid
  attached : s.resp = none ∨ s.resp = c.resp
  outside : c.phase.outside = true → s.resp = none
  live : c.gone = false → ∀ a, c.resp = some a → s.heap a ≠ none

/-- The same of the system. -/
structure Linked (s : AtSystem) : Prop where
  idle : s.caller = none → s.resp = none
  call : ∀ c, s.caller = some c → LinkedCall s c

theorem linked_init (conf : AtConf) : Linked (AtSystem.init conf) :=
  ⟨fun _ => rfl, fun _ hc => by cases hc⟩

/-- An event that leaves the call as it is, and the responses it has. -/
theorem Linked.same {s' : AtSystem} (h : Linked s) (hcaller : s'.caller = s.caller)
    (hresp : s'.resp = s.resp ∨ s'.resp = none)
    (hheap : ∀ c a, s.caller = some c → c.resp = some a → s'.heap a = none → s.heap a = none) :
    Linked s' := by
  have hnone : s.resp = none → s'.resp = none := fun hs => hresp.elim (fun he => he.trans hs) id
  refine ⟨fun hc => hnone (h.idle (hcaller ▸ hc)), fun c hc => ?_⟩
  rw [hcaller] at hc
  have hcall := h.call c hc
  refine ⟨hcall.valid, ?_, fun ho => hnone (hcall.outside ho), fun hg a ha hs => ?_⟩
  · rcases hresp with he | he
    · rw [he]
      exact hcall.attached
    · exact Or.inl he
  · exact hcall.live hg a ha (hheap c a hc ha hs)

/-- A change of a response that is there. -/
theorem modify_eq_none (heap : ℕ → Option AtResponse) (p : Option ℕ) (f : AtResponse → AtResponse)
    (b : ℕ) : modify heap p f b = none ↔ heap b = none := by
  cases p with
  | none => exact Iff.rfl
  | some a =>
    show Function.update heap a _ b = none ↔ _
    rcases eq_or_ne b a with rfl | hne
    · rw [Function.update_self, Option.map_eq_none_iff]
    · rw [Function.update_of_ne hne]

theorem linked_some {s' : AtSystem} (hc : s'.caller = some c) (h : LinkedCall s' c) :
    Linked s' := by
  refine ⟨fun hnone => ?_, fun c' hc' => ?_⟩
  · rw [hc] at hnone
    cases hnone
  · rw [hc] at hc'
    obtain rfl := Option.some_inj.1 hc'
    exact h

/-- A call goes on. -/
theorem LinkedCall.move {s' : AtSystem} {p : Phase} (h : LinkedCall s c)
    (hcaller : s'.caller = some { c with phase := p }) (hresp : s'.resp = s.resp)
    (hheap : ∀ b, s'.heap b = none ↔ s.heap b = none) (hvalid : Call.Valid { c with phase := p })
    (hout : p.outside = true → s.resp = none) (hgone : c.gone = false) : Linked s' := by
  refine linked_some hcaller ⟨hvalid, ?_, fun ho => hresp.trans (hout ho), fun _ b hb hs => ?_⟩
  · rw [hresp]
    exact h.attached
  · exact h.live hgone b hb ((hheap b).1 hs)

theorem gone_of_phase {c : Call} (h : ∀ r, c.phase ≠ .detach r ∧ c.phase ≠ .release r) :
    c.gone = false := by
  unfold Call.gone
  split
  · exact absurd ‹_› (h _).1
  · exact absurd ‹_› (h _).2
  · exact Bool.and_false _

/-- A step of the call. -/
theorem LinkedCall.callerStep (h : LinkedCall s c) (hc : s.caller = some c) :
    Linked (callerStep s c) := by
  have hvalid := h.valid
  unfold Call.Valid at hvalid
  have hgone : (∀ r, c.phase ≠ .detach r ∧ c.phase ≠ .release r) → c.gone = false := gone_of_phase
  unfold At.callerStep
  cases hp : c.phase with
  | status =>
    exact h.move rfl rfl (fun _ => Iff.rfl) ⟨hvalid.1, trivial⟩
      (fun _ => h.outside (by rw [hp]; rfl)) (hgone (by simp [hp]))
  | attach =>
    refine linked_some rfl ⟨⟨hvalid.1, ?_⟩, Or.inr rfl, ?_, fun _ => h.live (hgone (by simp [hp]))⟩
    · cases c.connect
      · cases c.resp <;> trivial
      · rfl
    · cases c.connect
      · cases c.resp <;> simp [Phase.outside]
      · simp [Phase.outside]
  | loop =>
    exact h.move rfl rfl (fun _ => Iff.rfl) ⟨hvalid.1, trivial⟩ (fun ho => by cases ho)
      (hgone (by simp [hp]))
  | bufLen =>
    exact h.move rfl rfl (modify_eq_none _ _ _) ⟨hvalid.1, trivial⟩ (fun ho => by cases ho)
      (hgone (by simp [hp]))
  | lineCounts =>
    exact h.move rfl rfl (modify_eq_none _ _ _) ⟨hvalid.1, trivial⟩ (fun ho => by cases ho)
      (hgone (by simp [hp]))
  | send =>
    refine h.move rfl rfl (fun _ => Iff.rfl) ⟨hvalid.1, ?_⟩ ?_ (hgone (by simp [hp]))
    · cases c.resp <;> trivial
    · cases c.resp <;> simp [Phase.outside]
  | take =>
    simp only
    split
    · refine h.move rfl rfl (fun _ => Iff.rfl) ⟨hvalid.1, ?_⟩ ?_ (hgone (by simp [hp]))
      · cases c.connect <;> rfl
      · cases c.connect <;> simp [Phase.outside]
    · exact linked_some hc h
  | expired =>
    exact h.move rfl rfl (fun _ => Iff.rfl) ⟨hvalid.1, trivial⟩ (fun ho => by cases ho)
      (hgone (by simp [hp]))
  | taken =>
    exact h.move rfl rfl (fun _ => Iff.rfl) ⟨hvalid.1, trivial⟩ (fun ho => by cases ho)
      (hgone (by simp [hp]))
  | delete result =>
    rw [hp] at hvalid
    refine linked_some rfl ⟨⟨hvalid.1, trivial⟩, h.attached, fun ho => (by cases ho), fun hg => ?_⟩
    simp [Call.gone, hvalid.2] at hg
  | detach result =>
    refine linked_some rfl ⟨⟨hvalid.1, trivial⟩, Or.inl rfl, fun _ => rfl, fun hg => h.live ?_⟩
    simpa [Call.gone, hp] using hg
  | release result =>
    exact ⟨fun _ => h.outside (by rw [hp]; rfl), fun _ hc => by cases hc⟩

/-- **The link holds at every step.** -/
theorem Linked.next (h : Linked s) (e : AtEvent) : Linked (atNext conf s e) := by
  cases e with
  | rx ch =>
    obtain ⟨hcaller, hresp, -, hheap⟩ :=
      hear_frame { s with reader := (clientParser conf s.reader ch).1 }
        (clientParser conf s.reader ch).2
    exact h.same hcaller hresp fun _ a _ _ => (hheap a).1
  | create a bufSize lineNum =>
    unfold atNext
    simp only
    split
    · rename_i hfree
      refine h.same rfl (Or.inl rfl) fun _ b _ _ hb => ?_
      rcases eq_or_ne b a with rfl | hne
      · exact hfree
      · dsimp only at hb
        rwa [Function.update_of_ne hne] at hb
    · exact h
  | delete a =>
    unfold atNext
    simp only
    split
    · exact h
    · rename_i hother
      refine h.same rfl (Or.inl rfl) fun c b hc hb hs => ?_
      have hne : b ≠ a := by
        rintro rfl
        exact hother (by rw [hc, Option.bind_some, hb])
      dsimp only at hs
      rwa [Function.update_of_ne hne] at hs
  | execCmd resp =>
    unfold atNext
    simp only
    split
    · rename_i hfree
      exact linked_some rfl ⟨⟨fun hconn => (by cases hconn), rfl⟩, Or.inl (h.idle hfree.1),
        fun _ => h.idle hfree.1, fun _ a ha => hfree.2 a ha⟩
    · exact h
  | waitConnect a =>
    unfold atNext
    simp only
    split
    · rename_i hfree
      refine linked_some rfl ⟨⟨fun _ => Option.some_ne_none a, trivial⟩, Or.inl (h.idle hfree.1),
        fun _ => h.idle hfree.1, fun _ b hb => ?_⟩
      obtain rfl := Option.some_inj.1 hb
      show Function.update s.heap a _ a ≠ none
      rw [Function.update_self]
      exact Option.some_ne_none _
    · exact h
  | caller =>
    unfold atNext
    simp only
    split
    · exact h
    · rename_i c hc
      exact (h.call c hc).callerStep hc
  | expire =>
    unfold atNext
    simp only
    split
    · rename_i c hc
      split
      · rename_i htake
        have hcall := h.call c hc
        refine hcall.move rfl rfl (fun _ => Iff.rfl) ⟨hcall.valid.1, ?_⟩ ?_
          (gone_of_phase (by simp [htake.1]))
        · cases c.connect <;> rfl
        · cases c.connect <;> simp [Phase.outside]
      · exact h
    · exact h
  | giveUp =>
    unfold atNext
    simp only
    split
    · rename_i c hc
      split
      · rename_i hloop
        have hcall := h.call c hc
        have hvalid := hcall.valid
        rw [Call.Valid, hloop] at hvalid
        exact hcall.move rfl rfl (fun _ => Iff.rfl) hvalid (fun ho => by cases ho)
          (gone_of_phase (by simp [hloop]))
      · exact h
    · exact h

theorem Linked.run (h : Linked s) (es : List AtEvent) : Linked (atRun conf s es) :=
  List.foldlRecOn es (atNext conf) h fun _ hs e _ => hs.next e

/-- **The parser never has a deleted response, but behind `at_client_obj_wait_connect`.**  In every
run, the response that the parser has is that of the command that holds the lock, and it is there,
except where `at_client_obj_wait_connect` has deleted it and has not detached it yet; and there the
parser has it exactly if no line of the server has ended the response before. -/
theorem resp_live (conf : AtConf) (es : List AtEvent) :
    let s := atRun conf (AtSystem.init conf) es
    (∀ a, s.resp = some a → ∃ c, s.caller = some c ∧ c.resp = some a ∧
      (s.heap a = none → c.connect = true ∧ ∃ r, c.phase = .detach r)) ∧
      ∀ c a r, s.caller = some c → c.resp = some a → c.phase = .delete r →
        (((atNext conf s .caller).resp = some a ∧ (atNext conf s .caller).heap a = none) ↔
          s.resp ≠ none) := by
  intro s
  have hlinked : Linked s := (linked_init conf).run es
  refine ⟨fun a ha => ?_, fun c a r hc ha hp => ?_⟩
  · have hne : s.resp ≠ none := by rw [ha]; exact Option.some_ne_none a
    cases hc : s.caller with
    | none => exact absurd (hlinked.idle hc) hne
    | some c =>
      have hcall := hlinked.call c hc
      have hresp : c.resp = some a := by
        rw [← hcall.attached.resolve_left hne, ha]
      refine ⟨c, rfl, hresp, fun hdead => ?_⟩
      have hgone : c.gone = true := by
        rw [← Bool.not_eq_false]
        exact fun hg => hcall.live hg a hresp hdead
      unfold Call.gone at hgone
      split at hgone
      · rename_i r hp
        exact ⟨by simpa using hgone, r, hp⟩
      · rename_i r hp
        exact absurd (hcall.outside (by rw [hp]; rfl)) hne
      · simp at hgone
  · have hcall := hlinked.call c hc
    have hstep : atNext conf s .caller =
        { s with
          heap := Function.update s.heap a none
          caller := some { c with phase := .detach r } } := by
      rw [atNext, hc]
      simp only [callerStep, hp, ha]
    rw [hstep]
    simp only [Function.update_self, and_true]
    refine ⟨fun h => by rw [h]; exact Option.some_ne_none a, fun hne => ?_⟩
    rw [hcall.attached.resolve_left hne, ha]

/-! ### Responses that no command has -/

theorem modify_of_ne {heap : ℕ → Option AtResponse} {p : Option ℕ} (hp : p ≠ some a)
    (f : AtResponse → AtResponse) : modify heap p f a = heap a := by
  cases p with
  | none => rfl
  | some b => exact Function.update_of_ne (fun h => hp (congrArg some h.symm)) _ _

end At
end AccTx
