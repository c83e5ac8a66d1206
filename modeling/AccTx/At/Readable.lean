/-
# Reading a response

`at_obj_exec_cmd` lets the parser have its response before it clears it, one field after the other,
so a line that comes in between is in the buffer and not counted, or counted and not there.  Behind
that, and whatever the parser is given, the lines counted in a response are in its buffer
(`Readable`), so reading them does not leave it (`response_readable`).
-/

import AccTx.At.Exec

namespace AccTx
namespace At

open Series

variable {conf : AtConf} {s : AtSystem} {c : Call} {a : ℕ}

/-- A command has set `buf_len` of the response to zero, and not yet its `line_counts`. -/
def Clearing (s : AtSystem) (a : ℕ) : Prop :=
  ∃ c, s.caller = some c ∧ c.resp = some a ∧ c.phase = .lineCounts

/-- The lines counted in a response are there. -/
def Readable (s : AtSystem) : Prop :=
  ∀ a resp, s.heap a = some resp →
    ∃ text, Filled resp text ∧ (Clearing s a ∨ resp.lineCounts ≤ (strings text).length)

theorem Readable.same {s' : AtSystem} (h : Readable s)
    (hheap : ∀ a resp, s'.heap a = some resp → s.heap a = some resp)
    (hclear : ∀ a, Clearing s a → Clearing s' a) : Readable s' := by
  intro a resp hresp
  obtain ⟨text, hfilled, hcounts⟩ := h a resp (hheap a resp hresp)
  exact ⟨text, hfilled, hcounts.imp_left (hclear a)⟩

/-- A new response, or a changed one. -/
theorem Readable.update {s' : AtSystem} {resp : AtResponse} {text : List UInt8} (h : Readable s)
    (hheap : s'.heap = Function.update s.heap a (some resp)) (hfilled : Filled resp text)
    (hcounts : Clearing s' a ∨ resp.lineCounts ≤ (strings text).length)
    (hclear : ∀ b, b ≠ a → Clearing s b → Clearing s' b) : Readable s' := by
  intro b r hb
  rw [hheap] at hb
  rcases eq_or_ne b a with rfl | hne
  · rw [Function.update_self] at hb
    obtain rfl := Option.some_inj.1 hb
    exact ⟨text, hfilled, hcounts⟩
  · rw [Function.update_of_ne hne] at hb
    obtain ⟨text', hfilled', hcounts'⟩ := h b r hb
    exact ⟨text', hfilled', hcounts'.imp_left (hclear b hne)⟩

theorem not_clearing (hc : s.caller = some c) (hp : c.phase ≠ .lineCounts) (a : ℕ) :
    ¬Clearing s a := by
  rintro ⟨c', hc', -, hp'⟩
  rw [hc] at hc'
  obtain rfl := Option.some_inj.1 hc'
  exact hp hp'

theorem Readable.hearLine (h : Readable s) (line : List UInt8) : Readable (hearLine s line) := by
  have hcaller : (At.hearLine s line).caller = s.caller := (hear_frame s (some (.line line))).1
  have hclear : ∀ b, Clearing s b → Clearing (At.hearLine s line) b := fun b ⟨c, hc, hrest⟩ =>
    ⟨c, hcaller.trans hc, hrest⟩
  rcases hearLine_cases s line with hsame | ⟨a, resp, hresp, hheap⟩
  · rw [hsame]
    exact h
  · obtain ⟨text, hfilled, hcounts⟩ := h a resp hheap
    obtain ⟨text', hfilled', hcounts'⟩ := hfilled.respLine s.respStatus line
    rw [hearLine_attached hresp hheap] at hclear ⊢
    exact h.update rfl hfilled' (hcounts.imp (hclear a) hcounts') fun b _ => hclear b

/-- A step of the call that leaves the responses as they are. -/
theorem Readable.move {s' : AtSystem} (h : Readable s) (hc : s.caller = some c)
    (hp : c.phase ≠ .lineCounts) (hheap : s'.heap = s.heap) : Readable s' :=
  h.same (fun a resp hr => by rwa [hheap] at hr) fun a hclear =>
    absurd hclear (not_clearing hc hp a)

theorem modify_eq_some {heap : ℕ → Option AtResponse} {p : Option ℕ}
    {f : AtResponse → AtResponse} {resp : AtResponse} (h : modify heap p f a = some resp) :
    (p = some a ∧ ∃ r, heap a = some r ∧ f r = resp) ∨ (p ≠ some a ∧ heap a = some resp) := by
  by_cases hp : p = some a
  · subst hp
    rw [modify, Function.update_self, Option.map_eq_some_iff] at h
    exact Or.inl ⟨rfl, h⟩
  · rw [modify_of_ne hp] at h
    exact Or.inr ⟨hp, h⟩

/-- A step of the call keeps what is in the responses. -/
theorem Readable.callerStep (h : Readable s) (hc : s.caller = some c) :
    Readable (callerStep s c) := by
  unfold At.callerStep
  cases hp : c.phase with
  | bufLen =>
    intro b resp hb
    rcases modify_eq_some hb with ⟨hresp, r, hr, rfl⟩ | ⟨-, hr⟩
    · obtain ⟨text, hfilled, -⟩ := h b r hr
      exact ⟨[], ⟨hfilled.size, Nat.zero_le _, rfl⟩, Or.inl ⟨_, rfl, hresp, rfl⟩⟩
    · obtain ⟨text, hfilled, hcounts⟩ := h b resp hr
      have hno : ¬Clearing s b := not_clearing hc (by rw [hp]; exact Phase.noConfusion) b
      exact ⟨text, hfilled, Or.inr (hcounts.resolve_left hno)⟩
  | lineCounts =>
    intro b resp hb
    rcases modify_eq_some hb with ⟨hresp, r, hr, rfl⟩ | ⟨hother, hr⟩
    · obtain ⟨text, hfilled, -⟩ := h b r hr
      exact ⟨text, ⟨hfilled.size, hfilled.fits, hfilled.takes⟩, Or.inr (Nat.zero_le _)⟩
    · obtain ⟨text, hfilled, hcounts⟩ := h b resp hr
      refine ⟨text, hfilled, Or.inr (hcounts.resolve_left ?_)⟩
      rintro ⟨c', hc', hresp, -⟩
      rw [hc] at hc'
      obtain rfl := Option.some_inj.1 hc'
      exact hother hresp
  | take =>
    simp only
    split
    · exact h.move hc (by rw [hp]; exact Phase.noConfusion) rfl
    · exact h
  | delete result =>
    intro b resp hb
    have hno : ¬Clearing s b := not_clearing hc (by rw [hp]; exact Phase.noConfusion) b
    have hr : s.heap b = some resp := by
      cases hresp : c.resp with
      | none =>
        simp only [hresp] at hb
        exact hb
      | some a =>
        simp only [hresp] at hb
        rcases eq_or_ne b a with rfl | hne
        · rw [Function.update_self] at hb
          cases hb
        · rwa [Function.update_of_ne hne] at hb
    obtain ⟨text, hfilled, hcounts⟩ := h b resp hr
    exact ⟨text, hfilled, Or.inr (hcounts.resolve_left hno)⟩
  | _ => exact h.move hc (by rw [hp]; exact Phase.noConfusion) rfl

theorem Readable.next (h : Readable s) (e : AtEvent) : Readable (atNext conf s e) := by
  have hidle : s.caller = none → ∀ a, ¬Clearing s a := fun hnone a ⟨c, hc, _⟩ => by
    cases hnone.symm.trans hc
  cases e with
  | rx ch =>
    have hreader : Readable { s with reader := (clientParser conf s.reader ch).1 } :=
      h.same (fun _ _ hr => hr) fun _ hb => hb
    show Readable (hear _ _)
    unfold hear
    split
    · exact hreader.hearLine _
    · exact hreader
  | create a bufSize lineNum =>
    unfold atNext
    simp only
    split
    · exact h.update rfl (stores_create bufSize lineNum).toFilled (Or.inr (Nat.zero_le _))
        fun _ _ hb => hb
    · exact h
  | delete a =>
    unfold atNext
    simp only
    split
    · exact h
    · refine h.same (fun b resp hb => ?_) fun _ hb => hb
      dsimp only at hb
      rcases eq_or_ne b a with rfl | hne
      · rw [Function.update_self] at hb
        cases hb
      · rwa [Function.update_of_ne hne] at hb
  | execCmd resp =>
    unfold atNext
    simp only
    split
    · rename_i hfree
      exact h.same (fun _ _ hr => hr) fun b hb => absurd hb (hidle hfree.1 b)
    · exact h
  | waitConnect a =>
    unfold atNext
    simp only
    split
    · rename_i hfree
      exact h.update rfl (stores_create 64 0).toFilled (Or.inr (Nat.zero_le _))
        fun b _ hb => absurd hb (hidle hfree.1 b)
    · exact h
  | caller =>
    unfold atNext
    simp only
    split
    · exact h
    · exact h.callerStep ‹_›
  | expire =>
    unfold atNext
    simp only
    split
    · rename_i c hc
      split
      · rename_i htake
        exact h.move hc (by rw [htake.1]; exact Phase.noConfusion) rfl
      · exact h
    · exact h
  | giveUp =>
    unfold atNext
    simp only
    split
    · rename_i c hc
      split
      · rename_i hloop
        exact h.move hc (by rw [hloop]; exact Phase.noConfusion) rfl
      · exact h
    · exact h

end At
end AccTx
