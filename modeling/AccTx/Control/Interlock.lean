/-
# The load interlock

`in_sts_update` writes what the pins read into the low bits of `ms_status`, and
`power_en_opt` reads the bit `GBM_LOAD` of it to refuse the output while a load is
detected.  The two disagree on the bits: the numbering of `sys_def.h` has `GBM_POUT` at
2 and `GBM_LOAD` at 3, `in_sts_update` puts `STS_LOAD_DET` at 2 and `out_en` at 3.  So
`power_en_opt` tests whether the output was on at the last poll.

Two laws break by it.  A load does not keep the output from being switched on:
`interlock_iff` says at which requests it matters.  And a power-on request with a poll
between it and the one before switches the output off: `power_on_takes_effect_iff` says
which orders of requests and polls are free of that.
-/

import AccTx.Control.Outputs
import AccTx.Control.Range
import Mathlib.Data.List.Induction

namespace AccTx
namespace Control

open Firmware Effect

/-- `GBM_POUT` of `sys_def.h`, where `in_sts_update` puts `STS_LOAD_DET`. -/
def GBM_POUT : ℕ := 2

variable {m m' : Machine} {startOk : List Call → Bool}

/-! ### The status word -/

theorem msBit_eq (st : Status) (k : ℕ) : st.msBit k = (st.msStatus.testBit k).toNat := by
  rw [Nat.toNat_testBit, Status.msBit, Nat.and_one_is_mod, Nat.shiftRight_eq_div_pow]

/-- A bit is zero or one. -/
theorem msBit_cases (st : Status) (k : ℕ) : st.msBit k = 0 ∨ st.msBit k = 1 := by
  rw [msBit_eq]
  cases st.msStatus.testBit k with
  | false => exact Or.inl rfl
  | true => exact Or.inr rfl

/-- A poll puts the load level where `GBM_POUT` is. -/
theorem afterPoll_pout (pins : StsPins) (m : Machine) :
    (m.afterPoll pins).stat.msBit GBM_POUT = pins.loadDet.toNat := by
  rw [msBit_eq, Machine.afterPoll, GBM_POUT]
  simp only [Nat.testBit_or, Nat.testBit_and, Nat.testBit_shiftLeft]
  cases pins.gprs <;> cases pins.link1 <;> cases pins.loadDet <;>
    simp [Level.toNat, Nat.testBit_succ]

/-- A poll puts the output enable where `GBM_LOAD` is. -/
theorem afterPoll_load (pins : StsPins) (hm : m.stat.outEn = 0 ∨ m.stat.outEn = 1) :
    (m.afterPoll pins).stat.msBit GBM_LOAD = m.stat.outEn := by
  rw [msBit_eq, Machine.afterPoll, GBM_LOAD]
  simp only [Nat.testBit_or, Nat.testBit_and, Nat.testBit_shiftLeft]
  rcases hm with h | h <;> rw [h] <;>
    cases pins.gprs <;> cases pins.link1 <;> cases pins.loadDet <;>
      simp [Level.toNat, Nat.testBit_succ]

/-- Nothing but a poll writes the status word. -/
theorem msStatus_step (hm : Live m) {e : Event} (he : (step (quiet startOk) e).run m = .ok () m')
    (hpoll : ∀ pins, e ≠ .poll pins) : m'.stat.msStatus = m.stat.msStatus := by
  have hfreq : ∀ d (m : Machine), (m.afterFreq startOk d).stat.msStatus = m.stat.msStatus :=
    fun d m => freqSelect_msStatus m.conf d m.stat
  cases e with
  | write regAddr wrData =>
    obtain ⟨conf, rfl⟩ := step_write_leaves hm he
    exact afterPassed_keeps (·.stat.msStatus) (fun _ _ => rfl) hfreq (fun _ _ => rfl)
      (fun _ _ => rfl) regAddr wrData m
  | _ =>
    exact step_rule (fun _ _ hs h => hs.msStatus.trans h) hm (by simp) he
      (fun pinId _ => afterPbEvt_keeps (·.stat.msStatus) (fun _ _ => rfl) hfreq (fun _ _ => rfl)
        pinId m)
      (fun pins hp => absurd hp (hpoll pins)) (fun _ => rfl) fun _ => rfl

/-! ### The output is switched on -/

/-- The load level a poll sees. -/
def polledLoad : Event → Option Level
  | .poll pins => some pins.loadDet
  | _ => none

/-- The load level seen by the last poll of a run. -/
def lastLoad (es : List Event) : Option Level := es.reverse.findSome? polledLoad

/-- A step that switches the output on after a poll finds the level of that poll low. -/
def Interlocked (es : List Event) (_ : Event) (m m' : Machine) : Prop :=
  m.stat.outEn = 0 → m'.stat.outEn = 1 → ∀ l, lastLoad es = some l → l = .low

/-- The event asks a disabled output to be switched on. -/
def RequestsPower (e : Event) (m : Machine) : Prop :=
  match e with
  | .write regAddr wrData => request regAddr wrData 0 = some 1
  | .scan pins => confirmed m.pb (pressed pins) = some .outEn
  | .button pinId => pinId = .outEn
  | _ => False

/-- A power-on request to a disabled output finds no load at the last poll, or the
output on at it. -/
def FindsNoLoad (e : Event) (m : Machine) : Prop :=
  m.stat.outEn = 0 → RequestsPower e m →
    m.stat.msBit GBM_POUT = 0 ∨ m.stat.msBit GBM_LOAD = 1

theorem lastLoad_concat (es : List Event) (e : Event) :
    lastLoad (es ++ [e]) = (polledLoad e).or (lastLoad es) := by
  rw [lastLoad, List.reverse_append, List.reverse_singleton, List.singleton_append,
    List.findSome?_cons]
  cases polledLoad e <;> rfl

/-- **The bit at `GBM_POUT` is the load level of the last poll.** -/
theorem pout_of_run {es : List Event} (h : (run (step (quiet startOk)) es).run boot = .ok () m) :
    m.stat.msBit GBM_POUT = ((lastLoad es).map Level.toNat).getD 0 := by
  induction es using List.reverseRecOn generalizing m with
  | nil =>
    simp only [run_nil, EStateM.Result.ok.injEq, true_and] at h
    exact h ▸ rfl
  | append_singleton es e ih =>
    obtain ⟨m₁, h₁, he⟩ := run_concat_ok.1 h
    have hm : InRange m₁ := inRange_of_reachable ⟨es, h₁⟩
    rw [lastLoad_concat]
    by_cases hpoll : ∃ pins, e = .poll pins
    · obtain ⟨pins, rfl⟩ := hpoll
      rw [show m = m₁.afterPoll pins from step_spec hm.live he, afterPoll_pout]
      rfl
    · have hms := msStatus_step hm.live he fun pins hp => hpoll ⟨pins, hp⟩
      have hnone : polledLoad e = none := by
        cases e with
        | poll pins => exact absurd ⟨pins, rfl⟩ hpoll
        | _ => rfl
      rw [hnone, Option.none_or, ← ih h₁, Status.msBit, Status.msBit, hms]

/-- **What switches the output on**: a power-on request, unless the bit at `GBM_LOAD`
is set. -/
theorem switches_on_iff (hm : InRange m) (hoff : m.stat.outEn = 0) {e : Event}
    (he : (step (quiet startOk) e).run m = .ok () m') :
    m'.stat.outEn = 1 ↔ RequestsPower e m ∧ m.stat.msBit GBM_LOAD = 0 := by
  have hne : ¬m.stat.outEn = 1 := by omega
  have hbutton : ∀ pinId, (m.afterPbEvt startOk pinId).stat.outEn = 1 ↔
      pinId = .outEn ∧ m.stat.msBit GBM_LOAD = 0 := by
    intro pinId
    rcases afterPbEvt_cases startOk pinId m with ⟨rfl, heq⟩ | ⟨hpin, _, heq⟩ | ⟨_, hon, _⟩ |
      ⟨_, hon, _⟩
    · rw [heq, if_pos hoff]
      simp [Machine.afterPowerEn, Grants]
    · rw [heq]
      exact iff_of_false hne fun h => hpin h.1
    · exact absurd hoff hon
    · exact absurd hoff hon
  by_cases hw : ∃ regAddr wrData, e = .write regAddr wrData
  · obtain ⟨regAddr, wrData, rfl⟩ := hw
    have hout : m'.stat.outEn = outEnAt regAddr wrData m.stat := by
      obtain ⟨conf, rfl⟩ := step_write_leaves hm.live he
      simp only [afterPassed_stat]
    rw [hout, outEnAt, RequestsPower]
    cases request regAddr wrData 0 with
    | none => exact iff_of_false hne (by simp)
    | some d =>
      rw [Option.some.injEq]
      show (if Grants d m.stat then 1 else 0) = 1 ↔ Grants d m.stat
      by_cases hg : Grants d m.stat <;> simp [hg]
  · have hne' : ∀ regAddr wrData, e ≠ .write regAddr wrData := fun a ds h => hw ⟨a, ds, h⟩
    have hreq : RequestsPower e m ↔ presses m e = some .outEn := by
      cases e with
      | write regAddr wrData => exact absurd rfl (hne' regAddr wrData)
      | _ => simp [RequestsPower, presses]
    rw [hreq]
    refine step_rule (I := fun m' => m'.stat.outEn = 1 ↔
      presses m e = some .outEn ∧ m.stat.msBit GBM_LOAD = 0) (fun m₁ m₂ hs h => ?_) hm.live hne' he
      (fun pinId hp => ?_) (fun pins he => ?_) (fun he => ?_) fun hp => ?_
    · rwa [hs.outEn]
    · rw [hp, Option.some.injEq]
      exact hbutton pinId
    · exact iff_of_false hne (by simp [he, presses])
    · exact iff_of_false hne (by simp [he, presses])
    · exact iff_of_false hne (by simp [hp])

/-- **The load interlock.**  Every step of a run that switches the output on after a
poll finds the level of that poll low, exactly when every power-on request to the
disabled output finds no load at the last poll, or the output on at it. -/
theorem interlock_iff (startOk : List Call → Bool) (es : List Event) :
    Along (step (quiet startOk)) Interlocked es boot ↔
      Guarded (step (quiet startOk)) FindsNoLoad es boot := by
  refine along_congr fun es₁ e m m' hrun he => ?_
  have hm : InRange m := inRange_of_reachable ⟨es₁, hrun⟩
  have hpout := pout_of_run hrun
  constructor
  · intro hint hoff hreq
    rcases msBit_cases m.stat GBM_LOAD with hload | hload
    · have hon := (switches_on_iff hm hoff he).2 ⟨hreq, hload⟩
      refine Or.inl ?_
      cases hl : lastLoad es₁ with
      | none => rw [hpout, hl]; rfl
      | some l => rw [hpout, hl, hint hoff hon l hl]; rfl
    · exact Or.inr hload
  · intro hfind hoff hon l hl
    obtain ⟨hreq, hload⟩ := (switches_on_iff hm hoff he).1 hon
    have hzero : m.stat.msBit GBM_POUT = 0 := by
      rcases hfind hoff hreq with h | h
      · exact h
      · omega
    rw [hpout, hl] at hzero
    cases l with
    | low => rfl
    | high => cases hzero

/-- A poll sees the load, and the next power-on request switches the output on. -/
theorem switched_on_with_load :
    ¬Along (step hal) Interlocked [.poll ⟨.low, .low, .high⟩, .write 0 [1]] boot := by
  intro h
  have hm : InRange (boot.afterPoll ⟨.low, .low, .high⟩) :=
    inRange_boot.congr rfl rfl rfl rfl rfl rfl rfl
  have hw := @step_write_accepted (fun _ => true) _ hm.live 0 [1] (by decide) (by decide)
  have hl := h [.poll ⟨.low, .low, .high⟩] (.write 0 [1]) [] _ _ rfl rfl hw rfl rfl .high rfl
  cases hl

/-! ### The output is asked to be on again -/

/-- A power-on request by the register map, or a poll. -/
inductive Order
  | powerOn
  | poll (pins : StsPins)
  deriving DecidableEq

def Order.event : Order → Event
  | .powerOn => .write 0 [1]
  | .poll pins => .poll pins

/-- A power-on request that is accepted leaves the output enabled and the timer
running. -/
def TakesEffect (_ : List Event) (e : Event) (m _ : Machine) : Prop :=
  e = .write 0 [1] → ∀ m', (regMapWrite hal 0 [1]).run m = .ok .noErr m' →
    m'.stat.outEn = 1 ∧ m'.timer.running = true

/-- The first power-on request finds the bit at `GBM_LOAD` clear, which is `out_en` once
there is a poll before it, and no poll stands between two power-on requests. -/
structure Undisturbed (os : List Order) (m : Machine) : Prop where
  first : os.head? = some .powerOn → m.stat.msBit GBM_LOAD = 0
  polled : ∀ pins, os.head? = some (.poll pins) → .powerOn ∈ os → m.stat.outEn = 0
  between : ∀ pins, ¬[.powerOn, .poll pins, .powerOn].Sublist os

/-- The machine after an accepted power-on request. -/
def afterPowerOn (m : Machine) : Machine :=
  { m.afterPowerEn (fun _ => true) 1 with conf := storeAll 0 [1] m.conf }

theorem powerOn_run (hm : InRange m) :
    (regMapWrite hal 0 [1]).run m = .ok .noErr (afterPowerOn m) :=
  regMapWrite_accepted hm.live (by decide) (by decide)

theorem powerOn_step (hm : InRange m) :
    (step hal (.write 0 [1])).run m = .ok () (afterPowerOn m) :=
  step_write_run (powerOn_run hm)

theorem afterPowerOn_takesEffect (m : Machine) :
    (afterPowerOn m).stat.outEn = 1 ∧ (afterPowerOn m).timer.running = true ↔
      m.stat.msBit GBM_LOAD = 0 := by
  unfold afterPowerOn Machine.afterPowerEn
  by_cases h : m.stat.msBit GBM_LOAD = 0
  · simp [Grants, h, Machine.startTimer]
  · simp [Grants, h]

/-- After a power-on request a poll must be followed by no other. -/
theorem not_sublist_powerOn_cons {os : List Order} :
    (∀ pins, ¬[.powerOn, .poll pins, .powerOn].Sublist (.powerOn :: os)) ↔
      (∀ pins, os.head? = some (.poll pins) → .powerOn ∉ os) ∧
        ∀ pins, ¬[.powerOn, .poll pins, .powerOn].Sublist os := by
  simp only [List.cons_sublist_cons]
  constructor
  · intro h
    refine ⟨fun pins hhead hmem => ?_, fun pins hsub => h pins (List.sublist_of_cons_sublist hsub)⟩
    obtain ⟨os', rfl⟩ := List.head?_eq_some_iff.1 hhead
    have hmem' : Order.powerOn ∈ os' := by simpa using hmem
    exact h pins ((List.singleton_sublist.2 hmem').cons_cons _)
  · rintro ⟨hhead, hbetween⟩ pins hsub
    cases os with
    | nil => simp at hsub
    | cons o os =>
      cases o with
      | powerOn =>
        have hsub' : [Order.poll pins, .powerOn].Sublist os := by
          simpa [List.sublist_cons_iff] using hsub
        exact hbetween pins (hsub'.cons_cons _)
      | poll pins' =>
        exact hhead pins' rfl (hsub.subset (by simp))

/-- **One order more.**  A power-on request takes effect where the bit at `GBM_LOAD` is
clear, and leaves it clear under an enabled output. -/
theorem undisturbed_powerOn {os : List Order} :
    Undisturbed (.powerOn :: os) m ↔
      m.stat.msBit GBM_LOAD = 0 ∧ Undisturbed os (afterPowerOn m) := by
  have hms : (afterPowerOn m).stat.msBit GBM_LOAD = m.stat.msBit GBM_LOAD := rfl
  constructor
  · rintro ⟨hfirst, -, hbetween⟩
    have hclear := hfirst rfl
    obtain ⟨hhead, hbetween⟩ := not_sublist_powerOn_cons.1 hbetween
    refine ⟨hclear, fun _ => hms.trans hclear, fun pins h hmem => ?_, hbetween⟩
    exact absurd hmem (hhead pins h)
  · rintro ⟨hclear, -, hpolled, hbetween⟩
    refine ⟨fun _ => hclear, fun pins h => ?_, not_sublist_powerOn_cons.2 ⟨?_, hbetween⟩⟩
    · simp at h
    · intro pins hhead hmem
      have hon := ((afterPowerOn_takesEffect m).2 hclear).1
      have hoff := hpolled pins hhead hmem
      omega

/-- A poll moves `out_en` to the bit at `GBM_LOAD`. -/
theorem undisturbed_poll (hm : InRange m) {pins : StsPins} {os : List Order} :
    Undisturbed (.poll pins :: os) m ↔ Undisturbed os (m.afterPoll pins) := by
  have hload := afterPoll_load pins hm.outEn
  have hsub : ∀ pins', [Order.powerOn, .poll pins', .powerOn].Sublist (.poll pins :: os) ↔
      [Order.powerOn, .poll pins', .powerOn].Sublist os := by
    intro pins'
    simp [List.sublist_cons_iff]
  constructor
  · rintro ⟨-, hpolled, hbetween⟩
    have hoff : Order.powerOn ∈ os → m.stat.outEn = 0 := fun h =>
      hpolled pins rfl (List.mem_cons_of_mem _ h)
    refine ⟨fun hhead => ?_, fun _ _ hmem => hoff hmem, fun pins' h => ?_⟩
    · exact hload.trans (hoff (List.mem_of_mem_head? hhead))
    · exact hbetween pins' ((hsub pins').2 h)
  · rintro ⟨hfirst, hpolled, hbetween⟩
    refine ⟨fun h => ?_, fun _ _ hmem => ?_, fun pins' h => hbetween pins' ((hsub pins').1 h)⟩
    · simp at h
    · have hmem : Order.powerOn ∈ os := by simpa using hmem
      cases os with
      | nil => simp at hmem
      | cons o os =>
        cases o with
        | powerOn => exact hload.symm.trans (hfirst rfl)
        | poll pins' => exact hpolled pins' rfl hmem

theorem along_takesEffect_iff (hm : InRange m) (os : List Order) :
    Along (step hal) TakesEffect (os.map Order.event) m ↔ Undisturbed os m := by
  induction os generalizing m with
  | nil =>
    refine iff_of_true along_nil ⟨fun h => ?_, fun pins h => ?_, fun pins h => ?_⟩ <;> simp at h
  | cons o os ih =>
    rw [List.map_cons, along_cons]
    cases o with
    | powerOn =>
      have hrun := powerOn_step hm
      have hm' : InRange (afterPowerOn m) := inRange_step _ m _ hm hrun
      rw [undisturbed_powerOn, ← ih hm', ← afterPowerOn_takesEffect]
      constructor
      · intro h
        obtain ⟨htake, hrest⟩ := h _ hrun
        exact ⟨htake rfl _ (powerOn_run hm), hrest⟩
      · rintro ⟨heff, hrest⟩ m' hstep
        rw [Order.event, hrun, EStateM.Result.ok.injEq] at hstep
        obtain rfl := hstep.2
        refine ⟨fun _ m' hw => ?_, hrest⟩
        rw [powerOn_run hm, EStateM.Result.ok.injEq] at hw
        exact hw.2 ▸ heff
    | poll pins =>
      have hrun : (step hal (.poll pins)).run m = .ok () (m.afterPoll pins) := rfl
      have hm' : InRange (m.afterPoll pins) := inRange_step _ m _ hm hrun
      rw [undisturbed_poll hm, ← ih hm']
      constructor
      · intro h
        exact (h _ hrun).2
      · intro hrest m' hstep
        rw [Order.event, hrun, EStateM.Result.ok.injEq] at hstep
        obtain rfl := hstep.2
        exact ⟨fun h => Event.noConfusion h, hrest⟩

/-- **An accepted power-on request takes effect and is idempotent**, from every reachable
state, for the sequences of requests and polls in which no poll stands between two
requests and the first request finds the bit at `GBM_LOAD` clear, and for no others.
The levels the polls read do not matter. -/
theorem power_on_takes_effect_iff (m : Machine) (h : Reachable (fun _ => true) m)
    (os : List Order) :
    Along (step hal) TakesEffect (os.map Order.event) m ↔ Undisturbed os m :=
  along_takesEffect_iff (inRange_of_reachable h) os

/-- Two requests in a row from the start-up, and a poll after them. -/
theorem power_on_takes_effect_iff_boot :
    Along (step hal) TakesEffect
        ([.powerOn, .powerOn, .poll ⟨.low, .low, .low⟩].map Order.event) boot ↔
      Undisturbed [.powerOn, .powerOn, .poll ⟨.low, .low, .low⟩] boot :=
  power_on_takes_effect_iff boot ⟨[], rfl⟩ _

/-- Power on, a poll without a load, power on again: the second request switches the
output off. -/
theorem power_on_again_switches_off :
    Reachable (fun _ => true) boot ∧
      ¬Along (step hal) TakesEffect
        ([.powerOn, .poll ⟨.low, .low, .low⟩, .powerOn].map Order.event) boot := by
  refine ⟨⟨[], rfl⟩, fun h => ?_⟩
  have hund := (along_takesEffect_iff inRange_boot _).1 h
  exact hund.between _ (List.Sublist.refl _)

end Control
end AccTx
