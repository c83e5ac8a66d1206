/-
# What one event does

`StepSpec` says of each event what a step with it leaves behind, and `step_spec`
proves it of every step that returns, from any machine on which the option
functions are defined.  `step_returns` adds that no other outcome is possible
than returning, or a reset by a write that reaches the reset register.

The control functions neither read nor drive the button registers, the output pins and
what a battery update writes (`SameControl`).  For a property of the rest `step_rule`
leaves of the events other than writes the buttons, the polls and the indicator updates.
-/

import AccTx.Control.Write

namespace AccTx
namespace Control

open Firmware Effect

/-- The machine after `pb_sts_update`. -/
def afterScan (startOk : List Call → Bool) (pins : PbPins) (m : Machine) : Machine :=
  { (match confirmed m.pb (pressed pins) with
      | none => m
      | some pinId => m.afterPbEvt startOk pinId) with
    pb := { bitmapReg := pressed pins, stageReg := nextStage m.pb (pressed pins) } }

/-- The machine after `sts_led_update`. -/
def afterLeds (m : Machine) : Machine :=
  { m with leds := { m.leds with
      sts := if m.stat.outEn ≠ 0 then .low else .high
      com := if m.stat.msBit GBM_LINK = 1 then .low else .high } }

/-- What a step with an event leaves behind. -/
def StepSpec (startOk : List Call → Bool) (m : Machine) (e : Event) (m' : Machine) : Prop :=
  match e with
  | .write regAddr wrData =>
    ¬Resets regAddr wrData ∧
      (Accepted regAddr wrData ∧
        m' = { afterPassed startOk regAddr wrData m with
          conf := storeAll regAddr wrData m.conf } ∨
      ¬Accepted regAddr wrData ∧ m' = afterPassed startOk regAddr wrData m)
  | .scan pins => m' = afterScan startOk pins m
  | .button pinId => m' = m.afterPbEvt startOk pinId
  | .poll pins => m' = m.afterPoll pins
  | .leds => m' = afterLeds m
  | .battery _ _ => SameOffBattery m m'
  | .expire => ∃ w, m' = { m with wave := w }

variable {startOk : List Call → Bool} {m m' : Machine}

theorem pbStsUpdate_run (h : Live m) (pins : PbPins) :
    (pbStsUpdate (quiet startOk) pins).run m = .ok () (afterScan startOk pins m) := by
  cases hc : confirmed m.pb (pressed pins) with
  | none => simp [pbStsUpdate, afterScan, hc]
  | some pinId => simp [pbStsUpdate, afterScan, hc, pbEvt_run h]

theorem stsLedUpdate_run (m : Machine) : stsLedUpdate.run m = .ok () (afterLeds m) := by
  by_cases h₁ : m.stat.outEn = 0 <;> by_cases h₂ : m.stat.msBit GBM_LINK = 1 <;>
    simp [stsLedUpdate, setIndLed, level, afterLeds, h₁, h₂]

/-- A write event is the write, whatever it answers. -/
theorem step_write_run {env : Env} {regAddr : ℕ} {wrData : List ℕ} {err : RegMapErr}
    (h : (regMapWrite env regAddr wrData).run m = .ok err m') :
    (step env (.write regAddr wrData)).run m = .ok () m' := by
  simp only [step, EStateM.run_bind, h, EStateM.run_pure]

theorem step_write_accepted (h : Live m) {regAddr : ℕ} {wrData : List ℕ}
    (hacc : Accepted regAddr wrData) (hres : ¬Resets regAddr wrData) :
    (step (quiet startOk) (.write regAddr wrData)).run m =
      .ok () { afterPassed startOk regAddr wrData m with
        conf := storeAll regAddr wrData m.conf } :=
  step_write_run (regMapWrite_accepted h hacc hres)

/-- **No event stops the system except a reset.** -/
theorem step_returns (h : Live m) (e : Event) :
    (∃ m', (step (quiet startOk) e).run m = .ok () m') ∨
      ∃ regAddr wrData, e = .write regAddr wrData ∧ Resets regAddr wrData ∧
        (step (quiet startOk) e).run m = .error .reset (afterPassed startOk regAddr wrData m) := by
  cases e with
  | write regAddr wrData =>
    rcases @regMapWrite_cases startOk _ h regAddr wrData with
      ⟨_, _, hrun⟩ | ⟨hr, hrun⟩ | ⟨_, _, err, _, hrun⟩
    · exact Or.inl ⟨_, step_write_run hrun⟩
    · exact Or.inr ⟨regAddr, wrData, rfl, hr, by simp only [step, EStateM.run_bind, hrun]⟩
    · exact Or.inl ⟨_, step_write_run hrun⟩
  | scan pins => exact Or.inl ⟨_, pbStsUpdate_run h pins⟩
  | button pinId => exact Or.inl ⟨_, pbEvt_run h pinId⟩
  | poll pins =>
    obtain ⟨r, hr⟩ := inStsUpdate_run pins m
    exact Or.inl ⟨m.afterPoll pins, by simp [step, hr]⟩
  | leds => exact Or.inl ⟨_, stsLedUpdate_run m⟩
  | battery volt temp => exact Or.inl ⟨_, batEvent_run volt temp m⟩
  | expire =>
    by_cases hrun : m.timer.running
    · exact Or.inl ⟨_, by simp [step, hrun, dacCb]; rfl⟩
    · exact Or.inl ⟨m, by simp [step, hrun]⟩

/-- **What a step that returns leaves behind.** -/
theorem step_spec (h : Live m) {e : Event} (he : (step (quiet startOk) e).run m = .ok () m') :
    StepSpec startOk m e m' := by
  cases e with
  | write regAddr wrData =>
    rcases @regMapWrite_cases startOk _ h regAddr wrData with
      ⟨hacc, hres, hrun⟩ | ⟨hr, hrun⟩ | ⟨hacc, hres, err, _, hrun⟩
    · rw [step_write_run hrun, afterPassed_conf] at he
      obtain ⟨-, he⟩ := EStateM.Result.ok.inj he
      exact ⟨hres, Or.inl ⟨hacc, he.symm⟩⟩
    · simp [step, hrun] at he
    · rw [step_write_run hrun] at he
      obtain ⟨-, he⟩ := EStateM.Result.ok.inj he
      exact ⟨hres, Or.inr ⟨hacc, he.symm⟩⟩
  | scan pins =>
    simp only [step, pbStsUpdate_run h, EStateM.Result.ok.injEq, true_and] at he
    exact he.symm
  | button pinId =>
    simp only [step, pbEvt_run h, EStateM.Result.ok.injEq, true_and] at he
    exact he.symm
  | poll pins =>
    obtain ⟨r, hr⟩ := inStsUpdate_run pins m
    simp only [step, EStateM.run_bind, hr, EStateM.run_pure, EStateM.Result.ok.injEq,
      true_and] at he
    exact he.symm
  | leds =>
    simp only [step, stsLedUpdate_run, EStateM.Result.ok.injEq, true_and] at he
    exact he.symm
  | battery volt temp =>
    simp only [step, batEvent_run, EStateM.Result.ok.injEq, true_and] at he
    exact he ▸ batUpdateOn_frame none volt temp m
  | expire =>
    by_cases hrun : m.timer.running
    · simp only [step, EStateM.run_bind, EStateM.run_get, hrun, if_true, dacCb,
        EStateM.run_modify, EStateM.Result.ok.injEq, true_and] at he
      subst he
      split <;> exact ⟨_, rfl⟩
    · simp only [step, EStateM.run_bind, EStateM.run_get, hrun, Bool.false_eq_true, if_false,
        EStateM.run_pure, EStateM.Result.ok.injEq, true_and] at he
      exact ⟨m.wave, he.symm⟩

/-- A write that returns leaves what its check loop does, whatever is stored after it. -/
theorem step_write_leaves (h : Live m) {regAddr : ℕ} {wrData : List ℕ}
    (he : (step (quiet startOk) (.write regAddr wrData)).run m = .ok () m') :
    ∃ conf, m' = { afterPassed startOk regAddr wrData m with conf := conf } := by
  obtain ⟨_, ⟨_, heq⟩ | ⟨_, heq⟩⟩ := step_spec h he
  · exact ⟨_, heq⟩
  · exact ⟨_, heq⟩

/-- The machines agree on what the control functions read and drive. -/
structure SameControl (m m' : Machine) : Prop where
  conf : m'.conf = m.conf
  msStatus : m'.stat.msStatus = m.stat.msStatus
  halfPeriod : m'.stat.halfPeriod = m.stat.halfPeriod
  mulFactor : m'.stat.mulFactor = m.stat.mulFactor
  freqIndex : m'.stat.freqIndex = m.stat.freqIndex
  volumIndex : m'.stat.volumIndex = m.stat.volumIndex
  outEn : m'.stat.outEn = m.stat.outEn
  rectFreq : m'.stat.rectFreq = m.stat.rectFreq
  volumReg : m'.stat.volumReg = m.stat.volumReg
  timer : m'.timer = m.timer
  ledsF : m'.leds.f = m.leds.f
  ledsP : m'.leds.p = m.leds.p
  ledsSts : m'.leds.sts = m.leds.sts
  calls : m'.calls = m.calls

/-- The button an event presses. -/
def presses (m : Machine) : Event → Option Pb
  | .button pinId => some pinId
  | .scan pins => confirmed m.pb (pressed pins)
  | _ => none

theorem sameControl_of_offBattery (h : SameOffBattery m m') : SameControl m m' := by
  obtain ⟨hconf, ⟨v, p, t, hst⟩, ht, _, ⟨b, r, hled⟩, _, _, hc⟩ := h
  constructor
  case conf => exact hconf
  case timer => exact ht
  case calls => exact hc
  all_goals first | rw [hst] | rw [hled]

/-- **The rule of the other events.**  A property of the control state holds after an event
that is no write if it does after the button it presses, if it presses one, after a
poll and after an indicator update, and if it does before it otherwise. -/
theorem step_rule {I : Machine → Prop} (hsame : ∀ m₁ m₂, SameControl m₁ m₂ → I m₁ → I m₂)
    (hm : Live m) {e : Event} (hne : ∀ regAddr wrData, e ≠ .write regAddr wrData)
    (he : (step (quiet startOk) e).run m = .ok () m')
    (hbutton : ∀ pinId, presses m e = some pinId → I (m.afterPbEvt startOk pinId))
    (hpoll : ∀ pins, e = .poll pins → I (m.afterPoll pins)) (hleds : e = .leds → I (afterLeds m))
    (hidle : presses m e = none → I m) : I m' := by
  have hspec := step_spec hm he
  cases e with
  | write regAddr wrData => exact absurd rfl (hne regAddr wrData)
  | scan pins =>
    rw [show m' = _ from hspec, afterScan]
    cases hc : confirmed m.pb (pressed pins) with
    | none =>
      refine hsame m _ ?_ (hidle hc)
      constructor <;> rfl
    | some pinId =>
      refine hsame (m.afterPbEvt startOk pinId) _ ?_ (hbutton pinId hc)
      constructor <;> rfl
  | button pinId => exact (show m' = _ from hspec) ▸ hbutton pinId rfl
  | poll pins => exact (show m' = _ from hspec) ▸ hpoll pins rfl
  | leds => exact (show m' = _ from hspec) ▸ hleds rfl
  | battery volt temp => exact hsame m m' (sameControl_of_offBattery hspec) (hidle rfl)
  | expire =>
    obtain ⟨w, rfl⟩ : ∃ w, m' = { m with wave := w } := hspec
    refine hsame m _ ?_ (hidle rfl)
    constructor <;> rfl

end Control
end AccTx
