/-
# The outputs after a write

The check functions of a batch overwrite one another's outputs: `freq_opt` relights
the frequency LEDs that `power_en_opt` has switched off, `rect_freq_opt` restarts
the timer with another frequency.  `afterPassed_stat`, `afterPassed_timer` and
`afterPassed_leds` say what is left of each output once the check loop is through,
as a function of the machine before the write and of its four requests; the rest of
the board does not change.

The timer is the one whose driver always starts it.
-/

import AccTx.Control.Step

namespace AccTx
namespace Control

open Firmware Effect

section
variable (regAddr : ℕ) (wrData : List ℕ) (m : Machine)

/-- The volume register after a write. -/
def volumRegAt : ℕ :=
  match request regAddr wrData 0 with
  | none => m.stat.volumReg
  | some d => if Grants d m.stat then 0 else m.stat.volumReg

/-- The status once the preset that a write requests is selected. -/
def presetAt : Status :=
  match request regAddr wrData 1 with
  | none => m.stat
  | some p => freqSelect m.conf p m.stat

/-- The last frequency a write requests, directly or by a preset. -/
def freqAt : Option ℕ :=
  match request regAddr wrData 5, request regAddr wrData 1 with
  | some f, _ => some f
  | none, some p => some (freqSelect m.conf p m.stat).rectFreq
  | none, none => none

/-- The timer after a write. -/
def timerAt : HwTimer :=
  match freqAt regAddr wrData m, request regAddr wrData 0 with
  | some f, _ => { running := true, timeout := period f }
  | none, some d =>
    if Grants d m.stat then { running := true, timeout := period m.stat.rectFreq }
    else { m.timer with running := false }
  | none, none => m.timer

/-- The frequency LEDs after a write. -/
def freqLedsAt : Fin 4 → Level :=
  match request regAddr wrData 1, request regAddr wrData 0 with
  | some _, _ => freqLeds (presetAt regAddr wrData m).freqIndex
  | none, some d => if Grants d m.stat then freqLeds m.stat.freqIndex else dark
  | none, none => m.leds.f

/-- The volume LEDs after a write. -/
def volLedsAt : Fin 8 → Level :=
  match request regAddr wrData 2, request regAddr wrData 0 with
  | some v, _ => volLeds v
  | none, some d => if Grants d m.stat then volLeds m.stat.volumIndex else dark
  | none, none => m.leds.p

/-- The status LED after a write. -/
def stsLedAt : Level :=
  match request regAddr wrData 0 with
  | none => m.leds.sts
  | some d => if Grants d m.stat then .low else .high

end

variable {startOk : List Call → Bool}

theorem act_none (f : ℕ → Machine → Machine) (m : Machine) : act f none m = m := rfl

/-- What an option function does not write survives it, requested or not. -/
theorem act_frame {β : Type} (g : Machine → β) {f : ℕ → Machine → Machine}
    (h : ∀ d m, g (f d m) = g m) (q : Option ℕ) (m : Machine) : g (act f q m) = g m := by
  cases q with
  | none => rfl
  | some d => exact h d m

/-- Switching the output does not change what a preset selects. -/
theorem freqSelect_setOut (conf : Config) (pram a b : ℕ) (st : Status) :
    freqSelect conf pram { st with outEn := a, volumReg := b } =
      { freqSelect conf pram st with outEn := a, volumReg := b } := by
  unfold freqSelect
  split <;> rfl

/-- **A preset selects the same** after the output was switched. -/
theorem preset_of_act (p : ℕ) (q : Option ℕ) (m : Machine) :
    let m₀ := act (fun d m => m.afterPowerEn startOk d) q m
    (freqSelect m₀.conf p m₀.stat).rectFreq = (freqSelect m.conf p m.stat).rectFreq ∧
      (freqSelect m₀.conf p m₀.stat).freqIndex = (freqSelect m.conf p m.stat).freqIndex := by
  cases q with
  | none => exact ⟨rfl, rfl⟩
  | some d =>
    simp only [act, Machine.afterPowerEn, freqSelect_setOut]
    exact ⟨trivial, trivial⟩

/-- **The status after the check loop.** -/
theorem afterPassed_stat (regAddr : ℕ) (wrData : List ℕ) (m : Machine) :
    (afterPassed startOk regAddr wrData m).stat =
      { presetAt regAddr wrData m with
        outEn := outEnAt regAddr wrData m.stat
        volumReg := volumRegAt regAddr wrData m
        rectFreq := (freqAt regAddr wrData m).getD m.stat.rectFreq
        volumIndex := (request regAddr wrData 2).getD m.stat.volumIndex } := by
  rw [afterPassed_eq, presetAt, outEnAt, volumRegAt, freqAt]
  cases request regAddr wrData 1 with
  | none =>
    cases request regAddr wrData 0 <;> cases request regAddr wrData 2 <;>
      cases request regAddr wrData 5 <;> rfl
  | some p =>
    obtain ⟨h, f, i, r, hsel⟩ := freqSelect_frame m.conf p m.stat
    cases request regAddr wrData 0 <;> cases request regAddr wrData 2 <;>
      cases request regAddr wrData 5 <;>
      simp only [act, Machine.afterPowerEn, Machine.afterFreq, Machine.afterVolum,
        Machine.afterRectFreq, Machine.atSelect, Machine.atDelay, Machine.startTimer,
        freqSelect_setOut, Option.getD_some, Option.getD_none, hsel]

/-- **The timer after the check loop.** -/
theorem afterPassed_timer (regAddr : ℕ) (wrData : List ℕ) (m : Machine) :
    (afterPassed (fun _ => true) regAddr wrData m).timer = timerAt regAddr wrData m := by
  rw [afterPassed_eq, timerAt, freqAt]
  cases request regAddr wrData 5 with
  | some f => rfl
  | none =>
    rw [act_none, @act_frame _ (·.timer) (fun d m => m.afterVolum d) (fun _ _ => rfl)]
    cases request regAddr wrData 1 with
    | some p =>
      obtain ⟨hfreq, -⟩ := @preset_of_act (fun _ => true) p (request regAddr wrData 0) m
      exact congrArg (fun f => HwTimer.mk true (period f)) hfreq
    | none => cases request regAddr wrData 0 <;> rfl

/-- **The DAC after the check loop**: a requested volume sets the level of the one
before. -/
theorem afterPassed_dac (regAddr : ℕ) (wrData : List ℕ) (m : Machine) :
    (afterPassed startOk regAddr wrData m).dac =
      match request regAddr wrData 2 with
      | none => m.dac
      | some _ => opwr m.stat.volumIndex := by
  rw [afterPassed_eq, @act_frame _ (·.dac) (fun d m => m.afterRectFreq startOk d) (fun _ _ => rfl)]
  cases request regAddr wrData 2 with
  | none =>
    rw [act_none, @act_frame _ (·.dac) (fun d m => m.afterFreq startOk d) (fun _ _ => rfl),
      @act_frame _ (·.dac) (fun d m => m.afterPowerEn startOk d) (fun _ _ => rfl)]
  | some v =>
    -- neither the preset nor the output changes the volume before
    have hfreq := @act_frame _ (·.stat.volumIndex) (fun d m => m.afterFreq startOk d)
      fun p m => freqSelect_volumIndex m.conf p m.stat
    have hpower := @act_frame _ (·.stat.volumIndex) (fun d m => m.afterPowerEn startOk d)
      fun _ _ => rfl
    exact congrArg opwr ((hfreq _ _).trans (hpower _ m))

/-- **The panel after the check loop.** -/
theorem afterPassed_leds (regAddr : ℕ) (wrData : List ℕ) (m : Machine) :
    (afterPassed startOk regAddr wrData m).leds =
      { m.leds with
        f := freqLedsAt regAddr wrData m
        p := volLedsAt regAddr wrData m
        sts := stsLedAt regAddr wrData m } := by
  rw [afterPassed_eq, @act_frame _ (·.leds) (fun d m => m.afterRectFreq startOk d) (fun _ _ => rfl),
    freqLedsAt, volLedsAt, stsLedAt, presetAt]
  cases request regAddr wrData 1 with
  | none => cases request regAddr wrData 0 <;> cases request regAddr wrData 2 <;> rfl
  | some p =>
    obtain ⟨-, hindex⟩ := @preset_of_act startOk p (request regAddr wrData 0) m
    simp only [← hindex]
    cases request regAddr wrData 0 <;> cases request regAddr wrData 2 <;> rfl

/-- **What no option function writes survives the check loop.** -/
theorem afterPassed_keeps {β : Type} (g : Machine → β)
    (h₀ : ∀ d m, g (m.afterPowerEn startOk d) = g m)
    (h₁ : ∀ d m, g (m.afterFreq startOk d) = g m) (h₂ : ∀ d m, g (m.afterVolum d) = g m)
    (h₅ : ∀ d m, g (m.afterRectFreq startOk d) = g m) (regAddr : ℕ) (wrData : List ℕ)
    (m : Machine) : g (afterPassed startOk regAddr wrData m) = g m := by
  rw [afterPassed_eq, act_frame g h₅, act_frame g h₂, act_frame g h₁, act_frame g h₀]

/-- **And it survives a button**, where the index that `pb_evt` steps is no part of it. -/
theorem afterPbEvt_keeps {β : Type} (g : Machine → β)
    (h₀ : ∀ d m, g (m.afterPowerEn startOk d) = g m)
    (h₁ : ∀ d m, g (m.afterFreq startOk d) = g m)
    (h₂ : ∀ i m, g (Machine.afterVolum i { m with stat := { m.stat with volumIndex := i } }) = g m)
    (pinId : Pb) (m : Machine) : g (m.afterPbEvt startOk pinId) = g m := by
  rcases afterPbEvt_cases startOk pinId m with ⟨_, heq⟩ | ⟨_, _, heq⟩ | ⟨_, _, i, _, heq⟩ |
    ⟨_, _, i, _, heq⟩ <;> rw [heq]
  · exact h₀ _ m
  · exact h₁ i m
  · exact h₂ i m

/-- The button functions leave the configuration alone. -/
theorem afterPbEvt_conf (pinId : Pb) (m : Machine) : (m.afterPbEvt startOk pinId).conf = m.conf :=
  afterPbEvt_keeps (·.conf) (fun _ _ => rfl) (fun _ _ => rfl) (fun _ _ => rfl) pinId m

/-- The button registers, the output pins and the battery windows are left alone. -/
theorem afterPassed_frame (regAddr : ℕ) (wrData : List ℕ) (m : Machine) :
    (afterPassed startOk regAddr wrData m).pb = m.pb ∧
      (afterPassed startOk regAddr wrData m).wave = m.wave ∧
      (afterPassed startOk regAddr wrData m).bat = m.bat ∧
      (afterPassed startOk regAddr wrData m).temp = m.temp := by
  refine ⟨afterPassed_keeps (·.pb) ?_ ?_ ?_ ?_ .., afterPassed_keeps (·.wave) ?_ ?_ ?_ ?_ ..,
    afterPassed_keeps (·.bat) ?_ ?_ ?_ ?_ .., afterPassed_keeps (·.temp) ?_ ?_ ?_ ?_ ..⟩ <;>
    exact fun _ _ => rfl

/-- The preset a write selects is the one it requests. -/
theorem presetAt_freqIndex_of {regAddr p : ℕ} {wrData : List ℕ}
    (hr : request regAddr wrData 1 = some p) (m : Machine) :
    (presetAt regAddr wrData m).freqIndex = p := by
  rw [presetAt, hr]
  exact freqSelect_freqIndex (preset_le hr) m.stat

/-- **The output pins and the battery windows belong to their own events**: the expirations
of the timer and the battery updates. -/
theorem devices_step {m m' : Machine} (hm : Live m) {e : Event}
    (he : (step (quiet startOk) e).run m = .ok () m') (hx : e ≠ .expire)
    (hb : ∀ volt temp, e ≠ .battery volt temp) :
    m'.wave = m.wave ∧ m'.bat = m.bat ∧ m'.temp = m.temp := by
  have hbutton : ∀ pinId, (m.afterPbEvt startOk pinId).wave = m.wave ∧
      (m.afterPbEvt startOk pinId).bat = m.bat ∧ (m.afterPbEvt startOk pinId).temp = m.temp := by
    intro pinId
    refine ⟨afterPbEvt_keeps (·.wave) ?_ ?_ ?_ pinId m, afterPbEvt_keeps (·.bat) ?_ ?_ ?_ pinId m,
      afterPbEvt_keeps (·.temp) ?_ ?_ ?_ pinId m⟩ <;> exact fun _ _ => rfl
  have hspec := step_spec hm he
  cases e with
  | write regAddr wrData =>
    obtain ⟨conf, rfl⟩ := step_write_leaves hm he
    exact (afterPassed_frame regAddr wrData m).2
  | scan pins =>
    rw [show m' = afterScan startOk pins m from hspec, afterScan]
    cases confirmed m.pb (pressed pins) with
    | none => exact ⟨rfl, rfl, rfl⟩
    | some pinId => exact hbutton pinId
  | button pinId => exact (show m' = _ from hspec) ▸ hbutton pinId
  | poll pins => exact (show m' = _ from hspec) ▸ ⟨rfl, rfl, rfl⟩
  | leds => exact (show m' = _ from hspec) ▸ ⟨rfl, rfl, rfl⟩
  | battery volt temp => exact absurd rfl (hb volt temp)
  | expire => exact absurd rfl hx

end Control
end AccTx
