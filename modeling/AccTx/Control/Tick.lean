/-
# What a button scan calls

`tim_init` creates the timer `tim_pb` with `RT_TIMER_FLAG_PERIODIC` alone, so its
callback, and with it `pb_sts_update`, runs in the tick interrupt.  The frequency
buttons reach `freq_opt` and `rect_freq_opt` from there, which sleeps between stopping
and starting the timer: `rt_thread_delay` then suspends whatever thread the tick has
interrupted.

No other button reaches a call that sleeps, and the frequency buttons do nothing while
the output is disabled.  So a sequence of scans never sleeps exactly when none of them
confirms a frequency button of an enabled output (`scans_never_sleep_iff`).
-/

import AccTx.Control.Interlock

namespace AccTx
namespace Control

open Firmware Effect

/-- The calls made between two machines, latest first. -/
def made (m m' : Machine) : List Call := m'.calls.take (m'.calls.length - m.calls.length)

/-- The calls of `power_en_opt`, latest first. -/
def powerCalls (pram : ℕ) (m : Machine) : List Call :=
  [if Grants pram m.stat then .srHwtStart 0 m.stat.rectFreq else .srHwtStop]

/-- The calls of `rect_freq_opt`. -/
def rectFreqCalls (pram : ℕ) : List Call := [.srHwtStart 0 pram, .rtThreadDelay 1, .srHwtStop]

/-- The calls of `freq_opt`. -/
def freqCalls (pram : ℕ) (m : Machine) : List Call :=
  rectFreqCalls (freqSelect m.conf pram m.stat).rectFreq ++ [.freqOpt pram]

/-- The calls of `pb_evt`. -/
def buttonCalls (pinId : Pb) (m : Machine) : List Call :=
  match pinId with
  | .outEn => powerCalls (if m.stat.outEn = 0 then 1 else 0) m
  | .freqD => if m.stat.outEn = 0 then [] else freqCalls (stepDown m.stat.freqIndex) m
  | .freqU => if m.stat.outEn = 0 then [] else freqCalls (stepUp 4 m.stat.freqIndex) m
  | .volD | .volU => []

/-- A scan makes no call that suspends the interrupted thread. -/
def NeverSleeps (_ : List PbPins) (_ : PbPins) (m m' : Machine) : Prop :=
  ∀ tick, .rtThreadDelay tick ∉ made m m'

/-- A scan confirms no frequency button of an enabled output. -/
def ConfirmsNoFreq (pins : PbPins) (m : Machine) : Prop :=
  m.stat.outEn ≠ 0 → confirmed m.pb (pressed pins) ≠ some .freqD ∧
    confirmed m.pb (pressed pins) ≠ some .freqU

variable {startOk : List Call → Bool} {m m' : Machine}

theorem made_of_append {l : List Call} (h : m'.calls = l ++ m.calls) : made m m' = l := by
  simp [made, h]

theorem afterFreq_calls (pram : ℕ) (m : Machine) :
    (m.afterFreq startOk pram).calls = freqCalls pram m ++ m.calls := rfl

/-- **The calls of a button.** -/
theorem afterPbEvt_buttonCalls (pinId : Pb) (m : Machine) :
    (m.afterPbEvt startOk pinId).calls = buttonCalls pinId m ++ m.calls := by
  by_cases hoff : m.stat.outEn = 0
  · cases pinId <;> simp only [Machine.afterPbEvt, buttonCalls, hoff, if_true] <;> rfl
  · cases pinId with
    | freqD | freqU =>
      simp only [Machine.afterPbEvt, buttonCalls, hoff, if_false]
      rw [afterFreq_setFreqIndex, afterFreq_calls]
    | _ => simp only [Machine.afterPbEvt, buttonCalls, hoff, if_false]; rfl

/-- A frequency button of an enabled output sleeps; nothing else does. -/
theorem delay_mem_buttonCalls {pinId : Pb} :
    (∃ tick, .rtThreadDelay tick ∈ buttonCalls pinId m) ↔
      m.stat.outEn ≠ 0 ∧ (pinId = .freqD ∨ pinId = .freqU) := by
  have hpower : ∀ d tick, .rtThreadDelay tick ∉ powerCalls d m := by
    intro d tick hmem
    have heq := List.mem_singleton.1 hmem
    split at heq <;> cases heq
  unfold buttonCalls
  cases pinId with
  | outEn => simp [hpower]
  | freqD | freqU => by_cases hoff : m.stat.outEn = 0 <;> simp [hoff, freqCalls, rectFreqCalls]
  | volD | volU => simp

/-- **When a scan sleeps.** -/
theorem neverSleeps_afterScan (pins : PbPins) (l : List PbPins) (m : Machine) :
    NeverSleeps l pins m (afterScan startOk pins m) ↔ ConfirmsNoFreq pins m := by
  unfold NeverSleeps ConfirmsNoFreq
  cases hc : confirmed m.pb (pressed pins) with
  | none =>
    have hcalls : (afterScan startOk pins m).calls = [] ++ m.calls := by
      rw [afterScan, hc]
      rfl
    rw [made_of_append hcalls]
    simp
  | some pinId =>
    have hcalls : (afterScan startOk pins m).calls = buttonCalls pinId m ++ m.calls := by
      rw [afterScan, hc]
      exact afterPbEvt_buttonCalls pinId m
    rw [made_of_append hcalls, ← not_exists, delay_mem_buttonCalls, not_and, not_or]
    simp only [ne_eq, Option.some.injEq]

theorem along_neverSleeps_iff (hm : InRange m) (samples : List PbPins) :
    Along (pbStsUpdate (quiet startOk)) NeverSleeps samples m ↔
      Guarded (pbStsUpdate (quiet startOk)) ConfirmsNoFreq samples m := by
  refine along_congr fun l pins m₁ m₂ hrun he => ?_
  have hm₁ : InRange m₁ := run_invariant
    (fun pins m m' hm he => inRange_step (.scan pins) m m' hm he) hm hrun
  rw [pbStsUpdate_run hm₁.live, EStateM.Result.ok.injEq] at he
  obtain rfl := he.2
  exact neverSleeps_afterScan pins l m₁

/-- **The button scan never blocks in interrupt context**, from every reachable state, for
the sequences of samples in which no scan confirms a frequency button of an enabled
output, and for no others. -/
theorem scans_never_sleep_iff (startOk : List Call → Bool) (m : Machine)
    (h : Reachable startOk m) (samples : List PbPins) :
    Along (pbStsUpdate (quiet startOk)) NeverSleeps samples m ↔
      Guarded (pbStsUpdate (quiet startOk)) ConfirmsNoFreq samples m :=
  along_neverSleeps_iff (inRange_of_reachable h) samples

/-- All buttons released but `PB_FREQ_U`. -/
def freqUHeld : PbPins := ⟨.high, .low, .high, .high, .high⟩

/-- The frequency button held for two samples from the start-up, with the output off. -/
theorem scans_never_sleep_iff_boot :
    Along (pbStsUpdate (quiet fun _ => true)) NeverSleeps [freqUHeld, freqUHeld] boot ↔
      Guarded (pbStsUpdate (quiet fun _ => true)) ConfirmsNoFreq [freqUHeld, freqUHeld] boot :=
  scans_never_sleep_iff (fun _ => true) boot ⟨[], rfl⟩ _

/-- The same with the output on: the second scan confirms the button and sleeps. -/
theorem scan_sleeps :
    ∃ m, Reachable (fun _ => true) m ∧
      ¬Along (pbStsUpdate (quiet fun _ => true)) NeverSleeps [freqUHeld, freqUHeld] m := by
  have hm : InRange (afterPowerOn boot) := inRange_step _ boot _ inRange_boot
    (powerOn_step inRange_boot)
  refine ⟨_, ⟨[.write 0 [1]], run_cons_ok.2 ⟨_, powerOn_step inRange_boot, rfl⟩⟩, fun h => ?_⟩
  have hscan := along_cons.1 ((along_neverSleeps_iff hm _).1 h) _ (pbStsUpdate_run hm.live _)
  have hm₁ : InRange (afterScan (fun _ => true) freqUHeld (afterPowerOn boot)) :=
    inRange_step (.scan freqUHeld) _ _ hm (pbStsUpdate_run hm.live _)
  have hsleep := (along_cons.1 hscan.2 _ (pbStsUpdate_run hm₁.live _)).1
  exact (hsleep (by decide)).2 (by decide)

end Control
end AccTx
