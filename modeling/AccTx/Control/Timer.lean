/-
# The waveform timer and the output enable

The transmitter radiates while the waveform timer runs, and the panel tells it by
`out_en`.  `power_en_opt` starts and stops the timer with `out_en`, and the buttons
that change the frequency do nothing while the output is off.  A register write has no
such guard: `freq_opt` and `rect_freq_opt` restart the timer whatever `out_en` says.

So the timer follows `out_en` throughout a run exactly when every write of it that
changes the frequency finds, or itself switches, the output on
(`timer_follows_iff`).
-/

import AccTx.Control.Outputs
import AccTx.Control.Range

namespace AccTx
namespace Control

open Firmware Effect

/-- The timer runs exactly when the output is enabled. -/
def TimerFollows (m : Machine) : Prop := m.timer.running = true ↔ m.stat.outEn = 1

/-- A write that requests a frequency acts on an enabled output. -/
def TunesWhileOn (e : Event) (m : Machine) : Prop :=
  match e with
  | .write regAddr wrData =>
    (request regAddr wrData 1).isSome ∨ (request regAddr wrData 5).isSome →
      outEnAt regAddr wrData m.stat = 1
  | _ => True

variable {m m' : Machine}

theorem freqAt_isSome {regAddr : ℕ} {wrData : List ℕ} :
    (freqAt regAddr wrData m).isSome ↔
      (request regAddr wrData 1).isSome ∨ (request regAddr wrData 5).isSome := by
  unfold freqAt
  cases request regAddr wrData 5 <;> cases request regAddr wrData 1 <;> simp

/-- **When the check loop keeps the law**: it requests no frequency, or the output is
enabled when it does. -/
theorem timerFollows_afterPassed (h : TimerFollows m) (regAddr : ℕ) (wrData : List ℕ) :
    TimerFollows (afterPassed (fun _ => true) regAddr wrData m) ↔
      ((request regAddr wrData 1).isSome ∨ (request regAddr wrData 5).isSome →
        outEnAt regAddr wrData m.stat = 1) := by
  unfold TimerFollows
  rw [afterPassed_timer, afterPassed_stat, ← @freqAt_isSome m]
  unfold timerAt outEnAt
  cases freqAt regAddr wrData m with
  | some f =>
    constructor
    · intro hiff _
      exact hiff.1 rfl
    · intro hon
      exact iff_of_true rfl (hon rfl)
  | none =>
    refine iff_of_true ?_ (fun hf => absurd hf (by simp))
    cases request regAddr wrData 0 with
    | none => exact h
    | some d => by_cases hg : Grants d m.stat <;> simp [hg]

theorem timerFollows_afterPbEvt (hm : InRange m) (h : TimerFollows m) (pinId : Pb) :
    TimerFollows (m.afterPbEvt (fun _ => true) pinId) := by
  rcases afterPbEvt_cases (fun _ => true) pinId m with ⟨_, heq⟩ | ⟨_, _, heq⟩ |
    ⟨_, hon, i, _, heq⟩ | ⟨_, _, i, _, heq⟩ <;> rw [heq]
  · unfold TimerFollows Machine.afterPowerEn
    by_cases hg : Grants (if m.stat.outEn = 0 then 1 else 0) m.stat
    · simp [hg, Machine.startTimer]
    · simp [hg, Machine.stopTimer]
  · exact h
  · -- a frequency button restarts the timer of an enabled output
    have hone : m.stat.outEn = 1 := hm.outEn.resolve_left hon
    exact iff_of_true rfl ((freqSelect_outEn m.conf i m.stat).trans hone)
  · exact h

/-- **A step keeps the law exactly when it does not tune a silent transmitter.** -/
theorem timerFollows_step (e : Event) (m m' : Machine) (hm : InRange m) (h : TimerFollows m)
    (he : (step hal e).run m = .ok () m') : TimerFollows m' ↔ TunesWhileOn e m := by
  cases e with
  | write regAddr wrData =>
    obtain ⟨conf, rfl⟩ := @step_write_leaves (fun _ => true) m m' hm.live _ _ he
    exact timerFollows_afterPassed h regAddr wrData
  | _ =>
    refine iff_of_true (step_rule (fun m₁ m₂ hs h => ?_) hm.live (by simp) he
      (fun pinId _ => timerFollows_afterPbEvt hm h pinId) (fun _ _ => h) (fun _ => h) fun _ => h)
      trivial
    rw [TimerFollows, hs.timer, hs.outEn]
    exact h

theorem timerFollows_boot : TimerFollows boot := by
  rw [TimerFollows, boot_timer, boot_stat]
  simp

/-- **The timer runs exactly when the output is enabled**, throughout the runs in which
every write that requests a frequency acts on an enabled output, and throughout no
other run. -/
theorem timer_follows_iff (es : List Event) :
    Throughout (step hal) TimerFollows es boot ↔ Guarded (step hal) TunesWhileOn es boot :=
  throughout_iff_guarded inRange_step timerFollows_step inRange_boot timerFollows_boot

/-- Selecting a preset by a register write starts the timer of the disabled output. -/
theorem timer_runs_disabled :
    ∃ m, (run (step hal) [.write 1 [2]]).run boot = .ok () m ∧
      m.timer.running = true ∧ m.stat.outEn = 0 := by
  have hacc : Accepted 1 [2] := by decide
  have hrun := @step_write_accepted (fun _ => true) boot inRange_boot.live 1 [2] hacc (by decide)
  exact ⟨_, run_cons_ok.2 ⟨_, hrun, rfl⟩, rfl, rfl⟩

end Control
end AccTx
