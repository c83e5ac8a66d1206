/-
# The output pins of a stopped timer

`dac_init` drives `MUX_SEL` and `BEEPER` low.  From then on only the timer callback drives
them, both to the same level and each time to the other one, and its phase flag tells which
(`PinsFollow`).  Stopping the timer leaves the pins and the flag where they are: neither
`sr_hwt_stop` nor `power_en_opt` drives them low again.

So the pins of a disabled output with a stopped timer are low throughout a run exactly
when every step of it that switches the output off, and starts the timer for no frequency,
finds the flag at the low half of the wave (`idles_low_iff`).

The timer is the one whose driver always starts it.
-/

import AccTx.Control.Interlock

namespace AccTx
namespace Control

open Firmware Effect

/-- The pins of a disabled output are low while the timer is stopped. -/
def IdlesLow (m : Machine) : Prop :=
  m.stat.outEn = 0 → m.timer.running = false → m.wave.muxSel = .low ∧ m.wave.beeper = .low

/-- The phase flag tells the level of both pins. -/
structure PinsFollow (w : Wave) : Prop where
  low : w.rectFlag = 0 → w.muxSel = .low ∧ w.beeper = .low
  high : w.rectFlag ≠ 0 → w.muxSel = .high ∧ w.beeper = .high

/-- A step that switches the output off, and requests no frequency with it, finds the phase
flag at the low half of the wave. -/
def StopsLow (e : Event) (m : Machine) : Prop :=
  match e with
  | .write regAddr wrData => (∃ d, request regAddr wrData 0 = some d ∧ ¬Grants d m.stat) →
    request regAddr wrData 1 = none → request regAddr wrData 5 = none → m.wave.rectFlag = 0
  | e => presses m e = some .outEn → ¬Grants (if m.stat.outEn = 0 then 1 else 0) m.stat →
    m.wave.rectFlag = 0

variable {m m' : Machine}

theorem pinsFollow_boot : PinsFollow boot.wave :=
  ⟨fun _ => ⟨rfl, rfl⟩, fun h => absurd rfl h⟩

/-- The idle level is the phase the wave stopped in. -/
theorem idlesLow_iff (hw : PinsFollow m.wave) :
    IdlesLow m ↔ (m.stat.outEn = 0 → m.timer.running = false → m.wave.rectFlag = 0) := by
  constructor
  · intro h hoff hstop
    by_contra hflag
    have hhigh := (hw.high hflag).1
    rw [(h hoff hstop).1] at hhigh
    cases hhigh
  · intro h hoff hstop
    exact hw.low (h hoff hstop)

/-- An expiration toggles the pins of a running timer, and does nothing otherwise. -/
theorem expire_step (he : (step hal .expire).run m = .ok () m') :
    (m.timer.running = true ∧ PinsFollow m'.wave ∧ m'.timer = m.timer) ∨
      (m.timer.running = false ∧ m' = m) := by
  by_cases hrun : m.timer.running
  · simp only [step, EStateM.run_bind, EStateM.run_get, hrun, if_true, dacCb,
      EStateM.run_modify, EStateM.Result.ok.injEq, true_and] at he
    refine Or.inl ⟨hrun, ?_⟩
    subst he
    split
    · exact ⟨⟨fun h => absurd h Nat.one_ne_zero, fun _ => ⟨rfl, rfl⟩⟩, rfl⟩
    · exact ⟨⟨fun _ => ⟨rfl, rfl⟩, fun h => absurd rfl h⟩, rfl⟩
  · simp only [step, EStateM.run_bind, EStateM.run_get, hrun, Bool.false_eq_true, if_false,
      EStateM.run_pure, EStateM.Result.ok.injEq, true_and] at he
    exact Or.inr ⟨Bool.eq_false_of_not_eq_true hrun, he.symm⟩

/-- **Only an expiration of the running timer drives the pins.** -/
theorem wave_step (hm : Live m) {e : Event} (he : (step hal e).run m = .ok () m') :
    m'.wave = m.wave ∨ (m'.timer.running = true ∧ PinsFollow m'.wave) := by
  by_cases hx : e = .expire
  · subst hx
    rcases expire_step he with ⟨hrun, hw, htimer⟩ | ⟨_, rfl⟩
    · exact Or.inr ⟨htimer ▸ hrun, hw⟩
    · exact Or.inl rfl
  · by_cases hb : ∃ volt temp, e = .battery volt temp
    · obtain ⟨volt, temp, rfl⟩ := hb
      have hoff : SameOffBattery m m' := step_spec hm he
      exact Or.inl hoff.wave
    · have hne : ∀ volt temp, e ≠ .battery volt temp := fun v t h => hb ⟨v, t, h⟩
      exact Or.inl (devices_step hm he hx hne).1

theorem pinsFollow_step (hm : Live m) {e : Event} (hw : PinsFollow m.wave)
    (he : (step hal e).run m = .ok () m') : PinsFollow m'.wave := by
  rcases wave_step hm he with heq | ⟨_, hw'⟩
  · exact heq ▸ hw
  · exact hw'

/-- A step that leaves the timer stopped leaves the phase as it was. -/
theorem idlesLow_of_step (hm : Live m) {e : Event} (hw : PinsFollow m.wave)
    (he : (step hal e).run m = .ok () m') :
    IdlesLow m' ↔ (m'.stat.outEn = 0 → m'.timer.running = false → m.wave.rectFlag = 0) := by
  rw [idlesLow_iff (pinsFollow_step hm hw he)]
  rcases wave_step hm he with heq | ⟨hrun, _⟩
  · rw [heq]
  · simp [hrun]

/-- **When the check loop leaves a stopped wave low.** -/
theorem idles_afterPassed {regAddr : ℕ} {wrData : List ℕ}
    (h : m.stat.outEn = 0 → m.timer.running = false → m.wave.rectFlag = 0) :
    (outEnAt regAddr wrData m.stat = 0 → (timerAt regAddr wrData m).running = false →
        m.wave.rectFlag = 0) ↔
      StopsLow (.write regAddr wrData) m := by
  simp only [StopsLow]
  unfold timerAt freqAt outEnAt
  cases request regAddr wrData 5 with
  | some f => simp
  | none =>
    cases request regAddr wrData 1 with
    | some p => simp
    | none =>
      cases request regAddr wrData 0 with
      | none => exact iff_of_true h (by simp)
      | some d => by_cases hg : Grants d m.stat <;> simp [hg]

theorem idles_afterPbEvt {pinId : Pb}
    (h : m.stat.outEn = 0 → m.timer.running = false → m.wave.rectFlag = 0) :
    ((m.afterPbEvt (fun _ => true) pinId).stat.outEn = 0 →
        (m.afterPbEvt (fun _ => true) pinId).timer.running = false → m.wave.rectFlag = 0) ↔
      (pinId = .outEn → ¬Grants (if m.stat.outEn = 0 then 1 else 0) m.stat →
        m.wave.rectFlag = 0) := by
  rcases afterPbEvt_cases (fun _ => true) pinId m with ⟨rfl, heq⟩ | ⟨hpin, _, heq⟩ |
    ⟨hpin, hon, i, _, heq⟩ | ⟨hpin, hon, i, _, heq⟩ <;> rw [heq]
  · by_cases hg : Grants (if m.stat.outEn = 0 then 1 else 0) m.stat <;>
      simp [Machine.afterPowerEn, hg, Machine.stopTimer]
  · exact iff_of_true h fun hp => absurd hp hpin
  · -- the other buttons act on an enabled output, and leave it enabled
    refine iff_of_true (fun hoff => ?_) fun hp => ?_
    · exact absurd ((freqSelect_outEn m.conf i m.stat).symm.trans hoff) hon
    · rcases hpin with rfl | rfl <;> cases hp
  · refine iff_of_true (fun hoff => absurd hoff hon) fun hp => ?_
    rcases hpin with rfl | rfl <;> cases hp

/-- An event that is no write switches the output off by its button. -/
theorem idles_event (hm : Live m) {e : Event} (hne : ∀ regAddr wrData, e ≠ .write regAddr wrData)
    (h : m.stat.outEn = 0 → m.timer.running = false → m.wave.rectFlag = 0)
    (he : (step hal e).run m = .ok () m') :
    (m'.stat.outEn = 0 → m'.timer.running = false → m.wave.rectFlag = 0) ↔
      (presses m e = some .outEn → ¬Grants (if m.stat.outEn = 0 then 1 else 0) m.stat →
        m.wave.rectFlag = 0) := by
  refine step_rule
    (I := fun m' => (m'.stat.outEn = 0 → m'.timer.running = false → m.wave.rectFlag = 0) ↔ _)
    (fun m₁ m₂ hs h => ?_) hm hne he (fun pinId hp => ?_) (fun pins hp => ?_) (fun hp => ?_)
    fun hp => ?_
  · rw [hs.outEn, hs.timer]
    exact h
  · rw [idles_afterPbEvt h, hp, Option.some.injEq]
  · subst hp
    exact iff_of_true h (by simp [presses])
  · subst hp
    exact iff_of_true h (by simp [presses])
  · exact iff_of_true h (by simp [hp])

/-- **A step keeps a disabled output low exactly when it does not stop the wave high.** -/
theorem idlesLow_step (e : Event) (m m' : Machine) (hm : InRange m ∧ PinsFollow m.wave)
    (h : IdlesLow m) (he : (step hal e).run m = .ok () m') : IdlesLow m' ↔ StopsLow e m := by
  obtain ⟨hm, hw⟩ := hm
  rw [idlesLow_of_step hm.live hw he]
  rw [idlesLow_iff hw] at h
  cases e with
  | write regAddr wrData =>
    rw [← idles_afterPassed h]
    obtain ⟨conf, rfl⟩ := @step_write_leaves (fun _ => true) m m' hm.live _ _ he
    simp only [afterPassed_stat, afterPassed_timer]
  | _ => exact idles_event hm.live (by simp) h he

/-- **A disabled output idles low**, throughout the runs from the start-up in which every step
that switches the output off without a frequency finds the wave at its low half, and
throughout no other run. -/
theorem idles_low_iff (es : List Event) :
    Throughout (step hal) IdlesLow es boot ↔ Guarded (step hal) StopsLow es boot :=
  throughout_iff_guarded
    (J := fun m => InRange m ∧ PinsFollow m.wave)
    (fun e m m' hm he => ⟨inRange_step e m m' hm.1 he, pinsFollow_step hm.1.live hm.2 he⟩)
    idlesLow_step ⟨inRange_boot, pinsFollow_boot⟩ fun _ _ => pinsFollow_boot.low rfl

/-- The output switched on, one expiration, the output switched off: the pins stay high. -/
theorem idles_high :
    ∃ m, (run (step hal) [.write 0 [1], .expire, .write 0 [0]]).run boot = .ok () m ∧
      m.stat.outEn = 0 ∧ m.timer.running = false ∧ m.wave.muxSel = .high ∧
      m.wave.beeper = .high := by
  have hon := powerOn_step inRange_boot
  have hexpire : (step hal .expire).run (afterPowerOn boot) =
      .ok () { afterPowerOn boot with wave := ⟨.high, .high, 1⟩ } := rfl
  have hm := @inRange_step (fun _ => true) _ _ _
    (@inRange_step (fun _ => true) _ _ _ inRange_boot hon) hexpire
  have hoff := @step_write_accepted (fun _ => true) _ hm.live 0 [0] (by decide) (by decide)
  exact ⟨_, run_cons_ok.2 ⟨_, hon, run_cons_ok.2 ⟨_, hexpire, run_cons_ok.2 ⟨_, hoff, rfl⟩⟩⟩,
    rfl, rfl, rfl, rfl⟩

end Control
end AccTx
