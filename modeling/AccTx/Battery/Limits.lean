/-
# The battery limits

`bat_pwr_calc` turns the battery voltage into a percentage of the span between
`bat_low_lim` and `bat_up_lim`.  The table admits 3000 to 6400 for the upper limit and 0 to
4500 for the lower one, and checks each for itself: neither row has a check function, so
nothing keeps the lower limit below the upper one.  With equal limits the percentage
divides by zero, with reversed ones it falls as the voltage rises.

The limits stay ordered throughout a run exactly when every accepted write of it leaves
them so, the limit it does not bring being the one stored before
(`limits_ordered_iff`).
-/

import AccTx.Battery.Window

namespace AccTx
namespace Battery

open Firmware Effect Control

/-- The percentage before it is cut to `int16_t` and clamped. -/
def pwrQuot (upLim lowLim batVolt : ℕ) : ℤ :=
  (100 * ((batVolt : ℤ) - lowLim)).tdiv ((upLim : ℤ) - lowLim)

/-- The limits are ordered, so the percentage is defined and does not fall as the voltage
rises. -/
structure GaugeSound (m : Machine) : Prop where
  ordered : m.conf.batLowLim < m.conf.batUpLim
  defined : ∀ batVolt, ∃ pwr, batPwrCalc m.conf.batUpLim m.conf.batLowLim batVolt = .ok pwr
  rising : ∀ v w, v ≤ w →
    pwrQuot m.conf.batUpLim m.conf.batLowLim v ≤ pwrQuot m.conf.batUpLim m.conf.batLowLim w

/-- An accepted write leaves the limits ordered: each is the one it brings, or the one
before. -/
def OrdersLimits (e : Event) (m : Machine) : Prop :=
  match e with
  | .write regAddr wrData => Accepted regAddr wrData →
    (request regAddr wrData 10).getD m.conf.batLowLim <
      (request regAddr wrData 9).getD m.conf.batUpLim
  | _ => True

variable {m m' : Machine} {startOk : List Call → Bool}

/-- The percentage is the clamped quotient where the limits differ. -/
theorem batPwrCalc_eq {upLim lowLim : ℕ} (h : upLim ≠ lowLim) (batVolt : ℕ) :
    batPwrCalc upLim lowLim batVolt =
      .ok (if int16 (pwrQuot upLim lowLim batVolt) > 100 then 100
        else if int16 (pwrQuot upLim lowLim batVolt) < 0 then 0
        else int16 (pwrQuot upLim lowLim batVolt)) := by
  have hne : ¬(upLim : ℤ) - lowLim = 0 := by omega
  exact if_neg hne

/-- A positive span does not turn the order of the voltages round. -/
theorem pwrQuot_mono {upLim lowLim : ℕ} (h : lowLim < upLim) {v w : ℕ} (hvw : v ≤ w) :
    pwrQuot upLim lowLim v ≤ pwrQuot upLim lowLim w := by
  have hspan : (0 : ℤ) < (upLim : ℤ) - lowLim := by omega
  have hnum : 100 * ((v : ℤ) - lowLim) ≤ 100 * ((w : ℤ) - lowLim) := by omega
  exact Int.tdiv_le_tdiv hspan hnum

/-- **Ordered limits are all the gauge needs.** -/
theorem gaugeSound_iff : GaugeSound m ↔ m.conf.batLowLim < m.conf.batUpLim := by
  constructor
  · intro h
    exact h.ordered
  · intro h
    exact ⟨h, fun v => ⟨_, batPwrCalc_eq h.ne' v⟩, fun v w hvw => pwrQuot_mono h hvw⟩

theorem gaugeSound_step (e : Event) (m m' : Machine) (hm : InRange m) (h : GaugeSound m)
    (he : (step (quiet startOk) e).run m = .ok () m') : GaugeSound m' ↔ OrdersLimits e m := by
  rw [gaugeSound_iff]
  cases e with
  | write regAddr wrData =>
    rcases step_spec hm.live he with ⟨_, ⟨hacc, rfl⟩ | ⟨hacc, rfl⟩⟩
    · have hlow : (storeAll regAddr wrData m.conf).batLowLim =
          (request regAddr wrData 10).getD m.conf.batLowLim :=
        @load_store_request .batLowLim 10 regAddr wrData hacc rfl m.conf
      have hup : (storeAll regAddr wrData m.conf).batUpLim =
          (request regAddr wrData 9).getD m.conf.batUpLim :=
        @load_store_request .batUpLim 9 regAddr wrData hacc rfl m.conf
      rw [OrdersLimits, forall_prop_of_true hacc, ← hlow, ← hup]
    · rw [afterPassed_conf]
      exact iff_of_true h.ordered fun hacc' => absurd hacc' hacc
  | _ =>
    rw [conf_step hm.live he (by simp)]
    exact iff_of_true h.ordered trivial

/-- **The battery limits stay ordered**, and the percentage with them defined and rising,
throughout the runs from the start-up in which every accepted write leaves them ordered,
and throughout no other run. -/
theorem limits_ordered_iff (startOk : List Call → Bool) (es : List Event) :
    Throughout (step (quiet startOk)) GaugeSound es boot ↔
      Guarded (step (quiet startOk)) OrdersLimits es boot :=
  throughout_iff_guarded inRange_step gaugeSound_step inRange_boot
    (gaugeSound_iff.2 (show 2800 < 4200 by decide))

/-- Writing the lower limit to 4200, which is accepted, makes the next update divide by
zero, and writing it to 4500 makes the percentage fall from 4100 to 4200. -/
theorem limits_not_ordered :
    (∃ m, (run (step hal) [.write 10 [4200]]).run boot = .ok () m ∧ ¬GaugeSound m ∧
      ∀ v, batPwrCalc m.conf.batUpLim m.conf.batLowLim v = .error .divZero) ∧
    (∃ m, (run (step hal) [.write 10 [4500]]).run boot = .ok () m ∧ ¬GaugeSound m ∧
      pwrQuot m.conf.batUpLim m.conf.batLowLim 4200 <
        pwrQuot m.conf.batUpLim m.conf.batLowLim 4100) := by
  obtain ⟨m₁, hrun₁, hconf₁, _⟩ := @write_single (fun _ => true) boot .batLowLim 10
    inRange_boot.live 4200 (by decide) rfl
  obtain ⟨m₂, hrun₂, hconf₂, _⟩ := @write_single (fun _ => true) boot .batLowLim 10
    inRange_boot.live 4500 (by decide) rfl
  have hup₁ : m₁.conf.batUpLim = 4200 := by rw [hconf₁]; rfl
  have hlow₁ : m₁.conf.batLowLim = 4200 := by rw [hconf₁]; rfl
  have hup₂ : m₂.conf.batUpLim = 4200 := by rw [hconf₂]; rfl
  have hlow₂ : m₂.conf.batLowLim = 4500 := by rw [hconf₂]; rfl
  refine ⟨⟨m₁, run_cons_ok.2 ⟨m₁, hrun₁, rfl⟩, fun h => ?_, fun v => ?_⟩,
    ⟨m₂, run_cons_ok.2 ⟨m₂, hrun₂, rfl⟩, fun h => ?_, ?_⟩⟩
  · have := h.ordered
    omega
  · rw [hup₁, hlow₁]
    rfl
  · have := h.ordered
    omega
  · rw [hup₂, hlow₂]
    decide

end Battery
end AccTx
