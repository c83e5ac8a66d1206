/-
# The charge gauge

`bat_pwr_calc` computes the percentage on `int`, stores it to an `int16_t` and clamps it to
0 and 100 only then.  A voltage far from the limits has a quotient that does not fit, and the
cut turns a large one negative, or a small one positive: the gauge of a full battery reads
empty.

The quotient moves by at most 100 from one voltage to the next, so one that leaves the 16 bits
does so by less than 100 first, and there the gauge shows the other end.  So it is exact for
the voltages up to the largest exactly where the quotients of the largest voltage and of
0 mV fit (`gauge_exact_iff`).
-/

import AccTx.Battery.Average
import AccTx.Battery.Limits
import Mathlib.Algebra.Order.Group.Unbundled.Int

namespace AccTx
namespace Battery

open Firmware Effect Control

/-- The largest `bat_volt` of 12-bit readings, 3300 mV scaled by 105/50. -/
def BAT_VOLT_MAX : ℕ := 6930

example : adcGetVolt 4095 * 105 / 50 = BAT_VOLT_MAX := by decide

/-- A percentage clamped to 0 and 100. -/
def clamp (pwr : ℤ) : ℤ := min 100 (max 0 pwr)

/-- The gauge shows the clamped quotient: nothing up to the lower limit, all from the upper
one on, and never less as the voltage rises. -/
structure GaugeExact (upLim lowLim : ℕ) : Prop where
  value : ∀ v ≤ BAT_VOLT_MAX,
    batPwrCalc upLim lowLim v = .ok (min 100 (max 0 (pwrQuot upLim lowLim v)))
  empty : ∀ v ≤ BAT_VOLT_MAX, v ≤ lowLim → batPwrCalc upLim lowLim v = .ok 0
  full : ∀ v ≤ BAT_VOLT_MAX, upLim ≤ v → batPwrCalc upLim lowLim v = .ok 100
  rising : ∀ v w p q, v ≤ w → w ≤ BAT_VOLT_MAX → batPwrCalc upLim lowLim v = .ok p →
    batPwrCalc upLim lowLim w = .ok q → p ≤ q

/-- What percentage of the span `n` mV are. -/
def share (span n : ℕ) : ℕ := 100 * n / span

variable {upLim lowLim span t n v : ℕ} {z : ℤ}

/-! ### The quotient -/

theorem share_succ_le (hs : 1 ≤ span) (n : ℕ) : share span (n + 1) ≤ share span n + 100 := by
  have hle : 100 * (n + 1) ≤ 100 * n + 100 * span := by omega
  calc share span (n + 1) ≤ (100 * n + 100 * span) / span := Nat.div_le_div_right hle
    _ = share span n + 100 := Nat.add_mul_div_right _ _ hs

theorem share_mono {k : ℕ} (h : n ≤ k) (span : ℕ) : share span n ≤ share span k :=
  Nat.div_le_div_right (Nat.mul_le_mul_left 100 h)

/-- A share that is reached is reached in a step of at most 100. -/
theorem exists_share_near (hs : 1 ≤ span) (ht : 1 ≤ t) (h : t ≤ share span n) :
    ∃ k ≤ n, t ≤ share span k ∧ share span k < t + 100 := by
  induction n with
  | zero =>
    rw [share, Nat.mul_zero, Nat.zero_div] at h
    omega
  | succ n ih =>
    rcases Nat.lt_or_ge (share span n) t with hlt | hge
    · have hstep := share_succ_le hs n
      exact ⟨n + 1, le_rfl, h, by omega⟩
    · obtain ⟨k, hk, hnear⟩ := ih hge
      exact ⟨k, Nat.le_succ_of_le hk, hnear⟩

/-- Above the lower limit the quotient is the share of what is above. -/
theorem pwrQuot_above (h : lowLim ≤ upLim) (hv : lowLim ≤ v) :
    pwrQuot upLim lowLim v = share (upLim - lowLim) (v - lowLim) := by
  have hnum : 100 * ((v : ℤ) - lowLim) = (100 * (v - lowLim) : ℕ) := by omega
  have hspan : (upLim : ℤ) - lowLim = (upLim - lowLim : ℕ) := by omega
  rw [pwrQuot, hnum, hspan]
  rfl

/-- Below it, the share of what is missing, negated. -/
theorem pwrQuot_below (h : lowLim ≤ upLim) (hv : v ≤ lowLim) :
    pwrQuot upLim lowLim v = -share (upLim - lowLim) (lowLim - v) := by
  have hnum : 100 * ((v : ℤ) - lowLim) = -(100 * (lowLim - v) : ℕ) := by omega
  have hspan : (upLim : ℤ) - lowLim = (upLim - lowLim : ℕ) := by omega
  rw [pwrQuot, hnum, hspan, Int.neg_tdiv]
  rfl

/-! ### The cut -/

theorem int16_eq_self (h₀ : -32768 ≤ z) (h₁ : z ≤ 32767) : int16 z = z := by
  unfold int16
  exact Int.bmod_eq_of_le (by omega) (by omega)

/-- Where a quotient just does not fit, the gauge shows the other end. -/
theorem clamp_int16_above (h₀ : 32768 ≤ z) (h₁ : z < 32868) :
    clamp (int16 z) = 0 ∧ clamp z = 100 := by
  unfold clamp int16
  rw [Int.bmod_def]
  split <;> omega

theorem clamp_int16_below (h₀ : -32869 < z) (h₁ : z < -32768) :
    clamp (int16 z) = 100 ∧ clamp z = 0 := by
  unfold clamp int16
  rw [Int.bmod_def]
  split <;> omega

theorem clamp_mono {w : ℤ} (h : z ≤ w) : clamp z ≤ clamp w := by
  unfold clamp
  omega

/-- The gauge clamps what the cut leaves of the quotient. -/
theorem batPwrCalc_eq_clamp (h : lowLim < upLim) (v : ℕ) :
    batPwrCalc upLim lowLim v = .ok (clamp (int16 (pwrQuot upLim lowLim v))) := by
  rw [batPwrCalc_eq h.ne']
  refine congrArg Except.ok ?_
  unfold clamp
  split_ifs <;> omega

/-! ### The gauge -/

/-- Where the quotients of all voltages fit, the cut does nothing. -/
theorem gaugeExact_of_fits (h : lowLim < upLim)
    (hhigh : share (upLim - lowLim) (BAT_VOLT_MAX - lowLim) ≤ 32767)
    (hzero : share (upLim - lowLim) lowLim ≤ 32768) : GaugeExact upLim lowLim := by
  have hvalue : ∀ v ≤ BAT_VOLT_MAX,
      batPwrCalc upLim lowLim v = .ok (clamp (pwrQuot upLim lowLim v)) := by
    intro v hv
    rw [batPwrCalc_eq_clamp h, int16_eq_self]
    · rcases Nat.le_total lowLim v with hge | hle
      · rw [pwrQuot_above h.le hge]
        omega
      · have hmono := share_mono (Nat.sub_le lowLim v) (upLim - lowLim)
        rw [pwrQuot_below h.le hle]
        omega
    · rcases Nat.le_total lowLim v with hge | hle
      · have hmono := share_mono (Nat.sub_le_sub_right hv lowLim) (upLim - lowLim)
        rw [pwrQuot_above h.le hge]
        omega
      · rw [pwrQuot_below h.le hle]
        omega
  constructor
  case value => exact hvalue
  case empty =>
    intro v hv hle
    rw [hvalue v hv, pwrQuot_below h.le hle]
    unfold clamp
    exact congrArg Except.ok (by omega)
  case full =>
    intro v hv hge
    have hshare : 100 ≤ share (upLim - lowLim) (v - lowLim) := by
      have hspan : upLim - lowLim ≤ v - lowLim := Nat.sub_le_sub_right hge lowLim
      exact (Nat.le_div_iff_mul_le (by omega)).2 (Nat.mul_le_mul_left 100 hspan)
    rw [hvalue v hv, pwrQuot_above h.le (h.le.trans hge)]
    unfold clamp
    exact congrArg Except.ok (by omega)
  case rising =>
    intro v w p q hvw hw hp hq
    rw [hvalue v (hvw.trans hw)] at hp
    rw [hvalue w hw] at hq
    rw [← Except.ok.inj hp, ← Except.ok.inj hq]
    exact clamp_mono (pwrQuot_mono h hvw)

/-- Where the quotient of the largest voltage does not fit, a full battery reads empty. -/
theorem exists_reads_empty (h : lowLim < upLim) (hlow : lowLim ≤ BAT_VOLT_MAX)
    (hhigh : 32768 ≤ share (upLim - lowLim) (BAT_VOLT_MAX - lowLim)) :
    ∃ v ≤ BAT_VOLT_MAX,
      batPwrCalc upLim lowLim v = .ok 0 ∧ clamp (pwrQuot upLim lowLim v) = 100 := by
  obtain ⟨k, hk, hge, hlt⟩ := exists_share_near (by omega) (by omega) hhigh
  have hquot : pwrQuot upLim lowLim (lowLim + k) = share (upLim - lowLim) k := by
    rw [pwrQuot_above h.le (Nat.le_add_right _ _), Nat.add_sub_cancel_left]
  obtain ⟨hcut, hclamp⟩ := @clamp_int16_above (pwrQuot upLim lowLim (lowLim + k)) (by omega)
    (by omega)
  exact ⟨lowLim + k, by omega, by rw [batPwrCalc_eq_clamp h, hcut], hclamp⟩

/-- Where that of 0 mV does not fit, an empty one reads full. -/
theorem exists_reads_full (h : lowLim < upLim) (hlow : lowLim ≤ BAT_VOLT_MAX)
    (hzero : 32769 ≤ share (upLim - lowLim) lowLim) :
    ∃ v ≤ BAT_VOLT_MAX,
      batPwrCalc upLim lowLim v = .ok 100 ∧ clamp (pwrQuot upLim lowLim v) = 0 := by
  obtain ⟨k, hk, hge, hlt⟩ := exists_share_near (by omega) (by omega) hzero
  have hquot : pwrQuot upLim lowLim (lowLim - k) = -share (upLim - lowLim) k := by
    rw [pwrQuot_below h.le (Nat.sub_le _ _), Nat.sub_sub_self hk]
  obtain ⟨hcut, hclamp⟩ := @clamp_int16_below (pwrQuot upLim lowLim (lowLim - k)) (by omega)
    (by omega)
  exact ⟨lowLim - k, (Nat.sub_le _ _).trans hlow, by rw [batPwrCalc_eq_clamp h, hcut], hclamp⟩

/-- **The charge gauge is exact**, for a lower limit the table admits and any upper limit
above it, where the span is wide enough for the quotients of the largest voltage and of 0 mV
to fit `int16_t`, and for no others. -/
theorem gauge_exact_iff (upLim lowLim : ℕ) (hlow : rowOk 10 lowLim) (h : lowLim < upLim) :
    GaugeExact upLim lowLim ↔ 100 * (BAT_VOLT_MAX - lowLim) < 32768 * (upLim - lowLim) ∧
      100 * lowLim < 32769 * (upLim - lowLim) := by
  have hle : lowLim ≤ BAT_VOLT_MAX := by
    obtain ⟨row, hrow, _, hmax⟩ := rowOk_iff.1 hlow
    obtain rfl := Option.some.inj hrow
    exact hmax.trans (by decide)
  have hspan : 0 < upLim - lowLim := Nat.sub_pos_of_lt h
  rw [← Nat.div_lt_iff_lt_mul hspan, ← Nat.div_lt_iff_lt_mul hspan]
  constructor
  · intro hexact
    constructor
    · by_contra hhigh
      obtain ⟨v, hv, hread, hclamp⟩ := exists_reads_empty h hle (Nat.le_of_not_lt hhigh)
      have hval := Except.ok.inj (hread.symm.trans (hexact.value v hv))
      rw [clamp] at hclamp
      omega
    · by_contra hzero
      obtain ⟨v, hv, hread, hclamp⟩ := exists_reads_full h hle (Nat.le_of_not_lt hzero)
      have hval := Except.ok.inj (hread.symm.trans (hexact.value v hv))
      rw [clamp] at hclamp
      omega
  · rintro ⟨hhigh, hzero⟩
    exact gaugeExact_of_fits h (Nat.le_of_lt_succ hhigh) (Nat.le_of_lt_succ hzero)

/-- The default limits. -/
theorem gauge_exact_iff_default :
    GaugeExact 4200 2800 ↔ 100 * (BAT_VOLT_MAX - 2800) < 32768 * (4200 - 2800) ∧
      100 * 2800 < 32769 * (4200 - 2800) :=
  gauge_exact_iff 4200 2800 (by decide) (by decide)

/-- With the limits 3000 and 3001 the largest voltage reads 0 and not 100. -/
theorem gauge_of_full_reads_empty :
    rowOk 9 3001 ∧ rowOk 10 3000 ∧ batPwrCalc 3001 3000 BAT_VOLT_MAX = .ok 0 ∧
      pwrQuot 3001 3000 BAT_VOLT_MAX = 393000 ∧ ¬GaugeExact 3001 3000 := by
  refine ⟨by decide, by decide, by decide, by decide, fun h => ?_⟩
  have hread := h.full BAT_VOLT_MAX le_rfl (by decide)
  exact absurd hread (by decide)

end Battery
end AccTx
