/-
# The moving average is the mean of the last samples

With a constant window size `n` from the zeroed window on, the slots of `mav_buffer` are a
ring that holds the last `n` samples (`Series.Holds`), and `accum_sum` is their sum.  While
the window fills the sum only grows, and the divisor is the number of samples; from then on
the sample that leaves the sum is the one whose slot is taken, and the divisor is `n`.  So
each call divides the sum of the last samples by their number (`mavCalc_averages`).

The sum of 64 samples of 16 bits fits the 32 bits of `accum_sum`, so it never wraps.  What
`bat_mav_calc` makes of the average may wrap its 16 bits, but not for the voltages the
converter can measure.
-/

import AccTx.Battery.Window
import AccTx.Series.Ring

namespace AccTx
namespace Battery

open Firmware Series

/-- The floor of the mean of the last `n` samples, or of all of them where there are
fewer. -/
def mean (n : ℕ) (vs : List ℕ) : ℕ := (vs.rtake n).sum / min vs.length n

/-- The window before its first sample. -/
def zeroed : BatSt := { mavBuffer := fun _ => 0, mavCnt := 0, accumSum := 0, bufferFf := 0 }

/-- What successive calls with one window size return. -/
def averages (mav : ℕ → ℕ → BatSt → Except (Fault × BatSt) (ℕ × BatSt)) (mavCntSet : ℕ) :
    List ℕ → BatSt → Except (Fault × BatSt) (List ℕ)
  | [], _ => .ok []
  | v :: vs, b => do
    let (r, b') ← mav v mavCntSet b
    let rs ← averages mav mavCntSet vs b'
    return r :: rs

/-- `0.8059*temp` converted to `uint16_t`, as `adc_get_volt` does with the raw value of the
converter: of the 12-bit readings only 0 has a product closer to an integer than 0.0001. -/
def adcGetVolt (temp : ℕ) : ℕ := 8059 * temp / 10000 % 2 ^ 16

/-- The window after the samples `vs`. -/
structure Averages (n : ℕ) (vs : List ℕ) (b : BatSt) : Prop where
  cnt : b.mavCnt = vs.length % n
  ff : b.bufferFf = 0 ↔ vs.length < n
  sum : b.accumSum = (vs.rtake n).sum
  slots : Holds b.mavBuffer n vs

variable {n x : ℕ} {vs : List ℕ} {b : BatSt}

/-- The system starts with both windows zeroed. -/
theorem boot_windows : boot.bat = zeroed ∧ boot.temp = zeroed := ⟨rfl, rfl⟩

theorem averages_zeroed (hn : 1 ≤ n) : Averages n [] zeroed := by
  refine ⟨(Nat.zero_mod n).symm, iff_of_true rfl hn, ?_, holds_nil _ n⟩
  rw [List.rtake_nil, List.sum_nil]
  rfl

/-- The samples of a window fit its sum. -/
theorem sum_fits (hn : n ≤ 64) (hvs : ∀ v ∈ vs, v < 2 ^ 16) :
    (vs.rtake n).sum ≤ 64 * (2 ^ 16 - 1) := by
  have hle : ∀ v ∈ vs, v ≤ 2 ^ 16 - 1 := fun v hv => Nat.le_sub_one_of_lt (hvs v hv)
  refine (sum_rtake_le hle n).trans (Nat.mul_le_mul_right _ ?_)
  omega

/-- A mean is at most the largest sample. -/
theorem mean_le {c : ℕ} (hvs : ∀ v ∈ vs, v ≤ c) (n : ℕ) : mean n vs ≤ c := by
  rcases Nat.eq_zero_or_pos (min vs.length n) with hz | hpos
  · rw [mean, hz, Nat.div_zero]
    exact Nat.zero_le c
  · exact Nat.div_le_of_le_mul (sum_rtake_le hvs n)

/-- **The sum after a call**: while the window fills the sample enters it, and once it is
full the sample in the slot leaves it. -/
theorem sumAfter_averages (hn : 1 ≤ n) (hmax : n ≤ 64) (h : Averages n vs b)
    (hvs : ∀ v ∈ vs ++ [x], v < 2 ^ 16) {j : Fin 64} (hj : j.val = vs.length % n) :
    sumAfter x b j = ((vs ++ [x]).rtake n).sum := by
  have hfits := sum_fits hmax hvs
  unfold sumAfter
  rcases Nat.lt_or_ge vs.length n with hlt | hge
  · have hall : (vs ++ [x]).rtake n = vs ++ [x] := by
      refine rtake_of_length_le ?_
      rw [List.length_append, List.length_singleton]
      omega
    have hval : b.accumSum + x = ((vs ++ [x]).rtake n).sum := by
      rw [h.sum, hall, rtake_of_length_le hlt.le, List.sum_append, List.sum_singleton]
    rw [if_pos (h.ff.2 hlt), hval]
    exact Nat.mod_eq_of_lt (by omega)
  · have hold : b.mavBuffer j = vs[vs.length - n] := h.slots.oldest hn hge hj
    have hslot : vs[vs.length - n] < 2 ^ 16 :=
      hvs _ (List.mem_append_left _ (List.getElem_mem _))
    have hmove := sum_rtake_concat hn hge x
    have hval : b.accumSum + 2 ^ 32 - b.mavBuffer j + x = ((vs ++ [x]).rtake n).sum + 2 ^ 32 := by
      rw [h.sum, hold]
      omega
    rw [if_neg fun hff => absurd (h.ff.1 hff) (Nat.not_lt.2 hge), hval, Nat.add_mod_right]
    exact Nat.mod_eq_of_lt (by omega)

/-- The divisor of a call is the number of the samples it averages. -/
theorem divisor_averages (h : Averages n vs b) : divisor n b = min (vs.length + 1) n := by
  have hff := h.ff
  have hcnt := h.cnt
  unfold divisor
  split
  · rename_i hfill
    rw [Nat.mod_eq_of_lt (hff.1 hfill)] at hcnt
    omega
  · rename_i hfull
    have hge : ¬vs.length < n := fun hlt => hfull (hff.2 hlt)
    omega

/-- **One call** returns the mean of the last samples, its own included. -/
theorem mavCalc_averages (hn : 1 ≤ n) (hmax : n ≤ 64) (h : Averages n vs b)
    (hvs : ∀ v ∈ vs ++ [x], v < 2 ^ 16) :
    ∃ b', mavCalc x n b = .ok (mean n (vs ++ [x]), b') ∧ Averages n (vs ++ [x]) b' := by
  have hcnt : b.mavCnt < n := h.cnt ▸ Nat.mod_lt _ hn
  have hfit : b.mavCnt < MAV_MAX_CNT := hcnt.trans_le hmax
  have hz : divisor n b ≠ 0 := divisor_ne_zero hn
  obtain ⟨j, hj⟩ : ∃ j : Fin 64, j.val = b.mavCnt := ⟨⟨b.mavCnt, hfit⟩, rfl⟩
  have hslot : j.val = vs.length % n := hj.trans h.cnt
  have hlen : (vs ++ [x]).length = vs.length + 1 := by
    rw [List.length_append, List.length_singleton]
  have hsum : (windowAfter x n b).accumSum = ((vs ++ [x]).rtake n).sum := by
    rw [windowAfter_accumSum hj, sumAfter_averages hn hmax h hvs hslot]
  refine ⟨windowAfter x n b, ?_, ?_⟩
  · have hle := @mean_le (vs ++ [x]) (2 ^ 16 - 1) (fun v hv => Nat.le_sub_one_of_lt (hvs v hv)) n
    have hmean : mean n (vs ++ [x]) % 2 ^ 16 = mean n (vs ++ [x]) := Nat.mod_eq_of_lt (by omega)
    rw [mavCalc_windowAfter hfit hz, hsum, divisor_averages h, ← hlen, ← mean, hmean]
  · constructor
    case cnt =>
      rw [windowAfter_mavCnt hfit, nextCnt, h.cnt, hlen, succ_mod hn]
    case ff =>
      have hff := h.ff
      have hpos := h.cnt
      rw [windowAfter_bufferFf hfit, hff, hlen]
      constructor
      · rintro ⟨hlt, hnext⟩
        rw [Nat.mod_eq_of_lt hlt] at hpos
        omega
      · intro hlt
        rw [Nat.mod_eq_of_lt (Nat.lt_of_succ_lt hlt)] at hpos
        omega
    case sum => exact hsum
    case slots =>
      rw [windowAfter_mavBuffer hj]
      exact h.slots.push hslot x

/-- **Successive calls**, from a window with a history on. -/
theorem averages_tempMavCalc (hn : 1 ≤ n) (hmax : n ≤ 64) {ws : List ℕ} (h : Averages n ws b)
    (hvs : ∀ v ∈ ws ++ vs, v < 2 ^ 16) :
    averages tempMavCalc n vs b =
      .ok ((List.range vs.length).map fun k => mean n (ws ++ vs.take (k + 1))) := by
  induction vs generalizing ws b with
  | nil => rfl
  | cons v vs ih =>
    have hassoc : ws ++ v :: vs = ws ++ [v] ++ vs := by
      rw [List.append_assoc, List.singleton_append]
    rw [hassoc] at hvs
    obtain ⟨b', hcall, h'⟩ := @mavCalc_averages n v ws b hn hmax h
      fun w hw => hvs w (List.mem_append_left _ hw)
    have hrest := ih h' hvs
    simp only [averages, tempMavCalc, hcall, bind, Except.bind, hrest, pure, Except.pure]
    rw [List.length_cons, List.range_succ_eq_map, List.map_cons, List.map_map]
    congr 2
    refine List.map_congr_left fun k _ => ?_
    rw [Function.comp_apply, List.take_succ_cons, List.append_assoc, List.singleton_append]

/-- `bat_mav_calc` scales what `temp_mav_calc` would return. -/
theorem averages_batMavCalc {rs : List ℕ} (h : averages tempMavCalc n vs b = .ok rs) :
    averages batMavCalc n vs b = .ok (rs.map fun r => r * 105 / 50 % 2 ^ 16) := by
  induction vs generalizing b rs with
  | nil =>
    obtain rfl : [] = rs := Except.ok.inj h
    rfl
  | cons v vs ih =>
    simp only [averages, tempMavCalc, batMavCalc, bind, Except.bind] at h ⊢
    cases hcall : mavCalc v n b with
    | error f => simp [hcall] at h
    | ok p =>
      simp only [hcall] at h ⊢
      cases hrest : averages tempMavCalc n vs p.2 with
      | error f => simp [hrest] at h
      | ok rs' =>
        simp only [hrest, pure, Except.pure, Except.ok.injEq] at h
        subst h
        simp only [pure, Except.pure, ih hrest, List.map_cons]

/-- A 12-bit reading is at most 3300 mV. -/
theorem adcGetVolt_le {raw : ℕ} (h : raw < 2 ^ 12) : adcGetVolt raw ≤ 3300 := by
  have hdiv : 8059 * raw / 10000 ≤ 3300 := by omega
  exact (Nat.mod_le _ _).trans hdiv

/-- **The moving average is the mean of the last samples**, for every constant window size
from 1 to 64 and every sequence of 16-bit samples from the zeroed window on.
`temp_mav_calc` returns it, and `bat_mav_calc` returns it scaled by 105/50, which for the
voltages of 12-bit readings does not wrap. -/
theorem moving_average_is_mean (n : ℕ) (hn : 1 ≤ n) (hmax : n ≤ 64) (vs : List ℕ)
    (hvs : ∀ v ∈ vs, v < 2 ^ 16) :
    averages tempMavCalc n vs zeroed =
        .ok ((List.range vs.length).map fun k => mean n (vs.take (k + 1))) ∧
      averages batMavCalc n vs zeroed =
        .ok ((List.range vs.length).map fun k => mean n (vs.take (k + 1)) * 105 / 50 % 2 ^ 16) ∧
      ∀ raws : List ℕ, (∀ raw ∈ raws, raw < 2 ^ 12) → vs = raws.map adcGetVolt →
        averages batMavCalc n vs zeroed =
          .ok ((List.range vs.length).map fun k => mean n (vs.take (k + 1)) * 105 / 50) := by
  have htemp := @averages_tempMavCalc n vs zeroed hn hmax [] (averages_zeroed hn) hvs
  have hbat := averages_batMavCalc htemp
  simp only [List.nil_append, List.map_map] at htemp hbat
  refine ⟨htemp, hbat, fun raws hraws heq => hbat.trans (congrArg Except.ok ?_)⟩
  refine List.map_congr_left fun k _ => ?_
  have hle : mean n (vs.take (k + 1)) ≤ 3300 := by
    refine mean_le (fun v hv => ?_) n
    have hmem := List.mem_of_mem_take hv
    rw [heq] at hmem
    obtain ⟨raw, hraw, rfl⟩ := List.mem_map.1 hmem
    exact adcGetVolt_le (hraws raw hraw)
  have hfit : mean n (vs.take (k + 1)) * 105 / 50 < 2 ^ 16 := by omega
  exact Nat.mod_eq_of_lt hfit

/-- A window of two samples and three readings. -/
theorem moving_average_is_mean_two :
    averages tempMavCalc 2 [3300, 1650, 0] zeroed =
        .ok ((List.range 3).map fun k => mean 2 ([3300, 1650, 0].take (k + 1))) ∧
      averages batMavCalc 2 [3300, 1650, 0] zeroed =
        .ok ((List.range 3).map fun k => mean 2 ([3300, 1650, 0].take (k + 1)) * 105 / 50 %
          2 ^ 16) ∧
      ∀ raws : List ℕ, (∀ raw ∈ raws, raw < 2 ^ 12) → [3300, 1650, 0] = raws.map adcGetVolt →
        averages batMavCalc 2 [3300, 1650, 0] zeroed =
          .ok ((List.range 3).map fun k => mean 2 ([3300, 1650, 0].take (k + 1)) * 105 / 50) :=
  moving_average_is_mean 2 (by decide) (by decide) [3300, 1650, 0] (by decide)

end Battery
end AccTx
