/-
# The window of the moving average

`bat_mav_calc` and `temp_mav_calc` put each sample into the slot `mav_cnt` of their
window and step `mav_cnt`, which wraps where it reaches `bat_mav_cnt`.  While the window
fills for the first time they divide by the number of samples so far, afterwards by
`bat_mav_cnt`.  Neither the slot nor the divisor is checked: the first relies on
`bat_mav_cnt` being at most the 64 slots of the buffer, the second on its not being zero,
and the table admits 0 to 128.

`mavCalc_cases` is what one call does, `batUpdateOn_ok` what an update does to the two
windows; nothing else touches them (`windows_step`).  The two windows step together, as
long as they stay in their buffers.  From these come the runs all of whose updates index
them inside (`window_fits_iff`) and those in which no update divides by zero, whatever
goes on behind an undefined operation (`divisors_nonzero_iff`).
-/

import AccTx.Control.Store

namespace AccTx
namespace Battery

open Firmware Effect Control

def MAV_MAX_CNT : ℕ := 64

/-- What a call with the window size `mavCntSet` divides by: the samples taken while the
window fills, the window size once it is full. -/
def divisor (mavCntSet : ℕ) (b : BatSt) : ℕ := if b.bufferFf = 0 then b.mavCnt + 1 else mavCntSet

/-- `accum_sum` after a call that takes the slot `j`. -/
def sumAfter (cur : ℕ) (b : BatSt) (j : Fin 64) : ℕ :=
  if b.bufferFf = 0 then (b.accumSum + cur) % 2 ^ 32
  else (b.accumSum + 2 ^ 32 - b.mavBuffer j + cur) % 2 ^ 32

/-- The slot after the one a call takes. -/
def nextCnt (mavCntSet : ℕ) (b : BatSt) : ℕ :=
  if b.mavCnt + 1 ≥ mavCntSet then 0 else b.mavCnt + 1

/-- The window a call leaves behind, also where it stops. -/
def windowAfter (cur mavCntSet : ℕ) (b : BatSt) : BatSt :=
  match mavCalc cur mavCntSet b with
  | .ok p => p.2
  | .error p => p.2

/-- The update gets as far as `temp_mav_calc`, without anything undefined before it. -/
def ReachesTemp (m : Machine) : Prop :=
  m.bat.mavCnt < MAV_MAX_CNT ∧ divisor m.conf.batMavCnt m.bat ≠ 0 ∧
    m.conf.batUpLim ≠ m.conf.batLowLim

variable {cur mavCntSet : ℕ} {b : BatSt} {m m' : Machine} {startOk : List Call → Bool}
  {u : Option Undefined}

/-! ### One call -/

/-- Only a full window with the size zero divides by zero. -/
theorem divisor_eq_zero_iff : divisor mavCntSet b = 0 ↔ mavCntSet = 0 ∧ b.bufferFf ≠ 0 := by
  unfold divisor
  split <;> omega

theorem divisor_ne_zero (hn : 1 ≤ mavCntSet) : divisor mavCntSet b ≠ 0 :=
  fun hz => absurd (divisor_eq_zero_iff.1 hz).1 (Nat.one_le_iff_ne_zero.1 hn)

theorem divisor_filling (hff : b.bufferFf = 0) : divisor mavCntSet b ≠ 0 :=
  fun hz => (divisor_eq_zero_iff.1 hz).2 hff

/-- **The window a call in the buffer leaves**, whatever it divides by. -/
theorem windowAfter_eq {j : Fin 64} (hj : j.val = b.mavCnt) :
    windowAfter cur mavCntSet b =
      { mavBuffer := Function.update b.mavBuffer j cur
        mavCnt := nextCnt mavCntSet b
        accumSum := sumAfter cur b j
        bufferFf := if b.bufferFf = 0 ∧ b.mavCnt + 1 ≥ mavCntSet then 1 else b.bufferFf } := by
  have hfit : b.mavCnt < 64 := hj ▸ j.isLt
  have hslot : (⟨b.mavCnt, hfit⟩ : Fin 64) = j := Fin.ext hj.symm
  unfold windowAfter mavCalc sumAfter nextCnt
  rw [dif_pos hfit, hslot]
  by_cases hff : b.bufferFf = 0
  · by_cases hwrap : b.mavCnt + 1 ≥ mavCntSet <;> simp [hff, hwrap]
  · by_cases hset : mavCntSet = 0 <;> simp [hff, hset]

/-- A call in the buffer returns the sum it leaves by its divisor. -/
theorem mavCalc_windowAfter (hfit : b.mavCnt < MAV_MAX_CNT) (hz : divisor mavCntSet b ≠ 0) :
    mavCalc cur mavCntSet b = .ok
      ((windowAfter cur mavCntSet b).accumSum / divisor mavCntSet b % 2 ^ 16,
        windowAfter cur mavCntSet b) := by
  have hlt : b.mavCnt < 64 := hfit
  unfold windowAfter mavCalc divisor at *
  rw [dif_pos hlt]
  by_cases hff : b.bufferFf = 0
  · by_cases hwrap : b.mavCnt + 1 ≥ mavCntSet <;> simp [hff, hwrap]
  · rw [if_neg hff] at hz
    simp [hff, hz]

theorem mavCalc_outside (h : MAV_MAX_CNT ≤ b.mavCnt) :
    mavCalc cur mavCntSet b = .error (.mavIndex, b) :=
  dif_neg (Nat.not_lt.2 h)

/-- **What a call does.**  It indexes the buffer outside it, or it takes its slot and divides
by zero, or it returns. -/
theorem mavCalc_cases (cur mavCntSet : ℕ) (b : BatSt) :
    (MAV_MAX_CNT ≤ b.mavCnt ∧ mavCalc cur mavCntSet b = .error (.mavIndex, b)) ∨
    (b.mavCnt < MAV_MAX_CNT ∧ divisor mavCntSet b = 0 ∧
      mavCalc cur mavCntSet b = .error (.divZero, windowAfter cur mavCntSet b)) ∨
    (b.mavCnt < MAV_MAX_CNT ∧ divisor mavCntSet b ≠ 0 ∧ ∃ avg,
      mavCalc cur mavCntSet b = .ok (avg, windowAfter cur mavCntSet b)) := by
  rcases Nat.lt_or_ge b.mavCnt 64 with hfit | hout
  · by_cases hz : divisor mavCntSet b = 0
    · obtain ⟨hset, hff⟩ := divisor_eq_zero_iff.1 hz
      exact Or.inr (Or.inl ⟨hfit, hz, by simp [windowAfter, mavCalc, hfit, hff, hset]⟩)
    · exact Or.inr (Or.inr ⟨hfit, hz, _, mavCalc_windowAfter hfit hz⟩)
  · exact Or.inl ⟨hout, mavCalc_outside hout⟩

theorem mavCalc_mavIndex_iff :
    (∃ b', mavCalc cur mavCntSet b = .error (.mavIndex, b')) ↔ MAV_MAX_CNT ≤ b.mavCnt := by
  rcases mavCalc_cases cur mavCntSet b with ⟨h, heq⟩ | ⟨h, _, heq⟩ | ⟨h, _, avg, heq⟩
  · exact iff_of_true ⟨_, heq⟩ h
  · exact iff_of_false (by simp [heq]) (Nat.not_le.2 h)
  · exact iff_of_false (by simp [heq]) (Nat.not_le.2 h)

/-- `bat_mav_calc` is undefined where the window arithmetic is. -/
theorem batMavCalc_error_iff {p : Fault × BatSt} :
    batMavCalc cur mavCntSet b = .error p ↔ mavCalc cur mavCntSet b = .error p := by
  unfold batMavCalc
  cases mavCalc cur mavCntSet b with
  | error q => exact Iff.rfl
  | ok p =>
    refine iff_of_false ?_ ?_ <;> simp [pure, Except.pure, bind, Except.bind]

/-- A call in the buffer takes the next slot. -/
theorem windowAfter_mavCnt (h : b.mavCnt < MAV_MAX_CNT) :
    (windowAfter cur mavCntSet b).mavCnt = nextCnt mavCntSet b := by
  rw [windowAfter_eq (j := ⟨b.mavCnt, h⟩) rfl]

/-- It leaves the window filling where it finds it so and does not wrap. -/
theorem windowAfter_bufferFf (h : b.mavCnt < MAV_MAX_CNT) :
    (windowAfter cur mavCntSet b).bufferFf = 0 ↔
      b.bufferFf = 0 ∧ b.mavCnt + 1 < mavCntSet := by
  rw [windowAfter_eq (j := ⟨b.mavCnt, h⟩) rfl]
  simp only
  split <;> omega

theorem windowAfter_mavBuffer {j : Fin 64} (hj : j.val = b.mavCnt) :
    (windowAfter cur mavCntSet b).mavBuffer = Function.update b.mavBuffer j cur := by
  rw [windowAfter_eq hj]

theorem windowAfter_accumSum {j : Fin 64} (hj : j.val = b.mavCnt) :
    (windowAfter cur mavCntSet b).accumSum = sumAfter cur b j := by
  rw [windowAfter_eq hj]

/-- The same, going on behind an undefined operation as `u` says. -/
def windowOn (u : Option Undefined) (cur mavCntSet : ℕ) (b : BatSt) : BatSt :=
  match mavCalcOn u cur mavCntSet b with
  | .ok p => p.2
  | .error p => p.2

/-- A call in the buffer leaves the same window, whatever a division by zero brings. -/
theorem windowOn_eq (h : b.mavCnt < MAV_MAX_CNT) :
    windowOn u cur mavCntSet b = windowAfter cur mavCntSet b := by
  cases u with
  | none => rfl
  | some v =>
    unfold windowOn mavCalcOn
    rcases mavCalc_cases cur mavCntSet b with ⟨hge, _⟩ | ⟨_, _, heq⟩ | ⟨_, _, avg, heq⟩
    · exact absurd h (Nat.not_lt.2 hge)
    · rw [heq]
    · rw [heq]

theorem windowOn_outside {v : Undefined} (h : MAV_MAX_CNT ≤ b.mavCnt) :
    windowOn (some v) cur mavCntSet b = (v.outside cur mavCntSet b).2 := by
  unfold windowOn mavCalcOn
  rw [mavCalc_outside h]

/-- Who goes on gets a value. -/
theorem mavCalcOn_some (v : Undefined) (cur mavCntSet : ℕ) (b : BatSt) :
    ∃ avg, mavCalcOn (some v) cur mavCntSet b = .ok (avg, windowOn (some v) cur mavCntSet b) := by
  unfold windowOn mavCalcOn
  rcases mavCalc_cases cur mavCntSet b with ⟨_, heq⟩ | ⟨_, _, heq⟩ | ⟨_, _, avg, heq⟩ <;>
    rw [heq] <;> exact ⟨_, rfl⟩

theorem batMavCalcOn_ok {p : ℕ × BatSt} (h : mavCalcOn u cur mavCntSet b = .ok p) :
    batMavCalcOn u cur mavCntSet b = .ok (p.1 * 105 / 50 % 2 ^ 16, p.2) := by
  rw [batMavCalcOn, h]
  rfl

theorem batMavCalcOn_error {p : Fault × BatSt} (h : mavCalcOn u cur mavCntSet b = .error p) :
    batMavCalcOn u cur mavCntSet b = .error p := by
  rw [batMavCalcOn, h]
  rfl

/-! ### One update -/

theorem batPwrCalc_cases (upLim lowLim batVolt : ℕ) :
    (upLim = lowLim ∧ batPwrCalc upLim lowLim batVolt = .error .divZero) ∨
      (upLim ≠ lowLim ∧ ∃ pwr, batPwrCalc upLim lowLim batVolt = .ok pwr) := by
  unfold batPwrCalc
  by_cases h : upLim = lowLim
  · exact Or.inl ⟨h, if_pos (by omega)⟩
  · exact Or.inr ⟨h, _, if_neg (by omega)⟩

theorem batPwrCalcOn_some (v : Undefined) (upLim lowLim batVolt : ℕ) :
    ∃ pwr, batPwrCalcOn (some v) upLim lowLim batVolt = .ok pwr := by
  unfold batPwrCalcOn
  rcases batPwrCalc_cases upLim lowLim batVolt with ⟨_, heq⟩ | ⟨_, pwr, heq⟩ <;>
    rw [heq] <;> exact ⟨_, rfl⟩

/-- **What an update that returns does to the windows**: each takes its sample. -/
theorem batUpdateOn_ok {volt temp : ℕ} (he : (batUpdateOn u volt temp).run m = .ok () m') :
    m'.bat = windowOn u volt m.conf.batMavCnt m.bat ∧
      m'.temp = windowOn u temp m.conf.batMavCnt m.temp := by
  simp only [batUpdateOn, tempMavCalcOn, EStateM.run_bind, EStateM.run_get, callMav_run,
    eval_run] at he
  unfold windowOn
  cases hbat : mavCalcOn u volt m.conf.batMavCnt m.bat with
  | error p => simp only [batMavCalcOn_error hbat, reduceCtorEq] at he
  | ok p =>
    simp only [batMavCalcOn_ok hbat, modifyStat, EStateM.run_modify] at he
    cases hpwr : batPwrCalcOn u m.conf.batUpLim m.conf.batLowLim (p.1 * 105 / 50 % 2 ^ 16) with
    | error f => simp only [hpwr, reduceCtorEq] at he
    | ok pwr =>
      simp only [hpwr] at he
      cases htemp : mavCalcOn u temp m.conf.batMavCnt m.temp with
      | error q => simp only [htemp, reduceCtorEq] at he
      | ok q =>
        simp only [htemp, setBatLed, EStateM.run_modify, EStateM.Result.ok.injEq, true_and] at he
        subst he
        exact ⟨rfl, rfl⟩

/-- **What an update does to the windows**, where it stops at an undefined operation: the
battery window takes its sample, and the temperature window takes its own if the update
gets there. -/
theorem windows_battery (volt temp : ℕ) (m : Machine) :
    (finalState ((batUpdate volt temp).run m)).bat = windowAfter volt m.conf.batMavCnt m.bat ∧
      ((ReachesTemp m ∧ (finalState ((batUpdate volt temp).run m)).temp =
          windowAfter temp m.conf.batMavCnt m.temp) ∨
        (¬ReachesTemp m ∧ (finalState ((batUpdate volt temp).run m)).temp = m.temp)) := by
  have hon : ∀ x n b, mavCalcOn none x n b = mavCalc x n b := fun _ _ _ => rfl
  simp only [batUpdate, batUpdateOn, tempMavCalcOn, EStateM.run_bind, EStateM.run_get,
    callMav_run, eval_run, batPwrCalcOn, ReachesTemp]
  rcases mavCalc_cases volt m.conf.batMavCnt m.bat with
    ⟨h, heq⟩ | ⟨_, hz, heq⟩ | ⟨h, hz, avg, heq⟩
  · rw [batMavCalcOn_error (u := none) heq, windowAfter, heq]
    exact ⟨rfl, Or.inr ⟨fun hr => absurd hr.1 (Nat.not_lt.2 h), rfl⟩⟩
  · rw [batMavCalcOn_error (u := none) heq]
    exact ⟨rfl, Or.inr ⟨fun hr => hr.2.1 hz, rfl⟩⟩
  · rw [batMavCalcOn_ok (u := none) heq]
    simp only [modifyStat, EStateM.run_modify]
    rcases batPwrCalc_cases m.conf.batUpLim m.conf.batLowLim (avg * 105 / 50 % 2 ^ 16) with
      ⟨hlim, hp⟩ | ⟨hlim, pwr, hp⟩
    · rw [hp]
      exact ⟨rfl, Or.inr ⟨fun hr => hr.2.2 hlim, rfl⟩⟩
    · rw [hp]
      simp only [hon]
      cases htemp : mavCalc temp m.conf.batMavCnt m.temp with
      | error t =>
        have hafter : windowAfter temp m.conf.batMavCnt m.temp = t.2 := by rw [windowAfter, htemp]
        exact ⟨rfl, Or.inl ⟨⟨h, hz, hlim⟩, hafter.symm⟩⟩
      | ok t =>
        have hafter : windowAfter temp m.conf.batMavCnt m.temp = t.2 := by rw [windowAfter, htemp]
        exact ⟨rfl, Or.inl ⟨⟨h, hz, hlim⟩, hafter.symm⟩⟩

/-- A battery event is an update, and leaves the configuration alone. -/
theorem battery_step {volt temp : ℕ}
    (he : (step (quiet startOk) (.battery volt temp)).run m = .ok () m') :
    m' = finalState ((batUpdate volt temp).run m) ∧ m'.conf = m.conf := by
  simp only [step, batEvent_run, EStateM.Result.ok.injEq, true_and] at he
  exact ⟨he.symm, he ▸ (batUpdateOn_frame none volt temp m).conf⟩

/-- **Nothing but an update touches the windows.** -/
theorem windows_step (hm : Live m) {e : Event} (he : (step (quiet startOk) e).run m = .ok () m')
    (hb : ∀ volt temp, e ≠ .battery volt temp) : m'.bat = m.bat ∧ m'.temp = m.temp := by
  by_cases hx : e = .expire
  · subst hx
    obtain ⟨w, rfl⟩ : ∃ w, m' = { m with wave := w } := step_spec hm he
    exact ⟨rfl, rfl⟩
  · exact (devices_step hm he hx hb).2

/-! ### Runs -/

theorem battery_or (e : Event) :
    (∃ volt temp, e = .battery volt temp) ∨ ∀ volt temp, e ≠ .battery volt temp := by
  cases e with
  | battery volt temp => exact Or.inl ⟨volt, temp, rfl⟩
  | _ => exact Or.inr (by simp)

theorem stepOn_eq {env : Env} {e : Event} (hb : ∀ volt temp, e ≠ .battery volt temp) :
    stepOn env u e = step env e := by
  cases e with
  | battery volt temp => exact absurd rfl (hb volt temp)
  | _ => rfl

/-- An update that returns. -/
theorem batUpdateOn_final {volt temp : ℕ} (he : (batUpdateOn u volt temp).run m = .ok () m') :
    SameOffBattery m m' := by
  have h := batUpdateOn_frame u volt temp m
  rwa [he] at h

/-- Every event keeps the ranges, also behind an undefined operation. -/
theorem inRange_stepOn {e : Event} (h : InRange m)
    (he : (stepOn (quiet startOk) u e).run m = .ok () m') : InRange m' := by
  cases e with
  | battery volt temp =>
    have hs := sameControl_of_offBattery (batUpdateOn_final he)
    exact h.congr hs.conf hs.freqIndex hs.volumIndex hs.outEn hs.rectFreq hs.timer hs.calls
  | _ =>
    rw [stepOn_eq (by simp)] at he
    exact inRange_step _ m m' h he

theorem windows_stepOn (hm : Live m) {e : Event} (hb : ∀ volt temp, e ≠ .battery volt temp)
    (he : (stepOn (quiet startOk) u e).run m = .ok () m') : m'.bat = m.bat ∧ m'.temp = m.temp := by
  rw [stepOn_eq hb] at he
  exact windows_step hm he hb

/-- What holds at every update that a run makes, of the events before it, of its samples
and of the machine it finds. -/
def AtUpdates (step : Event → Fw Unit) (P : List Event → ℕ → ℕ → Machine → Prop) :
    List Event → Machine → Prop :=
  AtEach step fun es e m => ∀ volt temp, e = .battery volt temp → P es volt temp m

theorem atUpdates_nil {step : Event → Fw Unit} {P : List Event → ℕ → ℕ → Machine → Prop} :
    AtUpdates step P [] m := atEach_nil

theorem atUpdates_battery {step : Event → Fw Unit} {P : List Event → ℕ → ℕ → Machine → Prop}
    {volt temp : ℕ} {es : List Event} : AtUpdates step P (.battery volt temp :: es) m ↔
      P [] volt temp m ∧ ∀ m', (step (.battery volt temp)).run m = .ok () m' →
        AtUpdates step (fun es₁ => P (.battery volt temp :: es₁)) es m' := by
  refine atEach_cons.trans (and_congr_left fun _ => ⟨fun h => h volt temp rfl, ?_⟩)
  rintro h v t heq
  cases heq
  exact h

theorem atUpdates_other {step : Event → Fw Unit} {P : List Event → ℕ → ℕ → Machine → Prop}
    {e : Event} {es : List Event} (hb : ∀ volt temp, e ≠ .battery volt temp) :
    AtUpdates step P (e :: es) m ↔ ∀ m', (step e).run m = .ok () m' →
      AtUpdates step (fun es₁ => P (e :: es₁)) es m' :=
  atEach_cons.trans (and_iff_right fun volt temp heq => absurd heq (hb volt temp))

/-! ### The slots -/

/-- The calls an update makes that finds the machine `m` index their buffers inside them:
`bat_mav_calc`, and `temp_mav_calc` if the update gets there. -/
def AccessesFit (u : Option Undefined) (volt temp : ℕ) (m : Machine) : Prop :=
  (∀ b, batMavCalc volt m.conf.batMavCnt m.bat ≠ .error (.mavIndex, b)) ∧
    ((u = none → ReachesTemp m) →
      ∀ b, tempMavCalc temp m.conf.batMavCnt m.temp ≠ .error (.mavIndex, b))

/-- An update that finds `bat_mav_cnt` larger than the buffer does not take the last slot. -/
def KeepsBuffer (m : Machine) : Prop :=
  MAV_MAX_CNT < m.conf.batMavCnt → m.bat.mavCnt + 1 ≠ MAV_MAX_CNT

/-- The two windows are at the same slot of their buffers. -/
structure InBuffer (m : Machine) : Prop where
  inRange : InRange m
  fits : m.bat.mavCnt < MAV_MAX_CNT
  temp : m.temp.mavCnt = m.bat.mavCnt

theorem accessesFit_iff {volt temp : ℕ} :
    AccessesFit u volt temp m ↔ m.bat.mavCnt < MAV_MAX_CNT ∧
      ((u = none → ReachesTemp m) → m.temp.mavCnt < MAV_MAX_CNT) := by
  unfold AccessesFit
  simp only [ne_eq, ← not_exists, batMavCalc_error_iff, tempMavCalc, mavCalc_mavIndex_iff,
    Nat.not_le]

theorem inBuffer_boot : InBuffer boot := ⟨inRange_boot, by decide, rfl⟩

theorem InBuffer.accessesFit (h : InBuffer m) (volt temp : ℕ) : AccessesFit u volt temp m :=
  accessesFit_iff.2 ⟨h.fits, fun _ => h.temp.symm ▸ h.fits⟩

/-- The other events leave the windows in their buffers. -/
theorem InBuffer.other (h : InBuffer m) {e : Event} (hb : ∀ volt temp, e ≠ .battery volt temp)
    (he : (stepOn (quiet startOk) u e).run m = .ok () m') : InBuffer m' := by
  obtain ⟨hbat, htemp⟩ := windows_stepOn h.inRange.live hb he
  exact ⟨inRange_stepOn h.inRange he, hbat ▸ h.fits, htemp ▸ hbat ▸ h.temp⟩

/-- **Where an update leaves the windows** that finds them in their buffers. -/
theorem InBuffer.update (h : InBuffer m) {volt temp : ℕ}
    (he : (stepOn (quiet startOk) u (.battery volt temp)).run m = .ok () m') :
    InRange m' ∧ m'.conf = m.conf ∧ m'.bat.mavCnt = nextCnt m.conf.batMavCnt m.bat ∧
      m'.temp.mavCnt = m'.bat.mavCnt := by
  obtain ⟨hbat, htemp⟩ := batUpdateOn_ok he
  have hfits : m.temp.mavCnt < MAV_MAX_CNT := h.temp.symm ▸ h.fits
  rw [windowOn_eq h.fits] at hbat
  rw [windowOn_eq hfits] at htemp
  refine ⟨inRange_stepOn h.inRange he, (batUpdateOn_final he).conf, ?_, ?_⟩
  · rw [hbat, windowAfter_mavCnt h.fits]
  · rw [hbat, htemp, windowAfter_mavCnt h.fits, windowAfter_mavCnt hfits, nextCnt, nextCnt, h.temp]

/-- An update keeps the windows in their buffers unless it takes the last slot of a window
that is larger. -/
theorem InBuffer.next (h : InBuffer m) (hk : KeepsBuffer m) {volt temp : ℕ}
    (he : (stepOn (quiet startOk) u (.battery volt temp)).run m = .ok () m') : InBuffer m' := by
  obtain ⟨hm', -, hcnt, htemp⟩ := h.update he
  refine ⟨hm', ?_, htemp⟩
  have hfits := h.fits
  unfold KeepsBuffer at hk
  rw [hcnt, nextCnt]
  unfold MAV_MAX_CNT at *
  split <;> omega

/-- Otherwise it leaves the battery window behind its buffer. -/
theorem InBuffer.leaves (h : InBuffer m) (hk : ¬KeepsBuffer m) {volt temp : ℕ}
    (he : (stepOn (quiet startOk) u (.battery volt temp)).run m = .ok () m') :
    MAV_MAX_CNT ≤ m'.bat.mavCnt := by
  obtain ⟨-, -, hcnt, -⟩ := h.update he
  simp only [KeepsBuffer, Classical.not_imp, not_not] at hk
  rw [hcnt, nextCnt, if_neg (by omega), hk.2]

variable {es : List Event}

/-- The updates of the run of `es` keep the windows in their buffers. -/
def KeepBuffer (startOk : List Call → Bool) (u : Option Undefined) : List Event → Machine → Prop :=
  AtUpdates (stepOn (quiet startOk) u) fun _ _ _ m => KeepsBuffer m

/-- **Updates that keep the windows in their buffers** leave them there. -/
theorem InBuffer.stays (h : InBuffer m) (hk : KeepBuffer startOk u es m)
    (hes : (run (stepOn (quiet startOk) u) es).run m = .ok () m') : InBuffer m' := by
  induction es generalizing m with
  | nil =>
    simp only [run_nil, EStateM.Result.ok.injEq, true_and] at hes
    exact hes ▸ h
  | cons e es ih =>
    obtain ⟨m₁, he, hrest⟩ := run_cons_ok.1 hes
    cases e with
    | battery volt temp =>
      obtain ⟨hhead, hk⟩ := atUpdates_battery.1 hk
      exact ih (h.next hhead he) (hk m₁ he) hrest
    | _ => exact ih (h.other (by simp) he) ((atUpdates_other (by simp)).1 hk m₁ he) hrest

/-- **A window behind its buffer** is found there by the next update. -/
theorem not_fit_of_outside (hm : InRange m) (hout : MAV_MAX_CNT ≤ m.bat.mavCnt) {volt temp : ℕ}
    (hes : (run (stepOn (quiet startOk) u) es).run m = .ok () m')
    (h : AtUpdates (stepOn (quiet startOk) u) (fun _ => AccessesFit u)
      (es ++ [.battery volt temp]) m) : False := by
  induction es generalizing m with
  | nil =>
    have hfit := (accessesFit_iff.1 (atUpdates_battery.1 h).1).1
    omega
  | cons e es ih =>
    obtain ⟨m₁, he, hrest⟩ := run_cons_ok.1 hes
    cases e with
    | battery v t =>
      have hfit := (accessesFit_iff.1 (atUpdates_battery.1 h).1).1
      omega
    | _ =>
      have hbat := (windows_stepOn hm.live (by simp) he).1
      exact ih (inRange_stepOn hm he) (hbat ▸ hout) hrest
        ((atUpdates_other (by simp)).1 h m₁ he)

/-- **The updates before one that fits its buffers** keep the windows in them. -/
theorem InBuffer.keeps (h : InBuffer m) {volt temp : ℕ}
    (hes : (run (stepOn (quiet startOk) u) es).run m = .ok () m')
    (hfit : AtUpdates (stepOn (quiet startOk) u) (fun _ => AccessesFit u)
      (es ++ [.battery volt temp]) m) : KeepBuffer startOk u es m := by
  induction es generalizing m with
  | nil => exact atUpdates_nil
  | cons e es ih =>
    obtain ⟨m₁, he, hrest⟩ := run_cons_ok.1 hes
    -- the step is a function, so the run goes on from the state it leaves
    have honly : ∀ m₂, (stepOn (quiet startOk) u e).run m = .ok () m₂ → m₂ = m₁ := fun m₂ h₂ =>
      (EStateM.Result.ok.inj (h₂.symm.trans he)).2
    cases e with
    | battery v t =>
      have hfit' := (atUpdates_battery.1 hfit).2 m₁ he
      by_cases hk : KeepsBuffer m
      · refine atUpdates_battery.2 ⟨hk, fun m₂ h₂ => ?_⟩
        rw [honly m₂ h₂]
        exact ih (h.next hk he) hrest hfit'
      · exact (not_fit_of_outside (h.update he).1 (h.leaves hk he) hrest hfit').elim
    | _ =>
      have hfit' := (atUpdates_other (by simp)).1 hfit m₁ he
      refine (atUpdates_other (by simp)).2 fun m₂ h₂ => ?_
      rw [honly m₂ h₂]
      exact ih (h.other (by simp) he) hrest hfit'

/-- **The window never leaves its buffer**: all updates of a run from the start-up index
both buffers inside them exactly when, of any two updates of the run, the earlier one does
not take the last slot with a `bat_mav_cnt` larger than the buffer, whether the run ends at
a division by zero or goes on behind it. -/
theorem window_fits_iff (startOk : List Call → Bool) (u : Option Undefined) (es : List Event) :
    AtUpdates (stepOn (quiet startOk) u) (fun _ => AccessesFit u) es boot ↔
      AtUpdates (stepOn (quiet startOk) u) (fun es₁ _ _ _ => KeepBuffer startOk u es₁ boot) es
        boot := by
  constructor
  · rintro h es₁ _ es₂ m hes hrun volt temp rfl
    have hbefore : AtUpdates (stepOn (quiet startOk) u) (fun _ => AccessesFit u)
        (es₁ ++ [.battery volt temp]) boot := by
      intro fs₁ e fs₂ m' hfs
      refine h fs₁ e (fs₂ ++ es₂) m' ?_
      rw [hes, ← List.cons_append, ← List.append_assoc, ← hfs, List.append_assoc,
        List.singleton_append]
    exact inBuffer_boot.keeps hrun hbefore
  · rintro h es₁ _ es₂ m hes hrun volt temp rfl
    exact (inBuffer_boot.stays (h es₁ _ es₂ m hes hrun volt temp rfl) hrun).accessesFit volt temp

/-- The windows have taken `k` samples and still fill. -/
structure Filling (k : ℕ) (m : Machine) : Prop where
  inRange : InRange m
  bat : m.bat.mavCnt = k
  temp : m.temp.mavCnt = k
  batFf : m.bat.bufferFf = 0
  tempFf : m.temp.bufferFf = 0

variable {k n : ℕ}

theorem filling_boot : Filling 0 boot := ⟨inRange_boot, rfl, rfl, rfl, rfl⟩

theorem Filling.other (h : Filling k m) {e : Event} (hb : ∀ volt temp, e ≠ .battery volt temp)
    (he : (stepOn (quiet startOk) u e).run m = .ok () m') : Filling k m' := by
  obtain ⟨hbat, htemp⟩ := windows_stepOn h.inRange.live hb he
  exact ⟨inRange_stepOn h.inRange he, hbat ▸ h.bat, htemp ▸ h.temp, hbat ▸ h.batFf,
    htemp ▸ h.tempFf⟩

/-- An update that stays below the window size leaves the windows filling. -/
theorem Filling.update (h : Filling k m) (hk : k < MAV_MAX_CNT) (hset : k + 1 < m.conf.batMavCnt)
    {volt temp : ℕ} (he : (stepOn (quiet startOk) u (.battery volt temp)).run m = .ok () m') :
    Filling (k + 1) m' := by
  have hfits : m.bat.mavCnt < MAV_MAX_CNT := h.bat ▸ hk
  have hfits' : m.temp.mavCnt < MAV_MAX_CNT := h.temp ▸ hk
  obtain ⟨hbat, htemp⟩ := batUpdateOn_ok he
  rw [windowOn_eq hfits] at hbat
  rw [windowOn_eq hfits'] at htemp
  constructor
  case inRange => exact inRange_stepOn h.inRange he
  case bat => rw [hbat, windowAfter_mavCnt hfits, nextCnt, h.bat, if_neg (Nat.not_le.2 hset)]
  case temp => rw [htemp, windowAfter_mavCnt hfits', nextCnt, h.temp, if_neg (Nat.not_le.2 hset)]
  case batFf => exact hbat ▸ (windowAfter_bufferFf hfits).2 ⟨h.batFf, h.bat ▸ hset⟩
  case tempFf => exact htemp ▸ (windowAfter_bufferFf hfits').2 ⟨h.tempFf, h.temp ▸ hset⟩

/-- An update all of whose calls have a value returns. -/
theorem batUpdateOn_returns {volt temp batVolt mcuTemp : ℕ} {pwr : ℤ} {b t : BatSt}
    (hbat : batMavCalcOn u volt m.conf.batMavCnt m.bat = .ok (batVolt, b))
    (hpwr : batPwrCalcOn u m.conf.batUpLim m.conf.batLowLim batVolt = .ok pwr)
    (htemp : mavCalcOn u temp m.conf.batMavCnt m.temp = .ok (mcuTemp, t)) :
    ∃ m', (batUpdateOn u volt temp).run m = .ok () m' := by
  cases hrun : (batUpdateOn u volt temp).run m with
  | ok _ m' => exact ⟨m', rfl⟩
  | error _ m' =>
    simp only [batUpdateOn, tempMavCalcOn, EStateM.run_bind, EStateM.run_get, callMav_run,
      eval_run] at hrun
    simp only [hbat, modifyStat, EStateM.run_modify] at hrun
    simp only [hpwr] at hrun
    simp only [htemp, setBatLed, EStateM.run_modify, reduceCtorEq] at hrun

/-- Who goes on returns from every update. -/
theorem batUpdateOn_some (v : Undefined) (volt temp : ℕ) (m : Machine) :
    ∃ m', (batUpdateOn (some v) volt temp).run m = .ok () m' := by
  obtain ⟨avg, hbat⟩ := mavCalcOn_some v volt m.conf.batMavCnt m.bat
  obtain ⟨pwr, hpwr⟩ := batPwrCalcOn_some v m.conf.batUpLim m.conf.batLowLim
    (avg * 105 / 50 % 2 ^ 16)
  obtain ⟨mcuTemp, htemp⟩ := mavCalcOn_some v temp m.conf.batMavCnt m.temp
  exact batUpdateOn_returns (batMavCalcOn_ok hbat) hpwr htemp

/-- An update of windows that fill returns, if the limits differ. -/
theorem Filling.returns (h : Filling k m) (hk : k < MAV_MAX_CNT)
    (hlim : m.conf.batUpLim ≠ m.conf.batLowLim) (volt temp : ℕ) :
    ∃ m', (batUpdateOn u volt temp).run m = .ok () m' := by
  cases u with
  | some v => exact batUpdateOn_some v volt temp m
  | none =>
    obtain ⟨avg, hbat⟩ : ∃ avg, mavCalcOn none volt m.conf.batMavCnt m.bat =
        .ok (avg, windowAfter volt m.conf.batMavCnt m.bat) :=
      ⟨_, mavCalc_windowAfter (h.bat ▸ hk) (divisor_filling h.batFf)⟩
    obtain ⟨_, pwr, hpwr⟩ := (batPwrCalc_cases m.conf.batUpLim m.conf.batLowLim
      (avg * 105 / 50 % 2 ^ 16)).resolve_left fun heq => hlim heq.1
    exact batUpdateOn_returns (u := none) (batMavCalcOn_ok hbat) hpwr
      (mavCalc_windowAfter (h.temp ▸ hk) (divisor_filling h.tempFf))

/-- As many updates in a row take as many slots. -/
theorem Filling.replicate (h : Filling k m) (volt temp : ℕ) (hfit : k + n ≤ MAV_MAX_CNT)
    (hset : k + n < m.conf.batMavCnt) (hlim : m.conf.batUpLim ≠ m.conf.batLowLim) :
    ∃ m', (run (stepOn (quiet startOk) u) (List.replicate n (.battery volt temp))).run m =
      .ok () m' ∧ Filling (k + n) m' := by
  induction n generalizing k m with
  | zero => exact ⟨m, rfl, h⟩
  | succ n ih =>
    obtain ⟨m₁, hrun⟩ := @Filling.returns m u k h (by omega) hlim volt temp
    have hconf : m₁.conf = m.conf := (batUpdateOn_final hrun).conf
    have h₁ : Filling (k + 1) m₁ :=
      @Filling.update m m₁ startOk u k h (by omega) (by omega) _ _ hrun
    obtain ⟨m', hrest, h'⟩ := ih h₁ (by omega) (by rw [hconf]; omega) (by rwa [hconf])
    refine ⟨m', ?_, by rwa [Nat.add_right_comm] at h'⟩
    rw [List.replicate_succ, run_cons_ok]
    exact ⟨m₁, hrun, hrest⟩

/-- An update stops where `bat_mav_calc` does. -/
theorem batUpdate_fault {f : Fault} {b : BatSt} (volt temp : ℕ)
    (h : mavCalc volt m.conf.batMavCnt m.bat = .error (f, b)) :
    (batUpdate volt temp).run m = .error (.fault f) { m with bat := b } := by
  unfold batUpdate batUpdateOn
  simp only [EStateM.run_bind, EStateM.run_get, callMav_run, eval_run]
  rw [batMavCalcOn_error (u := none) h]

/-- `bat_mav_cnt` written after the start-up. -/
theorem filling_write (hok : rowOk 11 n) :
    ∃ m, (step hal (.write 11 [n])).run boot = .ok () m ∧ Filling 0 m ∧ m.conf.batMavCnt = n ∧
      m.conf.batUpLim ≠ m.conf.batLowLim := by
  obtain ⟨m, hwrite, hconf, hbat, htemp⟩ := @write_single (fun _ => true) boot .batMavCnt 11
    inRange_boot.live n hok rfl
  have hlim : boot.conf.batUpLim ≠ boot.conf.batLowLim := by decide
  refine ⟨m, hwrite, ?_, by rw [hconf]; rfl, by rw [hconf]; exact hlim⟩
  constructor
  case inRange => exact inRange_step _ _ _ inRange_boot hwrite
  case bat => rw [hbat]; rfl
  case temp => rw [htemp]; rfl
  case batFf => rw [hbat]; rfl
  case tempFf => rw [htemp]; rfl

/-- The same to 128, and 64 updates. -/
theorem filled_128 (u : Option Undefined) :
    ∃ m, (run (stepOn hal u) (.write 11 [128] :: List.replicate 64 (.battery 3000 250))).run boot =
      .ok () m ∧ Filling 64 m := by
  obtain ⟨m₁, hwrite, h₁, hset, hlim⟩ := filling_write (n := 128) (by decide)
  obtain ⟨m, hrun, hm⟩ := @Filling.replicate m₁ (fun _ => true) u 0 64 h₁ 3000 250 (by decide)
    (by omega) hlim
  exact ⟨m, run_cons_ok.2 ⟨m₁, hwrite, hrun⟩, hm⟩

/-- With `bat_mav_cnt` written to 128, which is accepted, the 65th update indexes the buffer
at 64. -/
theorem window_leaves_buffer :
    (∀ u, ¬AtUpdates (stepOn hal u) (fun _ => AccessesFit u)
      (.write 11 [128] :: List.replicate 65 (.battery 3000 250)) boot) ∧
    ∃ m m', (run (stepOn hal none)
        (.write 11 [128] :: List.replicate 64 (.battery 3000 250))).run boot = .ok () m ∧
      (batUpdate 3000 250).run m = .error (.fault .mavIndex) m' := by
  refine ⟨fun u hfit => ?_, ?_⟩
  · obtain ⟨m, hrun, hm⟩ := filled_128 u
    have hlast := hfit _ (.battery 3000 250) [] m (by rw [List.cons_append, ← List.replicate_succ'])
      hrun 3000 250 rfl
    exact absurd (accessesFit_iff.1 hlast).1 (Nat.not_lt.2 hm.bat.ge)
  · obtain ⟨m, hrun, hm⟩ := filled_128 none
    exact ⟨m, _, hrun, batUpdate_fault 3000 250 (mavCalc_outside hm.bat.ge)⟩

/-! ### The divisors -/

/-- The calls an update makes that finds the machine `m` do not divide by zero:
`bat_mav_calc`, and `temp_mav_calc` if the update gets there. -/
def DivisorsNonzero (u : Option Undefined) (m : Machine) : Prop :=
  divisor m.conf.batMavCnt m.bat ≠ 0 ∧
    ((u = none → ReachesTemp m) → divisor m.conf.batMavCnt m.temp ≠ 0)

/-- The values of `bat_mav_cnt` that the updates among the events find, from the value `n`
on.  A write that is refused stores nothing, and one that resets ends the run. -/
def foundSizes : ℕ → List Event → List ℕ
  | _, [] => []
  | n, .battery _ _ :: es => n :: foundSizes n es
  | n, .write regAddr wrData :: es =>
    if Resets regAddr wrData then []
    else foundSizes (if Accepted regAddr wrData then (request regAddr wrData 11).getD n else n) es
  | n, _ :: es => foundSizes n es

/-- With `k` samples in a window that fills, no size is zero after the one that ends the
filling: that of the update whose sample reaches it, or that finds no slot left. -/
def ZeroFree : ℕ → List ℕ → Prop
  | _, [] => True
  | k, n :: ns => if n ≤ k + 1 ∨ MAV_MAX_CNT ≤ k then ∀ n' ∈ ns, n' ≠ 0 else ZeroFree (k + 1) ns

/-- The updates of the run of `es` do not divide by zero. -/
def NoDivZero (startOk : List Call → Bool) (u : Option Undefined) : List Event → Machine → Prop :=
  AtUpdates (stepOn (quiet startOk) u) fun _ _ _ m => DivisorsNonzero u m

/-- The register 11 after an accepted write. -/
theorem batMavCnt_storeAll {regAddr : ℕ} {wrData : List ℕ} (hacc : Accepted regAddr wrData)
    (conf : Config) :
    (storeAll regAddr wrData conf).batMavCnt =
      (request regAddr wrData 11).getD conf.batMavCnt :=
  @load_store_request .batMavCnt 11 regAddr wrData hacc rfl conf

/-- An event that is no update only passes the register on. -/
theorem foundSizes_other (hm : Live m) {e : Event} (hb : ∀ volt temp, e ≠ .battery volt temp)
    (he : (stepOn (quiet startOk) u e).run m = .ok () m') (es : List Event) :
    foundSizes m.conf.batMavCnt (e :: es) = foundSizes m'.conf.batMavCnt es := by
  rw [stepOn_eq hb] at he
  cases e with
  | battery volt temp => exact absurd rfl (hb volt temp)
  | write regAddr wrData =>
    rcases step_spec hm he with ⟨hres, ⟨hacc, rfl⟩ | ⟨hacc, rfl⟩⟩
    · rw [foundSizes, if_neg hres, if_pos hacc, ← batMavCnt_storeAll hacc]
    · rw [foundSizes, if_neg hres, if_neg hacc, afterPassed_conf]
  | _ =>
    rw [conf_step hm he (by simp)]
    rfl

/-- An event that is no update returns, or it is a reset and ends the run. -/
theorem other_returns (hm : Live m) {e : Event} (hb : ∀ volt temp, e ≠ .battery volt temp)
    (es : List Event) : (∃ m', (stepOn (quiet startOk) u e).run m = .ok () m') ∨
      foundSizes m.conf.batMavCnt (e :: es) = [] := by
  rw [stepOn_eq hb]
  rcases @step_returns startOk m hm e with h | ⟨regAddr, wrData, rfl, hres, _⟩
  · exact Or.inl h
  · exact Or.inr (if_pos hres)

/-- **Updates that find no zero** do not divide by zero, whatever their windows are. -/
theorem noDivZero_of_sizes (hm : InRange m)
    (h : ∀ n ∈ foundSizes m.conf.batMavCnt es, n ≠ 0) : NoDivZero startOk u es m := by
  induction es generalizing m with
  | nil => exact atUpdates_nil
  | cons e es ih =>
    cases e with
    | battery volt temp =>
      obtain ⟨hset, hrest⟩ := List.forall_mem_cons.1 h
      have hz : ∀ b, divisor m.conf.batMavCnt b ≠ 0 := fun b =>
        divisor_ne_zero (Nat.one_le_iff_ne_zero.2 hset)
      refine atUpdates_battery.2 ⟨⟨hz _, fun _ => hz _⟩, fun m' he => ih (inRange_stepOn hm he) ?_⟩
      rwa [(batUpdateOn_final he).conf]
    | _ =>
      refine (atUpdates_other (by simp)).2 fun m' he => ih (inRange_stepOn hm he) ?_
      rwa [← foundSizes_other hm.live (by simp) he]

/-- **Updates that find zero only while the windows fill** do not divide by zero. -/
theorem Filling.noDivZero (h : Filling k m) (hz : ZeroFree k (foundSizes m.conf.batMavCnt es)) :
    NoDivZero startOk u es m := by
  induction es generalizing k m with
  | nil => exact atUpdates_nil
  | cons e es ih =>
    cases e with
    | battery volt temp =>
      refine atUpdates_battery.2
        ⟨⟨divisor_filling h.batFf, fun _ => divisor_filling h.tempFf⟩, fun m' he => ?_⟩
      have hconf : m'.conf = m.conf := (batUpdateOn_final he).conf
      rw [foundSizes, ZeroFree, ← hconf] at hz
      by_cases hlast : m'.conf.batMavCnt ≤ k + 1 ∨ MAV_MAX_CNT ≤ k
      · rw [if_pos hlast] at hz
        exact noDivZero_of_sizes (inRange_stepOn h.inRange he) hz
      · rw [if_neg hlast] at hz
        rw [not_or, Nat.not_le, Nat.not_le, hconf] at hlast
        exact ih (h.update hlast.2 hlast.1 he) hz
    | _ =>
      refine (atUpdates_other (by simp)).2 fun m' he => ih (h.other (by simp) he) ?_
      rwa [← foundSizes_other h.inRange.live (by simp) he]

/-- Going on behind an access outside the buffer with the window full. -/
def fullBehind : Undefined := ⟨0, fun _ _ b => (0, { b with bufferFf := 1 })⟩

/-- A full window stays full. -/
theorem windowOn_full (h : b.bufferFf ≠ 0) :
    (windowOn (some fullBehind) cur mavCntSet b).bufferFf ≠ 0 := by
  rcases Nat.lt_or_ge b.mavCnt MAV_MAX_CNT with hfit | hout
  · rw [windowOn_eq hfit, ne_eq, windowAfter_bufferFf hfit]
    exact fun hff => h hff.1
  · rw [windowOn_outside hout]
    exact Nat.one_ne_zero

/-- **Updates of a full window that do not divide by zero** find no zero. -/
theorem sizes_of_full (hm : InRange m) (hff : m.bat.bufferFf ≠ 0)
    (h : NoDivZero startOk (some fullBehind) es m) :
    ∀ n ∈ foundSizes m.conf.batMavCnt es, n ≠ 0 := by
  induction es generalizing m with
  | nil => exact fun n hn => absurd hn List.not_mem_nil
  | cons e es ih =>
    rcases battery_or e with ⟨volt, temp, rfl⟩ | hb
    · obtain ⟨hz, hrest⟩ := atUpdates_battery.1 h
      obtain ⟨m', he⟩ := batUpdateOn_some fullBehind volt temp m
      have hm' : InRange m' := @inRange_stepOn m m' startOk _ (.battery volt temp) hm he
      have hset : m.conf.batMavCnt ≠ 0 := fun hzero => hz.1 (divisor_eq_zero_iff.2 ⟨hzero, hff⟩)
      have hff' : m'.bat.bufferFf ≠ 0 := (batUpdateOn_ok he).1 ▸ windowOn_full hff
      have hrest' := ih hm' hff' (hrest m' he)
      rw [(batUpdateOn_final he).conf] at hrest'
      exact List.forall_mem_cons.2 ⟨hset, hrest'⟩
    · rcases @other_returns m startOk (some fullBehind) hm.live e hb es with ⟨m', he⟩ | hend
      · rw [foundSizes_other hm.live hb he]
        refine ih (inRange_stepOn hm he) ?_ ((atUpdates_other hb).1 h m' he)
        rwa [(windows_stepOn hm.live hb he).1]
      · rw [hend]
        exact fun n hn => absurd hn List.not_mem_nil

/-- An update that ends the filling leaves the window full. -/
theorem Filling.ends (h : Filling k m) (hlast : m.conf.batMavCnt ≤ k + 1 ∨ MAV_MAX_CNT ≤ k)
    {volt temp : ℕ} (he : (batUpdateOn (some fullBehind) volt temp).run m = .ok () m') :
    m'.bat.bufferFf ≠ 0 := by
  rw [(batUpdateOn_ok he).1]
  rcases Nat.lt_or_ge m.bat.mavCnt MAV_MAX_CNT with hfit | hout
  · have hk := h.bat
    rw [windowOn_eq hfit, ne_eq, windowAfter_bufferFf hfit]
    omega
  · rw [windowOn_outside hout]
    exact Nat.one_ne_zero

/-- **Updates that do not divide by zero**, the windows filling, find zero only before the
end of the filling. -/
theorem Filling.zeroFree (h : Filling k m) (hz : NoDivZero startOk (some fullBehind) es m) :
    ZeroFree k (foundSizes m.conf.batMavCnt es) := by
  induction es generalizing k m with
  | nil => trivial
  | cons e es ih =>
    rcases battery_or e with ⟨volt, temp, rfl⟩ | hb
    · obtain ⟨m', he⟩ := batUpdateOn_some fullBehind volt temp m
      have hm' : InRange m' := @inRange_stepOn m m' startOk _ (.battery volt temp) h.inRange he
      have hconf : m'.conf = m.conf := (batUpdateOn_final he).conf
      have hrest := (atUpdates_battery.1 hz).2 m' he
      rw [foundSizes, ZeroFree, ← hconf]
      by_cases hlast : m'.conf.batMavCnt ≤ k + 1 ∨ MAV_MAX_CNT ≤ k
      · rw [if_pos hlast]
        rw [hconf] at hlast
        exact sizes_of_full hm' (h.ends hlast he) hrest
      · rw [if_neg hlast]
        rw [not_or, Nat.not_le, Nat.not_le, hconf] at hlast
        exact ih (@Filling.update m m' startOk _ k h hlast.2 hlast.1 _ _ he) hrest
    · rcases @other_returns m startOk (some fullBehind) h.inRange.live e hb es with
        ⟨m', he⟩ | hend
      · rw [foundSizes_other h.inRange.live hb he]
        exact ih (h.other hb he) ((atUpdates_other hb).1 hz m' he)
      · rw [hend]
        trivial

/-- **The moving average never divides by zero**: no update of a run from the start-up
does, whatever goes on behind an undefined operation, exactly when the updates after the one
that ends the filling of the windows find `bat_mav_cnt` not zero.  That one is the first
whose number is at least the `bat_mav_cnt` it finds, or the 65th. -/
theorem divisors_nonzero_iff (startOk : List Call → Bool) (es : List Event) :
    (∀ u, AtUpdates (stepOn (quiet startOk) u) (fun _ _ _ m => DivisorsNonzero u m) es boot) ↔
      ZeroFree 0 (foundSizes boot.conf.batMavCnt es) :=
  ⟨fun h => filling_boot.zeroFree (h (some fullBehind)), fun h _ => filling_boot.noDivZero h⟩

/-- With `bat_mav_cnt` written to 0, which is accepted, the second update divides by zero. -/
theorem second_update_divides_by_zero :
    (∀ u, ¬AtUpdates (stepOn hal u) (fun _ _ _ m => DivisorsNonzero u m)
      [.write 11 [0], .battery 3000 250, .battery 3000 250] boot) ∧
    ∃ m m', (run (stepOn hal none) [.write 11 [0], .battery 3000 250]).run boot = .ok () m ∧
      (batUpdate 3000 250).run m = .error (.fault .divZero) m' := by
  obtain ⟨m₁, hwrite, h₁, hset, hlim⟩ := filling_write (n := 0) (by decide)
  have hruns : ∀ u, ∃ m, (run (stepOn hal u) [.write 11 [0], .battery 3000 250]).run boot =
      .ok () m ∧ m.bat.mavCnt < MAV_MAX_CNT ∧ divisor m.conf.batMavCnt m.bat = 0 := by
    intro u
    have hfit : m₁.bat.mavCnt < MAV_MAX_CNT := h₁.bat ▸ Nat.succ_pos 63
    obtain ⟨m, he⟩ := @Filling.returns m₁ u 0 h₁ (by decide) hlim 3000 250
    have hwin := (batUpdateOn_ok he).1
    rw [windowOn_eq hfit] at hwin
    refine ⟨m, run_cons_ok.2 ⟨m₁, hwrite, run_cons_ok.2 ⟨m, he, rfl⟩⟩, ?_, ?_⟩
    · rw [hwin, windowAfter_mavCnt hfit, nextCnt, if_pos (by omega)]
      exact Nat.succ_pos 63
    · refine divisor_eq_zero_iff.2 ⟨(congrArg _ (batUpdateOn_final he).conf).trans hset, ?_⟩
      rw [hwin, ne_eq, windowAfter_bufferFf hfit]
      omega
  refine ⟨fun u h => ?_, ?_⟩
  · obtain ⟨m, hrun, _, hzero⟩ := hruns u
    exact (h _ (.battery 3000 250) [] m rfl hrun 3000 250 rfl).1 hzero
  · obtain ⟨m, hrun, hfit, hzero⟩ := hruns none
    obtain ⟨_, _, heq⟩ := ((mavCalc_cases 3000 m.conf.batMavCnt m.bat).resolve_left
      fun h => absurd hfit (Nat.not_lt.2 h.1)).resolve_right fun h => h.2.1 hzero
    exact ⟨m, _, hrun, batUpdate_fault 3000 250 heq⟩

end Battery
end AccTx
