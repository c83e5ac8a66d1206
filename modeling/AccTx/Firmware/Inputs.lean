/-
# The inputs: buttons, status pins and battery

`applications/pb_drv.c` and `applications/bat_drv.c`.

`pb_sts_update` is the callback of the periodic timer `tim_pb`: it samples the
five buttons, debounces them with two static registers, and calls `pb_evt` for
the button it confirms.  `in_sts_update` polls the status pins into the low four
bits of `ms_status`.  What the pins read is an argument here.

`bat_update` averages the battery voltage and the temperature over a window of
`bat_mav_cnt` samples.  The two samples, already converted by `adc_get_volt` and
`adc_get_temp` (floating point), are its arguments.  The indices and divisors of
the window arithmetic are checked here where the code does not check them: what it
does behind an operation that C leaves undefined is a parameter (`batUpdateOn`).
-/

import AccTx.Firmware.Gvar
import Mathlib.Logic.Function.Basic

namespace AccTx
namespace Firmware

/-! ### pb_drv.c -/

/-- The button pins `PB_FREQ_D`, `PB_FREQ_U`, `PB_OUT_EN`, `PB_VOL_D`, `PB_VOL_U`. -/
inductive Pb
  | freqD
  | freqU
  | outEn
  | volD
  | volU
  deriving DecidableEq

/-- What the button pins read. -/
structure PbPins where
  freqD : Level
  freqU : Level
  outEn : Level
  volD : Level
  volU : Level
  deriving DecidableEq

/-- What the status pins `STS_GPRS`, `STS_LINK1`, `STS_LOAD_DET` read. -/
structure StsPins where
  gprs : Level
  link1 : Level
  loadDet : Level
  deriving DecidableEq

/-- `if (x > 0) x--`. -/
def stepDown (x : ℕ) : ℕ := if x > 0 then x - 1 else x

/-- `if (x < max) x++`. -/
def stepUp (max x : ℕ) : ℕ := if x < max then x + 1 else x

def pbEvt (env : Env) (pinId : Pb) : Fw Unit := do
  let st := (← get).stat
  match pinId with
  | .freqD =>
    if st.outEn = 0 then return
    modifyStat fun st => { st with freqIndex := stepDown st.freqIndex }
    let _ ← freqOpt env (← get).stat.freqIndex
  | .volD =>
    if st.outEn = 0 then return
    modifyStat fun st => { st with volumIndex := stepDown st.volumIndex }
    let _ ← volumOpt (← get).stat.volumIndex
  | .freqU =>
    if st.outEn = 0 then return
    modifyStat fun st => { st with freqIndex := stepUp 4 st.freqIndex }
    let _ ← freqOpt env (← get).stat.freqIndex
  | .volU =>
    if st.outEn = 0 then return
    modifyStat fun st => { st with volumIndex := stepUp 8 st.volumIndex }
    let _ ← volumOpt (← get).stat.volumIndex
  | .outEn =>
    let _ ← powerEnOpt env (if st.outEn = 0 then 1 else 0)

def getPbSts (pins : PbPins) : ℕ :=
  pins.freqD.toNat ||| pins.freqU.toNat <<< 1 ||| pins.outEn.toNat <<< 2 |||
    pins.volD.toNat <<< 3 ||| pins.volU.toNat <<< 4

/-- `(~get_pb_sts()) & 0x1f`: a pressed button reads low. -/
def pressed (pins : PbPins) : ℕ := (getPbSts pins ^^^ 0x1f) &&& 0x1f

def inStsUpdate (pins : StsPins) : Fw ℕ := do
  let st := (← get).stat
  let bitmap := pins.gprs.toNat ||| pins.link1.toNat <<< 1 ||| pins.loadDet.toNat <<< 2 |||
    st.outEn <<< 3
  modifyStat fun st => { st with msStatus := (st.msStatus &&& 0xfff0) ||| (bitmap &&& 0x000f) }
  return bitmap % 2 ^ 8

/-- `resolve_pin_id`; `none` is the `0xffff` that no button has. -/
def resolvePinId : ℕ → Option Pb
  | 0 => some .freqD
  | 1 => some .freqU
  | 2 => some .outEn
  | 3 => some .volD
  | 4 => some .volU
  | _ => none

/-- The loop of `pb_sts_update`: the button of the lowest bit set. -/
def lowestKey (bitmapAnd : ℕ) : Option Pb :=
  ((List.range 5).find? fun i => (bitmapAnd >>> i) &&& 0x01 ≠ 0).bind resolvePinId

/-- The button a sample confirms: the lowest held in this sample and the one
before, once a change has been seen. -/
def confirmed (pb : Debounce) (bitmap : ℕ) : Option Pb :=
  if pb.stageReg = 0 then none else lowestKey (bitmap &&& pb.bitmapReg)

/-- The stage register after a sample. -/
def nextStage (pb : Debounce) (bitmap : ℕ) : ℕ :=
  if pb.stageReg = 0 then (if (bitmap ^^^ pb.bitmapReg) ≠ 0 ∧ bitmap ≠ 0 then 1 else 0) else 0

def pbStsUpdate (env : Env) (pins : PbPins) : Fw Unit := do
  let bitmap := pressed pins
  let pb := (← get).pb
  match confirmed pb bitmap with
  | some pinId => pbEvt env pinId
  | none => pure ()
  modify fun m => { m with pb := { bitmapReg := bitmap, stageReg := nextStage pb bitmap } }

/-- The machine after `pb_evt`. -/
def Machine.afterPbEvt (startOk : List Call → Bool) (pinId : Pb) (m : Machine) : Machine :=
  match pinId with
  | .outEn => m.afterPowerEn startOk (if m.stat.outEn = 0 then 1 else 0)
  | .freqD =>
    if m.stat.outEn = 0 then m
    else Machine.afterFreq startOk (stepDown m.stat.freqIndex)
      { m with stat := { m.stat with freqIndex := stepDown m.stat.freqIndex } }
  | .freqU =>
    if m.stat.outEn = 0 then m
    else Machine.afterFreq startOk (stepUp 4 m.stat.freqIndex)
      { m with stat := { m.stat with freqIndex := stepUp 4 m.stat.freqIndex } }
  | .volD =>
    if m.stat.outEn = 0 then m
    else Machine.afterVolum (stepDown m.stat.volumIndex)
      { m with stat := { m.stat with volumIndex := stepDown m.stat.volumIndex } }
  | .volU =>
    if m.stat.outEn = 0 then m
    else Machine.afterVolum (stepUp 8 m.stat.volumIndex)
      { m with stat := { m.stat with volumIndex := stepUp 8 m.stat.volumIndex } }

theorem stepDown_le {x b : ℕ} (h : x ≤ b) : stepDown x ≤ b := by
  unfold stepDown
  split <;> omega

theorem stepUp_le {x b : ℕ} (h : x ≤ b) : stepUp b x ≤ b := by
  unfold stepUp
  split <;> omega

theorem stepUp_lt_ten {x : ℕ} (h : x < 10) : stepUp 8 x < 10 := by
  unfold stepUp
  split <;> omega

theorem pbEvt_run {startOk : List Call → Bool} {m : Machine} (h : Live m) (pinId : Pb) :
    (pbEvt (quiet startOk) pinId).run m = .ok () (m.afterPbEvt startOk pinId) := by
  by_cases hon : m.stat.outEn = 0
  · cases pinId with
    | outEn => simp [pbEvt, Machine.afterPbEvt, hon, powerEnOpt_run h, quiet]
    | _ => simp [pbEvt, Machine.afterPbEvt, hon]
  · cases pinId with
    | outEn => simp [pbEvt, Machine.afterPbEvt, hon, powerEnOpt_run h, quiet]
    | freqD =>
      have hl : Live { m with stat := { m.stat with freqIndex := stepDown m.stat.freqIndex } } :=
        ⟨h.wgMode, h.freq, h.custom, h.volum⟩
      simp [pbEvt, Machine.afterPbEvt, hon, modifyStat, freqOpt_run hl]
    | freqU =>
      have hl : Live { m with stat := { m.stat with freqIndex := stepUp 4 m.stat.freqIndex } } :=
        ⟨h.wgMode, h.freq, h.custom, h.volum⟩
      simp [pbEvt, Machine.afterPbEvt, hon, modifyStat, freqOpt_run hl]
    | volD =>
      have hv : stepDown m.stat.volumIndex < 10 :=
        Nat.lt_succ_of_le (stepDown_le (Nat.le_of_lt_succ h.volum))
      have hr := @volumOpt_run
        { m with stat := { m.stat with volumIndex := stepDown m.stat.volumIndex } } hv
      simp [pbEvt, Machine.afterPbEvt, hon, modifyStat, hr]
    | volU =>
      have hr := @volumOpt_run
        { m with stat := { m.stat with volumIndex := stepUp 8 m.stat.volumIndex } }
        (stepUp_lt_ten h.volum)
      simp [pbEvt, Machine.afterPbEvt, hon, modifyStat, hr]

/-- The preset `pb_evt` stores before it calls `freq_opt` is overwritten there. -/
theorem afterFreq_setFreqIndex (startOk : List Call → Bool) (pram i : ℕ) (m : Machine) :
    Machine.afterFreq startOk pram { m with stat := { m.stat with freqIndex := i } } =
      m.afterFreq startOk pram := by
  have hsel : freqSelect m.conf pram { m.stat with freqIndex := i } =
      freqSelect m.conf pram m.stat := by
    unfold freqSelect
    split <;> rfl
  simp only [Machine.afterFreq, Machine.atSelect, hsel]

/-- **What a button does.**  `PB_OUT_EN` switches the output; the others do nothing
while the output is off, and otherwise select a preset or step the volume. -/
theorem afterPbEvt_cases (startOk : List Call → Bool) (pinId : Pb) (m : Machine) :
    (pinId = .outEn ∧
      m.afterPbEvt startOk pinId = m.afterPowerEn startOk (if m.stat.outEn = 0 then 1 else 0)) ∨
    (pinId ≠ .outEn ∧ m.stat.outEn = 0 ∧ m.afterPbEvt startOk pinId = m) ∨
    ((pinId = .freqD ∨ pinId = .freqU) ∧ m.stat.outEn ≠ 0 ∧ ∃ i,
      (m.stat.freqIndex ≤ 4 → i ≤ 4) ∧ m.afterPbEvt startOk pinId = m.afterFreq startOk i) ∨
    ((pinId = .volD ∨ pinId = .volU) ∧ m.stat.outEn ≠ 0 ∧ ∃ i,
      (m.stat.volumIndex ≤ 8 → i ≤ 8) ∧ m.afterPbEvt startOk pinId =
        Machine.afterVolum i { m with stat := { m.stat with volumIndex := i } }) := by
  by_cases hon : m.stat.outEn = 0
  · cases pinId with
    | outEn => exact Or.inl ⟨rfl, rfl⟩
    | _ => exact Or.inr (Or.inl ⟨by simp, hon, if_pos hon⟩)
  · cases pinId with
    | outEn => exact Or.inl ⟨rfl, rfl⟩
    | freqD =>
      exact Or.inr (Or.inr (Or.inl ⟨Or.inl rfl, hon, _, stepDown_le,
        (if_neg hon).trans (afterFreq_setFreqIndex startOk _ _ m)⟩))
    | freqU =>
      exact Or.inr (Or.inr (Or.inl ⟨Or.inr rfl, hon, _, stepUp_le,
        (if_neg hon).trans (afterFreq_setFreqIndex startOk _ _ m)⟩))
    | volD =>
      exact Or.inr (Or.inr (Or.inr ⟨Or.inl rfl, hon, _, stepDown_le, if_neg hon⟩))
    | volU =>
      exact Or.inr (Or.inr (Or.inr ⟨Or.inr rfl, hon, _, stepUp_le, if_neg hon⟩))

/-- The machine after `in_sts_update`. -/
def Machine.afterPoll (pins : StsPins) (m : Machine) : Machine :=
  { m with stat := { m.stat with
      msStatus := (m.stat.msStatus &&& 0xfff0) |||
        ((pins.gprs.toNat ||| pins.link1.toNat <<< 1 ||| pins.loadDet.toNat <<< 2 |||
          m.stat.outEn <<< 3) &&& 0x000f) } }

theorem inStsUpdate_run (pins : StsPins) (m : Machine) :
    ∃ r, (inStsUpdate pins).run m = .ok r (m.afterPoll pins) := ⟨_, rfl⟩

/-! ### bat_drv.c -/

/-- The window arithmetic that `bat_mav_calc` and `temp_mav_calc` share: the
average at this sample and the window after it, or why it stops and the window it
has left there. -/
def mavCalc (cur mavCntSet : ℕ) (b : BatSt) : Except (Fault × BatSt) (ℕ × BatSt) :=
  if h : b.mavCnt < 64 then
    let i : Fin 64 := ⟨b.mavCnt, h⟩
    let buf := Function.update b.mavBuffer i cur
    let cnt := b.mavCnt + 1
    if b.bufferFf = 0 then
      -- filling: the divisor is the number of samples taken
      let sum := (b.accumSum + cur) % 2 ^ 32
      let b' := if cnt ≥ mavCntSet then
          { mavBuffer := buf, mavCnt := 0, accumSum := sum, bufferFf := 1 }
        else { mavBuffer := buf, mavCnt := cnt, accumSum := sum, bufferFf := b.bufferFf }
      .ok (sum / cnt % 2 ^ 16, b')
    else
      -- cycling: the slot's old sample leaves the sum, and the division comes last
      let sum := (b.accumSum + 2 ^ 32 - b.mavBuffer i + cur) % 2 ^ 32
      let b' := { mavBuffer := buf, mavCnt := if cnt ≥ mavCntSet then 0 else cnt,
                  accumSum := sum, bufferFf := b.bufferFf }
      if mavCntSet = 0 then .error (.divZero, b') else .ok (sum / mavCntSet % 2 ^ 16, b')
  else .error (.mavIndex, b)

def batMavCalc (curVolt mavCntSet : ℕ) (b : BatSt) : Except (Fault × BatSt) (ℕ × BatSt) := do
  let (avg, b') ← mavCalc curVolt mavCntSet b
  return (avg * 105 / 50 % 2 ^ 16, b')

def tempMavCalc (tempVolt mavCntSet : ℕ) (b : BatSt) : Except (Fault × BatSt) (ℕ × BatSt) :=
  mavCalc tempVolt mavCntSet b

def batPwrCalc (upLim lowLim batVolt : ℕ) : Except Fault ℤ :=
  if (upLim : ℤ) - lowLim = 0 then .error .divZero
  else
    let resPwr := int16 ((100 * ((batVolt : ℤ) - lowLim)).tdiv ((upLim : ℤ) - lowLim))
    .ok (if resPwr > 100 then 100 else if resPwr < 0 then 0 else resPwr)

/-- What a processor goes on with that does not stop at an operation C leaves undefined:
the quotient of a division by zero, and what a call returns and leaves that indexes its
buffer outside it. -/
structure Undefined where
  quotient : ℤ
  outside : ℕ → ℕ → BatSt → ℕ × BatSt

/-- The window arithmetic, going on as `u` says or, with `none`, not at all. -/
def mavCalcOn (u : Option Undefined) (cur mavCntSet : ℕ) (b : BatSt) :
    Except (Fault × BatSt) (ℕ × BatSt) :=
  match u with
  | none => mavCalc cur mavCntSet b
  | some u =>
    match mavCalc cur mavCntSet b with
    | .ok r => .ok r
    | .error (.divZero, b') => .ok ((u.quotient % 2 ^ 16).toNat, b')
    | .error _ => .ok (u.outside cur mavCntSet b)

def batMavCalcOn (u : Option Undefined) (curVolt mavCntSet : ℕ) (b : BatSt) :
    Except (Fault × BatSt) (ℕ × BatSt) := do
  let (avg, b') ← mavCalcOn u curVolt mavCntSet b
  return (avg * 105 / 50 % 2 ^ 16, b')

def tempMavCalcOn (u : Option Undefined) (tempVolt mavCntSet : ℕ) (b : BatSt) :
    Except (Fault × BatSt) (ℕ × BatSt) :=
  mavCalcOn u tempVolt mavCntSet b

def batPwrCalcOn (u : Option Undefined) (upLim lowLim batVolt : ℕ) : Except Fault ℤ :=
  match u with
  | none => batPwrCalc upLim lowLim batVolt
  | some u =>
    match batPwrCalc upLim lowLim batVolt with
    | .ok resPwr => .ok resPwr
    | .error _ => .ok (max 0 (min 100 (int16 u.quotient)))

/-- Evaluate an expression that may be undefined. -/
def eval {α : Type} : Except Fault α → Fw α
  | .ok a => pure a
  | .error f => throw (.fault f)

/-- A call of the window arithmetic, which leaves its window also where it stops. -/
def callMav (store : BatSt → Machine → Machine) : Except (Fault × BatSt) (ℕ × BatSt) → Fw ℕ
  | .ok (avg, b) => do
    modify (store b)
    return avg
  | .error (f, b) => do
    modify (store b)
    throw (.fault f)

def batUpdateOn (u : Option Undefined) (volt temp : ℕ) : Fw Unit := do
  let conf := (← get).conf
  let batVolt ← callMav (fun b m => { m with bat := b })
    (batMavCalcOn u volt conf.batMavCnt (← get).bat)
  modifyStat fun st => { st with batVolt := batVolt }
  let pwr ← eval (batPwrCalcOn u conf.batUpLim conf.batLowLim batVolt)
  modifyStat fun st => { st with batVolum := (pwr % 2 ^ 16).toNat }
  let mcuTemp ← callMav (fun b m => { m with temp := b })
    (tempMavCalcOn u temp conf.batMavCnt (← get).temp)
  modifyStat fun st => { st with mcuTemp := mcuTemp }
  setBatLed ((← get).stat.batVolum / 10)

/-- `bat_update`, up to the first undefined operation. -/
def batUpdate (volt temp : ℕ) : Fw Unit := batUpdateOn none volt temp

def batDsInit : Fw Unit :=
  modify fun m =>
    { m with bat := { m.bat with mavBuffer := fun _ => 0, accumSum := 0, mavCnt := 0 } }

/-- What a battery update may leave changed: the battery and temperature fields
of the status, the two windows, and the battery LEDs. -/
structure SameOffBattery (m m' : Machine) : Prop where
  conf : m'.conf = m.conf
  stat : ∃ v p t, m'.stat = { m.stat with batVolt := v, batVolum := p, mcuTemp := t }
  timer : m'.timer = m.timer
  dac : m'.dac = m.dac
  leds : ∃ b r, m'.leds = { m.leds with bat := b, batReg := r }
  pb : m'.pb = m.pb
  wave : m'.wave = m.wave
  calls : m'.calls = m.calls

/-- The machine a program ends in, whether it returned or stopped. -/
def finalState {α : Type} : EStateM.Result Stop Machine α → Machine
  | .ok _ m => m
  | .error _ m => m

@[simp] theorem eval_run {α : Type} (x : Except Fault α) (m : Machine) :
    (eval x).run m = match x with
      | .ok a => .ok a m
      | .error f => .error (.fault f) m := by
  cases x <;> rfl

@[simp] theorem callMav_run (store : BatSt → Machine → Machine)
    (r : Except (Fault × BatSt) (ℕ × BatSt)) (m : Machine) :
    (callMav store r).run m = match r with
      | .ok (avg, b) => .ok avg (store b m)
      | .error (f, b) => .error (.fault f) (store b m) := by
  cases r <;> rfl

/-- **A battery update, also one that stops half way, keeps to its fields.** -/
theorem batUpdateOn_frame (u : Option Undefined) (volt temp : ℕ) (m : Machine) :
    SameOffBattery m (finalState ((batUpdateOn u volt temp).run m)) := by
  simp only [batUpdateOn, EStateM.run_bind, EStateM.run_get, callMav_run, eval_run]
  cases batMavCalcOn u volt m.conf.batMavCnt m.bat with
  | error f => exact ⟨rfl, ⟨_, _, _, rfl⟩, rfl, rfl, ⟨_, _, rfl⟩, rfl, rfl, rfl⟩
  | ok v =>
    simp only [modifyStat, EStateM.run_modify]
    cases batPwrCalcOn u m.conf.batUpLim m.conf.batLowLim v.1 with
    | error f => exact ⟨rfl, ⟨_, _, _, rfl⟩, rfl, rfl, ⟨_, _, rfl⟩, rfl, rfl, rfl⟩
    | ok p =>
      simp only
      cases tempMavCalcOn u temp m.conf.batMavCnt m.temp with
      | error f => exact ⟨rfl, ⟨_, _, _, rfl⟩, rfl, rfl, ⟨_, _, rfl⟩, rfl, rfl, rfl⟩
      | ok t => exact ⟨rfl, ⟨_, _, _, rfl⟩, rfl, rfl, ⟨_, _, rfl⟩, rfl, rfl, rfl⟩

end Firmware
end AccTx
