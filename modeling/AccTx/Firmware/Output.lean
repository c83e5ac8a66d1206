/-
# The outputs: panel LEDs, waveform timer and DAC

`applications/led_drv.c` and `applications/dac_drv.c`.

The functions that write the panel (`set_freq_led`, `set_vol_led`,
`set_ind_led`, `set_bat_led`) write every pin of their group in each case, so
each is given by the levels it leaves on the group (`freqLeds`, `volLeds`,
`batLeds`).  `sr_hwt_start` programs the timer and starts it, `sr_hwt_stop`
stops it, `dac_cb` is the timer's callback and toggles the two output pins.

The timeout of `sr_hwt_start` is `500000 / u_sec + 1` microseconds in the
rectangle-wave mode.  For a frequency that fits `int16_t` and is not zero the
call cannot fail to return, and `srHwtStart_run` says what it leaves behind.
-/

import AccTx.Firmware.SysConf

namespace AccTx
namespace Firmware

/-! ### led_drv.c -/

/-- The levels `set_freq_led` leaves on `LED_F0`–`LED_F3`: one LED lit for the
four presets, none for any other number. -/
def freqLeds (freqCnt : ℕ) : Fin 4 → Level := fun k => if k.val = freqCnt then .low else .high

def setFreqLed (freqCnt : ℕ) : Fw Unit :=
  modify fun m => { m with leds := { m.leds with f := freqLeds freqCnt } }

/-- The one of `LED_P0`–`LED_P7` that `set_vol_led` lights for a volume. -/
def volLed : ℕ → Option (Fin 8)
  | 5 => some 0
  | 1 => some 1
  | 6 => some 2
  | 2 => some 3
  | 7 => some 4
  | 3 => some 5
  | 8 => some 6
  | 4 => some 7
  | _ => none

/-- The levels `set_vol_led` leaves on `LED_P0`–`LED_P7`. -/
def volLeds (volCnt : ℕ) : Fin 8 → Level := fun k => if volLed volCnt = some k then .low else .high

def setVolLed (volCnt : ℕ) : Fw Unit :=
  modify fun m => { m with leds := { m.leds with p := volLeds volCnt } }

/-- `set_ind_led`: type 0 is the status LED, type 1 the communication LED. -/
def setIndLed (ledType bitAction : ℕ) : Fw Unit :=
  modify fun m =>
    if ledType = 0 then { m with leds := { m.leds with sts := level bitAction } }
    else if ledType = 1 then { m with leds := { m.leds with com := level bitAction } }
    else m

/-- The levels `set_bat_led` leaves on `LED_BAT0`–`LED_BAT9`: `bat_cnt` LEDs lit
from the high end up to ten, the last one blinking at zero, none above ten. -/
def batLeds (batCnt batReg : ℕ) : Fin 10 → Level := fun k =>
  if batCnt = 0 then (if batReg = 0 ∧ k.val = 9 then .low else .high)
  else if batCnt ≤ 10 ∧ 10 ≤ k.val + batCnt then .low else .high

def setBatLed (batCnt : ℕ) : Fw Unit :=
  modify fun m =>
    { m with leds := { m.leds with
        bat := batLeds batCnt m.leds.batReg
        batReg := if batCnt = 0 then (if m.leds.batReg = 0 then 1 else 0) else m.leds.batReg } }

/-- `GBM_LINK` of `sys_def.h`. -/
def GBM_LINK : ℕ := 1

def stsLedUpdate : Fw Unit := do
  let st := (← get).stat
  setIndLed 0 (if st.outEn ≠ 0 then 0 else 1)
  setIndLed 1 (if st.msBit GBM_LINK = 1 then 0 else 1)

def ledInit : Fw Unit := do
  setFreqLed 5
  setVolLed 0

def ledEn (enable : ℕ) : Fw Unit := do
  let st := (← get).stat
  if enable ≠ 0 then
    setFreqLed st.freqIndex
    setVolLed st.volumIndex
  else
    setFreqLed 5
    setVolLed 0

/-- No LED of a group lit. -/
def dark {n : ℕ} : Fin n → Level := fun _ => .high

theorem freqLeds_eq_dark {n : ℕ} : freqLeds n = dark ↔ 4 ≤ n := by
  constructor
  · intro h
    by_contra hn
    have hk := congrFun h ⟨n, by omega⟩
    simp [freqLeds, dark] at hk
  · intro h
    funext k
    simp only [freqLeds, dark, ite_eq_right_iff, reduceCtorEq, imp_false]
    omega

/-- Every volume from 1 to 8 has its LED. -/
theorem volLed_eq_none : ∀ {n : ℕ}, volLed n = none ↔ n = 0 ∨ 8 < n
  | 0 | 1 | 2 | 3 | 4 | 5 | 6 | 7 | 8 => by decide
  | n + 9 => by simp [volLed]

theorem volLeds_eq_dark {n : ℕ} : volLeds n = dark ↔ n = 0 ∨ 8 < n := by
  rw [← volLed_eq_none]
  constructor
  · intro h
    cases hn : volLed n with
    | none => rfl
    | some k =>
      have hk := congrFun h k
      simp [volLeds, dark, hn] at hk
  · intro h
    funext k
    simp [volLeds, dark, h]

/-! ### dac_drv.c -/

/-- The DAC values of the ten output levels. -/
def OPWR_IND : List ℕ := [203, 438, 639, 817, 966, 1217, 1428, 1615, 1783, 2453]

def RT_EOK : ℤ := 0

def RT_ERROR : ℤ := 1

/-- `rt_device_write` on the timer (`rt_hwtimer_write`): it stops the timer,
programs the timeout, and starts the timer, unless the driver's start fails. -/
def rtDeviceWrite (env : Env) (timeout : HwTimerVal) : Fw Bool := do
  let ok := env.startOk (← get).calls
  modify fun m => { m with timer := { running := ok, timeout := timeout } }
  return ok

def srHwtStart (env : Env) (sec uSec : ℕ) : Fw ℤ := do
  record (.srHwtStart sec uSec)
  let u := int16 uSec
  let wgMode := (← get).conf.wgMode
  -- 500000 / u_sec, on int
  if wgMode = 0 ∧ u = 0 then throw (.fault .divZero)
  let usec := if wgMode = 0 then Int.tdiv 500000 u + 1 else u
  let ok ← rtDeviceWrite env { sec := int16 sec, usec := usec }
  return if ok then RT_EOK else RT_ERROR

def srHwtStop : Fw ℤ := do
  record .srHwtStop
  modify fun m => { m with timer := { m.timer with running := false } }
  return RT_EOK

/-- `OPWR_IND[i]`, for an index in bounds. -/
def opwr (i : ℕ) : ℕ := OPWR_IND.getD i 0

def dacSet (dacVal : ℕ) : Fw Unit := modify fun m => { m with dac := dacVal }

def dacSetVolum : Fw Unit := do
  match OPWR_IND[(← get).stat.volumIndex]? with
  | some v => dacSet v
  | none => throw (.fault .opwrIndex)

/-- The timer callback: one edge of the rectangle wave. -/
def dacCb : Fw Unit :=
  modify fun m =>
    if m.wave.rectFlag = 0 then
      { m with wave := { muxSel := .high, beeper := .high, rectFlag := 1 } }
    else
      { m with wave := { muxSel := .low, beeper := .low, rectFlag := 0 } }

/-- The pins low, and `dac_start` sets the DAC to 1000. -/
def dacInit : Fw Unit := do
  modify fun m => { m with wave := { m.wave with muxSel := .low, beeper := .low } }
  dacSet 1000

/-- The timeout of a frequency in the rectangle-wave mode. -/
def period (freq : ℕ) : HwTimerVal := { sec := 0, usec := (500000 / freq : ℕ) + 1 }

/-- The machine after the timer was started with a frequency. -/
def Machine.startTimer (startOk : List Call → Bool) (freq : ℕ) (m : Machine) : Machine :=
  { m with
    timer := { running := startOk (.srHwtStart 0 freq :: m.calls), timeout := period freq }
    calls := .srHwtStart 0 freq :: m.calls }

/-- The machine after the timer was stopped. -/
def Machine.stopTimer (m : Machine) : Machine :=
  { m with timer := { m.timer with running := false }, calls := .srHwtStop :: m.calls }

/-- **What `sr_hwt_start` does** in the rectangle-wave mode with a frequency that
fits its parameter: it returns, with the timer programmed to `period freq`. -/
theorem srHwtStart_run {env : Env} {m : Machine} {freq : ℕ} (hwg : m.conf.wgMode = 0)
    (h₀ : 0 < freq) (h₁ : freq < 32768) :
    ∃ r, (srHwtStart env 0 freq).run m = .ok r (m.startTimer env.startOk freq) := by
  have hu : int16 freq = freq := int16_eq h₁
  have h₂ : ((500000 : ℤ).tdiv freq) = ((500000 / freq : ℕ) : ℤ) := by
    rw [Int.tdiv_eq_ediv_of_nonneg (by norm_num)]
    norm_num
  have hne : ¬(freq : ℤ) = 0 := by omega
  have h₃ : int16 (0 : ℕ) = 0 := int16_eq (by norm_num)
  refine ⟨if env.startOk (.srHwtStart 0 freq :: m.calls) then RT_EOK else RT_ERROR, ?_⟩
  simp only [srHwtStart, record, rtDeviceWrite, EStateM.run_bind, EStateM.run_modify,
    EStateM.run_get, EStateM.run_pure, hwg, hu, hne, h₂, h₃, and_false, if_false, if_true,
    Machine.startTimer, period]

@[simp] theorem srHwtStop_run (m : Machine) : srHwtStop.run m = .ok RT_EOK m.stopTimer := rfl

theorem dacSetVolum_run {m : Machine} (h : m.stat.volumIndex < 10) :
    dacSetVolum.run m = .ok () { m with dac := opwr m.stat.volumIndex } := by
  have hl : m.stat.volumIndex < OPWR_IND.length := h
  have hv : OPWR_IND[m.stat.volumIndex]? = some (opwr m.stat.volumIndex) := by
    rw [opwr, List.getD_eq_getElem?_getD, List.getElem?_eq_getElem hl, Option.getD_some]
  simp only [dacSetVolum, EStateM.run_bind, EStateM.run_get, hv]
  rfl

end Firmware
end AccTx
