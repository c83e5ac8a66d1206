/-
# The state of the transmitter

`applications/sys_conf.h` and `applications/sys_def.h`, with the static
variables of the drivers and the devices they drive.

`g_sys` is the pair of `config_st` (`Config`) and `status_st` (`Status`).  The
devices behind the drivers are the hardware timer `timer2` that generates the
waveform, the DAC that sets the output level, and the GPIO pins of the panel
LEDs and of the output stage.  A `Board` is all of it.  Every field is a natural
number where the code has `uint16_t` or `uint8_t`; the few places where a value
can wrap take the remainder where the code does.

A `Machine` is a board with the calls made so far (`Call`), latest first: they
are no part of the application, only a record of it.  The firmware is written as
programs over machines (`Fw`) that return, or stop because the code leaves the
behaviour C defines (`Fault`), or because the microcontroller is reset.
-/

import AccTx.Effect.Run
import Mathlib.Data.Nat.Notation
import Mathlib.Data.Int.Notation
import Mathlib.Tactic.Common
import Mathlib.Tactic.NormNum

namespace AccTx
namespace Firmware

/-- A GPIO level, `PIN_LOW` or `PIN_HIGH`.  The LEDs are lit by a low level. -/
inductive Level
  | low
  | high
  deriving DecidableEq

/-- What `rt_pin_read` returns. -/
def Level.toNat : Level → ℕ
  | .low => 0
  | .high => 1

/-- The level `rt_pin_write` drives for a value. -/
def level (value : ℕ) : Level := if value = 0 then .low else .high

/-- `config_st`. -/
structure Config where
  pwrEn : ℕ
  freqSet : ℕ
  volumSet : ℕ
  dtHalfShift : ℕ
  phaseOffset : ℕ
  wgMode : ℕ
  rectFreq : ℕ
  rectVal : ℕ
  dacOffset : ℕ
  volumStep : ℕ
  batMavCnt : ℕ
  batUpLim : ℕ
  batLowLim : ℕ

/-- `status_st`. -/
structure Status where
  softwareVer : ℕ
  hardwareVer : ℕ
  mcuTemp : ℕ
  batAdcRaw : ℕ
  batVolt : ℕ
  batVolum : ℕ
  msStatus : ℕ
  halfPeriod : ℕ
  mulFactor : ℕ
  freqIndex : ℕ
  volumIndex : ℕ
  outEn : ℕ
  rectFreq : ℕ
  volumReg : ℕ

/-- `rt_hwtimerval_t`. -/
structure HwTimerVal where
  sec : ℤ
  usec : ℤ
  deriving DecidableEq

/-- The hardware timer behind `hw_dev`: whether it counts, and the timeout it
was last programmed with. -/
structure HwTimer where
  running : Bool
  timeout : HwTimerVal
  deriving DecidableEq

/-- The panel LEDs `LED_STS`, `LED_COM`, `LED_F0`–`LED_F3`, `LED_P0`–`LED_P7` and
`LED_BAT0`–`LED_BAT9`, and the static `bat_reg` of `set_bat_led`. -/
structure Leds where
  sts : Level
  com : Level
  f : Fin 4 → Level
  p : Fin 8 → Level
  bat : Fin 10 → Level
  batReg : ℕ

/-- The static registers of `pb_sts_update`. -/
structure Debounce where
  bitmapReg : ℕ
  stageReg : ℕ
  deriving DecidableEq

/-- The pins `dac_cb` drives, and its static phase flag. -/
structure Wave where
  muxSel : Level
  beeper : Level
  rectFlag : ℕ
  deriving DecidableEq

/-- `bat_st`: a moving-average window of `MAV_MAX_CNT` samples. -/
structure BatSt where
  mavBuffer : Fin 64 → ℕ
  mavCnt : ℕ
  accumSum : ℕ
  bufferFf : ℕ

/-- The application state: `g_sys`, the devices, and the static variables. -/
@[ext]
structure Board where
  conf : Config
  stat : Status
  timer : HwTimer
  dac : ℕ
  leds : Leds
  pb : Debounce
  wave : Wave
  bat : BatSt
  temp : BatSt

/-- The calls the properties are about, with the values the caller passes. -/
inductive Call
  | freqOpt (pram : ℕ)
  | srHwtStart (sec uSec : ℕ)
  | srHwtStop
  | rtThreadDelay (tick : ℕ)
  deriving DecidableEq

/-- A board and the calls made on it, latest first. -/
structure Machine extends Board where
  calls : List Call

/-- Where the code leaves the behaviour C defines. -/
inductive Fault
  /-- a register table is indexed at or past its end -/
  | regIndex
  /-- a `NULL` pointer is dereferenced -/
  | nullPtr
  /-- `OPWR_IND` is indexed at or past its end -/
  | opwrIndex
  /-- `mav_buffer` is indexed at or past its end -/
  | mavIndex
  /-- an integer division by zero -/
  | divZero
  deriving DecidableEq

/-- Why a program does not return. -/
inductive Stop
  | fault (f : Fault)
  /-- `NVIC_SystemReset` -/
  | reset
  deriving DecidableEq

/-- A firmware function. -/
abbrev Fw := EStateM Stop Machine

/-- What the kernel and the drivers decide: whether the timer driver starts the
timer, as a function of the calls made so far, and what runs on the processor
while a thread sleeps. -/
structure Env where
  startOk : List Call → Bool
  sleep : ℕ → Fw Unit

/-- The environment in which nothing else runs while a thread sleeps. -/
def quiet (startOk : List Call → Bool) : Env where
  startOk := startOk
  sleep _ := pure ()

/-- The environment of the STM32 timer driver, whose start always succeeds
(`HAL_TIM_Base_Start_IT` returns `HAL_OK`). -/
def hal : Env := quiet fun _ => true

def record (c : Call) : Fw Unit := modify fun m => { m with calls := c :: m.calls }

def modifyStat (f : Status → Status) : Fw Unit := modify fun m => { m with stat := f m.stat }

/-- `rt_thread_delay`: the thread is suspended for `tick` ticks. -/
def rtThreadDelay (env : Env) (tick : ℕ) : Fw Unit := do
  record (.rtThreadDelay tick)
  env.sleep tick

/-- Conversion to `int16_t`. -/
def int16 (z : ℤ) : ℤ := z.bmod 65536

theorem int16_eq {n : ℕ} (h : n < 32768) : int16 n = n := by
  unfold int16
  exact Int.bmod_eq_of_le (by omega) (by omega)

/-- Bit `k` of `ms_status`, `(ms_status >> k) & 1`. -/
def Status.msBit (st : Status) (k : ℕ) : ℕ := (st.msStatus >>> k) &&& 0x0001

end Firmware
end AccTx
