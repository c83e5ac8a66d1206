/-
# The running system

`applications/main.c`: the start-up, and everything that happens afterwards as
events on the machine.

The board starts with the memory zeroed, the pins low and the timer stopped;
`led_init` and `bat_drv_init` run while the kernel starts, then `main` calls
`gvar_init` and `dac_init` (`boot`).  From then on the register writes of the
shell command, the button scans of `tim_pb`, the polls and the indicator updates
of the main loop, the battery thread and the expirations of the waveform timer
come in any order (`Event`).  A step that resets the microcontroller does not
return, and the system starts again from `boot`.
-/

import AccTx.Firmware.Inputs

namespace AccTx
namespace Firmware

open Effect

/-- What can happen to the running system. -/
inductive Event
  /-- `reg_map_write(reg_addr, wr_data, wr_cnt)`, `wr_cnt` the length of the data -/
  | write (regAddr : ℕ) (wrData : List ℕ)
  /-- `pb_sts_update`, with what the button pins read -/
  | scan (pins : PbPins)
  /-- `pb_evt` -/
  | button (pinId : Pb)
  /-- `in_sts_update`, with what the status pins read -/
  | poll (pins : StsPins)
  /-- `sts_led_update` -/
  | leds
  /-- `bat_update`, with the two converted samples -/
  | battery (volt temp : ℕ)
  /-- an expiration of the waveform timer, which calls `dac_cb` while it runs -/
  | expire

/-- A battery update that ends at an undefined operation, with what it has stored until
then.  How it goes on there makes no difference to the rest of the machine
(`run_stepOn_iff`). -/
def batEvent (volt temp : ℕ) : Fw Unit := fun m =>
  .ok () (finalState ((batUpdate volt temp).run m))

theorem batEvent_run (volt temp : ℕ) (m : Machine) :
    (batEvent volt temp).run m = .ok () (finalState ((batUpdate volt temp).run m)) := rfl

/-- One event. -/
def step (env : Env) : Event → Fw Unit
  | .write regAddr wrData => do let _ ← regMapWrite env regAddr wrData
  | .scan pins => pbStsUpdate env pins
  | .button pinId => pbEvt env pinId
  | .poll pins => do let _ ← inStsUpdate pins
  | .leds => stsLedUpdate
  | .battery volt temp => batEvent volt temp
  | .expire => do if (← get).timer.running then dacCb

/-- One event of a run that ends at the first undefined operation of the battery thread, or
goes on behind it as `u` says. -/
def stepOn (env : Env) (u : Option Undefined) : Event → Fw Unit
  | .battery volt temp => batUpdateOn u volt temp
  | e => step env e

/-- The machine at power-up. -/
def powerUp : Machine where
  conf := ⟨0, 0, 0, 0, 0, 0, 0, 0, 0, 0, 0, 0, 0⟩
  stat := ⟨0, 0, 0, 0, 0, 0, 0, 0, 0, 0, 0, 0, 0, 0⟩
  timer := { running := false, timeout := { sec := 0, usec := 0 } }
  dac := 0
  leds := { sts := .low, com := .low, f := fun _ => .low, p := fun _ => .low,
            bat := fun _ => .low, batReg := 0 }
  pb := { bitmapReg := 0, stageReg := 0 }
  wave := { muxSel := .low, beeper := .low, rectFlag := 0 }
  bat := { mavBuffer := fun _ => 0, mavCnt := 0, accumSum := 0, bufferFf := 0 }
  temp := { mavBuffer := fun _ => 0, mavCnt := 0, accumSum := 0, bufferFf := 0 }
  calls := []

/-- The start-up: the initialisation the kernel calls, and that of `main`. -/
def startUp : Fw Unit := do
  ledInit
  batDsInit
  gvarInit
  dacInit

/-- The machine when `main` enters its loop. -/
def boot : Machine := finalState (startUp.run powerUp)

/-- The states of the system since it started, where nothing else runs while a
thread sleeps. -/
def Reachable (startOk : List Call → Bool) (m : Machine) : Prop :=
  Reaches (step (quiet startOk)) boot m

/-- The start-up returns. -/
theorem startUp_run : startUp.run powerUp = .ok () boot := rfl

theorem boot_stat : boot.stat =
    { softwareVer := 0x0202, hardwareVer := 0x0200, mcuTemp := 0, batAdcRaw := 0, batVolt := 0,
      batVolum := 0, msStatus := 0, halfPeriod := 50, mulFactor := 6, freqIndex := 1,
      volumIndex := 4, outEn := 0, rectFreq := 470, volumReg := 0 } := rfl

theorem boot_timer : boot.timer = { running := false, timeout := { sec := 0, usec := 0 } } := rfl

theorem boot_calls : boot.calls = [] := rfl

theorem boot_leds : boot.leds.f = dark ∧ boot.leds.p = dark :=
  ⟨freqLeds_eq_dark.2 (by norm_num), volLeds_eq_dark.2 (.inl rfl)⟩

end Firmware
end AccTx
