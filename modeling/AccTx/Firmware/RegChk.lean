/-
# The option functions

`applications/reg_chk.c`: the functions behind the check pointers of the
configuration table, which the buttons call as well.  Each of them acts on the
outputs and returns 1; `sys_reset_opt` resets the microcontroller.

For each the effect on the machine is stated once (`Machine.afterPowerEn`,
`Machine.afterVolum`, `Machine.afterRectFreq`, `Machine.afterFreq`) and proved
of the program where nothing else runs in its sleep (`powerEnOpt_run` and the
others), on the machines where no C expression it evaluates is undefined
(`Live`).
-/

import AccTx.Firmware.Output

namespace AccTx
namespace Firmware

/-- `GBM_LOAD` of `sys_def.h`. -/
def GBM_LOAD : ℕ := 3

/-- The request and the status word on which `power_en_opt` switches the output
on. -/
def Grants (pram : ℕ) (st : Status) : Prop := pram = 1 ∧ st.msBit GBM_LOAD = 0

instance (pram : ℕ) (st : Status) : Decidable (Grants pram st) :=
  inferInstanceAs (Decidable (_ ∧ _))

def powerEnOpt (env : Env) (pram : ℕ) : Fw ℕ := do
  if Grants pram (← get).stat then
    modifyStat fun st => { st with volumReg := 0 }
    let _ ← srHwtStart env 0 (← get).stat.rectFreq
    modifyStat fun st => { st with outEn := 1 }
  else
    modifyStat fun st => { st with outEn := 0 }
    let _ ← srHwtStop
  let outEn := (← get).stat.outEn
  ledEn outEn
  setIndLed 0 (if outEn = 0 then 1 else 0)
  return 1

def volumOpt (pram : ℕ) : Fw ℕ := do
  dacSetVolum
  modifyStat fun st => { st with volumIndex := pram }
  setVolLed (← get).stat.volumIndex
  return 1

def rectFreqOpt (env : Env) (pram : ℕ) : Fw ℕ := do
  modifyStat fun st => { st with rectFreq := pram }
  let _ ← srHwtStop
  rtThreadDelay env 1
  let _ ← srHwtStart env 0 pram
  return 1

/-- The switch of `freq_opt`.  Preset 4 takes the custom frequency of the
configuration and leaves `half_period` and `mul_factor` alone. -/
def freqSelect (conf : Config) (pram : ℕ) (st : Status) : Status :=
  match pram with
  | 0 => { st with halfPeriod := 27, mulFactor := 2, freqIndex := 0, rectFreq := 290 }
  | 1 => { st with halfPeriod := 50, mulFactor := 6, freqIndex := 1, rectFreq := 470 }
  | 2 => { st with halfPeriod := 27, mulFactor := 4, freqIndex := 2, rectFreq := 580 }
  | 3 => { st with halfPeriod := 34, mulFactor := 6, freqIndex := 3, rectFreq := 690 }
  | 4 => { st with freqIndex := 4, rectFreq := conf.rectFreq }
  | _ => { st with halfPeriod := 50, mulFactor := 6, freqIndex := 0, rectFreq := 470 }

def freqOpt (env : Env) (pram : ℕ) : Fw ℕ := do
  record (.freqOpt pram)
  let conf := (← get).conf
  modifyStat (freqSelect conf pram)
  let _ ← rectFreqOpt env (← get).stat.rectFreq
  setFreqLed (← get).stat.freqIndex
  return 1

def sysResetOpt (pram : ℕ) : Fw ℕ := do
  if pram = 9527 then throw .reset
  return 1

/-- The machines on which the option functions evaluate no undefined expression:
the rectangle-wave mode, frequencies that are not zero and fit `int16_t`, and a
volume that indexes `OPWR_IND`. -/
structure Live (m : Machine) : Prop where
  wgMode : m.conf.wgMode = 0
  freq : 0 < m.stat.rectFreq ∧ m.stat.rectFreq < 32768
  custom : 0 < m.conf.rectFreq ∧ m.conf.rectFreq < 32768
  volum : m.stat.volumIndex < 10

/-- The machine after `power_en_opt`. -/
def Machine.afterPowerEn (startOk : List Call → Bool) (pram : ℕ) (m : Machine) : Machine :=
  let on := Grants pram m.stat
  { m with
    stat := { m.stat with
      outEn := if on then 1 else 0
      volumReg := if on then 0 else m.stat.volumReg }
    timer := if on then (m.startTimer startOk m.stat.rectFreq).timer else m.stopTimer.timer
    leds := { m.leds with
      f := if on then freqLeds m.stat.freqIndex else dark
      p := if on then volLeds m.stat.volumIndex else dark
      sts := if on then .low else .high }
    calls := (if on then .srHwtStart 0 m.stat.rectFreq else .srHwtStop) :: m.calls }

/-- The machine after `volum_opt`: the DAC gets the level of the volume before. -/
def Machine.afterVolum (pram : ℕ) (m : Machine) : Machine :=
  { m with
    dac := opwr m.stat.volumIndex
    stat := { m.stat with volumIndex := pram }
    leds := { m.leds with p := volLeds pram } }

/-- The machine when `rect_freq_opt` falls asleep: the frequency stored, the timer
stopped. -/
def Machine.atDelay (pram : ℕ) (m : Machine) : Machine :=
  { m with
    stat := { m.stat with rectFreq := pram }
    timer := m.stopTimer.timer
    calls := .rtThreadDelay 1 :: .srHwtStop :: m.calls }

/-- The machine after `rect_freq_opt`. -/
def Machine.afterRectFreq (startOk : List Call → Bool) (pram : ℕ) (m : Machine) : Machine :=
  (m.atDelay pram).startTimer startOk pram

/-- The machine when `freq_opt` calls `rect_freq_opt`: the preset selected. -/
def Machine.atSelect (pram : ℕ) (m : Machine) : Machine :=
  { m with stat := freqSelect m.conf pram m.stat, calls := .freqOpt pram :: m.calls }

/-- The machine after `freq_opt`. -/
def Machine.afterFreq (startOk : List Call → Bool) (pram : ℕ) (m : Machine) : Machine :=
  let m₁ := (m.atSelect pram).afterRectFreq startOk (freqSelect m.conf pram m.stat).rectFreq
  { m₁ with leds := { m₁.leds with f := freqLeds (freqSelect m.conf pram m.stat).freqIndex } }

theorem powerEnOpt_run {env : Env} {m : Machine} (h : Live m) (pram : ℕ) :
    (powerEnOpt env pram).run m = .ok 1 (m.afterPowerEn env.startOk pram) := by
  have hf : freqLeds 5 = dark := freqLeds_eq_dark.2 (by norm_num)
  have hv : volLeds 0 = dark := volLeds_eq_dark.2 (.inl rfl)
  by_cases hon : Grants pram m.stat
  · obtain ⟨r, hr⟩ := @srHwtStart_run env { m with stat := { m.stat with volumReg := 0 } } _
      h.wgMode h.freq.1 h.freq.2
    simp [powerEnOpt, hon, modifyStat, hr, Machine.startTimer, ledEn, setFreqLed, setVolLed,
      setIndLed, level, Machine.afterPowerEn]
  · simp [powerEnOpt, hon, modifyStat, Machine.stopTimer, ledEn, setFreqLed, setVolLed,
      setIndLed, level, Machine.afterPowerEn, hf, hv]

theorem volumOpt_run {m : Machine} (h : m.stat.volumIndex < 10) (pram : ℕ) :
    (volumOpt pram).run m = .ok 1 (m.afterVolum pram) := by
  simp [volumOpt, dacSetVolum_run h, modifyStat, setVolLed, Machine.afterVolum]

/-- **`rect_freq_opt` around its sleep.**  It runs to the sleep, then whatever the
environment runs there, and starts the timer with its own parameter. -/
theorem rectFreqOpt_sleep {env : Env} {m m₁ : Machine} {pram : ℕ} (h₀ : 0 < pram)
    (h₁ : pram < 32768) (hs : (env.sleep 1).run (m.atDelay pram) = .ok () m₁)
    (hwg : m₁.conf.wgMode = 0) :
    (rectFreqOpt env pram).run m = .ok 1 (m₁.startTimer env.startOk pram) := by
  obtain ⟨r, hr⟩ := @srHwtStart_run env _ _ hwg h₀ h₁
  simp only [Machine.atDelay, Machine.stopTimer] at hs
  simp [rectFreqOpt, modifyStat, rtThreadDelay, record, Machine.stopTimer, hs, hr]

theorem rectFreqOpt_run {startOk : List Call → Bool} {m : Machine} {pram : ℕ}
    (hwg : m.conf.wgMode = 0) (h₀ : 0 < pram) (h₁ : pram < 32768) :
    (rectFreqOpt (quiet startOk) pram).run m = .ok 1 (m.afterRectFreq startOk pram) :=
  rectFreqOpt_sleep h₀ h₁ rfl hwg

/-- A preset selects a frequency between any limits of the custom one that admit those of
the other presets. -/
theorem freqSelect_rectFreq_within {lo hi : ℕ} (hlo : lo ≤ 290) (hhi : 690 ≤ hi) {conf : Config}
    (h : lo ≤ conf.rectFreq ∧ conf.rectFreq ≤ hi) (pram : ℕ) (st : Status) :
    lo ≤ (freqSelect conf pram st).rectFreq ∧ (freqSelect conf pram st).rectFreq ≤ hi := by
  unfold freqSelect
  split
  case h_5 => exact h
  all_goals
    simp only
    omega

/-- Every preset has a frequency that fits `int16_t` and is not zero. -/
theorem freqSelect_rectFreq_fits {conf : Config} (h : 0 < conf.rectFreq ∧ conf.rectFreq < 32768)
    (pram : ℕ) (st : Status) :
    0 < (freqSelect conf pram st).rectFreq ∧ (freqSelect conf pram st).rectFreq < 32768 := by
  have hfit : 1 ≤ conf.rectFreq ∧ conf.rectFreq ≤ 32767 := by omega
  have hsel := freqSelect_rectFreq_within (by omega) (by omega) hfit pram st
  omega

/-- The presets 0 to 4 are kept in `freq_index`. -/
theorem freqSelect_freqIndex {conf : Config} : ∀ {pram : ℕ}, pram ≤ 4 → ∀ st,
    (freqSelect conf pram st).freqIndex = pram
  | 0, _, _ | 1, _, _ | 2, _, _ | 3, _, _ | 4, _, _ => rfl
  | _ + 5, h, _ => by omega

/-- The fields the switch of `freq_opt` writes; the others do not change. -/
theorem freqSelect_frame (conf : Config) (pram : ℕ) (st : Status) :
    ∃ h f i r, freqSelect conf pram st =
      { st with halfPeriod := h, mulFactor := f, freqIndex := i, rectFreq := r } := by
  unfold freqSelect
  split <;> exact ⟨_, _, _, _, rfl⟩

@[simp] theorem freqSelect_volumIndex (conf : Config) (pram : ℕ) (st : Status) :
    (freqSelect conf pram st).volumIndex = st.volumIndex := by
  obtain ⟨_, _, _, _, h⟩ := freqSelect_frame conf pram st
  rw [h]

@[simp] theorem freqSelect_outEn (conf : Config) (pram : ℕ) (st : Status) :
    (freqSelect conf pram st).outEn = st.outEn := by
  obtain ⟨_, _, _, _, h⟩ := freqSelect_frame conf pram st
  rw [h]

@[simp] theorem freqSelect_msStatus (conf : Config) (pram : ℕ) (st : Status) :
    (freqSelect conf pram st).msStatus = st.msStatus := by
  obtain ⟨_, _, _, _, h⟩ := freqSelect_frame conf pram st
  rw [h]

/-- **`freq_opt` around its sleep**, which is that of `rect_freq_opt`.  The frequency
LEDs show the preset in use after it. -/
theorem freqOpt_sleep {env : Env} {m m₁ : Machine} {pram : ℕ} (h : Live m)
    (hs : (env.sleep 1).run ((m.atSelect pram).atDelay (freqSelect m.conf pram m.stat).rectFreq) =
      .ok () m₁) (hwg : m₁.conf.wgMode = 0) :
    (freqOpt env pram).run m = .ok 1
      { m₁.startTimer env.startOk (freqSelect m.conf pram m.stat).rectFreq with
        leds := { m₁.leds with f := freqLeds m₁.stat.freqIndex } } := by
  obtain ⟨h₀, h₁⟩ := freqSelect_rectFreq_fits h.custom pram m.stat
  have hr := rectFreqOpt_sleep h₀ h₁ hs hwg
  simp only [Machine.atSelect] at hr
  simp [freqOpt, record, modifyStat, hr, setFreqLed, Machine.startTimer]

theorem freqOpt_run {startOk : List Call → Bool} {m : Machine} (h : Live m) (pram : ℕ) :
    (freqOpt (quiet startOk) pram).run m = .ok 1 (m.afterFreq startOk pram) :=
  freqOpt_sleep h rfl h.wgMode

end Firmware
end AccTx
