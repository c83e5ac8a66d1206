/-
# A frequency change and what happens while it sleeps

`rect_freq_opt` stores the frequency, stops the timer, sleeps for one tick and then
starts the timer with its own parameter.  The buttons and the status pins are served
while it sleeps.  A button that switches the output off, or that selects another
frequency, is undone by the restart: the timer runs under a disabled output, or with
the period of a frequency that is no longer in use.

`Tuning` is the part of the machine that decides it, with one transition for each
button and poll (`Tuning.next`), and `window_run` proves that a write through the window
does to it what these transitions do.  So the condition under which a write leaves the
timer as the output and the frequency have it is one on the events of the window
(`survives_iff`).
-/

import AccTx.Control.Interlock

namespace AccTx
namespace Control

open Firmware Effect

/-- What can run while `rect_freq_opt` sleeps: a button, whose `pb_evt` runs as a whole
in the tick timer, or a status poll. -/
inductive Slot
  | button (pinId : Pb)
  | poll (pins : StsPins)

def Slot.event : Slot → Event
  | .button pinId => .button pinId
  | .poll pins => .poll pins

/-- The step of a slot, as one atomic event. -/
def slotStep (s : Slot) : Fw Unit := step hal s.event

/-- The environment in which the given slots run while the thread sleeps. -/
def window (slots : List Slot) : Env where
  startOk _ := true
  sleep _ := run slotStep slots

/-- The write completes, and then the timer runs exactly when the output is enabled, with
the period of the frequency in use. -/
def Survives (slots : List Slot) (regAddr v : ℕ) (m : Machine) : Prop :=
  ∃ err m', (regMapWrite (window slots) regAddr [v]).run m = .ok err m' ∧
    (m'.timer.running = true ↔ m'.stat.outEn = 1) ∧
    (m'.timer.running = true → m'.timer.timeout.usec = (500000 / m'.stat.rectFreq : ℕ) + 1)

/-! ### The automaton of the window -/

/-- The output, the output at the last poll, the preset and the frequency in use. -/
structure Tuning where
  on : Bool
  seen : Bool
  index : ℕ
  freq : ℕ

/-- The frequency of a preset. -/
def presetFreq (custom : ℕ) : ℕ → ℕ
  | 0 => 290
  | 1 => 470
  | 2 => 580
  | 3 => 690
  | 4 => custom
  | _ => 470

/-- A frequency button: it selects a preset while the output is on. -/
def Tuning.select (custom i : ℕ) (t : Tuning) : Tuning :=
  if t.on then { t with index := i, freq := presetFreq custom i } else t

def Tuning.next (custom : ℕ) (t : Tuning) : Slot → Tuning
  | .button .outEn => { t with on := !t.on && !t.seen }
  | .button .freqD => t.select custom (stepDown t.index)
  | .button .freqU => t.select custom (stepUp 4 t.index)
  | .button .volD => t
  | .button .volU => t
  | .poll _ => { t with seen := t.on }

/-- The tuning of a machine. -/
def tuning (m : Machine) : Tuning where
  on := decide (m.stat.outEn = 1)
  seen := decide (m.stat.msBit GBM_LOAD = 1)
  index := m.stat.freqIndex
  freq := m.stat.rectFreq

/-- The tuning when the write of `v` to `freq_set` or `rect_freq` falls asleep. -/
def atSleep (regAddr v : ℕ) (m : Machine) : Tuning :=
  if regAddr = 1 then { tuning m with index := v, freq := presetFreq m.conf.rectFreq v }
  else { tuning m with freq := v }

/-- The tuning when the write wakes up. -/
def atWake (slots : List Slot) (regAddr v : ℕ) (m : Machine) : Tuning :=
  slots.foldl (Tuning.next m.conf.rectFreq) (atSleep regAddr v m)

variable {m : Machine}

theorem freqSelect_rectFreq (conf : Config) (st : Status) :
    ∀ pram, (freqSelect conf pram st).rectFreq = presetFreq conf.rectFreq pram
  | 0 | 1 | 2 | 3 | 4 => rfl
  | _ + 5 => rfl

theorem tuning_afterPowerEn (m : Machine) (pram : ℕ) :
    tuning (m.afterPowerEn (fun _ => true) pram) =
      { tuning m with on := decide (Grants pram m.stat) } := by
  have hon : decide ((if Grants pram m.stat then 1 else 0) = 1) = decide (Grants pram m.stat) := by
    by_cases hg : Grants pram m.stat <;> simp [hg]
  rw [← hon]
  rfl

theorem tuning_afterFreq (hon : m.stat.outEn = 1) {i : ℕ} (hi : i ≤ 4) :
    tuning (m.afterFreq (fun _ => true) i) = (tuning m).select m.conf.rectFreq i := by
  have h₁ : (tuning m).on = true := decide_eq_true hon
  have h₂ : (m.afterFreq (fun _ => true) i).stat = freqSelect m.conf i m.stat := rfl
  rw [Tuning.select, if_pos h₁, tuning, h₂, Status.msBit, freqSelect_outEn, freqSelect_msStatus,
    freqSelect_freqIndex hi, freqSelect_rectFreq]
  rfl

/-- **A button does to the tuning what the automaton does.** -/
theorem tuning_afterPbEvt (hm : InRange m) (pinId : Pb) :
    tuning (m.afterPbEvt (fun _ => true) pinId) =
      (tuning m).next m.conf.rectFreq (.button pinId) := by
  have hidx := hm.freqIndex
  have hselect : ∀ i, i ≤ 4 → tuning (if m.stat.outEn = 0 then m else Machine.afterFreq
      (fun _ => true) i { m with stat := { m.stat with freqIndex := i } }) =
        (tuning m).select m.conf.rectFreq i := by
    intro i hi
    rcases hm.outEn with hoff | hon
    · have hne : ¬(tuning m).on = true := by simp [tuning, hoff]
      rw [if_pos hoff, Tuning.select, if_neg hne]
    · have hne : ¬m.stat.outEn = 0 := by omega
      rw [if_neg hne, afterFreq_setFreqIndex, tuning_afterFreq hon hi]
  cases pinId with
  | outEn =>
    rw [Machine.afterPbEvt, tuning_afterPowerEn]
    rcases hm.outEn with h | h <;> rcases msBit_cases m.stat GBM_LOAD with hb | hb <;>
      simp [Tuning.next, tuning, Grants, h, hb]
  | freqD => exact hselect _ (stepDown_le hidx)
  | freqU => exact hselect _ (stepUp_le hidx)
  | volD =>
    simp only [Machine.afterPbEvt, Tuning.next]
    split <;> rfl
  | volU =>
    simp only [Machine.afterPbEvt, Tuning.next]
    split <;> rfl

/-- **A slot is one atomic event**, and does to the tuning what the automaton does. -/
theorem slot_simulates (conf : Config) (s : Slot) (m : Machine) (hm : InRange m ∧ m.conf = conf) :
    ∃ m', (slotStep s).run m = .ok () m' ∧ (InRange m' ∧ m'.conf = conf) ∧
      tuning m' = (tuning m).next conf.rectFreq s := by
  obtain ⟨hm, rfl⟩ := hm
  cases s with
  | button pinId =>
    have hrun : (slotStep (.button pinId)).run m = .ok () (m.afterPbEvt (fun _ => true) pinId) :=
      pbEvt_run hm.live pinId
    exact ⟨_, hrun, ⟨inRange_afterPbEvt hm pinId, afterPbEvt_conf pinId m⟩,
      tuning_afterPbEvt hm pinId⟩
  | poll pins =>
    have hrun : (slotStep (.poll pins)).run m = .ok () (m.afterPoll pins) := rfl
    refine ⟨_, hrun, ⟨hm.congr rfl rfl rfl rfl rfl rfl rfl, rfl⟩, ?_⟩
    have hload := afterPoll_load pins hm.outEn
    rw [tuning, hload]
    rfl

/-! ### A write through the window -/

/-- **What a write to `freq_set` or `rect_freq` leaves**, whatever runs while it sleeps:
the timer running with the frequency it fell asleep with, and the tuning the window has
led to. -/
theorem window_run (hm : InRange m) (hon : m.stat.outEn = 1) {regAddr v : ℕ}
    (hr : regAddr = 1 ∨ regAddr = 5) (hok : rowOk regAddr v) (slots : List Slot) :
    ∃ m', (regMapWrite (window slots) regAddr [v]).run m = .ok .noErr m' ∧
      m'.timer = { running := true, timeout := period (atSleep regAddr v m).freq } ∧
      tuning m' = atWake slots regAddr v m := by
  rcases hr with rfl | rfl
  · -- `freq_opt` falls asleep with the preset selected
    have hv : v ≤ 4 := paramOk_of_rowOk (c := .freqOpt) hok rfl
    have hsel := freqSelect_inRange hm.custom v m.stat
    have hs : InRange ((m.atSelect v).atDelay (freqSelect m.conf v m.stat).rectFreq) :=
      inRange_atDelay (inRange_atSelect hm hv) hsel
    have htune : tuning ((m.atSelect v).atDelay (freqSelect m.conf v m.stat).rectFreq) =
        atSleep 1 v m := by
      have h := tuning_afterFreq hon hv
      have hton : (tuning m).on = true := decide_eq_true hon
      rw [Tuning.select, if_pos hton] at h
      exact h
    obtain ⟨m₁, hrun, ⟨hm₁, hconf⟩, habs⟩ :=
      run_simulates (slot_simulates m.conf) ⟨hs, rfl⟩ slots
    have hcall := @freqOpt_sleep (window slots) m m₁ v hm.live hrun hm₁.wgMode
    refine ⟨_, writeOne_run (by norm_num) (chkElem_call (c := .freqOpt) hok rfl hcall), ?_, ?_⟩
    · rw [freqSelect_rectFreq]
      rfl
    · rw [atWake, ← htune, ← habs]
      rfl
  · have hv : 100 ≤ v ∧ v ≤ 6000 := paramOk_of_rowOk (c := .rectFreqOpt) hok rfl
    have hs : InRange (m.atDelay v) := inRange_atDelay hm hv
    obtain ⟨m₁, hrun, ⟨hm₁, hconf⟩, habs⟩ :=
      run_simulates (slot_simulates m.conf) ⟨hs, rfl⟩ slots
    have hcall := @rectFreqOpt_sleep (window slots) m m₁ v (by omega) (by omega) hrun hm₁.wgMode
    have hchk := chkElem_call (c := .rectFreqOpt) hok rfl hcall
    exact ⟨_, writeOne_run (by norm_num) hchk, rfl, habs⟩

/-- **When a frequency change survives its sleep.** -/
theorem survives_iff_atWake (hm : InRange m) (hon : m.stat.outEn = 1)
    (hrun : m.timer.running = true) {regAddr v : ℕ} (hr : regAddr = 1 ∨ regAddr = 5)
    (slots : List Slot) :
    Survives slots regAddr v m ↔ ¬rowOk regAddr v ∨
      (atWake slots regAddr v m).on = true ∧
        500000 / (atWake slots regAddr v m).freq = 500000 / (atSleep regAddr v m).freq := by
  by_cases hok : rowOk regAddr v
  · obtain ⟨m', hw, htimer, htune⟩ := window_run hm hon hr hok slots
    have hon' : m'.stat.outEn = 1 ↔ (atWake slots regAddr v m).on = true := by
      rw [← htune]
      exact decide_eq_true_iff.symm
    have hfreq : m'.stat.rectFreq = (atWake slots regAddr v m).freq := by
      rw [← htune]
      rfl
    constructor
    · rintro ⟨err, m'', hw', hiff, husec⟩
      obtain rfl : m' = m'' := by
        rw [hw, EStateM.Result.ok.injEq] at hw'
        exact hw'.2
      have hr : m'.timer.running = true := by rw [htimer]
      have h₁ := husec hr
      simp only [htimer, hfreq, period] at h₁
      exact Or.inr ⟨hon'.1 (hiff.1 hr), by omega⟩
    · rintro (hno | ⟨h₁, h₂⟩)
      · exact absurd hok hno
      · refine ⟨_, m', hw, iff_of_true (by rw [htimer]) (hon'.2 h₁), fun _ => ?_⟩
        rw [htimer, hfreq, period, h₂]
  · -- a refused value leaves the machine as it was
    have ha : regAddr < 16 := by omega
    refine iff_of_true ⟨.dataOr, m, ?_, iff_of_true hrun hon, fun _ => ?_⟩ (Or.inl hok)
    · rw [writeOne_run ha (chkElem_refused _ ha hok)]
      rfl
    · rw [hm.timer hrun]
      rfl

/-- **Frequency changes survive interleaving at the yield**, for every reachable state with
the output enabled and the timer running, every value written to `freq_set` or
`rect_freq`, and every sequence of buttons and polls during the sleep, exactly when the
value is refused, or the window leads back to an enabled output and to a frequency with
the period of the one the write fell asleep with. -/
theorem survives_iff (m : Machine) (h : Reachable (fun _ => true) m) (hon : m.stat.outEn = 1)
    (hrun : m.timer.running = true) (regAddr : ℕ) (hr : regAddr = 1 ∨ regAddr = 5) (v : ℕ)
    (slots : List Slot) :
    Survives slots regAddr v m ↔ ¬rowOk regAddr v ∨
      (atWake slots regAddr v m).on = true ∧
        500000 / (atWake slots regAddr v m).freq = 500000 / (atSleep regAddr v m).freq :=
  survives_iff_atWake (inRange_of_reachable h) hon hrun hr slots

/-- The machine after the output is switched on for the first time. -/
theorem reachable_switchedOn : Reachable (fun _ => true) (afterPowerOn boot) :=
  ⟨[.write 0 [1]], run_cons_ok.2 ⟨_, powerOn_step inRange_boot, rfl⟩⟩

/-- A volume button and a poll in the window of a new preset. -/
theorem survives_iff_switchedOn :
    Survives [.button .volU, .poll ⟨.low, .low, .low⟩] 1 2 (afterPowerOn boot) ↔ ¬rowOk 1 2 ∨
      (atWake [.button .volU, .poll ⟨.low, .low, .low⟩] 1 2 (afterPowerOn boot)).on = true ∧
        500000 / (atWake [.button .volU, .poll ⟨.low, .low, .low⟩] 1 2 (afterPowerOn boot)).freq =
          500000 / (atSleep 1 2 (afterPowerOn boot)).freq :=
  survives_iff _ reachable_switchedOn rfl rfl 1 (Or.inl rfl) 2 _

/-- Switching the output off in the window of a new preset: the timer runs afterwards. -/
theorem restarted_under_disabled_output :
    ∃ m, Reachable (fun _ => true) m ∧ m.stat.outEn = 1 ∧ m.timer.running = true ∧
      ¬Survives [.button .outEn] 1 2 m := by
  refine ⟨_, reachable_switchedOn, rfl, rfl, fun h => ?_⟩
  have hm := inRange_of_reachable reachable_switchedOn
  rcases (survives_iff_atWake hm rfl rfl (Or.inl rfl) _).1 h with hno | ⟨hon, _⟩
  · exact hno (by decide)
  · exact absurd hon (by decide)

end Control
end AccTx
