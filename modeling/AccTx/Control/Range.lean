/-
# The ranges the system keeps

`InRange` is the invariant of the whole system: the configuration lies in the
limits of its table, the indices and the frequency of the status in theirs, the
timer runs with the period of the frequency in use, and every call so far was made
with parameters its function is defined for.  It links the parts to one another: the
custom preset takes its frequency from the configuration, so the limits of
`rect_freq` are limits of what `sr_hwt_start` can be called with.

Each check function keeps it for the parameters its row lets through
(`inRange_afterChk`), so a batch keeps it however far it gets (`inRange_afterPassed`),
and so does every event (`inRange_step`).
-/

import AccTx.Control.Step

namespace AccTx
namespace Control

open Firmware Effect

/-- The parameters of a call are those its function is defined for: `freq_opt` does
not reach its default branch, `sr_hwt_start` neither divides by zero nor loses bits
in its `int16_t` parameters. -/
def CallOk : Call → Prop
  | .freqOpt pram => pram ≤ 4
  | .srHwtStart sec uSec => int16 sec = sec ∧ int16 uSec = uSec ∧ int16 uSec ≠ 0
  | .srHwtStop => True
  | .rtThreadDelay _ => True

/-- Every mapped configuration register lies in the limits of its row. -/
def ConfInRange (conf : Config) : Prop :=
  ∀ row ∈ confRegMapInst, ∀ p, row.regPtr = some p → row.min ≤ p.load conf ∧ p.load conf ≤ row.max

/-- The invariant of the system. -/
structure InRange (m : Machine) : Prop where
  conf : ConfInRange m.conf
  wgMode : m.conf.wgMode = 0
  freqIndex : m.stat.freqIndex ≤ 4
  volumIndex : m.stat.volumIndex ≤ 8
  outEn : m.stat.outEn = 0 ∨ m.stat.outEn = 1
  rectFreq : 100 ≤ m.stat.rectFreq ∧ m.stat.rectFreq ≤ 6000
  timer : m.timer.running = true → m.timer.timeout = period m.stat.rectFreq
  calls : ∀ c ∈ m.calls, CallOk c

variable {startOk : List Call → Bool} {m m' : Machine}

/-- Every default passes the range check of its own row. -/
theorem boot_conf_inRange : ConfInRange boot.conf := by
  have h : ∀ row ∈ confRegMapInst, ∀ p, row.regPtr = some p → p.load boot.conf = row.dft := by
    intro row hrow p hp
    simp only [confRegMapInst, List.mem_cons, List.not_mem_nil, or_false] at hrow
    rcases hrow with rfl | rfl | rfl | rfl | rfl | rfl | rfl | rfl | rfl | rfl | rfl | rfl | rfl |
      rfl | rfl | rfl <;> cases hp <;> rfl
  have hd : ∀ row ∈ confRegMapInst, row.regPtr ≠ none → row.min ≤ row.dft ∧ row.dft ≤ row.max := by
    decide
  intro row hrow p hp
  rw [h row hrow p hp]
  exact hd row hrow (by simp [hp])

theorem inRange_boot : InRange boot :=
  ⟨boot_conf_inRange, rfl, by decide, by decide, Or.inl rfl, by decide, by simp [boot_timer],
    by simp [boot_calls]⟩

theorem InRange.custom (h : InRange m) : 100 ≤ m.conf.rectFreq ∧ m.conf.rectFreq ≤ 6000 := by
  have hrow := h.conf confRegMapInst[5] (List.getElem_mem (by decide)) .rectFreq rfl
  simp only [confRegMapInst, List.getElem_cons_succ, List.getElem_cons_zero, ConfPtr.load] at hrow
  omega

theorem InRange.live (h : InRange m) : Live m := by
  have h₁ := h.rectFreq
  have h₂ := h.custom
  have h₃ := h.volumIndex
  exact ⟨h.wgMode, by omega, by omega, by omega⟩

theorem callOk_start {freq : ℕ} (h : 100 ≤ freq ∧ freq ≤ 6000) : CallOk (.srHwtStart 0 freq) := by
  have hf : int16 freq = freq := int16_eq (by omega)
  refine ⟨int16_eq (by norm_num), hf, ?_⟩
  rw [hf]
  omega

/-- The frequencies of the presets, the custom one included. -/
theorem freqSelect_inRange {conf : Config} (h : 100 ≤ conf.rectFreq ∧ conf.rectFreq ≤ 6000)
    (pram : ℕ) (st : Status) :
    100 ≤ (freqSelect conf pram st).rectFreq ∧ (freqSelect conf pram st).rectFreq ≤ 6000 :=
  freqSelect_rectFreq_within (by omega) (by omega) h pram st

theorem inRange_afterPowerEn (h : InRange m) (pram : ℕ) :
    InRange (m.afterPowerEn startOk pram) := by
  refine ⟨h.conf, h.wgMode, h.freqIndex, h.volumIndex, ?_, h.rectFreq, ?_, ?_⟩
  · by_cases hon : Grants pram m.stat
    · exact Or.inr (if_pos hon)
    · exact Or.inl (if_neg hon)
  · intro hrun
    by_cases hon : Grants pram m.stat
    · simp [Machine.afterPowerEn, hon, Machine.startTimer]
    · simp [Machine.afterPowerEn, hon, Machine.stopTimer] at hrun
  · intro c hc
    rcases List.mem_cons.1 hc with rfl | hc
    · split
      · exact callOk_start h.rectFreq
      · trivial
    · exact h.calls c hc

theorem inRange_afterVolum (h : InRange m) {pram : ℕ} (hp : pram ≤ 8) :
    InRange (m.afterVolum pram) :=
  ⟨h.conf, h.wgMode, h.freqIndex, hp, h.outEn, h.rectFreq, h.timer, h.calls⟩

theorem inRange_atDelay (h : InRange m) {pram : ℕ} (hp : 100 ≤ pram ∧ pram ≤ 6000) :
    InRange (m.atDelay pram) := by
  refine ⟨h.conf, h.wgMode, h.freqIndex, h.volumIndex, h.outEn, hp, ?_, ?_⟩
  · intro hrun
    cases hrun
  · intro c hc
    rcases List.mem_cons.1 hc with rfl | hc
    · trivial
    · rcases List.mem_cons.1 hc with rfl | hc
      · trivial
      · exact h.calls c hc

theorem inRange_startTimer (h : InRange m) :
    InRange (m.startTimer startOk m.stat.rectFreq) := by
  refine ⟨h.conf, h.wgMode, h.freqIndex, h.volumIndex, h.outEn, h.rectFreq, fun _ => rfl, ?_⟩
  intro c hc
  rcases List.mem_cons.1 hc with rfl | hc
  · exact callOk_start h.rectFreq
  · exact h.calls c hc

theorem inRange_afterRectFreq (h : InRange m) {pram : ℕ} (hp : 100 ≤ pram ∧ pram ≤ 6000) :
    InRange (m.afterRectFreq startOk pram) :=
  inRange_startTimer (inRange_atDelay h hp)

theorem inRange_atSelect (h : InRange m) {pram : ℕ} (hp : pram ≤ 4) :
    InRange { m.atSelect pram with timer := m.stopTimer.timer } := by
  refine ⟨h.conf, h.wgMode, ?_, ?_, ?_, freqSelect_inRange h.custom pram m.stat, ?_, ?_⟩
  · exact (freqSelect_freqIndex hp m.stat).trans_le hp
  · exact (freqSelect_volumIndex ..).trans_le h.volumIndex
  · exact (freqSelect_outEn m.conf pram m.stat).symm ▸ h.outEn
  · intro hrun
    cases hrun
  · intro c hc
    rcases List.mem_cons.1 hc with rfl | hc
    · exact hp
    · exact h.calls c hc

theorem inRange_afterFreq (h : InRange m) {pram : ℕ} (hp : pram ≤ 4) :
    InRange (m.afterFreq startOk pram) := by
  have hs := @inRange_afterRectFreq startOk _ (inRange_atSelect h hp) _
    (freqSelect_inRange h.custom pram m.stat)
  exact ⟨hs.conf, hs.wgMode, hs.freqIndex, hs.volumIndex, hs.outEn, hs.rectFreq, hs.timer, hs.calls⟩

/-- **Each check function keeps the invariant** for the parameters of its row. -/
theorem inRange_afterChk (h : InRange m) {c : ChkPtr} {d : ℕ} (hd : ParamOk c d) :
    InRange (afterChk startOk c d m) := by
  cases c with
  | powerEnOpt => exact inRange_afterPowerEn h d
  | freqOpt => exact inRange_afterFreq h hd
  | volumOpt => exact inRange_afterVolum h hd
  | rectFreqOpt => exact inRange_afterRectFreq h hd
  | sysResetOpt => exact h

theorem inRange_afterElem (h : InRange m) {a d : ℕ} (hok : rowOk a d) :
    InRange (afterElem startOk a d m) := by
  unfold afterElem
  cases hc : chkAt a with
  | none => exact h
  | some c => exact inRange_afterChk h (paramOk_of_rowOk hok hc)

theorem inRange_afterPassed (h : InRange m) (regAddr : ℕ) (wrData : List ℕ) :
    InRange (afterPassed startOk regAddr wrData m) := by
  have hl : ∀ l : List (ℕ × ℕ), (∀ p ∈ l, rowOk p.1 p.2) → ∀ m, InRange m →
      InRange (afterChecked startOk l m) := by
    intro l
    induction l with
    | nil => exact fun _ _ h => h
    | cons p l ih =>
      intro hl m h
      exact ih (fun q hq => hl q (List.mem_cons_of_mem _ hq)) _
        (inRange_afterElem h (hl p (List.mem_cons_self ..)))
  exact hl _ (fun _ hp => mem_passed hp) m h

/-- No two rows of the table point to one register. -/
theorem row_eq_of_regPtr_eq : ∀ row ∈ confRegMapInst, ∀ row' ∈ confRegMapInst,
    row.regPtr ≠ none → row.regPtr = row'.regPtr → row = row' := by
  decide

theorem confInRange_store {conf : Config} (h : ConfInRange conf) {a d : ℕ} {p : ConfPtr}
    (hok : rowOk a d) (hp : regAt a = some p) : ConfInRange (p.store d conf) := by
  obtain ⟨row, hrow, hmin, hmax⟩ := rowOk_iff.1 hok
  rw [regAt, hrow, Option.bind_some] at hp
  intro row' hrow' q hq
  rw [ConfPtr.load_store]
  split
  · rename_i hqp
    subst hqp
    obtain rfl := row_eq_of_regPtr_eq row (List.mem_of_getElem? hrow) row' hrow' (by simp [hp])
      (hp.trans hq.symm)
    exact ⟨hmin, hmax⟩
  · exact h row' hrow' q hq

/-- Storing an accepted batch keeps the configuration in its limits, and leaves the
waveform mode alone. -/
theorem storeAll_inRange {conf : Config} (h : ConfInRange conf) {a : ℕ} {ds : List ℕ}
    (hok : ∀ i (hi : i < ds.length), rowOk (a + i) ds[i]) :
    ConfInRange (storeAll a ds conf) ∧ (storeAll a ds conf).wgMode = conf.wgMode := by
  induction ds generalizing a conf with
  | nil => exact ⟨h, rfl⟩
  | cons d ds ih =>
    have h₀ : rowOk a d := hok 0 (Nat.succ_pos _)
    have hs : ∀ i (hi : i < ds.length), rowOk (a + 1 + i) ds[i] := by
      intro i hi
      rw [Nat.add_right_comm]
      exact hok (i + 1) (Nat.succ_lt_succ hi)
    rw [storeAll, storeAt]
    cases hp : regAt a with
    | none => exact ih h hs
    | some p =>
      obtain ⟨h₁, h₂⟩ := ih (confInRange_store h h₀ hp) hs
      exact ⟨h₁, h₂.trans (ConfPtr.store_wgMode p d conf)⟩

theorem InRange.setVolumIndex (h : InRange m) {i : ℕ} (hi : i ≤ 8) :
    InRange { m with stat := { m.stat with volumIndex := i } } :=
  ⟨h.conf, h.wgMode, h.freqIndex, hi, h.outEn, h.rectFreq, h.timer, h.calls⟩

theorem inRange_afterPbEvt (h : InRange m) (pinId : Pb) : InRange (m.afterPbEvt startOk pinId) := by
  rcases afterPbEvt_cases startOk pinId m with ⟨_, heq⟩ | ⟨_, _, heq⟩ | ⟨_, _, i, hi, heq⟩ |
    ⟨_, _, i, hi, heq⟩ <;> rw [heq]
  · exact inRange_afterPowerEn h _
  · exact h
  · exact inRange_afterFreq h (hi h.freqIndex)
  · exact inRange_afterVolum (h.setVolumIndex (hi h.volumIndex)) (hi h.volumIndex)

/-- The invariant reads nothing but these fields. -/
theorem InRange.congr (h : InRange m) (hconf : m'.conf = m.conf)
    (hi : m'.stat.freqIndex = m.stat.freqIndex) (hv : m'.stat.volumIndex = m.stat.volumIndex)
    (ho : m'.stat.outEn = m.stat.outEn) (hf : m'.stat.rectFreq = m.stat.rectFreq)
    (ht : m'.timer = m.timer) (hc : m'.calls = m.calls) : InRange m' := by
  constructor
  · exact hconf ▸ h.conf
  · exact hconf ▸ h.wgMode
  · exact hi ▸ h.freqIndex
  · exact hv ▸ h.volumIndex
  · exact ho ▸ h.outEn
  · exact hf ▸ h.rectFreq
  · exact ht ▸ hf ▸ h.timer
  · exact hc ▸ h.calls

/-- **Every event keeps the invariant.** -/
theorem inRange_step (e : Event) (m m' : Machine) (h : InRange m)
    (he : (step (quiet startOk) e).run m = .ok () m') : InRange m' := by
  cases e with
  | write regAddr wrData =>
    have hp : InRange (afterPassed startOk regAddr wrData m) := inRange_afterPassed h regAddr wrData
    rcases step_spec h.live he with ⟨_, ⟨hacc, rfl⟩ | ⟨_, rfl⟩⟩
    · obtain ⟨h₁, h₂⟩ := storeAll_inRange h.conf hacc.2
      exact ⟨h₁, h₂.trans h.wgMode, hp.freqIndex, hp.volumIndex, hp.outEn, hp.rectFreq, hp.timer,
        hp.calls⟩
    · exact hp
  | _ =>
    refine step_rule (fun m₁ m₂ hs h => ?_) h.live (by simp) he
      (fun pinId _ => inRange_afterPbEvt h pinId) (fun pins _ => ?_) (fun _ => ?_) fun _ => h
    · exact h.congr hs.conf hs.freqIndex hs.volumIndex hs.outEn hs.rectFreq hs.timer hs.calls
    · exact h.congr rfl rfl rfl rfl rfl rfl rfl
    · exact h.congr rfl rfl rfl rfl rfl rfl rfl

theorem inRange_of_reachable (h : Reachable startOk m) : InRange m :=
  Reaches.invariant h inRange_boot inRange_step

/-- **The ranges hold in every state reached**, from the start-up on, by every
sequence of register writes, button scans and events, polls, indicator and battery
updates and expirations, and whether or not the timer driver starts the timer.
No event of it runs into an undefined operation, and the calls made by a write that
resets the microcontroller are made with defined parameters too. -/
theorem ranges_hold (startOk : List Call → Bool) (m : Machine) (h : Reachable startOk m) :
    InRange m ∧ ∀ e,
      (∀ f m', (step (quiet startOk) e).run m ≠ .error (.fault f) m') ∧
      (∀ m', (step (quiet startOk) e).run m = .error .reset m' → ∀ c ∈ m'.calls, CallOk c) := by
  have hm := inRange_of_reachable h
  refine ⟨hm, fun e => ⟨fun f m' he => ?_, fun m' he => ?_⟩⟩
  · rcases @step_returns startOk m hm.live e with ⟨m₁, h₁⟩ | ⟨a, ds, -, -, h₁⟩ <;> simp [h₁] at he
  · rcases @step_returns startOk m hm.live e with ⟨m₁, h₁⟩ | ⟨a, ds, -, -, h₁⟩
    · simp [h₁] at he
    · rw [h₁, EStateM.Result.error.injEq] at he
      exact he.2 ▸ (inRange_afterPassed hm a ds).calls

/-- The machine after the output button and a volume button. -/
theorem ranges_hold_buttons :
    InRange ((boot.afterPbEvt (fun _ => true) .outEn).afterPbEvt (fun _ => true) .volU) ∧ ∀ e,
      (∀ f m', (step (quiet fun _ => true) e).run
        ((boot.afterPbEvt (fun _ => true) .outEn).afterPbEvt (fun _ => true) .volU) ≠
          .error (.fault f) m') ∧
      (∀ m', (step (quiet fun _ => true) e).run
        ((boot.afterPbEvt (fun _ => true) .outEn).afterPbEvt (fun _ => true) .volU) =
          .error .reset m' → ∀ c ∈ m'.calls, CallOk c) :=
  ranges_hold (fun _ => true) _ ⟨[.button .outEn, .button .volU],
    run_cons_ok.2 ⟨_, pbEvt_run inRange_boot.live .outEn,
      run_cons_ok.2 ⟨_, pbEvt_run (inRange_afterPbEvt inRange_boot .outEn).live .volU, rfl⟩⟩⟩

end Control
end AccTx
