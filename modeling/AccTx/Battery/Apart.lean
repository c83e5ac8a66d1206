/-
# The machine without its battery thread

A battery update that comes to an undefined operation ends there in `step`, with what it has
stored until then; `stepOn` goes on behind it, in any way (`Undefined`).  For the rest of the
machine there is no difference: an update writes nothing that another event reads, so the runs
of both are those of a machine whose battery events do nothing (`run_step_apart`,
`run_stepOn_apart`), and agree on everything but what an update writes (`run_stepOn_iff`).
-/

import AccTx.Battery.Window

namespace AccTx
namespace Battery

open Firmware Effect Control

/-- The status without the fields of a battery update. -/
def statusApart (st : Status) : Status := { st with batVolt := 0, batVolum := 0, mcuTemp := 0 }

/-- A window without samples. -/
def noSamples : BatSt := ⟨fun _ => 0, 0, 0, 0⟩

/-- The machine without what a battery update writes. -/
def apart (m : Machine) : Machine :=
  { m with
    stat := statusApart m.stat
    leds := { m.leds with bat := dark, batReg := 0 }
    bat := noSamples
    temp := noSamples }

/-- One event of a machine whose battery thread does nothing. -/
def stepApart (env : Env) : Event → Fw Unit
  | .battery _ _ => pure ()
  | e => step env e

variable {startOk : List Call → Bool} {m m' t : Machine}

/-! ### What the events do -/

theorem stepApart_eq {env : Env} {e : Event} (hb : ∀ volt temp, e ≠ .battery volt temp) :
    stepApart env e = step env e := by
  cases e with
  | battery volt temp => exact absurd rfl (hb volt temp)
  | _ => rfl

theorem apart_eq (h : SameOffBattery m m') : apart m' = apart m := by
  obtain ⟨board, calls⟩ := m
  obtain ⟨board', calls'⟩ := m'
  obtain ⟨hconf, ⟨v, p, t, hst⟩, ht, hd, ⟨b, r, hled⟩, hpb, hwave, hc⟩ := h
  simp only at hconf hst ht hd hled hpb hwave hc
  simp only [apart, hconf, hst, ht, hd, hled, hpb, hwave, hc, statusApart]

theorem live_apart (h : Live m) : Live (apart m) := ⟨h.wgMode, h.freq, h.custom, h.volum⟩

theorem freqSelect_apart (conf : Config) (pram : ℕ) (st : Status) :
    freqSelect conf pram (statusApart st) = statusApart (freqSelect conf pram st) := by
  unfold freqSelect
  split <;> rfl

theorem afterFreq_apart (pram : ℕ) (m : Machine) :
    (apart m).afterFreq startOk pram = apart (m.afterFreq startOk pram) := by
  have hsel : freqSelect (apart m).conf pram (apart m).stat =
      statusApart (freqSelect m.conf pram m.stat) := freqSelect_apart m.conf pram m.stat
  simp only [Machine.afterFreq, Machine.atSelect, hsel]
  rfl

theorem afterChk_apart (c : ChkPtr) (d : ℕ) (m : Machine) :
    afterChk startOk c d (apart m) = apart (afterChk startOk c d m) := by
  cases c with
  | freqOpt => exact afterFreq_apart d m
  | _ => rfl

theorem afterPassed_apart (regAddr : ℕ) (wrData : List ℕ) (m : Machine) :
    afterPassed startOk regAddr wrData (apart m) =
      apart (afterPassed startOk regAddr wrData m) := by
  unfold afterPassed afterChecked
  induction passed regAddr wrData generalizing m with
  | nil => rfl
  | cons p l ih =>
    have helem : afterElem startOk p.1 p.2 (apart m) = apart (afterElem startOk p.1 p.2 m) := by
      unfold afterElem
      cases chkAt p.1 with
      | none => rfl
      | some c => exact afterChk_apart c p.2 m
    rw [List.foldl_cons, List.foldl_cons, helem, ih]

theorem afterPbEvt_apart (pinId : Pb) (m : Machine) :
    (apart m).afterPbEvt startOk pinId = apart (m.afterPbEvt startOk pinId) := by
  by_cases hon : m.stat.outEn = 0
  · have hon' : (apart m).stat.outEn = 0 := hon
    cases pinId with
    | outEn =>
      simp only [Machine.afterPbEvt, hon, hon', if_true]
      rfl
    | _ => simp only [Machine.afterPbEvt, hon, hon', if_true]
  · have hon' : (apart m).stat.outEn ≠ 0 := hon
    cases pinId with
    | freqD | freqU =>
      simp only [Machine.afterPbEvt, hon, hon', if_false, afterFreq_setFreqIndex]
      exact afterFreq_apart _ m
    | outEn | volD | volU =>
      simp only [Machine.afterPbEvt, hon, hon', if_false]
      rfl

theorem afterScan_apart (pins : PbPins) (m : Machine) :
    afterScan startOk pins (apart m) = apart (afterScan startOk pins m) := by
  have hpb : (apart m).pb = m.pb := rfl
  unfold afterScan
  rw [hpb]
  cases confirmed m.pb (pressed pins) with
  | none => rfl
  | some pinId =>
    simp only [afterPbEvt_apart]
    rfl

/-- A timer expiration. -/
theorem expire_apart {env : Env} :
    (step env .expire).run (apart m) = .ok () t ↔
      ∃ m', (step env .expire).run m = .ok () m' ∧ apart m' = t := by
  have hrunning : (apart m).timer.running = m.timer.running := rfl
  have hflag : (apart m).wave.rectFlag = m.wave.rectFlag := rfl
  simp only [step, EStateM.run_bind, EStateM.run_get, hrunning]
  by_cases hrun : m.timer.running
  · simp only [hrun, if_true, dacCb, EStateM.run_modify, hflag, EStateM.Result.ok.injEq, true_and,
      exists_eq_left']
    by_cases hrect : m.wave.rectFlag = 0
    · simp only [hrect, if_true]
      exact Iff.rfl
    · simp only [hrect, if_false]
      exact Iff.rfl
  · simp only [hrun, Bool.false_eq_true, if_false, EStateM.run_pure, EStateM.Result.ok.injEq,
      true_and, exists_eq_left']

/-- What an event leaves is decided by what it finds, without what an update writes. -/
theorem spec_apart {e : Event} (hb : ∀ volt temp, e ≠ .battery volt temp) (hx : e ≠ .expire)
    (h : StepSpec startOk m e m') (h' : StepSpec startOk (apart m) e t) : apart m' = t := by
  cases e with
  | write regAddr wrData =>
    obtain ⟨-, ⟨hacc, rfl⟩ | ⟨hacc, rfl⟩⟩ := h
    · obtain ⟨-, ⟨-, rfl⟩ | ⟨hno, -⟩⟩ := h'
      · rw [afterPassed_apart]
        rfl
      · exact absurd hacc hno
    · obtain ⟨-, ⟨hyes, -⟩ | ⟨-, rfl⟩⟩ := h'
      · exact absurd hyes hacc
      · rw [afterPassed_apart]
  | scan pins =>
    obtain rfl : m' = afterScan startOk pins m := h
    obtain rfl : t = afterScan startOk pins (apart m) := h'
    rw [afterScan_apart]
  | button pinId =>
    obtain rfl : m' = m.afterPbEvt startOk pinId := h
    obtain rfl : t = (apart m).afterPbEvt startOk pinId := h'
    rw [afterPbEvt_apart]
  | poll pins =>
    obtain rfl : m' = m.afterPoll pins := h
    obtain rfl : t = (apart m).afterPoll pins := h'
    rfl
  | leds =>
    obtain rfl : m' = afterLeds m := h
    obtain rfl : t = afterLeds (apart m) := h'
    rfl
  | battery volt temp => exact absurd rfl (hb volt temp)
  | expire => exact absurd rfl hx

/-- **An event that is no update** does to the machine without the battery what it does. -/
theorem other_apart (hm : Live m) {e : Event} (hb : ∀ volt temp, e ≠ .battery volt temp) :
    (step (quiet startOk) e).run (apart m) = .ok () t ↔
      ∃ m', (step (quiet startOk) e).run m = .ok () m' ∧ apart m' = t := by
  by_cases hx : e = .expire
  · subst hx
    exact expire_apart
  have hm' : Live (apart m) := live_apart hm
  constructor
  · intro he
    rcases @step_returns startOk m hm e with ⟨m', hrun⟩ | ⟨regAddr, wrData, rfl, hres, -⟩
    · exact ⟨m', hrun, spec_apart hb hx (step_spec hm hrun) (step_spec hm' he)⟩
    · exact absurd hres (step_spec hm' he).1
  · rintro ⟨m', hrun, rfl⟩
    rcases @step_returns startOk (apart m) hm' e with ⟨t, he⟩ | ⟨regAddr, wrData, rfl, hres, -⟩
    · rw [spec_apart hb hx (step_spec hm hrun) (step_spec hm' he), he]
    · exact absurd hres (step_spec hm hrun).1

/-! ### Runs -/

/-- **The runs in which an update ends at an undefined operation.** -/
theorem run_step_apart (hm : InRange m) (es : List Event) :
    (run (stepApart (quiet startOk)) es).run (apart m) = .ok () t ↔
      ∃ m', (run (step (quiet startOk)) es).run m = .ok () m' ∧ apart m' = t := by
  refine run_maps (J := InRange) inRange_step (fun e m t hm => ?_) hm
  rcases battery_or e with ⟨volt, temp, rfl⟩ | hb
  · have hsame : apart (finalState ((batUpdate volt temp).run m)) = apart m :=
      apart_eq (batUpdateOn_frame none volt temp m)
    simp only [stepApart, step, batEvent_run, EStateM.run_pure, EStateM.Result.ok.injEq, true_and,
      exists_eq_left', hsame]
  · rw [stepApart_eq hb]
    exact other_apart hm.live hb

/-- **The runs that go on behind it.** -/
theorem run_stepOn_apart (v : Undefined) (hm : InRange m) (es : List Event) :
    (run (stepApart (quiet startOk)) es).run (apart m) = .ok () t ↔
      ∃ m', (run (stepOn (quiet startOk) (some v)) es).run m = .ok () m' ∧ apart m' = t := by
  refine run_maps (J := InRange) (fun e m m' => inRange_stepOn) (fun e m t hm => ?_) hm
  rcases battery_or e with ⟨volt, temp, rfl⟩ | hb
  · obtain ⟨m', he⟩ := batUpdateOn_some v volt temp m
    have hsame : apart m' = apart m := apart_eq (batUpdateOn_final he)
    simp only [stepApart, stepOn, he, EStateM.run_pure, EStateM.Result.ok.injEq, true_and,
      exists_eq_left', hsame]
  · rw [stepApart_eq hb, stepOn_eq hb]
    exact other_apart hm.live hb

/-- **Both agree on the rest of the machine**: what one run leaves of it the other one does. -/
theorem run_stepOn_iff (v : Undefined) (hm : InRange m) (es : List Event) :
    (∃ m', (run (stepOn (quiet startOk) (some v)) es).run m = .ok () m' ∧ apart m' = t) ↔
      ∃ m', (run (step (quiet startOk)) es).run m = .ok () m' ∧ apart m' = t :=
  (run_stepOn_apart v hm es).symm.trans (run_step_apart hm es)

end Battery
end AccTx
