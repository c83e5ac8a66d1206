/-
# Writes that fail halfway

`reg_map_write` checks the whole batch before it stores any of it, so a refused batch
stores nothing.  But the check functions act while they check: when an element fails,
those of the elements before it have already switched the output, moved the frequency
or the volume and relit the panel.  A batch that asks for power and then for preset 99
is refused with the output on (`not_writeAtomic_boot`).

`Settled` is the exact condition under which a refused write leaves no trace: what the
elements before the refused one ask for is there already, on every output they drive
(`writeAtomic_iff`).  Elements that drive no output, or drive one that a later element
drives again, ask for nothing there.
-/

import AccTx.Control.Outputs
import AccTx.Control.Range

namespace AccTx
namespace Control

open Firmware Effect

/-- A write that returns an error leaves the application state as it was. -/
def WriteAtomic (m : Machine) (regAddr : ℕ) (wrData : List ℕ) : Prop :=
  ∀ err m', (regMapWrite hal regAddr wrData).run m = .ok err m' → err ≠ .noErr →
    m'.toBoard = m.toBoard

/-- What the elements a write checks ask for is there already. -/
structure Settled (regAddr : ℕ) (wrData : List ℕ) (m : Machine) : Prop where
  powerEn : ∀ d, request regAddr wrData 0 = some d →
    m.stat.outEn = (if Grants d m.stat then 1 else 0) ∧
      m.leds.sts = if Grants d m.stat then .low else .high
  freq : ∀ p, request regAddr wrData 1 = some p → m.stat.freqIndex = p ∧ m.leds.f = freqLeds p
  volum : ∀ v, request regAddr wrData 2 = some v →
    m.stat.volumIndex = v ∧ m.dac = opwr v ∧ m.leds.p = volLeds v
  -- the timer runs with the last frequency asked for
  rectFreq : ∀ f, freqAt regAddr wrData m = some f →
    m.stat.rectFreq = f ∧ m.timer.running = true
  -- where no later element drives them, the output drives the timer and the LEDs
  timer : ∀ d, request regAddr wrData 0 = some d → freqAt regAddr wrData m = none →
    m.timer.running = decide (Grants d m.stat)
  freqLed : ∀ d, request regAddr wrData 0 = some d → request regAddr wrData 1 = none →
    m.leds.f = if Grants d m.stat then freqLeds m.stat.freqIndex else dark
  volLed : ∀ d, request regAddr wrData 0 = some d → request regAddr wrData 2 = none →
    m.leds.p = if Grants d m.stat then volLeds m.stat.volumIndex else dark

/-! ### The registers behind the presets -/

/-- The volume register stays zero, and the two registers a preset sets besides its
frequency are those of the preset in use. -/
structure Latched (m : Machine) : Prop where
  volumReg : m.stat.volumReg = 0
  halfPeriod : ∀ conf, (freqSelect conf m.stat.freqIndex m.stat).halfPeriod = m.stat.halfPeriod
  mulFactor : ∀ conf, (freqSelect conf m.stat.freqIndex m.stat).mulFactor = m.stat.mulFactor

variable {m m' : Machine} {regAddr : ℕ} {wrData : List ℕ} {startOk : List Call → Bool}

theorem latched_boot : Latched boot := ⟨rfl, fun _ => rfl, fun _ => rfl⟩

/-- The invariant reads nothing but these fields. -/
theorem Latched.congr (h : Latched m) (hv : m'.stat.volumReg = m.stat.volumReg)
    (hi : m'.stat.freqIndex = m.stat.freqIndex) (hp : m'.stat.halfPeriod = m.stat.halfPeriod)
    (hf : m'.stat.mulFactor = m.stat.mulFactor) : Latched m' := by
  have hsel : ∀ conf i,
      (freqSelect conf i m'.stat).halfPeriod = (freqSelect conf i m.stat).halfPeriod ∧
        (freqSelect conf i m'.stat).mulFactor = (freqSelect conf i m.stat).mulFactor := by
    intro conf i
    unfold freqSelect
    split <;> first | exact ⟨hp, hf⟩ | exact ⟨rfl, rfl⟩
  refine ⟨hv.trans h.volumReg, fun conf => ?_, fun conf => ?_⟩
  · rw [hi, hp, (hsel conf _).1]
    exact h.halfPeriod conf
  · rw [hi, hf, (hsel conf _).2]
    exact h.mulFactor conf

/-- A selected preset has its own registers. -/
theorem Latched.select (h : Latched m) {p : ℕ} (hp : p ≤ 4) (conf : Config) :
    Latched { m with stat := freqSelect conf p m.stat } := by
  have hv := h.volumReg
  interval_cases p <;> exact ⟨hv, fun _ => rfl, fun _ => rfl⟩

theorem latched_afterPassed (h : Latched m) (regAddr : ℕ) (wrData : List ℕ) :
    Latched (afterPassed startOk regAddr wrData m) := by
  have hpre : Latched { m with stat := presetAt regAddr wrData m } := by
    unfold presetAt
    cases hr : request regAddr wrData 1 with
    | none => exact h
    | some p => exact h.select (preset_le hr) m.conf
  have hv : volumRegAt regAddr wrData m = 0 := by
    unfold volumRegAt
    split
    · exact h.volumReg
    · split
      · rfl
      · exact h.volumReg
  refine hpre.congr ?_ ?_ ?_ ?_ <;> rw [afterPassed_stat]
  exact hv.trans hpre.volumReg.symm

theorem latched_afterPbEvt (h : Latched m) (hr : InRange m) (pinId : Pb) :
    Latched (m.afterPbEvt startOk pinId) := by
  rcases afterPbEvt_cases startOk pinId m with ⟨_, heq⟩ | ⟨_, _, heq⟩ | ⟨_, _, i, hi, heq⟩ |
    ⟨_, _, i, _, heq⟩ <;> rw [heq]
  · refine h.congr ?_ rfl rfl rfl
    simp only [Machine.afterPowerEn, h.volumReg, ite_self]
  · exact h
  · exact (h.select (hi hr.freqIndex) m.conf).congr rfl rfl rfl rfl
  · exact h.congr rfl rfl rfl rfl

theorem latched_step (e : Event) (h : InRange m) (hl : Latched m)
    (he : (step (quiet startOk) e).run m = .ok () m') : Latched m' := by
  cases e with
  | write regAddr wrData =>
    obtain ⟨conf, rfl⟩ := step_write_leaves h.live he
    exact (latched_afterPassed hl regAddr wrData).congr rfl rfl rfl rfl
  | _ =>
    refine step_rule (fun m₁ m₂ hs hl => ?_) h.live (by simp) he
      (fun pinId _ => latched_afterPbEvt hl h pinId) (fun pins _ => ?_) (fun _ => ?_) fun _ => hl
    · exact hl.congr hs.volumReg hs.freqIndex hs.halfPeriod hs.mulFactor
    · exact hl.congr rfl rfl rfl rfl
    · exact hl.congr rfl rfl rfl rfl

theorem latched_of_reachable (h : Reachable startOk m) : Latched m := by
  have hI := Reaches.invariant (I := fun m => InRange m ∧ Latched m) h
    ⟨inRange_boot, latched_boot⟩ fun e m m' hm he =>
      ⟨inRange_step e m m' hm.1 he, latched_step e hm.1 hm.2 he⟩
  exact hI.2

/-! ### What a refused write leaves -/

/-- The preset in use is selected again: only the frequency can change. -/
theorem presetAt_eq (hl : Latched m)
    (hf : ∀ p, request regAddr wrData 1 = some p → m.stat.freqIndex = p) :
    ∃ r, presetAt regAddr wrData m = { m.stat with rectFreq := r } := by
  unfold presetAt
  cases hr : request regAddr wrData 1 with
  | none => exact ⟨_, rfl⟩
  | some p =>
    have hp := preset_le hr
    obtain rfl := hf p hr
    have h₁ := hl.halfPeriod m.conf
    have h₂ := hl.mulFactor m.conf
    have h₃ := @freqSelect_freqIndex m.conf _ hp m.stat
    obtain ⟨h, f, i, r, hsel⟩ := freqSelect_frame m.conf m.stat.freqIndex m.stat
    rw [hsel] at h₁ h₂ h₃
    obtain rfl : h = m.stat.halfPeriod := h₁
    obtain rfl : f = m.stat.mulFactor := h₂
    obtain rfl : i = m.stat.freqIndex := h₃
    exact ⟨r, hsel⟩

theorem Settled.timerAt_eq (hs : Settled regAddr wrData m) (hm : InRange m) :
    timerAt regAddr wrData m = m.timer := by
  have hon : m.timer.running = true →
      ({ running := true, timeout := period m.stat.rectFreq } : HwTimer) = m.timer := by
    intro hrun
    rw [← hm.timer hrun, ← hrun]
  unfold timerAt
  cases hr : freqAt regAddr wrData m with
  | some f =>
    obtain ⟨hf, hrun⟩ := hs.rectFreq f hr
    exact hf ▸ hon hrun
  | none =>
    cases hd : request regAddr wrData 0 with
    | none => rfl
    | some d =>
      have hrun := hs.timer d hd hr
      by_cases hg : Grants d m.stat
      · simp only [hg, if_true]
        exact hon (by simpa [hg] using hrun)
      · simp only [hg, if_false]
        have hoff : m.timer.running = false := by simpa [hg] using hrun
        rw [← hoff]

theorem Settled.freqLedsAt_eq (hs : Settled regAddr wrData m) :
    freqLedsAt regAddr wrData m = m.leds.f := by
  unfold freqLedsAt presetAt
  cases hr : request regAddr wrData 1 with
  | some p =>
    have hi : (freqSelect m.conf p m.stat).freqIndex = p :=
      freqSelect_freqIndex (preset_le hr) m.stat
    simp only [hi]
    exact (hs.freq p hr).2.symm
  | none =>
    cases hd : request regAddr wrData 0 with
    | none => rfl
    | some d => exact (hs.freqLed d hd hr).symm

theorem Settled.volLedsAt_eq (hs : Settled regAddr wrData m) :
    volLedsAt regAddr wrData m = m.leds.p := by
  unfold volLedsAt
  cases hr : request regAddr wrData 2 with
  | some v => exact (hs.volum v hr).2.2.symm
  | none =>
    cases hd : request regAddr wrData 0 with
    | none => rfl
    | some d => exact (hs.volLed d hd hr).symm

theorem Settled.stsLedAt_eq (hs : Settled regAddr wrData m) :
    stsLedAt regAddr wrData m = m.leds.sts := by
  unfold stsLedAt
  cases hd : request regAddr wrData 0 with
  | none => rfl
  | some d => exact (hs.powerEn d hd).2.symm

/-- A check loop that leaves the board as it was has found what it asks for. -/
theorem settled_of_afterPassed_eq
    (h : (afterPassed (fun _ => true) regAddr wrData m).toBoard = m.toBoard) :
    Settled regAddr wrData m := by
  have hstat := congrArg Board.stat h
  have htimer := congrArg Board.timer h
  have hdac := congrArg Board.dac h
  have hleds := congrArg Board.leds h
  rw [afterPassed_stat] at hstat
  rw [afterPassed_timer] at htimer
  rw [afterPassed_dac] at hdac
  rw [afterPassed_leds] at hleds
  have hout := congrArg Status.outEn hstat
  have hidx := congrArg Status.freqIndex hstat
  have hfreq := congrArg Status.rectFreq hstat
  have hvol := congrArg Status.volumIndex hstat
  have hf := congrArg Leds.f hleds
  have hp := congrArg Leds.p hleds
  have hsts := congrArg Leds.sts hleds
  simp only at hout hidx hfreq hvol hf hp hsts
  constructor
  case powerEn =>
    intro d hd
    rw [outEnAt, hd] at hout
    rw [stsLedAt, hd] at hsts
    exact ⟨hout.symm, hsts.symm⟩
  case freq =>
    intro p hr
    have hi := presetAt_freqIndex_of hr m
    rw [freqLedsAt, hr, hi] at hf
    exact ⟨hidx.symm.trans hi, hf.symm⟩
  case volum =>
    intro v hr
    rw [hr, Option.getD_some] at hvol
    rw [hr] at hdac
    rw [volLedsAt, hr] at hp
    exact ⟨hvol.symm, hvol ▸ hdac.symm, hp.symm⟩
  case rectFreq =>
    intro f hr
    rw [hr, Option.getD_some] at hfreq
    rw [timerAt, hr] at htimer
    exact ⟨hfreq.symm, htimer ▸ rfl⟩
  case timer =>
    intro d hd hr
    rw [timerAt, hr, hd] at htimer
    rw [← htimer]
    by_cases hg : Grants d m.stat <;> simp [hg]
  case freqLed =>
    intro d hd hr
    rw [freqLedsAt, hr, hd] at hf
    exact hf.symm
  case volLed =>
    intro d hd hr
    rw [volLedsAt, hr, hd] at hp
    exact hp.symm

/-- The status is left as it was. -/
theorem Settled.stat_eq (hs : Settled regAddr wrData m) (hl : Latched m) :
    (afterPassed startOk regAddr wrData m).stat = m.stat := by
  have hout : outEnAt regAddr wrData m.stat = m.stat.outEn := by
    unfold outEnAt
    split
    · rfl
    · exact (hs.powerEn _ ‹_›).1.symm
  have hreg : volumRegAt regAddr wrData m = m.stat.volumReg := by
    unfold volumRegAt
    split
    · rfl
    · rw [hl.volumReg, ite_self]
  have hfreq : (freqAt regAddr wrData m).getD m.stat.rectFreq = m.stat.rectFreq := by
    cases hr : freqAt regAddr wrData m with
    | none => rfl
    | some f => exact (hs.rectFreq f hr).1.symm
  have hvol : (request regAddr wrData 2).getD m.stat.volumIndex = m.stat.volumIndex := by
    cases hr : request regAddr wrData 2 with
    | none => rfl
    | some v => exact (hs.volum v hr).1.symm
  obtain ⟨r, hpre⟩ := presetAt_eq hl fun p hr => (hs.freq p hr).1
  rw [afterPassed_stat, hout, hreg, hfreq, hvol, hpre]

/-- **A write that changes nothing.**  The check loop leaves the board as it was
exactly when what it asks for is there already. -/
theorem afterPassed_eq_iff (hm : InRange m) (hl : Latched m) :
    (afterPassed (fun _ => true) regAddr wrData m).toBoard = m.toBoard ↔
      Settled regAddr wrData m := by
  refine ⟨settled_of_afterPassed_eq, fun hs => ?_⟩
  obtain ⟨hpb, hwave, hbat, htemp⟩ := @afterPassed_frame (fun _ => true) regAddr wrData m
  refine Board.ext (afterPassed_conf ..) (hs.stat_eq hl) ?_ ?_ ?_ hpb hwave hbat htemp
  · rw [afterPassed_timer, hs.timerAt_eq hm]
  · rw [afterPassed_dac]
    cases hr : request regAddr wrData 2 with
    | none => rfl
    | some v =>
      obtain ⟨hv, hdac, -⟩ := hs.volum v hr
      exact hv ▸ hdac.symm
  · rw [afterPassed_leds, hs.freqLedsAt_eq, hs.volLedsAt_eq, hs.stsLedAt_eq]

/-- **When a write is atomic**: it is accepted, or what the elements before the refused
one ask for is there already. -/
theorem writeAtomic_iff (m : Machine) (h : Reachable (fun _ => true) m) (regAddr : ℕ)
    (wrData : List ℕ) :
    WriteAtomic m regAddr wrData ↔ Accepted regAddr wrData ∨ Settled regAddr wrData m := by
  have hm := inRange_of_reachable h
  have heq := @afterPassed_eq_iff m regAddr wrData hm (latched_of_reachable h)
  rcases @regMapWrite_cases (fun _ => true) m hm.live regAddr wrData with
    ⟨hacc, _, hrun⟩ | ⟨hres, hrun⟩ | ⟨hacc, _, err, herr, hrun⟩
  · refine iff_of_true (fun err m' he hne => ?_) (Or.inl hacc)
    rw [hal, hrun, EStateM.Result.ok.injEq] at he
    exact absurd he.1.symm hne
  · refine iff_of_true (fun err m' he => ?_) (Or.inl (accepted_of_resets hres))
    rw [hal, hrun] at he
    cases he
  · constructor
    · intro hat
      exact Or.inr (heq.1 (hat err _ hrun herr))
    · rintro (ha | hs) err' m' he _
      · exact absurd ha hacc
      · rw [hal, hrun, EStateM.Result.ok.injEq] at he
        exact he.2 ▸ heq.2 hs

/-- A batch refused at its second element. -/
theorem writeAtomic_iff_boot : WriteAtomic boot 0 [1, 99] ↔
    Accepted 0 [1, 99] ∨ Settled 0 [1, 99] boot :=
  writeAtomic_iff boot ⟨[], rfl⟩ 0 [1, 99]

/-- Power and the preset 99 in one batch: the preset is refused, the output is on. -/
theorem not_writeAtomic_boot :
    Reachable (fun _ => true) boot ∧ ¬WriteAtomic boot 0 [1, 99] := by
  refine ⟨⟨[], rfl⟩, fun h => ?_⟩
  have hbad : ¬Accepted 0 [1, 99] := by decide
  rcases @regMapWrite_cases (fun _ => true) boot inRange_boot.live 0 [1, 99] with
    ⟨hacc, _⟩ | ⟨hres, _⟩ | ⟨_, _, err, herr, hrun⟩
  · exact hbad hacc
  · exact hbad (accepted_of_resets hres)
  · have hout := congrArg (fun b => b.stat.outEn) (h err _ hrun herr)
    cases hout

end Control
end AccTx
