/-
# The preset and the generated frequency

`stat.freq_index` is the preset the panel shows, `stat.rect_freq` the frequency the timer
is run with.  `freq_opt` writes them together, so the buttons and the writes of the
register 1 keep them in step.  `rect_freq_opt` behind the register 5 writes the frequency
alone, and it does so while the batch is checked, so a refused batch has changed the
frequency and not `conf.rect_freq`, which is the frequency of preset 4.

So the preset and the frequency agree throughout a run exactly when every write of it
that requests a frequency requests the one of the preset, where the custom preset takes
any frequency with a batch that is accepted (`preset_follows_iff`).
-/

import AccTx.Control.Store
import AccTx.Control.Window

namespace AccTx
namespace Control

open Firmware Effect

/-- The frequency in use is that of the preset in use. -/
def PresetFollows (m : Machine) : Prop :=
  m.stat.rectFreq = presetFreq m.conf.rectFreq m.stat.freqIndex

/-- The preset in use once the check loop of a write is through. -/
def indexAt (regAddr : ℕ) (wrData : List ℕ) (st : Status) : ℕ :=
  (request regAddr wrData 1).getD st.freqIndex

/-- A write that requests a frequency requests that of the preset it leaves in use.  For the
custom preset the accepted write brings it. -/
def TunesPreset (e : Event) (m : Machine) : Prop :=
  match e with
  | .write regAddr wrData => ∀ v, request regAddr wrData 5 = some v →
    v = presetFreq m.conf.rectFreq (indexAt regAddr wrData m.stat) ∨
      indexAt regAddr wrData m.stat = 4 ∧ Accepted regAddr wrData
  | _ => True

variable {startOk : List Call → Bool} {m m' : Machine} {regAddr : ℕ} {wrData : List ℕ}

/-- Only the custom preset has the custom frequency. -/
theorem presetFreq_of_ne {i : ℕ} (h : i ≠ 4) (c d : ℕ) : presetFreq c i = presetFreq d i := by
  unfold presetFreq
  split
  case h_5 => exact absurd rfl h
  all_goals rfl

theorem presetAt_freqIndex : (presetAt regAddr wrData m).freqIndex =
    indexAt regAddr wrData m.stat := by
  unfold indexAt
  cases hr : request regAddr wrData 1 with
  | none => simp only [presetAt, hr, Option.getD_none]
  | some p => exact presetAt_freqIndex_of hr m

/-- Without a frequency requested, the frequency is that of the preset the write leaves in
use, if it was before. -/
theorem freqAt_getD (h : PresetFollows m) (hr : request regAddr wrData 5 = none) :
    (freqAt regAddr wrData m).getD m.stat.rectFreq =
      presetFreq m.conf.rectFreq (indexAt regAddr wrData m.stat) := by
  unfold freqAt indexAt
  rw [hr]
  cases request regAddr wrData 1 with
  | none => exact h
  | some p => exact freqSelect_rectFreq m.conf m.stat p

/-- The register 5 after an accepted write. -/
theorem rectFreq_storeAll (hacc : Accepted regAddr wrData) (conf : Config) :
    (storeAll regAddr wrData conf).rectFreq =
      (request regAddr wrData 5).getD conf.rectFreq :=
  @load_store_request .rectFreq 5 regAddr wrData hacc rfl conf

/-- **What a write leaves of the pair**, whatever it leaves in the custom frequency. -/
theorem presetFollows_write {conf : Config} (h : PresetFollows m)
    (hconf : Accepted regAddr wrData ∧ conf = storeAll regAddr wrData m.conf ∨
      ¬Accepted regAddr wrData ∧ conf = m.conf) :
    PresetFollows { afterPassed startOk regAddr wrData m with conf := conf } ↔
      TunesPreset (.write regAddr wrData) m := by
  have hidx : (afterPassed startOk regAddr wrData m).stat.freqIndex =
      indexAt regAddr wrData m.stat := by
    rw [afterPassed_stat]
    exact presetAt_freqIndex
  have hfreq : (afterPassed startOk regAddr wrData m).stat.rectFreq =
      (freqAt regAddr wrData m).getD m.stat.rectFreq := by
    rw [afterPassed_stat]
  show (afterPassed startOk regAddr wrData m).stat.rectFreq = _ ↔ _
  rw [hidx, hfreq, TunesPreset]
  cases hr : request regAddr wrData 5 with
  | none =>
    have hcustom : conf.rectFreq = m.conf.rectFreq := by
      rcases hconf with ⟨hacc, rfl⟩ | ⟨_, rfl⟩
      · rw [rectFreq_storeAll hacc, hr, Option.getD_none]
      · rfl
    rw [freqAt_getD h hr, hcustom]
    exact iff_of_true rfl (by simp)
  | some v =>
    have hv : (freqAt regAddr wrData m).getD m.stat.rectFreq = v := by
      simp only [freqAt, hr, Option.getD_some]
    rw [hv]
    by_cases hi : indexAt regAddr wrData m.stat = 4
    · rw [hi]
      rcases hconf with ⟨hacc, rfl⟩ | ⟨hacc, rfl⟩
      · -- the accepted write brings the custom frequency it runs with
        have hcustom : (storeAll regAddr wrData m.conf).rectFreq = v := by
          rw [rectFreq_storeAll hacc, hr, Option.getD_some]
        exact iff_of_true hcustom.symm fun _ _ => Or.inr ⟨rfl, hacc⟩
      · constructor
        · intro hcustom w hw
          exact Or.inl (Option.some.inj hw ▸ hcustom)
        · intro hw
          exact (hw v rfl).resolve_right fun h => hacc h.2
    · rw [presetFreq_of_ne hi conf.rectFreq m.conf.rectFreq]
      constructor
      · intro hp w hw
        exact Or.inl (Option.some.inj hw ▸ hp)
      · intro hw
        exact (hw v rfl).resolve_right fun h => hi h.1

theorem presetFollows_afterPbEvt (hm : InRange m) (h : PresetFollows m) (pinId : Pb) :
    PresetFollows (m.afterPbEvt startOk pinId) := by
  rcases afterPbEvt_cases startOk pinId m with ⟨_, heq⟩ | ⟨_, _, heq⟩ | ⟨_, _, i, hi, heq⟩ |
    ⟨_, _, i, _, heq⟩ <;> rw [heq]
  · exact h
  · exact h
  · show (freqSelect m.conf i m.stat).rectFreq =
      presetFreq m.conf.rectFreq (freqSelect m.conf i m.stat).freqIndex
    rw [freqSelect_rectFreq, freqSelect_freqIndex (hi hm.freqIndex)]
  · exact h

/-- **A step keeps the preset and the frequency in agreement exactly when a frequency it
requests is that of the preset.** -/
theorem presetFollows_step (e : Event) (m m' : Machine) (hm : InRange m) (h : PresetFollows m)
    (he : (step (quiet startOk) e).run m = .ok () m') : PresetFollows m' ↔ TunesPreset e m := by
  cases e with
  | write regAddr wrData =>
    rcases step_spec hm.live he with ⟨_, ⟨hacc, rfl⟩ | ⟨hacc, rfl⟩⟩
    · exact presetFollows_write h (Or.inl ⟨hacc, rfl⟩)
    · have hconf : (afterPassed startOk regAddr wrData m).conf = m.conf :=
        afterPassed_conf regAddr wrData m
      rw [← presetFollows_write h (Or.inr ⟨hacc, rfl⟩), ← hconf]
  | _ =>
    refine iff_of_true (step_rule (fun m₁ m₂ hs h => ?_) hm.live (by simp) he
      (fun pinId _ => presetFollows_afterPbEvt hm h pinId) (fun _ _ => h) (fun _ => h) fun _ => h)
      trivial
    rw [PresetFollows, hs.rectFreq, hs.conf, hs.freqIndex]
    exact h

/-- **The selected preset and the generated frequency agree**, throughout the runs from the
start-up in which every write that requests a frequency requests that of the preset it
leaves in use, or brings the custom frequency in an accepted batch, and throughout no
other run. -/
theorem preset_follows_iff (startOk : List Call → Bool) (es : List Event) :
    Throughout (step (quiet startOk)) PresetFollows es boot ↔
      Guarded (step (quiet startOk)) TunesPreset es boot :=
  throughout_iff_guarded inRange_step presetFollows_step inRange_boot rfl

/-- Writing 1000 to the frequency register leaves preset 1, which is 470 Hz, in use. -/
theorem preset_left_by_write :
    ∃ m, (run (step hal) [.write 5 [1000]]).run boot = .ok () m ∧
      m.stat.freqIndex = 1 ∧ m.stat.rectFreq = 1000 ∧ ¬PresetFollows m := by
  have hrun := @step_write_accepted (fun _ => true) boot inRange_boot.live 5 [1000] (by decide)
    (by decide)
  refine ⟨_, run_cons_ok.2 ⟨_, hrun, rfl⟩, rfl, rfl, fun h => ?_⟩
  have hp : 1000 = 470 := h
  omega

end Control
end AccTx
