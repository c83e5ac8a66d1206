/-
# The DAC and the volume

`volum_opt` sets the DAC from `volum_index` and then stores its parameter there.
`pb_evt` has stepped the index before it calls, so the DAC gets the level of the new
volume.  `reg_map_write` calls it with the index as it was, so the DAC gets the level
of the volume before, and the DAC lags one write behind.

So every volume operation leaves the DAC at the level of the volume it selects exactly
when every accepted write of it names the volume already selected
(`volum_dac_iff`).
-/

import AccTx.Control.Outputs
import AccTx.Control.Range

namespace AccTx
namespace Control

open Firmware Effect

/-- The event is a volume operation: an accepted write of the volume, or a volume button
of an enabled output. -/
def VolumOp (e : Event) (m : Machine) : Prop :=
  match e with
  | .write regAddr wrData => Accepted regAddr wrData ∧ (request regAddr wrData 2).isSome
  | e => (presses m e = some .volD ∨ presses m e = some .volU) ∧ m.stat.outEn ≠ 0

/-- A volume operation leaves the DAC at the level of the volume it selects. -/
def DacFollows (_ : List Event) (e : Event) (m m' : Machine) : Prop :=
  VolumOp e m → m'.dac = opwr m'.stat.volumIndex

/-- An accepted write of the volume names the one already selected. -/
def RepeatsVolum (e : Event) (m : Machine) : Prop :=
  match e with
  | .write regAddr wrData => Accepted regAddr wrData →
    ∀ v, request regAddr wrData 2 = some v → v = m.stat.volumIndex
  | _ => True

variable {startOk : List Call → Bool} {m m' : Machine}

/-- The volumes have different levels. -/
theorem opwr_inj : ∀ i ≤ 8, ∀ j ≤ 8, opwr i = opwr j → i = j := by
  decide

/-- A volume button steps the index before the DAC is set from it. -/
theorem dac_afterPbEvt {pinId : Pb} (hpin : pinId = .volD ∨ pinId = .volU)
    (hon : m.stat.outEn ≠ 0) :
    (m.afterPbEvt startOk pinId).dac = opwr (m.afterPbEvt startOk pinId).stat.volumIndex := by
  rcases hpin with rfl | rfl <;> simp only [Machine.afterPbEvt, if_neg hon, Machine.afterVolum]

/-- A write sets the DAC from the index before it. -/
theorem dac_afterPassed {regAddr v : ℕ} {wrData : List ℕ} (hm : InRange m)
    (hv : request regAddr wrData 2 = some v) :
    (afterPassed startOk regAddr wrData m).dac =
      opwr (afterPassed startOk regAddr wrData m).stat.volumIndex ↔ v = m.stat.volumIndex := by
  rw [afterPassed_dac, afterPassed_stat, hv]
  simp only [Option.getD_some]
  constructor
  · intro h
    exact (opwr_inj _ hm.volumIndex v (volum_le hv) h).symm
  · intro h
    rw [h]

theorem dacFollows_step (hm : InRange m) {es : List Event} {e : Event}
    (he : (step (quiet startOk) e).run m = .ok () m') :
    DacFollows es e m m' ↔ RepeatsVolum e m := by
  have hspec := step_spec hm.live he
  cases e with
  | write regAddr wrData =>
    obtain ⟨conf, rfl⟩ := step_write_leaves hm.live he
    rw [DacFollows, RepeatsVolum, VolumOp, and_imp]
    refine imp_congr_right fun _ => ?_
    constructor
    · intro h v hv
      exact (dac_afterPassed hm hv).1 (h (Option.isSome_iff_exists.2 ⟨v, hv⟩))
    · intro h hsome
      obtain ⟨v, hv⟩ := Option.isSome_iff_exists.1 hsome
      exact (dac_afterPassed hm hv).2 (h v hv)
  | button pinId =>
    refine iff_of_true ?_ trivial
    rintro ⟨hpin, hon⟩
    rw [show m' = m.afterPbEvt startOk pinId from hspec]
    exact dac_afterPbEvt (hpin.imp Option.some.inj Option.some.inj) hon
  | scan pins =>
    refine iff_of_true ?_ trivial
    rintro ⟨hpin, hon⟩
    rw [show m' = afterScan startOk pins m from hspec, afterScan]
    cases hc : confirmed m.pb (pressed pins) with
    | none => simp [presses, hc] at hpin
    | some pinId =>
      rw [presses, hc, Option.some.injEq, Option.some.injEq] at hpin
      exact @dac_afterPbEvt startOk m pinId hpin hon
  | _ => exact iff_of_true (fun h => by simp [VolumOp, presses] at h) trivial

/-- **The DAC level follows the volume on both control paths**, from every reachable
state, in the runs in which every accepted write of the volume names the volume already
selected, and in no other run. -/
theorem volum_dac_iff (startOk : List Call → Bool) (m : Machine) (h : Reachable startOk m)
    (es : List Event) :
    Along (step (quiet startOk)) DacFollows es m ↔
      Guarded (step (quiet startOk)) RepeatsVolum es m :=
  along_congr fun _ _ _ _ hrun he =>
    dacFollows_step (run_invariant inRange_step (inRange_of_reachable h) hrun) he

/-- Two writes of the volume in use from the start-up, and a volume button. -/
theorem volum_dac_iff_boot :
    Along (step (quiet fun _ => true)) DacFollows [.write 2 [4], .write 2 [4], .button .volU]
        boot ↔
      Guarded (step (quiet fun _ => true)) RepeatsVolum
        [.write 2 [4], .write 2 [4], .button .volU] boot :=
  volum_dac_iff (fun _ => true) boot ⟨[], rfl⟩ _

/-- Writing volume 3 after the start-up leaves the DAC at the level of volume 4. -/
theorem dac_lags_write :
    Reachable (fun _ => true) boot ∧ Accepted 2 [3] ∧
      ¬Along (step hal) DacFollows [.write 2 [3]] boot := by
  refine ⟨⟨[], rfl⟩, by decide, fun h => ?_⟩
  have hrun := @step_write_accepted (fun _ => true) boot inRange_boot.live 2 [3] (by decide)
    (by decide)
  have hdac := h [] (.write 2 [3]) [] _ _ rfl rfl hrun ⟨by decide, by decide⟩
  have hlag : (afterPassed (fun _ => true) 2 [3] boot).dac = opwr 4 := rfl
  exact absurd (hlag.symm.trans hdac) (by decide)

end Control
end AccTx
