/-
# Any buttons at once

What a sample issues depends on the registers alone, whatever chord it shows: an event needs
the stage set, and clears it, so the next sample issues none; and its button is one that the
sample has in common with the one before.  Samples that stay the same set no stage, so from the
second one on a steady chord issues nothing (`issues_replicate`).

So the events of a sequence of scans are sound for every chord and from any registers
(`chords_sound`): there is no event without two samples of its button, and no auto-repeat.
-/

import AccTx.Buttons.Runs

namespace AccTx
namespace Buttons

open Firmware Effect Control

/-- The events of a sequence of samples are sound: one at most for each sample, of a button
pressed in it and in the one before, none right after another, and where the samples stay
the same at most one more, at the first or the second of these. -/
structure ChordsSound (pb : Debounce) (samples : List ℕ) : Prop where
  single : (issues pb samples).length = samples.length
  held : ∀ (k : ℕ) i, (issues pb samples)[k]? = some (some i) →
    (∃ b, samples[k]? = some b ∧ b.testBit (bit i)) ∧
      ∃ b, (pb.bitmapReg :: samples)[k]? = some b ∧ b.testBit (bit i)
  apart : ∀ (k : ℕ) i j, (issues pb samples)[k]? = some (some i) →
    (issues pb samples)[k + 1]? ≠ some (some j)
  settled : ∀ t c, (∀ b ∈ samples.drop t, b = c) →
    ((issues pb samples).drop t).reduceOption.length ≤ 1 ∧
      ∀ (k : ℕ) i, t ≤ k → (issues pb samples)[k]? = some (some i) → k = t ∨ k = t + 1

variable {pb : Debounce} {i : Pb} {b c k t : ℕ} {samples : List ℕ}

/-- The register of the samples has the last one. -/
theorem bitmapReg_foldl (pb : Debounce) (samples : List ℕ) (h : k ≤ samples.length) :
    (pb.bitmapReg :: samples)[k]? = some ((samples.take k).foldl next pb).bitmapReg := by
  induction samples generalizing pb k with
  | nil =>
    obtain rfl : k = 0 := Nat.le_zero.1 h
    rfl
  | cons b samples ih =>
    cases k with
    | zero => rfl
    | succ k =>
      rw [List.getElem?_cons_succ, List.take_succ_cons, List.foldl_cons]
      exact ih (next pb b) (Nat.le_of_succ_le_succ h)

/-- **The event of a sample.** -/
theorem confirmed_of_issues (h : (issues pb samples)[k]? = some (some i)) :
    ∃ b, samples[k]? = some b ∧ confirmed ((samples.take k).foldl next pb) b = some i := by
  rw [issues, getElem?_outputs] at h
  exact Option.map_eq_some_iff.1 h

/-- An event clears the stage, so the next sample has none. -/
theorem confirmed_next (h : confirmed pb b = some i) (c : ℕ) : confirmed (next pb b) c = none :=
  if_pos (if_neg (held_of_confirmed h).1)

/-- **Samples that stay the same** issue nothing from the third one on. -/
theorem issues_replicate (pb : Debounce) (c n : ℕ) :
    issues pb (List.replicate (n + 2) c) =
      confirmed pb c :: confirmed (next pb c) c :: List.replicate n none := by
  have hstage : nextStage (next pb c) c = 0 := by
    simp [nextStage, next]
  have hsteady : next (next pb c) c = { bitmapReg := c, stageReg := 0 } := by
    rw [next, hstage]
  have hrest := issues_steady c n
  rw [issues] at hrest ⊢
  rw [List.replicate_succ, List.replicate_succ, outputs, outputs, hsteady, hrest]

/-- **A steady chord has at most one event**, at its first sample or at its second. -/
theorem reduceOption_issues_replicate (pb : Debounce) (c n : ℕ) :
    (issues pb (List.replicate n c)).reduceOption.length ≤ 1 ∧
      ∀ k i, (issues pb (List.replicate n c))[k]? = some (some i) → k ≤ 1 := by
  rcases n with _ | _ | n
  · exact ⟨Nat.zero_le 1, fun k i h => by simp [issues, outputs] at h⟩
  · refine ⟨(List.reduceOption_length_le _).trans ?_, fun k i h => ?_⟩
    · rw [issues, length_outputs, List.length_replicate]
    · obtain ⟨b, hb, -⟩ := confirmed_of_issues h
      have hlt := (List.getElem?_eq_some_iff.1 hb).1
      rw [List.length_replicate] at hlt
      omega
  · rw [issues_replicate]
    constructor
    · cases hfirst : confirmed pb c with
      | none =>
        rw [List.reduceOption_cons_of_none]
        cases confirmed (next pb c) c with
        | none => simp
        | some j => simp
      | some i => simp [confirmed_next hfirst c]
    · intro k i h
      by_contra hk
      obtain ⟨j, rfl⟩ := Nat.exists_eq_add_of_le' (Nat.lt_of_not_le hk)
      rw [List.getElem?_cons_succ, List.getElem?_cons_succ] at h
      have hmem := List.mem_of_getElem? h
      cases List.eq_of_mem_replicate hmem

theorem chordsSound (pb : Debounce) (samples : List ℕ) : ChordsSound pb samples := by
  constructor
  case single => exact length_outputs confirmed pb samples
  case held =>
    intro k i h
    obtain ⟨b, hb, hc⟩ := confirmed_of_issues h
    have hlt := (List.getElem?_eq_some_iff.1 hb).1
    obtain ⟨_, hnow, hbefore⟩ := held_of_confirmed hc
    exact ⟨⟨b, hb, hnow⟩, ⟨_, bitmapReg_foldl pb samples hlt.le, hbefore⟩⟩
  case apart =>
    intro k i j h h'
    obtain ⟨b, hb, hc⟩ := confirmed_of_issues h
    obtain ⟨b', _, hc'⟩ := confirmed_of_issues h'
    rw [List.take_add_one, hb, Option.toList_some, List.foldl_append, List.foldl_cons,
      List.foldl_nil, confirmed_next hc] at hc'
    cases hc'
  case settled =>
    intro t c hsame
    have hdrop : samples.drop t = List.replicate (samples.drop t).length c :=
      List.eq_replicate_of_mem hsame
    have hevents := @drop_outputs _ _ _ next confirmed pb samples t
    rw [hdrop] at hevents
    obtain ⟨hone, hfirst⟩ := reduceOption_issues_replicate ((samples.take t).foldl next pb) c
      (samples.drop t).length
    rw [issues, hevents]
    refine ⟨hone, fun k i hk h => ?_⟩
    obtain ⟨j, rfl⟩ := Nat.exists_eq_add_of_le hk
    rw [← List.getElem?_drop, hevents] at h
    have hj := hfirst j i h
    omega

/-- **The debouncing is sound for arbitrary chords**: from every reachable state, whatever
the two registers hold, a sequence of scans does exactly what the events of its samples do,
at most one for each scan, and these are sound. -/
theorem chords_sound (startOk : List Call → Bool) (m : Machine) (h : Reachable startOk m)
    (pb : Debounce) (scans : List PbPins) :
    (run (fun pins => pbStsUpdate (quiet startOk) pins) scans).run { m with pb := pb } =
        .ok () { (issues pb (scans.map pressed)).foldl (afterIssue startOk) m with
          pb := (scans.map pressed).foldl next pb } ∧
      ChordsSound pb (scans.map pressed) := by
  have hm := inRange_of_reachable h
  have hpb : InRange { m with pb := pb } :=
    ⟨hm.conf, hm.wgMode, hm.freqIndex, hm.volumIndex, hm.outEn, hm.rectFreq, hm.timer, hm.calls⟩
  refine ⟨?_, chordsSound pb _⟩
  rw [scans_run hpb, foldl_afterIssue_setPb]

/-- `PB_FREQ_D` and `PB_OUT_EN` held for three samples. -/
def chord : List PbPins := List.replicate 3 ⟨.low, .high, .low, .high, .high⟩

/-- They find the stage set by a sample of `PB_OUT_EN` alone. -/
theorem chords_sound_three :
    (run (fun pins => pbStsUpdate (quiet fun _ => true) pins) chord).run
          { boot with pb := { bitmapReg := 4, stageReg := 1 } } =
        .ok () { (issues { bitmapReg := 4, stageReg := 1 } (chord.map pressed)).foldl
            (afterIssue fun _ => true) boot with
          pb := (chord.map pressed).foldl next { bitmapReg := 4, stageReg := 1 } } ∧
      ChordsSound { bitmapReg := 4, stageReg := 1 } (chord.map pressed) :=
  chords_sound (fun _ => true) boot ⟨[], rfl⟩ { bitmapReg := 4, stageReg := 1 } chord

end Buttons
end AccTx
