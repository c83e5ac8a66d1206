/-
# The debouncer

`pb_sts_update` keeps the previous sample and a one-bit stage.  A sample that differs from
the previous one and shows some button sets the stage; the next sample clears it, and
dispatches the lowest button held in both.  It is an automaton on its two registers
(`Debounce.next`, `issues`), and the machine after a sequence of scans is the one after the
`pb_evt` calls the automaton issues (`scans_run`).

The button dispatched need not be the one that changed.  While a button stays pressed,
another one that changes next to it has it dispatched again, and again with every further
change.  `no_spurious_events` bounds the events of each button by its press edges for the
samples in which that does not happen: after a change that is looked at, which every second one
of several in a row is not, the lowest button held is one that has just been pressed.
-/

import AccTx.Control.Range
import AccTx.Effect.Mealy
import Mathlib.Data.Nat.Bitwise

namespace AccTx
namespace Buttons

open Firmware Effect Control

/-- The bit of a button in the bitmap of `get_pb_sts`. -/
def bit : Pb → ℕ
  | .freqD => 0
  | .freqU => 1
  | .outEn => 2
  | .volD => 3
  | .volU => 4

/-- The registers after a sample. -/
def next (pb : Debounce) (bitmap : ℕ) : Debounce :=
  { bitmapReg := bitmap, stageReg := nextStage pb bitmap }

/-- The registers before the first sample. -/
def initial : Debounce := { bitmapReg := 0, stageReg := 0 }

/-- The events of a sequence of samples: for each sample the button it confirms. -/
def issues : Debounce → List ℕ → List (Option Pb) := outputs next confirmed

/-- The press edges of a button: the samples that show it where the one before does not. -/
def edges (i : Pb) (samples : List ℕ) : ℕ :=
  ((0 :: samples).zip samples).countP fun p => !p.1.testBit (bit i) && p.2.testBit (bit i)

variable {pb : Debounce} {i : Pb} {m : Machine} {startOk : List Call → Bool}

/-! ### The scans of the machine -/

/-- The machine after the event of a sample. -/
def afterIssue (startOk : List Call → Bool) (m : Machine) (issue : Option Pb) : Machine :=
  match issue with
  | none => m
  | some pinId => m.afterPbEvt startOk pinId

/-- `pb_evt` neither reads nor writes the registers. -/
theorem afterIssue_setPb (m : Machine) (r : Debounce) (issue : Option Pb) :
    afterIssue startOk { m with pb := r } issue =
      { afterIssue startOk m issue with pb := r } := by
  cases issue with
  | none => rfl
  | some pinId =>
    by_cases hoff : m.stat.outEn = 0 <;>
      cases pinId <;> simp only [afterIssue, Machine.afterPbEvt, hoff, if_true, if_false] <;> rfl

theorem foldl_afterIssue_setPb (l : List (Option Pb)) (m : Machine) (r : Debounce) :
    l.foldl (afterIssue startOk) { m with pb := r } =
      { l.foldl (afterIssue startOk) m with pb := r } := by
  induction l generalizing m with
  | nil => rfl
  | cons issue l ih => rw [List.foldl_cons, List.foldl_cons, afterIssue_setPb, ih]

/-- **A sequence of scans does what the events it issues do**, and leaves the registers of
its samples. -/
theorem scans_run (hm : InRange m) (es : List PbPins) :
    (run (fun pins => pbStsUpdate (quiet startOk) pins) es).run m =
      .ok () { (issues m.pb (es.map pressed)).foldl (afterIssue startOk) m with
        pb := (es.map pressed).foldl next m.pb } := by
  induction es generalizing m with
  | nil => rfl
  | cons pins es ih =>
    have hrun := @pbStsUpdate_run startOk m hm.live pins
    have hm' : InRange (afterScan startOk pins m) :=
      @inRange_step startOk (.scan pins) m _ hm hrun
    have hscan : afterScan startOk pins m =
        { afterIssue startOk m (confirmed m.pb (pressed pins)) with
          pb := next m.pb (pressed pins) } := by
      unfold afterScan afterIssue
      cases confirmed m.pb (pressed pins) <;> rfl
    refine run_cons_ok.2 ⟨_, hrun, ?_⟩
    rw [ih hm', hscan, foldl_afterIssue_setPb]
    rfl

/-! ### The button dispatched -/

theorem resolvePinId_bit (i : Pb) : resolvePinId (bit i) = some i := by cases i <;> rfl

theorem bit_lt (i : Pb) : bit i < 5 := by cases i <;> decide

theorem exists_bit : ∀ {k : ℕ}, k < 5 → ∃ i, k = bit i
  | 0, _ => ⟨.freqD, rfl⟩
  | 1, _ => ⟨.freqU, rfl⟩
  | 2, _ => ⟨.outEn, rfl⟩
  | 3, _ => ⟨.volD, rfl⟩
  | 4, _ => ⟨.volU, rfl⟩

theorem resolvePinId_eq_some_iff {k : ℕ} : resolvePinId k = some i ↔ k = bit i := by
  refine ⟨fun h => ?_, fun h => h ▸ resolvePinId_bit i⟩
  match k, h with
  | 0, h | 1, h | 2, h | 3, h | 4, h =>
    obtain rfl := Option.some.inj h
    rfl

/-- The lowest key is the lowest of the bits. -/
theorem lowestKey_eq_some_iff {x : ℕ} :
    lowestKey x = some i ↔ x.testBit (bit i) ∧ ∀ l < bit i, x.testBit l = false := by
  have hbits : ∀ l, decide ((x >>> l) &&& 0x01 ≠ 0) = x.testBit l := fun l => by
    rw [Nat.and_comm, Nat.testBit, Bool.eq_iff_iff, decide_eq_true_eq, bne_iff_ne]
  simp only [lowestKey, Option.bind_eq_some_iff, resolvePinId_eq_some_iff, exists_eq_right, hbits,
    List.find?_range_eq_some, bit_lt, true_and, List.mem_range, Bool.not_eq_true']

/-- An event is one of a button held in this sample and the one before. -/
theorem held_of_confirmed {bitmap : ℕ} (h : confirmed pb bitmap = some i) :
    pb.stageReg ≠ 0 ∧ bitmap.testBit (bit i) ∧ pb.bitmapReg.testBit (bit i) := by
  unfold confirmed at h
  split at h
  · cases h
  · rename_i hstage
    have hboth := (lowestKey_eq_some_iff.1 h).1
    rw [Nat.testBit_and, Bool.and_eq_true] at hboth
    exact ⟨hstage, hboth⟩

/-! ### The presses -/

/-- One more sample.  The samples so far stand in a list, the latest first; before the first
one no button is pressed. -/
def addSample (past : List ℕ) (bitmap : ℕ) : List ℕ := bitmap :: past

/-- The last sample is a change that is looked at: it shows a button and differs from the
sample before, and that one was no such change. -/
def Changed : List ℕ → Prop
  | [] => False
  | bitmap :: past => bitmap ≠ past.headD 0 ∧ bitmap ≠ 0 ∧ ¬Changed past

instance decidableChanged : ∀ past, Decidable (Changed past)
  | [] => inferInstanceAs (Decidable False)
  | _ :: past => @instDecidableAnd _ _ _ (@instDecidableAnd _ _ _
      (@instDecidableNot _ (decidableChanged past)))

/-- After a change that is looked at, the lowest button held in it and in the next sample was
released before it: it has just been pressed. -/
def PressedAnew (past : List ℕ) (bitmap : ℕ) : Prop :=
  Changed past → ∀ k < 5, bitmap.testBit k → (past.headD 0).testBit k →
    (∀ l < k, ¬(bitmap.testBit l ∧ (past.headD 0).testBit l)) →
      (past.tail.headD 0).testBit k = false

instance (past : List ℕ) (bitmap : ℕ) : Decidable (PressedAnew past bitmap) :=
  inferInstanceAs (Decidable (_ → _))

/-- The registers after the samples. -/
def regsAfter (past : List ℕ) : Debounce where
  bitmapReg := past.headD 0
  stageReg := if Changed past then 1 else 0

theorem regsAfter_addSample (past : List ℕ) (bitmap : ℕ) :
    regsAfter (addSample past bitmap) = next (regsAfter past) bitmap := by
  have hstage : nextStage (regsAfter past) bitmap =
      if Changed (bitmap :: past) then 1 else 0 := by
    by_cases hpast : Changed past <;>
      simp [nextStage, regsAfter, Changed, hpast, Nat.xor_ne_zero_iff, -ne_eq]
  rw [next, hstage]
  rfl

/-- What a press edge is worth: one event, at the sample after it. -/
def credit (i : Pb) (past : List ℕ) : ℕ :=
  if !(past.tail.headD 0).testBit (bit i) && (past.headD 0).testBit (bit i) then 1 else 0

/-- A sample that presses a button. -/
def pressEdge (i : Pb) (pb : Debounce) (bitmap : ℕ) : ℕ :=
  if !pb.bitmapReg.testBit (bit i) && bitmap.testBit (bit i) then 1 else 0

/-- **The condition says that the button dispatched has just been pressed.** -/
theorem pressedAnew_iff {past : List ℕ} {bitmap : ℕ} : PressedAnew past bitmap ↔
    ∀ i, confirmed (regsAfter past) bitmap = some i →
      (past.tail.headD 0).testBit (bit i) = false := by
  have hconfirmed : ∀ i, confirmed (regsAfter past) bitmap = some i ↔ Changed past ∧
      (bitmap.testBit (bit i) ∧ (past.headD 0).testBit (bit i)) ∧
        ∀ l < bit i, ¬(bitmap.testBit l ∧ (past.headD 0).testBit l) := by
    intro i
    by_cases hchanged : Changed past <;>
      simp [confirmed, regsAfter, hchanged, lowestKey_eq_some_iff]
  constructor
  · intro h i hi
    obtain ⟨hchanged, hheld, hlower⟩ := (hconfirmed i).1 hi
    exact h hchanged (bit i) (bit_lt i) hheld.1 hheld.2 hlower
  · intro h hchanged k hk hnow hlast hlower
    obtain ⟨i, rfl⟩ := exists_bit hk
    exact h i ((hconfirmed i).2 ⟨hchanged, ⟨hnow, hlast⟩, hlower⟩)

/-- **One sample** is paid by the press edge right before it. -/
theorem confirmed_le (i : Pb) (past : List ℕ) (bitmap : ℕ) (h : PressedAnew past bitmap) :
    (if confirmed (regsAfter past) bitmap == some i then 1 else 0) +
        credit i (addSample past bitmap) ≤
      pressEdge i (regsAfter past) bitmap + credit i past := by
  -- the press edge of this sample is the credit it leaves
  have hcredit : credit i (addSample past bitmap) = pressEdge i (regsAfter past) bitmap := rfl
  by_cases hc : confirmed (regsAfter past) bitmap = some i
  · have hreleased := pressedAnew_iff.1 h i hc
    have hbefore : (past.headD 0).testBit (bit i) := (held_of_confirmed hc).2.2
    have hone : credit i past = 1 := if_pos (by rw [hreleased, hbefore]; rfl)
    rw [hcredit, if_pos (beq_iff_eq.2 hc), hone, Nat.add_comm]
  · rw [hcredit, if_neg fun heq => hc (beq_iff_eq.1 heq)]
    omega

/-- The press edges are the outputs of an automaton too. -/
theorem sum_pressEdge (i : Pb) (pb : Debounce) (samples : List ℕ) :
    (outputs next (pressEdge i) pb samples).sum =
      ((pb.bitmapReg :: samples).zip samples).countP fun p =>
        !p.1.testBit (bit i) && p.2.testBit (bit i) := by
  induction samples generalizing pb with
  | nil => rfl
  | cons bitmap samples ih =>
    rw [outputs, List.sum_cons, ih, List.zip_cons_cons, List.countP_cons, Nat.add_comm]
    rfl

/-- The events depend on the samples so far. -/
theorem count_issues (i : Pb) (samples : List ℕ) :
    (issues initial samples).count (some i) = (outputs addSample
      (fun past bitmap => if confirmed (regsAfter past) bitmap == some i then 1 else 0) []
      samples).sum := by
  rw [issues, count_outputs, @outputs_simulates _ _ _ _ addSample next regsAfter
    regsAfter_addSample (fun pb bitmap => if confirmed pb bitmap == some i then 1 else 0) []]
  rfl

/-- **No spurious button events**, for the sequences of samples in which, after each change
that is looked at, the lowest button held has just been pressed: after each prefix of them no
button has had more events than press edges. -/
theorem no_spurious_events (samples : List ℕ) (h : Always addSample PressedAnew [] samples)
    (pre : List ℕ) (hpre : pre <+: samples) (i : Pb) :
    (issues initial pre).count (some i) ≤ edges i pre := by
  obtain ⟨post, rfl⟩ := hpre
  have hpre := (always_append.1 h).1
  have hle := sum_outputs_le (confirmed_le i) hpre
  have hgain := @outputs_simulates _ _ _ _ addSample next regsAfter regsAfter_addSample
    (pressEdge i) [] pre
  have hcredit : credit i [] = 0 := by simp [credit]
  rw [hgain, sum_pressEdge, ← count_issues, hcredit] at hle
  exact hle

/-- A press, a release, and two buttons pressed together. -/
theorem no_spurious_events_three :
    (issues initial [1, 1, 0, 6, 6]).count (some .freqU) ≤ edges .freqU [1, 1, 0, 6, 6] :=
  no_spurious_events [1, 1, 0, 6, 6] (by decide) _ (List.prefix_refl _) .freqU

/-- `PB_FREQ_D` held while `PB_FREQ_U` is pressed: one press edge, two events. -/
theorem event_without_press :
    (issues initial [1, 1, 3, 3]).count (some .freqD) = 2 ∧ edges .freqD [1, 1, 3, 3] = 1 := by
  decide

end Buttons
end AccTx
