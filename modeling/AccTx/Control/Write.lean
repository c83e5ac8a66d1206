/-
# What a register write does

The check loop of `reg_map_write` runs the check functions of the batch one by one
until an element fails its range check.  `passed` is the part of the batch before
that element, and `request` looks a register up in it.  The check functions act on
the outputs, so what a write does to them is the action of the passed elements
(`afterPassed`), whatever the write returns, and `regMapWrite_cases` is
everything a write can do: it accepts the batch and stores it, or it resets the
microcontroller, or it refuses the batch.

Only the registers 0, 1, 2 and 5 act on the outputs, in this order
(`afterPassed_eq`).  Their elements have passed the range checks of their rows, and
these keep the check functions defined (`ChkPtr.ParamOk`, `live_afterElem`).
-/

import AccTx.Effect.Keyed
import AccTx.Firmware.System
import Mathlib.Tactic.IntervalCases

namespace AccTx
namespace Control

open Firmware Effect

/-- The check function of an address, if it has one. -/
def chkAt (a : ℕ) : Option ChkPtr := (confRegMapInst[a]?).bind (·.chkPtr)

/-- The register of an address, if it has one. -/
def regAt (a : ℕ) : Option ConfPtr := (confRegMapInst[a]?).bind (·.regPtr)

/-- The range check of the value `d` at the address `a`. -/
def rowOk (a d : ℕ) : Bool := (confRegMapInst[a]?).any fun row => decide (row.InRange d)

theorem rowOk_iff {a d : ℕ} :
    rowOk a d ↔ ∃ row, confRegMapInst[a]? = some row ∧ row.min ≤ d ∧ d ≤ row.max := by
  rw [rowOk, Option.any_eq_true]
  refine exists_congr fun row => and_congr_right fun _ => ?_
  rw [decide_eq_true_eq, ConfRegMap.InRange]
  omega

theorem lt_of_rowOk {a d : ℕ} (h : rowOk a d) : a < 16 := by
  obtain ⟨row, hrow, _⟩ := rowOk_iff.1 h
  exact (List.getElem?_eq_some_iff.1 hrow).1

/-- The parameters a check function gets once its row has been checked. -/
def ParamOk : ChkPtr → ℕ → Prop
  | .powerEnOpt, d => d ≤ 1
  | .freqOpt, d => d ≤ 4
  | .volumOpt, d => d ≤ 8
  | .rectFreqOpt, d => 100 ≤ d ∧ d ≤ 6000
  | .sysResetOpt, d => d = 9527

theorem paramOk_of_rowOk {a d : ℕ} {c : ChkPtr} (h : rowOk a d) (hc : chkAt a = some c) :
    ParamOk c d := by
  have ha := lt_of_rowOk h
  obtain ⟨row, hrow, hmin, hmax⟩ := rowOk_iff.1 h
  rw [chkAt, hrow, Option.bind_some] at hc
  interval_cases a <;> obtain rfl := Option.some.inj hrow <;> cases hc <;>
    simp only at hmin hmax <;> simp only [ParamOk] <;> omega

theorem chkAt_eq_none {a : ℕ} (h : a ∉ [0, 1, 2, 5, 15]) : chkAt a = none := by
  rcases Nat.lt_or_ge a 16 with ha | ha
  · interval_cases a <;> first | rfl | simp at h
  · rw [chkAt, List.getElem?_eq_none ha]
    rfl

/-- The address of a check function. -/
def chkAddr : ChkPtr → ℕ
  | .powerEnOpt => 0
  | .freqOpt => 1
  | .volumOpt => 2
  | .rectFreqOpt => 5
  | .sysResetOpt => 15

/-- No two addresses have one check function. -/
theorem chkAt_eq_some {a : ℕ} {c : ChkPtr} (h : chkAt a = some c) : a = chkAddr c := by
  by_cases hm : a ∈ [0, 1, 2, 5, 15]
  · simp only [List.mem_cons, List.not_mem_nil, or_false] at hm
    rcases hm with rfl | rfl | rfl | rfl | rfl <;> obtain rfl := Option.some.inj h <;> rfl
  · simp [chkAt_eq_none hm] at h

/-! ### One check function -/

section
variable (startOk : List Call → Bool)

/-- The machine after a check function. -/
def afterChk (c : ChkPtr) (d : ℕ) (m : Machine) : Machine :=
  match c with
  | .powerEnOpt => m.afterPowerEn startOk d
  | .freqOpt => m.afterFreq startOk d
  | .volumOpt => m.afterVolum d
  | .rectFreqOpt => m.afterRectFreq startOk d
  | .sysResetOpt => m

/-- The machine after the check of an element that passes its range check. -/
def afterElem (a d : ℕ) (m : Machine) : Machine :=
  match chkAt a with
  | none => m
  | some c => afterChk startOk c d m

end

variable {startOk : List Call → Bool} {m : Machine}

theorem call_run (h : Live m) {c : ChkPtr} {d : ℕ} (hd : ParamOk c d) (hc : c ≠ .sysResetOpt) :
    (c.call (quiet startOk) d).run m = .ok 1 (afterChk startOk c d m) := by
  cases c with
  | powerEnOpt => exact powerEnOpt_run h d
  | freqOpt => exact freqOpt_run h d
  | volumOpt => exact volumOpt_run h.volum d
  | rectFreqOpt =>
    obtain ⟨h₀, h₁⟩ := hd
    exact rectFreqOpt_run h.wgMode (by omega) (by omega)
  | sysResetOpt => exact absurd rfl hc

/-- The check functions leave the configuration alone. -/
theorem afterElem_conf (a d : ℕ) : (afterElem startOk a d m).conf = m.conf := by
  unfold afterElem
  cases chkAt a with
  | none => rfl
  | some c => cases c <;> rfl

theorem live_afterChk (h : Live m) {c : ChkPtr} {d : ℕ} (hd : ParamOk c d) :
    Live (afterChk startOk c d m) := by
  cases c with
  | powerEnOpt => exact ⟨h.wgMode, h.freq, h.custom, h.volum⟩
  | freqOpt =>
    refine ⟨h.wgMode, freqSelect_rectFreq_fits h.custom d m.stat, h.custom, ?_⟩
    rw [show (afterChk startOk .freqOpt d m).stat.volumIndex = m.stat.volumIndex from ?_]
    · exact h.volum
    · simp only [afterChk, Machine.afterFreq, Machine.afterRectFreq, Machine.startTimer,
        Machine.atDelay, Machine.atSelect, freqSelect_volumIndex]
  | volumOpt => exact ⟨h.wgMode, h.freq, h.custom, Nat.lt_of_le_of_lt hd (by norm_num)⟩
  | rectFreqOpt =>
    obtain ⟨h₀, h₁⟩ := hd
    exact ⟨h.wgMode, ⟨Nat.lt_of_lt_of_le (by norm_num) h₀, Nat.lt_of_le_of_lt h₁ (by norm_num)⟩,
      h.custom, h.volum⟩
  | sysResetOpt => exact h

theorem live_afterElem (h : Live m) {a d : ℕ} (hok : rowOk a d) :
    Live (afterElem startOk a d m) := by
  unfold afterElem
  cases hc : chkAt a with
  | none => exact h
  | some c => exact live_afterChk h (paramOk_of_rowOk hok hc)

/-- The check of an element in range is the call of its check function. -/
theorem chkElem_call {env : Env} {m₁ : Machine} {a d : ℕ} {c : ChkPtr} (hok : rowOk a d)
    (hc : chkAt a = some c) (hr : (c.call env d).run m = .ok 1 m₁) :
    (chkElem env a d).run m = .ok .noErr m₁ := by
  obtain ⟨row, hrow, hmin, hmax⟩ := rowOk_iff.1 hok
  have hin : row.InRange d := by
    rw [ConfRegMap.InRange]
    omega
  have hchk : row.chkPtr = some c := by rwa [chkAt, hrow, Option.bind_some] at hc
  simp [chkElem, hrow, hin, hchk, hr]

theorem chkElem_run (h : Live m) {a d : ℕ} (hok : rowOk a d) (ha : a ≠ 15) :
    (chkElem (quiet startOk) a d).run m = .ok .noErr (afterElem startOk a d m) := by
  unfold afterElem
  cases hc : chkAt a with
  | some c =>
    have hr : c ≠ .sysResetOpt := by
      rintro rfl
      exact ha (chkAt_eq_some hc)
    exact chkElem_call hok hc (call_run h (paramOk_of_rowOk hok hc) hr)
  | none =>
    obtain ⟨row, hrow, hmin, hmax⟩ := rowOk_iff.1 hok
    have hin : row.InRange d := by
      rw [ConfRegMap.InRange]
      omega
    have hchk : row.chkPtr = none := by rwa [chkAt, hrow, Option.bind_some] at hc
    simp [chkElem, hrow, hin, hchk]

theorem chkElem_reset (env : Env) {d : ℕ} (hok : rowOk 15 d) :
    (chkElem env 15 d).run m = .error .reset m := by
  obtain rfl : d = 9527 := paramOk_of_rowOk hok (c := .sysResetOpt) rfl
  rfl

theorem chkElem_refused (env : Env) {a d : ℕ} (ha : a < 16) (hok : ¬rowOk a d) :
    (chkElem env a d).run m = .ok .dataOr m := by
  have hrow : confRegMapInst[a]? = some confRegMapInst[a] := List.getElem?_eq_getElem ha
  have hin : ¬confRegMapInst[a].InRange d := by
    intro hin
    rw [ConfRegMap.InRange] at hin
    exact hok (rowOk_iff.2 ⟨_, hrow, by omega, by omega⟩)
  simp [chkElem, hrow, hin]

/-! ### The batch -/

/-- The elements of a batch up to the first one that fails its range check. -/
def checked : ℕ → List ℕ → List (ℕ × ℕ)
  | _, [] => []
  | a, d :: ds => if rowOk a d then (a, d) :: checked (a + 1) ds else []

/-- The elements of a write whose checks pass: none when the address range is
refused. -/
def passed (regAddr : ℕ) (wrData : List ℕ) : List (ℕ × ℕ) :=
  if regAddr + wrData.length ≤ CONF_REG_MAP_NUM then checked regAddr wrData else []

/-- The value a write brings to a register before it refuses an element, if it
does. -/
def request (regAddr : ℕ) (wrData : List ℕ) (r : ℕ) : Option ℕ :=
  (passed regAddr wrData).lookup r

/-- The write is in range and every element passes its range check. -/
def Accepted (regAddr : ℕ) (wrData : List ℕ) : Prop :=
  regAddr + wrData.length ≤ CONF_REG_MAP_NUM ∧
    ∀ i (h : i < wrData.length), rowOk (regAddr + i) wrData[i]

instance (regAddr : ℕ) (wrData : List ℕ) : Decidable (Accepted regAddr wrData) :=
  inferInstanceAs (Decidable (_ ∧ _))

/-- The batch reaches the reset register with its code. -/
def Resets (regAddr : ℕ) (wrData : List ℕ) : Prop := (request regAddr wrData 15).isSome

instance (regAddr : ℕ) (wrData : List ℕ) : Decidable (Resets regAddr wrData) :=
  inferInstanceAs (Decidable (_ = true))

/-- The check functions of the passed elements, one after another. -/
def afterChecked (startOk : List Call → Bool) (l : List (ℕ × ℕ)) (m : Machine) : Machine :=
  l.foldl (fun m p => afterElem startOk p.1 p.2 m) m

/-- The machine after the check loop of a write. -/
def afterPassed (startOk : List Call → Bool) (regAddr : ℕ) (wrData : List ℕ) (m : Machine) :
    Machine :=
  afterChecked startOk (passed regAddr wrData) m

/-- The configuration after one element is stored. -/
def storeAt (a d : ℕ) (conf : Config) : Config :=
  match regAt a with
  | none => conf
  | some p => p.store d conf

/-- The configuration after the store loop. -/
def storeAll : ℕ → List ℕ → Config → Config
  | _, [], conf => conf
  | a, d :: ds, conf => storeAll (a + 1) ds (storeAt a d conf)

theorem mem_checked {a : ℕ} {ds : List ℕ} {p : ℕ × ℕ} (h : p ∈ checked a ds) :
    a ≤ p.1 ∧ p.1 < a + ds.length ∧ rowOk p.1 p.2 := by
  induction ds generalizing a with
  | nil => simp [checked] at h
  | cons d ds ih =>
    rw [checked] at h
    split at h
    · rename_i hok
      rcases List.mem_cons.1 h with rfl | h
      · exact ⟨le_rfl, by simp, hok⟩
      · obtain ⟨h₁, h₂, h₃⟩ := ih h
        refine ⟨by omega, ?_, h₃⟩
        rw [List.length_cons]
        omega
    · simp at h

theorem checked_pairwise (a : ℕ) (ds : List ℕ) :
    (checked a ds).Pairwise fun p q => p.1 < q.1 := by
  induction ds generalizing a with
  | nil => exact List.Pairwise.nil
  | cons d ds ih =>
    rw [checked]
    split
    · refine List.pairwise_cons.2 ⟨fun q hq => ?_, ih (a + 1)⟩
      have := (mem_checked hq).1
      omega
    · exact List.Pairwise.nil

theorem checked_length_le (a : ℕ) (ds : List ℕ) : (checked a ds).length ≤ ds.length := by
  induction ds generalizing a with
  | nil => exact le_rfl
  | cons d ds ih =>
    rw [checked]
    split
    · exact Nat.succ_le_succ (ih (a + 1))
    · exact Nat.zero_le _

/-- The passed elements are consecutive. -/
theorem lt_of_mem_checked {a : ℕ} {ds : List ℕ} {p : ℕ × ℕ} (h : p ∈ checked a ds) :
    p.1 < a + (checked a ds).length := by
  induction ds generalizing a with
  | nil => simp [checked] at h
  | cons d ds ih =>
    rw [checked] at h ⊢
    split at h
    · rename_i hok
      rw [if_pos hok, List.length_cons]
      rcases List.mem_cons.1 h with rfl | h
      · omega
      · have := ih h
        omega
    · simp at h

/-- Every element of a batch passes its range check: the first one, and the others from the
next address on. -/
theorem forall_rowOk_cons {a d : ℕ} {ds : List ℕ} :
    (∀ i (h : i < (d :: ds).length), rowOk (a + i) (d :: ds)[i]) ↔
      rowOk a d ∧ ∀ i (h : i < ds.length), rowOk (a + 1 + i) ds[i] := by
  constructor
  · intro h
    refine ⟨h 0 (Nat.succ_pos _), fun i hi => ?_⟩
    rw [Nat.add_right_comm]
    exact h (i + 1) (Nat.succ_lt_succ hi)
  · rintro ⟨h₀, hs⟩ i hi
    cases i with
    | zero => exact h₀
    | succ i =>
      have := hs i (Nat.lt_of_succ_lt_succ hi)
      rwa [Nat.add_right_comm] at this

/-- A batch passes as a whole exactly when every element passes its check. -/
theorem checked_length_eq_iff {a : ℕ} {ds : List ℕ} :
    (checked a ds).length = ds.length ↔ ∀ i (h : i < ds.length), rowOk (a + i) ds[i] := by
  induction ds generalizing a with
  | nil => simp [checked]
  | cons d ds ih =>
    rw [checked, forall_rowOk_cons, ← ih]
    split
    · rename_i hok
      rw [List.length_cons, List.length_cons, Nat.add_right_cancel_iff, and_iff_right hok]
    · rename_i hok
      exact iff_of_false (by simp) fun h => hok h.1

/-- **The check loop.** -/
theorem chkLoop_run (h : Live m) {a : ℕ} {ds : List ℕ} (ha : a + ds.length ≤ 16) :
    (chkLoop (quiet startOk) a ds).run m =
      if ((checked a ds).lookup 15).isSome then
        .error .reset (afterChecked startOk (checked a ds) m)
      else
        .ok (if (checked a ds).length = ds.length then .noErr else .dataOr)
          (afterChecked startOk (checked a ds) m) := by
  induction ds generalizing a m with
  | nil => simp [chkLoop, checked, afterChecked]
  | cons d ds ih =>
    rw [List.length_cons] at ha
    by_cases hok : rowOk a d
    · by_cases h15 : a = 15
      · subst h15
        -- the reset register is the last one, so nothing follows it
        obtain rfl : ds = [] := List.eq_nil_of_length_eq_zero (by omega)
        have hc : chkAt 15 = some .sysResetOpt := rfl
        simp [chkLoop, chkElem_reset _ hok, checked, hok, afterChecked, afterElem, hc, afterChk]
      · have hne : (15 == a) = false := by
          rw [beq_eq_false_iff_ne]
          exact fun h => h15 h.symm
        have hd : a + 1 + ds.length ≤ 16 := by omega
        have hcons : checked a (d :: ds) = (a, d) :: checked (a + 1) ds := by
          rw [checked, if_pos hok]
        rw [hcons, List.lookup_cons, hne]
        simp [chkLoop, chkElem_run h hok h15, ih (live_afterElem h hok) hd, afterChecked]
    · have ha : a < 16 := by omega
      simp [chkLoop, chkElem_refused _ ha hok, checked, hok, afterChecked]

/-- **The store loop.** -/
theorem storeLoop_run {a : ℕ} {ds : List ℕ} (ha : a + ds.length ≤ 16) :
    (storeLoop a ds).run m = .ok () { m with conf := storeAll a ds m.conf } := by
  induction ds generalizing a m with
  | nil => rfl
  | cons d ds ih =>
    rw [List.length_cons] at ha
    have hlt : a < confRegMapInst.length := show a < 16 by omega
    have hd : a + 1 + ds.length ≤ 16 := by omega
    obtain ⟨row, hrow⟩ : ∃ row, confRegMapInst[a]? = some row :=
      ⟨_, List.getElem?_eq_getElem hlt⟩
    cases hp : row.regPtr with
    | none =>
      have hreg : regAt a = none := by rw [regAt, hrow, Option.bind_some, hp]
      simp [storeLoop, hrow, hp, ih hd, storeAll, storeAt, hreg]
    | some p =>
      have hreg : regAt a = some p := by rw [regAt, hrow, Option.bind_some, hp]
      simp [storeLoop, hrow, hp, ih hd, storeAll, storeAt, hreg]

/-- **A write of one element** is its check, and the store if the check passes. -/
theorem writeOne_run {env : Env} {m₁ : Machine} {a d : ℕ} {err : RegMapErr} (ha : a < 16)
    (hc : (chkElem env a d).run m = .ok err m₁) :
    (regMapWrite env a [d]).run m =
      .ok err (if err = .noErr then { m₁ with conf := storeAt a d m₁.conf } else m₁) := by
  have hle : ¬CONF_REG_MAP_NUM < a + 1 := by
    rw [CONF_REG_MAP_NUM]
    omega
  have hs := @storeLoop_run m₁ a [d] (by rw [List.length_singleton]; omega)
  by_cases herr : err = .noErr
  · simp [regMapWrite, hle, chkLoop, hc, herr, hs, storeAll]
  · simp [regMapWrite, hle, chkLoop, hc, herr]

theorem accepted_iff_length {regAddr : ℕ} {wrData : List ℕ}
    (h : regAddr + wrData.length ≤ CONF_REG_MAP_NUM) :
    Accepted regAddr wrData ↔ (checked regAddr wrData).length = wrData.length := by
  rw [Accepted, checked_length_eq_iff]
  exact and_iff_right h

/-- A batch that reaches the reset register is accepted as a whole: the register is the
last one. -/
theorem accepted_of_resets {regAddr : ℕ} {wrData : List ℕ} (h : Resets regAddr wrData) :
    Accepted regAddr wrData := by
  obtain ⟨d, hd⟩ := Option.isSome_iff_exists.1 h
  rw [request, List.lookup_eq_some_iff] at hd
  obtain ⟨l₁, l₂, hl, -⟩ := hd
  have hmem : (15, d) ∈ passed regAddr wrData := by
    rw [hl]
    simp
  unfold passed at hmem
  split at hmem
  · rename_i ha
    have h₁ := lt_of_mem_checked hmem
    have h₂ := checked_length_le regAddr wrData
    rw [CONF_REG_MAP_NUM] at ha
    exact (accepted_iff_length ha).2 (by omega)
  · simp at hmem

/-- **Everything a write can do.**  It accepts the batch and stores it; or it
accepts it, the batch ends with the reset code, and the microcontroller is reset;
or it refuses the batch.  In each case the checks that passed have acted. -/
theorem regMapWrite_cases (h : Live m) (regAddr : ℕ) (wrData : List ℕ) :
    (Accepted regAddr wrData ∧ ¬Resets regAddr wrData ∧
      (regMapWrite (quiet startOk) regAddr wrData).run m =
        .ok .noErr { afterPassed startOk regAddr wrData m with
          conf := storeAll regAddr wrData (afterPassed startOk regAddr wrData m).conf }) ∨
    (Resets regAddr wrData ∧
      (regMapWrite (quiet startOk) regAddr wrData).run m =
        .error .reset (afterPassed startOk regAddr wrData m)) ∨
    (¬Accepted regAddr wrData ∧ ¬Resets regAddr wrData ∧ ∃ err, err ≠ .noErr ∧
      (regMapWrite (quiet startOk) regAddr wrData).run m =
        .ok err (afterPassed startOk regAddr wrData m)) := by
  by_cases ha : regAddr + wrData.length ≤ CONF_REG_MAP_NUM
  · have hp : passed regAddr wrData = checked regAddr wrData := if_pos ha
    have hacc := accepted_iff_length ha
    have hng : ¬regAddr + wrData.length > CONF_REG_MAP_NUM := by omega
    have hloop := @chkLoop_run startOk m h _ _ ha
    by_cases hr : ((checked regAddr wrData).lookup 15).isSome
    · refine Or.inr (Or.inl ⟨by rw [Resets, request, hp]; exact hr, ?_⟩)
      simp [regMapWrite, hng, hloop, hr, afterPassed, hp]
    · have hres : ¬Resets regAddr wrData := by rw [Resets, request, hp]; exact hr
      by_cases hl : (checked regAddr wrData).length = wrData.length
      · refine Or.inl ⟨hacc.2 hl, hres, ?_⟩
        simp [regMapWrite, hng, hloop, hr, hl, afterPassed, hp, storeLoop_run ha]
      · refine Or.inr (Or.inr ⟨fun h => hl (hacc.1 h), hres, .dataOr, by simp, ?_⟩)
        simp [regMapWrite, hng, hloop, hr, hl, afterPassed, hp]
  · have hp : passed regAddr wrData = [] := if_neg ha
    refine Or.inr (Or.inr ⟨fun h => ha h.1, ?_, .addrOr, by simp, ?_⟩)
    · simp [Resets, request, hp]
    · simp [regMapWrite, Nat.lt_of_not_le ha, afterPassed, hp, afterChecked]

/-- The check functions leave the configuration alone. -/
theorem afterPassed_conf (regAddr : ℕ) (wrData : List ℕ) (m : Machine) :
    (afterPassed startOk regAddr wrData m).conf = m.conf := by
  unfold afterPassed afterChecked
  induction passed regAddr wrData generalizing m with
  | nil => rfl
  | cons p l ih => rw [List.foldl_cons, ih, afterElem_conf]

/-- A write that is accepted and does not reset the microcontroller. -/
theorem regMapWrite_accepted (h : Live m) {regAddr : ℕ} {wrData : List ℕ}
    (hacc : Accepted regAddr wrData) (hres : ¬Resets regAddr wrData) :
    (regMapWrite (quiet startOk) regAddr wrData).run m =
      .ok .noErr { afterPassed startOk regAddr wrData m with
        conf := storeAll regAddr wrData m.conf } := by
  rcases @regMapWrite_cases startOk m h regAddr wrData with
    ⟨_, _, hrun⟩ | ⟨hr, _⟩ | ⟨ha, _⟩
  · rw [hrun, afterPassed_conf]
  · exact absurd hr hres
  · exact absurd hacc ha

/-! ### The requests of a batch -/

theorem mem_passed {regAddr : ℕ} {wrData : List ℕ} {p : ℕ × ℕ} (h : p ∈ passed regAddr wrData) :
    rowOk p.1 p.2 := by
  unfold passed at h
  split at h
  · exact (mem_checked h).2.2
  · simp at h

/-- A request has passed the range check of its row. -/
theorem rowOk_of_request {regAddr r d : ℕ} {wrData : List ℕ}
    (h : request regAddr wrData r = some d) : rowOk r d := by
  rw [request, List.lookup_eq_some_iff] at h
  obtain ⟨l₁, l₂, hl, -⟩ := h
  exact mem_passed (p := (r, d)) (by rw [hl]; simp)

theorem preset_le {regAddr p : ℕ} {wrData : List ℕ} (h : request regAddr wrData 1 = some p) :
    p ≤ 4 :=
  paramOk_of_rowOk (c := .freqOpt) (rowOk_of_request h) rfl

theorem volum_le {regAddr v : ℕ} {wrData : List ℕ} (h : request regAddr wrData 2 = some v) :
    v ≤ 8 :=
  paramOk_of_rowOk (c := .volumOpt) (rowOk_of_request h) rfl

/-- A write of one element is accepted where the element passes its range check, and then
requests it. -/
theorem accepted_single_iff {a d : ℕ} : Accepted a [d] ↔ rowOk a d := by
  constructor
  · intro h
    exact h.2 0 (by simp)
  · intro hok
    refine ⟨show a + 1 ≤ 16 from lt_of_rowOk hok, fun i hi => ?_⟩
    obtain rfl : i = 0 := by simpa using hi
    exact hok

theorem request_single {a d : ℕ} (hok : rowOk a d) (r : ℕ) :
    request a [d] r = if r = a then some d else none := by
  have hpassed : passed a [d] = [(a, d)] := by
    rw [passed, if_pos (accepted_single_iff.2 hok).1, checked, if_pos hok, checked]
  rw [request, hpassed, List.lookup_cons, List.lookup_nil]
  by_cases hr : r = a
  · rw [beq_iff_eq.2 hr, if_pos hr]
  · rw [beq_eq_false_iff_ne.2 hr, if_neg hr]

/-- Act with a request, if there is one. -/
def act (f : ℕ → Machine → Machine) (q : Option ℕ) (m : Machine) : Machine :=
  match q with
  | none => m
  | some d => f d m

/-- **The outputs see at most four requests of a batch**, those of the registers 0,
1, 2 and 5, in this order. -/
theorem afterPassed_eq (startOk : List Call → Bool) (regAddr : ℕ) (wrData : List ℕ) (m : Machine) :
    afterPassed startOk regAddr wrData m =
      act (fun d m => m.afterRectFreq startOk d) (request regAddr wrData 5)
        (act (fun d m => m.afterVolum d) (request regAddr wrData 2)
          (act (fun d m => m.afterFreq startOk d) (request regAddr wrData 1)
            (act (fun d m => m.afterPowerEn startOk d) (request regAddr wrData 0) m))) := by
  have hp : (passed regAddr wrData).Pairwise fun p q => p.1 < q.1 := by
    unfold passed
    split
    · exact checked_pairwise _ _
    · exact List.Pairwise.nil
  have hid : ∀ p ∈ passed regAddr wrData, p.1 ∉ [0, 1, 2, 5] →
      ∀ m, afterElem startOk p.1 p.2 m = m := by
    intro p _ hp m
    unfold afterElem
    by_cases h15 : p.1 = 15
    · rw [h15]
      rfl
    · rw [chkAt_eq_none (by simpa [h15] using hp)]
  have hks : [0, 1, 2, 5].Pairwise (· < ·) := by decide
  have hact : ∀ k c, chkAt k = some c → ∀ m,
      actAt (afterElem startOk) (passed regAddr wrData) m k =
        act (afterChk startOk c) (request regAddr wrData k) m := by
    intro k c hc m
    unfold actAt act request
    cases (passed regAddr wrData).lookup k with
    | none => rfl
    | some d => simp only [afterElem, hc]
  rw [afterPassed, afterChecked, foldl_eq_foldl_lookup (afterElem startOk) hp hks hid m]
  simp only [List.foldl_cons, List.foldl_nil, hact 0 .powerEnOpt rfl, hact 1 .freqOpt rfl,
    hact 2 .volumOpt rfl, hact 5 .rectFreqOpt rfl]
  rfl

/-- The output state on which the check functions after `power_en_opt` act. -/
def outEnAt (regAddr : ℕ) (wrData : List ℕ) (st : Status) : ℕ :=
  match request regAddr wrData 0 with
  | none => st.outEn
  | some d => if Grants d st then 1 else 0

end Control
end AccTx
