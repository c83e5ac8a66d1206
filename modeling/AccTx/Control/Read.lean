/-
# What a register read returns

`reg_map_read` copies registers in a loop that checks neither the end of the table
nor the pointer it dereferences; the only check, on the start address, is off by one
and does not see the count.  `readLoop_mapped` and `readLoop_fault` say what the loop
does: the values of the registers where all of them are there, a fault otherwise.

So the read is total and exact precisely for the starts its check refuses, and where
the block read ends in the table and meets no hole of it (`readsExactly_iff`).
-/

import AccTx.Firmware.System
import Mathlib.Data.Nat.Bitwise
import Mathlib.Tactic.IntervalCases

namespace AccTx
namespace Control

open Firmware

/-- The register at an index, where the table has one. -/
def regOf (ptrs : List (Option (Machine → ℕ))) (a : ℕ) : Option (Machine → ℕ) := (ptrs[a]?).join

/-- Every register of the block is there. -/
def Mapped (ptrs : List (Option (Machine → ℕ))) (a n : ℕ) : Prop :=
  ∀ i < n, (regOf ptrs (a + i)).isSome

/-- The table bit 15 of the address selects. -/
def bank (regAddr : ℕ) : List (Option (Machine → ℕ)) :=
  if regAddr.testBit 15 then statPtrs else confPtrs

/-- The first register, in the low 15 bits of the address. -/
def start (regAddr : ℕ) : ℕ := regAddr % 2 ^ 15

/-- The entries of the table without a register. -/
def holes (regAddr : ℕ) : List ℕ :=
  if regAddr.testBit 15 then [2, 3] else [3, 4, 12, 13, 14, 15]

/-- The read is total and exact: it returns with the machine as it was, without an
error exactly when the block lies in the table and all of it is mapped, and then with
the current values of the registers. -/
def ReadsExactly (m : Machine) (regAddr readCnt : ℕ) : Prop :=
  ∃ err vs, (regMapRead regAddr readCnt).run m = .ok (err, vs) m ∧
    (err = .noErr ↔
      start regAddr + readCnt ≤ 16 ∧ Mapped (bank regAddr) (start regAddr) readCnt) ∧
    (err = .noErr → vs.length = readCnt ∧
      ∀ i < readCnt, vs[i]? = (regOf (bank regAddr) (start regAddr + i)).map fun ptr => ptr m)

variable {ptrs : List (Option (Machine → ℕ))} {m : Machine}

theorem mapped_succ {a n : ℕ} :
    Mapped ptrs a (n + 1) ↔ (regOf ptrs a).isSome ∧ Mapped ptrs (a + 1) n := by
  constructor
  · intro h
    refine ⟨h 0 (Nat.succ_pos n), fun i hi => ?_⟩
    rw [Nat.add_right_comm]
    exact h (i + 1) (Nat.succ_lt_succ hi)
  · rintro ⟨h₀, hs⟩ i hi
    cases i with
    | zero => exact h₀
    | succ i =>
      have := hs i (Nat.lt_of_succ_lt_succ hi)
      rwa [Nat.add_right_comm] at this

/-- **Where the block is mapped, the loop reads it.** -/
theorem readLoop_mapped {a n : ℕ} (h : Mapped ptrs a n) :
    ∃ vs, (readLoop ptrs a n).run m = .ok vs m ∧ vs.length = n ∧
      ∀ i < n, vs[i]? = (regOf ptrs (a + i)).map fun ptr => ptr m := by
  induction n generalizing a with
  | zero => exact ⟨[], rfl, rfl, fun i hi => absurd hi (Nat.not_lt_zero i)⟩
  | succ n ih =>
    obtain ⟨h₀, hs⟩ := mapped_succ.1 h
    obtain ⟨ptr, hptr⟩ := Option.isSome_iff_exists.1 h₀
    obtain ⟨vs, hrun, hlen, hvs⟩ := ih hs
    have hrow : ptrs[a]? = some (some ptr) := Option.join_eq_some_iff.1 hptr
    refine ⟨ptr m :: vs, ?_, ?_, ?_⟩
    · simp [readLoop, hrow, hrun]
    · rw [List.length_cons, hlen]
    · intro i hi
      cases i with
      | zero => simp [hptr]
      | succ i =>
        rw [List.getElem?_cons_succ, hvs i (Nat.lt_of_succ_lt_succ hi), Nat.add_right_comm,
          Nat.add_assoc]

/-- **Where it is not, the loop runs into an undefined access.** -/
theorem readLoop_fault {a n : ℕ} (h : ¬Mapped ptrs a n) :
    ∃ f, (readLoop ptrs a n).run m = .error (.fault f) m := by
  induction n generalizing a with
  | zero => exact absurd (fun i hi => absurd hi (Nat.not_lt_zero i)) h
  | succ n ih =>
    rw [mapped_succ, not_and] at h
    cases hrow : ptrs[a]? with
    | none => exact ⟨.regIndex, by simp [readLoop, hrow]; rfl⟩
    | some row =>
      cases row with
      | none => exact ⟨.nullPtr, by simp [readLoop, hrow]; rfl⟩
      | some ptr =>
        have h₀ : (regOf ptrs a).isSome := by simp [regOf, hrow]
        obtain ⟨f, hf⟩ := ih (h h₀)
        exact ⟨f, by simp [readLoop, hrow, hf]⟩

/-- The bit test and the mask of `reg_map_read`. -/
theorem regMapRead_eq {regAddr : ℕ} (h : regAddr < 2 ^ 16) (readCnt : ℕ) :
    regMapRead regAddr readCnt =
      if start regAddr > 16 then pure (.addrOr, [])
      else do
        let vs ← readLoop (bank regAddr) (start regAddr) readCnt
        return (.noErr, vs) := by
  have hbit : regAddr &&& 0x8000 = (regAddr.testBit 15).toNat * 2 ^ 15 := Nat.and_two_pow regAddr 15
  have hmask : regAddr &&& 0x7fff = regAddr % 2 ^ 15 := Nat.and_two_pow_sub_one_eq_mod regAddr 15
  unfold regMapRead start bank
  rw [hbit, hmask]
  cases hb : regAddr.testBit 15 with
  | true => rfl
  | false =>
    -- without bit 15 the mask changes nothing
    rw [Nat.testBit_eq_decide_div_mod_eq, decide_eq_false_iff_not] at hb
    have hs : regAddr % 2 ^ 15 = regAddr := Nat.mod_eq_of_lt (by omega)
    rw [hs]
    rfl

/-- The tables have sixteen entries, and the holes are those without a register. -/
theorem regOf_bank_isSome {regAddr a : ℕ} :
    (regOf (bank regAddr) a).isSome ↔ a < 16 ∧ a ∉ holes regAddr := by
  have hconf : ∀ a < 16, (regOf confPtrs a).isSome ↔ a ∉ [3, 4, 12, 13, 14, 15] := by
    intro a ha
    interval_cases a <;> simp [regOf, confPtrs, confRegMapInst]
  have hstat : ∀ a < 16, (regOf statPtrs a).isSome ↔ a ∉ [2, 3] := by
    intro a ha
    interval_cases a <;> simp [regOf, statPtrs, statusRegMapInst]
  rcases Nat.lt_or_ge a 16 with ha | ha
  · unfold bank holes
    split
    · simp only [ha, true_and, hstat a ha]
    · simp only [ha, true_and, hconf a ha]
  · have hlen : (bank regAddr).length ≤ a := by
      unfold bank
      split <;> exact ha
    simp [regOf, List.getElem?_eq_none hlen, Nat.not_lt.2 ha]

theorem mapped_bank_iff {regAddr n : ℕ} (h : start regAddr ≤ 16) :
    Mapped (bank regAddr) (start regAddr) n ↔
      start regAddr + n ≤ 16 ∧ ∀ i < n, start regAddr + i ∉ holes regAddr := by
  unfold Mapped
  simp only [regOf_bank_isSome]
  constructor
  · intro hm
    refine ⟨?_, fun i hi => (hm i hi).2⟩
    by_contra hn
    -- the first index past the table is read too
    have := (hm (16 - start regAddr) (by omega)).1
    omega
  · rintro ⟨hn, hh⟩ i hi
    exact ⟨by omega, hh i hi⟩

/-- **What a read answers**: it refuses the start, it reads the block, or it runs into an
undefined access. -/
theorem regMapRead_cases {regAddr : ℕ} (h : regAddr < 2 ^ 16) (readCnt : ℕ) (m : Machine) :
    (start regAddr > 16 ∧ (regMapRead regAddr readCnt).run m = .ok (.addrOr, []) m) ∨
    (start regAddr ≤ 16 ∧ Mapped (bank regAddr) (start regAddr) readCnt ∧ ∃ vs,
      (regMapRead regAddr readCnt).run m = .ok (.noErr, vs) m ∧ vs.length = readCnt ∧
      ∀ i < readCnt, vs[i]? = (regOf (bank regAddr) (start regAddr + i)).map fun ptr => ptr m) ∨
    (start regAddr ≤ 16 ∧ ¬Mapped (bank regAddr) (start regAddr) readCnt ∧ ∃ f,
      (regMapRead regAddr readCnt).run m = .error (.fault f) m) := by
  rw [regMapRead_eq h]
  by_cases hs : start regAddr > 16
  · exact Or.inl ⟨hs, by simp [hs]⟩
  · have hle := Nat.le_of_not_lt hs
    by_cases hm : Mapped (bank regAddr) (start regAddr) readCnt
    · obtain ⟨vs, hrun, hvs⟩ := @readLoop_mapped _ m _ _ hm
      exact Or.inr (Or.inl ⟨hle, hm, vs, by simp [hs, hrun], hvs⟩)
    · obtain ⟨f, hf⟩ := @readLoop_fault _ m _ _ hm
      exact Or.inr (Or.inr ⟨hle, hm, f, by simp [hs, hf]⟩)

/-- **When a read is total and exact**: for the starts above 16, which the check
refuses, and for the blocks that end in the table and meet none of its holes.  Every
other read is let through and runs off the table or into a hole. -/
theorem readsExactly_iff (m : Machine) (regAddr readCnt : ℕ) (h : regAddr < 2 ^ 16) :
    ReadsExactly m regAddr readCnt ↔
      start regAddr > 16 ∨
        start regAddr + readCnt ≤ 16 ∧ ∀ i < readCnt, start regAddr + i ∉ holes regAddr := by
  unfold ReadsExactly
  rcases regMapRead_cases h readCnt m with
    ⟨hs, hrun⟩ | ⟨hs, hmap, vs, hrun, hvs⟩ | ⟨hs, hmap, f, hrun⟩
  · refine iff_of_true ⟨.addrOr, [], hrun, ?_, by simp⟩ (Or.inl hs)
    refine iff_of_false (by simp) ?_
    rintro ⟨hn, -⟩
    omega
  · have hblock := (mapped_bank_iff hs).1 hmap
    exact iff_of_true ⟨.noErr, vs, hrun, iff_of_true rfl ⟨hblock.1, hmap⟩, fun _ => hvs⟩
      (Or.inr hblock)
  · refine iff_of_false ?_ ?_
    · rintro ⟨err, vs, hok, -⟩
      rw [hrun] at hok
      cases hok
    · rintro (h | h)
      · omega
      · exact hmap ((mapped_bank_iff hs).2 h)

/-- The two version registers of the status table. -/
example : (regMapRead 0x8000 2).run boot = .ok (.noErr, [0x0202, 0x0200]) boot := rfl

/-- The whole configuration up to the first hole reads exactly. -/
theorem readsExactly_iff_boot : ReadsExactly boot 0 3 ↔
    start 0 > 16 ∨ start 0 + 3 ≤ 16 ∧ ∀ i < 3, start 0 + i ∉ holes 0 :=
  readsExactly_iff boot 0 3 (by decide)

/-- Reading the first four configuration registers dereferences the `NULL` of the
fourth one. -/
theorem not_readsExactly_boot :
    Reachable (fun _ => true) boot ∧ ¬ReadsExactly boot 0 4 := by
  refine ⟨⟨[], rfl⟩, ?_⟩
  rintro ⟨err, vs, hrun, -⟩
  have hf : (regMapRead 0 4).run boot = .error (.fault .nullPtr) boot := rfl
  rw [hf] at hrun
  cases hrun

end Control
end AccTx
