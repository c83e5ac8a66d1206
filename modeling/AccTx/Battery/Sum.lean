/-
# The running sum

`accum_sum` is not summed up from `mav_buffer`, it is kept as the samples come and go: the
sample in the slot to be taken leaves it, and the new one enters.  While the window fills
nothing leaves, since no slot from `mav_cnt` on has been taken yet.

So whatever window sizes successive calls get, `accum_sum` is the sum of all 64 slots, also
where a smaller size has left some of them behind (`running_sum_exact`).  It is a sum of at
most 64 samples of 16 bits, and no step of its arithmetic leaves the 32 bits.
-/

import AccTx.Battery.Average

namespace AccTx
namespace Battery

open Firmware Series

/-- The window after successive calls, each with its window size and its sample. -/
def afterCalls (mav : ℕ → ℕ → BatSt → Except (Fault × BatSt) (ℕ × BatSt)) :
    List (ℕ × ℕ) → BatSt → Except (Fault × BatSt) BatSt
  | [], b => .ok b
  | (mavCntSet, cur) :: cs, b => do
    let (_, b') ← mav cur mavCntSet b
    afterCalls mav cs b'

/-- In a call that takes the slot `j` the subtraction does not underflow, nor do the
additions overflow. -/
def NoWrap (cur : ℕ) (b : BatSt) (j : Fin 64) : Prop :=
  if b.bufferFf = 0 then b.accumSum + cur < 2 ^ 32
  else b.mavBuffer j ≤ b.accumSum ∧ b.accumSum - b.mavBuffer j + cur < 2 ^ 32

/-- The invariant of the window. -/
structure SumExact (b : BatSt) : Prop where
  sum : b.accumSum = ∑ i, b.mavBuffer i
  fits : b.mavCnt < MAV_MAX_CNT
  clear : b.bufferFf = 0 → ∀ i : Fin 64, b.mavCnt ≤ i.val → b.mavBuffer i = 0
  sample : ∀ i, b.mavBuffer i < 2 ^ 16

variable {n x : ℕ} {b : BatSt} {j : Fin 64}

theorem sumExact_zeroed : SumExact zeroed := by
  refine ⟨?_, by decide, fun _ _ _ => rfl, fun _ => Nat.two_pow_pos 16⟩
  exact (Finset.sum_eq_zero fun i _ => rfl).symm

/-- The sum of the slots fits by far. -/
theorem SumExact.noWrap (h : SumExact b) (hx : x < 2 ^ 16) (j : Fin 64) : NoWrap x b j := by
  have hle : ∀ i, b.mavBuffer i ≤ 2 ^ 16 - 1 := fun i => Nat.le_sub_one_of_lt (h.sample i)
  have hsum : ∑ i, b.mavBuffer i ≤ 64 * (2 ^ 16 - 1) :=
    sum_filled_le le_rfl (fun i hi => absurd i.isLt (Nat.not_lt.2 hi)) fun i _ => hle i
  have hone : b.mavBuffer j ≤ ∑ i, b.mavBuffer i :=
    Finset.single_le_sum (fun i _ => Nat.zero_le _) (Finset.mem_univ j)
  have heq := h.sum
  unfold NoWrap
  split
  · omega
  · omega

/-- **What a call makes of the sum**, with the sample that leaves its slot. -/
theorem SumExact.sumAfter_add (h : SumExact b) (hx : x < 2 ^ 16) (hj : j.val = b.mavCnt) :
    sumAfter x b j + b.mavBuffer j = b.accumSum + x := by
  have hwrap := h.noWrap hx j
  have hold := h.sample j
  unfold NoWrap at hwrap
  unfold sumAfter
  split
  · rename_i hff
    rw [if_pos hff] at hwrap
    rw [h.clear hff j hj.ge, Nat.mod_eq_of_lt hwrap, Nat.add_zero]
  · rename_i hff
    rw [if_neg hff] at hwrap
    omega

/-- **A call keeps the invariant.** -/
theorem SumExact.call (h : SumExact b) (hn : 1 ≤ n) (hmax : n ≤ 64) (hx : x < 2 ^ 16) :
    SumExact (windowAfter x n b) := by
  obtain ⟨j, hj⟩ : ∃ j : Fin 64, j.val = b.mavCnt := ⟨⟨b.mavCnt, h.fits⟩, rfl⟩
  have hcnt := @windowAfter_mavCnt x n b h.fits
  rw [nextCnt] at hcnt
  constructor
  case sum =>
    have hsum := h.sum
    have hadd := h.sumAfter_add hx hj
    have hupd := sum_update b.mavBuffer j x
    rw [windowAfter_accumSum hj, windowAfter_mavBuffer hj]
    omega
  case fits =>
    have hfits := h.fits
    rw [hcnt]
    unfold MAV_MAX_CNT at *
    split <;> omega
  case clear =>
    intro hff i hi
    obtain ⟨hff, hlt⟩ := (windowAfter_bufferFf h.fits).1 hff
    rw [hcnt, if_neg (Nat.not_le.2 hlt)] at hi
    -- the window still fills, so the slot taken is below `mav_cnt` now
    have hne : i ≠ j := by
      rintro rfl
      omega
    rw [windowAfter_mavBuffer hj, Function.update_of_ne hne]
    exact h.clear hff i (by omega)
  case sample =>
    intro i
    rw [windowAfter_mavBuffer hj]
    rcases eq_or_ne i j with rfl | hne
    · rwa [Function.update_self]
    · rw [Function.update_of_ne hne]
      exact h.sample i

/-- The two functions leave the same window. -/
theorem afterCalls_batMavCalc (cs : List (ℕ × ℕ)) (b : BatSt) :
    afterCalls batMavCalc cs b = afterCalls tempMavCalc cs b := by
  induction cs generalizing b with
  | nil => rfl
  | cons c cs ih =>
    obtain ⟨n, x⟩ := c
    simp only [afterCalls, batMavCalc, tempMavCalc]
    cases mavCalc x n b with
    | error f => rfl
    | ok p => exact ih p.2

theorem sumExact_afterCalls (h : SumExact b) {cs : List (ℕ × ℕ)}
    (hcs : ∀ c ∈ cs, 1 ≤ c.1 ∧ c.1 ≤ 64 ∧ c.2 < 2 ^ 16) :
    ∃ b', afterCalls tempMavCalc cs b = .ok b' ∧ SumExact b' := by
  induction cs generalizing b with
  | nil => exact ⟨b, rfl, h⟩
  | cons c cs ih =>
    obtain ⟨hn, hmax, hx⟩ := hcs c (List.mem_cons_self ..)
    have hcall := @mavCalc_windowAfter c.2 c.1 b h.fits (divisor_ne_zero hn)
    obtain ⟨b', hrest, h'⟩ := ih (h.call hn hmax hx) fun d hd => hcs d (List.mem_cons_of_mem _ hd)
    refine ⟨b', ?_, h'⟩
    simp only [afterCalls, tempMavCalc, hcall]
    exact hrest

/-- **The running sum is exact under any resizing**: after any calls of `bat_mav_calc`, or of
`temp_mav_calc`, from the zeroed window on, with window sizes from 1 to 64 and 16-bit
samples, `accum_sum` is the sum of all slots, `mav_cnt` is a slot, the slots from it on are
zero while the window fills, and the next call does not wrap the sum. -/
theorem running_sum_exact (cs : List (ℕ × ℕ))
    (hcs : ∀ c ∈ cs, 1 ≤ c.1 ∧ c.1 ≤ 64 ∧ c.2 < 2 ^ 16)
    (mav : ℕ → ℕ → BatSt → Except (Fault × BatSt) (ℕ × BatSt))
    (hmav : mav = batMavCalc ∨ mav = tempMavCalc) :
    ∃ b, afterCalls mav cs zeroed = .ok b ∧ b.accumSum = ∑ i, b.mavBuffer i ∧
      b.mavCnt < MAV_MAX_CNT ∧
      (b.bufferFf = 0 → ∀ i : Fin 64, b.mavCnt ≤ i.val → b.mavBuffer i = 0) ∧
      ∀ cur < 2 ^ 16, ∀ j : Fin 64, j.val = b.mavCnt → NoWrap cur b j := by
  obtain ⟨b, hrun, h⟩ := sumExact_afterCalls sumExact_zeroed hcs
  refine ⟨b, ?_, h.sum, h.fits, h.clear, fun cur hcur j _ => h.noWrap hcur j⟩
  rcases hmav with rfl | rfl
  · rw [afterCalls_batMavCalc, hrun]
  · exact hrun

/-- A window that shrinks while it fills and grows again once it is full. -/
theorem running_sum_exact_three :
    ∃ b, afterCalls batMavCalc [(4, 9), (4, 7), (1, 5), (3, 8)] zeroed = .ok b ∧
      b.accumSum = ∑ i, b.mavBuffer i ∧ b.mavCnt < MAV_MAX_CNT ∧
      (b.bufferFf = 0 → ∀ i : Fin 64, b.mavCnt ≤ i.val → b.mavBuffer i = 0) ∧
      ∀ cur < 2 ^ 16, ∀ j : Fin 64, j.val = b.mavCnt → NoWrap cur b j :=
  running_sum_exact [(4, 9), (4, 7), (1, 5), (3, 8)] (by decide) batMavCalc (Or.inl rfl)

end Battery
end AccTx
