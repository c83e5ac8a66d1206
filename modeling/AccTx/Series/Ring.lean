/-
# Rings that keep the last elements of a sequence

A ring takes the elements of a sequence one after another, each into the slot of its index
modulo the size `n`, so the element it overwrites is the one taken `n` steps before.
`Holds` says which elements the slots are: the last `n` of the sequence.  Taking an element
keeps it (`Holds.push`), and the slot to be overwritten is the oldest of them
(`Holds.oldest`).

The last `n` elements of a list are `List.rtake`.  Their sum changes by the element that
enters and the one that leaves (`sum_rtake_concat`), and it is bounded by their number
(`sum_rtake_le`).

The sum of all slots changes in the same way, whichever slot is taken (`sum_update`).  Where
only the first `k` slots have been taken and the others are zero, it lies between `k` times
the bounds of their elements (`sum_filled_le`, `le_sum_filled`).
-/

import Mathlib.Algebra.BigOperators.Group.Finset.Piecewise
import Mathlib.Algebra.BigOperators.Group.List.Basic
import Mathlib.Algebra.GroupWithZero.Nat
import Mathlib.Algebra.Order.BigOperators.Group.Finset
import Mathlib.Algebra.Order.BigOperators.Group.List
import Mathlib.Algebra.Order.Group.Nat
import Mathlib.Data.Fintype.Fin
import Mathlib.Data.List.DropRight
import Mathlib.Logic.Function.Basic
import Mathlib.Tactic.Common

namespace AccTx
namespace Series

variable {α : Type*} {N n : ℕ} {slot : Fin N → α} {vs : List α}

/-- Each slot has the last element whose index is the slot modulo `n`. -/
def Holds (slot : Fin N → α) (n : ℕ) (vs : List α) : Prop :=
  ∀ i (h : i < vs.length) (j : Fin N), j.val = i % n → vs.length ≤ i + n → slot j = vs[i]

theorem holds_nil (slot : Fin N → α) (n : ℕ) : Holds slot n [] := by
  intro i h
  exact absurd h (Nat.not_lt_zero i)

/-- Indices less than a turn apart have different slots. -/
theorem mod_ne_mod {i k : ℕ} (h₁ : i < k) (h₂ : k < i + n) : i % n ≠ k % n := by
  intro heq
  have hdvd : n ∣ k - i := Nat.dvd_of_mod_eq_zero (Nat.sub_mod_eq_zero_of_mod_eq heq.symm)
  have hle := Nat.le_of_dvd (by omega) hdvd
  omega

/-- The slot of the next index: the next slot, or the first one after the last. -/
theorem succ_mod (hn : 0 < n) (k : ℕ) :
    (k + 1) % n = if k % n + 1 ≥ n then 0 else k % n + 1 := by
  have hlt := Nat.mod_lt k hn
  have hadd : (k + 1) % n = (k % n + 1) % n := (Nat.mod_add_mod k n 1).symm
  rw [hadd]
  split
  · have heq : k % n + 1 = n := by omega
    rw [heq, Nat.mod_self]
  · exact Nat.mod_eq_of_lt (by omega)

/-- **Taking an element.** -/
theorem Holds.push (h : Holds slot n vs) {j : Fin N} (hj : j.val = vs.length % n) (x : α) :
    Holds (Function.update slot j x) n (vs ++ [x]) := by
  intro i hi j' hj' hlast
  rw [List.length_append, List.length_singleton] at hi hlast
  rcases Nat.lt_or_ge i vs.length with hlt | hge
  · have hne : j' ≠ j := by
      rintro rfl
      exact mod_ne_mod hlt (by omega) (hj'.symm.trans hj)
    rw [Function.update_of_ne hne, List.getElem_append_left hlt]
    exact h i hlt j' hj' (by omega)
  · obtain rfl : i = vs.length := by omega
    obtain rfl : j' = j := Fin.ext (hj'.trans hj.symm)
    rw [Function.update_self, List.getElem_concat_length rfl]

/-- The slot the next element goes to holds the oldest one, once the ring is full. -/
theorem Holds.oldest (h : Holds slot n vs) (hn : 0 < n) (hfull : n ≤ vs.length) {j : Fin N}
    (hj : j.val = vs.length % n) : slot j = vs[vs.length - n] := by
  have hmod : vs.length % n = (vs.length - n) % n := Nat.mod_eq_sub_mod hfull
  exact h (vs.length - n) (by omega) j (hj.trans hmod) (by omega)

/-! ### The last elements -/

/-- A sequence that has not filled the ring yet is all there. -/
theorem rtake_of_length_le (h : vs.length ≤ n) : vs.rtake n = vs := by
  rw [List.rtake, Nat.sub_eq_zero_of_le h, List.drop_zero]

/-- **The sum of the last elements**, as one enters and one leaves. -/
theorem sum_rtake_concat [AddCommMonoid α] (hn : 0 < n) (hfull : n ≤ vs.length) (x : α) :
    vs[vs.length - n] + ((vs ++ [x]).rtake n).sum = (vs.rtake n).sum + x := by
  have hlt : vs.length - n < vs.length := by omega
  have hdrop : vs.length + 1 - n = vs.length - n + 1 := by omega
  have hnew : (vs ++ [x]).rtake n = vs.drop (vs.length - n + 1) ++ [x] := by
    rw [List.rtake, List.length_append, List.length_singleton, hdrop,
      List.drop_append_of_le_length (by omega)]
  have hold : vs.rtake n = vs[vs.length - n] :: vs.drop (vs.length - n + 1) := by
    rw [List.rtake, List.drop_eq_getElem_cons hlt]
  rw [hnew, hold, List.sum_append, List.sum_singleton, List.sum_cons, add_assoc]

/-- The sum of at most `n` bounded elements. -/
theorem sum_rtake_le {vs : List ℕ} {b : ℕ} (h : ∀ v ∈ vs, v ≤ b) (n : ℕ) :
    (vs.rtake n).sum ≤ min vs.length n * b := by
  have hlen : (vs.rtake n).length = min vs.length n := by
    rw [List.rtake, List.length_drop]
    omega
  have hmem : ∀ v ∈ vs.rtake n, v ≤ b := fun v hv => h v (List.mem_of_mem_drop hv)
  rw [← hlen]
  exact List.sum_le_card_nsmul _ b hmem

/-! ### All slots -/

/-- **The sum of the slots**, as one is overwritten. -/
theorem sum_update [AddCommMonoid α] (slot : Fin N → α) (j : Fin N) (x : α) :
    ∑ i, Function.update slot j x i + slot j = ∑ i, slot i + x := by
  have hnew := Finset.sum_update_of_mem (Finset.mem_univ j) slot x
  have hold := Finset.add_sum_erase Finset.univ slot (Finset.mem_univ j)
  rw [hnew, ← hold, Finset.sdiff_singleton_eq_erase, add_comm (slot j), add_comm x, add_right_comm]

section
variable {slot : Fin N → ℕ} {k b : ℕ}

/-- Slots that are zero do not count. -/
theorem sum_filled_eq (hzero : ∀ i : Fin N, k ≤ i.val → slot i = 0) :
    ∑ i, slot i = ∑ i : Fin N with i.val < k, slot i := by
  refine (Finset.sum_filter_of_ne fun i _ hi => ?_).symm
  by_contra hk
  exact hi (hzero i (Nat.le_of_not_lt hk))

theorem card_filled (hk : k ≤ N) : (Finset.univ.filter fun i : Fin N => i.val < k).card = k := by
  rw [Fin.card_filter_val_lt, Nat.min_eq_right hk]

theorem sum_filled_le (hk : k ≤ N) (hzero : ∀ i : Fin N, k ≤ i.val → slot i = 0)
    (h : ∀ i : Fin N, i.val < k → slot i ≤ b) : ∑ i, slot i ≤ k * b := by
  rw [sum_filled_eq hzero]
  have hle := Finset.sum_le_card_nsmul (Finset.univ.filter fun i : Fin N => i.val < k) slot b
    fun i hi => h i (Finset.mem_filter.1 hi).2
  rwa [card_filled hk] at hle

theorem le_sum_filled (hk : k ≤ N) (hzero : ∀ i : Fin N, k ≤ i.val → slot i = 0)
    (h : ∀ i : Fin N, i.val < k → b ≤ slot i) : k * b ≤ ∑ i, slot i := by
  rw [sum_filled_eq hzero]
  have hle := Finset.card_nsmul_le_sum (Finset.univ.filter fun i : Fin N => i.val < k) slot b
    fun i hi => h i (Finset.mem_filter.1 hi).2
  rwa [card_filled hk] at hle

end

end Series
end AccTx
