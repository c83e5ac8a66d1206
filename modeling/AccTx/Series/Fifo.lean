/-
# Queues in a ring

A queue is kept in `n` slots from a first one on, going round (`window`).  A new last element is
written to the slot behind the last (`window_update`), and without its first element the queue is
the one from the next slot on (`window_succ`).  A ring with one slot always left free is full with
`n - 1` elements, and a queue that drops its oldest element then keeps the last `n - 1` of
(`List.rtake`).
-/

import AccTx.Series.Clock
import AccTx.Series.Ring

namespace AccTx
namespace Series

variable {α : Type*} {n g m : ℕ} {slot : ℕ → α}

/-- The elements of the `m` slots from `g` on. -/
def window (slot : ℕ → α) (n g m : ℕ) : List α := (List.range m).map fun i => slot ((g + i) % n)

@[simp] theorem length_window : (window slot n g m).length = m := by simp [window]

theorem window_zero : window slot n g 0 = [] := rfl

theorem window_succ : window slot n g (m + 1) = slot (g % n) :: window slot n (g + 1) m := by
  rw [window, window, List.range_succ_eq_map, List.map_cons, List.map_map, Nat.add_zero]
  refine congrArg _ (List.map_congr_left fun i _ => ?_)
  show slot ((g + (i + 1)) % n) = _
  rw [Nat.add_right_comm, Nat.add_assoc]

/-- The first slot counts modulo `n`. -/
theorem window_mod : window slot n (g % n) m = window slot n g m := by
  simp [window, Nat.mod_add_mod]

theorem window_congr {slot' : ℕ → α} (h : ∀ i < m, slot' ((g + i) % n) = slot ((g + i) % n)) :
    window slot' n g m = window slot n g m :=
  List.map_congr_left fun i hi => h i (List.mem_range.1 hi)

/-- **A new last element.** -/
theorem window_update (h : m < n) (x : α) :
    window (Function.update slot ((g + m) % n) x) n g (m + 1) = window slot n g m ++ [x] := by
  have hold : window (Function.update slot ((g + m) % n) x) n g m = window slot n g m :=
    window_congr fun i hi => Function.update_of_ne (mod_ne_mod (by omega) (by omega)) _ _
  rw [window, List.range_succ, List.map_append, ← window, hold, List.map_singleton,
    Function.update_self]

/-! ### Dropping the oldest -/

/-- A queue of at most `k` elements takes one more. -/
def arrive (k : ℕ) (q : List α) (x : α) : List α := (q ++ [x]).rtake k

theorem arrive_of_lt {k : ℕ} {q : List α} (h : q.length < k) (x : α) : arrive k q x = q ++ [x] :=
  rtake_of_length_le (by rw [List.length_append, List.length_singleton]; exact h)

theorem arrive_full {k : ℕ} {q : List α} (h : q.length = k) (x : α) :
    arrive k q x = (q ++ [x]).tail := by
  rw [arrive, List.rtake, List.length_append, List.length_singleton, h, Nat.add_sub_cancel_left,
    List.drop_one]

end Series
end AccTx
