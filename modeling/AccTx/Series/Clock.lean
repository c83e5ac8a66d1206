/-
# Clocks that wrap

A clock of `N` ticks starts again from zero after the last one, so a time on it is the true time
modulo `N`, and two of them can be compared by the ticks from one to the other only (`elapsed`).
Where the true times are close the comparison of these with a half of the clock is that of the
true times (`elapsed_lt_iff`, `elapsed_eq_zero_iff`).

An agenda is a list ordered by deadlines, with a new entry put behind those of the same deadline.
`pairwise_orderedInsert` says that it stays ordered, and `orderedInsert_congr` that only the
comparisons matter.
-/

import Mathlib.Data.List.Sort
import Mathlib.Data.Nat.Notation
import Mathlib.Tactic.Common

namespace AccTx
namespace Series

variable {N H a b : ℕ}

/-! ### Comparison -/

/-- The ticks from `b` to `a` on a clock of `N` ticks. -/
def elapsed (N a b : ℕ) : ℕ := (a + N - b) % N

theorem elapsed_eq (ha : a < N) (hb : b < N) :
    elapsed N a b = if b ≤ a then a - b else a + N - b := by
  unfold elapsed
  split
  · have hsum : a + N - b = a - b + N := by omega
    rw [hsum, Nat.add_mod_right, Nat.mod_eq_of_lt (by omega)]
  · exact Nat.mod_eq_of_lt (by omega)

theorem elapsed_of_le (hle : b ≤ a) (hlt : a < b + N) : elapsed N (a % N) (b % N) = a - b := by
  obtain ⟨d, rfl⟩ := Nat.exists_eq_add_of_le hle
  have hd : d < N := by omega
  have hb : b % N < N := Nat.mod_lt b (by omega)
  have hmod : (b + d) % N = (b % N + d) % N := (Nat.mod_add_mod b N d).symm
  rw [elapsed, hmod, Nat.add_sub_cancel_left]
  rcases Nat.lt_or_ge (b % N + d) N with hlt | hge
  · have hsum : b % N + d + N - b % N = d + N := by omega
    rw [Nat.mod_eq_of_lt hlt, hsum, Nat.add_mod_right, Nat.mod_eq_of_lt hd]
  · have hwrap : (b % N + d) % N = b % N + d - N := by
      rw [Nat.mod_eq_sub_mod hge, Nat.mod_eq_of_lt (by omega)]
    have hsum : b % N + d - N + N - b % N = d := by omega
    rw [hwrap, hsum, Nat.mod_eq_of_lt hd]

theorem elapsed_of_lt (hlt : a < b) (hle : b ≤ a + N) :
    elapsed N (a % N) (b % N) = a + N - b := by
  have hturn : a % N = (a + N) % N := (Nat.add_mod_right a N).symm
  rw [hturn]
  exact elapsed_of_le hle (by omega)

/-- **Comparison on a clock that wraps.**  Of two times less than `H` ahead of and no more than
`N - H` behind each other, the ticks elapsed tell which is the later one. -/
theorem elapsed_lt_iff (hH : H ≤ N) (h₁ : a < b + H) (h₂ : b + H ≤ a + N) :
    elapsed N (a % N) (b % N) < H ↔ b ≤ a := by
  rcases Nat.lt_or_ge a b with hlt | hge
  · rw [elapsed_of_lt hlt (by omega)]
    omega
  · rw [elapsed_of_le hge (by omega)]
    omega

theorem elapsed_eq_zero_iff (h₁ : a < b + N) (h₂ : b < a + N) :
    elapsed N (a % N) (b % N) = 0 ↔ a = b := by
  rcases Nat.lt_or_ge a b with hlt | hge
  · rw [elapsed_of_lt hlt (by omega)]
    omega
  · rw [elapsed_of_le hge h₁]
    omega

/-! ### Agendas -/

variable {α : Type*} {x : α} {l : List α}

/-- An insertion looks at nothing but the comparisons with the new entry. -/
theorem orderedInsert_congr {r s : α → α → Prop} [DecidableRel r] [DecidableRel s]
    (h : ∀ y ∈ l, r x y ↔ s x y) : l.orderedInsert r x = l.orderedInsert s x := by
  induction l with
  | nil => rfl
  | cons y l ih =>
    have hy := h y (List.mem_cons_self ..)
    have hrest := ih fun z hz => h z (List.mem_cons_of_mem y hz)
    simp only [List.orderedInsert_cons, hy, hrest]

/-- **An agenda stays ordered** when an entry is put before the first later one. -/
theorem pairwise_orderedInsert {due : α → ℕ} (h : l.Pairwise fun y z => due y ≤ due z) :
    (l.orderedInsert (fun y z => due y < due z) x).Pairwise fun y z => due y ≤ due z := by
  induction l with
  | nil => exact List.pairwise_singleton _ _
  | cons y l ih =>
    obtain ⟨hy, hl⟩ := List.pairwise_cons.1 h
    rw [List.orderedInsert_cons]
    split
    · rename_i hlt
      refine List.pairwise_cons.2 ⟨fun z hz => ?_, h⟩
      rcases List.mem_cons.1 hz with rfl | hz
      · exact hlt.le
      · exact hlt.le.trans (hy z hz)
    · rename_i hge
      refine List.pairwise_cons.2 ⟨fun z hz => ?_, ih hl⟩
      rcases (List.mem_orderedInsert _).1 hz with rfl | hz
      · exact Nat.le_of_not_lt hge
      · exact hy z hz

/-- A filter does not see the insertion of an entry it drops. -/
theorem filter_orderedInsert {r : α → α → Prop} [DecidableRel r] {p : α → Bool}
    (h : p x = false) : (l.orderedInsert r x).filter p = l.filter p := by
  induction l with
  | nil => simp [h]
  | cons y l ih =>
    rw [List.orderedInsert_cons]
    split
    · rw [List.filter_cons_of_neg (by simp [h])]
    · rw [List.filter_cons, List.filter_cons, ih]

end Series
end AccTx
