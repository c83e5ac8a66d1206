/-
# The recent entries of a series

A list of at most `n` entries, the oldest first: a new entry is put behind, an entry that is the
same as the one before is not, and beyond `n` the oldest goes (`pushRecent`).  So the list holds the
last `n` entries of the series without its repetitions (`foldl_pushRecent`).
-/

import Mathlib.Data.List.Destutter
import Mathlib.Data.List.DropRight
import Mathlib.Data.Nat.Notation
import Mathlib.Tactic.Common

namespace AccTx
namespace Series

variable {α : Type*} {n : ℕ} {l : List α} {x : α}

/-! ### The last entries -/

theorem getLast?_rtake (hn : 0 < n) : (l.rtake n).getLast? = l.getLast? := by
  obtain ⟨n, rfl⟩ := Nat.exists_eq_add_of_lt hn
  rcases List.eq_nil_or_concat' l with rfl | ⟨l, x, rfl⟩
  · rw [List.rtake_nil]
  · rw [Nat.zero_add, List.rtake_concat_succ, List.getLast?_concat, List.getLast?_concat]

theorem drop_rtake_concat (n : ℕ) (l : List α) (x : α) :
    (l.rtake n ++ [x]).drop ((l.rtake n).length + 1 - n) = (l ++ [x]).rtake n := by
  rw [List.rtake, List.rtake, ← List.drop_append_of_le_length (Nat.sub_le ..), List.drop_drop,
    List.length_drop, List.length_append, List.length_singleton]
  congr 1
  omega

/-! ### One entry -/

variable [DecidableEq α]

def pushRecent (n : ℕ) (l : List α) (x : α) : List α :=
  if l.getLast? = some x then l else (l ++ [x]).drop (l.length + 1 - n)

theorem mem_pushRecent {y : α} (h : y ∈ pushRecent n l x) : y = x ∨ y ∈ l := by
  rw [pushRecent] at h
  split_ifs at h
  · exact .inr h
  · have hmem := List.mem_of_mem_drop h
    rw [List.mem_append, List.mem_singleton] at hmem
    exact hmem.symm

theorem length_pushRecent (h : l.length ≤ n) : (pushRecent n l x).length ≤ n := by
  rw [pushRecent]
  split_ifs
  · exact h
  · rw [List.length_drop, List.length_append, List.length_singleton]
    omega

/-! ### Without repetitions -/

theorem getLast?_destutter' (l : List α) (a : α) :
    (l.destutter' (· ≠ ·) a).getLast? = (a :: l).getLast? := by
  induction l generalizing a with
  | nil => rfl
  | cons b l ih =>
    rw [List.destutter'_cons]
    split_ifs with hab
    · have hne : l.destutter' (· ≠ ·) b ≠ [] := List.destutter'_ne_nil _ _
      rw [List.getLast?_cons_of_ne_nil hne, ih, List.getLast?_cons_cons]
    · rw [ih, not_ne_iff.1 hab, List.getLast?_cons_cons]

theorem destutter'_concat (l : List α) (a x : α) :
    (l ++ [x]).destutter' (· ≠ ·) a =
      if (a :: l).getLast? = some x then l.destutter' (· ≠ ·) a
      else l.destutter' (· ≠ ·) a ++ [x] := by
  induction l generalizing a with
  | nil =>
    rw [List.nil_append, List.destutter'_singleton, List.destutter'_nil]
    by_cases hax : a = x <;> simp [hax]
  | cons b l ih =>
    rw [List.cons_append, List.destutter'_cons, ih, List.destutter'_cons, List.getLast?_cons_cons,
      ih]
    by_cases hab : a = b
    · rw [if_neg (not_not_intro hab), if_neg (not_not_intro hab), hab]
    · rw [if_pos hab, if_pos hab]
      split_ifs <;> rfl

/-- An entry behind a series, without the repetitions. -/
theorem destutter_concat (l : List α) (x : α) :
    (l ++ [x]).destutter (· ≠ ·) =
      if (l.destutter (· ≠ ·)).getLast? = some x then l.destutter (· ≠ ·)
      else l.destutter (· ≠ ·) ++ [x] := by
  cases l with
  | nil => simp
  | cons a l =>
    rw [List.cons_append, List.destutter_cons', destutter'_concat, List.destutter_cons',
      getLast?_destutter']

/-! ### The list -/

/-- **The list holds the last entries of the series without its repetitions.** -/
theorem foldl_pushRecent (hn : 0 < n) (l : List α) :
    l.foldl (pushRecent n) [] = (l.destutter (· ≠ ·)).rtake n := by
  induction l using List.reverseRecOn with
  | nil => simp
  | append_singleton l x ih =>
    rw [List.foldl_append, ih, List.foldl_cons, List.foldl_nil, pushRecent, getLast?_rtake hn,
      destutter_concat]
    split_ifs
    · rfl
    · exact drop_rtake_concat n _ x

end Series
end AccTx
