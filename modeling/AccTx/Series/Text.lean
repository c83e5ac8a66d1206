/-
# Text in an array

A text is kept in an array of fixed size with zeros behind it (`padded`).  Array accesses outside
the array are `none`.  A character is inserted by moving the text from there on one place to the
right (`memmove_insert`), deleted by moving it to the left (`memmove_delete`), and the text is what
stands before the first zero (`cString_padded`).

What several texts have in common at their beginning is their longest common prefix
(`prefix_foldl_common_iff`).
-/

import Mathlib.Algebra.Order.Group.Nat
import Mathlib.Data.List.TakeDrop
import Mathlib.Data.Nat.Notation
import Mathlib.Tactic.Common

namespace AccTx
namespace Series

variable {α : Type*}

/-- A check of a list, element by element. -/
theorem forall_mem_of_all {P : α → Prop} [DecidablePred P] {l : List α}
    (h : l.all (P ·) = true) : ∀ x ∈ l, P x := by
  simpa using h

/-! ### Accesses -/

/-- `a[i] = x`. -/
def store (a : List α) (i : ℕ) (x : α) : Option (List α) :=
  if i < a.length then some (a.set i x) else none

/-- `memmove(&a[dst], &a[src], n)`. -/
def memmove (a : List α) (dst src n : ℕ) : Option (List α) :=
  if dst + n ≤ a.length ∧ src + n ≤ a.length then
    some (a.take dst ++ (a.drop src).take n ++ a.drop (dst + n))
  else none

/-- The string at the beginning of an array. -/
def cString [Zero α] [DecidableEq α] (a : List α) : Option (List α) :=
  if 0 ∈ a then some (a.takeWhile (· ≠ 0)) else none

theorem store_append {before after : List α} {x y : α} {i : ℕ} (hi : before.length = i) :
    store (before ++ y :: after) i x = some (before ++ x :: after) := by
  subst hi
  rw [store, if_pos (by simp), List.set_append_right _ _ le_rfl, Nat.sub_self,
    List.set_cons_zero]

/-! ### Padded texts -/

/-- A text in an array of `n` elements. -/
def padded [Zero α] (n : ℕ) (t : List α) : List α := t ++ List.replicate (n - t.length) 0

variable [Zero α] {n : ℕ} {t before after : List α} {x : α}

theorem length_padded (h : t.length ≤ n) : (padded n t).length = n := by
  rw [padded, List.length_append, List.length_replicate, Nat.add_sub_cancel' h]

theorem padded_nil : padded n ([] : List α) = List.replicate n 0 := rfl

theorem take_padded : (padded n t).take t.length = t := List.take_left' rfl

theorem drop_padded :
    (padded n (before ++ after)).drop before.length = padded (n - before.length) after := by
  rw [padded, padded, List.append_assoc, List.drop_left' rfl, List.length_append, Nat.sub_sub]

theorem padded_cons : padded n (x :: t) = x :: padded (n - 1) t := by
  rw [padded, padded, List.length_cons, List.cons_append, Nat.sub_sub, Nat.add_comm 1]

theorem padded_inj {t' : List α} (h : t.length ≤ n) (h' : t'.length ≤ n) (ht : 0 ∉ t)
    (ht' : 0 ∉ t') : padded n t = padded n t' ↔ t = t' := by
  refine ⟨fun heq => ?_, congrArg _⟩
  induction t generalizing t' n with
  | nil =>
    cases t' with
    | nil => rfl
    | cons y t' =>
      rw [List.length_cons] at h'
      rw [padded_cons, padded_nil] at heq
      obtain ⟨n, rfl⟩ := Nat.exists_eq_add_of_le' (Nat.one_le_of_lt h')
      rw [List.replicate_succ] at heq
      exact absurd (List.cons_eq_cons.1 heq).1 fun hy => ht' (hy ▸ List.mem_cons_self ..)
  | cons x t ih =>
    cases t' with
    | nil =>
      rw [List.length_cons] at h
      rw [padded_cons, padded_nil] at heq
      obtain ⟨n, rfl⟩ := Nat.exists_eq_add_of_le' (Nat.one_le_of_lt h)
      rw [List.replicate_succ] at heq
      exact absurd (List.cons_eq_cons.1 heq).1.symm fun hx => ht (hx ▸ List.mem_cons_self ..)
    | cons y t' =>
      rw [List.length_cons] at h h'
      rw [padded_cons, padded_cons] at heq
      obtain ⟨rfl, htail⟩ := List.cons_eq_cons.1 heq
      have hrest : 0 ∉ t := fun hm => ht (List.mem_cons_of_mem _ hm)
      have hrest' : 0 ∉ t' := fun hm => ht' (List.mem_cons_of_mem _ hm)
      rw [ih (n := n - 1) (by omega) (by omega) hrest hrest' htail]

theorem cString_append [DecidableEq α] (ht : 0 ∉ t) (u : List α) :
    cString (t ++ 0 :: u) = some t := by
  have hwhile : (t ++ 0 :: u).takeWhile (· ≠ 0) = t := by
    rw [List.takeWhile_append_of_pos fun y hy => by
      simpa using fun heq : y = 0 => ht (heq ▸ hy)]
    simp
  rw [cString, if_pos (List.mem_append_right _ (List.mem_cons_self ..)), hwhile]

/-- **The string in the array is the text.** -/
theorem cString_padded [DecidableEq α] (h : t.length < n) (ht : 0 ∉ t) :
    cString (padded n t) = some t := by
  have hsub : n - t.length = n - t.length - 1 + 1 := by omega
  rw [padded, hsub, List.replicate_succ, cString_append ht]

/-! ### Edits -/

/-- A character behind the text. -/
theorem store_padded (h : t.length < n) :
    store (padded n t) t.length x = some (padded n (t ++ [x])) := by
  have hsub : n - t.length = n - (t.length + 1) + 1 := by omega
  rw [padded, hsub, List.replicate_succ, store_append rfl, padded, List.length_append,
    List.length_singleton, List.append_assoc, List.singleton_append]

/-- **A character inserted before the end.** -/
theorem memmove_insert (h : before.length + after.length < n) (hafter : after ≠ []) :
    ((memmove (padded n (before ++ after)) (before.length + 1) before.length after.length).bind
      fun a => store a before.length x) = some (padded n (before ++ x :: after)) := by
  have hlen : (padded n (before ++ after)).length = n :=
    length_padded (by rw [List.length_append]; omega)
  have hpos : 0 < after.length := List.length_pos_iff.2 hafter
  have htake : (padded n (before ++ after)).take (before.length + 1) =
      before ++ after.take 1 := by
    rw [padded, List.append_assoc, List.take_length_add_append, List.take_append_of_le_length hpos]
  have hmid : ((padded n (before ++ after)).drop before.length).take after.length = after := by
    rw [drop_padded, take_padded]
  have hdrop : (padded n (before ++ after)).drop (before.length + 1 + after.length) =
      List.replicate (n - (before.length + 1 + after.length)) 0 := by
    rw [padded, List.drop_append, List.drop_of_length_le (by rw [List.length_append]; omega),
      List.nil_append, List.drop_replicate, List.length_append]
    congr 1
    omega
  have hrest : n - (before.length + 1 + after.length) = n - (before ++ x :: after).length := by
    rw [List.length_append, List.length_cons]
    omega
  rw [memmove, if_pos (by rw [hlen]; omega), Option.bind_some, htake, hmid, hdrop, hrest, padded]
  obtain ⟨y, rest, rfl⟩ := List.exists_cons_of_ne_nil hafter
  rw [List.take_succ_cons, List.take_zero, List.append_assoc, List.append_assoc,
    List.singleton_append, store_append rfl, List.append_assoc, List.cons_append,
    List.cons_append, List.cons_append]

/-- **A character deleted before the end.** -/
theorem memmove_delete (h : before.length + after.length + 1 ≤ n) :
    ((memmove (padded n (before ++ x :: after)) before.length (before.length + 1)
      after.length).bind fun a => store a (before.length + after.length) 0) =
        some (padded n (before ++ after)) := by
  have hlen : (padded n (before ++ x :: after)).length = n :=
    length_padded (by rw [List.length_append, List.length_cons]; omega)
  have htake : (padded n (before ++ x :: after)).take before.length = before := by
    rw [padded, List.append_assoc, List.take_left' rfl]
  have hmid : ((padded n (before ++ x :: after)).drop (before.length + 1)).take after.length =
      after := by
    rw [← List.drop_drop, drop_padded, padded_cons, List.drop_one, List.tail_cons, take_padded]
  have hlast : (padded n (before ++ x :: after)).drop (before.length + after.length + 1) =
      List.replicate (n - (before.length + after.length + 1)) 0 := by
    rw [padded, List.drop_append, List.drop_of_length_le (by
      rw [List.length_append, List.length_cons]; omega), List.nil_append, List.drop_replicate,
      List.length_append, List.length_cons]
    congr 1
    omega
  have hlt : before.length + after.length < (padded n (before ++ x :: after)).length := by
    rw [hlen]
    omega
  have hlength : (before ++ after).length = before.length + after.length := List.length_append
  have hsub : n - (before.length + after.length) = n - (before.length + after.length + 1) + 1 := by
    omega
  rw [memmove, if_pos (by rw [hlen]; omega), Option.bind_some, htake, hmid,
    List.drop_eq_getElem_cons hlt, hlast, store_append hlength, padded, hlength, hsub,
    List.replicate_succ]

/-! ### Strings one behind the other -/

section Strings

variable {α : Type*} [Zero α] [DecidableEq α] {s t u : List α}

/-- The strings of a text, each with a zero behind it. -/
def strings : List α → List (List α)
  | [] => []
  | x :: t =>
    if x = 0 then [] :: strings t
    else match strings t with
      | [] => []
      | s :: ss => (x :: s) :: ss

theorem strings_append_zero (hs : 0 ∉ s) : strings (s ++ 0 :: t) = s :: strings t := by
  induction s with
  | nil => exact if_pos rfl
  | cons x s ih =>
    obtain ⟨hx, hrest⟩ := not_or.1 (fun h => hs (List.mem_cons.2 h))
    rw [List.cons_append, strings, if_neg (Ne.symm hx), ih hrest]

theorem exists_strings_cons (h : strings t ≠ []) :
    ∃ s u, 0 ∉ s ∧ t = s ++ 0 :: u ∧ strings t = s :: strings u := by
  induction t with
  | nil => exact absurd rfl h
  | cons x t ih =>
    rw [strings] at h ⊢
    split at h
    · rename_i hx
      subst hx
      exact ⟨[], t, List.not_mem_nil, rfl, by rw [if_pos rfl]⟩
    · rename_i hx
      have hne : strings t ≠ [] := fun hnil => h (by rw [hnil])
      obtain ⟨s, u, hs, rfl, hstrings⟩ := ih hne
      refine ⟨x :: s, u, ?_, rfl, by rw [if_neg hx, hstrings]⟩
      exact fun hmem => (List.mem_cons.1 hmem).elim (fun h0 => hx h0.symm) hs

/-- There are as many strings as zeros. -/
theorem length_strings : (strings t).length = t.count 0 := by
  induction t with
  | nil => rfl
  | cons x t ih =>
    rw [strings]
    split
    · rename_i hx
      rw [hx, List.count_cons_self, List.length_cons, ih]
    · rename_i hx
      rw [List.count_cons_of_ne hx, ← ih]
      cases strings t <;> rfl

end Strings

/-! ### Common prefixes -/

section Common

variable {α : Type*} [DecidableEq α] {s t p : List α}

/-- The longest common prefix. -/
def common : List α → List α → List α
  | x :: s, y :: t => if x = y then x :: common s t else []
  | _, _ => []

theorem common_self : common s s = s := by
  induction s with
  | nil => rfl
  | cons x s ih => rw [common, if_pos rfl, ih]

theorem prefix_common_iff : p <+: common s t ↔ p <+: s ∧ p <+: t := by
  induction s generalizing t p with
  | nil => simp +contextual [common]
  | cons x s ih =>
    cases t with
    | nil => simp +contextual [common]
    | cons y t =>
      cases p with
      | nil => simp
      | cons z p =>
        rw [common, List.cons_prefix_cons, List.cons_prefix_cons]
        split_ifs with hxy
        · subst hxy
          rw [List.cons_prefix_cons, ih]
          tauto
        · constructor
          · simp
          · rintro ⟨⟨rfl, -⟩, rfl, -⟩
            exact absurd rfl hxy

/-- **The longest common prefix of several texts.** -/
theorem prefix_foldl_common_iff {ts : List (List α)} :
    p <+: ts.foldl common s ↔ p <+: s ∧ ∀ t ∈ ts, p <+: t := by
  induction ts generalizing s with
  | nil => simp
  | cons t ts ih => rw [List.foldl_cons, ih, prefix_common_iff, List.forall_mem_cons, and_assoc]

theorem common_take (n : ℕ) : common (s.take n) t = (common s t).take n := by
  induction s generalizing t n with
  | nil => simp [common]
  | cons x s ih =>
    cases n with
    | zero => simp [common]
    | succ n =>
      cases t with
      | nil => simp [common]
      | cons y t =>
        rw [List.take_succ_cons, common, common, ih]
        split_ifs <;> simp

end Common

end Series
end AccTx
