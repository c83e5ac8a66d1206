/-
# Automata with outputs

An automaton with the transition function `next : σ → E → σ` gives an output at each step,
`out : σ → E → β`.  `outputs` is the list of them along a run, one for each event.

An abstraction of the state that decides the outputs gives the same list
(`outputs_simulates`), and a run splits where its list of events does (`outputs_append`).
The credit rule bounds a sum of outputs by another one (`sum_outputs_le`): what a step costs
is paid by what it gains and by a credit of the state, so a whole run costs no more than it
gains and the credit it starts with.
-/

import Mathlib.Algebra.BigOperators.Group.List.Basic
import Mathlib.Algebra.GroupWithZero.Nat
import Mathlib.Tactic.Common

namespace AccTx
namespace Effect

variable {σ τ E β : Type} {next : σ → E → σ} {s : σ}

/-- The outputs of a run, one for each event. -/
def outputs (next : σ → E → σ) (out : σ → E → β) : σ → List E → List β
  | _, [] => []
  | s, e :: es => out s e :: outputs next out (next s e) es

/-- Every step of a run meets the condition `G` on its event and on the state before it. -/
def Always (next : σ → E → σ) (G : σ → E → Prop) : σ → List E → Prop
  | _, [] => True
  | s, e :: es => G s e ∧ Always next G (next s e) es

instance decidableAlways {G : σ → E → Prop} [∀ s e, Decidable (G s e)] :
    ∀ s es, Decidable (Always next G s es)
  | _, [] => inferInstanceAs (Decidable True)
  | s, e :: es => @instDecidableAnd (G s e) _ _ (decidableAlways (next s e) es)

@[simp] theorem length_outputs (out : σ → E → β) (s : σ) (es : List E) :
    (outputs next out s es).length = es.length := by
  induction es generalizing s with
  | nil => rfl
  | cons e es ih => rw [outputs, List.length_cons, ih, List.length_cons]

theorem outputs_append (out : σ → E → β) (s : σ) (es fs : List E) :
    outputs next out s (es ++ fs) =
      outputs next out s es ++ outputs next out (es.foldl next s) fs := by
  induction es generalizing s with
  | nil => rfl
  | cons e es ih => rw [List.cons_append, outputs, ih, outputs, List.cons_append, List.foldl_cons]

/-- The run from an event on starts in the state the events before it leave. -/
theorem drop_outputs (out : σ → E → β) (s : σ) (es : List E) (k : ℕ) :
    (outputs next out s es).drop k = outputs next out ((es.take k).foldl next s) (es.drop k) := by
  rcases Nat.le_total k es.length with hle | hge
  · have hlen : (outputs next out s (es.take k)).length = k := by
      rw [length_outputs, List.length_take, Nat.min_eq_left hle]
    have hsplit := @outputs_append _ _ _ next out s (es.take k) (es.drop k)
    rw [List.take_append_drop] at hsplit
    rw [hsplit, List.drop_left' hlen]
  · rw [List.drop_of_length_le (by rwa [length_outputs]), List.drop_of_length_le hge, outputs]

theorem getElem?_outputs (out : σ → E → β) (s : σ) (es : List E) (k : ℕ) :
    (outputs next out s es)[k]? = es[k]?.map (out ((es.take k).foldl next s)) := by
  rw [← List.head?_drop, drop_outputs, ← List.head?_drop]
  cases es.drop k <;> rfl

theorem always_append {G : σ → E → Prop} {es fs : List E} :
    Always next G s (es ++ fs) ↔ Always next G s es ∧ Always next G (es.foldl next s) fs := by
  induction es generalizing s with
  | nil => exact (and_iff_right trivial).symm
  | cons e es ih =>
    rw [List.cons_append, Always, ih, Always, List.foldl_cons, and_assoc]

/-- **An abstraction that follows the steps gives the same outputs.** -/
theorem outputs_simulates {next' : τ → E → τ} {f : σ → τ}
    (hnext : ∀ s e, f (next s e) = next' (f s) e) (out : τ → E → β) (s : σ) (es : List E) :
    outputs next (fun s e => out (f s) e) s es = outputs next' out (f s) es := by
  induction es generalizing s with
  | nil => rfl
  | cons e es ih => rw [outputs, outputs, ih, hnext]

/-- The same in the states of an invariant. -/
theorem outputs_simulates_of {J : σ → Prop} {next' : τ → E → τ} {f : σ → τ} {out : σ → E → β}
    {out' : τ → E → β} (hJ : ∀ s e, J s → J (next s e))
    (hnext : ∀ s e, J s → f (next s e) = next' (f s) e) (hout : ∀ s e, J s → out s e = out' (f s) e)
    {s : σ} (hs : J s) (es : List E) :
    outputs next out s es = outputs next' out' (f s) es ∧
      f (es.foldl next s) = es.foldl next' (f s) := by
  induction es generalizing s with
  | nil => exact ⟨rfl, rfl⟩
  | cons e es ih =>
    obtain ⟨houts, hstate⟩ := ih (hJ s e hs)
    rw [outputs, outputs, houts, hout s e hs, List.foldl_cons, hstate, List.foldl_cons,
      hnext s e hs]
    exact ⟨rfl, rfl⟩

/-- An output is counted by the sum of its indicator. -/
theorem count_outputs [BEq β] (out : σ → E → β) (b : β) (s : σ) (es : List E) :
    (outputs next out s es).count b =
      (outputs next (fun s e => if out s e == b then 1 else 0) s es).sum := by
  induction es generalizing s with
  | nil => rfl
  | cons e es ih => rw [outputs, outputs, List.count_cons, List.sum_cons, ih, Nat.add_comm]

/-- **The credit rule.**  Where the cost of each step and the credit after it are paid by its
gain and the credit before it, the cost of a run is paid by its gain and the credit it
starts with. -/
theorem sum_outputs_le {G : σ → E → Prop} {cost gain : σ → E → ℕ} {credit : σ → ℕ}
    (hstep : ∀ s e, G s e → cost s e + credit (next s e) ≤ gain s e + credit s)
    {es : List E} (h : Always next G s es) :
    (outputs next cost s es).sum ≤ (outputs next gain s es).sum + credit s := by
  induction es generalizing s with
  | nil => exact Nat.zero_le _
  | cons e es ih =>
    obtain ⟨hG, hrest⟩ := h
    have hone := hstep s e hG
    have hmany := ih hrest
    rw [outputs, outputs, List.sum_cons, List.sum_cons]
    omega

end Effect
end AccTx
