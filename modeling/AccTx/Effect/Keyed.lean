/-
# Folding over an association list by its keys

A loop over a batch of numbered elements acts on the state once for each element,
in the order of the numbers.  Where only a few numbers act at all, the loop is the
action of those, each looked up in the batch (`foldl_eq_foldl_lookup`).
-/

import Mathlib.Data.List.Basic
import Mathlib.Order.Lattice

namespace AccTx
namespace Effect

variable {κ β σ : Type} [LinearOrder κ]

/-- Act with the value of a key, if it has one. -/
def actAt (f : κ → β → σ → σ) (l : List (κ × β)) (s : σ) (k : κ) : σ :=
  match l.lookup k with
  | none => s
  | some b => f k b s

theorem lookup_eq_none_of_lt {l : List (κ × β)} {k : κ} (h : ∀ p ∈ l, k < p.1) :
    l.lookup k = none := by
  rw [List.lookup_eq_none_iff]
  intro p hp
  simpa using (h p hp).ne

/-- Keys without a value do nothing. -/
theorem foldl_actAt_of_none (f : κ → β → σ → σ) {l : List (κ × β)} {ks : List κ}
    (h : ∀ k ∈ ks, l.lookup k = none) (s : σ) : ks.foldl (actAt f l) s = s := by
  induction ks with
  | nil => rfl
  | cons k ks ih =>
    rw [List.foldl_cons, actAt, h k (List.mem_cons_self ..)]
    exact ih fun j hj => h j (List.mem_cons_of_mem _ hj)

/-- Looking a key up skips an entry with another key. -/
theorem foldl_actAt_cons (f : κ → β → σ → σ) {l : List (κ × β)} {a : κ} {b : β} {ks : List κ}
    (h : a ∉ ks) (s : σ) : ks.foldl (actAt f ((a, b) :: l)) s = ks.foldl (actAt f l) s := by
  apply List.foldl_ext
  intro s k hk
  have hne : (k == a) = false := by
    rw [beq_eq_false_iff_ne]
    rintro rfl
    exact h hk
  rw [actAt, actAt, List.lookup_cons, hne]

/-- **A fold over entries with increasing keys is a fold over the keys that act.** -/
theorem foldl_eq_foldl_lookup (f : κ → β → σ → σ) {l : List (κ × β)} {ks : List κ}
    (hl : l.Pairwise fun p q => p.1 < q.1) (hks : ks.Pairwise (· < ·))
    (hid : ∀ p ∈ l, p.1 ∉ ks → ∀ s, f p.1 p.2 s = s) (s : σ) :
    l.foldl (fun s p => f p.1 p.2 s) s = ks.foldl (actAt f l) s := by
  induction l generalizing ks s with
  | nil => exact (foldl_actAt_of_none f (fun _ _ => rfl) s).symm
  | cons p l ih =>
    obtain ⟨a, b⟩ := p
    obtain ⟨hlt, hl⟩ := List.pairwise_cons.1 hl
    rw [List.foldl_cons]
    by_cases ha : a ∈ ks
    · -- the keys before `a` have no entry, those after it are looked up in the rest
      obtain ⟨ks₁, ks₂, rfl⟩ := List.append_of_mem ha
      obtain ⟨_, h₂, h₁₂⟩ := List.pairwise_append.1 hks
      obtain ⟨h₂a, h₂⟩ := List.pairwise_cons.1 h₂
      have hnone : ∀ k ∈ ks₁, ((a, b) :: l).lookup k = none := by
        intro k hk
        have hka : k < a := h₁₂ k hk a (List.mem_cons_self ..)
        refine lookup_eq_none_of_lt fun q hq => ?_
        rcases List.mem_cons.1 hq with rfl | hq
        · exact hka
        · exact hka.trans (hlt q hq)
      have ha₂ : a ∉ ks₂ := fun hmem => (h₂a a hmem).ne rfl
      have hact : actAt f ((a, b) :: l) s a = f a b s := by simp [actAt]
      rw [List.foldl_append, foldl_actAt_of_none f hnone, List.foldl_cons, hact,
        foldl_actAt_cons f ha₂]
      refine ih hl h₂ (fun q hq hq₂ => hid q (List.mem_cons_of_mem _ hq) ?_) (f a b s)
      intro hmem
      have haq : a < q.1 := hlt q hq
      rcases List.mem_append.1 hmem with hq₁ | hq₁
      · exact absurd (h₁₂ q.1 hq₁ a (List.mem_cons_self ..)) haq.not_gt
      · rcases List.mem_cons.1 hq₁ with heq | hq₁
        · exact haq.ne heq.symm
        · exact hq₂ hq₁
    · rw [hid (a, b) (List.mem_cons_self ..) ha, foldl_actAt_cons f ha]
      exact ih hl hks (fun q hq => hid q (List.mem_cons_of_mem _ hq)) s

end Effect
end AccTx
