/-
# A batch is its single writes

`reg_map_write` first checks the whole batch, with every check function acting,
and only then stores it.  The same elements written one by one check and store in
turn.  Below the reset register both come to the same (`batch_eq_singles`).

The only configuration value a check function reads is `rect_freq`, which
`freq_opt` at the address 1 takes as its custom frequency (`afterElem_setConf`).
It is the register 5, so in both orders it is stored after it was read
(`afterChecked_store`): moving every store behind all checks changes nothing.
-/

import AccTx.Control.Store

namespace AccTx
namespace Control

open Firmware Effect

/-- The elements of a batch written one by one, with the codes they return. -/
def singleWrites (env : Env) : ℕ → List ℕ → Fw (List RegMapErr)
  | _, [] => return []
  | a, d :: ds => do
    let err ← regMapWrite env a [d]
    let errs ← singleWrites env (a + 1) ds
    return err :: errs

variable {startOk : List Call → Bool} {m : Machine}

/-- **What a check function reads of the configuration**: the register 5, and only
behind the address 1. -/
theorem afterElem_setConf {a d : ℕ} {conf : Config}
    (h : a = 1 → conf.rectFreq = m.conf.rectFreq) :
    afterElem startOk a d { m with conf := conf } =
      { afterElem startOk a d m with conf := conf } := by
  unfold afterElem
  cases hc : chkAt a with
  | none => rfl
  | some c =>
    cases c with
    | freqOpt =>
      have hf : conf.rectFreq = m.conf.rectFreq := h (chkAt_eq_some hc)
      have hsel : freqSelect conf d m.stat = freqSelect m.conf d m.stat := by
        unfold freqSelect
        rw [hf]
      simp only [afterChk, Machine.afterFreq, Machine.atSelect, Machine.afterRectFreq,
        Machine.startTimer, Machine.atDelay, Machine.stopTimer, hsel]
    | _ => rfl

/-- The check functions of the elements behind `a` do not see what is stored at `a`. -/
theorem afterChecked_store {a d : ℕ} {l : List (ℕ × ℕ)} (hl : ∀ p ∈ l, a < p.1) :
    afterChecked startOk l { m with conf := storeAt a d m.conf } =
      { afterChecked startOk l m with conf := storeAt a d m.conf } := by
  have hread : ∀ p ∈ l, p.1 = 1 → (storeAt a d m.conf).rectFreq = m.conf.rectFreq := by
    intro p hp h1
    have ha : a = 0 := by
      have := hl p hp
      omega
    subst ha
    rfl
  generalize storeAt a d m.conf = conf at hread
  unfold afterChecked
  clear hl
  induction l generalizing m with
  | nil => rfl
  | cons p l ih =>
    rw [List.foldl_cons, List.foldl_cons,
      afterElem_setConf (hread p (List.mem_cons_self ..))]
    refine ih fun q hq h1 => ?_
    rw [afterElem_conf]
    exact hread q (List.mem_cons_of_mem _ hq) h1

/-- The machine after a single write. -/
def afterSingle (startOk : List Call → Bool) (a d : ℕ) (m : Machine) : Machine :=
  if rowOk a d then { afterElem startOk a d m with conf := storeAt a d m.conf } else m

theorem single_run (h : Live m) {a d : ℕ} (ha : a < 15) :
    (regMapWrite (quiet startOk) a [d]).run m =
      .ok (if rowOk a d then .noErr else .dataOr) (afterSingle startOk a d m) := by
  have ha' : a < 16 := by omega
  unfold afterSingle
  by_cases hok : rowOk a d
  · rw [writeOne_run ha' (chkElem_run h hok ha.ne), if_pos hok, if_pos hok, if_pos rfl,
      afterElem_conf]
  · rw [writeOne_run ha' (chkElem_refused _ ha' hok), if_neg hok, if_neg hok, if_neg (by simp)]

theorem inRange_afterSingle (h : InRange m) {a d : ℕ} (ha : a < 15) :
    InRange (afterSingle startOk a d m) := by
  exact @inRange_step startOk (.write a [d]) m _ h (step_write_run (single_run h.live ha))

/-- The machine after the single writes. -/
def afterSingles (startOk : List Call → Bool) : ℕ → List ℕ → Machine → Machine
  | _, [], m => m
  | a, d :: ds, m => afterSingles startOk (a + 1) ds (afterSingle startOk a d m)

/-- **The single writes.**  Each of them returns, and the codes tell which elements
pass their range check. -/
theorem singleWrites_run (h : InRange m) {a : ℕ} {ds : List ℕ} (ha : a + ds.length ≤ 15) :
    ∃ errs, (singleWrites (quiet startOk) a ds).run m = .ok errs (afterSingles startOk a ds m) ∧
      ((∀ e ∈ errs, e = .noErr) ↔ ∀ i (h : i < ds.length), rowOk (a + i) ds[i]) := by
  induction ds generalizing a m with
  | nil => exact ⟨[], rfl, by simp⟩
  | cons d ds ih =>
    rw [List.length_cons] at ha
    have ha' : a < 15 := by omega
    obtain ⟨errs, hrun, hiff⟩ :=
      @ih _ (@inRange_afterSingle startOk m h a d ha') (a + 1) (by omega)
    refine ⟨(if rowOk a d then .noErr else .dataOr) :: errs, ?_, ?_⟩
    · simp [singleWrites, single_run h.live ha', hrun, afterSingles]
    · rw [List.forall_mem_cons, hiff, forall_rowOk_cons]
      refine and_congr_left fun _ => ?_
      simp

/-- Checking everything and then storing everything is checking and storing in turn. -/
theorem afterSingles_eq {a : ℕ} {ds : List ℕ}
    (hok : ∀ i (h : i < ds.length), rowOk (a + i) ds[i]) :
    afterSingles startOk a ds m =
      { afterChecked startOk (checked a ds) m with conf := storeAll a ds m.conf } := by
  induction ds generalizing a m with
  | nil => rfl
  | cons d ds ih =>
    obtain ⟨h₀, hs⟩ := forall_rowOk_cons.1 hok
    have hbehind : ∀ p ∈ checked (a + 1) ds, a < p.1 := by
      intro p hp
      have := (mem_checked hp).1
      omega
    rw [afterSingles, afterSingle, if_pos h₀, ih hs, checked, if_pos h₀]
    rw [← @afterElem_conf startOk m a d, afterChecked_store hbehind]
    rfl

/-- **A batch write equals the same single writes done in order**, for every batch
that ends below the reset register: it is accepted exactly when all of them are, and
then it leaves the machine they leave. -/
theorem batch_eq_singles (startOk : List Call → Bool) (m : Machine) (h : Reachable startOk m)
    (regAddr : ℕ) (wrData : List ℕ) (hn : regAddr + wrData.length ≤ 15) :
    ∃ err m₁ errs m₂,
      (regMapWrite (quiet startOk) regAddr wrData).run m = .ok err m₁ ∧
      (singleWrites (quiet startOk) regAddr wrData).run m = .ok errs m₂ ∧
      (err = .noErr ↔ ∀ e ∈ errs, e = .noErr) ∧ (err = .noErr → m₁ = m₂) := by
  have hm := inRange_of_reachable h
  obtain ⟨errs, hrun, hiff⟩ := @singleWrites_run startOk m hm _ _ hn
  have hle : regAddr + wrData.length ≤ CONF_REG_MAP_NUM := hn.trans (by decide)
  rcases @regMapWrite_cases startOk m hm.live regAddr wrData with
    ⟨hacc, _, hw⟩ | ⟨hres, _⟩ | ⟨hacc, _, err, herr, hw⟩
  · refine ⟨_, _, errs, _, hw, hrun, ?_, fun _ => ?_⟩
    · rw [hiff]
      exact iff_of_true rfl hacc.2
    · rw [afterSingles_eq hacc.2, afterPassed_conf, afterPassed, passed, if_pos hle]
  · exact absurd hres (not_resets_of_range (Or.inl hn))
  · refine ⟨_, _, errs, _, hw, hrun, ?_, fun h => absurd h herr⟩
    rw [hiff]
    exact iff_of_false herr fun hs => hacc ⟨hle, hs⟩

/-- A batch from the start-up that selects the custom preset and brings a new custom
frequency. -/
theorem batch_eq_singles_boot :
    ∃ err m₁ errs m₂,
      (regMapWrite (quiet fun _ => true) 1 [4, 8, 0, 0, 1000]).run boot = .ok err m₁ ∧
      (singleWrites (quiet fun _ => true) 1 [4, 8, 0, 0, 1000]).run boot = .ok errs m₂ ∧
      (err = .noErr ↔ ∀ e ∈ errs, e = .noErr) ∧ (err = .noErr → m₁ = m₂) :=
  batch_eq_singles (fun _ => true) boot ⟨[], rfl⟩ 1 [4, 8, 0, 0, 1000] (by decide)

end Control
end AccTx
