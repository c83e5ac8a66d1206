/-
# The write command

`wr_reg_map` converts the numbers typed to 16 bits before `reg_map_write` checks them, so an
address or a value beyond 16 bits is checked as what is left of it.  65536 is the address 0,
and with the value 1 the command switches the output on.

A pair of integers that is no address with a value of its row changes nothing exactly where
the low 16 bits are refused too, or where what they ask for is there already
(`actsOnNumbers_iff`).
-/

import AccTx.Control.Atomicity
import AccTx.Control.Store
import AccTx.Firmware.Shell

namespace AccTx
namespace Control

open Firmware Effect

/-- The integers are an address of the configuration table and a value in the limits of its
row. -/
def InRow (a v : ℤ) : Prop :=
  0 ≤ a ∧ ∃ row, confRegMapInst[a.toNat]? = some row ∧ row.min ≤ v ∧ v ≤ row.max

/-- The command acts on the numbers typed: in a row it is the write of the value, and
otherwise it returns with the board as it was. -/
def ActsOnNumbers (m : Machine) (a v : ℤ) : Prop :=
  (InRow a v → (wrRegMap hal 3 a v).run m = (step hal (.write a.toNat [v.toNat])).run m) ∧
    (¬InRow a v → ∃ m', (wrRegMap hal 3 a v).run m = .ok () m' ∧ m'.toBoard = m.toBoard)

/-- The write of one element changes nothing: the register holds it, and what it asks for is
there. -/
def IdleWrite (a d : ℕ) (m : Machine) : Prop :=
  a ≠ 15 ∧ (∀ p, regAt a = some p → p.load m.conf = d) ∧ Settled a [d] m

variable {m m' : Machine} {a d : ℕ}

/-- The command is the write of what is left of the numbers. -/
theorem wrRegMap_run (env : Env) (a v : ℤ) (m : Machine) :
    (wrRegMap env 3 a v).run m = (step env (.write (uint16 a) [uint16 v])).run m := rfl

/-- No row has a limit below zero. -/
theorem min_nonneg : ∀ row ∈ confRegMapInst, 0 ≤ row.min ∧ row.max < 65536 := by
  decide

/-- A value of a row fits 16 bits, and so does its address. -/
theorem InRow.uint16_eq {a v : ℤ} (h : InRow a v) :
    uint16 a = a.toNat ∧ uint16 v = v.toNat := by
  obtain ⟨ha, row, hrow, hmin, hmax⟩ := h
  obtain ⟨hpos, hfit⟩ := min_nonneg row (List.mem_of_getElem? hrow)
  have hlt : a.toNat < 16 := (List.getElem?_eq_some_iff.1 hrow).1
  exact ⟨Firmware.uint16_eq ha (by omega), Firmware.uint16_eq (by omega) (by omega)⟩

/-! ### One element -/

/-- A refused write of one element has checked nothing. -/
theorem afterPassed_of_refused {startOk : List Call → Bool} (h : ¬Accepted a [d]) (m : Machine) :
    afterPassed startOk a [d] m = m := by
  rw [accepted_single_iff] at h
  unfold afterPassed passed
  split
  · rw [checked, if_neg h]
    rfl
  · rfl

theorem resets_single_iff : Resets a [d] ↔ Accepted a [d] ∧ a = 15 := by
  constructor
  · intro h
    have hacc := accepted_of_resets h
    refine ⟨hacc, ?_⟩
    rw [Resets, request_single (accepted_single_iff.1 hacc)] at h
    by_contra hne
    simp [Ne.symm hne] at h
  · rintro ⟨hacc, rfl⟩
    rw [Resets, request_single (accepted_single_iff.1 hacc)]
    rfl

theorem store_load (p : ConfPtr) (conf : Config) : p.store (p.load conf) conf = conf := by
  cases p <;> rfl

/-- Storing an element changes nothing exactly where its register holds it. -/
theorem storeAt_eq_iff {conf : Config} :
    storeAt a d conf = conf ↔ ∀ p, regAt a = some p → p.load conf = d := by
  constructor
  · intro h p hp
    rw [← h, load_storeAt hp, if_pos rfl]
  · intro h
    unfold storeAt
    cases hp : regAt a with
    | none => rfl
    | some p =>
      rw [← h p hp]
      exact store_load p conf

/-- **A write of one element that changes nothing** is refused, or finds what it asks for. -/
theorem write_single_idle_iff (hm : InRange m) (hl : Latched m) :
    (∃ m', (step hal (.write a [d])).run m = .ok () m' ∧ m'.toBoard = m.toBoard) ↔
      ¬Accepted a [d] ∨ IdleWrite a d m := by
  rcases @regMapWrite_cases (fun _ => true) m hm.live a [d] with
    ⟨hacc, hres, hrun⟩ | ⟨hres, hrun⟩ | ⟨hacc, _, err, _, hrun⟩
  · have hstep := step_write_run hrun
    have h15 : a ≠ 15 := fun h15 => hres (resets_single_iff.2 ⟨hacc, h15⟩)
    have hstore : storeAll a [d] m.conf = storeAt a d m.conf := rfl
    rw [afterPassed_conf, hstore] at hstep
    rw [or_iff_right (not_not.2 hacc), IdleWrite, and_iff_right h15, ← storeAt_eq_iff,
      ← afterPassed_eq_iff hm hl, Board.ext_iff, afterPassed_conf, and_iff_right rfl]
    constructor
    · rintro ⟨m', hrun', heq⟩
      obtain ⟨-, rfl⟩ := EStateM.Result.ok.inj (hstep.symm.trans hrun')
      exact Board.ext_iff.1 heq
    · intro heq
      exact ⟨_, hstep, Board.ext_iff.2 heq⟩
  · obtain ⟨hacc, h15⟩ := resets_single_iff.1 hres
    refine iff_of_false ?_ (not_or.2 ⟨not_not.2 hacc, fun h => h.1 h15⟩)
    rintro ⟨m', hrun', -⟩
    simp [step, hal, hrun] at hrun'
  · refine iff_of_true ⟨_, step_write_run hrun, ?_⟩ (Or.inl hacc)
    rw [afterPassed_of_refused hacc]

/-- **The write command acts on the numbers typed**, from every reachable state, where they are
an address and a value of its row, or where the write of their low 16 bits is refused or
changes nothing, and nowhere else. -/
theorem actsOnNumbers_iff (m : Machine) (h : Reachable (fun _ => true) m) (a v : ℤ) :
    ActsOnNumbers m a v ↔
      InRow a v ∨ ¬Accepted (uint16 a) [uint16 v] ∨ IdleWrite (uint16 a) (uint16 v) m := by
  have hidle := @write_single_idle_iff m (uint16 a) (uint16 v) (inRange_of_reachable h)
    (latched_of_reachable h)
  unfold ActsOnNumbers
  rw [wrRegMap_run]
  by_cases hrow : InRow a v
  · obtain ⟨ha, hv⟩ := hrow.uint16_eq
    refine iff_of_true ⟨fun _ => ?_, fun hno => absurd hrow hno⟩ (Or.inl hrow)
    rw [ha, hv]
  · rw [or_iff_right hrow, ← hidle, forall_prop_of_true hrow]
    exact and_iff_right fun hyes => absurd hyes hrow

/-- The address -1 is the address 65535, which is refused. -/
theorem actsOnNumbers_iff_boot : ActsOnNumbers boot (-1) 1 ↔
    InRow (-1) 1 ∨ ¬Accepted (uint16 (-1)) [uint16 1] ∨ IdleWrite (uint16 (-1)) (uint16 1) boot :=
  actsOnNumbers_iff boot ⟨[], rfl⟩ (-1) 1

/-- The address 65536 is the address 0: with the value 1 the output is switched on. -/
theorem command_wraps :
    Reachable (fun _ => true) boot ∧ ¬InRow 65536 1 ∧
      (∃ m, (wrRegMap hal 3 65536 1).run boot = .ok () m ∧ m.stat.outEn = 1 ∧
        m.timer.running = true) ∧ ¬ActsOnNumbers boot 65536 1 := by
  have hrow : ¬InRow 65536 1 := by
    rintro ⟨_, row, hrow, _⟩
    exact absurd (List.getElem?_eq_some_iff.1 hrow).1 (by decide)
  have hrun := @step_write_accepted (fun _ => true) boot inRange_boot.live 0 [1] (by decide)
    (by decide)
  refine ⟨⟨[], rfl⟩, hrow, ⟨_, hrun, rfl, rfl⟩, fun h => ?_⟩
  obtain ⟨m', hrun', heq⟩ := h.2 hrow
  obtain ⟨-, rfl⟩ := EStateM.Result.ok.inj (hrun.symm.trans hrun')
  have hout := congrArg (fun b => b.stat.outEn) heq
  cases hout

end Control
end AccTx
