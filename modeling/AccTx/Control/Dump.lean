/-
# The register dump

`rd_reg_map` holds its count as 16 bits, passes 8 bits of it to `reg_map_read`, and prints 16
bits of it again from an array of 32 elements.  It looks neither at the count nor at what
`reg_map_read` answers.  So a refused request prints what happens to be on the stack, and a
count of 256 reads nothing and prints 256 elements, most of them past the end of the array.

What is printed is what was read exactly where nothing is asked for, and where the block asked
for, by its whole count, lies in the table and meets no hole of it (`dumpsOwn_iff`).
-/

import AccTx.Control.Read
import AccTx.Firmware.Shell

namespace AccTx
namespace Control

open Firmware

/-- The dump is its own: every element of `reg_buf` it stores or reads is one of the array,
each line shows the address of a register and the value that has been stored for it, and a
refused request shows none. -/
structure DumpOwn (m : Machine) (regAddr : ℕ) (d : Dump) : Prop where
  writes : d.stored.length ≤ REG_BUF_NUM
  reads : ∀ line ∈ d.lines, line.index < REG_BUF_NUM
  stored : ∀ line ∈ d.lines, ∃ ptr, regOf (bank regAddr) (start regAddr + line.index) = some ptr ∧
    line.addr = start regAddr + line.index ∧ d.stored[line.index]? = some (ptr m) ∧
    line.data = some (ptr m)
  refused : d.err ≠ .noErr → d.lines = []

/-- The command returns without an undefined access, and its dump is its own. -/
def DumpsOwn (m : Machine) (a n : ℤ) : Prop :=
  ∃ d, (rdRegMap 3 a n).run m = .ok (some d) m ∧ DumpOwn m (uint16 a) d

variable {m : Machine} {a n : ℤ}

/-- The lines of a dump of `n` elements. -/
def dumpLines (regAddr n : ℕ) (vs : List ℕ) : List DumpLine :=
  (List.range n).map fun i => { addr := (regAddr + i) &&& 0x3fff, index := i, data := vs[i]? }

theorem rdRegMap_ok {err : RegMapErr} {vs : List ℕ}
    (h : (regMapRead (uint16 a) (uint16 n % 256)).run m = .ok (err, vs) m) :
    (rdRegMap 3 a n).run m =
      .ok (some { err := err, stored := vs, lines := dumpLines (uint16 a) (uint16 n) vs }) m := by
  simp [rdRegMap, atoiArg, h, dumpLines]

theorem rdRegMap_fault {f : Fault}
    (h : (regMapRead (uint16 a) (uint16 n % 256)).run m = .error (.fault f) m) :
    (rdRegMap 3 a n).run m = .error (.fault f) m := by
  simp [rdRegMap, atoiArg, h]

/-- The address printed is that of the register, for the registers of the two tables. -/
theorem addr_printed {regAddr i : ℕ} (hi : start regAddr + i ≤ 16) :
    (regAddr + i) &&& 0x3fff = start regAddr + i := by
  have hmask : (regAddr + i) &&& 0x3fff = (regAddr + i) % 2 ^ 14 :=
    Nat.and_two_pow_sub_one_eq_mod _ 14
  rw [hmask]
  unfold start at hi ⊢
  omega

/-- A block that is mapped is dumped as it is. -/
theorem dumpOwn_of_mapped {regAddr cnt : ℕ} (hcnt : start regAddr + cnt ≤ 16)
    (hmap : Mapped (bank regAddr) (start regAddr) cnt) {vs : List ℕ} (hlen : vs.length = cnt)
    (hvs : ∀ i < cnt, vs[i]? = (regOf (bank regAddr) (start regAddr + i)).map fun ptr => ptr m) :
    DumpOwn m regAddr { err := .noErr, stored := vs, lines := dumpLines regAddr cnt vs } := by
  have hlines : ∀ line ∈ dumpLines regAddr cnt vs, ∃ i < cnt,
      line = { addr := (regAddr + i) &&& 0x3fff, index := i, data := vs[i]? } := by
    intro line hline
    obtain ⟨i, hi, rfl⟩ := List.mem_map.1 hline
    exact ⟨i, List.mem_range.1 hi, rfl⟩
  constructor
  case writes =>
    unfold REG_BUF_NUM
    simp only [hlen]
    omega
  case reads =>
    intro line hline
    obtain ⟨i, hi, rfl⟩ := hlines line hline
    unfold REG_BUF_NUM
    simp only
    omega
  case stored =>
    intro line hline
    obtain ⟨i, hi, rfl⟩ := hlines line hline
    obtain ⟨ptr, hptr⟩ := Option.isSome_iff_exists.1 (hmap i hi)
    have hval : vs[i]? = some (ptr m) := by rw [hvs i hi, hptr, Option.map_some]
    exact ⟨ptr, hptr, addr_printed (by omega), hval, hval⟩
  case refused =>
    intro herr
    exact absurd rfl herr

/-- A request for nothing shows nothing. -/
theorem dumpOwn_zero (err : RegMapErr) (regAddr : ℕ) :
    DumpOwn m regAddr { err := err, stored := [], lines := [] } := by
  constructor
  case writes => exact Nat.zero_le _
  case reads => exact fun line hline => absurd hline List.not_mem_nil
  case stored => exact fun line hline => absurd hline List.not_mem_nil
  case refused => exact fun _ => rfl

/-- **The register dump stays inside its array and prints only what it read**, for every two
integers, where it is asked for nothing or for a block of the table without a hole, and for
no others. -/
theorem dumpsOwn_iff (m : Machine) (a n : ℤ) :
    DumpsOwn m a n ↔ uint16 n = 0 ∨ start (uint16 a) + uint16 n ≤ 16 ∧
      ∀ i < uint16 n, start (uint16 a) + i ∉ holes (uint16 a) := by
  have hmapped : start (uint16 a) ≤ 16 → (Mapped (bank (uint16 a)) (start (uint16 a)) (uint16 n) ↔
      start (uint16 a) + uint16 n ≤ 16 ∧ ∀ i < uint16 n, start (uint16 a) + i ∉ holes (uint16 a)) :=
    mapped_bank_iff
  rcases regMapRead_cases (uint16_lt a) (uint16 n % 256) m with
    ⟨hs, hrun⟩ | ⟨hs, hmap, vs, hrun, hlen, hvs⟩ | ⟨hs, hmap, f, hrun⟩
  · -- what is refused may ask for nothing only
    have hdump := rdRegMap_ok hrun
    constructor
    · rintro ⟨d, hd, hown⟩
      obtain rfl : _ = d := Option.some.inj (EStateM.Result.ok.inj (hdump.symm.trans hd)).1
      have hnone := hown.refused (by simp)
      exact Or.inl (List.range_eq_nil.1 (List.map_eq_nil_iff.1 hnone))
    · rintro (hz | ⟨hle, -⟩)
      · rw [hz] at hdump
        exact ⟨_, hdump, dumpOwn_zero _ _⟩
      · omega
  · have hdump := rdRegMap_ok hrun
    rcases Nat.lt_or_ge (uint16 n) 256 with hsmall | hlarge
    · rw [Nat.mod_eq_of_lt hsmall] at hmap hlen hvs
      have hblock := (hmapped hs).1 hmap
      exact iff_of_true ⟨_, hdump, dumpOwn_of_mapped hblock.1 hmap hlen hvs⟩ (Or.inr hblock)
    · -- the first element that is not read is printed too
      refine iff_of_false ?_ (by omega)
      rintro ⟨d, hd, hown⟩
      obtain rfl : _ = d := Option.some.inj (EStateM.Result.ok.inj (hdump.symm.trans hd)).1
      have hmem : uint16 n % 256 ∈ List.range (uint16 n) := List.mem_range.2 (by omega)
      obtain ⟨ptr, _, _, hval, _⟩ := hown.stored _ (List.mem_map.2 ⟨_, hmem, rfl⟩)
      rw [List.getElem?_eq_none hlen.le] at hval
      cases hval
  · refine iff_of_false ?_ ?_
    · rintro ⟨d, hd, -⟩
      rw [rdRegMap_fault hrun] at hd
      cases hd
    · rintro (hz | hblock)
      · rw [hz] at hmap
        exact hmap fun i hi => absurd hi (Nat.not_lt_zero i)
      · have hsmall : uint16 n % 256 = uint16 n := Nat.mod_eq_of_lt (by omega)
        rw [hsmall] at hmap
        exact hmap ((hmapped hs).2 hblock)

/-- The address 20 is refused, and one element is printed that was never stored; a count of 256
reads nothing and prints an element past the end of the array. -/
theorem dump_not_own :
    ((rdRegMap 3 20 1).run boot =
        .ok (some { err := .addrOr, stored := [], lines := [⟨20, 0, none⟩] }) boot ∧
      ¬DumpsOwn boot 20 1) ∧
    ∃ d, (rdRegMap 3 0 256).run boot = .ok (some d) boot ∧ d.stored = [] ∧
      ∃ line ∈ d.lines, line.index = REG_BUF_NUM := by
  have hrun : (rdRegMap 3 20 1).run boot =
      .ok (some { err := .addrOr, stored := [], lines := [⟨20, 0, none⟩] }) boot := rfl
  refine ⟨⟨hrun, ?_⟩, ?_⟩
  · rintro ⟨d, hd, hown⟩
    obtain rfl : _ = d := Option.some.inj (EStateM.Result.ok.inj (hrun.symm.trans hd)).1
    exact absurd (hown.refused (by decide)) (by decide)
  · have hread : (regMapRead (uint16 0) (uint16 256 % 256)).run boot = .ok (.noErr, []) boot := rfl
    have hmem : REG_BUF_NUM ∈ List.range (uint16 256) := by decide
    exact ⟨_, rdRegMap_ok hread, rfl, _, List.mem_map.2 ⟨_, hmem, rfl⟩, rfl⟩

end Control
end AccTx
