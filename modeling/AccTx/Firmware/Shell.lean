/-
# The shell commands

`applications/gvar.c`: `wr_reg_map` and `rd_reg_map`, which call `reg_map_write` and
`reg_map_read` with the numbers typed.  The arguments here are what `atoi` yields for
`argv[1]` and `argv[2]`; both commands convert them to `uint16_t` before anything looks at
them, and `rd_reg_map` passes its count on as `uint8_t`.

`rd_reg_map` reads into a local array of 32 elements that is not initialised, drops the error
code, and prints as many elements as were asked for.
-/

import AccTx.Firmware.Gvar

namespace AccTx
namespace Firmware

/-- Conversion to `uint16_t`. -/
def uint16 (z : ℤ) : ℕ := (z % 65536).toNat

/-- The elements of the local array `reg_buf`. -/
def REG_BUF_NUM : ℕ := 32

/-- A line of `rd_reg_map`: the address it prints, the element of `reg_buf` it reads, and what
has been stored there. -/
structure DumpLine where
  addr : ℕ
  index : ℕ
  data : Option ℕ
  deriving DecidableEq

/-- What `rd_reg_map` does: the answer of `reg_map_read`, which it drops, the elements stored
to `reg_buf` from the first one on, and the lines printed. -/
structure Dump where
  err : RegMapErr
  stored : List ℕ
  lines : List DumpLine
  deriving DecidableEq

/-- `atoi(argv[i])`, where `argv` holds `NULL` behind the words typed. -/
def atoiArg (argc i : ℕ) (arg : ℤ) : Fw ℤ :=
  if i < argc then return arg else throw (.fault .nullPtr)

/-- `rd_reg_map`, which converts both arguments before it looks whether they are there. -/
def rdRegMap (argc : ℕ) (arg₁ arg₂ : ℤ) : Fw (Option Dump) := do
  let regAddr := uint16 (← atoiArg argc 1 arg₁)
  let regCnt := uint16 (← atoiArg argc 2 arg₂)
  -- how it is used, which is never printed
  if argc < 3 then return none
  let (err, regBuf) ← regMapRead regAddr (regCnt % 2 ^ 8)
  return some
    { err := err
      stored := regBuf
      lines := (List.range regCnt).map fun i =>
        { addr := (regAddr + i) &&& 0x3fff, index := i, data := regBuf[i]? } }

/-- `wr_reg_map`; with fewer than two arguments it prints how it is used. -/
def wrRegMap (env : Env) (argc : ℕ) (arg₁ arg₂ : ℤ) : Fw Unit := do
  if argc < 3 then return
  let wrData := uint16 arg₂
  let _ ← regMapWrite env (uint16 arg₁) [wrData]

theorem uint16_lt (z : ℤ) : uint16 z < 2 ^ 16 := by
  unfold uint16
  omega

theorem uint16_eq {z : ℤ} (h₀ : 0 ≤ z) (h₁ : z < 65536) : uint16 z = z.toNat := by
  rw [uint16, Int.emod_eq_of_lt h₀ h₁]

end Firmware
end AccTx
