/-
# The register map

`applications/gvar.c`: the configuration and status tables, their defaults, and
the two entry points `reg_map_write` and `reg_map_read`.

| addr | register | min | max | default | check |
| ---: | --- | ---: | ---: | ---: | --- |
| 0 | `pwr_en` | 0 | 1 | 0 | `power_en_opt` |
| 1 | `freq_set` | 0 | 4 | 1 | `freq_opt` |
| 2 | `volum_set` | 0 | 8 | 4 | `volum_opt` |
| 5 | `rect_freq` | 100 | 6000 | 470 | `rect_freq_opt` |
| 6 | `phase_offset` | 0 | 255 | 0 | |
| 7 | `volum_step` | 1 | 100 | 1 | |
| 8 | `dac_offset` | 0 | 2048 | 2047 | |
| 9 | `bat_up_lim` | 3000 | 6400 | 4200 | |
| 10 | `bat_low_lim` | 0 | 4500 | 2800 | |
| 11 | `bat_mav_cnt` | 0 | 128 | 32 | |
| 15 | none | 9527 | 9527 | 0 | `sys_reset_opt` |

The other rows have no register and accept only 0.

`reg_map_write` checks the address range, then goes over the batch checking each
element against its row and calling the check function of the row, and then goes
over the batch again storing each element.  The number of elements `wr_cnt` is
the length of the data here.  `min` is an `int16_t`, compared as `int`.
-/

import AccTx.Firmware.RegChk

namespace AccTx
namespace Firmware

/-- The configuration registers the table points to. -/
inductive ConfPtr
  | pwrEn
  | freqSet
  | volumSet
  | rectFreq
  | phaseOffset
  | volumStep
  | dacOffset
  | batUpLim
  | batLowLim
  | batMavCnt
  deriving DecidableEq

def ConfPtr.load (conf : Config) : ConfPtr → ℕ
  | .pwrEn => conf.pwrEn
  | .freqSet => conf.freqSet
  | .volumSet => conf.volumSet
  | .rectFreq => conf.rectFreq
  | .phaseOffset => conf.phaseOffset
  | .volumStep => conf.volumStep
  | .dacOffset => conf.dacOffset
  | .batUpLim => conf.batUpLim
  | .batLowLim => conf.batLowLim
  | .batMavCnt => conf.batMavCnt

def ConfPtr.store (v : ℕ) (conf : Config) : ConfPtr → Config
  | .pwrEn => { conf with pwrEn := v }
  | .freqSet => { conf with freqSet := v }
  | .volumSet => { conf with volumSet := v }
  | .rectFreq => { conf with rectFreq := v }
  | .phaseOffset => { conf with phaseOffset := v }
  | .volumStep => { conf with volumStep := v }
  | .dacOffset => { conf with dacOffset := v }
  | .batUpLim => { conf with batUpLim := v }
  | .batLowLim => { conf with batLowLim := v }
  | .batMavCnt => { conf with batMavCnt := v }

/-- A stored register reads back; the others do not change. -/
theorem ConfPtr.load_store (p q : ConfPtr) (v : ℕ) (conf : Config) :
    p.load (q.store v conf) = if p = q then v else p.load conf := by
  cases p <;> cases q <;> rfl

/-- The mode is behind no pointer of the table. -/
@[simp] theorem ConfPtr.store_wgMode (q : ConfPtr) (v : ℕ) (conf : Config) :
    (q.store v conf).wgMode = conf.wgMode := by
  cases q <;> rfl

/-- The status registers the table points to. -/
inductive StatPtr
  | softwareVer
  | hardwareVer
  | mcuTemp
  | volumReg
  | rectFreq
  | msStatus
  | batVolt
  | batVolum
  | batAdcRaw
  | halfPeriod
  | mulFactor
  | outEn
  | freqIndex
  | volumIndex
  deriving DecidableEq

def StatPtr.load (stat : Status) : StatPtr → ℕ
  | .softwareVer => stat.softwareVer
  | .hardwareVer => stat.hardwareVer
  | .mcuTemp => stat.mcuTemp
  | .volumReg => stat.volumReg
  | .rectFreq => stat.rectFreq
  | .msStatus => stat.msStatus
  | .batVolt => stat.batVolt
  | .batVolum => stat.batVolum
  | .batAdcRaw => stat.batAdcRaw
  | .halfPeriod => stat.halfPeriod
  | .mulFactor => stat.mulFactor
  | .outEn => stat.outEn
  | .freqIndex => stat.freqIndex
  | .volumIndex => stat.volumIndex

def StatPtr.store (v : ℕ) (stat : Status) : StatPtr → Status
  | .softwareVer => { stat with softwareVer := v }
  | .hardwareVer => { stat with hardwareVer := v }
  | .mcuTemp => { stat with mcuTemp := v }
  | .volumReg => { stat with volumReg := v }
  | .rectFreq => { stat with rectFreq := v }
  | .msStatus => { stat with msStatus := v }
  | .batVolt => { stat with batVolt := v }
  | .batVolum => { stat with batVolum := v }
  | .batAdcRaw => { stat with batAdcRaw := v }
  | .halfPeriod => { stat with halfPeriod := v }
  | .mulFactor => { stat with mulFactor := v }
  | .outEn => { stat with outEn := v }
  | .freqIndex => { stat with freqIndex := v }
  | .volumIndex => { stat with volumIndex := v }

/-- The check functions of the table. -/
inductive ChkPtr
  | powerEnOpt
  | freqOpt
  | volumOpt
  | rectFreqOpt
  | sysResetOpt
  deriving DecidableEq

def ChkPtr.call (env : Env) (pram : ℕ) : ChkPtr → Fw ℕ
  | .powerEnOpt => Firmware.powerEnOpt env pram
  | .freqOpt => Firmware.freqOpt env pram
  | .volumOpt => Firmware.volumOpt pram
  | .rectFreqOpt => Firmware.rectFreqOpt env pram
  | .sysResetOpt => Firmware.sysResetOpt pram

/-- `conf_reg_map_st`. -/
structure ConfRegMap where
  regPtr : Option ConfPtr
  min : ℤ
  max : ℕ
  dft : ℕ
  chkPtr : Option ChkPtr
  deriving DecidableEq

/-- `sts_reg_map_st`. -/
structure StsRegMap where
  regPtr : Option StatPtr
  dft : ℕ
  deriving DecidableEq

def CONF_REG_MAP_NUM : ℕ := 16

def STAT_REG_MAP_NUM : ℕ := 16

def confRegMapInst : List ConfRegMap :=
  [ { regPtr := some .pwrEn, min := 0, max := 1, dft := 0, chkPtr := some .powerEnOpt },
    { regPtr := some .freqSet, min := 0, max := 4, dft := 1, chkPtr := some .freqOpt },
    { regPtr := some .volumSet, min := 0, max := 8, dft := 4, chkPtr := some .volumOpt },
    { regPtr := none, min := 0, max := 0, dft := 0, chkPtr := none },
    { regPtr := none, min := 0, max := 0, dft := 0, chkPtr := none },
    { regPtr := some .rectFreq, min := 100, max := 6000, dft := 470, chkPtr := some .rectFreqOpt },
    { regPtr := some .phaseOffset, min := 0, max := 255, dft := 0, chkPtr := none },
    { regPtr := some .volumStep, min := 1, max := 100, dft := 1, chkPtr := none },
    { regPtr := some .dacOffset, min := 0, max := 2048, dft := 2047, chkPtr := none },
    { regPtr := some .batUpLim, min := 3000, max := 6400, dft := 4200, chkPtr := none },
    { regPtr := some .batLowLim, min := 0, max := 4500, dft := 2800, chkPtr := none },
    { regPtr := some .batMavCnt, min := 0, max := 128, dft := 32, chkPtr := none },
    { regPtr := none, min := 0, max := 0, dft := 0, chkPtr := none },
    { regPtr := none, min := 0, max := 0, dft := 0, chkPtr := none },
    { regPtr := none, min := 0, max := 0, dft := 0, chkPtr := none },
    { regPtr := none, min := 9527, max := 9527, dft := 0, chkPtr := some .sysResetOpt } ]

def statusRegMapInst : List StsRegMap :=
  [ { regPtr := some .softwareVer, dft := 0x0202 },
    { regPtr := some .hardwareVer, dft := 0x0200 },
    { regPtr := none, dft := 0 },
    { regPtr := none, dft := 0 },
    { regPtr := some .mcuTemp, dft := 0 },
    { regPtr := some .volumReg, dft := 0 },
    { regPtr := some .rectFreq, dft := 470 },
    { regPtr := some .msStatus, dft := 0 },
    { regPtr := some .batVolt, dft := 0 },
    { regPtr := some .batVolum, dft := 0 },
    { regPtr := some .batAdcRaw, dft := 0 },
    { regPtr := some .halfPeriod, dft := 50 },
    { regPtr := some .mulFactor, dft := 6 },
    { regPtr := some .outEn, dft := 0 },
    { regPtr := some .freqIndex, dft := 1 },
    { regPtr := some .volumIndex, dft := 4 } ]

/-! ### Defaults -/

def initLoadStatus : Fw Unit :=
  modify fun m => { m with
    stat := statusRegMapInst.foldl (fun stat row =>
      match row.regPtr with
      | some p => p.store row.dft stat
      | none => stat) m.stat }

def initLoadDefault : Fw Unit :=
  modify fun m => { m with
    conf := confRegMapInst.foldl (fun conf row =>
      match row.regPtr with
      | some p => p.store row.dft conf
      | none => conf) m.conf }

def gvarInit : Fw Unit := do
  initLoadStatus
  initLoadDefault

/-! ### Write and read -/

/-- The return codes of the register map. -/
inductive RegMapErr
  | noErr
  | addrOr
  | dataOr
  | permOr
  | wrOr
  | conflictOr
  deriving DecidableEq

/-- The range check of one element against its row. -/
def ConfRegMap.InRange (row : ConfRegMap) (d : ℕ) : Prop := ¬(d > row.max ∨ (d : ℤ) < row.min)

instance (row : ConfRegMap) (d : ℕ) : Decidable (row.InRange d) :=
  inferInstanceAs (Decidable (¬_))

/-- One turn of the check loop, for the element `d` at the address `a`. -/
def chkElem (env : Env) (a d : ℕ) : Fw RegMapErr := do
  match confRegMapInst[a]? with
  | none => throw (.fault .regIndex)
  | some row =>
    if ¬row.InRange d then return .dataOr
    match row.chkPtr with
    | none => return .noErr
    | some chk =>
      let r ← chk.call env d
      if r = 0 then return .conflictOr else return .noErr

/-- The check loop, from the address `a` on. -/
def chkLoop (env : Env) : ℕ → List ℕ → Fw RegMapErr
  | _, [] => return .noErr
  | a, d :: ds => do
    let err ← chkElem env a d
    if err = .noErr then chkLoop env (a + 1) ds else return err

/-- The store loop, from the address `a` on. -/
def storeLoop : ℕ → List ℕ → Fw Unit
  | _, [] => return ()
  | a, d :: ds => do
    match confRegMapInst[a]? with
    | none => throw (.fault .regIndex)
    | some row =>
      match row.regPtr with
      | none => pure ()
      | some p => modify fun m => { m with conf := p.store d m.conf }
    storeLoop (a + 1) ds

def regMapWrite (env : Env) (regAddr : ℕ) (wrData : List ℕ) : Fw RegMapErr := do
  if regAddr + wrData.length > CONF_REG_MAP_NUM then return .addrOr
  let err ← chkLoop env regAddr wrData
  if err ≠ .noErr then return err
  storeLoop regAddr wrData
  return .noErr

/-- The registers of the two tables, as the pointers are dereferenced. -/
def confPtrs : List (Option (Machine → ℕ)) :=
  confRegMapInst.map fun row => row.regPtr.map fun p m => p.load m.conf

def statPtrs : List (Option (Machine → ℕ)) :=
  statusRegMapInst.map fun row => row.regPtr.map fun p m => p.load m.stat

/-- The copy loop of `reg_map_read`: `n` registers from the address `a` on. -/
def readLoop (ptrs : List (Option (Machine → ℕ))) : ℕ → ℕ → Fw (List ℕ)
  | _, 0 => return []
  | a, n + 1 => do
    match ptrs[a]? with
    | none => throw (.fault .regIndex)
    | some none => throw (.fault .nullPtr)
    | some (some ptr) =>
      let v := ptr (← get)
      let vs ← readLoop ptrs (a + 1) n
      return v :: vs

/-- `reg_map_read`: the return code and the values stored to `reg_data`. -/
def regMapRead (regAddr readCnt : ℕ) : Fw (RegMapErr × List ℕ) := do
  if regAddr &&& 0x8000 ≠ 0 then
    let regAddr := regAddr &&& 0x7fff
    if regAddr > STAT_REG_MAP_NUM then return (.addrOr, [])
    let vs ← readLoop statPtrs regAddr readCnt
    return (.noErr, vs)
  else
    if regAddr > CONF_REG_MAP_NUM then return (.addrOr, [])
    let vs ← readLoop confPtrs regAddr readCnt
    return (.noErr, vs)

end Firmware
end AccTx
