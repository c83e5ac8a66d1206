/-
# What a register write stores

The store loop of `reg_map_write` puts each element of an accepted batch behind the
pointer of its row, and no two rows share a pointer (`regAt_inj`).  So after it each
register holds the element its address has in the batch, or what it held before
(`load_storeAll`), and in an accepted batch that element is the request of the register
(`load_store_request`).

The check functions store nothing to the configuration, and of the status they write
neither the versions nor what the inputs measure.  With the acceptance of a batch, by the
limits of its rows alone, this is all a caller needs to know of a write that does not reset the
microcontroller (`write_spec`).
-/

import AccTx.Control.Outputs
import AccTx.Control.Range

namespace AccTx
namespace Control

open Firmware Effect

/-- The element a batch has for an address, if it has one. -/
def elemAt (regAddr : ℕ) (wrData : List ℕ) (r : ℕ) : Option ℕ :=
  if regAddr ≤ r then wrData[r - regAddr]? else none

variable {startOk : List Call → Bool} {m : Machine} {p : ConfPtr} {r : ℕ}

theorem lt_of_regAt (h : regAt r = some p) : r < 16 := by
  unfold regAt at h
  obtain ⟨row, hrow, _⟩ := Option.bind_eq_some_iff.1 h
  exact (List.getElem?_eq_some_iff.1 hrow).1

/-- No two addresses have one register. -/
theorem regAt_inj {a : ℕ} (ha : regAt a = some p) (hr : regAt r = some p) : a = r := by
  have h : ∀ a < 16, ∀ r < 16, regAt a ≠ none → regAt a = regAt r → a = r := by
    decide
  exact h a (lt_of_regAt ha) r (lt_of_regAt hr) (by simp [ha]) (ha.trans hr.symm)

theorem load_storeAt (hr : regAt r = some p) (a d : ℕ) (conf : Config) :
    p.load (storeAt a d conf) = if a = r then d else p.load conf := by
  unfold storeAt
  cases ha : regAt a with
  | none =>
    have hne : a ≠ r := by
      rintro rfl
      simp [ha] at hr
    rw [if_neg hne]
  | some q =>
    rw [ConfPtr.load_store]
    by_cases hpq : p = q
    · subst hpq
      rw [if_pos rfl, if_pos (regAt_inj ha hr)]
    · have hne : a ≠ r := by
        rintro rfl
        rw [ha] at hr
        exact hpq (Option.some.inj hr).symm
      rw [if_neg hpq, if_neg hne]

theorem elemAt_cons (a d : ℕ) (ds : List ℕ) :
    elemAt a (d :: ds) r = if a = r then some d else elemAt (a + 1) ds r := by
  unfold elemAt
  rcases lt_trichotomy a r with h | rfl | h
  · obtain ⟨k, rfl⟩ := Nat.exists_eq_add_of_lt h
    have h₁ : a + k + 1 - a = k + 1 := by omega
    have h₂ : a + k + 1 - (a + 1) = k := by omega
    rw [if_pos h.le, if_neg h.ne, if_pos (by omega), h₁, h₂, List.getElem?_cons_succ]
  · rw [if_pos le_rfl, if_pos rfl, Nat.sub_self, List.getElem?_cons_zero]
  · rw [if_neg (by omega), if_neg h.ne', if_neg (by omega)]

/-- **What the store loop leaves in a register**: its element, or what it held. -/
theorem load_storeAll (hr : regAt r = some p) (a : ℕ) (ds : List ℕ) (conf : Config) :
    p.load (storeAll a ds conf) = (elemAt a ds r).getD (p.load conf) := by
  induction ds generalizing a conf with
  | nil =>
    rw [storeAll, elemAt]
    split <;> rfl
  | cons d ds ih =>
    rw [storeAll, ih, load_storeAt hr, elemAt_cons]
    by_cases har : a = r
    · subst har
      have hnone : elemAt (a + 1) ds a = none := if_neg (by omega)
      rw [hnone, if_pos rfl, if_pos rfl]
      rfl
    · rw [if_neg har, if_neg har]

/-- The fields without a register are not stored to. -/
theorem storeAll_unmapped (a : ℕ) (ds : List ℕ) (conf : Config) :
    (storeAll a ds conf).dtHalfShift = conf.dtHalfShift ∧
      (storeAll a ds conf).wgMode = conf.wgMode ∧
      (storeAll a ds conf).rectVal = conf.rectVal := by
  have hstore : ∀ (p : ConfPtr) d conf, (p.store d conf).dtHalfShift = conf.dtHalfShift ∧
      (p.store d conf).wgMode = conf.wgMode ∧ (p.store d conf).rectVal = conf.rectVal := by
    intro p d conf
    cases p <;> exact ⟨rfl, rfl, rfl⟩
  induction ds generalizing a conf with
  | nil => exact ⟨rfl, rfl, rfl⟩
  | cons d ds ih =>
    obtain ⟨h₁, h₂, h₃⟩ := ih (a + 1) (storeAt a d conf)
    obtain ⟨g₁, g₂, g₃⟩ : (storeAt a d conf).dtHalfShift = conf.dtHalfShift ∧
        (storeAt a d conf).wgMode = conf.wgMode ∧ (storeAt a d conf).rectVal = conf.rectVal := by
      unfold storeAt
      split
      · exact ⟨rfl, rfl, rfl⟩
      · exact hstore _ d conf
    exact ⟨h₁.trans g₁, h₂.trans g₂, h₃.trans g₃⟩

theorem lookup_checked {a : ℕ} {ds : List ℕ}
    (hok : ∀ i (h : i < ds.length), rowOk (a + i) ds[i]) :
    (checked a ds).lookup r = elemAt a ds r := by
  induction ds generalizing a with
  | nil =>
    rw [checked, elemAt]
    split <;> rfl
  | cons d ds ih =>
    obtain ⟨h₀, hs⟩ := forall_rowOk_cons.1 hok
    rw [checked, if_pos h₀, List.lookup_cons, elemAt_cons, ih hs]
    by_cases har : a = r
    · simp [har]
    · have hbeq : (r == a) = false := beq_eq_false_iff_ne.2 (Ne.symm har)
      rw [hbeq, if_neg har]

/-- An accepted batch requests each of its elements. -/
theorem request_of_accepted {regAddr : ℕ} {wrData : List ℕ} (h : Accepted regAddr wrData) :
    request regAddr wrData r = elemAt regAddr wrData r := by
  rw [request, passed, if_pos h.1, lookup_checked h.2]

/-- **What an accepted write leaves in a register**: its request, or what it held. -/
theorem load_store_request {regAddr : ℕ} {wrData : List ℕ} (h : Accepted regAddr wrData)
    (hr : regAt r = some p) (conf : Config) :
    p.load (storeAll regAddr wrData conf) = (request regAddr wrData r).getD (p.load conf) := by
  rw [load_storeAll hr, request_of_accepted h]

/-- A write of one mapped register stores its value there. -/
theorem write_single (hm : Live m) {d : ℕ} (hok : rowOk r d) (hp : regAt r = some p) :
    ∃ m', (step (quiet startOk) (.write r [d])).run m = .ok () m' ∧
      m'.conf = p.store d m.conf ∧ m'.bat = m.bat ∧ m'.temp = m.temp := by
  have hres : ¬Resets r [d] := by
    have hne : (15 : ℕ) ≠ r := by
      rintro rfl
      cases hp
    rw [Resets, request_single hok, if_neg hne]
    simp
  obtain ⟨_, _, hbat, htemp⟩ := @afterPassed_frame startOk r [d] m
  refine ⟨_, step_write_accepted hm (accepted_single_iff.2 hok) hres, ?_, hbat, htemp⟩
  show storeAt r d m.conf = _
  rw [storeAt, hp]

/-- A mapped register is read back as it is. -/
theorem regMapRead_single (hr : regAt r = some p) (m : Machine) :
    (regMapRead r 1).run m = .ok (.noErr, [p.load m.conf]) m := by
  have hlt := lt_of_regAt hr
  unfold regAt at hr
  interval_cases r <;> cases hr <;> rfl

/-- **Nothing but a write touches the configuration.** -/
theorem conf_step {m' : Machine} (hm : Live m) {e : Event}
    (he : (step (quiet startOk) e).run m = .ok () m')
    (hne : ∀ regAddr wrData, e ≠ .write regAddr wrData) : m'.conf = m.conf :=
  step_rule (I := fun m' => m'.conf = m.conf) (fun _ _ hs h => hs.conf.trans h) hm hne he
    (fun pinId _ => afterPbEvt_conf pinId m) (fun _ _ => rfl) (fun _ => rfl) fun _ => rfl

/-! ### The status -/

/-- The status fields no option function writes. -/
structure SameMeasured (st st' : Status) : Prop where
  softwareVer : st'.softwareVer = st.softwareVer
  hardwareVer : st'.hardwareVer = st.hardwareVer
  mcuTemp : st'.mcuTemp = st.mcuTemp
  batAdcRaw : st'.batAdcRaw = st.batAdcRaw
  batVolt : st'.batVolt = st.batVolt
  batVolum : st'.batVolum = st.batVolum
  msStatus : st'.msStatus = st.msStatus

theorem sameMeasured_afterPassed (regAddr : ℕ) (wrData : List ℕ) (m : Machine) :
    SameMeasured m.stat (afterPassed startOk regAddr wrData m).stat := by
  obtain ⟨h, f, i, r, hpre⟩ : ∃ h f i r, presetAt regAddr wrData m =
      { m.stat with halfPeriod := h, mulFactor := f, freqIndex := i, rectFreq := r } := by
    unfold presetAt
    cases request regAddr wrData 1 with
    | none => exact ⟨_, _, _, _, rfl⟩
    | some p => exact freqSelect_frame m.conf p m.stat
  rw [afterPassed_stat, hpre]
  constructor <;> rfl

/-! ### The write as a whole -/

/-- What an accepted write leaves behind: each mapped register of its range holds its
element, and reads back as it, and the rest of the configuration and the measured
part of the status are as before. -/
structure Stored (regAddr : ℕ) (wrData : List ℕ) (m m' : Machine) : Prop where
  held : ∀ i (_ : i < wrData.length) p, regAt (regAddr + i) = some p →
    p.load m'.conf = wrData[i] ∧
      (regMapRead (regAddr + i) 1).run m' = .ok (.noErr, [wrData[i]]) m'
  others : ∀ p : ConfPtr, (∀ i < wrData.length, regAt (regAddr + i) ≠ some p) →
    p.load m'.conf = p.load m.conf
  dtHalfShift : m'.conf.dtHalfShift = m.conf.dtHalfShift
  wgMode : m'.conf.wgMode = m.conf.wgMode
  rectVal : m'.conf.rectVal = m.conf.rectVal
  stat : SameMeasured m.stat m'.stat

/-- What a write answers, and what it leaves behind: it is accepted exactly when its range
ends in the table and each element lies in the limits of its row, so the reserved rows
accept only 0 and no status address is accepted, and an accepted write has stored its
elements and nothing else. -/
structure WriteSpec (regAddr : ℕ) (wrData : List ℕ) (m : Machine) (err : RegMapErr)
    (m' : Machine) : Prop where
  accepted : err = .noErr ↔ regAddr + wrData.length ≤ 16 ∧
    ∀ i (_ : i < wrData.length), ∃ row, confRegMapInst[regAddr + i]? = some row ∧
      row.min ≤ wrData[i] ∧ wrData[i] ≤ row.max
  reserved : err = .noErr → ∀ i (_ : i < wrData.length), regAddr + i ∈ [3, 4, 12, 13, 14] →
    wrData[i] = 0
  status : regAddr.testBit 15 → err ≠ .noErr
  stored : err = .noErr → Stored regAddr wrData m m'

/-- Every register is behind some address. -/
theorem exists_regAt (p : ConfPtr) : ∃ r < 16, regAt r = some p := by
  cases p <;> decide

theorem stored_storeAll (regAddr : ℕ) (wrData : List ℕ) (m : Machine) :
    Stored regAddr wrData m { afterPassed startOk regAddr wrData m with
      conf := storeAll regAddr wrData (afterPassed startOk regAddr wrData m).conf } := by
  obtain ⟨hshift, hmode, hval⟩ := storeAll_unmapped regAddr wrData m.conf
  rw [afterPassed_conf]
  refine ⟨fun i hi p hp => ?_, fun p hp => ?_, hshift, hmode, hval,
    sameMeasured_afterPassed regAddr wrData m⟩
  · have helem : elemAt regAddr wrData (regAddr + i) = some wrData[i] := by
      rw [elemAt, if_pos (Nat.le_add_right ..), Nat.add_sub_cancel_left,
        List.getElem?_eq_getElem hi]
    have hload : p.load (storeAll regAddr wrData m.conf) = wrData[i] := by
      rw [load_storeAll hp, helem, Option.getD_some]
    refine ⟨hload, ?_⟩
    rw [regMapRead_single hp]
    simp only [hload]
  · obtain ⟨r, _, hr⟩ := exists_regAt p
    have helem : elemAt regAddr wrData r = none := by
      unfold elemAt
      split
      · rename_i hle
        by_contra hsome
        have hlt : r - regAddr < wrData.length := by simpa using hsome
        exact hp (r - regAddr) hlt (by rwa [Nat.add_sub_cancel' hle])
      · rfl
    exact (load_storeAll hr regAddr wrData m.conf).trans (by rw [helem, Option.getD_none])

/-- The rows without a register that are not the reset register accept only 0. -/
theorem reserved_row : ∀ row ∈ confRegMapInst, row.regPtr = none → row.chkPtr = none →
    row.min = 0 ∧ row.max = 0 := by
  decide

theorem accepted_iff_rows {regAddr : ℕ} {wrData : List ℕ} :
    Accepted regAddr wrData ↔ regAddr + wrData.length ≤ 16 ∧
      ∀ i (_ : i < wrData.length), ∃ row, confRegMapInst[regAddr + i]? = some row ∧
        row.min ≤ wrData[i] ∧ wrData[i] ≤ row.max := by
  rw [Accepted, CONF_REG_MAP_NUM]
  refine and_congr_right fun _ => forall_congr' fun i => forall_congr' fun hi => ?_
  exact rowOk_iff

/-- A batch that ends below the reset register, or leaves the table, does not reset the
microcontroller. -/
theorem not_resets_of_range {regAddr : ℕ} {wrData : List ℕ}
    (h : regAddr + wrData.length ≤ 15 ∨ 16 ≤ regAddr ∨ 16 < regAddr + wrData.length) :
    ¬Resets regAddr wrData := by
  intro hres
  have hacc := accepted_of_resets hres
  have hle : regAddr + wrData.length ≤ 16 := hacc.1
  rw [Resets, request_of_accepted hacc, elemAt] at hres
  split at hres
  · have hlt : 15 - regAddr < wrData.length := by simpa using hres
    omega
  · simp at hres

/-- The answer follows from the acceptance alone. -/
theorem writeSpec_of_accepted_iff {regAddr : ℕ} {wrData : List ℕ} {err : RegMapErr}
    {m' : Machine} (hiff : err = .noErr ↔ Accepted regAddr wrData)
    (hstored : err = .noErr → Stored regAddr wrData m m') :
    WriteSpec regAddr wrData m err m' := by
  refine ⟨hiff.trans accepted_iff_rows, fun herr i hi hmem => ?_, fun hbit herr => ?_, hstored⟩
  · obtain ⟨row, hrow, hmin, hmax⟩ := (accepted_iff_rows.1 (hiff.1 herr)).2 i hi
    have hreserved : row.regPtr = none ∧ row.chkPtr = none := by
      simp only [List.mem_cons, List.not_mem_nil, or_false] at hmem
      rcases hmem with ha | ha | ha | ha | ha <;> rw [ha] at hrow <;> cases hrow <;>
        exact ⟨rfl, rfl⟩
    have hzero := reserved_row row (List.mem_of_getElem? hrow) hreserved.1 hreserved.2
    omega
  · have hle := (accepted_iff_rows.1 (hiff.1 herr)).1
    have hge := Nat.ge_two_pow_of_testBit hbit
    omega

/-- **Acceptance, read-back and frame of a register write**, from every reachable state,
for every write that does not end at the reset register. -/
theorem write_spec (startOk : List Call → Bool) (m : Machine) (h : Reachable startOk m)
    (regAddr : ℕ) (wrData : List ℕ)
    (hn : regAddr + wrData.length ≤ 15 ∨ 16 ≤ regAddr ∨ 16 < regAddr + wrData.length) :
    ∃ err m', (regMapWrite (quiet startOk) regAddr wrData).run m = .ok err m' ∧
      WriteSpec regAddr wrData m err m' := by
  have hm := inRange_of_reachable h
  rcases @regMapWrite_cases startOk m hm.live regAddr wrData with
    ⟨hacc, _, hrun⟩ | ⟨hres, _⟩ | ⟨hacc, _, err, herr, hrun⟩
  · exact ⟨.noErr, _, hrun, writeSpec_of_accepted_iff (iff_of_true rfl hacc)
      fun _ => stored_storeAll regAddr wrData m⟩
  · exact absurd hres (not_resets_of_range hn)
  · exact ⟨err, _, hrun, writeSpec_of_accepted_iff (iff_of_false herr hacc)
      fun h => absurd h herr⟩

/-- A batch from the start-up over the battery registers and a reserved row. -/
theorem write_spec_boot :
    ∃ err m', (regMapWrite (quiet fun _ => true) 9 [4100, 3000, 16, 0]).run boot = .ok err m' ∧
      WriteSpec 9 [4100, 3000, 16, 0] boot err m' :=
  write_spec (fun _ => true) boot ⟨[], rfl⟩ 9 [4100, 3000, 16, 0] (by decide)

end Control
end AccTx
