/-
# The average under resizing

While the window fills, an average is the sum of the samples so far by their number,
whatever `bat_mav_cnt` is.  The sample that reaches `bat_mav_cnt` marks the window full, and
from then on the average is the sum of the slots taken so far by `bat_mav_cnt`.  Nothing
starts the window again when `bat_mav_cnt` changes, so with another size than the one it was
filled with the sum is divided by the wrong number.

So the averages lie between the samples taken, whatever these are, exactly where every
update that finds the window full finds the size that filled it
(`resizing_averages_iff`).  With another size a constant sample is missed already.
-/

import AccTx.Battery.Sum

namespace AccTx
namespace Battery

open Firmware Effect Control Series

/-- The value lies between the smallest and the largest sample. -/
def Between (r : ℕ) (vs : List ℕ) : Prop := (∃ v ∈ vs, v ≤ r) ∧ ∃ v ∈ vs, r ≤ v

/-- The sizes of successive calls keep the divisor at the number of samples, with `k`
samples in a window that fills: those after the one that ends the filling are the number of
samples that it leaves. -/
def Steady : ℕ → List ℕ → Prop
  | _, [] => True
  | k, n :: ns => if n ≤ k + 1 then ∀ n' ∈ ns, n' = k + 1 else Steady (k + 1) ns

/-- The same with `k` samples in a window that fills or is full. -/
def KeepsSize (b : BatSt) (k : ℕ) (ns : List ℕ) : Prop :=
  if b.bufferFf = 0 then Steady k ns else ∀ n ∈ ns, n = k

/-- The first `k` slots hold samples, the others have not been taken. -/
structure Taken (k : ℕ) (vs : List ℕ) (b : BatSt) : Prop where
  exact : SumExact b
  sample : ∀ v ∈ vs, v < 2 ^ 16
  le : k ≤ 64
  below : ∀ i : Fin 64, i.val < k → b.mavBuffer i ∈ vs
  above : ∀ i : Fin 64, k ≤ i.val → b.mavBuffer i = 0
  filling : b.bufferFf = 0 → b.mavCnt = k
  full : b.bufferFf ≠ 0 → b.mavCnt < k

/-- The slots taken after a call. -/
def takenAfter (k : ℕ) (b : BatSt) : ℕ := if b.bufferFf = 0 then k + 1 else k

/-- The samples of the updates among the events. -/
def volts (es : List Event) : List ℕ :=
  es.filterMap fun
    | .battery volt _ => some volt
    | _ => none

def temps (es : List Event) : List ℕ :=
  es.filterMap fun
    | .battery _ temp => some temp
    | _ => none

/-- The sizes the updates among the events find, from the size `n` on. -/
def sizes : ℕ → List Event → List ℕ
  | _, [] => []
  | n, .battery _ _ :: es => n :: sizes n es
  | n, .write regAddr wrData :: es => sizes ((request regAddr wrData 11).getD n) es
  | n, _ :: es => sizes n es

/-- An update with its samples left out. -/
def blank : Event → Event
  | .battery _ _ => .battery 0 0
  | e => e

/-- A battery update with 16-bit samples, or a write of `bat_mav_cnt` to 1 to 64. -/
inductive Resizing : Event → Prop
  | update {volt temp : ℕ} (hv : volt < 2 ^ 16) (ht : temp < 2 ^ 16) : Resizing (.battery volt temp)
  | resize {n : ℕ} (hn : 1 ≤ n) (hmax : n ≤ 64) : Resizing (.write 11 [n])

/-- Both averages of an update lie between the samples taken so far, its own included. -/
def AveragesBetween (es : List Event) (e : Event) (m _m' : Machine) : Prop :=
  match e with
  | .battery volt temp =>
    (∃ r b, mavCalc volt m.conf.batMavCnt m.bat = .ok (r, b) ∧ Between r (volts (es ++ [e]))) ∧
      ∃ r b, tempMavCalc temp m.conf.batMavCnt m.temp = .ok (r, b) ∧ Between r (temps (es ++ [e]))
  | _ => True

/-- The windows after the events `es`, with `k` and `l` slots taken. -/
structure Windows (k l : ℕ) (es : List Event) (m : Machine) : Prop where
  inRange : InRange m
  lims : m.conf.batUpLim ≠ m.conf.batLowLim
  pos : 1 ≤ m.conf.batMavCnt
  le : m.conf.batMavCnt ≤ 64
  bat : Taken k (volts es) m.bat
  temp : Taken l (temps es) m.temp

variable {k l n x c : ℕ} {vs : List ℕ} {b : BatSt} {startOk : List Call → Bool} {m m' : Machine}
  {es : List Event}

/-! ### One call -/

theorem taken_zeroed : Taken 0 [] zeroed :=
  ⟨sumExact_zeroed, fun _ h => absurd h List.not_mem_nil, Nat.zero_le _,
    fun _ h => absurd h (Nat.not_lt_zero _), fun _ _ => rfl, fun _ => rfl, fun h => absurd rfl h⟩

/-- The sum of slots that are at most `c`, and that of slots that are at least `c`. -/
theorem Taken.sum_le (h : Taken k vs b) (hle : ∀ v ∈ vs, v ≤ c) : b.accumSum ≤ k * c := by
  rw [h.exact.sum]
  exact sum_filled_le h.le h.above fun i hi => hle _ (h.below i hi)

theorem Taken.le_sum (h : Taken k vs b) (hle : ∀ v ∈ vs, c ≤ v) : k * c ≤ b.accumSum := by
  rw [h.exact.sum]
  exact le_sum_filled h.le h.above fun i hi => hle _ (h.below i hi)

/-- **The sum by the number of samples** lies between the samples. -/
theorem Taken.between (h : Taken k vs b) (hk : 1 ≤ k) :
    Between (b.accumSum / k % 2 ^ 16) vs := by
  have hmax : b.accumSum ≤ k * (2 ^ 16 - 1) :=
    h.sum_le fun v hv => Nat.le_sub_one_of_lt (h.sample v hv)
  have hfit : b.accumSum / k ≤ 2 ^ 16 - 1 := Nat.div_le_of_le_mul hmax
  have hlt := Nat.lt_mul_div_succ b.accumSum hk
  have hge := Nat.mul_div_le b.accumSum k
  have hmem : b.mavBuffer ⟨0, by decide⟩ ∈ vs := h.below ⟨0, by decide⟩ hk
  rw [Nat.mod_eq_of_lt (by omega)]
  constructor
  · by_contra hlow
    push Not at hlow
    have hsum : k * (b.accumSum / k + 1) ≤ b.accumSum := h.le_sum hlow
    omega
  · by_contra hhigh
    push Not at hhigh
    have hpos : 1 ≤ b.accumSum / k := by
      have hone := hhigh _ hmem
      omega
    have hsum : b.accumSum ≤ k * (b.accumSum / k - 1) :=
      h.sum_le fun v hv => Nat.le_sub_one_of_lt (hhigh v hv)
    have hone : k ≤ k * (b.accumSum / k) := Nat.le_mul_of_pos_right k hpos
    rw [Nat.mul_sub_one] at hsum
    omega

/-- The size that keeps the divisor makes it the number of samples. -/
theorem Taken.divisor_eq (h : Taken k vs b) (hsize : b.bufferFf ≠ 0 → n = k) :
    divisor n b = takenAfter k b := by
  unfold divisor takenAfter
  split
  · rename_i hff
    rw [h.filling hff]
  · rename_i hff
    exact hsize hff

/-- **A call** takes the next slot, or one of those taken already. -/
theorem Taken.call (h : Taken k vs b) (hn : 1 ≤ n) (hmax : n ≤ 64) (hx : x < 2 ^ 16)
    (hsize : b.bufferFf ≠ 0 → n = k) :
    Taken (takenAfter k b) (vs ++ [x]) (windowAfter x n b) := by
  have hfits : b.mavCnt < 64 := h.exact.fits
  have hle := h.le
  have hfill := h.filling
  have hfull := h.full
  obtain ⟨j, hj⟩ : ∃ j : Fin 64, j.val = b.mavCnt := ⟨⟨b.mavCnt, hfits⟩, rfl⟩
  have hgrow : k ≤ takenAfter k b ∧ takenAfter k b ≤ 64 ∧ b.mavCnt < takenAfter k b := by
    unfold takenAfter
    split <;> omega
  have hcnt := @windowAfter_mavCnt x n b h.exact.fits
  have hff := @windowAfter_bufferFf x n b h.exact.fits
  rw [nextCnt] at hcnt
  constructor
  case exact => exact h.exact.call hn hmax hx
  case sample => exact List.forall_mem_append.2 ⟨h.sample, List.forall_mem_singleton.2 hx⟩
  case le => exact hgrow.2.1
  case below =>
    intro i hi
    rw [windowAfter_mavBuffer hj]
    rcases eq_or_ne i j with rfl | hne
    · rw [Function.update_self]
      exact List.mem_append_right _ (List.mem_singleton_self x)
    · -- the only slot that is new is the one taken
      have hlt : i.val < k := by
        have hval : i.val ≠ b.mavCnt := fun heq => hne (Fin.ext (heq.trans hj.symm))
        unfold takenAfter at hi
        split at hi <;> omega
      rw [Function.update_of_ne hne]
      exact List.mem_append_left _ (h.below i hlt)
  case above =>
    intro i hi
    have hne : i ≠ j := by
      rintro rfl
      omega
    rw [windowAfter_mavBuffer hj, Function.update_of_ne hne]
    exact h.above i (by omega)
  case filling =>
    intro hfill'
    obtain ⟨hfill₀, hlt⟩ := hff.1 hfill'
    rw [hcnt, if_neg (Nat.not_le.2 hlt), takenAfter, if_pos hfill₀, h.filling hfill₀]
  case full =>
    intro hfull'
    rw [ne_eq, hff, not_and] at hfull'
    rw [hcnt]
    by_cases hff₀ : b.bufferFf = 0
    · have hge := hfull' hff₀
      rw [if_pos (Nat.le_of_not_lt hge)]
      omega
    · have hset := hsize hff₀
      split <;> omega

/-- **What a size does to those that keep the divisor.** -/
theorem Taken.keepsSize_cons (h : Taken k vs b) (ns : List ℕ) :
    KeepsSize b k (n :: ns) ↔ (b.bufferFf ≠ 0 → n = k) ∧
      KeepsSize (windowAfter x n b) (takenAfter k b) ns := by
  have hff := @windowAfter_bufferFf x n b h.exact.fits
  unfold KeepsSize takenAfter
  by_cases hfill : b.bufferFf = 0
  · have hcnt := h.filling hfill
    rw [if_pos hfill, if_pos hfill, Steady, and_iff_right (absurd hfill)]
    by_cases hlast : n ≤ k + 1
    · rw [if_pos hlast, if_neg (fun h₀ => absurd (hff.1 h₀).2 (by omega))]
    · rw [if_neg hlast, if_pos (hff.2 ⟨hfill, by omega⟩)]
  · rw [if_neg hfill, if_neg hfill, if_neg (fun h₀ => hfill (hff.1 h₀).1), List.forall_mem_cons,
      forall_prop_of_true hfill]

/-- **The average of a call whose size keeps the divisor.** -/
theorem Taken.average (h : Taken k vs b) (hn : 1 ≤ n) (hmax : n ≤ 64) (hx : x < 2 ^ 16)
    (hsize : b.bufferFf ≠ 0 → n = k) :
    ∃ r, mavCalc x n b = .ok (r, windowAfter x n b) ∧ Between r (vs ++ [x]) := by
  have hcall := @mavCalc_windowAfter x n b h.exact.fits (divisor_ne_zero hn)
  have hpos : takenAfter k b ≠ 0 := h.divisor_eq hsize ▸ divisor_ne_zero hn
  rw [h.divisor_eq hsize] at hcall
  exact ⟨_, hcall, (h.call hn hmax hx hsize).between (Nat.one_le_iff_ne_zero.2 hpos)⟩

/-- **An average of a constant sample that is met** has the size that keeps the divisor. -/
theorem Taken.size_of_average (h : Taken k vs b) (hn : 1 ≤ n) (hmax : n ≤ 64)
    (hvs : ∀ v ∈ vs, v = 64) {r : ℕ} {b' : BatSt} (hcall : mavCalc 64 n b = .ok (r, b'))
    (hr : Between r (vs ++ [64])) (hfull : b.bufferFf ≠ 0) : n = k := by
  have hle := h.le
  have hlow : k * 64 ≤ b.accumSum := h.le_sum fun v hv => (hvs v hv).ge
  have hhigh : b.accumSum ≤ k * 64 := h.sum_le fun v hv => (hvs v hv).le
  obtain ⟨j, hj⟩ : ∃ j : Fin 64, j.val = b.mavCnt := ⟨⟨b.mavCnt, h.exact.fits⟩, rfl⟩
  -- the sample that leaves the sum is one like that which enters
  have hold : b.mavBuffer j = 64 := hvs _ (h.below j (hj ▸ h.full hfull))
  have hsum := h.exact.sumAfter_add (x := 64) (by decide) hj
  have hval := @mavCalc_windowAfter 64 n b h.exact.fits (divisor_ne_zero hn)
  rw [windowAfter_accumSum hj] at hval
  have hdiv : divisor n b = n := if_neg hfull
  obtain ⟨rfl, -⟩ := Prod.mk.inj (Except.ok.inj (hcall.symm.trans hval))
  have hall : ∀ v ∈ vs ++ [64], v = 64 :=
    List.forall_mem_append.2 ⟨hvs, List.forall_mem_singleton.2 rfl⟩
  obtain ⟨⟨v, hv, hlow'⟩, ⟨w, hw, hhigh'⟩⟩ := hr
  rw [hall v hv] at hlow'
  rw [hall w hw] at hhigh'
  have heq : sumAfter 64 b j = 64 * k := by omega
  have hfit : 64 * k / n ≤ 64 * 64 := Nat.div_le_of_le_mul (by
    have := Nat.mul_le_mul_right (64 * 64) hn
    omega)
  rw [heq, hdiv, Nat.mod_eq_of_lt (by omega)] at hlow' hhigh'
  have h₁ := (Nat.le_div_iff_mul_le hn).1 hlow'
  have h₂ := (Nat.div_le_iff_le_mul_add_pred hn).1 hhigh'
  omega

/-! ### Runs -/

theorem volts_concat (es : List Event) (volt temp : ℕ) :
    volts (es ++ [.battery volt temp]) = volts es ++ [volt] := List.filterMap_append ..

theorem temps_concat (es : List Event) (volt temp : ℕ) :
    temps (es ++ [.battery volt temp]) = temps es ++ [temp] := List.filterMap_append ..

theorem volts_write (es : List Event) (regAddr : ℕ) (wrData : List ℕ) :
    volts (es ++ [.write regAddr wrData]) = volts es :=
  (List.filterMap_append ..).trans (List.append_nil _)

theorem temps_write (es : List Event) (regAddr : ℕ) (wrData : List ℕ) :
    temps (es ++ [.write regAddr wrData]) = temps es :=
  (List.filterMap_append ..).trans (List.append_nil _)

theorem rowOk_resize (hmax : n ≤ 64) : rowOk 11 n :=
  rowOk_iff.2 ⟨_, rfl, by simp, by simp; omega⟩

theorem sizes_resize (hmax : n ≤ 64) (c : ℕ) (es : List Event) :
    sizes c (.write 11 [n] :: es) = sizes n es := by
  rw [sizes, request_single (rowOk_resize hmax), if_pos rfl, Option.getD_some]

theorem windows_boot : Windows 0 0 [] boot :=
  ⟨inRange_boot, by decide, by decide, by decide, taken_zeroed, taken_zeroed⟩

/-- **A write of `bat_mav_cnt`** leaves the windows alone. -/
theorem Windows.resize (h : Windows k l es m) (hn : 1 ≤ n) (hmax : n ≤ 64)
    (he : (step (quiet startOk) (.write 11 [n])).run m = .ok () m') :
    Windows k l (es ++ [.write 11 [n]]) m' ∧ m'.conf.batMavCnt = n ∧
      m'.bat = m.bat ∧ m'.temp = m.temp := by
  obtain ⟨m₁, hrun, hconf, hbat, htemp⟩ := @write_single startOk m .batMavCnt 11
    h.inRange.live n (rowOk_resize hmax) rfl
  obtain rfl : m' = m₁ := (EStateM.Result.ok.inj (he.symm.trans hrun)).2
  refine ⟨⟨inRange_step _ _ _ h.inRange he, ?_, ?_, ?_, ?_, ?_⟩, ?_, hbat, htemp⟩
  · rw [hconf]
    exact h.lims
  · rw [hconf]
    exact hn
  · rw [hconf]
    exact hmax
  · rw [volts_write, hbat]
    exact h.bat
  · rw [temps_write, htemp]
    exact h.temp
  · rw [hconf]
    rfl

/-- **An update** whose size keeps the divisors takes a sample into each window. -/
theorem Windows.update (h : Windows k l es m) {volt temp : ℕ} (hv : volt < 2 ^ 16)
    (ht : temp < 2 ^ 16) (hk : m.bat.bufferFf ≠ 0 → m.conf.batMavCnt = k)
    (hl : m.temp.bufferFf ≠ 0 → m.conf.batMavCnt = l)
    (he : (step (quiet startOk) (.battery volt temp)).run m = .ok () m') :
    Windows (takenAfter k m.bat) (takenAfter l m.temp) (es ++ [.battery volt temp]) m' ∧
      m'.conf = m.conf ∧ m'.bat = windowAfter volt m.conf.batMavCnt m.bat ∧
      m'.temp = windowAfter temp m.conf.batMavCnt m.temp := by
  have hinv := inRange_step _ _ _ h.inRange he
  obtain ⟨rfl, hconf⟩ := battery_step he
  obtain ⟨hbat, htemp⟩ := windows_battery volt temp m
  have hreach : ReachesTemp m := ⟨h.bat.exact.fits, divisor_ne_zero h.pos, h.lims⟩
  have htemp' := (htemp.resolve_right fun hno => hno.1 hreach).2
  refine ⟨⟨hinv, ?_, ?_, ?_, ?_, ?_⟩, hconf, hbat, htemp'⟩
  · rw [hconf]
    exact h.lims
  · rw [hconf]
    exact h.pos
  · rw [hconf]
    exact h.le
  · rw [hbat, volts_concat]
    exact h.bat.call h.pos h.le hv hk
  · rw [htemp', temps_concat]
    exact h.temp.call h.pos h.le ht hl

/-- **The averages of a run whose sizes keep the divisors.** -/
theorem along_averagesBetween (h : Windows k l es m) {fs : List Event}
    (hfs : ∀ e ∈ fs, Resizing e) (hk : KeepsSize m.bat k (sizes m.conf.batMavCnt fs))
    (hl : KeepsSize m.temp l (sizes m.conf.batMavCnt fs)) :
    Along (step (quiet startOk)) (fun es₁ => AveragesBetween (es ++ es₁)) fs m := by
  induction fs generalizing k l es m with
  | nil => exact along_nil
  | cons e fs ih =>
    have hrest : ∀ e ∈ fs, Resizing e := fun e he => hfs e (List.mem_cons_of_mem _ he)
    refine along_cons_append.2 fun m' he => ?_
    cases hfs e (List.mem_cons_self ..) with
    | @update volt temp hv ht =>
      rw [sizes, h.bat.keepsSize_cons (x := volt)] at hk
      rw [sizes, h.temp.keepsSize_cons (x := temp)] at hl
      obtain ⟨hwin, hconf, hbat, htemp⟩ := h.update hv ht hk.1 hl.1 he
      obtain ⟨r, hr, hbetween⟩ := h.bat.average h.pos h.le hv hk.1
      obtain ⟨q, hq, hbetween'⟩ := h.temp.average h.pos h.le ht hl.1
      rw [← volts_concat es volt temp] at hbetween
      rw [← temps_concat es volt temp] at hbetween'
      rw [← hbat, ← hconf] at hk
      rw [← htemp, ← hconf] at hl
      exact ⟨⟨⟨r, _, hr, hbetween⟩, ⟨q, _, hq, hbetween'⟩⟩, ih hwin hrest hk.2 hl.2⟩
    | @resize n hn hmax =>
      obtain ⟨hwin, hset, hbat, htemp⟩ := h.resize hn hmax he
      rw [sizes_resize hmax, ← hset] at hk hl
      rw [← hbat] at hk
      rw [← htemp] at hl
      exact ⟨trivial, ih hwin hrest hk hl⟩

/-- An event whose samples, if it brings any, are 64. -/
def Samples64 : Event → Prop
  | .battery volt temp => volt = 64 ∧ temp = 64
  | _ => True

/-- **The sizes of a run of a constant sample whose averages meet it.** -/
theorem keepsSize_of_along (h : Windows k l es m) (hes : ∀ v ∈ volts es, v = 64)
    (hes' : ∀ v ∈ temps es, v = 64) {fs : List Event} (hfs : ∀ e ∈ fs, Resizing e)
    (hfs' : ∀ e ∈ fs, Samples64 e)
    (hall : Along (step (quiet startOk)) (fun es₁ => AveragesBetween (es ++ es₁)) fs m) :
    KeepsSize m.bat k (sizes m.conf.batMavCnt fs) := by
  induction fs generalizing k l es m with
  | nil =>
    unfold KeepsSize
    split
    · trivial
    · exact fun n hn => absurd hn List.not_mem_nil
  | cons e fs ih =>
    have hrest : ∀ e ∈ fs, Resizing e := fun e he => hfs e (List.mem_cons_of_mem _ he)
    have hrest' : ∀ e ∈ fs, Samples64 e := fun e he => hfs' e (List.mem_cons_of_mem _ he)
    have hhead := hfs' e (List.mem_cons_self ..)
    rw [along_cons_append] at hall
    cases hfs e (List.mem_cons_self ..) with
    | @update volt temp hv ht =>
      obtain ⟨rfl, rfl⟩ := hhead
      have hrun := batEvent_run 64 64 m
      obtain ⟨⟨⟨r, b, hr, hbetween⟩, ⟨q, b', hq, hbetween'⟩⟩, hall⟩ := hall _ hrun
      rw [volts_concat] at hbetween
      rw [temps_concat] at hbetween'
      have hk : m.bat.bufferFf ≠ 0 → m.conf.batMavCnt = k :=
        h.bat.size_of_average h.pos h.le hes hr hbetween
      have hl : m.temp.bufferFf ≠ 0 → m.conf.batMavCnt = l :=
        h.temp.size_of_average h.pos h.le hes' hq hbetween'
      obtain ⟨hwin, hconf, hbat, htemp⟩ := @Windows.update k l startOk m _ es h 64 64 hv ht hk hl
        hrun
      have hvolts : ∀ v ∈ volts (es ++ [.battery 64 64]), v = 64 := by
        rw [volts_concat]
        exact List.forall_mem_append.2 ⟨hes, List.forall_mem_singleton.2 rfl⟩
      have htemps : ∀ v ∈ temps (es ++ [.battery 64 64]), v = 64 := by
        rw [temps_concat]
        exact List.forall_mem_append.2 ⟨hes', List.forall_mem_singleton.2 rfl⟩
      have hkeeps := ih hwin hvolts htemps hrest hrest' hall
      rw [sizes, h.bat.keepsSize_cons (x := 64), ← hbat, ← hconf]
      exact ⟨hconf ▸ hk, hkeeps⟩
    | @resize n hn hmax =>
      obtain ⟨m', hrun, -⟩ := @write_single startOk m .batMavCnt 11 h.inRange.live n
        (rowOk_resize hmax) rfl
      obtain ⟨hwin, hset, hbat, htemp⟩ := h.resize hn hmax hrun
      have hkeeps := ih hwin (by rwa [volts_write]) (by rwa [temps_write]) hrest hrest'
        (hall m' hrun).2
      rw [sizes_resize hmax, ← hset, ← hbat]
      exact hkeeps

/-! ### The pattern of a run -/

/-- An update with both samples 64. -/
def constant : Event → Event
  | .battery _ _ => .battery 64 64
  | e => e

theorem sizes_map {f : Event → Event}
    (hf : ∀ volt temp, ∃ v t, f (.battery volt temp) = .battery v t)
    (hf' : ∀ regAddr wrData, f (.write regAddr wrData) = .write regAddr wrData)
    (hes : ∀ e ∈ es, Resizing e) (n : ℕ) : sizes n (es.map f) = sizes n es := by
  induction es generalizing n with
  | nil => rfl
  | cons e es ih =>
    have hrest : ∀ e ∈ es, Resizing e := fun e he => hes e (List.mem_cons_of_mem _ he)
    cases hes e (List.mem_cons_self ..) with
    | @update volt temp _ _ =>
      obtain ⟨v, t, heq⟩ := hf volt temp
      rw [List.map_cons, heq, sizes, sizes, ih hrest]
    | @resize k _ _ => rw [List.map_cons, hf', sizes, sizes, ih hrest]

theorem sizes_eq_of_blank {es' : List Event} (hes : ∀ e ∈ es, Resizing e)
    (hes' : ∀ e ∈ es', Resizing e) (heq : es'.map blank = es.map blank) (n : ℕ) :
    sizes n es' = sizes n es := by
  have hblank := @sizes_map es blank (fun _ _ => ⟨_, _, rfl⟩) (fun _ _ => rfl) hes n
  have hblank' := @sizes_map es' blank (fun _ _ => ⟨_, _, rfl⟩) (fun _ _ => rfl) hes' n
  rw [← hblank, ← hblank', heq]

theorem blank_constant (es : List Event) : (es.map constant).map blank = es.map blank := by
  rw [List.map_map]
  refine List.map_congr_left fun e _ => ?_
  cases e <;> rfl

theorem resizing_constant (hes : ∀ e ∈ es, Resizing e) : ∀ e ∈ es.map constant, Resizing e := by
  refine List.forall_mem_map.2 fun e he => ?_
  cases hes e he with
  | update _ _ => exact .update (by decide) (by decide)
  | resize hn hmax => exact .resize hn hmax

theorem samples64_constant (hes : ∀ e ∈ es, Resizing e) :
    ∀ e ∈ es.map constant, Samples64 e := by
  refine List.forall_mem_map.2 fun e he => ?_
  cases hes e he with
  | update _ _ => exact ⟨rfl, rfl⟩
  | resize hn hmax => trivial

theorem keepsSize_boot (ns : List ℕ) :
    (KeepsSize boot.bat 0 ns ↔ Steady 0 ns) ∧ (KeepsSize boot.temp 0 ns ↔ Steady 0 ns) := by
  unfold KeepsSize
  rw [if_pos (show boot.bat.bufferFf = 0 from rfl), if_pos (show boot.temp.bufferFf = 0 from rfl)]
  exact ⟨Iff.rfl, Iff.rfl⟩

/-- **The averages lie between the samples under resizing**, from the start-up on, in the
runs of updates and of writes of `bat_mav_cnt` in which every update after the one that
fills the windows finds `bat_mav_cnt` at the number of samples that filled them.  In every
other run they do not, for some samples. -/
theorem resizing_averages_iff (startOk : List Call → Bool) (es : List Event)
    (hes : ∀ e ∈ es, Resizing e) :
    (∀ es', es'.map blank = es.map blank → (∀ e ∈ es', Resizing e) →
      Along (step (quiet startOk)) AveragesBetween es' boot) ↔
        Steady 0 (sizes boot.conf.batMavCnt es) := by
  constructor
  · intro h
    have hall := h (es.map constant) (blank_constant es) (resizing_constant hes)
    have hkeeps := keepsSize_of_along windows_boot (fun v hv => absurd hv List.not_mem_nil)
      (fun v hv => absurd hv List.not_mem_nil) (resizing_constant hes) (samples64_constant hes) hall
    rw [(keepsSize_boot _).1] at hkeeps
    rwa [sizes_eq_of_blank hes (resizing_constant hes) (blank_constant es)] at hkeeps
  · intro h es' heq hes'
    rw [← sizes_eq_of_blank hes hes' heq] at h
    exact along_averagesBetween windows_boot hes' ((keepsSize_boot _).1.2 h)
      ((keepsSize_boot _).2.2 h)

/-- Two samples fill a window of two, and a third one follows. -/
theorem resizing_averages_iff_three :
    (∀ es' : List Event, es'.map blank =
        [Event.write 11 [2], .battery 3000 250, .battery 3100 251, .battery 3200 252].map blank →
      (∀ e ∈ es', Resizing e) →
      Along (step (quiet fun _ => true)) AveragesBetween es' boot) ↔
        Steady 0 (sizes boot.conf.batMavCnt
          [.write 11 [2], .battery 3000 250, .battery 3100 251, .battery 3200 252]) :=
  resizing_averages_iff (fun _ => true)
    [.write 11 [2], .battery 3000 250, .battery 3100 251, .battery 3200 252] (by
      simp only [List.forall_mem_cons]
      exact ⟨.resize (by decide) (by decide), .update (by decide) (by decide),
        .update (by decide) (by decide), .update (by decide) (by decide),
        fun _ h => absurd h List.not_mem_nil⟩)

/-- A window of two shrinks to one once it is full. -/
def shrunk : List Event :=
  [.write 11 [2], .battery 64 64, .battery 64 64, .write 11 [1], .battery 64 64]

/-- Three samples of 64 have the average 128. -/
theorem average_above_samples :
    (∀ e ∈ shrunk, Resizing e) ∧ ¬Along (step hal) AveragesBetween shrunk boot := by
  have hes : ∀ e ∈ shrunk, Resizing e := by
    simp only [shrunk, List.forall_mem_cons]
    exact ⟨.resize (by decide) (by decide), .update (by decide) (by decide),
      .update (by decide) (by decide), .resize (by decide) (by decide),
      .update (by decide) (by decide), fun _ h => absurd h List.not_mem_nil⟩
  have hes' : ∀ e ∈ shrunk, Samples64 e := by
    simp [shrunk, Samples64]
  refine ⟨hes, fun hall => ?_⟩
  have hkeeps := keepsSize_of_along windows_boot (fun v hv => absurd hv List.not_mem_nil)
    (fun v hv => absurd hv List.not_mem_nil) hes hes' hall
  have hsizes : sizes boot.conf.batMavCnt shrunk = [2, 2, 1] := rfl
  rw [(keepsSize_boot _).1, hsizes] at hkeeps
  exact absurd (hkeeps 1 (by decide)) (by decide)

end Battery
end AccTx
