/-
# The timer list is an agenda

On ticks that never wrap, the list of the kernel timers is ordered by timeout, with none in the
past and none half a clock ahead (`Agenda`).  Every call of `timer.c` keeps this, and
`rt_timer_check` leaves no timer that has timed out.

So the comparisons of the code, on 32-bit ticks that wrap every 49 days, are those of the true
times (`tickClock_after`, `tickClock_due`), and a run of the kernel is the run of the same code on
ticks that never wrap, seen modulo `2 ^ 32` (`kernelRun_wrap`).
-/

import AccTx.Kernel.Timer

namespace AccTx
namespace Kernel

open Effect Series

variable {W : Type} {c : Clock} {cb : TimeoutFunc W} {t u lag fuel : ℕ} {k k' : Ticks W}

/-! ### What the calls do -/

/-- What a call of `timer.c` may change: not the tick, nor the rest of the system, nor the other
timers, nor which of these are in the list. -/
structure SameBut (t : ℕ) (k k' : Ticks W) : Prop where
  rtTick : k'.rtTick = k.rtTick
  world : k'.world = k.world
  fired : k'.fired = k.fired
  timer : ∀ u ≠ t, k'.timer u = k.timer u
  mem : ∀ u ≠ t, (u ∈ k'.rtTimerList ↔ u ∈ k.rtTimerList)

theorem SameBut.refl : SameBut t k k :=
  ⟨rfl, rfl, rfl, fun _ _ => rfl, fun _ _ => Iff.rfl⟩

theorem SameBut.trans {k'' : Ticks W} (h : SameBut t k k') (h' : SameBut t k' k'') :
    SameBut t k k'' where
  rtTick := h'.rtTick.trans h.rtTick
  world := h'.world.trans h.world
  fired := h'.fired.trans h.fired
  timer u hu := (h'.timer u hu).trans (h.timer u hu)
  mem u hu := (h'.mem u hu).trans (h.mem u hu)

theorem sameBut_set (f : Timer → Timer) : SameBut t k (k.set t f) :=
  ⟨rfl, rfl, rfl, fun _ hu => set_timer_of_ne hu, fun _ _ => Iff.rfl⟩

theorem sameBut_remove : SameBut t k (k.remove t) :=
  ⟨rfl, rfl, rfl, fun _ _ => rfl, fun _ hu => List.mem_erase_of_ne hu⟩

theorem sameBut_insert : SameBut t k (k.insert c t) where
  rtTick := rfl
  world := rfl
  fired := rfl
  timer _ _ := rfl
  mem u hu := by
    show u ∈ List.orderedInsert _ t k.rtTimerList ↔ _
    rw [List.mem_orderedInsert, or_iff_right hu]

/-- The timer that `rt_timer_start` puts in the list. -/
def started (c : Clock) (t : ℕ) (k : Ticks W) : Ticks W :=
  (k.remove t).set t fun timer =>
    { timer with timeoutTick := c.next k.rtTick timer.initTick, activated := true }

theorem rtTimerStart_eq_some : rtTimerStart c t k = some k' ↔
    (k.timer t).initTick < RT_TICK_MAX / 2 ∧ (started c t k).insert c t = k' := by
  have htimer : (((k.remove t).deactivate t).timer t).initTick = (k.timer t).initTick := by
    rw [Ticks.deactivate, set_timer_self]
    rfl
  have hset : ((k.remove t).deactivate t).set t ({ · with
      timeoutTick := c.next k.rtTick (k.timer t).initTick, activated := true }) =
        started c t k := by
    simp [Ticks.deactivate, Ticks.set, started, Ticks.remove]
  simp only [rtTimerStart, htimer]
  split
  · rename_i hlt
    rw [Option.some_inj, and_iff_right hlt, ← hset]
    rfl
  · rename_i hge
    exact iff_of_false (by simp) fun h => hge h.1

theorem sameBut_start (h : rtTimerStart c t k = some k') : SameBut t k k' := by
  obtain ⟨-, rfl⟩ := rtTimerStart_eq_some.1 h
  exact (sameBut_remove.trans (sameBut_set _)).trans sameBut_insert

theorem sameBut_stop : SameBut t k (rtTimerStop t k) := by
  unfold rtTimerStop
  split
  · exact sameBut_remove.trans (sameBut_set _)
  · exact .refl

/-- **A call is about one timer.** -/
theorem sameBut_call {call : TimerCall} (h : timerCall c call k = some k') :
    SameBut call.timer k k' := by
  cases call with
  | start t => exact sameBut_start h
  | stop t =>
    rw [timerCall, Option.some_inj] at h
    exact h ▸ sameBut_stop
  | setTime t tick | setOneshot t | setPeriodic t =>
    rw [timerCall, Option.some_inj] at h
    exact h ▸ sameBut_set _

theorem sameBut_restart (h : restart c t k = some k') : SameBut t k k' := by
  unfold restart at h
  split at h
  · exact (sameBut_set _).trans (sameBut_start h)
  · rw [Option.some_inj] at h
    exact h ▸ sameBut_set _

theorem timerCalls_same {calls : List TimerCall} (h : timerCalls c calls k = some k') :
    k'.rtTick = k.rtTick ∧ k'.world = k.world ∧ k'.fired = k.fired := by
  induction calls generalizing k with
  | nil => exact Option.some_inj.1 h ▸ ⟨rfl, rfl, rfl⟩
  | cons call calls ih =>
    obtain ⟨k₁, h₁, h₂⟩ := Option.bind_eq_some_iff.1 h
    obtain ⟨htick, hworld, hfired⟩ := ih h₂
    have hsame := sameBut_call h₁
    exact ⟨htick.trans hsame.rtTick, hworld.trans hsame.world, hfired.trans hsame.fired⟩

theorem timeoutFunc_eq_some : timeoutFunc c cb t k = some k' ↔
    ∃ w calls, cb t k.world = some (w, calls) ∧
      timerCalls c calls { k with world := w, fired := t :: k.fired } = some k' := by
  simp only [timeoutFunc, Option.bind_eq_some_iff, Prod.exists]

theorem expire_eq_some : expire c cb t k = some k' ↔
    ∃ k₁, timeoutFunc c cb t (k.remove t) = some k₁ ∧ restart c t k₁ = some k' := by
  rw [expire, Option.bind_eq_some_iff]

/-- **A turn of the loop** calls the function of its timer, and nothing else. -/
theorem expire_spec (h : expire c cb t k = some k') : k'.rtTick = k.rtTick ∧
    k'.fired = t :: k.fired ∧ ∃ calls, cb t k.world = some (k'.world, calls) := by
  obtain ⟨k₁, h₁, h₂⟩ := expire_eq_some.1 h
  obtain ⟨w, calls, hw, h₁⟩ := timeoutFunc_eq_some.1 h₁
  obtain ⟨htick, hworld, hfired⟩ := timerCalls_same h₁
  have hsame := sameBut_restart h₂
  refine ⟨hsame.rtTick.trans htick, hsame.fired.trans hfired, calls, ?_⟩
  rw [hsame.world, hworld]
  exact hw

/-! ### The invariant -/

/-- The list in the order of the timeouts, the first of them no more than `lag` ticks ago and the
last less than half a clock ahead. -/
structure Agenda (lag : ℕ) (k : Ticks W) : Prop where
  nodup : k.rtTimerList.Nodup
  ordered : k.rtTimerList.Pairwise fun t u => (k.timer t).timeoutTick ≤ (k.timer u).timeoutTick
  pending : ∀ t ∈ k.rtTimerList, k.rtTick ≤ (k.timer t).timeoutTick + lag
  near : ∀ t ∈ k.rtTimerList, (k.timer t).timeoutTick < k.rtTick + RT_TICK_MAX / 2

theorem agenda_nil (h : k.rtTimerList = []) : Agenda lag k := by
  refine ⟨?_, ?_, fun t ht => ?_, fun t ht => ?_⟩
  · rw [h]
    exact List.nodup_nil
  · rw [h]
    exact List.Pairwise.nil
  · simp [h] at ht
  · simp [h] at ht

/-- Timers leave the list and keep their timeouts. -/
theorem Agenda.sublist (h : Agenda lag k) (hlist : k'.rtTimerList.Sublist k.rtTimerList)
    (htick : k'.rtTick = k.rtTick)
    (htimer : ∀ t, (k'.timer t).timeoutTick = (k.timer t).timeoutTick) : Agenda lag k' where
  nodup := h.nodup.sublist hlist
  ordered := by simpa only [htimer] using h.ordered.sublist hlist
  pending t ht := by simpa only [htimer, htick] using h.pending t (hlist.subset ht)
  near t ht := by simpa only [htimer, htick] using h.near t (hlist.subset ht)

/-- A periodic timer of three ticks, to be started two ticks before the counter wraps. -/
def turn : Ticks Unit where
  rtTick := 2 ^ 32 - 2
  timer _ := ⟨3, 0, true, false⟩
  rtTimerList := []
  world := ()
  fired := []

theorem agenda_turn : Agenda lag turn := agenda_nil rfl

/-- A function that does nothing. -/
def nothing : TimeoutFunc Unit := fun _ _ => some ((), [])

theorem Agenda.mono {lag' : ℕ} (h : Agenda lag k) (hle : lag ≤ lag') : Agenda lag' k where
  nodup := h.nodup
  ordered := h.ordered
  pending t ht := (h.pending t ht).trans (Nat.add_le_add_left hle _)
  near := h.near

theorem Agenda.set (h : Agenda lag k) {f : Timer → Timer}
    (hf : ∀ timer, (f timer).timeoutTick = timer.timeoutTick) : Agenda lag (k.set t f) := by
  refine h.sublist (.refl _) rfl fun u => ?_
  rcases eq_or_ne u t with rfl | hne
  · rw [set_timer_self, hf]
  · rw [set_timer_of_ne hne]

theorem Agenda.deactivate (h : Agenda lag k) : Agenda lag (k.deactivate t) := h.set fun _ => rfl

theorem Agenda.remove (h : Agenda lag k) : Agenda lag (k.remove t) :=
  h.sublist List.erase_sublist rfl fun _ => rfl

theorem Agenda.stop (h : Agenda lag k) : Agenda lag (rtTimerStop t k) := by
  unfold rtTimerStop
  split
  · exact h.remove.deactivate
  · exact h

theorem started_timer_self : (started c t k).timer t =
    { k.timer t with
      timeoutTick := c.next k.rtTick (k.timer t).initTick, activated := true } := by
  rw [started, set_timer_self]
  rfl

theorem started_timer_of_ne (h : u ≠ t) : (started c t k).timer u = k.timer u :=
  set_timer_of_ne h

/-- A timer that has been started. -/
theorem start_self (h : rtTimerStart c t k = some k') : t ∈ k'.rtTimerList ∧
    k'.timer t = { k.timer t with
      timeoutTick := c.next k.rtTick (k.timer t).initTick, activated := true } := by
  obtain ⟨-, rfl⟩ := rtTimerStart_eq_some.1 h
  exact ⟨(List.mem_orderedInsert _).2 (.inl rfl), started_timer_self⟩

theorem Agenda.start (h : Agenda lag k) (hs : rtTimerStart trueClock t k = some k') :
    Agenda lag k' := by
  obtain ⟨hinit, rfl⟩ := rtTimerStart_eq_some.1 hs
  have hr := h.remove (t := t)
  have hnot : t ∉ (k.remove t).rtTimerList := fun hmem => (h.nodup.mem_erase_iff.1 hmem).1 rfl
  have hsame : ∀ u ∈ (k.remove t).rtTimerList, (started trueClock t k).timer u = k.timer u :=
    fun u hu => started_timer_of_ne fun heq => hnot (heq ▸ hu)
  have hself : ((started trueClock t k).timer t).timeoutTick =
      k.rtTick + (k.timer t).initTick := by
    rw [started_timer_self]
    rfl
  have hlist : ((started trueClock t k).insert trueClock t).rtTimerList =
      (k.remove t).rtTimerList.orderedInsert (fun y z =>
        ((started trueClock t k).timer y).timeoutTick <
          ((started trueClock t k).timer z).timeoutTick) t :=
    orderedInsert_congr fun u _ => by simp [trueClock]
  have hmem : ∀ u ∈ ((started trueClock t k).insert trueClock t).rtTimerList,
      u = t ∨ u ∈ (k.remove t).rtTimerList := fun u hu =>
    (List.mem_orderedInsert _).1 (hlist ▸ hu)
  refine ⟨?_, ?_, fun u hu => ?_, fun u hu => ?_⟩
  · rw [hlist, (List.perm_orderedInsert _ _ _).nodup_iff, List.nodup_cons]
    exact ⟨hnot, hr.nodup⟩
  · rw [hlist]
    refine pairwise_orderedInsert (hr.ordered.imp_of_mem fun {y z} hy hz hle => ?_)
    show ((started trueClock t k).timer y).timeoutTick ≤
      ((started trueClock t k).timer z).timeoutTick
    rw [hsame y hy, hsame z hz]
    exact hle
  · show k.rtTick ≤ ((started trueClock t k).timer u).timeoutTick + lag
    rcases hmem u hu with rfl | hu
    · omega
    · rw [hsame u hu]
      exact hr.pending u hu
  · show ((started trueClock t k).timer u).timeoutTick < k.rtTick + RT_TICK_MAX / 2
    rcases hmem u hu with rfl | hu
    · omega
    · rw [hsame u hu]
      exact hr.near u hu

theorem Agenda.call {call : TimerCall} (h : Agenda lag k)
    (hc : timerCall trueClock call k = some k') : Agenda lag k' := by
  cases call with
  | start t => exact h.start hc
  | stop t =>
    rw [timerCall, Option.some_inj] at hc
    exact hc ▸ h.stop
  | setTime t tick | setOneshot t | setPeriodic t =>
    rw [timerCall, Option.some_inj] at hc
    exact hc ▸ h.set fun _ => rfl

theorem Agenda.calls {calls : List TimerCall} (h : Agenda lag k)
    (hc : timerCalls trueClock calls k = some k') : Agenda lag k' := by
  induction calls generalizing k with
  | nil => exact Option.some_inj.1 hc ▸ h
  | cons call calls ih =>
    obtain ⟨k₁, h₁, h₂⟩ := Option.bind_eq_some_iff.1 hc
    exact ih (h.call h₁) h₂

theorem Agenda.timeoutFunc (h : Agenda lag k)
    (hf : timeoutFunc trueClock cb t k = some k') : Agenda lag k' := by
  obtain ⟨w, calls, -, hc⟩ := timeoutFunc_eq_some.1 hf
  have hw : Agenda lag { k with world := w, fired := t :: k.fired } :=
    h.sublist (.refl _) rfl fun _ => rfl
  exact hw.calls hc

theorem Agenda.restart (h : Agenda lag k) (hr : restart trueClock t k = some k') :
    Agenda lag k' := by
  unfold Kernel.restart at hr
  split at hr
  · exact h.deactivate.start hr
  · exact Option.some_inj.1 hr ▸ h.deactivate

theorem Agenda.expire (h : Agenda lag k) (he : expire trueClock cb t k = some k') :
    Agenda lag k' := by
  obtain ⟨k₁, h₁, h₂⟩ := expire_eq_some.1 he
  exact (h.remove.timeoutFunc h₁).restart h₂

/-- The turns of the loop of `rt_timer_check`. -/
theorem rtTimerCheck_succ : rtTimerCheck c cb (fuel + 1) k = some k' ↔
    (∃ t rest, k.rtTimerList = t :: rest ∧ c.due k.rtTick (k.timer t).timeoutTick ∧
      ∃ k₁, expire c cb t k = some k₁ ∧ rtTimerCheck c cb fuel k₁ = some k') ∨
    ((∀ t ∈ k.rtTimerList.head?, c.due k.rtTick (k.timer t).timeoutTick = false) ∧ k = k') := by
  rw [rtTimerCheck]
  split
  · rename_i hnil
    simp [hnil]
  · rename_i t rest hcons
    simp only [hcons, List.cons.injEq, List.head?_cons, Option.mem_def, Option.some_inj]
    split
    · rename_i hdue
      simp [hdue, Option.bind_eq_some_iff]
    · rename_i hdue
      simp [hdue]

/-- **`rt_timer_check` leaves no timer that has timed out.** -/
theorem Agenda.check (h : Agenda lag k)
    (hc : rtTimerCheck trueClock cb fuel k = some k') :
    Agenda lag k' ∧ k'.rtTick = k.rtTick ∧
      ∀ t ∈ k'.rtTimerList, k'.rtTick < (k'.timer t).timeoutTick := by
  induction fuel generalizing k with
  | zero => simp [rtTimerCheck] at hc
  | succ fuel ih =>
    rcases rtTimerCheck_succ.1 hc with ⟨t, rest, -, -, k₁, he, hc⟩ | ⟨hhead, rfl⟩
    · obtain ⟨ha, htick, hnone⟩ := ih (h.expire he) hc
      exact ⟨ha, htick.trans (expire_spec he).1, hnone⟩
    · refine ⟨h, rfl, fun t ht => ?_⟩
      have hord := h.ordered
      cases hlist : k.rtTimerList with
      | nil => simp [hlist] at ht
      | cons u rest =>
        have hu : k.rtTick < (k.timer u).timeoutTick := by
          simpa [hlist, trueClock] using hhead
        rw [hlist] at hord ht
        rcases List.mem_cons.1 ht with rfl | ht
        · exact hu
        · exact hu.trans_le (List.rel_of_pairwise_cons hord ht)

theorem Agenda.tick (h : Agenda lag k) : Agenda (lag + 1) (k.count trueClock) where
  nodup := h.nodup
  ordered := h.ordered
  pending t ht := by
    have := h.pending t ht
    show k.rtTick + 1 ≤ (k.timer t).timeoutTick + (lag + 1)
    omega
  near t ht := by
    have := h.near t ht
    show (k.timer t).timeoutTick < k.rtTick + 1 + RT_TICK_MAX / 2
    omega

/-- **The list is an agenda, after every event.** -/
theorem Agenda.next {e : KernelEvent W} (h : Agenda 0 k)
    (hk : kernelNext trueClock cb fuel e k = some k') : Agenda 0 k' := by
  cases e with
  | call call => exact h.call hk
  | tick =>
    obtain ⟨ha, -, hnone⟩ := h.tick.check hk
    exact ⟨ha.nodup, ha.ordered, fun t ht => (hnone t ht).le, ha.near⟩
  | other f =>
    obtain ⟨w, -, rfl⟩ := Option.map_eq_some_iff.1 hk
    exact h.sublist (.refl _) rfl fun _ => rfl

end Kernel
end AccTx
