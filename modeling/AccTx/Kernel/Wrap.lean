/-
# The tick counter wraps

`rt_tick` is a 32-bit counter, so a timeout may be a smaller number than the tick it is after, and
the code compares two ticks by their difference.  In an agenda the differences are small, so the
comparisons are those of the true times (`tickClock_after`, `tickClock_due`).

Hence a run of the kernel is a run of the same code on ticks that never wrap, seen modulo
`2 ^ 32` (`kernelRun_wrap`): nothing happens when the counter starts again from zero.
-/

import AccTx.Kernel.Agenda

namespace AccTx
namespace Kernel

open Effect Series

variable {W : Type} {cb : TimeoutFunc W} {t u fuel : ℕ} {k k' : Ticks W}

def Timer.wrap (timer : Timer) : Timer :=
  { timer with timeoutTick := timer.timeoutTick % 2 ^ 32 }

/-- The state with 32-bit ticks. -/
def Ticks.wrap (k : Ticks W) : Ticks W :=
  { k with rtTick := k.rtTick % 2 ^ 32, timer := fun t => (k.timer t).wrap }

theorem wrap_set {f : Timer → Timer} {g : Timer → Timer}
    (h : ∀ timer, (f timer).wrap = g timer.wrap) : (k.set t f).wrap = k.wrap.set t g := by
  have htimer : (fun u => ((k.set t f).timer u).wrap) = (k.wrap.set t g).timer := by
    funext u
    rcases eq_or_ne u t with rfl | hne
    · rw [set_timer_self, set_timer_self, h]
      rfl
    · rw [set_timer_of_ne hne, set_timer_of_ne hne]
      rfl
  rw [Ticks.wrap, htimer]
  rfl

/-- A change that leaves the timeout alone. -/
theorem set_wrap {f : Timer → Timer} (h : ∀ timer, (f timer).wrap = f timer.wrap) :
    k.wrap.set t f = (k.set t f).wrap :=
  (wrap_set h).symm

theorem wrap_started : (started trueClock t k).wrap = started tickClock t k.wrap := by
  have hnext : ∀ n, (k.rtTick + n) % 2 ^ 32 = (k.rtTick % 2 ^ 32 + n) % 2 ^ 32 := fun n =>
    (Nat.mod_add_mod ..).symm
  refine wrap_set fun timer => ?_
  simp only [Timer.wrap, trueClock, tickClock, hnext]
  rfl

/-- **Which of two timers is later.** -/
theorem tickClock_after {now a b : ℕ} (ha : now ≤ a + 1) (ha' : a < now + RT_TICK_MAX / 2)
    (hb : now ≤ b) (hb' : b < now + RT_TICK_MAX / 2) :
    tickClock.after (a % 2 ^ 32) (b % 2 ^ 32) = trueClock.after a b := by
  simp only [RT_TICK_MAX] at ha' hb'
  have hlt : elapsed (2 ^ 32) (a % 2 ^ 32) (b % 2 ^ 32) < RT_TICK_MAX / 2 ↔ b ≤ a :=
    elapsed_lt_iff (by decide) (by simp only [RT_TICK_MAX]; omega)
      (by simp only [RT_TICK_MAX]; omega)
  have heq : elapsed (2 ^ 32) (a % 2 ^ 32) (b % 2 ^ 32) = 0 ↔ a = b :=
    elapsed_eq_zero_iff (by omega) (by omega)
  simp only [tickClock, trueClock, ne_eq, hlt, heq, decide_eq_decide]
  omega

/-- **Whether a timer has timed out.** -/
theorem tickClock_due {now a : ℕ} (ha : now ≤ a + 1) (ha' : a < now + RT_TICK_MAX / 2) :
    tickClock.due (now % 2 ^ 32) (a % 2 ^ 32) = trueClock.due now a := by
  simp only [RT_TICK_MAX] at ha'
  have hlt : elapsed (2 ^ 32) (now % 2 ^ 32) (a % 2 ^ 32) < RT_TICK_MAX / 2 ↔ a ≤ now :=
    elapsed_lt_iff (by decide) (by simp only [RT_TICK_MAX]; omega)
      (by simp only [RT_TICK_MAX]; omega)
  simp only [tickClock, trueClock, hlt]

theorem wrap_insert (h : ∀ u ∈ k.rtTimerList,
    tickClock.after ((k.timer u).timeoutTick % 2 ^ 32) ((k.timer t).timeoutTick % 2 ^ 32) =
      trueClock.after (k.timer u).timeoutTick (k.timer t).timeoutTick) :
    k.wrap.insert tickClock t = (k.insert trueClock t).wrap := by
  have hlist : (k.wrap.insert tickClock t).rtTimerList =
      (k.insert trueClock t).rtTimerList :=
    orderedInsert_congr fun u hu => by
      show tickClock.after _ _ = true ↔ trueClock.after _ _ = true
      rw [← h u hu]
      rfl
  show { k.wrap with rtTimerList := (k.wrap.insert tickClock t).rtTimerList } = _
  rw [hlist]
  rfl

/-! ### The calls -/

theorem wrap_start (h : Agenda 1 k) :
    rtTimerStart tickClock t k.wrap = (rtTimerStart trueClock t k).map Ticks.wrap := by
  refine Option.ext fun k' => ?_
  simp only [Option.map_eq_some_iff, rtTimerStart_eq_some, ← wrap_started]
  have hinit : (k.wrap.timer t).initTick = (k.timer t).initTick := rfl
  rw [hinit]
  by_cases hlt : (k.timer t).initTick < RT_TICK_MAX / 2
  · have hself : ((started trueClock t k).timer t).timeoutTick =
        k.rtTick + (k.timer t).initTick := by
      rw [started_timer_self]
      rfl
    have hins := wrap_insert (t := t) (k := started trueClock t k) fun u hu => by
      have hmem := (h.nodup.mem_erase_iff.1 hu)
      rw [hself, started_timer_of_ne hmem.1]
      exact tickClock_after (h.pending u hmem.2) (h.near u hmem.2) (by omega) (by omega)
    simp only [hins, hlt, true_and, exists_eq_left']
  · simp only [hlt, false_and, false_iff, not_exists, not_false_iff, implies_true]

theorem wrap_deactivate : k.wrap.deactivate t = (k.deactivate t).wrap :=
  set_wrap fun _ => rfl

theorem wrap_stop : rtTimerStop t k.wrap = (rtTimerStop t k).wrap := by
  have hactive : (k.wrap.timer t).activated = (k.timer t).activated := rfl
  unfold rtTimerStop
  rw [hactive]
  split
  · exact wrap_deactivate (k := k.remove t)
  · rfl

theorem wrap_call {call : TimerCall} (h : Agenda 1 k) :
    timerCall tickClock call k.wrap = (timerCall trueClock call k).map Ticks.wrap := by
  cases call with
  | start t => exact wrap_start h
  | stop t => exact congrArg some wrap_stop
  | setTime t tick | setOneshot t | setPeriodic t =>
    exact congrArg some (set_wrap fun _ => rfl)

/-- The steps of two computations in parallel. -/
theorem bind_wrap {f g : Ticks W → Option (Ticks W)} {x : Option (Ticks W)}
    (h : ∀ k, x = some k → f k.wrap = (g k).map Ticks.wrap) :
    (x.map Ticks.wrap).bind f = (x.bind g).map Ticks.wrap := by
  cases x with
  | none => rfl
  | some k => exact h k rfl

theorem wrap_calls {calls : List TimerCall} (h : Agenda 1 k) :
    timerCalls tickClock calls k.wrap = (timerCalls trueClock calls k).map Ticks.wrap := by
  induction calls generalizing k with
  | nil => rfl
  | cons call calls ih =>
    rw [timerCalls, timerCalls, wrap_call h]
    exact bind_wrap fun k₁ h₁ => ih (h.call h₁)

theorem wrap_timeoutFunc (h : Agenda 1 k) :
    timeoutFunc tickClock cb t k.wrap = (timeoutFunc trueClock cb t k).map Ticks.wrap := by
  unfold timeoutFunc
  show (cb t k.world).bind _ = _
  cases cb t k.world with
  | none => rfl
  | some r =>
    have hr : Agenda 1 { k with world := r.1, fired := t :: k.fired } :=
      h.sublist (.refl _) rfl fun _ => rfl
    exact wrap_calls hr

theorem wrap_restart (h : Agenda 1 k) :
    restart tickClock t k.wrap = (restart trueClock t k).map Ticks.wrap := by
  have hflags : (k.wrap.timer t).periodic = (k.timer t).periodic ∧
      (k.wrap.timer t).activated = (k.timer t).activated := ⟨rfl, rfl⟩
  unfold restart
  rw [hflags.1, hflags.2, wrap_deactivate]
  split
  · exact wrap_start h.deactivate
  · rfl

theorem wrap_expire (h : Agenda 1 k) :
    expire tickClock cb t k.wrap = (expire trueClock cb t k).map Ticks.wrap := by
  have hremove : k.wrap.remove t = (k.remove t).wrap := rfl
  rw [expire, expire, hremove, wrap_timeoutFunc h.remove]
  exact bind_wrap fun k₁ h₁ => wrap_restart (h.remove.timeoutFunc h₁)

theorem wrap_check (h : Agenda 1 k) :
    rtTimerCheck tickClock cb fuel k.wrap =
      (rtTimerCheck trueClock cb fuel k).map Ticks.wrap := by
  induction fuel generalizing k with
  | zero => rfl
  | succ fuel ih =>
    have hlist : k.wrap.rtTimerList = k.rtTimerList := rfl
    rw [rtTimerCheck, rtTimerCheck, hlist]
    cases hk : k.rtTimerList with
    | nil => rfl
    | cons t rest =>
      have ht : t ∈ k.rtTimerList := hk ▸ List.mem_cons_self ..
      have hdue : tickClock.due k.wrap.rtTick (k.wrap.timer t).timeoutTick =
          trueClock.due k.rtTick (k.timer t).timeoutTick :=
        tickClock_due (h.pending t ht) (h.near t ht)
      simp only [hdue]
      split
      · rw [wrap_expire h]
        exact bind_wrap fun k₁ h₁ => ih (h.expire h₁)
      · rfl

theorem wrap_count : k.wrap.count tickClock = (k.count trueClock).wrap := by
  have htick : (k.rtTick % 2 ^ 32 + 1) % 2 ^ 32 = (k.rtTick + 1) % 2 ^ 32 := Nat.mod_add_mod ..
  show { k.wrap with rtTick := (k.rtTick % 2 ^ 32 + 1) % 2 ^ 32 } = _
  rw [htick]
  rfl

theorem wrap_next {e : KernelEvent W} (h : Agenda 0 k) :
    kernelNext tickClock cb fuel e k.wrap =
      (kernelNext trueClock cb fuel e k).map Ticks.wrap := by
  cases e with
  | call call => exact wrap_call (h.mono (Nat.zero_le _))
  | tick =>
    rw [kernelNext, kernelNext, rtTickIncrease, wrap_count]
    exact wrap_check h.tick
  | other f =>
    rw [kernelNext, kernelNext]
    show (f k.world).map _ = _
    cases f k.world <;> rfl

/-- **The kernel does not see its tick counter wrap.**  From an agenda, the runs on 32-bit ticks
are those of the same code on ticks that never wrap, seen modulo `2 ^ 32`: they call the same
functions in the same order, and where the one never returns neither does the other. -/
theorem kernelRun_wrap {es : List (KernelEvent W)} (h : Agenda 0 k) :
    (run (kernelStep tickClock cb fuel) es).run k.wrap = .ok () k' ↔
      ∃ k₁, (run (kernelStep trueClock cb fuel) es).run k = .ok () k₁ ∧ k₁.wrap = k' := by
  refine run_maps (J := Agenda 0) (fun e k k' h hk => ?_) (fun e k k' h => ?_) h
  · exact h.next (ofOption_ok.1 hk)
  · simp only [kernelStep, ofOption_ok, wrap_next h, Option.map_eq_some_iff]

/-- Seven ticks from two ticks before the turn. -/
theorem kernelRun_wrap_turn : ∃ k', (run (kernelStep tickClock nothing 3)
    (.call (.start 0) :: List.replicate 7 .tick)).run turn.wrap = .ok () k' ∧
      k'.rtTick = 5 ∧ k'.fired = [0, 0] := by
  obtain ⟨k₁, hrun, htick, hfired⟩ : ∃ k₁, (run (kernelStep trueClock nothing 3)
      (.call (.start 0) :: List.replicate 7 .tick)).run turn = .ok () k₁ ∧
        k₁.rtTick = 2 ^ 32 + 5 ∧ k₁.fired = [0, 0] := ⟨_, rfl, rfl, rfl⟩
  refine ⟨k₁.wrap, (kernelRun_wrap agenda_turn).2 ⟨k₁, hrun, rfl⟩, ?_, hfired⟩
  show k₁.rtTick % 2 ^ 32 = 5
  omega

end Kernel
end AccTx
