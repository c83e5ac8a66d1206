/-
# The kernel timers

`rt-thread/src/timer.c` and `rt_tick_increase` of `clock.c`: the timers that call the button
scan and wake the sleeping threads.  All of them are hard timers, whose functions run in the
tick interrupt, and `RT_TIMER_SKIP_LIST_LEVEL` is 1, so the skip list is one ordered list.

A timer is known by a number.  Its timeout function may do anything to the rest of the system
(`W`), and makes calls of this file, in order.  `RT_ASSERT` never returns where it fails, and
neither does a loop that does not end: both are `none` here, the loop of `rt_timer_check` for any
number of turns.

The arithmetic of `rt_tick_t` is that of a `Clock`, so that the same code can be read with ticks
that never wrap (`trueClock`).  The code's own is `tickClock`.  The functions called are recorded,
latest first, as no part of the kernel.
-/

import AccTx.Effect.Run
import AccTx.Series.Clock
import Mathlib.Algebra.GroupWithZero.Nat
import Mathlib.Logic.Function.Basic

namespace AccTx
namespace Kernel

open Effect Series

/-- `RT_TICK_MAX`. -/
def RT_TICK_MAX : ℕ := 0xffffffff

/-- What `timer.c` computes with ticks: the timeout of a timer that is started, whether a timer
in the list times out after the one to be inserted, and whether a timer has timed out. -/
structure Clock where
  next : ℕ → ℕ → ℕ
  after : ℕ → ℕ → Bool
  due : ℕ → ℕ → Bool

/-- The 32-bit ticks. -/
def tickClock : Clock where
  next tick n := (tick + n) % 2 ^ 32
  after t timer := elapsed (2 ^ 32) t timer ≠ 0 ∧ elapsed (2 ^ 32) t timer < RT_TICK_MAX / 2
  due currentTick t := elapsed (2 ^ 32) currentTick t < RT_TICK_MAX / 2

/-- Ticks that never wrap. -/
def trueClock : Clock where
  next tick n := tick + n
  after t timer := timer < t
  due currentTick t := t ≤ currentTick

/-- `struct rt_timer`: its ticks and the flags `RT_TIMER_FLAG_PERIODIC` and
`RT_TIMER_FLAG_ACTIVATED`. -/
structure Timer where
  initTick : ℕ
  timeoutTick : ℕ
  periodic : Bool
  activated : Bool

/-- `rt_tick`, the timers, `rt_timer_list`, the rest of the system, and the timers whose functions
have been called. -/
structure Ticks (W : Type) where
  rtTick : ℕ
  timer : ℕ → Timer
  rtTimerList : List ℕ
  world : W
  fired : List ℕ

/-- The calls of `rt_timer_start`, `rt_timer_stop` and `rt_timer_control`. -/
inductive TimerCall
  | start (t : ℕ)
  | stop (t : ℕ)
  | setTime (t tick : ℕ)
  | setOneshot (t : ℕ)
  | setPeriodic (t : ℕ)
  deriving DecidableEq

/-- The timer a call is about. -/
def TimerCall.timer : TimerCall → ℕ
  | .start t | .stop t | .setTime t _ | .setOneshot t | .setPeriodic t => t

/-- The timeout functions; `none` is one that does not return. -/
abbrev TimeoutFunc (W : Type) := ℕ → W → Option (W × List TimerCall)

variable {W : Type}

/-- Change the fields of one timer. -/
def Ticks.set (t : ℕ) (f : Timer → Timer) (k : Ticks W) : Ticks W :=
  { k with timer := Function.update k.timer t (f (k.timer t)) }

/-- `_rt_timer_remove`. -/
def Ticks.remove (t : ℕ) (k : Ticks W) : Ticks W :=
  { k with rtTimerList := k.rtTimerList.erase t }

/-- `timer->parent.flag &= ~RT_TIMER_FLAG_ACTIVATED`. -/
def Ticks.deactivate (t : ℕ) (k : Ticks W) : Ticks W := k.set t ({ · with activated := false })

/-- The place of a timer in the list: behind those that time out no later. -/
def Ticks.insert (c : Clock) (t : ℕ) (k : Ticks W) : Ticks W :=
  { k with
    rtTimerList := k.rtTimerList.orderedInsert
      (fun _ u => c.after (k.timer u).timeoutTick (k.timer t).timeoutTick) t }

/-- `rt_timer_start`. -/
def rtTimerStart (c : Clock) (t : ℕ) (k : Ticks W) : Option (Ticks W) :=
  let k := (k.remove t).deactivate t
  if (k.timer t).initTick < RT_TICK_MAX / 2 then
    let timeout := c.next k.rtTick (k.timer t).initTick
    some ((k.set t ({ · with timeoutTick := timeout, activated := true })).insert c t)
  else none

/-- `rt_timer_stop`; it leaves a timer alone that is not activated. -/
def rtTimerStop (t : ℕ) (k : Ticks W) : Ticks W :=
  if (k.timer t).activated then (k.remove t).deactivate t else k

/-- A call of `timer.c`; the last three are `rt_timer_control`. -/
def timerCall (c : Clock) : TimerCall → Ticks W → Option (Ticks W)
  | .start t, k => rtTimerStart c t k
  | .stop t, k => some (rtTimerStop t k)
  | .setTime t tick, k => some (k.set t ({ · with initTick := tick }))
  | .setOneshot t, k => some (k.set t ({ · with periodic := false }))
  | .setPeriodic t, k => some (k.set t ({ · with periodic := true }))

def timerCalls (c : Clock) : List TimerCall → Ticks W → Option (Ticks W)
  | [], k => some k
  | call :: calls, k => (timerCall c call k).bind (timerCalls c calls)

/-- `t->timeout_func(t->parameter)`. -/
def timeoutFunc (c : Clock) (cb : TimeoutFunc W) (t : ℕ) (k : Ticks W) : Option (Ticks W) :=
  (cb t k.world).bind fun r =>
    timerCalls c r.2 { k with world := r.1, fired := t :: k.fired }

/-- A periodic timer that its function has not stopped is started again. -/
def restart (c : Clock) (t : ℕ) (k : Ticks W) : Option (Ticks W) :=
  if (k.timer t).periodic ∧ (k.timer t).activated then rtTimerStart c t (k.deactivate t)
  else some (k.deactivate t)

/-- A turn of the loop of `rt_timer_check` for a timer that has timed out. -/
def expire (c : Clock) (cb : TimeoutFunc W) (t : ℕ) (k : Ticks W) : Option (Ticks W) :=
  (timeoutFunc c cb t (k.remove t)).bind (restart c t)

/-- The loop of `rt_timer_check`.  `none` is a loop that has not ended in `fuel` turns. -/
def rtTimerCheck (c : Clock) (cb : TimeoutFunc W) : ℕ → Ticks W → Option (Ticks W)
  | 0, _ => none
  | fuel + 1, k =>
    match k.rtTimerList with
    | [] => some k
    | t :: _ =>
      -- the tick is read again after each function; nothing changes it in the interrupt
      if c.due k.rtTick (k.timer t).timeoutTick then
        (expire c cb t k).bind (rtTimerCheck c cb fuel)
      else some k

/-- `++ rt_tick`. -/
def Ticks.count (c : Clock) (k : Ticks W) : Ticks W := { k with rtTick := c.next k.rtTick 1 }

/-- `rt_tick_increase`; the time slices of the threads are no part of this. -/
def rtTickIncrease (c : Clock) (cb : TimeoutFunc W) (fuel : ℕ) (k : Ticks W) : Option (Ticks W) :=
  rtTimerCheck c cb fuel (k.count c)

/-- What happens to the timers: a thread calls `timer.c`, a tick is counted, or anything happens
to the rest of the system. -/
inductive KernelEvent (W : Type)
  | call (call : TimerCall)
  | tick
  | other (f : W → Option W)

def kernelNext (c : Clock) (cb : TimeoutFunc W) (fuel : ℕ) :
    KernelEvent W → Ticks W → Option (Ticks W)
  | .call call, k => timerCall c call k
  | .tick, k => rtTickIncrease c cb fuel k
  | .other f, k => (f k.world).map fun w => { k with world := w }

/-- One event, as a program that may never return. -/
def kernelStep (c : Clock) (cb : TimeoutFunc W) (fuel : ℕ) (e : KernelEvent W) :
    EStateM Unit (Ticks W) Unit :=
  ofOption (kernelNext c cb fuel e)

/-- The ticks counted in a run. -/
def ticks : List (KernelEvent W) → ℕ
  | [] => 0
  | .tick :: es => ticks es + 1
  | _ :: es => ticks es

/-! ### Fields -/

section
variable {t u : ℕ} {f : Timer → Timer} {k : Ticks W}

@[simp] theorem set_rtTick : (k.set t f).rtTick = k.rtTick := rfl

@[simp] theorem set_rtTimerList : (k.set t f).rtTimerList = k.rtTimerList := rfl

@[simp] theorem set_world : (k.set t f).world = k.world := rfl

@[simp] theorem set_fired : (k.set t f).fired = k.fired := rfl

@[simp] theorem set_timer_self : (k.set t f).timer t = f (k.timer t) := Function.update_self ..

@[simp] theorem set_timer_of_ne (h : u ≠ t) : (k.set t f).timer u = k.timer u :=
  Function.update_of_ne h ..

end

end Kernel
end AccTx
