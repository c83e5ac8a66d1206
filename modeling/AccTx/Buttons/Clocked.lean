/-
# The buttons on the clock

`pb_init` starts `tim_pb`, a periodic timer of 30 ticks, whose function `pb_timer_cb` is called in
the tick interrupt and scans the buttons.  Here the whole system runs on the clock of the kernel:
the ticks, the threads and the other interrupts, and the levels of the button pins, which may
change at any time.

A run of it is a run of the application in which `pb_sts_update` samples the pins at every
thirtieth tick and at no other time (`scheduled`, `clocked_run`).  So a button that is pressed alone
for sixty ticks, from a state in which none is, has its `pb_evt` called exactly once
(`press_answered`), whatever the threads do to the timers meanwhile.

A frequency button has `rt_thread_delay` called in the interrupt.  It puts to sleep the thread that
runs there (`sleeps`), and so starts a timer, but not this one.
-/

import AccTx.Buttons.Runs
import AccTx.Kernel.Schedule

namespace AccTx
namespace Buttons

open Firmware Effect Control Kernel

/-- The timer `tim_pb`. -/
def TIM_PB : ℕ := 0

/-- The timer of a thread. -/
abbrev ThreadTimer := { t : ℕ // t ≠ TIM_PB }

/-- The rest of the system: the application, the levels of the button pins, and the timer of the
thread that runs. -/
structure Panel where
  machine : Machine
  pins : PbPins
  current : ThreadTimer

/-- The calls of `rt_thread_delay` since the machine `m`, as calls of `timer.c`. -/
def sleeps (t : ThreadTimer) (m m' : Machine) : List TimerCall :=
  (m'.calls.take (m'.calls.length - m.calls.length)).reverse.flatMap fun
    | .rtThreadDelay tick => [.stop t, .setTime t tick, .start t]
    | _ => []

/-- `pb_timer_cb`, and `rt_thread_timeout` for the timers of the threads. -/
def timeouts (env : Env) : TimeoutFunc Panel := fun t w =>
  if t = TIM_PB then
    match (pbStsUpdate env w.pins).run w.machine with
    | .ok _ m => some ({ w with machine := m }, sleeps w.current w.machine m)
    | .error _ _ => none
  else some (w, [])

/-- What happens to the system: a tick is counted, a thread calls `timer.c`, another thread runs,
the pins change, or the application does something in a thread or in another interrupt. -/
inductive PanelEvent
  | tick
  | call (call : TimerCall)
  | switch (thread : ThreadTimer)
  | pins (pins : PbPins)
  | app (e : Event)

def PanelEvent.kernel (env : Env) : PanelEvent → KernelEvent Panel
  | .tick => .tick
  | .call c => .call c
  | .switch thread => .other fun w => some { w with current := thread }
  | .pins levels => .other fun w => some { w with pins := levels }
  | .app e => .other fun w =>
    match (step env e).run w.machine with
    | .ok _ m => some { w with machine := m }
    | .error _ _ => none

/-- The events of the application in a run: those of the threads, and a scan of the pins, as they
are then, at every thirtieth tick after the first `j` ones. -/
def scheduled (j : ℕ) (pins : PbPins) : List PanelEvent → List Event
  | [] => []
  | .tick :: es =>
    if 30 ∣ j + 1 then .scan pins :: scheduled (j + 1) pins es else scheduled (j + 1) pins es
  | .pins pins' :: es => scheduled j pins' es
  | .app e :: es => e :: scheduled j pins es
  | .call _ :: es | .switch _ :: es => scheduled j pins es

/-- The events of a thread that leave `tim_pb` alone. -/
def PanelEvent.Leaves : PanelEvent → Prop
  | .call c => c.timer ≠ TIM_PB
  | .tick | .switch _ | .pins _ | .app _ => True

variable {env : Env} {n f j s fuel : ℕ} {k k' : Ticks Panel} {pins : PbPins}
  {startOk : List Call → Bool}

/-! ### The scans -/

theorem sleeps_timer {t : ThreadTimer} {m m' : Machine} {call : TimerCall}
    (h : call ∈ sleeps t m m') : call.timer = t := by
  obtain ⟨c, -, hc⟩ := List.mem_flatMap.1 h
  cases c with
  | rtThreadDelay tick =>
    simp only [List.mem_cons, List.not_mem_nil, or_false] at hc
    rcases hc with rfl | rfl | rfl <;> rfl
  | freqOpt | srHwtStart | srHwtStop => cases hc

/-- The scan puts a thread to sleep, and leaves its own timer alone. -/
theorem leftByFuncs_timeouts : LeftByFuncs TIM_PB (timeouts env) := by
  intro u w w' calls h call hcall
  unfold timeouts at h
  split at h
  · split at h
    · obtain ⟨-, rfl⟩ := Prod.mk.inj (Option.some_inj.1 h)
      rw [sleeps_timer hcall]
      exact w.current.2
    · cases h
  · obtain ⟨-, rfl⟩ := Prod.mk.inj (Option.some_inj.1 h)
    cases hcall

/-- What the functions do to the application. -/
theorem timeouts_eq_some {t : ℕ} {w w' : Panel} {calls : List TimerCall}
    (h : timeouts env t w = some (w', calls)) : w'.pins = w.pins ∧
      if t = TIM_PB then (pbStsUpdate env w.pins).run w.machine = .ok () w'.machine
      else w' = w := by
  unfold timeouts at h
  split at h
  · rename_i ht
    split at h
    · rename_i m hm
      obtain ⟨rfl, -⟩ := Prod.mk.inj (Option.some_inj.1 h)
      exact ⟨rfl, by rw [if_pos ht]; exact hm⟩
    · cases h
  · rename_i ht
    obtain ⟨rfl, -⟩ := Prod.mk.inj (Option.some_inj.1 h)
    exact ⟨rfl, by rw [if_neg ht]⟩

/-- The loop of `rt_timer_check` scans the pins as often as it calls the function of `tim_pb`. -/
theorem check_scans (h : rtTimerCheck trueClock (timeouts env) fuel k = some k') :
    k'.world.pins = k.world.pins ∧
      ∃ i, k'.fired.count TIM_PB = k.fired.count TIM_PB + i ∧
        (run (step env) (List.replicate i (.scan k.world.pins))).run k.world.machine =
          .ok () k'.world.machine := by
  induction fuel generalizing k with
  | zero => simp [rtTimerCheck] at h
  | succ fuel ih =>
    rcases rtTimerCheck_succ.1 h with ⟨t, rest, -, -, k₁, he, hc⟩ | ⟨-, rfl⟩
    · obtain ⟨hpins', i, hcount', hrun'⟩ := ih hc
      obtain ⟨-, hfired, calls, hw⟩ := expire_spec he
      obtain ⟨hpins, hmachine⟩ := timeouts_eq_some hw
      rw [hpins] at hpins' hrun'
      rcases eq_or_ne t TIM_PB with rfl | hne
      · rw [if_pos rfl] at hmachine
        refine ⟨hpins', i + 1, ?_, ?_⟩
        · rw [hcount', hfired, List.count_cons_self]
          omega
        · rw [List.replicate_succ]
          exact run_cons_ok.2 ⟨_, hmachine, hrun'⟩
      · rw [if_neg hne] at hmachine
        rw [hmachine] at hrun'
        exact ⟨hpins', i, by rw [hcount', hfired, List.count_cons_of_ne hne], hrun'⟩
    · exact ⟨rfl, 0, rfl, rfl⟩

/-! ### The runs -/

/-- The state `j` ticks after `tim_pb` was started at tick `s`. -/
structure Scanning (s n j : ℕ) (k : Ticks Panel) : Prop where
  agenda : Agenda 0 k
  running : Running TIM_PB 30 (s + 30) n (j / 30) k
  ahead : k.rtTick < s + 30 + 30 * (j / 30)
  rtTick : k.rtTick = s + j

theorem PanelEvent.Leaves.kernel {e : PanelEvent} (h : e.Leaves) :
    (e.kernel env).Leaves TIM_PB := by
  cases e with
  | call c => exact h
  | tick | switch | pins | app => trivial

/-- **One event.** -/
theorem Scanning.next {e : PanelEvent} (h : Scanning s n j k) (he : e.Leaves)
    (hk : kernelNext trueClock (timeouts env) fuel (e.kernel env) k = some k') :
    Scanning s n (j + ticks [e.kernel env]) k' ∧ ∀ es,
      scheduled j k.world.pins (e :: es) = scheduled j k.world.pins [e] ++
        scheduled (j + ticks [e.kernel env]) k'.world.pins es ∧
      (run (step env) (scheduled j k.world.pins [e])).run k.world.machine =
        .ok () k'.world.machine := by
  obtain ⟨htick, f, hf, hlt⟩ :=
    h.running.next h.ahead h.agenda leftByFuncs_timeouts (PanelEvent.Leaves.kernel he) hk
  have hrt : k'.rtTick = s + (j + ticks [e.kernel env]) := by
    rw [htick, h.rtTick, Nat.add_assoc]
  have hdiv := hf.eq_div hlt hrt
  subst hdiv
  refine ⟨⟨h.agenda.next hk, hf, hlt, hrt⟩, fun es => ?_⟩
  cases e with
  | tick =>
    obtain ⟨hpins, i, hcount, hrun⟩ := check_scans hk
    have hi : n + (j + 1) / 30 = n + j / 30 + i := by
      have hc := hf.fired
      rw [hcount] at hc
      have hc₀ : (k.count trueClock).fired.count TIM_PB = n + j / 30 := h.running.fired
      rw [hc₀] at hc
      exact hc.symm
    have hone : i = if 30 ∣ j + 1 then 1 else 0 := by
      rw [Nat.succ_div] at hi
      omega
    have hpins' : k'.world.pins = k.world.pins := hpins
    rw [hpins']
    have hrun' : (run (step env) (List.replicate i (.scan k.world.pins))).run k.world.machine =
        .ok () k'.world.machine := hrun
    rw [hone] at hrun'
    rw [scheduled, scheduled]
    split
    · rename_i hd
      rw [if_pos hd] at hrun'
      exact ⟨rfl, hrun'⟩
    · rename_i hd
      rw [if_neg hd] at hrun'
      exact ⟨rfl, hrun'⟩
  | call c =>
    rw [(sameBut_call hk).world]
    exact ⟨rfl, rfl⟩
  | switch thread =>
    obtain rfl := Option.some_inj.1 hk
    exact ⟨rfl, rfl⟩
  | pins pins =>
    obtain rfl := Option.some_inj.1 hk
    exact ⟨rfl, rfl⟩
  | app e =>
    obtain ⟨w, hw, rfl⟩ := Option.map_eq_some_iff.1 hk
    have hw : (match (step env e).run k.world.machine with
      | .ok _ m => some { k.world with machine := m }
      | .error _ _ => none) = some w := hw
    split at hw
    · rename_i m hm
      obtain rfl := Option.some_inj.1 hw
      exact ⟨rfl, run_cons_ok.2 ⟨m, hm, rfl⟩⟩
    · cases hw

/-- A run from any state of the scanning. -/
theorem Scanning.run {es : List PanelEvent} (h : Scanning s n j k) (hes : ∀ e ∈ es, e.Leaves)
    (hrun : (run (kernelStep trueClock (timeouts env) fuel)
      (es.map (PanelEvent.kernel env))).run k = .ok () k') :
    Scanning s n (j + ticks (es.map (PanelEvent.kernel env))) k' ∧
      (run (step env) (scheduled j k.world.pins es)).run k.world.machine =
        .ok () k'.world.machine := by
  induction es generalizing k j with
  | nil =>
    simp only [List.map_nil, run_nil, EStateM.Result.ok.injEq, true_and] at hrun
    exact hrun ▸ ⟨h, rfl⟩
  | cons e es ih =>
    obtain ⟨k₁, h₁, h₂⟩ := run_cons_ok.1 hrun
    obtain ⟨hk₁, hnext⟩ := h.next (hes e (List.mem_cons_self ..)) (ofOption_ok.1 h₁)
    obtain ⟨hk', hrest⟩ := ih hk₁ (fun e he => hes e (List.mem_cons_of_mem _ he)) h₂
    obtain ⟨hsplit, hone⟩ := hnext es
    rw [List.map_cons, ticks_cons, ← Nat.add_assoc]
    refine ⟨hk', ?_⟩
    rw [hsplit]
    exact run_append_ok.2 ⟨_, hone, hrest⟩

/-- `rt_timer_start(tim_pb)` in `pb_init`. -/
theorem scanning_start (ha : Agenda 0 k) (hp : (k.timer TIM_PB).periodic = true)
    (hi : (k.timer TIM_PB).initTick = 30) (hs : rtTimerStart trueClock TIM_PB k = some k') :
    Scanning k.rtTick (k.fired.count TIM_PB) 0 k' ∧ k'.world = k.world := by
  obtain ⟨hrunning, htick⟩ := running_start hp (hi ▸ by decide) hs
  rw [hi] at hrunning
  exact ⟨⟨ha.start hs, hrunning, by omega, htick⟩, (sameBut_start hs).world⟩

/-- What the system does from the start of `tim_pb` on, as `main` has it: the timer is started,
then everything else happens. -/
def clocked (env : Env) (fuel : ℕ) (es : List PanelEvent) : EStateM Unit (Ticks Panel) Unit :=
  run (kernelStep tickClock (timeouts env) fuel)
    (.call (.start TIM_PB) :: es.map (PanelEvent.kernel env))

theorem clocked_true {es : List PanelEvent} (ha : Agenda 0 k)
    (hp : (k.timer TIM_PB).periodic = true) (hi : (k.timer TIM_PB).initTick = 30)
    (hrun : (clocked env fuel es).run k.wrap = .ok () k') :
    ∃ k₁ k₂, Scanning k.rtTick (k.fired.count TIM_PB) 0 k₁ ∧ k₁.world = k.world ∧
      (run (kernelStep trueClock (timeouts env) fuel)
        (es.map (PanelEvent.kernel env))).run k₁ = .ok () k₂ ∧ k₂.wrap = k' := by
  obtain ⟨k₂, hrun₂, rfl⟩ := (kernelRun_wrap ha).1 hrun
  obtain ⟨k₁, hstart, hrest⟩ := run_cons_ok.1 hrun₂
  obtain ⟨hscan, hworld⟩ := scanning_start ha hp hi (ofOption_ok.1 hstart)
  exact ⟨k₁, k₂, hscan, hworld, hrest, rfl⟩

/-- No button pressed. -/
def released : PbPins := ⟨.high, .high, .high, .high, .high⟩

/-- The system when `main` calls `pb_init`, with the timers of all threads stopped. -/
def atPbInit : Ticks Panel where
  rtTick := 2 ^ 32 - 20
  timer t := if t = TIM_PB then ⟨30, 0, true, false⟩ else ⟨0, 0, false, false⟩
  rtTimerList := []
  world := { machine := boot, pins := released, current := ⟨1, by decide⟩ }
  fired := []

/-- A tick, or what threads do to the timers and to each other. -/
def PanelEvent.Idle : PanelEvent → Prop
  | .call c => c.timer ≠ TIM_PB
  | .tick | .switch _ => True
  | .pins _ | .app _ => False

theorem PanelEvent.Idle.leaves {e : PanelEvent} (h : e.Idle) : e.Leaves := by
  cases e with
  | call c => exact h
  | tick | switch => trivial
  | pins | app => cases h

/-- While nothing else happens the pins are sampled as they are. -/
theorem scheduled_idle {es : List PanelEvent} (hes : ∀ e ∈ es, e.Idle) :
    ∃ i, (j + ticks (es.map (PanelEvent.kernel env))) / 30 = j / 30 + i ∧
      scheduled j pins es = List.replicate i (.scan pins) := by
  induction es generalizing j with
  | nil => exact ⟨0, rfl, rfl⟩
  | cons e es ih =>
    obtain ⟨i, hi, hrest⟩ :=
      @ih (j + ticks [e.kernel env]) fun e he => hes e (List.mem_cons_of_mem _ he)
    rw [List.map_cons, ticks_cons, ← Nat.add_assoc]
    have he := hes e (List.mem_cons_self ..)
    cases e with
    | tick =>
      have hdiv : (j + 1) / 30 = j / 30 + if 30 ∣ j + 1 then 1 else 0 := Nat.succ_div
      have hi' : _ = (j + 1) / 30 + i := hi
      have hrest' : scheduled (j + 1) pins es = List.replicate i (.scan pins) := hrest
      rw [scheduled]
      split
      · rename_i hd
        rw [if_pos hd] at hdiv
        refine ⟨i + 1, by omega, ?_⟩
        rw [hrest', List.replicate_succ]
      · rename_i hd
        rw [if_neg hd] at hdiv
        exact ⟨i, by omega, hrest'⟩
    | call c => exact ⟨i, hi, hrest⟩
    | switch thread => exact ⟨i, hi, hrest⟩
    | pins levels => cases he
    | app e => cases he

/-- The samples that issue nothing do nothing. -/
theorem foldl_afterIssue (l : List (Option Pb)) (m : Machine) :
    l.foldl (afterIssue startOk) m =
      l.reduceOption.foldl (fun m i => m.afterPbEvt startOk i) m := by
  induction l generalizing m with
  | nil => rfl
  | cons issue l ih =>
    cases issue with
    | none => rw [List.reduceOption_cons_of_none, List.foldl_cons, ih]; rfl
    | some i => rw [List.reduceOption_cons_of_some, List.foldl_cons, List.foldl_cons, ih]; rfl

/-- The registers of a button that stays pressed. -/
theorem foldl_next_replicate (i : Pb) (n : ℕ) :
    (List.replicate (n + 2) (keys (some i))).foldl next initial =
      { bitmapReg := keys (some i), stageReg := 0 } := by
  induction n with
  | zero =>
    simp [List.replicate_succ, next, nextStage]
  | succ n ih =>
    rw [List.replicate_succ', List.foldl_append, ih]
    simp [next, nextStage]

/-- The scans of a button that stays pressed, from registers that have seen none. -/
theorem scans_press {i : Pb} {m m' : Machine} (hm : InRange m) (hpb : m.pb = initial)
    (hpins : pressed pins = keys (some i)) (hn : 2 ≤ n)
    (hrun : (run (step (quiet startOk)) (List.replicate n (.scan pins))).run m = .ok () m') :
    m' = { m.afterPbEvt startOk i with pb := { bitmapReg := keys (some i), stageReg := 0 } } := by
  obtain ⟨n, rfl⟩ := Nat.exists_eq_add_of_le' hn
  have hmap : List.replicate (n + 2) (Event.scan pins) = (List.replicate (n + 2) pins).map .scan :=
    List.map_replicate.symm
  have hsamples : (List.replicate (n + 2) pins).map pressed =
      List.replicate (n + 2) (keys (some i)) := by
    rw [List.map_replicate, hpins]
  have hissues : (issues m.pb (List.replicate (n + 2) (keys (some i)))).reduceOption = [i] := by
    rw [issues_run (o := none) (by rw [hpb]; rfl) (by simp), if_pos ⟨hn, by rw [hpb]; rfl⟩]
  rw [hmap, run_map_events] at hrun
  have hscans := (scans_run hm (List.replicate (n + 2) pins)).symm.trans hrun
  rw [hsamples, foldl_afterIssue, hissues, hpb, foldl_next_replicate] at hscans
  exact (EStateM.Result.ok.inj hscans).2.symm

/-- **A press of sixty ticks is answered once.**  From a state whose last scans have seen no
button, one that is pressed alone, while for sixty ticks or more nothing happens but ticks and
what threads do to timers and to each other, has its `pb_evt` called exactly once. -/
theorem press_answered {i : Pb} {es es₁ : List PanelEvent} {k₁ : Ticks Panel} (ha : Agenda 0 k)
    (hp : (k.timer TIM_PB).periodic = true) (hi : (k.timer TIM_PB).initTick = 30)
    (hm : Reachable startOk k.world.machine) (hes : ∀ e ∈ es, e.Leaves)
    (hrun : (clocked (quiet startOk) fuel es).run k.wrap = .ok () k₁)
    (hpb : k₁.world.machine.pb = initial) (hpins : pressed pins = keys (some i))
    (hidle : ∀ e ∈ es₁, e.Idle)
    (hlong : 60 ≤ ticks (es₁.map (PanelEvent.kernel (quiet startOk))))
    (hpress : (run (kernelStep tickClock (timeouts (quiet startOk)) fuel)
      ((.pins pins :: es₁).map (PanelEvent.kernel (quiet startOk)))).run k₁ = .ok () k') :
    k'.world.machine = { k₁.world.machine.afterPbEvt startOk i with
      pb := { bitmapReg := keys (some i), stageReg := 0 } } := by
  obtain ⟨k₀, k₂, hscan, hworld, hrest, rfl⟩ := clocked_true ha hp hi hrun
  obtain ⟨hscan₂, hbefore⟩ := hscan.run hes hrest
  rw [hworld] at hbefore
  have hreach : Reachable startOk k₂.world.machine := by
    obtain ⟨es₀, hes₀⟩ := hm
    exact ⟨es₀ ++ _, run_append_ok.2 ⟨_, hes₀, hbefore⟩⟩
  obtain ⟨k₃, htrue, rfl⟩ := (kernelRun_wrap hscan₂.agenda).1 hpress
  have hleaves : ∀ e ∈ PanelEvent.pins pins :: es₁, e.Leaves := by
    intro e he
    rcases List.mem_cons.1 he with rfl | he
    · trivial
    · exact (hidle e he).leaves
  obtain ⟨-, hafter⟩ := hscan₂.run hleaves htrue
  obtain ⟨n, hn, hsched⟩ := @scheduled_idle (quiet startOk)
    (0 + ticks (es.map (PanelEvent.kernel (quiet startOk)))) pins es₁ hidle
  rw [scheduled, hsched] at hafter
  exact scans_press (inRange_of_reachable hreach) hpb hpins (by omega) hafter

/-- A press of `PB_OUT_EN` right after `pb_init`. -/
theorem press_answered_outEn : ∃ k₁ k', (clocked hal 3 []).run atPbInit.wrap = .ok () k₁ ∧
    (run (kernelStep tickClock (timeouts hal) 3)
      ((.pins { released with outEn := .low } :: List.replicate 60 .tick).map
        (PanelEvent.kernel hal))).run k₁ = .ok () k' ∧
      k'.world.machine = { k₁.world.machine.afterPbEvt (fun _ => true) .outEn with
        pb := { bitmapReg := keys (some .outEn), stageReg := 0 } } := by
  obtain ⟨k₁, hrun, hpb, k', hpress⟩ : ∃ k₁, (clocked hal 3 []).run atPbInit.wrap = .ok () k₁ ∧
      k₁.world.machine.pb = initial ∧ ∃ k', (run (kernelStep tickClock (timeouts hal) 3)
        ((.pins { released with outEn := .low } :: List.replicate 60 .tick).map
          (PanelEvent.kernel hal))).run k₁ = .ok () k' := ⟨_, rfl, rfl, _, rfl⟩
  have hidle : ∀ e ∈ List.replicate 60 PanelEvent.tick, e.Idle := fun e he => by
    rw [(List.mem_replicate.1 he).2]
    trivial
  exact ⟨k₁, k', hrun, hpress, press_answered (agenda_nil rfl) rfl rfl ⟨[], rfl⟩
    (fun _ he => by cases he) hrun hpb rfl hidle (by decide) hpress⟩

end Buttons
end AccTx
