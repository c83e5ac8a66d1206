/-
# When a timer fires

A timer that is started and then left alone by the threads and by the other timeout functions.
If it is periodic, `n` ticks after the start its function has been called `n / p` times, for the
period `p` (`periodic_fires`): there is no drift, and no call is lost where the tick counter
wraps.  If not, its function is called once: so does `rt_thread_delay` wake its thread, at the
`n`-th tick, or at the first one when `n` is zero (`rtThreadSleep_wakes`).

A periodic timer fires at the ticks `D + p * f` (`Running`), each turn of `rt_timer_check`
adding one to `f`, and the tick counted last lies between two of these.
-/

import AccTx.Kernel.Wrap

namespace AccTx
namespace Kernel

open Effect Series

variable {W : Type} {c : Clock} {cb : TimeoutFunc W} {t u fuel : ℕ} {k k' : Ticks W}

/-! ### A timer that is left alone -/

/-- The timeout functions make no call about the timer. -/
def LeftByFuncs (t : ℕ) (cb : TimeoutFunc W) : Prop :=
  ∀ u w w' calls, cb u w = some (w', calls) → ∀ call ∈ calls, call.timer ≠ t

theorem leftByFuncs_nothing : LeftByFuncs t nothing := by
  intro u w w' calls h call hcall
  obtain ⟨-, rfl⟩ := Prod.mk.inj (Option.some_inj.1 h)
  cases hcall

/-- A thread makes no call about the timer. -/
def KernelEvent.Leaves (t : ℕ) : KernelEvent W → Prop
  | .call c => c.timer ≠ t
  | .tick | .other _ => True

/-- The timer, its place in the list and the tick are the same. -/
structure Left (t : ℕ) (k k' : Ticks W) : Prop where
  rtTick : k'.rtTick = k.rtTick
  timer : k'.timer t = k.timer t
  mem : t ∈ k'.rtTimerList ↔ t ∈ k.rtTimerList

theorem SameBut.left (h : SameBut u k k') (hne : t ≠ u) : Left t k k' :=
  ⟨h.rtTick, h.timer t hne, h.mem t hne⟩

theorem Left.trans {k'' : Ticks W} (h : Left t k k') (h' : Left t k' k'') : Left t k k'' :=
  ⟨h'.rtTick.trans h.rtTick, h'.timer.trans h.timer, h'.mem.trans h.mem⟩

theorem left_calls {calls : List TimerCall} (h : timerCalls c calls k = some k')
    (hne : ∀ call ∈ calls, call.timer ≠ t) : Left t k k' := by
  induction calls generalizing k with
  | nil => exact Option.some_inj.1 h ▸ ⟨rfl, rfl, Iff.rfl⟩
  | cons call calls ih =>
    obtain ⟨k₁, h₁, h₂⟩ := Option.bind_eq_some_iff.1 h
    have hleft := ih h₂ fun call hc => hne call (List.mem_cons_of_mem _ hc)
    have hcall := (hne call (List.mem_cons_self ..)).symm
    exact ((sameBut_call h₁).left hcall).trans hleft

theorem left_timeoutFunc (hcb : LeftByFuncs t cb) (h : timeoutFunc c cb u k = some k') :
    Left t k k' := by
  obtain ⟨w, calls, hw, hc⟩ := timeoutFunc_eq_some.1 h
  have hleft := left_calls hc (hcb u _ w calls hw)
  exact ⟨hleft.rtTick, hleft.timer, hleft.mem⟩

/-- The turn of another timer. -/
theorem left_expire (hcb : LeftByFuncs t cb) (hne : t ≠ u) (h : expire c cb u k = some k') :
    Left t k k' ∧ k'.fired.count t = k.fired.count t := by
  obtain ⟨k₁, h₁, h₂⟩ := expire_eq_some.1 h
  have hremove : Left t k (k.remove u) := sameBut_remove.left hne
  have hrestart := (sameBut_restart h₂).left hne
  refine ⟨(hremove.trans (left_timeoutFunc hcb h₁)).trans hrestart, ?_⟩
  rw [(expire_spec h).2.1, List.count_cons_of_ne hne.symm]

/-- Its own turn up to the end of the function. -/
theorem self_expire (hcb : LeftByFuncs t cb) (hnodup : k.rtTimerList.Nodup)
    (h : expire c cb t k = some k') : ∃ k₁, restart c t k₁ = some k' ∧ k₁.rtTick = k.rtTick ∧
      k₁.timer t = k.timer t ∧ t ∉ k₁.rtTimerList := by
  obtain ⟨k₁, h₁, h₂⟩ := expire_eq_some.1 h
  have hleft := left_timeoutFunc hcb h₁
  refine ⟨k₁, h₂, hleft.rtTick, hleft.timer, fun hmem => ?_⟩
  exact (hnodup.mem_erase_iff.1 (hleft.mem.1 hmem)).1 rfl

/-! ### Periodic timers -/

/-- A periodic timer that has been called `f` times since a first timeout at `D`. -/
structure Running (t p D n f : ℕ) (k : Ticks W) : Prop where
  mem : t ∈ k.rtTimerList
  timer : k.timer t = ⟨p, D + p * f, true, true⟩
  fired : k.fired.count t = n + f
  recent : f = 0 ∨ D + p * f ≤ k.rtTick + p
  ahead : k.rtTick ≤ D + p * f

variable {p D n f : ℕ}

theorem Running.left (h : Running t p D n f k) (hl : Left t k k')
    (hf : k'.fired.count t = k.fired.count t) : Running t p D n f k' where
  mem := hl.mem.2 h.mem
  timer := hl.timer.trans h.timer
  fired := hf.trans h.fired
  recent := hl.rtTick ▸ h.recent
  ahead := hl.rtTick ▸ h.ahead

/-- The turn of the timer itself starts the next period at the timeout of the last. -/
theorem Running.expire (h : Running t p D n f k) (hcb : LeftByFuncs t cb)
    (hnodup : k.rtTimerList.Nodup) (hdue : (k.timer t).timeoutTick ≤ k.rtTick)
    (he : expire trueClock cb t k = some k') : Running t p D n (f + 1) k' := by
  obtain ⟨k₁, hr, htick, htimer, -⟩ := self_expire hcb hnodup he
  have hfired := (expire_spec he).2.1
  rw [h.timer] at htimer hdue
  have heq : k.rtTick = D + p * f := le_antisymm h.ahead hdue
  rw [restart, if_pos (by rw [htimer]; exact ⟨rfl, rfl⟩)] at hr
  obtain ⟨hmem, hself⟩ := start_self hr
  have hdeact : (k₁.deactivate t).timer t = ⟨p, D + p * f, true, false⟩ := by
    rw [Ticks.deactivate, set_timer_self, htimer]
  have htick' : k'.rtTick = D + p * f := by
    rw [(sameBut_start hr).rtTick, ← heq, ← htick]
    rfl
  have hnext : D + p * (f + 1) = D + p * f + p := by rw [Nat.mul_succ, Nat.add_assoc]
  refine ⟨hmem, ?_, ?_, .inr ?_, ?_⟩
  · rw [hself, hdeact, hnext]
    show (⟨p, k₁.rtTick + p, true, true⟩ : Timer) = _
    rw [htick, heq]
  · rw [hfired, List.count_cons_self, h.fired, Nat.add_assoc]
  · rw [hnext, htick']
  · omega

theorem Running.check (h : Running t p D n f k) (ha : Agenda 1 k) (hcb : LeftByFuncs t cb)
    (hc : rtTimerCheck trueClock cb fuel k = some k') :
    ∃ f', Running t p D n f' k' := by
  induction fuel generalizing k f with
  | zero => simp [rtTimerCheck] at hc
  | succ fuel ih =>
    rcases rtTimerCheck_succ.1 hc with ⟨u, rest, -, hdue, k₁, he, hc⟩ | ⟨-, rfl⟩
    · rcases eq_or_ne t u with rfl | hne
      · exact ih (h.expire hcb ha.nodup (of_decide_eq_true hdue) he) (ha.expire he) hc
      · obtain ⟨hleft, hcount⟩ := left_expire hcb hne he
        exact ih (h.left hleft hcount) (ha.expire he) hc
    · exact ⟨f, h⟩

/-- **One event.**  The tick counted stays strictly before the next timeout. -/
theorem Running.next {e : KernelEvent W} (h : Running t p D n f k)
    (hlt : k.rtTick < D + p * f) (ha : Agenda 0 k) (hcb : LeftByFuncs t cb) (he : e.Leaves t)
    (hk : kernelNext trueClock cb fuel e k = some k') :
    k'.rtTick = k.rtTick + ticks [e] ∧
      ∃ f', Running t p D n f' k' ∧ k'.rtTick < D + p * f' := by
  cases e with
  | call call =>
    have hsame := sameBut_call hk
    refine ⟨hsame.rtTick, f, h.left (hsame.left he.symm) (by rw [hsame.fired]), ?_⟩
    rw [hsame.rtTick]
    exact hlt
  | tick =>
    have hcount : Running t p D n f (k.count trueClock) := by
      refine ⟨h.mem, h.timer, h.fired, h.recent.imp_right fun hle => ?_, hlt⟩
      show D + p * f ≤ k.rtTick + 1 + p
      omega
    obtain ⟨f', h'⟩ := hcount.check ha.tick hcb hk
    obtain ⟨-, htick, hnone⟩ := ha.tick.check hk
    have hlt' := hnone t h'.mem
    rw [h'.timer] at hlt'
    exact ⟨htick, f', h', hlt'⟩
  | other f =>
    obtain ⟨w, -, rfl⟩ := Option.map_eq_some_iff.1 hk
    exact ⟨rfl, _, ⟨h.mem, h.timer, h.fired, h.recent, h.ahead⟩, hlt⟩

theorem ticks_cons (e : KernelEvent W) (es : List (KernelEvent W)) :
    ticks (e :: es) = ticks [e] + ticks es := by
  cases e <;> simp [ticks, Nat.add_comm]

/-- A run. -/
theorem Running.run {es : List (KernelEvent W)} (h : Running t p D n f k)
    (hlt : k.rtTick < D + p * f) (ha : Agenda 0 k) (hcb : LeftByFuncs t cb)
    (hes : ∀ e ∈ es, e.Leaves t)
    (hrun : (run (kernelStep trueClock cb fuel) es).run k = .ok () k') :
    k'.rtTick = k.rtTick + ticks es ∧
      ∃ f', Running t p D n f' k' ∧ k'.rtTick < D + p * f' := by
  induction es generalizing k f with
  | nil =>
    simp only [run_nil, EStateM.Result.ok.injEq, true_and] at hrun
    exact hrun ▸ ⟨rfl, f, h, hlt⟩
  | cons e es ih =>
    obtain ⟨k₁, h₁, h₂⟩ := run_cons_ok.1 hrun
    have hk := ofOption_ok.1 h₁
    obtain ⟨htick, f₁, hf₁, hlt₁⟩ := h.next hlt ha hcb (hes e (List.mem_cons_self ..)) hk
    obtain ⟨htick', hf'⟩ := ih hf₁ hlt₁ (ha.next hk)
      (fun e he => hes e (List.mem_cons_of_mem _ he)) h₂
    refine ⟨?_, hf'⟩
    rw [htick', htick, ticks_cons e es, Nat.add_assoc]

/-- The times it has been called since its start at tick `s`. -/
theorem Running.eq_div {s j : ℕ} (h : Running t p (s + p) n f k)
    (hlt : k.rtTick < s + p + p * f) (htick : k.rtTick = s + j) : f = j / p := by
  have hrecent := h.recent
  refine (Nat.div_eq_of_lt_le ?_ ?_).symm
  · rw [Nat.mul_comm]
    rcases hrecent with rfl | hle
    · omega
    · omega
  · rw [Nat.succ_mul, Nat.mul_comm]
    omega

/-- The timer that has just been started. -/
theorem running_start (hp : (k.timer t).periodic = true) (hpos : 0 < (k.timer t).initTick)
    (hs : rtTimerStart trueClock t k = some k') :
    Running t (k.timer t).initTick (k.rtTick + (k.timer t).initTick) (k.fired.count t) 0 k' ∧
      k'.rtTick = k.rtTick := by
  obtain ⟨hmem, hself⟩ := start_self hs
  have hsame := sameBut_start hs
  refine ⟨⟨hmem, ?_, by rw [hsame.fired, Nat.add_zero], .inl rfl, ?_⟩, hsame.rtTick⟩
  · simp [hself, hp, trueClock]
  · rw [hsame.rtTick]
    omega

/-- **A periodic timer keeps its period.**  From the start of a timer that is then left alone,
its function has been called `n / p` times after `n` ticks, for every number of ticks. -/
theorem periodic_fires (hcb : LeftByFuncs t cb) (ha : Agenda 0 k)
    (hp : (k.timer t).periodic = true) (hpos : 0 < (k.timer t).initTick)
    {es : List (KernelEvent W)} (hes : ∀ e ∈ es, e.Leaves t)
    (hrun : (run (kernelStep tickClock cb fuel) (.call (.start t) :: es)).run k.wrap =
      .ok () k') :
    k'.fired.count t = k.fired.count t + ticks es / (k.timer t).initTick := by
  obtain ⟨k₂, hrun₂, rfl⟩ := (kernelRun_wrap ha).1 hrun
  obtain ⟨k₁, hstep, hrest⟩ := run_cons_ok.1 hrun₂
  have hs : rtTimerStart trueClock t k = some k₁ := ofOption_ok.1 hstep
  obtain ⟨hrunning, htick⟩ := running_start hp hpos hs
  have hlt : k₁.rtTick < k.rtTick + (k.timer t).initTick + (k.timer t).initTick * 0 := by omega
  obtain ⟨htick', f, hf, hlt'⟩ := hrunning.run hlt (ha.start hs) hcb hes hrest
  show k₂.fired.count t = _
  rw [hf.fired, hf.eq_div hlt' (htick'.trans (by rw [htick]))]

/-- Seven ticks across the turn of the counter. -/
theorem periodic_fires_turn : ∃ k', (run (kernelStep tickClock nothing 3)
    (.call (.start 0) :: List.replicate 7 .tick)).run turn.wrap = .ok () k' ∧
      k'.fired.count 0 = 0 + ticks (W := Unit) (List.replicate 7 .tick) / 3 := by
  obtain ⟨k', hrun⟩ : ∃ k', (run (kernelStep tickClock nothing 3)
      (.call (.start 0) :: List.replicate 7 .tick)).run turn.wrap = .ok () k' := ⟨_, rfl⟩
  refine ⟨k', hrun, periodic_fires leftByFuncs_nothing agenda_turn rfl (by decide) ?_ hrun⟩
  intro e he
  rw [(List.mem_replicate.1 he).2]
  trivial

/-! ### One-shot timers -/

/-- A one-shot timer that was started at tick `s` with its timeout at `D`, and has or has not been
called. -/
structure Armed (t s D n : ℕ) (done : Bool) (k : Ticks W) : Prop where
  mem : t ∈ k.rtTimerList ↔ done = false
  periodic : (k.timer t).periodic = false
  timeout : (k.timer t).timeoutTick = D
  fired : k.fired.count t = n + done.toNat
  late : done = true → D ≤ k.rtTick ∧ s < k.rtTick

variable {s : ℕ} {done : Bool}

theorem Armed.left (h : Armed t s D n done k) (hl : Left t k k')
    (hf : k'.fired.count t = k.fired.count t) : Armed t s D n done k' where
  mem := hl.mem.trans h.mem
  periodic := hl.timer ▸ h.periodic
  timeout := hl.timer ▸ h.timeout
  fired := hf.trans h.fired
  late := hl.rtTick ▸ h.late

/-- The turn of the timer itself is its last. -/
theorem Armed.expire (h : Armed t s D n done k) (hcb : LeftByFuncs t cb)
    (hnodup : k.rtTimerList.Nodup) (hmem : t ∈ k.rtTimerList) (hs : s < k.rtTick)
    (hdue : (k.timer t).timeoutTick ≤ k.rtTick)
    (he : expire trueClock cb t k = some k') : Armed t s D n true k' := by
  obtain ⟨k₁, hr, htick, htimer, hnot⟩ := self_expire hcb hnodup he
  have hfired := (expire_spec he).2.1
  rw [restart, htimer, h.periodic, if_neg (by simp), Option.some_inj] at hr
  subst hr
  have hdone : done = false := h.mem.1 hmem
  refine ⟨iff_of_false hnot (by simp), ?_, ?_, ?_, fun _ => ?_⟩
  · rw [Ticks.deactivate, set_timer_self, htimer]
    exact h.periodic
  · rw [Ticks.deactivate, set_timer_self, htimer]
    exact h.timeout
  · rw [hfired, List.count_cons_self, h.fired, hdone]
    rfl
  · show D ≤ k₁.rtTick ∧ s < k₁.rtTick
    rw [htick, ← h.timeout]
    exact ⟨hdue, hs⟩

theorem Armed.check (h : Armed t s D n done k) (ha : Agenda 1 k) (hcb : LeftByFuncs t cb)
    (hs : s < k.rtTick) (hc : rtTimerCheck trueClock cb fuel k = some k') :
    ∃ done', Armed t s D n done' k' := by
  induction fuel generalizing k done with
  | zero => simp [rtTimerCheck] at hc
  | succ fuel ih =>
    rcases rtTimerCheck_succ.1 hc with ⟨u, rest, hlist, hdue, k₁, he, hc⟩ | ⟨-, rfl⟩
    · have hs₁ : s < k₁.rtTick := (expire_spec he).1.symm ▸ hs
      rcases eq_or_ne t u with rfl | hne
      · have hmem : t ∈ k.rtTimerList := hlist ▸ List.mem_cons_self ..
        exact ih (h.expire hcb ha.nodup hmem hs (of_decide_eq_true hdue) he) (ha.expire he) hs₁ hc
      · obtain ⟨hleft, hcount⟩ := left_expire hcb hne he
        exact ih (h.left hleft hcount) (ha.expire he) hs₁ hc
    · exact ⟨done, h⟩

/-- **One event.**  A timer that has not been called is ahead, or no tick has been counted. -/
theorem Armed.next {e : KernelEvent W} (h : Armed t s D n done k)
    (hearly : done = false → k.rtTick < D ∨ k.rtTick ≤ s) (hs : s ≤ k.rtTick)
    (ha : Agenda 0 k) (hcb : LeftByFuncs t cb) (he : e.Leaves t)
    (hk : kernelNext trueClock cb fuel e k = some k') :
    k'.rtTick = k.rtTick + ticks [e] ∧ ∃ done', Armed t s D n done' k' ∧
      (done' = false → k'.rtTick < D ∨ k'.rtTick ≤ s) := by
  cases e with
  | call call =>
    have hsame := sameBut_call hk
    refine ⟨hsame.rtTick, done, h.left (hsame.left he.symm) (by rw [hsame.fired]), ?_⟩
    rw [hsame.rtTick]
    exact hearly
  | tick =>
    have hcount : Armed t s D n done (k.count trueClock) := by
      refine ⟨h.mem, h.periodic, h.timeout, h.fired, fun hd => ?_⟩
      obtain ⟨hD, hlt⟩ := h.late hd
      exact ⟨hD.trans (Nat.le_succ _), hlt.trans (Nat.lt_succ_self _)⟩
    obtain ⟨done', h'⟩ := hcount.check ha.tick hcb (Nat.lt_succ_of_le hs) hk
    obtain ⟨-, htick, hnone⟩ := ha.tick.check hk
    refine ⟨htick, done', h', fun hd => .inl ?_⟩
    rw [← h'.timeout]
    exact hnone t (h'.mem.2 hd)
  | other f =>
    obtain ⟨w, -, rfl⟩ := Option.map_eq_some_iff.1 hk
    exact ⟨rfl, _, ⟨h.mem, h.periodic, h.timeout, h.fired, h.late⟩, hearly⟩

/-- A run. -/
theorem Armed.run {es : List (KernelEvent W)} (h : Armed t s D n done k)
    (hearly : done = false → k.rtTick < D ∨ k.rtTick ≤ s) (hs : s ≤ k.rtTick)
    (ha : Agenda 0 k) (hcb : LeftByFuncs t cb) (hes : ∀ e ∈ es, e.Leaves t)
    (hrun : (run (kernelStep trueClock cb fuel) es).run k = .ok () k') :
    k'.rtTick = k.rtTick + ticks es ∧ ∃ done', Armed t s D n done' k' ∧
      (done' = false → k'.rtTick < D ∨ k'.rtTick ≤ s) := by
  induction es generalizing k done with
  | nil =>
    simp only [run_nil, EStateM.Result.ok.injEq, true_and] at hrun
    exact hrun ▸ ⟨rfl, done, h, hearly⟩
  | cons e es ih =>
    obtain ⟨k₁, h₁, h₂⟩ := run_cons_ok.1 hrun
    have hk := ofOption_ok.1 h₁
    obtain ⟨htick, d₁, hd₁, hearly₁⟩ := h.next hearly hs ha hcb (hes e (List.mem_cons_self ..)) hk
    have hs₁ : s ≤ k₁.rtTick := by rw [htick]; omega
    obtain ⟨htick', hd'⟩ := ih hd₁ hearly₁ hs₁ (ha.next hk)
      (fun e he => hes e (List.mem_cons_of_mem _ he)) h₂
    refine ⟨?_, hd'⟩
    rw [htick', htick, ticks_cons e es, Nat.add_assoc]

/-- `rt_thread_sleep` for the thread of a timer: the calls of `rt_thread_suspend`,
`rt_timer_control` and `rt_timer_start`. -/
def rtThreadSleep (t tick : ℕ) : List (KernelEvent W) :=
  [.call (.stop t), .call (.setTime t tick), .call (.start t)]

/-- The timer of a thread that goes to sleep. -/
theorem armed_sleep {tick : ℕ} (ha : Agenda 0 k) (hp : (k.timer t).periodic = false)
    (hrun : (run (kernelStep trueClock cb fuel) (rtThreadSleep t tick)).run k = .ok () k') :
    Armed t k.rtTick (k.rtTick + tick) (k.fired.count t) false k' ∧ k'.rtTick = k.rtTick ∧
      Agenda 0 k' := by
  obtain ⟨k₁, h₁, hrun₁⟩ := run_cons_ok.1 hrun
  obtain ⟨k₂, h₂, hrun₂⟩ := run_cons_ok.1 hrun₁
  obtain ⟨k₃, h₃, hrun₃⟩ := run_cons_ok.1 hrun₂
  simp only [run_nil, EStateM.Result.ok.injEq, true_and] at hrun₃
  subst hrun₃
  have hstop : k₁ = rtTimerStop t k := (Option.some_inj.1 (ofOption_ok.1 h₁)).symm
  have hset : k₂ = k₁.set t ({ · with initTick := tick }) :=
    (Option.some_inj.1 (ofOption_ok.1 h₂)).symm
  have hstart : rtTimerStart trueClock t k₂ = some k₃ := ofOption_ok.1 h₃
  have hper : (k₁.timer t).periodic = false := by
    rw [hstop, rtTimerStop]
    split
    · rw [Ticks.deactivate, set_timer_self]
      exact hp
    · exact hp
  have hsame₁ : SameBut t k k₁ := hstop ▸ sameBut_stop
  have hsame₃ := sameBut_start hstart
  have hsame₂ : SameBut t k₁ k₂ := hset ▸ sameBut_set _
  have hsame := (hsame₁.trans hsame₂).trans hsame₃
  have htick₂ : k₂.rtTick = k.rtTick := (hsame₁.trans hsame₂).rtTick
  have htimer₂ : (k₂.timer t).initTick = tick ∧ (k₂.timer t).periodic = false := by
    rw [hset, set_timer_self]
    exact ⟨rfl, hper⟩
  obtain ⟨hmem, hself⟩ := start_self hstart
  have ha₂ : Agenda 0 k₂ := hset ▸ (hstop ▸ ha.stop).set fun _ => rfl
  refine ⟨⟨iff_of_true hmem rfl, ?_, ?_, ?_, fun hd => absurd hd (by simp)⟩, hsame.rtTick,
    ha₂.start hstart⟩
  · rw [hself]
    exact htimer₂.2
  · rw [hself, ← htick₂, ← htimer₂.1]
    rfl
  · rw [hsame.fired]
    rfl

/-- **`rt_thread_delay` wakes its thread once.**  The timer of a thread that sleeps for `n` ticks,
and is left alone, is called at the `n`-th tick, or at the first one when `n` is zero. -/
theorem rtThreadSleep_wakes {tick : ℕ} (hcb : LeftByFuncs t cb) (ha : Agenda 0 k)
    (hp : (k.timer t).periodic = false) {es : List (KernelEvent W)}
    (hes : ∀ e ∈ es, e.Leaves t)
    (hrun : (run (kernelStep tickClock cb fuel) (rtThreadSleep t tick ++ es)).run k.wrap =
      .ok () k') :
    k'.fired.count t = k.fired.count t + if max 1 tick ≤ ticks es then 1 else 0 := by
  obtain ⟨k₂, hrun₂, rfl⟩ := (kernelRun_wrap ha).1 hrun
  obtain ⟨k₁, hsleep, hrest⟩ := run_append_ok.1 hrun₂
  obtain ⟨harmed, htick, ha₁⟩ := armed_sleep ha hp hsleep
  obtain ⟨htick', done, hd, hearly⟩ :=
    harmed.run (fun _ => .inr htick.le) htick.ge ha₁ hcb hes hrest
  show k₂.fired.count t = _
  rw [hd.fired]
  congr 1
  cases done with
  | false =>
    have hnot : ¬ max 1 tick ≤ ticks es := by
      have := hearly rfl
      omega
    rw [if_neg hnot]
    rfl
  | true =>
    have hle : max 1 tick ≤ ticks es := by
      have := hd.late rfl
      omega
    rw [if_pos hle]
    rfl

/-- A thread that sleeps for four ticks beside a periodic timer. -/
theorem rtThreadSleep_wakes_four : ∃ k', (run (kernelStep tickClock nothing 3)
    (rtThreadSleep 1 4 ++ (.call (.start 0) :: List.replicate 7 .tick))).run
      (turn.set 1 fun _ => ⟨0, 0, false, false⟩).wrap = .ok () k' ∧
      k'.fired.count 1 = 0 + if max 1 4 ≤
        ticks (W := Unit) (.call (.start 0) :: List.replicate 7 .tick) then 1 else 0 := by
  obtain ⟨k', hrun⟩ : ∃ k', (run (kernelStep tickClock nothing 3)
      (rtThreadSleep 1 4 ++ (.call (.start 0) :: List.replicate 7 .tick))).run
        (turn.set 1 fun _ => ⟨0, 0, false, false⟩).wrap = .ok () k' := ⟨_, rfl⟩
  refine ⟨k', hrun, rtThreadSleep_wakes leftByFuncs_nothing (agenda_nil rfl) rfl ?_ hrun⟩
  intro e he
  rcases List.mem_cons.1 he with rfl | he
  · exact Nat.zero_ne_one
  · rw [(List.mem_replicate.1 he).2]
    trivial

end Kernel
end AccTx
