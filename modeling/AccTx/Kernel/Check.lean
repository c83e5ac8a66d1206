/-
# The loop of rt_timer_check ends

`rt_timer_check` goes on while the first timer of the list has timed out, and starts periodic
timers again.  Where the functions make no calls of `timer.c`, it ends exactly when no periodic
timer has timed out whose period is zero or too long, and then it has called the functions of the
timers that had timed out, once each, in the order of the list (`rtTimerCheck_iff`).

Where they do, every time of a timer being positive is enough: each turn leaves one timer less
that has timed out (`length_due_expire`), so every run of the kernel gets past its ticks
(`kernelRun_returns`).
-/

import AccTx.Kernel.Wrap

namespace AccTx
namespace Kernel

open Effect Series

variable {W : Type} {c : Clock} {cb : TimeoutFunc W} {t u lag fuel : ℕ} {k k' : Ticks W}

/-- The timers that have timed out. -/
def due (k : Ticks W) : List ℕ :=
  k.rtTimerList.filter fun u => (k.timer u).timeoutTick ≤ k.rtTick

theorem mem_due : u ∈ due k ↔ u ∈ k.rtTimerList ∧ (k.timer u).timeoutTick ≤ k.rtTick := by
  rw [due, List.mem_filter, decide_eq_true_iff]

theorem due_congr (hlist : k'.rtTimerList = k.rtTimerList) (htick : k'.rtTick = k.rtTick)
    (htimer : ∀ u ∈ k.rtTimerList, (k'.timer u).timeoutTick = (k.timer u).timeoutTick) :
    due k' = due k := by
  rw [due, due, hlist, htick]
  exact List.filter_congr fun u hu => by rw [htimer u hu]

theorem due_remove : due (k.remove t) = (due k).erase t := List.erase_filter.symm

theorem due_remove_sublist : (due (k.remove t)).Sublist (due k) :=
  List.erase_sublist.filter _

theorem due_set {f : Timer → Timer} (hf : ∀ timer, (f timer).timeoutTick = timer.timeoutTick) :
    due (k.set t f) = due k := by
  refine due_congr rfl rfl fun u _ => ?_
  rcases eq_or_ne u t with rfl | hne
  · rw [set_timer_self, hf]
  · rw [set_timer_of_ne hne]

/-- A timer that is started with a positive time has not timed out. -/
theorem due_start (h : Agenda lag k) (hinit : 0 < (k.timer t).initTick)
    (hs : rtTimerStart trueClock t k = some k') : due k' = due (k.remove t) := by
  obtain ⟨-, rfl⟩ := rtTimerStart_eq_some.1 hs
  have hself : ((started trueClock t k).timer t).timeoutTick =
      k.rtTick + (k.timer t).initTick := by
    rw [started_timer_self]
    rfl
  have hdrop : due ((started trueClock t k).insert trueClock t) = due (started trueClock t k) :=
    filter_orderedInsert (by
      show decide (((started trueClock t k).timer t).timeoutTick ≤ k.rtTick) = false
      rw [hself, decide_eq_false_iff_not]
      omega)
  rw [hdrop]
  refine due_congr rfl rfl fun u hu => ?_
  rw [started_timer_of_ne (h.nodup.mem_erase_iff.1 hu).1]
  rfl

/-- The head of the list has timed out where any timer has. -/
theorem head_due (h : Agenda lag k) (hu : u ∈ due k) :
    ∃ t rest, k.rtTimerList = t :: rest ∧ (k.timer t).timeoutTick ≤ k.rtTick := by
  obtain ⟨hmem, hle⟩ := mem_due.1 hu
  have hord := h.ordered
  cases hlist : k.rtTimerList with
  | nil => simp [hlist] at hmem
  | cons t rest =>
    rw [hlist] at hmem hord
    refine ⟨t, rest, rfl, ?_⟩
    rcases List.mem_cons.1 hmem with rfl | hmem
    · exact hle
    · exact (List.rel_of_pairwise_cons hord hmem).trans hle

/-- More turns change nothing. -/
theorem rtTimerCheck_mono {fuel' : ℕ} (hle : fuel ≤ fuel')
    (h : rtTimerCheck c cb fuel k = some k') : rtTimerCheck c cb fuel' k = some k' := by
  induction fuel generalizing fuel' k with
  | zero => simp [rtTimerCheck] at h
  | succ fuel ih =>
    obtain ⟨fuel', rfl⟩ := Nat.exists_eq_add_of_le' hle
    have hle' : fuel ≤ fuel' + fuel := Nat.le_add_left ..
    rcases rtTimerCheck_succ.1 h with ⟨t, rest, hlist, hdue, k₁, he, hc⟩ | hend
    · exact rtTimerCheck_succ.2 (.inl ⟨t, rest, hlist, hdue, k₁, he, ih hle' hc⟩)
    · exact rtTimerCheck_succ.2 (.inr hend)

/-! ### Functions that make no calls -/

/-- The timeout functions return and make no calls of `timer.c`. -/
def Silent (cb : TimeoutFunc W) : Prop := ∀ t w, ∃ w', cb t w = some (w', [])

/-- A timer that is not started again, or can be. -/
def Timer.Sound (timer : Timer) : Prop :=
  timer.periodic → timer.activated → 0 < timer.initTick ∧ timer.initTick < RT_TICK_MAX / 2

/-- A turn of the loop, where the function makes no calls. -/
theorem expire_silent (hcb : Silent cb) : ∃ w,
    expire c cb t k = restart c t { k.remove t with world := w, fired := t :: k.fired } := by
  obtain ⟨w, hw⟩ := hcb t k.world
  refine ⟨w, ?_⟩
  have hfunc : timeoutFunc c cb t (k.remove t) =
      some { k.remove t with world := w, fired := t :: k.fired } :=
    timeoutFunc_eq_some.2 ⟨w, [], hw, rfl⟩
  rw [expire, hfunc]
  rfl

theorem due_deactivate : due (k.deactivate t) = due k := due_set fun _ => rfl

theorem deactivate_timer : (k.deactivate t).timer t = { k.timer t with activated := false } :=
  set_timer_self

/-- A sound timer that is started again has not timed out. -/
theorem restart_sound (h : Agenda lag k) (hnot : t ∉ k.rtTimerList)
    (hsound : (k.timer t).Sound) : ∃ k', restart trueClock t k = some k' ∧ due k' = due k := by
  unfold restart
  split
  · rename_i hflags
    obtain ⟨hpos, hlt⟩ := hsound hflags.1 hflags.2
    have hinit : ((k.deactivate t).timer t).initTick = (k.timer t).initTick := by
      rw [deactivate_timer]
    have hstart := rtTimerStart_eq_some.2 ⟨hinit ▸ hlt, @rfl _ ((started trueClock t
      (k.deactivate t)).insert trueClock t)⟩
    have hremove : due ((k.deactivate t).remove t) = due (k.deactivate t) :=
      due_congr (List.erase_of_not_mem hnot) rfl fun _ _ => rfl
    refine ⟨_, hstart, ?_⟩
    rw [due_start h.deactivate (hinit ▸ hpos) hstart, hremove, due_deactivate]
  · exact ⟨_, rfl, due_deactivate⟩

/-- One that is not sound is due at once, or fails the assertion. -/
theorem restart_unsound (hunsound : ¬ (k.timer t).Sound)
    (hr : restart trueClock t k = some k') : t ∈ due k' ∧ ¬ (k'.timer t).Sound := by
  simp only [Timer.Sound, not_forall] at hunsound
  obtain ⟨hp, ha, hbad⟩ := hunsound
  rw [restart, if_pos ⟨hp, ha⟩] at hr
  obtain ⟨hmem, htimer⟩ := start_self hr
  obtain ⟨hlt, -⟩ := rtTimerStart_eq_some.1 hr
  have htick := (sameBut_start hr).rtTick
  rw [deactivate_timer] at htimer hlt
  have hzero : (k.timer t).initTick = 0 := by
    by_contra hne
    exact hbad ⟨Nat.pos_of_ne_zero hne, hlt⟩
  refine ⟨mem_due.2 ⟨hmem, ?_⟩, fun hs => ?_⟩
  · rw [htimer, htick, hzero]
    exact le_rfl
  · rw [htimer] at hs
    exact hbad (hs hp rfl)

/-- A sound timer that has timed out goes from the head of the list, and its function is called. -/
theorem expire_sound (hcb : Silent cb) (h : Agenda lag k) {rest : List ℕ}
    (hlist : k.rtTimerList = t :: rest) (hdue : (k.timer t).timeoutTick ≤ k.rtTick)
    (hsound : (k.timer t).Sound) : ∃ k₁, expire trueClock cb t k = some k₁ ∧
      due k = t :: due k₁ ∧ k₁.fired = t :: k.fired ∧ ∀ u ≠ t, k₁.timer u = k.timer u := by
  obtain ⟨w, he⟩ := expire_silent (c := trueClock) (t := t) (k := k) hcb
  have hnot : t ∉ (k.remove t).rtTimerList := fun hmem => (h.nodup.mem_erase_iff.1 hmem).1 rfl
  have h₀ : Agenda lag { k.remove t with world := w, fired := t :: k.fired } :=
    h.sublist List.erase_sublist rfl fun _ => rfl
  have hcons : due k = t :: due (k.remove t) := by
    have hrest : (k.remove t).rtTimerList = rest := by
      show k.rtTimerList.erase t = rest
      rw [hlist, List.erase_cons_head]
    rw [due, hlist, List.filter_cons_of_pos (by simpa using hdue), due, hrest]
    rfl
  obtain ⟨k₁, hr, hdue₁⟩ := restart_sound h₀ hnot hsound
  have hsame := sameBut_restart hr
  exact ⟨k₁, he.trans hr, hcons.trans (congrArg _ hdue₁.symm), hsame.fired, hsame.timer⟩

/-- The loop, where every timer that has timed out is sound. -/
theorem rtTimerCheck_sound (hcb : Silent cb) (h : Agenda lag k)
    (hsound : ∀ u ∈ due k, (k.timer u).Sound) : ∃ k',
      rtTimerCheck trueClock cb ((due k).length + 1) k = some k' ∧
        k'.fired = (due k).reverse ++ k.fired := by
  obtain ⟨l, hl⟩ : ∃ l, l = due k := ⟨_, rfl⟩
  rw [← hl]
  induction l generalizing k with
  | nil =>
    refine ⟨k, rtTimerCheck_succ.2 (.inr ⟨fun t ht => ?_, rfl⟩), rfl⟩
    have hnot : t ∉ due k := hl ▸ List.not_mem_nil
    have hlt := fun hle => hnot (mem_due.2 ⟨List.mem_of_mem_head? ht, hle⟩)
    exact decide_eq_false hlt
  | cons t l ih =>
    obtain ⟨t', rest, hlist, hdue⟩ := head_due h (hl ▸ List.mem_cons_self .. : t ∈ due k)
    have hmem : t' ∈ due k := mem_due.2 ⟨hlist ▸ List.mem_cons_self .., hdue⟩
    obtain ⟨k₁, he, hcons, hfired, htimer⟩ := expire_sound hcb h hlist hdue (hsound t' hmem)
    obtain ⟨rfl, hl₁⟩ := List.cons_eq_cons.1 (hl.trans hcons)
    have h₁ := h.expire he
    have hne : ∀ u ∈ due k₁, u ≠ t := by
      have hnodup : (due k).Nodup := h.nodup.filter _
      rw [hcons, List.nodup_cons] at hnodup
      exact fun u hu heq => hnodup.1 (heq ▸ hu)
    have hsound₁ : ∀ u ∈ due k₁, (k₁.timer u).Sound := fun u hu =>
      htimer u (hne u hu) ▸ hsound u (hcons ▸ List.mem_cons_of_mem _ hu)
    obtain ⟨k', hc, hfired'⟩ := ih h₁ hsound₁ hl₁
    refine ⟨k', rtTimerCheck_succ.2 (.inl ⟨t, rest, hlist, decide_eq_true hdue, k₁, he, hc⟩), ?_⟩
    rw [hfired', hfired, List.reverse_cons, List.append_assoc, List.singleton_append]

/-- A timer that is not sound is due again when it has been started again, or never gets there. -/
theorem rtTimerCheck_unsound (hcb : Silent cb) (h : Agenda lag k) (hu : u ∈ due k)
    (hunsound : ¬ (k.timer u).Sound) : rtTimerCheck trueClock cb fuel k = none := by
  refine Option.eq_none_iff_forall_ne_some.2 fun k' => ?_
  induction fuel generalizing k with
  | zero => simp [rtTimerCheck]
  | succ fuel ih =>
    intro hc
    obtain ⟨t, rest, hlist, hdue⟩ := head_due h hu
    rcases rtTimerCheck_succ.1 hc with ⟨t', rest', hlist', -, k₁, he, hc⟩ | ⟨hhead, -⟩
    · obtain ⟨rfl, -⟩ := List.cons_eq_cons.1 (hlist.symm.trans hlist')
      have h₁ := h.expire he
      obtain ⟨w, heq⟩ := expire_silent (c := trueClock) (t := t) (k := k) hcb
      rw [heq] at he
      rcases eq_or_ne u t with rfl | hne
      · obtain ⟨hu₁, hunsound₁⟩ := restart_unsound (by exact hunsound) he
        exact ih h₁ hu₁ hunsound₁ hc
      · have hsame := sameBut_restart he
        have htimer : k₁.timer u = k.timer u := hsame.timer u hne
        obtain ⟨hmem, hle⟩ := mem_due.1 hu
        have hmem₁ : u ∈ k₁.rtTimerList :=
          (hsame.mem u hne).2 ((List.mem_erase_of_ne hne).2 hmem)
        have hu₁ : u ∈ due k₁ := mem_due.2 ⟨hmem₁, by rwa [htimer, hsame.rtTick]⟩
        exact ih h₁ hu₁ (htimer ▸ hunsound) hc
    · have hhead' := hhead t (by rw [hlist]; rfl)
      simp [trueClock] at hhead'
      omega

/-- **When `rt_timer_check` ends, and what it has done.**  Where the functions make no calls, the
loop ends exactly when every timer that has timed out is sound, and the functions it has called
are those of the timers that had timed out, in the order of the list. -/
theorem rtTimerCheck_iff (hcb : Silent cb) (h : Agenda 1 k) {fired : List ℕ} :
    (∃ fuel k', rtTimerCheck tickClock cb fuel k.wrap = some k' ∧ k'.fired = fired) ↔
      (∀ u ∈ due k, (k.timer u).Sound) ∧ fired = (due k).reverse ++ k.fired := by
  simp only [wrap_check h, Option.map_eq_some_iff]
  constructor
  · rintro ⟨fuel, _, ⟨k', hc, rfl⟩, rfl⟩
    have hsound : ∀ u ∈ due k, (k.timer u).Sound := by
      intro u hu
      by_contra hunsound
      simp [rtTimerCheck_unsound hcb h hu hunsound] at hc
    obtain ⟨k₁, hc₁, hfired⟩ := rtTimerCheck_sound hcb h hsound
    have hmax := rtTimerCheck_mono (Nat.le_max_left fuel ((due k).length + 1)) hc
    have hmax₁ := rtTimerCheck_mono (Nat.le_max_right fuel ((due k).length + 1)) hc₁
    have heq : k' = k₁ := Option.some_inj.1 (hmax.symm.trans hmax₁)
    exact ⟨hsound, (congrArg Ticks.fired heq).trans hfired⟩
  · rintro ⟨hsound, rfl⟩
    obtain ⟨k', hc, hfired⟩ := rtTimerCheck_sound hcb h hsound
    exact ⟨_, _, ⟨k', hc, rfl⟩, hfired⟩

/-- A periodic timer that has timed out. -/
theorem rtTimerCheck_iff_turn : (∃ fuel k', rtTimerCheck tickClock nothing fuel
    { turn with rtTimerList := [7], timer := fun _ => ⟨3, 2 ^ 32 - 2, true, true⟩ }.wrap =
      some k' ∧ k'.fired = [7]) := by
  have ha : Agenda 1 { turn with
      rtTimerList := [7], timer := fun _ => ⟨3, 2 ^ 32 - 2, true, true⟩ } := by
    refine ⟨List.nodup_singleton _, List.pairwise_singleton _ _, fun _ _ => ?_, fun _ _ => ?_⟩
    · exact Nat.le_succ _
    · simp [turn, RT_TICK_MAX]
  refine (rtTimerCheck_iff (fun _ _ => ⟨(), rfl⟩) ha).2 ⟨fun _ _ _ _ => ?_, by decide⟩
  simp [RT_TICK_MAX]

/-! ### Positive times -/

/-- The time of every timer is positive, and passes the assertion of `rt_timer_start`. -/
def Timely (k : Ticks W) : Prop :=
  ∀ u, 0 < (k.timer u).initTick ∧ (k.timer u).initTick < RT_TICK_MAX / 2

/-- A call that sets no other time. -/
def TimerCall.Timely : TimerCall → Prop
  | .setTime _ tick => 0 < tick ∧ tick < RT_TICK_MAX / 2
  | .start _ | .stop _ | .setOneshot _ | .setPeriodic _ => True

/-- Functions that return and make no other calls. -/
def TimelyFunc (cb : TimeoutFunc W) : Prop :=
  ∀ t w, ∃ w' calls, cb t w = some (w', calls) ∧ ∀ call ∈ calls, call.Timely

/-- What the calls and the turns of the loop keep: no timer times out by them. -/
structure Keeps (k k' : Ticks W) : Prop where
  timely : Timely k'
  due : (due k').Sublist (due k)

theorem keeps_set {f : Timer → Timer} (ht : Timely k)
    (htick : ∀ timer, 0 < timer.initTick ∧ timer.initTick < RT_TICK_MAX / 2 →
      0 < (f timer).initTick ∧ (f timer).initTick < RT_TICK_MAX / 2)
    (hf : ∀ timer, (f timer).timeoutTick = timer.timeoutTick) : Keeps k (k.set t f) where
  timely u := by
    rcases eq_or_ne u t with rfl | hne
    · rw [set_timer_self]
      exact htick _ (ht u)
    · rw [set_timer_of_ne hne]
      exact ht u
  due := by rw [due_set hf]

theorem keeps_deactivate (ht : Timely k) : Keeps k (k.deactivate t) :=
  keeps_set ht (fun _ h => h) fun _ => rfl

theorem keeps_remove (ht : Timely k) : Keeps k (k.remove t) := ⟨ht, due_remove_sublist⟩

theorem Keeps.trans {k'' : Ticks W} (h : Keeps k k') (h' : Keeps k' k'') : Keeps k k'' :=
  ⟨h'.timely, h'.due.trans h.due⟩

theorem keeps_start (h : Agenda lag k) (ht : Timely k) :
    ∃ k', rtTimerStart trueClock t k = some k' ∧ Keeps k k' := by
  have hstart := rtTimerStart_eq_some.2 ⟨(ht t).2, @rfl _ ((started trueClock t k).insert
    trueClock t)⟩
  refine ⟨_, hstart, fun u => ?_, ?_⟩
  · show 0 < ((started trueClock t k).timer u).initTick ∧
      ((started trueClock t k).timer u).initTick < RT_TICK_MAX / 2
    rcases eq_or_ne u t with rfl | hne
    · rw [started_timer_self]
      exact ht u
    · rw [started_timer_of_ne hne]
      exact ht u
  · rw [due_start h (ht t).1 hstart]
    exact due_remove_sublist

theorem keeps_call {call : TimerCall} (h : Agenda lag k) (ht : Timely k) (hcall : call.Timely) :
    ∃ k', timerCall trueClock call k = some k' ∧ Keeps k k' := by
  cases call with
  | start t => exact keeps_start h ht
  | stop t =>
    refine ⟨_, rfl, ?_⟩
    unfold rtTimerStop
    split
    · exact (keeps_remove ht).trans (keeps_deactivate ht)
    · exact ⟨ht, .refl _⟩
  | setTime t tick => exact ⟨_, rfl, keeps_set ht (fun _ _ => hcall) fun _ => rfl⟩
  | setOneshot t | setPeriodic t => exact ⟨_, rfl, keeps_set ht (fun _ h => h) fun _ => rfl⟩

theorem keeps_calls {calls : List TimerCall} (h : Agenda lag k) (ht : Timely k)
    (hcalls : ∀ call ∈ calls, call.Timely) :
    ∃ k', timerCalls trueClock calls k = some k' ∧ Keeps k k' := by
  induction calls generalizing k with
  | nil => exact ⟨k, rfl, ht, .refl _⟩
  | cons call calls ih =>
    obtain ⟨k₁, h₁, hk₁⟩ := keeps_call h ht (hcalls call (List.mem_cons_self ..))
    obtain ⟨k', h', hk'⟩ := ih (h.call h₁) hk₁.timely fun call hc =>
      hcalls call (List.mem_cons_of_mem _ hc)
    exact ⟨k', Option.bind_eq_some_iff.2 ⟨k₁, h₁, h'⟩, hk₁.trans hk'⟩

theorem keeps_restart (h : Agenda lag k) (ht : Timely k) :
    ∃ k', restart trueClock t k = some k' ∧ Keeps k k' := by
  have hd : Keeps k (k.deactivate t) := keeps_deactivate ht
  unfold restart
  split
  · obtain ⟨k', hs, hk'⟩ := keeps_start h.deactivate hd.timely
    exact ⟨k', hs, hd.trans hk'⟩
  · exact ⟨_, rfl, hd⟩

/-- **Each turn leaves one timer less that has timed out.** -/
theorem length_due_expire (hcb : TimelyFunc cb) (h : Agenda lag k) (ht : Timely k)
    (hdue : t ∈ due k) : ∃ k', expire trueClock cb t k = some k' ∧ Timely k' ∧
      (due k').length < (due k).length := by
  obtain ⟨w, calls, hw, hcalls⟩ := hcb t k.world
  have h₀ : Agenda lag { k.remove t with world := w, fired := t :: k.fired } :=
    h.sublist List.erase_sublist rfl fun _ => rfl
  have ht₀ : Timely { k.remove t with world := w, fired := t :: k.fired } := ht
  obtain ⟨k₁, h₁, hk₁⟩ := keeps_calls h₀ ht₀ hcalls
  obtain ⟨k', h', hk'⟩ := keeps_restart (t := t) (h₀.calls h₁) hk₁.timely
  have hfunc : timeoutFunc trueClock cb t (k.remove t) = some k₁ :=
    timeoutFunc_eq_some.2 ⟨w, calls, hw, h₁⟩
  have hle : (due k').length ≤ (due (k.remove t)).length := (hk₁.trans hk').due.length_le
  have hpos : 0 < (due k).length := List.length_pos_of_mem hdue
  refine ⟨k', expire_eq_some.2 ⟨k₁, hfunc, h'⟩, hk'.timely, ?_⟩
  rw [due_remove, List.length_erase_of_mem hdue] at hle
  omega

theorem rtTimerCheck_timely (hcb : TimelyFunc cb) (h : Agenda lag k) (ht : Timely k)
    (hfuel : (due k).length < fuel) :
    ∃ k', rtTimerCheck trueClock cb fuel k = some k' ∧ Timely k' := by
  induction fuel generalizing k with
  | zero => exact absurd hfuel (Nat.not_lt_zero _)
  | succ fuel ih =>
    by_cases hhead : ∀ t ∈ k.rtTimerList.head?,
        trueClock.due k.rtTick (k.timer t).timeoutTick = false
    · exact ⟨k, rtTimerCheck_succ.2 (.inr ⟨hhead, rfl⟩), ht⟩
    · simp only [not_forall, Bool.not_eq_false] at hhead
      obtain ⟨t, hhd, hdue⟩ := hhead
      obtain ⟨rest, hlist⟩ := List.head?_eq_some_iff.1 hhd
      have hmem : t ∈ due k := mem_due.2 ⟨List.mem_of_mem_head? hhd, of_decide_eq_true hdue⟩
      obtain ⟨k₁, he, ht₁, hless⟩ := length_due_expire hcb h ht hmem
      obtain ⟨k', hc, ht'⟩ := ih (h.expire he) ht₁ (by omega)
      exact ⟨k', rtTimerCheck_succ.2 (.inl ⟨t, rest, hlist, hdue, k₁, he, hc⟩), ht'⟩

/-- What an event has to meet: a thread sets no other time, and the rest of the system returns. -/
def KernelEvent.Timely : KernelEvent W → Prop
  | .call c => c.Timely
  | .tick => True
  | .other f => ∀ w, ∃ w', f w = some w'

theorem kernelNext_timely {e : KernelEvent W} (hcb : TimelyFunc cb) (h : Agenda 0 k)
    (ht : Timely k) (he : e.Timely) :
    ∃ n k', Timely k' ∧ ∀ fuel ≥ n, kernelNext trueClock cb fuel e k = some k' := by
  cases e with
  | call call =>
    obtain ⟨k', hc, hk'⟩ := keeps_call h ht he
    exact ⟨0, k', hk'.timely, fun _ _ => hc⟩
  | tick =>
    have htick : Timely (k.count trueClock) := ht
    obtain ⟨k', hc, ht'⟩ := rtTimerCheck_timely hcb h.tick htick (Nat.lt_succ_self _)
    exact ⟨_, k', ht', fun _ hle => rtTimerCheck_mono hle hc⟩
  | other f =>
    obtain ⟨w, hw⟩ := he k.world
    exact ⟨0, { k with world := w }, ht, fun _ _ => by rw [kernelNext, hw]; rfl⟩

/-- **Every run of the kernel gets past its ticks.**  Where no time is set to zero or to half a
clock, and the functions and the rest of the system return, so does every run. -/
theorem kernelRun_returns (hcb : TimelyFunc cb) (h : Agenda 0 k) (ht : Timely k)
    {es : List (KernelEvent W)} (hes : ∀ e ∈ es, e.Timely) :
    ∃ n, ∀ fuel ≥ n, ∃ k', (run (kernelStep tickClock cb fuel) es).run k.wrap = .ok () k' := by
  suffices hrun : ∃ n, ∀ fuel ≥ n, ∃ k',
      (run (kernelStep trueClock cb fuel) es).run k = .ok () k' by
    obtain ⟨n, hn⟩ := hrun
    refine ⟨n, fun fuel hle => ?_⟩
    obtain ⟨k', hk'⟩ := hn fuel hle
    exact ⟨k'.wrap, (kernelRun_wrap h).2 ⟨k', hk', rfl⟩⟩
  induction es generalizing k with
  | nil => exact ⟨0, fun _ _ => ⟨k, rfl⟩⟩
  | cons e es ih =>
    obtain ⟨n₁, k₁, ht₁, hnext⟩ := kernelNext_timely hcb h ht (hes e (List.mem_cons_self ..))
    have h₁ : Agenda 0 k₁ := h.next (hnext n₁ le_rfl)
    obtain ⟨n₂, hrest⟩ := ih h₁ ht₁ fun e he => hes e (List.mem_cons_of_mem _ he)
    refine ⟨max n₁ n₂, fun fuel hle => ?_⟩
    obtain ⟨k', hk'⟩ := hrest fuel ((Nat.le_max_right n₁ n₂).trans hle)
    have hle₁ : n₁ ≤ fuel := (Nat.le_max_left n₁ n₂).trans hle
    exact ⟨k', run_cons_ok.2 ⟨k₁, ofOption_ok.2 (hnext fuel hle₁), hk'⟩⟩

/-- Any number of ticks after the start of a timer. -/
theorem kernelRun_returns_turn : ∃ n, ∀ fuel ≥ n, ∃ k', (run (kernelStep tickClock nothing fuel)
    (.call (.start 0) :: List.replicate 1000 .tick)).run turn.wrap = .ok () k' := by
  refine kernelRun_returns (fun _ _ => ⟨(), [], rfl, fun _ h => by cases h⟩) agenda_turn
    (fun _ => by simp [turn, RT_TICK_MAX]) fun e he => ?_
  rcases List.mem_cons.1 he with rfl | he
  · trivial
  · rw [(List.mem_replicate.1 he).2]
    trivial

end Kernel
end AccTx
