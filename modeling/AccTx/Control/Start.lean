/-
# A start that fails

`sr_hwt_start` returns the error of the timer driver, and leaves the timer stopped then.  None
of its callers looks at what it returns: `power_en_opt` sets `out_en` to 1, `rect_freq_opt`
and `freq_opt` leave it at 1, and all of them return 1, so the conflict branch of
`reg_map_write` is never taken.  The output is shown enabled and is silent.

So the output is enabled only after a successful start, and no write with a start that failed
is acknowledged, exactly in the runs in which the starts succeed: all those of the buttons and
of the writes accepted, and the latest one of a write that is refused and leaves the output
enabled (`failed_starts_iff`).
-/

import AccTx.Control.Tick

namespace AccTx
namespace Control

open Firmware Effect

/-- The calls that start the timer. -/
def IsStart : Call → Prop
  | .srHwtStart _ _ => True
  | _ => False

instance : DecidablePred IsStart
  | .srHwtStart _ _ => inferInstanceAs (Decidable True)
  | .freqOpt _ => inferInstanceAs (Decidable False)
  | .srHwtStop => inferInstanceAs (Decidable False)
  | .rtThreadDelay _ => inferInstanceAs (Decidable False)

section
variable (startOk : List Call → Bool)

/-- The latest start among the calls succeeded. -/
def Started : List Call → Prop
  | [] => False
  | c :: l => if IsStart c then startOk (c :: l) = true else Started l

/-- Every start among the calls made after `base` succeeds. -/
def StartsOk (base : List Call) : List Call → Prop
  | [] => True
  | c :: l => (IsStart c → startOk (c :: (l ++ base)) = true) ∧ StartsOk base l

/-- The latest start among the calls made after `base` succeeds, if there is one. -/
def LatestOk (base : List Call) : List Call → Prop
  | [] => True
  | c :: l => if IsStart c then startOk (c :: (l ++ base)) = true else LatestOk base l

end

/-- The calls of a write, latest first. -/
def callsAt (regAddr : ℕ) (wrData : List ℕ) (m : Machine) : List Call :=
  (request regAddr wrData 5).elim [] rectFreqCalls ++
    ((request regAddr wrData 1).elim [] (freqCalls · m) ++
      (request regAddr wrData 0).elim [] (powerCalls · m))

/-- The output is enabled only after a start that succeeded. -/
def EnabledStarted (startOk : List Call → Bool) (m : Machine) : Prop :=
  m.stat.outEn = 1 → Started startOk m.calls

/-- A write that made a start that failed is not acknowledged. -/
def ReportsFailure (startOk : List Call → Bool) (e : Event) (m m' : Machine) : Prop :=
  match e with
  | .write regAddr wrData =>
    (regMapWrite (quiet startOk) regAddr wrData).run m = .ok .noErr m' →
      StartsOk startOk m.calls (made m m')
  | _ => True

/-- The starts of a button and of an accepted write succeed, and so does the latest one of a
refused write that leaves the output enabled. -/
def StartsSucceed (startOk : List Call → Bool) (e : Event) (m : Machine) : Prop :=
  match e with
  | .write regAddr wrData =>
    (Accepted regAddr wrData → StartsOk startOk m.calls (callsAt regAddr wrData m)) ∧
      (¬Accepted regAddr wrData → outEnAt regAddr wrData m.stat = 1 →
        LatestOk startOk m.calls (callsAt regAddr wrData m))
  | e => ∀ pinId, presses m e = some pinId → StartsOk startOk m.calls (buttonCalls pinId m)

variable {startOk : List Call → Bool} {m m' : Machine} {base l : List Call}

theorem StartsOk.latestOk (h : StartsOk startOk base l) : LatestOk startOk base l := by
  induction l with
  | nil => trivial
  | cons c l ih =>
    obtain ⟨hc, hl⟩ := h
    unfold LatestOk
    split
    · rename_i hstart
      exact hc hstart
    · exact ih hl

/-- **The latest start** is one of the calls made, or one before them. -/
theorem started_append : Started startOk (l ++ base) ↔
    LatestOk startOk base l ∧ ((∃ c ∈ l, IsStart c) ∨ Started startOk base) := by
  induction l with
  | nil => simp [LatestOk]
  | cons c l ih =>
    rw [List.cons_append, Started, LatestOk]
    by_cases hc : IsStart c
    · simp [hc]
    · simp [hc, ih]

/-! ### The calls made -/

/-- Switching the output does not change the calls of a preset. -/
theorem freqCalls_afterPowerEn (pram d : ℕ) (m : Machine) :
    freqCalls pram (m.afterPowerEn startOk d) = freqCalls pram m := by
  simp only [freqCalls, Machine.afterPowerEn, freqSelect_setOut]

theorem act_calls {f : ℕ → Machine → Machine} {k : ℕ → Machine → List Call}
    (h : ∀ d m, (f d m).calls = k d m ++ m.calls) (q : Option ℕ) (m : Machine) :
    (act f q m).calls = q.elim [] (k · m) ++ m.calls := by
  cases q with
  | none => rfl
  | some d => exact h d m

theorem afterPassed_calls (regAddr : ℕ) (wrData : List ℕ) (m : Machine) :
    (afterPassed startOk regAddr wrData m).calls = callsAt regAddr wrData m ++ m.calls := by
  have hfreq : ∀ p, freqCalls p (act (fun d m => m.afterPowerEn startOk d)
      (request regAddr wrData 0) m) = freqCalls p m := fun p =>
    act_frame (freqCalls p) (fun d m => freqCalls_afterPowerEn p d m) _ m
  rw [afterPassed_eq, act_calls (k := fun d _ => rectFreqCalls d) (fun _ _ => rfl),
    @act_frame _ (·.calls) (fun d m => m.afterVolum d) (fun _ _ => rfl),
    act_calls (k := freqCalls) (fun _ _ => rfl),
    act_calls (k := powerCalls) (fun _ _ => rfl), callsAt, List.append_assoc, List.append_assoc]
  simp only [hfreq]

/-! ### One event -/

/-- A write that leaves the output enabled has started it, or found it enabled. -/
theorem start_of_outEnAt {regAddr : ℕ} {wrData : List ℕ}
    (h : outEnAt regAddr wrData m.stat = 1) :
    (∃ c ∈ callsAt regAddr wrData m, IsStart c) ∨ m.stat.outEn = 1 := by
  unfold outEnAt at h
  cases hr : request regAddr wrData 0 with
  | none =>
    rw [hr] at h
    exact Or.inr h
  | some d =>
    rw [hr] at h
    have hg : Grants d m.stat := by
      by_contra hg
      simp [hg] at h
    refine Or.inl ⟨.srHwtStart 0 m.stat.rectFreq, ?_, trivial⟩
    simp [callsAt, hr, powerCalls, hg]

/-- **The output after a write** is enabled after a successful start where the latest start
of the write succeeds. -/
theorem enabledStarted_afterPassed (h : EnabledStarted startOk m) (regAddr : ℕ)
    (wrData : List ℕ) : EnabledStarted startOk (afterPassed startOk regAddr wrData m) ↔
      (outEnAt regAddr wrData m.stat = 1 →
        LatestOk startOk m.calls (callsAt regAddr wrData m)) := by
  unfold EnabledStarted
  rw [afterPassed_calls, afterPassed_stat, started_append]
  refine forall_congr' fun hon => and_iff_left ?_
  exact (start_of_outEnAt hon).imp_right h

/-- **The output after a button** likewise, where its start succeeds. -/
theorem enabledStarted_afterPbEvt (hm : InRange m) (h : EnabledStarted startOk m) (pinId : Pb) :
    EnabledStarted startOk (m.afterPbEvt startOk pinId) ↔
      StartsOk startOk m.calls (buttonCalls pinId m) := by
  have hcalls := @afterPbEvt_buttonCalls startOk pinId m
  unfold EnabledStarted
  rw [hcalls]
  rcases afterPbEvt_cases startOk pinId m with ⟨rfl, heq⟩ | ⟨_, _, heq⟩ |
    ⟨_, hon, i, _, heq⟩ | ⟨_, _, i, _, heq⟩ <;> rw [heq] at hcalls ⊢
  · by_cases hg : Grants (if m.stat.outEn = 0 then 1 else 0) m.stat
    · simp [Machine.afterPowerEn, buttonCalls, powerCalls, hg, Started, StartsOk, IsStart]
    · simp [Machine.afterPowerEn, buttonCalls, powerCalls, hg, StartsOk, IsStart]
  · have hnone : buttonCalls pinId m = [] := List.self_eq_append_left.1 hcalls
    rw [hnone]
    exact iff_of_true h trivial
  · -- the output stays enabled, and the frequency is started
    have hone : m.stat.outEn = 1 := hm.outEn.resolve_left hon
    have hfreq : buttonCalls pinId m = freqCalls i m := List.append_cancel_right hcalls.symm
    have hout : (m.afterFreq startOk i).stat.outEn = 1 :=
      (freqSelect_outEn m.conf i m.stat).trans hone
    rw [hfreq, forall_prop_of_true hout]
    simp [freqCalls, rectFreqCalls, Started, StartsOk, IsStart]
  · have hnone : buttonCalls pinId m = [] := List.self_eq_append_left.1 hcalls
    rw [hnone]
    exact iff_of_true h trivial

/-- **A write** keeps the output started and reports its failures exactly where its starts
succeed. -/
theorem startsSucceed_write (hm : InRange m) (h : EnabledStarted startOk m) (regAddr : ℕ)
    (wrData : List ℕ)
    (he : (step (quiet startOk) (.write regAddr wrData)).run m = .ok () m') :
    (EnabledStarted startOk m' ∧ ReportsFailure startOk (.write regAddr wrData) m m') ↔
      StartsSucceed startOk (.write regAddr wrData) m := by
  have hiff := enabledStarted_afterPassed h regAddr wrData
  have hmade : ∀ conf, made m { afterPassed startOk regAddr wrData m with conf := conf } =
      callsAt regAddr wrData m := fun _ => made_of_append (afterPassed_calls regAddr wrData m)
  rcases @regMapWrite_cases startOk m hm.live regAddr wrData with
    ⟨hacc, _, hrun⟩ | ⟨_, hrun⟩ | ⟨hacc, _, err, herr, hrun⟩
  · rw [step_write_run hrun] at he
    obtain ⟨-, rfl⟩ := EStateM.Result.ok.inj he
    rw [ReportsFailure, forall_prop_of_true hrun, hmade, StartsSucceed,
      forall_prop_of_true hacc, and_iff_left fun hno => absurd hacc hno]
    exact and_iff_right_of_imp fun hstarts => hiff.2 fun _ => hstarts.latestOk
  · simp [step, hrun] at he
  · rw [step_write_run hrun] at he
    obtain ⟨-, rfl⟩ := EStateM.Result.ok.inj he
    have hreports : ReportsFailure startOk (.write regAddr wrData) m
        (afterPassed startOk regAddr wrData m) := by
      intro hno
      rw [hrun] at hno
      exact absurd (EStateM.Result.ok.inj hno).1 herr
    rw [and_iff_left hreports, hiff, StartsSucceed, and_iff_right fun hyes => absurd hyes hacc,
      forall_prop_of_true hacc]

/-- **The other events** start the timer by the buttons they press only. -/
theorem enabledStarted_step (hm : InRange m) (h : EnabledStarted startOk m) {e : Event}
    (hne : ∀ regAddr wrData, e ≠ .write regAddr wrData)
    (he : (step (quiet startOk) e).run m = .ok () m') :
    EnabledStarted startOk m' ↔
      ∀ pinId, presses m e = some pinId → StartsOk startOk m.calls (buttonCalls pinId m) := by
  refine step_rule (I := fun m' => EnabledStarted startOk m' ↔ ∀ pinId, presses m e = some pinId →
    StartsOk startOk m.calls (buttonCalls pinId m)) (fun m₁ m₂ hs h₁ => ?_) hm.live hne he
    (fun pinId hp => ?_) (fun pins hp => ?_) (fun hl => ?_) fun hp => ?_
  · rw [← h₁, EnabledStarted, hs.outEn, hs.calls, EnabledStarted]
  · rw [enabledStarted_afterPbEvt hm h pinId, hp]
    simp only [Option.some.injEq, forall_eq']
  · subst hp
    exact iff_of_true h fun pinId hp => by cases hp
  · subst hl
    exact iff_of_true h fun pinId hp => by cases hp
  · rw [hp]
    exact iff_of_true h fun pinId hp => by cases hp

/-- **A step keeps the law exactly when its starts succeed.** -/
theorem startsSucceed_step (e : Event) (m m' : Machine) (hm : InRange m)
    (h : EnabledStarted startOk m) (he : (step (quiet startOk) e).run m = .ok () m') :
    (EnabledStarted startOk m' ∧ ReportsFailure startOk e m m') ↔ StartsSucceed startOk e m := by
  cases e with
  | write regAddr wrData => exact startsSucceed_write hm h regAddr wrData he
  | _ => exact (and_iff_left trivial).trans (enabledStarted_step hm h (by simp) he)

/-- **The output is enabled only after a successful start, and a write with a start that
failed is not acknowledged**, for every pattern of failures, in the runs from the start-up in
which the starts of the buttons and of the accepted writes succeed, and the latest one of
each refused write that leaves the output enabled, and in no other run. -/
theorem failed_starts_iff (startOk : List Call → Bool) (es : List Event) :
    Throughout (step (quiet startOk)) (EnabledStarted startOk) es boot ∧
      Along (step (quiet startOk)) (fun _ => ReportsFailure startOk) es boot ↔
        Guarded (step (quiet startOk)) (StartsSucceed startOk) es boot :=
  throughout_and_along_iff_guarded inRange_step startsSucceed_step inRange_boot
    fun h => absurd h (by rw [boot_stat]; decide)

/-- With a driver that never starts the timer, enabling the output is acknowledged and
leaves it enabled, with the timer stopped. -/
theorem failed_start_enables :
    ∃ m, (run (step (quiet fun _ => false)) [.write 0 [1]]).run boot = .ok () m ∧
      m.stat.outEn = 1 ∧ ¬Started (fun _ => false) m.calls ∧ m.timer.running = false ∧
      (regMapWrite (quiet fun _ => false) 0 [1]).run boot = .ok .noErr m := by
  have hrun := @regMapWrite_accepted (fun _ => false) boot inRange_boot.live 0 [1] (by decide)
    (by decide)
  refine ⟨_, run_cons_ok.2 ⟨_, step_write_run hrun, rfl⟩, rfl, fun h => ?_, rfl, hrun⟩
  cases h

end Control
end AccTx
