/-
# The panel and the output enable

The panel is written from five places.  `led_en` and `sts_led_update` show the output
state; `freq_opt` and `volum_opt` show the number they were called with.  The buttons
call these two only while the output is enabled, a register write calls them at any
time, and then lights a frequency or volume LED of a disabled output.

The numbers without an LED are the custom preset 4 and the volume 0.  So the panel
follows the output throughout a run exactly when every write of it that leaves the
output disabled requests no other preset and no other volume
(`panel_follows_iff`).
-/

import AccTx.Control.Outputs
import AccTx.Control.Range

namespace AccTx
namespace Control

open Firmware Effect

/-- The panel shows the output state: dark while the output is disabled, and the
preset and the volume in use while it is enabled. -/
structure PanelFollows (m : Machine) : Prop where
  off : m.stat.outEn = 0 → m.leds.f = dark ∧ m.leds.p = dark ∧ m.leds.sts = .high
  on : m.stat.outEn = 1 → m.leds.f = freqLeds m.stat.freqIndex ∧
    m.leds.p = volLeds m.stat.volumIndex ∧ m.leds.sts = .low

/-- A write that leaves the output disabled requests nothing that has an LED. -/
def ShowsWhileOn (e : Event) (m : Machine) : Prop :=
  match e with
  | .write regAddr wrData => outEnAt regAddr wrData m.stat = 0 →
    (∀ p, request regAddr wrData 1 = some p → p = 4) ∧
      (∀ v, request regAddr wrData 2 = some v → v = 0)
  | _ => True

variable {m m' : Machine} {startOk : List Call → Bool}

/-- The law reads nothing but these fields. -/
theorem PanelFollows.congr (h : PanelFollows m) (ho : m'.stat.outEn = m.stat.outEn)
    (hi : m'.stat.freqIndex = m.stat.freqIndex) (hv : m'.stat.volumIndex = m.stat.volumIndex)
    (hf : m'.leds.f = m.leds.f) (hp : m'.leds.p = m.leds.p) (hs : m'.leds.sts = m.leds.sts) :
    PanelFollows m' := by
  constructor
  · intro hoff
    rw [hf, hp, hs]
    exact h.off (ho ▸ hoff)
  · intro hon
    rw [hf, hp, hs, hi, hv]
    exact h.on (ho ▸ hon)

/-- The panel that follows the output, by its state. -/
theorem PanelFollows.leds_eq (hm : InRange m) (h : PanelFollows m) :
    m.leds.f = (if m.stat.outEn = 0 then dark else freqLeds m.stat.freqIndex) ∧
      m.leds.p = (if m.stat.outEn = 0 then dark else volLeds m.stat.volumIndex) ∧
      m.leds.sts = if m.stat.outEn = 0 then .high else .low := by
  rcases hm.outEn with hoff | hon
  · simp only [if_pos hoff]
    exact h.off hoff
  · have hne : m.stat.outEn ≠ 0 := by omega
    simp only [if_neg hne]
    exact h.on hon

theorem panelFollows_afterPowerEn (m : Machine) (pram : ℕ) :
    PanelFollows (m.afterPowerEn startOk pram) := by
  unfold Machine.afterPowerEn
  by_cases hg : Grants pram m.stat
  · refine ⟨fun hoff => ?_, fun _ => ?_⟩
    · simp [hg] at hoff
    · simp [hg]
  · refine ⟨fun _ => ?_, fun hon => ?_⟩
    · simp [hg]
    · simp [hg] at hon

theorem panelFollows_afterPbEvt (hm : InRange m) (h : PanelFollows m) (pinId : Pb) :
    PanelFollows (m.afterPbEvt startOk pinId) := by
  rcases afterPbEvt_cases startOk pinId m with ⟨_, heq⟩ | ⟨_, _, heq⟩ | ⟨_, hon, i, _, heq⟩ |
    ⟨_, hon, i, _, heq⟩ <;> rw [heq]
  · exact panelFollows_afterPowerEn m _
  · exact h
  · obtain ⟨_, hp, hs⟩ := h.on (hm.outEn.resolve_left hon)
    refine ⟨fun hoff => absurd ((freqSelect_outEn m.conf i m.stat).symm.trans hoff) hon,
      fun _ => ⟨rfl, ?_, hs⟩⟩
    exact hp.trans (congrArg volLeds (freqSelect_volumIndex m.conf i m.stat).symm)
  · obtain ⟨hf, _, hs⟩ := h.on (hm.outEn.resolve_left hon)
    exact ⟨fun hoff => absurd hoff hon, fun _ => ⟨hf, rfl, hs⟩⟩

theorem panelFollows_afterLeds (h : PanelFollows m) : PanelFollows (afterLeds m) := by
  constructor
  · intro hoff
    obtain ⟨hf, hp, _⟩ := h.off hoff
    exact ⟨hf, hp, if_neg (not_not.2 hoff)⟩
  · intro hon
    obtain ⟨hf, hp, _⟩ := h.on hon
    have hne : m.stat.outEn ≠ 0 := by
      rw [show m.stat.outEn = 1 from hon]
      decide
    exact ⟨hf, hp, if_pos hne⟩

/-! ### A write -/

section
variable {regAddr : ℕ} {wrData : List ℕ}

/-- The status LED shows what the write leaves of the output. -/
theorem stsLedAt_eq (hm : InRange m) (h : PanelFollows m) :
    stsLedAt regAddr wrData m = if outEnAt regAddr wrData m.stat = 0 then .high else .low := by
  unfold stsLedAt outEnAt
  cases request regAddr wrData 0 with
  | none => exact (h.leds_eq hm).2.2
  | some d => by_cases hg : Grants d m.stat <;> simp [hg]

/-- Without a preset requested the frequency LEDs show the output. -/
theorem freqLedsAt_eq (hm : InRange m) (h : PanelFollows m)
    (hr : request regAddr wrData 1 = none) :
    freqLedsAt regAddr wrData m =
      if outEnAt regAddr wrData m.stat = 0 then dark else freqLeds m.stat.freqIndex := by
  unfold freqLedsAt outEnAt
  rw [hr]
  cases request regAddr wrData 0 with
  | none => exact (h.leds_eq hm).1
  | some d => by_cases hg : Grants d m.stat <;> simp [hg]

/-- Without a volume requested the volume LEDs show the output. -/
theorem volLedsAt_eq (hm : InRange m) (h : PanelFollows m)
    (hr : request regAddr wrData 2 = none) :
    volLedsAt regAddr wrData m =
      if outEnAt regAddr wrData m.stat = 0 then dark else volLeds m.stat.volumIndex := by
  unfold volLedsAt outEnAt
  rw [hr]
  cases request regAddr wrData 0 with
  | none => exact (h.leds_eq hm).2.1
  | some d => by_cases hg : Grants d m.stat <;> simp [hg]

/-- The frequency LEDs of a disabled output stay dark unless a preset with an LED is
requested. -/
theorem freqLedsAt_eq_dark_iff (hm : InRange m) (h : PanelFollows m)
    (hout : outEnAt regAddr wrData m.stat = 0) :
    freqLedsAt regAddr wrData m = dark ↔ ∀ p, request regAddr wrData 1 = some p → p = 4 := by
  cases hr : request regAddr wrData 1 with
  | none =>
    rw [freqLedsAt_eq hm h hr, if_pos hout]
    exact iff_of_true rfl (by simp)
  | some p =>
    have hi := presetAt_freqIndex_of hr m
    have hle := preset_le hr
    simp only [freqLedsAt, hr, hi, freqLeds_eq_dark, Option.some.injEq, forall_eq']
    omega

/-- Its volume LEDs stay dark unless a volume with an LED is. -/
theorem volLedsAt_eq_dark_iff (hm : InRange m) (h : PanelFollows m)
    (hout : outEnAt regAddr wrData m.stat = 0) :
    volLedsAt regAddr wrData m = dark ↔ ∀ v, request regAddr wrData 2 = some v → v = 0 := by
  cases hr : request regAddr wrData 2 with
  | none =>
    rw [volLedsAt_eq hm h hr, if_pos hout]
    exact iff_of_true rfl (by simp)
  | some v =>
    have hle := volum_le hr
    simp only [volLedsAt, hr, volLeds_eq_dark, Option.some.injEq, forall_eq']
    omega

/-- The LEDs of an enabled output show the preset and the volume a write leaves in use. -/
theorem ledsAt_on (hm : InRange m) (h : PanelFollows m)
    (hout : outEnAt regAddr wrData m.stat ≠ 0) :
    freqLedsAt regAddr wrData m = freqLeds (presetAt regAddr wrData m).freqIndex ∧
      volLedsAt regAddr wrData m =
        volLeds ((request regAddr wrData 2).getD m.stat.volumIndex) := by
  constructor
  · cases hr : request regAddr wrData 1 with
    | none => simp only [freqLedsAt_eq hm h hr, hout, if_false, presetAt, hr]
    | some p => simp only [freqLedsAt, hr]
  · cases hr : request regAddr wrData 2 with
    | none => simp only [volLedsAt_eq hm h hr, hout, if_false, Option.getD_none]
    | some v => simp only [volLedsAt, hr, Option.getD_some]

/-- **When the check loop keeps the law.** -/
theorem panelFollows_afterPassed (hm : InRange m) (h : PanelFollows m) :
    PanelFollows (afterPassed startOk regAddr wrData m) ↔
      (outEnAt regAddr wrData m.stat = 0 →
        (∀ p, request regAddr wrData 1 = some p → p = 4) ∧
          (∀ v, request regAddr wrData 2 = some v → v = 0)) := by
  have hsts := @stsLedAt_eq m regAddr wrData hm h
  constructor
  · rintro ⟨hoff, -⟩ hout
    rw [afterPassed_stat, afterPassed_leds] at hoff
    obtain ⟨hf, hp, -⟩ := hoff hout
    exact ⟨(freqLedsAt_eq_dark_iff hm h hout).1 hf, (volLedsAt_eq_dark_iff hm h hout).1 hp⟩
  · intro hcond
    constructor
    · rw [afterPassed_stat, afterPassed_leds]
      intro hout
      simp only at hout
      obtain ⟨hpre, hvol⟩ := hcond hout
      exact ⟨(freqLedsAt_eq_dark_iff hm h hout).2 hpre, (volLedsAt_eq_dark_iff hm h hout).2 hvol,
        hsts.trans (if_pos hout)⟩
    · rw [afterPassed_stat, afterPassed_leds]
      intro hout
      simp only at hout
      have hne : outEnAt regAddr wrData m.stat ≠ 0 := by omega
      obtain ⟨hf, hp⟩ := ledsAt_on hm h hne
      exact ⟨hf, hp, hsts.trans (if_neg hne)⟩

end

/-- **A step keeps the law exactly when it shows nothing of a disabled output.** -/
theorem panelFollows_step (e : Event) (m m' : Machine) (hm : InRange m) (h : PanelFollows m)
    (he : (step (quiet startOk) e).run m = .ok () m') : PanelFollows m' ↔ ShowsWhileOn e m := by
  cases e with
  | write regAddr wrData =>
    have hp := @panelFollows_afterPassed m startOk regAddr wrData hm h
    obtain ⟨conf, rfl⟩ := step_write_leaves hm.live he
    refine Iff.trans ⟨fun hs => ?_, fun hs => ?_⟩ hp
    · exact hs.congr rfl rfl rfl rfl rfl rfl
    · exact hs.congr rfl rfl rfl rfl rfl rfl
  | _ =>
    refine iff_of_true (step_rule (fun m₁ m₂ hs h => ?_) hm.live (by simp) he
      (fun pinId _ => panelFollows_afterPbEvt hm h pinId) (fun pins _ => ?_)
      (fun _ => panelFollows_afterLeds h) fun _ => h) trivial
    · exact h.congr hs.outEn hs.freqIndex hs.volumIndex hs.ledsF hs.ledsP hs.ledsSts
    · exact h.congr rfl rfl rfl rfl rfl rfl

/-- The machine after the start-up and one `sts_led_update`. -/
def shown : Machine := finalState (stsLedUpdate.run boot)

theorem shown_eq : shown = afterLeds boot := by
  rw [shown, stsLedUpdate_run]
  rfl

theorem inRange_shown : InRange shown := by
  rw [shown_eq]
  exact inRange_boot.congr rfl rfl rfl rfl rfl rfl rfl

theorem panelFollows_shown : PanelFollows shown := by
  rw [shown_eq]
  obtain ⟨hf, hp⟩ := boot_leds
  refine ⟨fun _ => ⟨hf, hp, rfl⟩, fun hon => ?_⟩
  cases hon

/-- **Every panel indication follows the output state**, throughout the runs in which
no write shows a preset or a volume of a disabled output, and throughout no other
run. -/
theorem panel_follows_iff (startOk : List Call → Bool) (es : List Event) :
    Throughout (step (quiet startOk)) PanelFollows es shown ↔
      Guarded (step (quiet startOk)) ShowsWhileOn es shown :=
  throughout_iff_guarded inRange_step panelFollows_step inRange_shown panelFollows_shown

/-- Writing the volume lights a volume LED of the disabled output. -/
theorem volum_led_lit_disabled :
    ∃ m, (run (step hal) [.write 2 [3]]).run shown = .ok () m ∧
      m.stat.outEn = 0 ∧ m.leds.p ≠ dark := by
  have hacc : Accepted 2 [3] := by decide
  have hrun := @step_write_accepted (fun _ => true) shown inRange_shown.live 2 [3] hacc (by decide)
  refine ⟨_, run_cons_ok.2 ⟨_, hrun, rfl⟩, rfl, fun h => ?_⟩
  have h₃ := volLeds_eq_dark.1 (show volLeds 3 = dark from h)
  omega

end Control
end AccTx
