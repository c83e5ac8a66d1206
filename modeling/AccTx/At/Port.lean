/-
# From the receiver to the parser

`at_client_getchar` and `at_client_rx_ind` over the receive ring of `rt_hw_serial_isr`.  The parser
reads a character, and where there is none resets `rx_notice`, takes it, and tries again.  The
interrupt may come between any two of these steps.

The shell does not reset its semaphore (`finsh_getchar`), so it never waits while there is a
character to read.  The parser does: a character that comes between its look into the ring and the
reset is not noticed.  None is lost, but the parser waits with those characters in the ring
(`waiting_missed`), until another one comes (`wakeup_lost`).
-/

import AccTx.At.Frames
import AccTx.Console.Serial

namespace AccTx
namespace At

open Console (FifoOps RxFifo rxFifo queue foldl_put foldl_arrive)
open Effect Series

/-! ### The interrupt and the parser -/

/-- Where the parser is in `at_client_getchar`: about to read, to reset `rx_notice`, to take it, or
suspended on it. -/
inductive GetcharPoint
  | reading
  | resetting
  | taking
  | waiting
  deriving DecidableEq

/-- The ring or the queue, `rx_notice`, and the parser. -/
structure AtPort (F : Type) where
  fifo : F
  rxNotice : ℕ
  point : GetcharPoint

/-- A receive interrupt with the characters the receiver has, the next step of the parser, or the
end of its wait. -/
inductive AtPortEvent
  | isr (chars : List UInt8)
  | thread
  | expire
  deriving DecidableEq

variable {F : Type}

/-- `rt_sem_release(rx_notice)`. -/
def AtPort.release (s : AtPort F) : AtPort F :=
  match s.point with
  | .waiting => { s with point := .reading }
  | .reading | .resetting | .taking => { s with rxNotice := (s.rxNotice + 1) % 2 ^ 16 }

/-- `at_client_rx_ind` at the end of `rt_hw_serial_isr`. -/
def atClientRxInd (ops : FifoOps F) (s : AtPort F) : AtPort F :=
  if 0 < ops.size s.fifo then s.release else s

def atPortNext (ops : FifoOps F) (s : AtPort F) : AtPortEvent → AtPort F
  | .isr chars =>
    atClientRxInd ops { s with fifo := chars.foldl (fun f ch => ops.put ch f) s.fifo }
  | .thread =>
    match s.point with
    | .reading =>
      match ops.get s.fifo with
      | some (_, f) => { s with fifo := f }
      | none => { s with point := .resetting }
    | .resetting => { s with rxNotice := 0, point := .taking }
    | .taking =>
      if 0 < s.rxNotice then { s with rxNotice := s.rxNotice - 1, point := .reading }
      else { s with point := .waiting }
    | .waiting => s
  | .expire =>
    match s.point with
    | .waiting => { s with point := .reading }
    | .reading | .resetting | .taking => s

/-- What a step hands to the parser. -/
def atPortOut (ops : FifoOps F) (s : AtPort F) : AtPortEvent → Option (Option UInt8)
  | .isr _ => none
  | .thread => if s.point = .reading then (ops.get s.fifo).map fun p => some p.1 else none
  | .expire => if s.point = .waiting then some none else none

/-- What is handed to the parser in a run. -/
def handed (ops : FifoOps F) (s : AtPort F) (es : List AtPortEvent) : List (Option UInt8) :=
  (outputs (atPortNext ops) (atPortOut ops) s es).reduceOption

/-- The characters received in a run. -/
def arrived (es : List AtPortEvent) : List UInt8 :=
  es.flatMap fun
    | .isr chars => chars
    | _ => []

/-- The port behind `at_client_init`. -/
def openedPort : AtPort RxFifo where
  fifo := { buffer := fun _ => 0, putIndex := 0, getIndex := 0, isFull := false }
  rxNotice := 0
  point := .reading

/-- The same with a queue. -/
def emptyPort : AtPort (List UInt8) where
  fifo := []
  rxNotice := 0
  point := .reading

/-! ### The ring is a queue -/

variable {n : ℕ}

/-- The ring seen as a queue. -/
def AtPort.abs (n : ℕ) (s : AtPort RxFifo) : AtPort (List UInt8) where
  fifo := s.fifo.contents n
  rxNotice := s.rxNotice
  point := s.point

theorem AtPort.release_fifo (s : AtPort F) : s.release.fifo = s.fifo := by
  obtain ⟨_, _, point⟩ := s
  cases point <;> rfl

theorem atClientRxInd_fifo (ops : FifoOps F) (s : AtPort F) :
    (atClientRxInd ops s).fifo = s.fifo := by
  unfold atClientRxInd
  split
  · exact s.release_fifo
  · rfl

theorem abs_rxInd {s : AtPort RxFifo} (h : s.fifo.WellFormed n) :
    (atClientRxInd (rxFifo n) s).abs n = atClientRxInd (queue n) (s.abs n) := by
  have hsize : (queue n).size (s.abs n).fifo = (rxFifo n).size s.fifo := RxFifo.length_contents h
  unfold atClientRxInd
  rw [hsize]
  split
  · obtain ⟨_, _, point⟩ := s
    cases point <;> rfl
  · rfl

/-- **One step of the port.** -/
theorem atPort_step (hn : 2 ≤ n) {s : AtPort RxFifo} (h : s.fifo.WellFormed n) (e : AtPortEvent) :
    (atPortNext (rxFifo n) s e).fifo.WellFormed n ∧
      (atPortNext (rxFifo n) s e).abs n = atPortNext (queue n) (s.abs n) e ∧
      atPortOut (rxFifo n) s e = atPortOut (queue n) (s.abs n) e := by
  cases e with
  | isr chars =>
    obtain ⟨hwf, hcontents⟩ := foldl_put hn h chars
    refine ⟨?_, ?_, rfl⟩
    · rw [atPortNext, atClientRxInd_fifo]
      exact hwf
    · rw [atPortNext, atPortNext, abs_rxInd hwf, AtPort.abs, hcontents]
      rfl
  | thread =>
    obtain ⟨hget, hwf⟩ := RxFifo.get_contents hn h
    obtain ⟨fifo, notice, point⟩ := s
    cases point with
    | reading =>
      have hring : (rxFifo n).get fifo = fifo.get n := rfl
      unfold atPortNext atPortOut
      simp only [AtPort.abs, hget, hring]
      cases hr : fifo.get n with
      | none => exact ⟨h, rfl, rfl⟩
      | some p => exact ⟨hwf p hr, rfl, rfl⟩
    | taking =>
      unfold atPortNext
      by_cases hnotice : 0 < notice
      · simp only [AtPort.abs, if_pos hnotice]
        exact ⟨h, (if_pos hnotice).symm, rfl⟩
      · simp only [AtPort.abs, if_neg hnotice]
        exact ⟨h, (if_neg hnotice).symm, rfl⟩
    | _ => exact ⟨h, rfl, rfl⟩
  | expire =>
    obtain ⟨_, _, point⟩ := s
    cases point <;> exact ⟨h, rfl, rfl⟩

/-- **A run of the port.** -/
theorem atPort_run (hn : 2 ≤ n) (es : List AtPortEvent) :
    handed (rxFifo n) openedPort es = handed (queue n) emptyPort es ∧
      (es.foldl (atPortNext (rxFifo n)) openedPort).abs n =
        es.foldl (atPortNext (queue n)) emptyPort := by
  have hopened : openedPort.fifo.WellFormed n := Console.wellFormed_opened hn
  have habs : openedPort.abs n = emptyPort :=
    congrArg (fun s => (⟨s.fifo, 0, .reading⟩ : AtPort (List UInt8))) (Console.abs_opened hn)
  obtain ⟨hout, hstate⟩ := @outputs_simulates_of _ _ _ _ (atPortNext (rxFifo n))
    (fun s => s.fifo.WellFormed n) (atPortNext (queue n)) (AtPort.abs n) _ _
    (fun _ e h => (atPort_step hn h e).1) (fun _ e h => (atPort_step hn h e).2.1)
    (fun _ e h => (atPort_step hn h e).2.2) _ hopened es
  rw [habs] at hout hstate
  exact ⟨congrArg List.reduceOption hout, hstate⟩

/-! ### What is in the queue while the parser waits -/

/-- The ring has room for the characters of an interrupt, and `rx_notice` does not wrap where the
parser is about to take it. -/
def HasRoom (n : ℕ) (s : AtPort (List UInt8)) : AtPortEvent → Prop
  | .isr chars =>
    s.fifo.length + chars.length < n ∧ (s.point = .taking → s.rxNotice + 1 < 2 ^ 16)
  | _ => True

instance (n : ℕ) (s : AtPort (List UInt8)) (e : AtPortEvent) : Decidable (HasRoom n s e) :=
  match e with
  | .isr _ => inferInstanceAs (Decidable (_ ∧ _))
  | .thread | .expire => inferInstanceAs (Decidable True)

/-- The queue after a run. -/
def queueAfter (n : ℕ) (es : List AtPortEvent) : AtPort (List UInt8) :=
  es.foldl (atPortNext (queue n)) emptyPort

/-- The runs in which there is room. -/
def Roomy (n : ℕ) (es : List AtPortEvent) : Prop :=
  Always (atPortNext (queue n)) (HasRoom n) emptyPort es

instance (n : ℕ) (es : List AtPortEvent) : Decidable (Roomy n es) :=
  inferInstanceAs (Decidable (Always _ _ _ _))

variable {es es₁ es₂ es₃ : List AtPortEvent} {e : AtPortEvent} {s : AtPort (List UInt8)}

theorem queueAfter_concat (es : List AtPortEvent) (e : AtPortEvent) :
    queueAfter n (es ++ [e]) = atPortNext (queue n) (queueAfter n es) e := List.foldl_append

theorem Roomy.concat (h : Roomy n (es ++ [e])) : Roomy n es ∧ HasRoom n (queueAfter n es) e := by
  obtain ⟨hrun, hlast, -⟩ := always_append.1 h
  exact ⟨hrun, hlast⟩

theorem arrived_append (es fs : List AtPortEvent) : arrived (es ++ fs) = arrived es ++ arrived fs :=
  List.flatMap_append

theorem arrived_isr (chars : List UInt8) : arrived [.isr chars] = chars := List.append_nil chars

theorem arrived_thread (es : List AtPortEvent) : arrived (.thread :: es) = arrived es := rfl

theorem handed_concat (es : List AtPortEvent) (e : AtPortEvent) :
    handed (queue n) emptyPort (es ++ [e]) = handed (queue n) emptyPort es ++
      (atPortOut (queue n) (queueAfter n es) e).toList := by
  rw [handed, outputs_append, List.reduceOption_append]
  congr 1

/-- An interrupt with room for its characters. -/
theorem isr_fifo {chars : List UInt8} (h : s.fifo.length + chars.length < n) :
    (atPortNext (queue n) s (.isr chars)).fifo = s.fifo ++ chars := by
  rw [atPortNext, atClientRxInd_fifo]
  exact foldl_arrive h

/-- **Nothing is lost.** -/
theorem handed_fifo (h : Roomy n es) :
    (handed (queue n) emptyPort es).reduceOption ++ (queueAfter n es).fifo = arrived es := by
  induction es using List.reverseRecOn with
  | nil => rfl
  | append_singleton es e ih =>
    obtain ⟨hrun, hroom⟩ := h.concat
    have hone : (atPortOut (queue n) (queueAfter n es) e).toList.reduceOption ++
        (atPortNext (queue n) (queueAfter n es) e).fifo =
          (queueAfter n es).fifo ++ arrived [e] := by
      generalize queueAfter n es = s at hroom
      obtain ⟨q, notice, point⟩ := s
      cases e with
      | isr chars =>
        rw [isr_fifo hroom.1]
        simp [atPortOut, arrived]
      | thread =>
        cases point with
        | reading => cases q <;> simp [atPortOut, atPortNext, queue, arrived]
        | taking =>
          unfold atPortNext
          simp only
          split <;> simp [atPortOut, arrived]
        | _ => simp [atPortOut, atPortNext, arrived]
      | expire => cases point <;> simp [atPortOut, atPortNext, arrived]
    rw [handed_concat, List.reduceOption_append, queueAfter_concat, List.append_assoc, hone,
      ← List.append_assoc, ih hrun, arrived_append]

/-- The parser has looked into the ring without finding a character. -/
def Looked (n : ℕ) (es : List AtPortEvent) : Prop :=
  (queueAfter n es).point = .reading ∧ (queueAfter n es).fifo = []

/-- A run with a look into the empty queue, and the events behind it up to the reset. -/
structure Resetting (n : ℕ) (es es₁ es₂ : List AtPortEvent) : Prop where
  run : es = es₁ ++ .thread :: es₂
  looked : Looked n es₁
  between : .thread ∉ es₂

/-- What has happened in a run, by the state behind it. -/
def History (n : ℕ) (es : List AtPortEvent) (s : AtPort (List UInt8)) : Prop :=
  match s.point with
  | .reading => True
  | .resetting => ∃ es₁ es₂, Resetting n es es₁ es₂ ∧ s.fifo = arrived es₂
  | .taking =>
    ∃ es' es₁ es₂ es₃, Resetting n es' es₁ es₂ ∧ es = es' ++ .thread :: es₃ ∧
      s.fifo = arrived es₂ ++ arrived es₃ ∧ (arrived es₃ ≠ [] → 0 < s.rxNotice)
  | .waiting =>
    ∃ es' es₁ es₂ es₃, Resetting n es' es₁ es₂ ∧ es = es' ++ .thread :: es₃ ∧
      s.fifo = arrived es₂ ∧ arrived es₃ = []

theorem Resetting.concat (h : Resetting n es es₁ es₂) (he : e ≠ .thread) :
    Resetting n (es ++ [e]) es₁ (es₂ ++ [e]) := by
  refine ⟨?_, h.looked, ?_⟩
  · rw [h.run, List.append_assoc, List.cons_append]
  · rw [List.mem_append, List.mem_singleton]
    exact fun hmem => hmem.elim h.between (Ne.symm he)

/-- An interrupt releases `rx_notice` if the queue is not empty behind it. -/
theorem isr_cases {chars : List UInt8} (h : s.fifo.length + chars.length < n) :
    (s.fifo ++ chars = [] ∧ atPortNext (queue n) s (.isr chars) = s) ∨
      atPortNext (queue n) s (.isr chars) = { s with fifo := s.fifo ++ chars }.release := by
  have hput : chars.foldl (fun q ch => (queue n).put ch q) s.fifo = s.fifo ++ chars :=
    foldl_arrive h
  unfold atPortNext atClientRxInd
  simp only [hput]
  split
  · exact Or.inr rfl
  · rename_i hsize
    have hnil : s.fifo ++ chars = [] := List.eq_nil_of_length_eq_zero (Nat.eq_zero_of_not_pos hsize)
    refine Or.inl ⟨hnil, ?_⟩
    rw [hnil, ← (List.append_eq_nil_iff.1 hnil).1]

theorem append_thread_concat (es es₃ : List AtPortEvent) (e : AtPortEvent) :
    es ++ .thread :: es₃ ++ [e] = es ++ .thread :: (es₃ ++ [e]) := by
  rw [List.append_assoc, List.cons_append]

/-- **An interrupt.**  While the parser is about to take `rx_notice`, it leaves a token. -/
theorem History.isr (h : History n es s) {chars : List UInt8} (hroom : HasRoom n s (.isr chars)) :
    History n (es ++ [.isr chars]) (atPortNext (queue n) s (.isr chars)) := by
  have harrived : ∀ es', arrived (es' ++ [.isr chars]) = arrived es' ++ chars := fun es' => by
    rw [arrived_append, arrived_isr]
  obtain ⟨q, notice, point⟩ := s
  have hfifo := isr_fifo hroom.1
  have hisr := isr_cases hroom.1
  cases point with
  | reading => rcases hisr with ⟨-, hstep⟩ | hstep <;> rw [hstep] <;> trivial
  | resetting =>
    obtain ⟨es₁, es₂, hreset, rfl⟩ := h
    have hlater : Resetting n (es ++ [.isr chars]) es₁ (es₂ ++ [.isr chars]) :=
      hreset.concat AtPortEvent.noConfusion
    rw [← harrived] at hfifo
    rcases hisr with ⟨-, hstep⟩ | hstep <;> rw [hstep] at hfifo ⊢ <;>
      exact ⟨es₁, _, hlater, hfifo⟩
  | taking =>
    obtain ⟨es', es₁, es₂, es₃, hreset, rfl, rfl, htoken⟩ := h
    rw [append_thread_concat]
    rw [List.append_assoc, ← harrived] at hfifo
    rcases hisr with ⟨hnil, hstep⟩ | hstep
    · rw [hstep] at hfifo ⊢
      have hchars : chars = [] := (List.append_eq_nil_iff.1 hnil).2
      refine ⟨es', es₁, es₂, _, hreset, rfl, hfifo, ?_⟩
      rw [harrived, hchars, List.append_nil]
      exact htoken
    · rw [hstep] at hfifo ⊢
      refine ⟨es', es₁, es₂, _, hreset, rfl, hfifo, fun _ => ?_⟩
      show 0 < (notice + 1) % 2 ^ 16
      rw [Nat.mod_eq_of_lt (hroom.2 rfl)]
      exact Nat.succ_pos notice
  | waiting =>
    obtain ⟨es', es₁, es₂, es₃, hreset, rfl, rfl, hnone⟩ := h
    rw [append_thread_concat]
    rcases hisr with ⟨hnil, hstep⟩ | hstep
    · rw [hstep]
      refine ⟨es', es₁, es₂, _, hreset, rfl, rfl, ?_⟩
      rw [harrived, hnone, (List.append_eq_nil_iff.1 hnil).2, List.append_nil]
    · rw [hstep]
      trivial

/-- **A step of the parser.** -/
theorem History.thread (h : History n es (queueAfter n es)) :
    History n (es ++ [.thread]) (atPortNext (queue n) (queueAfter n es) .thread) := by
  have hlooked : Looked n es ↔
      (queueAfter n es).point = .reading ∧ (queueAfter n es).fifo = [] := Iff.rfl
  generalize queueAfter n es = s at h hlooked
  obtain ⟨q, notice, point⟩ := s
  cases point with
  | reading =>
    cases q with
    | nil => exact ⟨es, [], ⟨rfl, hlooked.2 ⟨rfl, rfl⟩, List.not_mem_nil⟩, rfl⟩
    | cons ch q => trivial
  | resetting =>
    obtain ⟨es₁, es₂, hreset, rfl⟩ := h
    exact ⟨es, es₁, es₂, [], hreset, rfl, (List.append_nil _).symm, fun hne => absurd rfl hne⟩
  | taking =>
    obtain ⟨es', es₁, es₂, es₃, hreset, rfl, rfl, htoken⟩ := h
    rw [append_thread_concat, atPortNext]
    simp only
    split
    · trivial
    · rename_i hnotice
      have hnone : arrived es₃ = [] := not_not.1 fun hne => hnotice (htoken hne)
      refine ⟨es', es₁, es₂, _, hreset, rfl, ?_, ?_⟩
      · show arrived es₂ ++ arrived es₃ = arrived es₂
        rw [hnone, List.append_nil]
      · rw [arrived_append, hnone, arrived_thread]
        rfl
  | waiting =>
    obtain ⟨es', es₁, es₂, es₃, hreset, rfl, rfl, hnone⟩ := h
    rw [append_thread_concat]
    refine ⟨es', es₁, es₂, _, hreset, rfl, rfl, ?_⟩
    rw [arrived_append, hnone]
    rfl

/-- The end of a wait. -/
theorem History.expire (h : History n es s) :
    History n (es ++ [.expire]) (atPortNext (queue n) s .expire) := by
  have harrived : ∀ es', arrived (es' ++ [.expire]) = arrived es' := fun es' => by
    rw [arrived_append]
    exact List.append_nil _
  obtain ⟨q, notice, point⟩ := s
  cases point with
  | reading => trivial
  | resetting =>
    obtain ⟨es₁, es₂, hreset, rfl⟩ := h
    exact ⟨es₁, _, hreset.concat AtPortEvent.noConfusion, (harrived es₂).symm⟩
  | taking =>
    obtain ⟨es', es₁, es₂, es₃, hreset, rfl, rfl, htoken⟩ := h
    rw [append_thread_concat]
    refine ⟨es', es₁, es₂, _, hreset, rfl, ?_, ?_⟩
    · rw [harrived]
      rfl
    · rw [harrived]
      exact htoken
  | waiting => trivial

/-- What has happened in every run. -/
theorem history (h : Roomy n es) : History n es (queueAfter n es) := by
  induction es using List.reverseRecOn with
  | nil => trivial
  | append_singleton es e ih =>
    obtain ⟨hrun, hroom⟩ := h.concat
    rw [queueAfter_concat]
    cases e with
    | isr chars => exact (ih hrun).isr hroom
    | thread => exact (ih hrun).thread
    | expire => exact (ih hrun).expire

/-- **A parser that waits has not noticed what came between its look and the reset.**  In every
interleaving in which the ring has room for what is received, the characters handed to the parser
are those received, in order, up to some that are still in the ring.  Where the parser waits, these
are the ones that came between its last look into the ring, which was empty, and the reset of
`rx_notice`, and none has come since. -/
theorem waiting_missed (hn : 2 ≤ n) (h : Roomy n es) :
    (handed (rxFifo n) openedPort es).reduceOption <+: arrived es ∧
      ((es.foldl (atPortNext (rxFifo n)) openedPort).point = .waiting →
        ∃ es₁ es₂ es₃, es = es₁ ++ .thread :: es₂ ++ .thread :: es₃ ∧
          (es₁.foldl (atPortNext (rxFifo n)) openedPort).point = .reading ∧ .thread ∉ es₂ ∧
          arrived es₃ = [] ∧
          (handed (rxFifo n) openedPort es).reduceOption = arrived es₁ ∧
          (es.foldl (atPortNext (rxFifo n)) openedPort).fifo.contents n = arrived es₂) := by
  obtain ⟨hhanded, hstate⟩ := atPort_run hn es
  have hall := handed_fifo h
  rw [← hhanded] at hall
  refine ⟨⟨_, hall⟩, fun hwait => ?_⟩
  have hhistory := history h
  have hpoint : (queueAfter n es).point = .waiting :=
    (congrArg AtPort.point hstate).symm.trans hwait
  unfold History at hhistory
  rw [hpoint] at hhistory
  obtain ⟨es', es₁, es₂, es₃, hreset, rfl, hfifo, hnone⟩ := hhistory
  obtain rfl := hreset.run
  have hlook := (congrArg AtPort.point (atPort_run hn es₁).2).trans hreset.looked.1
  refine ⟨es₁, es₂, es₃, rfl, hlook, hreset.between, hnone, ?_, ?_⟩
  · have hsplit : arrived (es₁ ++ .thread :: es₂ ++ .thread :: es₃) =
        arrived es₁ ++ arrived es₂ := by
      simp only [arrived_append, arrived_thread, hnone, List.append_nil]
    rw [hsplit, hfifo] at hall
    exact List.append_cancel_right hall
  · exact (congrArg AtPort.fifo hstate).trans hfifo

/-- The second of two characters comes between a look and the reset. -/
theorem waiting_missed_two : (handed (rxFifo 64) openedPort
    [.isr [97], .thread, .thread, .isr [98], .thread, .thread]).reduceOption <+: [97, 98] :=
  (waiting_missed (by decide) (by decide)).1

/-! ### The wake-up lost -/

/-- Before the reset, an interrupt leaves the characters to the queue. -/
theorem resetting_run (hpoint : s.point = .resetting)
    (hroom : Always (atPortNext (queue n)) (HasRoom n) s es) (hes : .thread ∉ es) :
    (es.foldl (atPortNext (queue n)) s).point = .resetting ∧
      (es.foldl (atPortNext (queue n)) s).fifo = s.fifo ++ arrived es := by
  induction es generalizing s with
  | nil => exact ⟨hpoint, (List.append_nil _).symm⟩
  | cons e es ih =>
    obtain ⟨hone, hmany⟩ := hroom
    rw [List.mem_cons, not_or] at hes
    have hstep : (atPortNext (queue n) s e).point = .resetting ∧
        (atPortNext (queue n) s e).fifo = s.fifo ++ arrived [e] := by
      obtain ⟨q, notice, point⟩ := s
      obtain rfl : point = .resetting := hpoint
      cases e with
      | isr chars =>
        refine ⟨?_, by rw [isr_fifo hone.1, arrived_isr]⟩
        rcases isr_cases hone.1 with ⟨-, hsame⟩ | hrelease
        · rw [hsame]
        · rw [hrelease]
          rfl
      | thread => exact absurd rfl hes.1
      | expire => exact ⟨rfl, (List.append_nil _).symm⟩
    obtain ⟨hend, hfifo⟩ := ih hstep.1 hmany hes.2
    refine ⟨hend, ?_⟩
    rw [List.foldl_cons, hfifo, hstep.2, List.append_assoc, ← arrived_append]
    rfl

/-- The parser reads as long as there are characters. -/
theorem reading_run {q : List UInt8} (hpoint : s.point = .reading) (hfifo : s.fifo = q) :
    ((List.replicate q.length .thread).foldl (atPortNext (queue n)) s).fifo = [] := by
  induction q generalizing s with
  | nil => exact hfifo
  | cons ch q ih =>
    have hstep : atPortNext (queue n) s .thread = { s with fifo := q } := by
      unfold atPortNext
      rw [hpoint, hfifo]
      rfl
    rw [List.length_cons, List.replicate_succ, List.foldl_cons, hstep]
    exact ih hpoint rfl

theorem roomy_threads (h : Roomy n es) (k : ℕ) : Roomy n (es ++ List.replicate k .thread) := by
  refine always_append.2 ⟨h, ?_⟩
  generalize es.foldl (atPortNext (queue n)) emptyPort = s
  induction k generalizing s with
  | zero => trivial
  | succ k ih => exact ⟨trivial, ih _⟩

/-- **The parser waits with characters in the queue.** -/
theorem queue_waits (h : Roomy n (es ++ .thread :: es')) (hlooked : Looked n es)
    (hes' : .thread ∉ es') :
    queueAfter n (es ++ .thread :: es' ++ [.thread, .thread]) =
      { fifo := arrived es', rxNotice := 0, point := .waiting } := by
  have hroom : Always (atPortNext (queue n)) (HasRoom n)
      (atPortNext (queue n) (queueAfter n es) .thread) es' := (always_append.1 h).2.2
  have hlook : atPortNext (queue n) (queueAfter n es) .thread =
      { fifo := [], rxNotice := (queueAfter n es).rxNotice, point := .resetting } := by
    obtain ⟨hpoint, hfifo⟩ := hlooked
    generalize queueAfter n es = s at hpoint hfifo
    obtain ⟨q, notice, point⟩ := s
    obtain rfl : point = .reading := hpoint
    obtain rfl : q = [] := hfifo
    rfl
  have hstart : queueAfter n (es ++ .thread :: es') =
      es'.foldl (atPortNext (queue n)) (atPortNext (queue n) (queueAfter n es) .thread) := by
    rw [queueAfter, List.foldl_append, List.foldl_cons]
    rfl
  obtain ⟨hpoint, hfifo⟩ := resetting_run (by rw [hlook]) hroom hes'
  rw [← hstart, hlook, List.nil_append] at hfifo
  rw [← hstart] at hpoint
  have htwo : queueAfter n (es ++ .thread :: es' ++ [.thread, .thread]) =
      atPortNext (queue n) (atPortNext (queue n) (queueAfter n (es ++ .thread :: es')) .thread)
        .thread := by
    rw [queueAfter, List.foldl_append]
    rfl
  rw [htwo]
  generalize queueAfter n (es ++ .thread :: es') = s at hpoint hfifo
  obtain ⟨q, notice, point⟩ := s
  obtain rfl : point = .resetting := hpoint
  obtain rfl : q = arrived es' := hfifo
  rfl

/-- **A wake-up is lost.**  Where the parser finds no character, and some come before it resets
`rx_notice` and none before it takes it, it waits though they are in the ring.  With the next ones
it is handed all of them. -/
theorem wakeup_lost (hn : 2 ≤ n) {es es' : List AtPortEvent} {chars : List UInt8}
    (h : Roomy n (es ++ .thread :: es' ++ [.thread, .thread] ++ [.isr chars])) (hchars : chars ≠ [])
    (hlook : (es.foldl (atPortNext (rxFifo n)) openedPort).point = .reading)
    (hall : (handed (rxFifo n) openedPort es).reduceOption = arrived es) (hes' : .thread ∉ es') :
    let waits := es ++ .thread :: es' ++ [.thread, .thread]
    let s := waits.foldl (atPortNext (rxFifo n)) openedPort
    s.point = .waiting ∧ s.fifo.contents n = arrived es' ∧
      (handed (rxFifo n) openedPort (waits ++ [.isr chars] ++
        List.replicate (arrived es' ++ chars).length .thread)).reduceOption =
          arrived es ++ arrived es' ++ chars := by
  intro waits s
  obtain ⟨hwaits, hroom⟩ := h.concat
  have hrun : Roomy n (es ++ .thread :: es') := (always_append.1 hwaits).1
  have hempty : (queueAfter n es).fifo = [] := by
    have hes := handed_fifo (always_append.1 hrun).1
    rw [← (atPort_run hn es).1, hall] at hes
    exact List.append_right_eq_self.1 hes
  have hlooked : Looked n es :=
    ⟨(congrArg AtPort.point (atPort_run hn es).2).symm.trans hlook, hempty⟩
  have hqueue := queue_waits hrun hlooked hes'
  have hstate : s.abs n = _ := (atPort_run hn waits).2.trans hqueue
  refine ⟨congrArg AtPort.point hstate, congrArg AtPort.fifo hstate, ?_⟩
  -- the interrupt wakes it, and then it reads until the ring is empty
  have hwoken : queueAfter n (waits ++ [.isr chars]) =
      { fifo := arrived es' ++ chars, rxNotice := 0, point := .reading } := by
    rw [queueAfter_concat]
    rcases isr_cases hroom.1 with ⟨hnil, -⟩ | hrelease
    · exact absurd (List.append_eq_nil_iff.1 hnil).2 hchars
    · rw [hrelease, hqueue]
      rfl
  have hread : (queueAfter n (waits ++ [.isr chars] ++
      List.replicate (arrived es' ++ chars).length .thread)).fifo = [] := by
    rw [queueAfter, List.foldl_append, ← queueAfter, hwoken]
    exact reading_run rfl rfl
  have hhanded := handed_fifo (roomy_threads h (arrived es' ++ chars).length)
  rw [hread, List.append_nil] at hhanded
  rw [(atPort_run hn _).1, hhanded]
  have hthreads : ∀ k, arrived (List.replicate k .thread) = [] := fun k => by
    induction k with
    | zero => rfl
    | succ k ih => exact ih
  have hwaits : arrived waits = arrived es ++ arrived es' := by
    simp only [waits, arrived_append, arrived_thread]
    exact List.append_nil _
  rw [arrived_append, arrived_append, arrived_isr, hthreads, hwaits, List.append_nil]

/-- A line that is complete in the ring, and not noticed. -/
theorem wakeup_lost_ok :
    (handed (rxFifo 64) openedPort
      ([.isr [0x4f, 0x4b], .thread, .thread] ++ .thread :: [.isr [0x0d, 0x0a]] ++
        [.thread, .thread] ++ [.isr [0x4f]] ++ List.replicate 3 .thread)).reduceOption =
      [0x4f, 0x4b] ++ [0x0d, 0x0a] ++ [0x4f] :=
  (@wakeup_lost 64 (by decide) [.isr [0x4f, 0x4b], .thread, .thread] [.isr [0x0d, 0x0a]] [0x4f]
    (by decide) (by decide) (by decide) (by decide) (by decide)).2.2

end At
end AccTx
