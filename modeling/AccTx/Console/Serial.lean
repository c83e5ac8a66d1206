/-
# Characters from the serial port

`rt_hw_serial_isr`, `_serial_int_rx` and `finsh_getchar`: how a character gets from the receiver to
the shell.  The interrupt puts the characters into a ring and releases the semaphore of the shell;
the shell thread reads one character after another, and where there is none takes the semaphore and
tries again.  The interrupt may come between any two steps of the thread.

The ring is full one element early, and then drops its oldest character.  So it is a queue
(`queue`) of at most `bufsz - 1` characters: `rxFifo_outputs` says that the shell gets the same
characters at the same steps from the one as from the other.  While there is room in the queue none
is lost, and the thread does not wait while there is a character to read, so a shell that waits has
been given the characters received, all of them and in order (`waiting_has_all`).

The value of the semaphore is 16 bits wide and `rt_sem_release` does not look at it, so this needs
that it does not wrap.
-/

import AccTx.Effect.Mealy
import AccTx.Series.Fifo
import Mathlib.Data.List.ReduceOption

namespace AccTx
namespace Console

open Effect Series

/-! ### The ring -/

/-- `struct rt_serial_rx_fifo`. -/
structure RxFifo where
  buffer : ℕ → UInt8
  putIndex : ℕ
  getIndex : ℕ
  isFull : Bool

/-- The index behind `i`. -/
def advance (bufsz i : ℕ) : ℕ := if i + 1 ≥ bufsz then 0 else i + 1

/-- The loop of `rt_hw_serial_isr`, for one character. -/
def RxFifo.put (bufsz : ℕ) (ch : UInt8) (f : RxFifo) : RxFifo :=
  let put := advance bufsz f.putIndex
  let f := { f with buffer := Function.update f.buffer f.putIndex ch, putIndex := put }
  -- the next position is the read index: its character is discarded
  if put = f.getIndex then { f with getIndex := advance bufsz f.getIndex, isFull := true } else f

/-- `_serial_int_rx` for one character. -/
def RxFifo.get (bufsz : ℕ) (f : RxFifo) : Option (UInt8 × RxFifo) :=
  if f.getIndex = f.putIndex ∧ f.isFull = false then none
  else some (f.buffer f.getIndex,
    { f with getIndex := advance bufsz f.getIndex, isFull := false })

/-- `rx_length` of `rt_hw_serial_isr`. -/
def RxFifo.rxLength (bufsz : ℕ) (f : RxFifo) : ℕ :=
  if f.putIndex ≥ f.getIndex then f.putIndex - f.getIndex
  else bufsz - (f.getIndex - f.putIndex)

/-- What the interrupt and the thread do with the characters in between. -/
structure FifoOps (F : Type) where
  put : UInt8 → F → F
  get : F → Option (UInt8 × F)
  size : F → ℕ

def rxFifo (bufsz : ℕ) : FifoOps RxFifo where
  put := RxFifo.put bufsz
  get := RxFifo.get bufsz
  size := RxFifo.rxLength bufsz

/-- A queue of at most `bufsz - 1` characters. -/
def queue (bufsz : ℕ) : FifoOps (List UInt8) where
  put ch q := arrive (bufsz - 1) q ch
  get
    | [] => none
    | ch :: q => some (ch, q)
  size := List.length

/-! ### The interrupt and the thread -/

/-- Where the shell thread is in `finsh_getchar`: about to read, about to take `rx_sem`, or
suspended on it. -/
inductive ThreadStat
  | reading
  | taking
  | waiting
  deriving DecidableEq

/-- The ring or the queue between the two, the semaphore, and the thread. -/
structure Port (F : Type) where
  fifo : F
  rxSem : ℕ
  thread : ThreadStat

/-- A receive interrupt with the characters the receiver has, or the next step of the thread. -/
inductive PortEvent
  | isr (chars : List UInt8)
  | thread

variable {F : Type}

/-- `rt_sem_release(&shell->rx_sem)`. -/
def rtSemRelease (s : Port F) : Port F :=
  match s.thread with
  | .waiting => { s with thread := .reading }
  | .reading | .taking => { s with rxSem := (s.rxSem + 1) % 2 ^ 16 }

/-- `rt_sem_take(&shell->rx_sem, RT_WAITING_FOREVER)`. -/
def rtSemTake (s : Port F) : Port F :=
  if s.rxSem > 0 then { s with rxSem := s.rxSem - 1, thread := .reading }
  else { s with thread := .waiting }

/-- The end of `rt_hw_serial_isr`, which calls `finsh_rx_ind` if there are characters. -/
def rxIndicate (ops : FifoOps F) (s : Port F) : Port F :=
  if ops.size s.fifo ≠ 0 then rtSemRelease s else s

def portNext (ops : FifoOps F) (s : Port F) : PortEvent → Port F
  | .isr chars => rxIndicate ops { s with fifo := chars.foldl (fun f ch => ops.put ch f) s.fifo }
  | .thread =>
    match s.thread with
    | .reading =>
      match ops.get s.fifo with
      | some (_, f) => { s with fifo := f }
      | none => { s with thread := .taking }
    | .taking => rtSemTake s
    | .waiting => s

/-- The character a step hands to the shell. -/
def portOut (ops : FifoOps F) (s : Port F) : PortEvent → Option UInt8
  | .isr _ => none
  | .thread =>
    match s.thread with
    | .reading => (ops.get s.fifo).map Prod.fst
    | .taking | .waiting => none

/-- The characters handed to the shell in a run. -/
def delivered (ops : FifoOps F) (s : Port F) (es : List PortEvent) : List UInt8 :=
  (outputs (portNext ops) (portOut ops) s es).reduceOption

/-- The characters received in a run. -/
def received : List PortEvent → List UInt8
  | [] => []
  | .isr chars :: es => chars ++ received es
  | .thread :: es => received es

/-! ### The ring is a queue -/

variable {n : ℕ} {f : RxFifo}

/-- The indices are in the buffer, and the ring is not taken for empty when it is full. -/
structure RxFifo.WellFormed (n : ℕ) (f : RxFifo) : Prop where
  put : f.putIndex < n
  get : f.getIndex < n
  full : f.isFull = true → f.getIndex ≠ f.putIndex

/-- The characters in the ring. -/
def RxFifo.contents (n : ℕ) (f : RxFifo) : List UInt8 :=
  window f.buffer n f.getIndex (elapsed n f.putIndex f.getIndex)

theorem advance_lt (hn : 0 < n) (i : ℕ) : advance n i < n := by
  unfold advance
  split <;> omega

theorem advance_eq_mod (hn : 0 < n) {i : ℕ} (h : i < n) : advance n i = (i + 1) % n := by
  have hmod := succ_mod hn i
  rw [Nat.mod_eq_of_lt h] at hmod
  rw [hmod]
  rfl

theorem add_elapsed_mod {a b : ℕ} (ha : a < n) (hb : b < n) : (b + elapsed n a b) % n = a := by
  rw [elapsed_eq ha hb]
  split
  · rw [Nat.add_sub_cancel' ‹_›, Nat.mod_eq_of_lt ha]
  · have hsum : b + (a + n - b) = a + n := by omega
    rw [hsum, Nat.add_mod_right, Nat.mod_eq_of_lt ha]

theorem RxFifo.length_contents (h : f.WellFormed n) :
    (f.contents n).length = f.rxLength n := by
  have hput := h.put
  have hget := h.get
  rw [contents, length_window, elapsed_eq h.put h.get, rxLength]
  split <;> omega

theorem RxFifo.wellFormed_put (hn : 2 ≤ n) (h : f.WellFormed n) (ch : UInt8) :
    (f.put n ch).WellFormed n := by
  have hpos : 0 < n := by omega
  unfold RxFifo.put
  simp only
  split
  · rename_i heq
    refine ⟨advance_lt hpos _, advance_lt hpos _, fun _ => ?_⟩
    have hget := h.get
    simp only [heq]
    unfold advance
    split <;> omega
  · rename_i hne
    exact ⟨advance_lt hpos _, h.get, fun _ => Ne.symm hne⟩

/-- **A character received.** -/
theorem RxFifo.contents_put (hn : 2 ≤ n) (h : f.WellFormed n) (ch : UInt8) :
    (f.put n ch).contents n = arrive (n - 1) (f.contents n) ch := by
  have hpos : 0 < n := by omega
  have hput := h.put
  have hget := h.get
  have hlen := elapsed_eq h.put h.get
  have hslot := add_elapsed_mod h.put h.get
  have hlt : elapsed n f.putIndex f.getIndex < n := by
    rw [hlen]
    split <;> omega
  have hwrite := @window_update _ n f.getIndex _ f.buffer hlt ch
  rw [hslot] at hwrite
  have hnext := elapsed_eq (advance_lt hpos f.putIndex) h.get
  unfold RxFifo.put
  simp only
  split
  · rename_i heq
    -- the ring was full
    have hfull : elapsed n f.putIndex f.getIndex + 1 = n := by
      rw [hlen]
      unfold advance at heq
      split at heq <;> split <;> omega
    have hafter : elapsed n (advance n f.putIndex) (advance n f.getIndex) =
        elapsed n f.putIndex f.getIndex := by
      rw [heq, elapsed_eq h.get (advance_lt hpos _)]
      unfold advance
      split <;> split <;> omega
    rw [arrive_full (by rw [contents, length_window]; omega), contents, contents, ← hwrite,
      window_succ, List.tail_cons]
    simp only [hafter]
    rw [advance_eq_mod hpos h.get, window_mod]
  · rename_i hne
    have hroom : elapsed n (advance n f.putIndex) f.getIndex =
        elapsed n f.putIndex f.getIndex + 1 := by
      rw [hnext, hlen]
      unfold advance at hne ⊢
      split_ifs at hne ⊢ <;> omega
    have hless : elapsed n f.putIndex f.getIndex + 1 < n := by
      rw [← hroom, hnext]
      have := advance_lt hpos f.putIndex
      split <;> omega
    rw [arrive_of_lt (by rw [contents, length_window]; omega), contents, contents, ← hwrite]
    simp only [hroom]

/-- **A character read.** -/
theorem RxFifo.get_contents (hn : 2 ≤ n) (h : f.WellFormed n) :
    (queue n).get (f.contents n) = (f.get n).map (Prod.map id (RxFifo.contents n)) ∧
      ∀ p ∈ f.get n, RxFifo.WellFormed n p.2 := by
  have hpos : 0 < n := by omega
  have hput := h.put
  have hget := h.get
  have hlen := elapsed_eq h.put h.get
  unfold RxFifo.get
  split
  · rename_i hempty
    have hzero : elapsed n f.putIndex f.getIndex = 0 := by
      rw [hlen, hempty.1]
      split <;> omega
    rw [contents, hzero, window_zero]
    exact ⟨rfl, fun p hp => by cases hp⟩
  · rename_i hsome
    have hne : f.getIndex ≠ f.putIndex := by
      intro heq
      have hfull : f.isFull ≠ false := fun hf => hsome ⟨heq, hf⟩
      exact h.full (Bool.eq_true_of_not_eq_false hfull) heq
    obtain ⟨m, hm⟩ : ∃ m, elapsed n f.putIndex f.getIndex = m + 1 := by
      refine Nat.exists_eq_succ_of_ne_zero ?_
      rw [hlen]
      split <;> omega
    have hrest : elapsed n f.putIndex (advance n f.getIndex) = m := by
      rw [elapsed_eq h.put (advance_lt hpos _)]
      rw [hlen] at hm
      unfold advance
      split at hm <;> split <;> split <;> omega
    refine ⟨?_, fun p hp => ?_⟩
    · rw [contents, hm, window_succ, Nat.mod_eq_of_lt h.get]
      simp only [queue, Option.map_some, Prod.map_apply, id_eq, contents, hrest]
      rw [advance_eq_mod hpos h.get, window_mod]
    · obtain rfl := Option.some_inj.1 hp
      exact ⟨h.put, advance_lt hpos _, fun hf => by cases hf⟩

/-- The ring seen as a queue. -/
def Port.abs (n : ℕ) (s : Port RxFifo) : Port (List UInt8) where
  fifo := s.fifo.contents n
  rxSem := s.rxSem
  thread := s.thread

theorem foldl_put (hn : 2 ≤ n) (h : f.WellFormed n) (chars : List UInt8) :
    (chars.foldl (fun f ch => (rxFifo n).put ch f) f).WellFormed n ∧
      (chars.foldl (fun f ch => (rxFifo n).put ch f) f).contents n =
        chars.foldl (fun q ch => (queue n).put ch q) (f.contents n) := by
  induction chars generalizing f with
  | nil => exact ⟨h, rfl⟩
  | cons ch chars ih =>
    have hone := RxFifo.contents_put hn h ch
    obtain ⟨hwf, hcontents⟩ := ih (RxFifo.wellFormed_put hn h ch)
    refine ⟨hwf, hcontents.trans ?_⟩
    rw [hone]
    rfl

theorem abs_release (s : Port RxFifo) : (rtSemRelease s).abs n = rtSemRelease (s.abs n) := by
  obtain ⟨_, _, thread⟩ := s
  cases thread <;> rfl

theorem abs_take (s : Port RxFifo) : (rtSemTake s).abs n = rtSemTake (s.abs n) := by
  unfold rtSemTake
  show (if s.rxSem > 0 then _ else _ : Port RxFifo).abs n = if s.rxSem > 0 then _ else _
  split <;> rfl

theorem rtSemRelease_fifo (s : Port F) : (rtSemRelease s).fifo = s.fifo := by
  obtain ⟨_, _, thread⟩ := s
  cases thread <;> rfl

theorem rtSemTake_fifo (s : Port F) : (rtSemTake s).fifo = s.fifo := by
  unfold rtSemTake
  split <;> rfl

theorem rxIndicate_fifo (ops : FifoOps F) (s : Port F) : (rxIndicate ops s).fifo = s.fifo := by
  unfold rxIndicate
  split
  · exact rtSemRelease_fifo s
  · rfl

theorem abs_indicate {s : Port RxFifo} (h : s.fifo.WellFormed n) :
    (rxIndicate (rxFifo n) s).abs n = rxIndicate (queue n) (s.abs n) := by
  have hsize : (queue n).size (s.abs n).fifo = (rxFifo n).size s.fifo := RxFifo.length_contents h
  unfold rxIndicate
  rw [hsize]
  split
  · exact abs_release s
  · rfl

/-- **One step of the port.** -/
theorem port_step (hn : 2 ≤ n) {s : Port RxFifo} (h : s.fifo.WellFormed n) (e : PortEvent) :
    (portNext (rxFifo n) s e).fifo.WellFormed n ∧
      (portNext (rxFifo n) s e).abs n = portNext (queue n) (s.abs n) e ∧
      portOut (rxFifo n) s e = portOut (queue n) (s.abs n) e := by
  cases e with
  | isr chars =>
    obtain ⟨hwf, hcontents⟩ := foldl_put hn h chars
    refine ⟨?_, ?_, rfl⟩
    · rw [portNext, rxIndicate_fifo]
      exact hwf
    · rw [portNext, portNext, abs_indicate hwf, Port.abs, hcontents]
      rfl
  | thread =>
    obtain ⟨hget, hwf⟩ := RxFifo.get_contents hn h
    have hthread : (s.abs n).thread = s.thread := rfl
    have hfifo : (s.abs n).fifo = s.fifo.contents n := rfl
    have hring : (rxFifo n).get s.fifo = s.fifo.get n := rfl
    unfold portNext portOut
    simp only [hthread, hfifo, hget, hring]
    cases ht : s.thread with
    | reading =>
      cases hr : s.fifo.get n with
      | none => exact ⟨h, rfl, rfl⟩
      | some p => exact ⟨hwf p hr, rfl, rfl⟩
    | taking =>
      refine ⟨?_, abs_take s, rfl⟩
      rw [rtSemTake_fifo]
      exact h
    | waiting => exact ⟨h, rfl, rfl⟩

/-- A run of the port. -/
theorem port_run (hn : 2 ≤ n) {s : Port RxFifo} (h : s.fifo.WellFormed n) (es : List PortEvent) :
    outputs (portNext (rxFifo n)) (portOut (rxFifo n)) s es =
        outputs (portNext (queue n)) (portOut (queue n)) (s.abs n) es ∧
      (es.foldl (portNext (rxFifo n)) s).abs n = es.foldl (portNext (queue n)) (s.abs n) :=
  @outputs_simulates_of _ _ _ _ (portNext (rxFifo n)) (fun s => s.fifo.WellFormed n)
    (portNext (queue n)) (Port.abs n) _ _ (fun _ e h => (port_step hn h e).1)
    (fun _ e h => (port_step hn h e).2.1) (fun _ e h => (port_step hn h e).2.2) s h es

/-- The port when the shell has opened it. -/
def opened : Port RxFifo where
  fifo := { buffer := fun _ => 0, putIndex := 0, getIndex := 0, isFull := false }
  rxSem := 0
  thread := .reading

theorem wellFormed_opened (hn : 2 ≤ n) : opened.fifo.WellFormed n :=
  ⟨by show 0 < n; omega, by show 0 < n; omega, fun hf => by cases hf⟩

theorem abs_opened (hn : 2 ≤ n) :
    opened.abs n = { fifo := [], rxSem := 0, thread := .reading } := by
  have hempty : elapsed n 0 0 = 0 := by
    rw [elapsed_eq (by omega) (by omega), if_pos le_rfl, Nat.sub_self]
  show (⟨window _ n 0 (elapsed n 0 0), 0, .reading⟩ : Port (List UInt8)) = _
  rw [hempty, window_zero]

/-- **The ring of the serial driver is a queue that drops its oldest character.**  From the opening
of the port on, in every interleaving of receive interrupts with the steps of the shell thread, the
shell is handed the same characters, at the same steps, as from a queue of `bufsz - 1` characters,
and waits for the semaphore exactly when it would there. -/
theorem rxFifo_outputs (hn : 2 ≤ n) (es : List PortEvent) :
    outputs (portNext (rxFifo n)) (portOut (rxFifo n)) opened es =
        outputs (portNext (queue n)) (portOut (queue n))
          { fifo := [], rxSem := 0, thread := .reading } es ∧
      (es.foldl (portNext (rxFifo n)) opened).thread =
        (es.foldl (portNext (queue n)) { fifo := [], rxSem := 0, thread := .reading }).thread := by
  obtain ⟨hout, hstate⟩ := port_run hn (wellFormed_opened hn) es
  rw [abs_opened hn] at hout hstate
  exact ⟨hout, congrArg Port.thread hstate⟩

/-- A ring of three slots: the first of three characters is dropped. -/
theorem rxFifo_outputs_three : outputs (portNext (rxFifo 3)) (portOut (rxFifo 3)) opened
    [.isr [97, 98, 99], .thread, .thread, .thread] = [none, some 98, some 99, none] :=
  (rxFifo_outputs (by decide) _).1.trans (by decide)

/-! ### Nothing is lost -/

/-- The ring has room for the characters of an interrupt, and the semaphore does not wrap. -/
def HasRoom (n : ℕ) (s : Port (List UInt8)) : PortEvent → Prop
  | .isr chars => s.fifo.length + chars.length < n ∧ s.rxSem + 1 < 2 ^ 16
  | .thread => True

instance (n : ℕ) (s : Port (List UInt8)) (e : PortEvent) : Decidable (HasRoom n s e) :=
  match e with
  | .isr _ => inferInstanceAs (Decidable (_ ∧ _))
  | .thread => inferInstanceAs (Decidable True)

/-- The thread takes the semaphore, or waits for it, without a character to read only: otherwise
the semaphore has been released since it looked. -/
structure Awake (s : Port (List UInt8)) : Prop where
  taking : s.thread = .taking → s.fifo ≠ [] → 0 < s.rxSem
  waiting : s.thread = .waiting → s.fifo = []

theorem awake_reading {s : Port (List UInt8)} (h : s.thread = .reading) : Awake s := by
  refine ⟨fun ht => ?_, fun ht => ?_⟩
  · rw [h] at ht
    cases ht
  · rw [h] at ht
    cases ht

theorem foldl_arrive {q : List UInt8} {chars : List UInt8} (h : q.length + chars.length < n) :
    chars.foldl (fun q ch => (queue n).put ch q) q = q ++ chars := by
  induction chars generalizing q with
  | nil => rw [List.foldl_nil, List.append_nil]
  | cons ch chars ih =>
    rw [List.length_cons] at h
    have hone : (queue n).put ch q = q ++ [ch] := arrive_of_lt (by omega) ch
    rw [List.foldl_cons, hone, ih (by rw [List.length_append, List.length_singleton]; omega),
      List.append_assoc, List.singleton_append]

/-- **One step of the queue.** -/
theorem queue_step {s : Port (List UInt8)} (h : Awake s) {e : PortEvent} (he : HasRoom n s e) :
    Awake (portNext (queue n) s e) ∧
      (portOut (queue n) s e).toList ++ (portNext (queue n) s e).fifo =
        s.fifo ++ received [e] := by
  obtain ⟨q, sem, thread⟩ := s
  cases e with
  | isr chars =>
    obtain ⟨hroom, hsem⟩ := he
    have hput : chars.foldl (fun q ch => (queue n).put ch q) q = q ++ chars := foldl_arrive hroom
    have hsem' : (sem + 1) % 2 ^ 16 = sem + 1 := Nat.mod_eq_of_lt hsem
    have hsize : (queue n).size (q ++ chars) = (q ++ chars).length := rfl
    rw [portNext, portOut, rxIndicate_fifo]
    simp only [hput, received, List.append_nil, Option.toList_none, List.nil_append, and_true]
    unfold rxIndicate
    simp only [hsize]
    split
    · cases thread with
      | reading => exact awake_reading rfl
      | taking =>
        refine ⟨fun _ _ => ?_, fun ht => (by cases ht)⟩
        show 0 < (sem + 1) % 2 ^ 16
        omega
      | waiting => exact awake_reading rfl
    · rename_i hempty
      have hnil : q ++ chars = [] := List.eq_nil_of_length_eq_zero (not_not.1 hempty)
      exact ⟨fun _ hne => absurd hnil hne, fun _ => hnil⟩
  | thread =>
    cases thread with
    | reading =>
      cases q with
      | nil =>
        refine ⟨⟨fun _ hne => absurd rfl hne, fun ht => ?_⟩, rfl⟩
        cases ht
      | cons ch q => exact ⟨awake_reading rfl, (List.append_nil _).symm⟩
    | taking =>
      have htake := h.taking rfl
      refine ⟨?_, ?_⟩
      · show Awake (rtSemTake _)
        unfold rtSemTake
        split
        · exact awake_reading rfl
        · rename_i hzero
          refine ⟨fun ht => (by cases ht), fun _ => ?_⟩
          by_contra hne
          exact hzero (htake hne)
      · show [] ++ (rtSemTake _).fifo = _
        rw [rtSemTake_fifo]
        exact (List.append_nil _).symm
    | waiting => exact ⟨h, (List.append_nil _).symm⟩

theorem received_cons (e : PortEvent) (es : List PortEvent) :
    received (e :: es) = received [e] ++ received es := by
  cases e with
  | isr chars => simp [received]
  | thread => rfl

/-- A run of the queue. -/
theorem queue_run {s : Port (List UInt8)} (h : Awake s) {es : List PortEvent}
    (hes : Always (portNext (queue n)) (HasRoom n) s es) :
    Awake (es.foldl (portNext (queue n)) s) ∧
      delivered (queue n) s es ++ (es.foldl (portNext (queue n)) s).fifo =
        s.fifo ++ received es := by
  induction es generalizing s with
  | nil => exact ⟨h, (List.append_nil _).symm⟩
  | cons e es ih =>
    obtain ⟨hroom, hrest⟩ := hes
    obtain ⟨hawake, hone⟩ := queue_step h hroom
    obtain ⟨hend, hmany⟩ := ih hawake hrest
    refine ⟨hend, ?_⟩
    have hcons : delivered (queue n) s (e :: es) =
        (portOut (queue n) s e).toList ++ delivered (queue n) (portNext (queue n) s e) es := by
      unfold delivered
      rw [outputs]
      cases portOut (queue n) s e with
      | none => rw [List.reduceOption_cons_of_none]; rfl
      | some ch => rw [List.reduceOption_cons_of_some]; rfl
    rw [hcons, List.foldl_cons, List.append_assoc, hmany, ← List.append_assoc, hone,
      List.append_assoc, ← received_cons]

/-- **A shell that waits has every character.**  From the opening of the port on, in every
interleaving in which the ring has room for what is received, the characters handed to the shell
are those received, in order, up to some that are still in the ring, and where the thread waits
for the semaphore none is. -/
theorem waiting_has_all (hn : 2 ≤ n) {es : List PortEvent}
    (hes : Always (portNext (queue n)) (HasRoom n) { fifo := [], rxSem := 0, thread := .reading }
      es) : delivered (rxFifo n) opened es <+: received es ∧
      ((es.foldl (portNext (rxFifo n)) opened).thread = .waiting →
        delivered (rxFifo n) opened es = received es) := by
  obtain ⟨hout, hstate⟩ := port_run hn (wellFormed_opened hn) es
  rw [abs_opened hn] at hout hstate
  have hawake : Awake { fifo := [], rxSem := 0, thread := .reading } := awake_reading rfl
  obtain ⟨hend, hall⟩ := queue_run hawake hes
  have hdel : delivered (rxFifo n) opened es =
      delivered (queue n) { fifo := [], rxSem := 0, thread := .reading } es :=
    congrArg List.reduceOption hout
  rw [← hdel] at hall
  refine ⟨⟨_, hall⟩, fun ht => ?_⟩
  have hwaiting := (congrArg Port.thread hstate).symm.trans ht
  rw [hend.waiting hwaiting, List.append_nil] at hall
  exact hall

/-- Three characters in two interrupts, the second between the look into the ring and the
semaphore. -/
theorem waiting_has_all_three : delivered (rxFifo 64) opened
    [.isr [97, 98], .thread, .thread, .thread, .isr [99], .thread, .thread, .thread, .thread,
      .thread, .thread] = [97, 98, 99] :=
  (waiting_has_all (by decide) (by decide)).2 (by decide)

end Console
end AccTx
