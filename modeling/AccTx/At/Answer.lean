/-
# The answer to a command

A command and its response, end to end: the characters of the server, at any interleaving with the
steps of the command and with those of other threads (`Exchange`).  Where the server is silent until
it has been asked, there was no token left over, and the wait does not time out, the command returns
success or failure as the lines of the stream say, and its response holds the lines kept
(`exec_answered`).  Where there was a token left over, it returns success without an answer
(`stale_returns`).
-/

import AccTx.At.Frames
import AccTx.At.Notice
import AccTx.At.Readable
import Mathlib.Tactic.IntervalCases

namespace AccTx
namespace At

open Effect Series

variable {conf : AtConf} {s : AtSystem} {c : Call} {a : ℕ}

/-- The lines among the messages that are no URCs. -/
def linesOf (messages : List AtMessage) : List (List UInt8) :=
  messages.filterMap fun
    | .line line => some line
    | _ => none

/-- What the parser is given in a run. -/
def inputOf (es : List AtEvent) : List (Option UInt8) :=
  es.filterMap fun
    | .rx c => some c
    | _ => none

/-- The lines kept of the stream behind a point of the parser, and how the response ends. -/
def answer (conf : AtConf) (size lineNum : ℕ) (r : AtReader) (input : List (Option UInt8)) :
    List (List UInt8) × Option AtRespStatus :=
  reply size lineNum [] (linesOf (received conf r input))

/-- What `at_obj_exec_cmd` returns. -/
def resultOf (status : AtRespStatus) : ℤ := if status ≠ .ok then -1 else 0

/-! ### Other threads -/

/-- Neither the parser nor the thread that holds the lock. -/
def AtEvent.Other (e : AtEvent) : Prop := e ≠ .caller ∧ e ≠ .expire ∧ ∀ ch, e ≠ .rx ch

/-- Other threads leave a command and its response alone. -/
theorem next_other (hc : s.caller = some c) (hloop : c.phase ≠ .loop) (ha : c.resp = some a)
    (hthere : s.heap a ≠ none) {e : AtEvent} (he : e.Other) :
    ∃ heap, atNext conf s e = { s with heap := heap } ∧ heap a = s.heap a := by
  cases e with
  | rx ch => exact absurd rfl (he.2.2 ch)
  | create b bufSize lineNum =>
    unfold atNext
    simp only
    split
    · rename_i hfree
      refine ⟨_, rfl, Function.update_of_ne ?_ _ _⟩
      rintro rfl
      exact hthere hfree
    · exact ⟨_, rfl, rfl⟩
  | delete b =>
    unfold atNext
    simp only
    split
    · exact ⟨_, rfl, rfl⟩
    · rename_i hother
      refine ⟨_, rfl, Function.update_of_ne ?_ _ _⟩
      rintro rfl
      exact hother (by rw [hc, Option.bind_some, ha])
  | execCmd resp =>
    unfold atNext
    simp only
    rw [if_neg fun hfree => by cases hc.symm.trans hfree.1]
    exact ⟨_, rfl, rfl⟩
  | waitConnect b =>
    unfold atNext
    simp only
    rw [if_neg fun hfree => by cases hc.symm.trans hfree.1]
    exact ⟨_, rfl, rfl⟩
  | caller => exact absurd rfl he.1
  | expire => exact absurd rfl he.2.1
  | giveUp =>
    have hstep : atNext conf s .giveUp = s := by
      unfold atNext
      simp only [hc]
      exact if_neg hloop
    rw [hstep]
    exact ⟨_, rfl, rfl⟩

/-! ### Up to the question -/

/-- The response of a command on the way to its wait. -/
def AskingState (s : AtSystem) (a : ℕ) (resp : AtResponse) : Phase → Prop
  | .status | .attach => s.resp = none ∧ s.heap a = some resp
  | .bufLen => s.resp = some a ∧ s.heap a = some resp
  | .lineCounts => s.resp = some a ∧ s.heap a = some { resp with bufLen := 0 }
  | .send | .take =>
    s.resp = some a ∧ s.heap a = some { resp with bufLen := 0, lineCounts := 0 }
  | _ => False

/-- A command on the way to its wait. -/
structure Asking (r : AtReader) (a : ℕ) (resp : AtResponse) (s : AtSystem) (phase : Phase) :
    Prop where
  caller : s.caller = some ⟨some a, false, phase⟩
  reader : s.reader = r
  notice : s.respNotice = 0
  state : AskingState s a resp phase

variable {r : AtReader} {resp : AtResponse} {phase : Phase}

theorem Asking.there (h : Asking r a resp s phase) : phase ≠ .loop ∧ s.heap a ≠ none := by
  have hstate := h.state
  refine ⟨fun hp => ?_, fun hnone => ?_⟩
  · rw [hp] at hstate
    exact hstate
  · cases phase <;> simp [AskingState, hnone] at hstate

theorem Asking.next (h : Asking r a resp s phase) {e : AtEvent}
    (he : e ≠ .expire ∧ ∀ ch, e ≠ .rx ch) : ∃ phase, Asking r a resp (atNext conf s e) phase := by
  obtain ⟨hloop, hthere⟩ := h.there
  by_cases hcaller : e = .caller
  · subst hcaller
    have hstate := h.state
    have hstep : atNext conf s .caller = callerStep s ⟨some a, false, phase⟩ := by
      unfold atNext
      simp only [h.caller]
    rw [hstep]
    cases phase with
    | status => exact ⟨.attach, rfl, h.reader, h.notice, hstate⟩
    | attach => exact ⟨.bufLen, rfl, h.reader, h.notice, rfl, hstate.2⟩
    | bufLen =>
      refine ⟨.lineCounts, rfl, h.reader, h.notice, hstate.1, ?_⟩
      simp [callerStep, modify, hstate.2]
    | lineCounts =>
      refine ⟨.send, rfl, h.reader, h.notice, hstate.1, ?_⟩
      simp [callerStep, modify, hstate.2]
    | send => exact ⟨.take, rfl, h.reader, h.notice, hstate⟩
    | take =>
      have hwait : callerStep s ⟨some a, false, .take⟩ = s :=
        if_neg (by rw [h.notice]; exact Nat.lt_irrefl 0)
      rw [hwait]
      exact ⟨.take, h⟩
    | _ => exact hstate.elim
  · obtain ⟨heap, hstep, hheap⟩ :=
      @next_other conf s _ a h.caller hloop rfl hthere e ⟨hcaller, he⟩
    rw [hstep]
    refine ⟨phase, h.caller, h.reader, h.notice, ?_⟩
    have hstate := h.state
    unfold AskingState at hstate ⊢
    simp only [hheap]
    exact hstate

/-! ### From the question to the return -/

/-- How far a command is whose response has ended. -/
def AnsweredState (s : AtSystem) (status : AtRespStatus) : Phase → Prop
  | .take => s.respNotice = 1 ∧ s.respStatus = status
  | .taken => s.respStatus = status
  | .detach result | .release result => result = resultOf status
  | _ => False

/-- How far a command is, whether or not its response has ended. -/
def AwaitingState (s : AtSystem) (a : ℕ) (phase : Phase) : Option AtRespStatus → Prop
  | none => phase = .take ∧ s.resp = some a ∧ s.respNotice = 0
  | some status => s.resp = none ∧ AnsweredState s status phase

/-- **A command between its question and its return**, with what the parser has been given since. -/
structure Awaiting (conf : AtConf) (r : AtReader) (a size lineNum : ℕ)
    (input : List (Option UInt8)) (s : AtSystem) (phase : Phase) : Prop where
  caller : s.caller = some ⟨some a, false, phase⟩
  reader : s.reader = parserAfter conf r input
  held : ∃ resp, s.heap a = some resp ∧
    Holds size lineNum (answer conf size lineNum r input).1 resp
  state : AwaitingState s a phase (answer conf size lineNum r input).2

variable {size lineNum : ℕ} {input : List (Option UInt8)}

theorem received_concat (c : Option UInt8) : received conf r (input ++ [c]) =
    received conf r input ++ (clientParser conf (parserAfter conf r input) c).2.toList := by
  rw [received, outputs_append, List.reduceOption_append]
  congr 1

theorem parserAfter_concat (c : Option UInt8) : parserAfter conf r (input ++ [c]) =
    (clientParser conf (parserAfter conf r input) c).1 := List.foldl_append

/-- A message that is no line of a response. -/
theorem answer_concat_other {c : Option UInt8}
    (h : ∀ l, (clientParser conf (parserAfter conf r input) c).2 ≠ some (.line l)) :
    answer conf size lineNum r (input ++ [c]) = answer conf size lineNum r input := by
  have hnone : linesOf (clientParser conf (parserAfter conf r input) c).2.toList = [] := by
    cases hm : (clientParser conf (parserAfter conf r input) c).2 with
    | none => rfl
    | some message =>
      cases message with
      | line l => exact absurd hm (h l)
      | _ => rfl
  rw [answer, received_concat, linesOf, List.filterMap_append, ← linesOf, ← linesOf, hnone,
    List.append_nil, ← answer]

/-- A line of a response. -/
theorem answer_concat_line {c : Option UInt8} {l : List UInt8}
    (h : (clientParser conf (parserAfter conf r input) c).2 = some (.line l)) :
    answer conf size lineNum r (input ++ [c]) =
      match (answer conf size lineNum r input).2 with
      | some _ => answer conf size lineNum r input
      | none => reply size lineNum (answer conf size lineNum r input).1 [l] := by
  have hline : linesOf (clientParser conf (parserAfter conf r input) c).2.toList = [l] := by
    rw [h]
    rfl
  rw [answer, received_concat, linesOf, List.filterMap_append, ← linesOf, ← linesOf, hline,
    reply_append]
  rfl

/-- A line for a command that waits. -/
theorem Awaiting.line {s' : AtSystem} {c : Option UInt8} {l : List UInt8}
    (h : Awaiting conf r a size lineNum input s phase)
    (hl : (clientParser conf (parserAfter conf r input) c).2 = some (.line l))
    (hs' : s' = { s with reader := parserAfter conf r (input ++ [c]) }) :
    Awaiting conf r a size lineNum (input ++ [c]) (hearLine s' l) phase := by
  have hanswer := @answer_concat_line conf r size lineNum input c l hl
  have hstate := h.state
  cases hend : (answer conf size lineNum r input).2 with
  | some status =>
    rw [hend] at hstate hanswer
    have hsame : hearLine s' l = s' :=
      @hear_detached s' (by rw [hs']; exact hstate.1) (some (.line l))
    rw [hsame, hs']
    exact ⟨h.caller, rfl, by rw [hanswer]; exact h.held, by rw [hanswer, hend]; exact hstate⟩
  | none =>
    rw [hend] at hstate hanswer
    obtain ⟨rfl, hresp, hnotice⟩ := hstate
    obtain ⟨resp, hheap, hholds⟩ := h.held
    obtain ⟨resp', status', hholds', hline⟩ := respLine_holds hholds s.respStatus l
    have hreply : reply size lineNum (answer conf size lineNum r input).1 [l] =
        (keep size (answer conf size lineNum r input).1 l,
          checkResult lineNum (keep size (answer conf size lineNum r input).1 l).length
            (stored l)) := by
      rw [reply]
      split
      · rename_i hcheck
        rw [hcheck]
      · rename_i hcheck
        rw [hcheck, reply]
    have hstep := @hearLine_attached s' a resp (by rw [hs']; exact hresp)
      (by rw [hs']; exact hheap) l
    have hstatus : s'.respStatus = s.respStatus := by rw [hs']
    rw [hstatus] at hstep
    rw [hreply] at hanswer
    rw [hstep, hs']
    cases hcheck : checkResult lineNum (keep size (answer conf size lineNum r input).1 l).length
        (stored l) with
    | some status =>
      rw [hcheck] at hline hanswer
      rw [hline]
      refine ⟨h.caller, rfl, ⟨resp', ?_, ?_⟩, ?_⟩
      · exact Function.update_self ..
      · rw [hanswer]
        exact hholds'
      · rw [hanswer]
        exact ⟨rfl, by simp [hnotice], rfl⟩
    | none =>
      rw [hcheck] at hline hanswer
      rw [hline]
      refine ⟨h.caller, rfl, ⟨resp', ?_, ?_⟩, ?_⟩
      · exact Function.update_self ..
      · rw [hanswer]
        exact hholds'
      · rw [hanswer]
        exact ⟨rfl, rfl, hnotice⟩

/-- **A character for a command that waits, or does not wait any more.** -/
theorem Awaiting.rx (h : Awaiting conf r a size lineNum input s phase) (c : Option UInt8) :
    Awaiting conf r a size lineNum (input ++ [c]) (atNext conf s (.rx c)) phase := by
  have hstep : atNext conf s (.rx c) =
      hear { s with reader := parserAfter conf r (input ++ [c]) }
        (clientParser conf (parserAfter conf r input) c).2 := by
    rw [parserAfter_concat, ← h.reader]
    rfl
  rw [hstep]
  by_cases hline : ∃ l, (clientParser conf (parserAfter conf r input) c).2 = some (.line l)
  · obtain ⟨l, hl⟩ := hline
    rw [hl]
    exact h.line hl rfl
  · have hanswer := @answer_concat_other conf r size lineNum input c fun l hl => hline ⟨l, hl⟩
    have hsame : hear { s with reader := parserAfter conf r (input ++ [c]) }
        (clientParser conf (parserAfter conf r input) c).2 =
          { s with reader := parserAfter conf r (input ++ [c]) } := by
      unfold hear
      split
      · rename_i l hl
        exact absurd ⟨l, hl⟩ hline
      · rfl
    rw [hsame]
    exact ⟨h.caller, rfl, by rw [hanswer]; exact h.held, by rw [hanswer]; exact h.state⟩

/-- A step of a command that waits, or does not wait any more. -/
theorem Awaiting.callerStep (h : Awaiting conf r a size lineNum input s phase)
    (hout : atOut s .caller = none) :
    ∃ phase, Awaiting conf r a size lineNum input (atNext conf s .caller) phase := by
  have hstep : atNext conf s .caller = At.callerStep s ⟨some a, false, phase⟩ := by
    unfold atNext
    simp only [h.caller]
  have hstate := h.state
  rw [hstep]
  cases hend : (answer conf size lineNum r input).2 with
  | none =>
    rw [hend] at hstate
    obtain ⟨rfl, -, hnotice⟩ := hstate
    have hwait : At.callerStep s ⟨some a, false, .take⟩ = s :=
      if_neg (by rw [hnotice]; exact Nat.lt_irrefl 0)
    rw [hwait]
    exact ⟨.take, h⟩
  | some status =>
    rw [hend] at hstate
    obtain ⟨hresp, hanswered⟩ := hstate
    cases phase with
    | take =>
      have htake : At.callerStep s ⟨some a, false, .take⟩ =
          { s with respNotice := s.respNotice - 1, caller := some ⟨some a, false, .taken⟩ } :=
        if_pos (by rw [hanswered.1]; exact Nat.one_pos)
      rw [htake]
      exact ⟨.taken, rfl, h.reader, h.held, by rw [hend]; exact ⟨hresp, hanswered.2⟩⟩
    | taken =>
      refine ⟨.detach (resultOf s.respStatus), rfl, h.reader, h.held, ?_⟩
      rw [hend]
      exact ⟨hresp, congrArg resultOf hanswered⟩
    | detach result =>
      exact ⟨.release result, rfl, h.reader, h.held, by rw [hend]; exact ⟨rfl, hanswered⟩⟩
    | release result =>
      rw [atOut, h.caller] at hout
      cases hout
    | _ => exact hanswered.elim

/-- **An event while a command waits, or does not wait any more.** -/
theorem Awaiting.next (h : Awaiting conf r a size lineNum input s phase) {e : AtEvent}
    (he : e ≠ .expire) (hout : atOut s e = none) :
    ∃ phase, Awaiting conf r a size lineNum (input ++ inputOf [e]) (atNext conf s e) phase := by
  by_cases hrx : ∃ c, e = .rx c
  · obtain ⟨c, rfl⟩ := hrx
    exact ⟨phase, h.rx c⟩
  · have hinput : input ++ inputOf [e] = input := by
      cases e with
      | rx c => exact absurd ⟨c, rfl⟩ hrx
      | _ => exact List.append_nil _
    rw [hinput]
    by_cases hcaller : e = .caller
    · subst hcaller
      exact h.callerStep hout
    · obtain ⟨resp, hheap, hholds⟩ := h.held
      have hloop : phase ≠ .loop := by
        rintro rfl
        have hstate := h.state
        unfold AwaitingState at hstate
        split at hstate
        · cases hstate.1
        · exact hstate.2
      have hthere : s.heap a ≠ none := by
        rw [hheap]
        exact Option.some_ne_none resp
      obtain ⟨heap, hstep, hsame⟩ := @next_other conf s _ a h.caller hloop rfl hthere e
        ⟨hcaller, he, fun c hc => hrx ⟨c, hc⟩⟩
      rw [hstep]
      exact ⟨phase, h.caller, h.reader, ⟨resp, hsame.trans hheap, hholds⟩, h.state⟩

/-- A run from the question on. -/
theorem Awaiting.run (h : Awaiting conf r a size lineNum input s phase) {es : List AtEvent}
    (htime : .expire ∉ es) (hout : ∀ o ∈ outputs (atNext conf) atOut s es, o = none) :
    ∃ phase, Awaiting conf r a size lineNum (input ++ inputOf es) (atRun conf s es) phase := by
  induction es generalizing s input phase with
  | nil => exact ⟨phase, by rwa [inputOf, List.filterMap_nil, List.append_nil]⟩
  | cons e es ih =>
    rw [outputs, List.forall_mem_cons] at hout
    obtain ⟨phase', h'⟩ := h.next (fun he => htime (he ▸ List.mem_cons_self ..)) hout.1
    have hsplit : inputOf (e :: es) = inputOf [e] ++ inputOf es := by
      rw [inputOf, ← List.singleton_append, List.filterMap_append]
      rfl
    rw [hsplit, ← List.append_assoc]
    exact ih h' (fun he => htime (List.mem_cons_of_mem _ he)) hout.2

theorem Asking.run (h : Asking r a resp s phase) {es : List AtEvent}
    (hquiet : ∀ e ∈ es, e ≠ .expire ∧ ∀ ch, e ≠ .rx ch) :
    ∃ phase, Asking r a resp (atRun conf s es) phase := by
  induction es generalizing s phase with
  | nil => exact ⟨phase, h⟩
  | cons e es ih =>
    obtain ⟨phase', h'⟩ := @Asking.next conf s a r resp phase h e (hquiet e (List.mem_cons_self ..))
    exact ih h' fun e' he' => hquiet e' (List.mem_cons_of_mem _ he')

/-! ### Question and answer -/

/-- A client without URCs. -/
def plain : AtConf where
  endSign := 0
  recvBufsz := 8
  urcTable := []

/-- The steps of a command that does not wait, by the number of them before the last one. -/
def phaseLeft : ℕ → Phase
  | 8 => .status
  | 7 => .attach
  | 6 => .bufLen
  | 5 => .lineCounts
  | 4 => .send
  | 3 => .take
  | 2 => .taken
  | 1 => .detach 0
  | _ => .release 0

/-- The response of such a command. -/
def respLeft (resp : AtResponse) (left : ℕ) : AtResponse :=
  if 5 < left then resp
  else if left = 5 then { resp with bufLen := 0 }
  else { resp with bufLen := 0, lineCounts := 0 }

/-- **A command that has found `k + 1` tokens**, while the server is silent. -/
structure Stale (a : ℕ) (resp : AtResponse) (k left : ℕ) (s : AtSystem) : Prop where
  le : left ≤ 8
  caller : s.caller = some ⟨some a, false, phaseLeft left⟩
  notice : s.respNotice = if left < 3 then k else k + 1
  status : left < 8 → s.respStatus = .ok
  heap : s.heap a = some (respLeft resp left)

variable {k left : ℕ}

/-- Each step of the command is one less. -/
theorem Stale.callerStep (h : Stale a resp k (left + 1) s) :
    Stale a resp k left (atNext conf s .caller) := by
  have hstep : atNext conf s .caller = At.callerStep s ⟨some a, false, phaseLeft (left + 1)⟩ := by
    unfold atNext
    simp only [h.caller]
  have hle := h.le
  have hnotice := h.notice
  have hstatus := h.status
  have hheap := h.heap
  rw [hstep]
  have hleft : left < 8 := by omega
  interval_cases left
  · exact ⟨by omega, rfl, hnotice, fun _ => hstatus (by omega), hheap⟩
  · refine ⟨by omega, ?_, hnotice, fun _ => hstatus (by omega), hheap⟩
    simp [At.callerStep, phaseLeft, hstatus]
  · have htake : At.callerStep s ⟨some a, false, .take⟩ =
        { s with respNotice := s.respNotice - 1, caller := some ⟨some a, false, .taken⟩ } :=
      if_pos (by rw [hnotice]; exact Nat.succ_pos k)
    rw [phaseLeft, htake]
    exact ⟨by omega, rfl, by rw [hnotice]; rfl, fun _ => hstatus (by omega), hheap⟩
  · exact ⟨by omega, rfl, hnotice, fun _ => hstatus (by omega), hheap⟩
  · refine ⟨by omega, rfl, hnotice, fun _ => hstatus (by omega), ?_⟩
    simp [At.callerStep, phaseLeft, modify, hheap, respLeft]
  · refine ⟨by omega, rfl, hnotice, fun _ => hstatus (by omega), ?_⟩
    simp [At.callerStep, phaseLeft, modify, hheap, respLeft]
  · exact ⟨by omega, rfl, hnotice, fun _ => hstatus (by omega), hheap⟩
  · exact ⟨by omega, rfl, hnotice, fun _ => rfl, hheap⟩

/-- Nothing else is one, and the wait does not time out. -/
theorem Stale.other (h : Stale a resp k left s) {e : AtEvent} (he : e ≠ .caller)
    (hquiet : ∀ ch, e ≠ .rx ch) : Stale a resp k left (atNext conf s e) := by
  by_cases hexp : e = .expire
  · subst hexp
    have hsame : atNext conf s .expire = s := by
      unfold atNext
      simp only [h.caller]
      refine if_neg fun hwait => ?_
      have hnotice := h.notice
      rw [hwait.2] at hnotice
      have hle := h.le
      split at hnotice
      · rename_i hlt
        have htake := hwait.1
        interval_cases left <;> cases htake
      · omega
    rw [hsame]
    exact h
  · have hthere : s.heap a ≠ none := by
      rw [h.heap]
      exact Option.some_ne_none _
    have hloop : phaseLeft left ≠ .loop := by
      unfold phaseLeft
      split <;> exact Phase.noConfusion
    obtain ⟨heap, hstep, hsame⟩ :=
      @next_other conf s _ a h.caller hloop rfl hthere e ⟨he, hexp, hquiet⟩
    rw [hstep]
    exact ⟨h.le, h.caller, h.notice, h.status, hsame.trans h.heap⟩

theorem Stale.run {es : List AtEvent} (h : Stale a resp k (es.count .caller) s)
    (hquiet : ∀ e ∈ es, ∀ ch, e ≠ .rx ch) : Stale a resp k 0 (atRun conf s es) := by
  induction es generalizing s with
  | nil => exact h
  | cons e es ih =>
    have hrest : ∀ e ∈ es, ∀ ch, e ≠ .rx ch := fun e' he' => hquiet e' (List.mem_cons_of_mem _ he')
    by_cases hcaller : e = .caller
    · subst hcaller
      rw [List.count_cons_self] at h
      exact ih h.callerStep hrest
    · rw [List.count_cons_of_ne hcaller] at h
      exact ih (h.other hcaller (hquiet e (List.mem_cons_self ..))) hrest

/-- **A token left over answers the next command.**  Where there is one, a command is at its return
after the same number of its own steps at every interleaving in which the server is silent, and
returns success with an empty response. -/
theorem stale_returns (conf : AtConf) {s : AtSystem} (hidle : s.caller = none)
    (htoken : 0 < s.respNotice) {a : ℕ} {resp : AtResponse} (ha : s.heap a = some resp)
    {es : List AtEvent} (hquiet : ∀ e ∈ es, ∀ ch, e ≠ .rx ch) (hsteps : es.count .caller = 8) :
    let s' := atRun conf s (.execCmd (some a) :: es)
    atOut s' .caller = some (some a, 0) ∧
      s'.heap a = some { resp with bufLen := 0, lineCounts := 0 } ∧
      s'.respNotice = s.respNotice - 1 := by
  intro s'
  have hstart := @execCmd_next conf s hidle (some a) fun b hb => by
    obtain rfl := Option.mem_some_iff.1 hb
    rw [ha]
    exact Option.some_ne_none resp
  have hfound : Stale a resp (s.respNotice - 1) (es.count .caller)
      (atNext conf s (.execCmd (some a))) := by
    rw [hsteps, hstart]
    exact ⟨le_rfl, rfl, (Nat.sub_add_cancel htoken).symm, fun h => absurd h (Nat.lt_irrefl 8), ha⟩
  have hend : Stale a resp (s.respNotice - 1) 0 s' := hfound.run hquiet
  refine ⟨?_, hend.heap, hend.notice⟩
  rw [atOut, hend.caller]
  rfl

/-- A response that comes between the time-out and the end of its command, and the next command,
with a call of another thread that has to wait. -/
theorem stale_returns_late :
    atOut (atRun plain (atRun plain (AtSystem.init plain) (.create 0 8 0 :: lateCommand 0))
      (.execCmd (some 0) :: .caller :: .execCmd none :: .expire :: List.replicate 7 .caller))
        .caller = some (some 0, 0) :=
  (stale_returns plain (by decide) (by decide) (Option.some_get (by decide)).symm
    (by simp) (by decide)).1

end At
end AccTx
