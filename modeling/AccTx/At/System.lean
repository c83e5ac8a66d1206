/-
# Commands, the parser and the lock

`at_obj_exec_cmd` and `at_client_obj_wait_connect` of `at_client.c`, with the parser thread, at
every interleaving of their steps.  The lock lets one thread at a time into these functions
(`Call`); its steps are the accesses to what it shares with the parser.  `at_client_para_init` gives
the parser a higher priority than that of the shell and of `main`, so they do not come between what
the parser does with a line.

`heap` are the responses at their addresses; what is deleted is `none`.  A semaphore released while
a thread waits for it is handed to that thread, so it does not expire then.  The check that a client
is there, the mode of the command line interface, and the characters sent are left out.
-/

import AccTx.At.Client
import Mathlib.Algebra.GroupWithZero.Nat
import Mathlib.Logic.Function.Basic

namespace AccTx
namespace At

/-- The next step of the thread that holds the lock, in the words of the source: `resp_status =
AT_RESP_OK`, `client->resp = resp`, the check of the time of `at_client_obj_wait_connect`,
`buf_len = 0`, `line_counts = 0`, the write to the device, `rt_sem_take`, what follows when that
times out and when it does not, `at_delete_resp`, `client->resp = RT_NULL`, and
`rt_mutex_release`. -/
inductive Phase
  | status
  | attach
  | loop
  | bufLen
  | lineCounts
  | send
  | take
  | expired
  | taken
  | delete (result : ℤ)
  | detach (result : ℤ)
  | release (result : ℤ)
  deriving DecidableEq

/-- A call of `at_obj_exec_cmd`, or of `at_client_obj_wait_connect`. -/
structure Call where
  resp : Option ℕ
  connect : Bool
  phase : Phase
  deriving DecidableEq

structure AtSystem where
  reader : AtReader
  resp : Option ℕ
  respStatus : AtRespStatus
  respNotice : ℕ
  heap : ℕ → Option AtResponse
  caller : Option Call

/-- The client behind `at_client_init`. -/
def AtSystem.init (conf : AtConf) : AtSystem where
  reader := startLine conf
  resp := none
  respStatus := .ok
  respNotice := 0
  heap := fun _ => none
  caller := none

/-- A character for the parser, or the end of its wait; `at_create_resp` and `at_delete_resp`; a
call; the next step of the thread that holds the lock; the end of its wait in `rt_sem_take`; the end
of the time of `at_client_obj_wait_connect`. -/
inductive AtEvent
  | rx (c : Option UInt8)
  | create (a bufSize lineNum : ℕ)
  | delete (a : ℕ)
  | execCmd (resp : Option ℕ)
  | waitConnect (a : ℕ)
  | caller
  | expire
  | giveUp
  deriving DecidableEq

/-- A change of the response at an address. -/
def modify (heap : ℕ → Option AtResponse) (a : Option ℕ) (f : AtResponse → AtResponse) :
    ℕ → Option AtResponse :=
  match a with
  | none => heap
  | some a => Function.update heap a ((heap a).map f)

/-- `client_parser` with a line that is no URC. -/
def hearLine (s : AtSystem) (line : List UInt8) : AtSystem :=
  match s.resp with
  | none => s
  | some a =>
    match s.heap a with
    -- a write to memory that is not a response any more
    | none => s
    | some resp =>
      let (resp, status, done) := respLine resp s.respStatus line
      { s with
        heap := Function.update s.heap a (some resp)
        respStatus := status
        resp := if done then none else some a
        respNotice := if done then (s.respNotice + 1) % 2 ^ 16 else s.respNotice }

/-- A message for the threads. -/
def hear (s : AtSystem) : Option AtMessage → AtSystem
  | some (.line line) => hearLine s line
  | _ => s

/-- A step of the thread that holds the lock. -/
def callerStep (s : AtSystem) (c : Call) : AtSystem :=
  match c.phase with
  | .status => { s with respStatus := .ok, caller := some { c with phase := .attach } }
  | .attach =>
    let phase := if c.connect then .loop else if c.resp.isSome then .bufLen else .send
    { s with resp := c.resp, caller := some { c with phase := phase } }
  | .loop => { s with caller := some { c with phase := .bufLen } }
  | .bufLen =>
    { s with
      heap := modify s.heap c.resp fun resp => { resp with bufLen := 0 }
      caller := some { c with phase := .lineCounts } }
  | .lineCounts =>
    { s with
      heap := modify s.heap c.resp fun resp => { resp with lineCounts := 0 }
      caller := some { c with phase := .send } }
  | .send =>
    { s with caller := some { c with phase := if c.resp.isSome then .take else .detach 0 } }
  | .take =>
    if 0 < s.respNotice then
      { s with
        respNotice := s.respNotice - 1
        caller := some { c with phase := if c.connect then .delete 0 else .taken } }
    else s
  | .expired => { s with respStatus := .timeout, caller := some { c with phase := .detach (-2) } }
  | .taken =>
    let result := if s.respStatus ≠ .ok then -1 else 0
    { s with caller := some { c with phase := .detach result } }
  | .delete result =>
    { s with
      heap := match c.resp with
        | none => s.heap
        | some a => Function.update s.heap a none
      caller := some { c with phase := .detach result } }
  | .detach result => { s with resp := none, caller := some { c with phase := .release result } }
  | .release _ => { s with caller := none }

/-- One event.  A call waits while the lock is held, and a thread deletes a response when the call
with it has returned. -/
def atNext (conf : AtConf) (s : AtSystem) : AtEvent → AtSystem
  | .rx c =>
    let (reader, message) := clientParser conf s.reader c
    hear { s with reader := reader } message
  | .create a bufSize lineNum =>
    if s.heap a = none then
      { s with heap := Function.update s.heap a (some (atCreateResp bufSize lineNum)) }
    else s
  | .delete a =>
    if s.caller.bind Call.resp = some a then s
    else { s with heap := Function.update s.heap a none }
  | .execCmd resp =>
    if s.caller = none ∧ ∀ a ∈ resp, s.heap a ≠ none then
      { s with caller := some { resp := resp, connect := false, phase := .status } }
    else s
  | .waitConnect a =>
    if s.caller = none ∧ s.heap a = none then
      { s with
        heap := Function.update s.heap a (some (atCreateResp 64 0))
        caller := some { resp := some a, connect := true, phase := .attach } }
    else s
  | .caller =>
    match s.caller with
    | none => s
    | some c => callerStep s c
  | .expire =>
    match s.caller with
    | some c =>
      if c.phase = .take ∧ s.respNotice = 0 then
        { s with caller := some { c with phase := if c.connect then .loop else .expired } }
      else s
    | none => s
  | .giveUp =>
    match s.caller with
    | some c => if c.phase = .loop then { s with caller := some { c with phase := .delete (-2) } }
      else s
    | none => s

/-- The call that returns at a step, with its response and its result. -/
def atOut (s : AtSystem) : AtEvent → Option (Option ℕ × ℤ)
  | .caller =>
    match s.caller with
    | some { resp, phase := .release result, .. } => some (resp, result)
    | _ => none
  | _ => none

/-- The state after a run. -/
def atRun (conf : AtConf) (s : AtSystem) (es : List AtEvent) : AtSystem := es.foldl (atNext conf) s

end At
end AccTx
