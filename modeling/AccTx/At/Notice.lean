/-
# The semaphore of the responses

The parser releases `resp_notice` when it detaches a response, and a command takes it once.  So the
tokens there are, with the one that the response of a command is good for, are those that the
command found and its own (`Balanced`).  A command that times out leaves its own behind if its
response comes before it has detached it, and only such a command does: between two commands there
is at most one token, and none in a run without time-outs (`resp_notice_le`).

A command that finds no token takes that of its own response (`command_tokens`).  One that finds one
takes it in place of it, and never times out.

All this is about `at_obj_exec_cmd`: `at_client_obj_wait_connect` may give up before it waits.
-/

import AccTx.At.Exec
import AccTx.Effect.Mealy

namespace AccTx
namespace At

open Effect Series

variable {conf : AtConf} {s : AtSystem} {c : Call} {k : ℕ} {late : Prop}

/-- The tokens in `resp_notice`, and the one to come for the response that the parser has. -/
def tokens (s : AtSystem) : ℕ := s.respNotice + s.resp.toList.length

/-- The token that a call still has to take, or has left. -/
def Call.owed (c : Call) : ℕ :=
  match c.phase with
  | .bufLen | .lineCounts | .send | .take => c.resp.toList.length
  | .expired => 1
  | .detach result | .release result => if result = -2 then 1 else 0
  | _ => 0

/-- `rt_sem_take` of the call has timed out. -/
def Call.timedOut (c : Call) : Prop :=
  c.phase = .expired ∨ c.phase = .detach (-2) ∨ c.phase = .release (-2)

/-- **The tokens of a call of `at_obj_exec_cmd` that has found `k` of them.**  It times out under
the condition `late` only, and if there were none. -/
structure Balanced (k : ℕ) (late : Prop) (s : AtSystem) (c : Call) : Prop where
  exec : c.connect = false
  waits : c.phase = .take → c.resp ≠ none
  count : (∀ r, c.phase ≠ .release r) → tokens s = k + c.owed
  le : tokens s ≤ k + c.owed
  timeout : c.timedOut → k = 0 ∧ late

/-- **The parser turns the token to come into one that is there.** -/
theorem tokens_hear (h : tokens s ≤ 2) (message : Option AtMessage) :
    tokens (hear s message) = tokens s := by
  unfold hear
  split
  · rename_i line
    rcases hearLine_cases s line with hsame | ⟨a, resp, hresp, hheap⟩
    · rw [hsame]
    · rw [hearLine_attached hresp hheap]
      unfold tokens at h ⊢
      rw [hresp] at h ⊢
      simp only [Option.toList_some, List.length_singleton] at h ⊢
      split
      · have hmod : (s.respNotice + 1) % 2 ^ 16 = s.respNotice + 1 := Nat.mod_eq_of_lt (by omega)
        rw [hmod, Option.toList_none, List.length_nil]
      · rw [Option.toList_some, List.length_singleton]
  · rfl

theorem owed_le (c : Call) : c.owed ≤ 1 := by
  unfold Call.owed
  split
  all_goals first
    | exact Option.length_toList_le
    | split <;> omega
    | omega

/-- The call goes on, with the tokens as before. -/
theorem Balanced.move {s' : AtSystem} {p : Phase} (h : Balanced k late s c)
    (hp : ∀ r, c.phase ≠ .release r) (htokens : tokens s' = tokens s)
    (howed : Call.owed { c with phase := p } = c.owed) (hwaits : p = .take → c.resp ≠ none)
    (htimeout : Call.timedOut { c with phase := p } → k = 0 ∧ late) :
    Balanced k late s' { c with phase := p } := by
  have hcount := h.count hp
  refine ⟨h.exec, hwaits, fun _ => ?_, ?_, htimeout⟩
  · rw [htokens, hcount, howed]
  · rw [htokens, hcount, howed]

/-- **A step of a call keeps its balance.** -/
theorem Balanced.callerStep (h : Balanced k late s c) (hl : LinkedCall s c) (hc : s.caller = some c)
    (hp : ∀ r, c.phase ≠ .release r) :
    ∃ c', (callerStep s c).caller = some c' ∧ c'.resp = c.resp ∧
      Balanced k late (callerStep s c) c' := by
  obtain ⟨resp, connect, phase⟩ := c
  obtain rfl : connect = false := h.exec
  have hcount := h.count hp
  have hvalid := hl.valid.2
  cases phase with
  | status =>
    exact ⟨_, rfl, rfl, h.move hp rfl rfl (fun ht => by cases ht) fun ht => by
      simp [Call.timedOut] at ht⟩
  | attach =>
    have hnone : s.resp = none := hl.outside rfl
    have hnotice : s.respNotice = k := by simpa [tokens, Call.owed, hnone] using hcount
    cases resp with
    | none =>
      refine ⟨_, rfl, rfl, rfl, fun ht => (by cases ht), fun _ => ?_, ?_, fun ht => ?_⟩
      · simp [tokens, Call.owed, At.callerStep, hnotice]
      · simp [tokens, Call.owed, At.callerStep, hnotice]
      · simp [Call.timedOut] at ht
    | some a =>
      refine ⟨_, rfl, rfl, rfl, fun ht => (by cases ht), fun _ => ?_, ?_, fun ht => ?_⟩
      · simp [tokens, Call.owed, At.callerStep, hnotice]
      · simp [tokens, Call.owed, At.callerStep, hnotice]
      · simp [Call.timedOut] at ht
  | loop => cases hvalid
  | bufLen =>
    exact ⟨_, rfl, rfl, h.move hp rfl rfl (fun ht => by cases ht) fun ht => by
      simp [Call.timedOut] at ht⟩
  | lineCounts =>
    exact ⟨_, rfl, rfl, h.move hp rfl rfl (fun ht => by cases ht) fun ht => by
      simp [Call.timedOut] at ht⟩
  | send =>
    cases resp with
    | none =>
      exact ⟨_, rfl, rfl, h.move hp rfl rfl (fun ht => by cases ht) fun ht => by
        simp [Call.timedOut] at ht⟩
    | some a =>
      exact ⟨_, rfl, rfl, h.move hp rfl rfl (fun _ => Option.some_ne_none a) fun ht => by
        simp [Call.timedOut] at ht⟩
  | take =>
    obtain ⟨a, rfl⟩ := Option.ne_none_iff_exists'.1 (h.waits rfl)
    unfold At.callerStep
    simp only
    split
    · rename_i hpos
      have hleft : s.respNotice - 1 + s.resp.toList.length = k := by
        simp only [tokens, Call.owed, Option.toList_some, List.length_singleton] at hcount
        omega
      refine ⟨_, rfl, rfl, rfl, fun ht => (by cases ht), fun _ => hleft, hleft.le, fun ht => ?_⟩
      simp [Call.timedOut] at ht
    · exact ⟨_, hc, rfl, h⟩
  | expired =>
    exact ⟨_, rfl, rfl, h.move hp rfl rfl (fun ht => by cases ht) fun _ => h.timeout (Or.inl rfl)⟩
  | taken =>
    refine ⟨_, rfl, rfl, h.move hp rfl ?_ (fun ht => by cases ht) fun ht => ?_⟩
    · unfold Call.owed
      simp only
      split_ifs <;> simp_all
    · unfold Call.timedOut at ht
      split_ifs at ht <;> simp at ht
  | delete result => cases hvalid
  | detach result =>
    have hless : s.respNotice ≤ k + Call.owed ⟨resp, false, .detach result⟩ := by
      rw [← hcount, tokens]
      omega
    refine ⟨_, rfl, rfl, rfl, fun ht => (by cases ht), fun hno => absurd rfl (hno result), hless,
      fun ht => h.timeout ?_⟩
    simpa [Call.timedOut] using ht
  | release result => exact absurd rfl (hp result)

theorem Balanced.tokens_le (h : Balanced k late s c) (hk : k ≤ 1) : At.tokens s ≤ 2 :=
  h.le.trans (Nat.add_le_add hk (owed_le c))

/-- An event that leaves the call as it is. -/
theorem Balanced.same {s' : AtSystem} (h : Balanced k late s c)
    (htokens : At.tokens s' = At.tokens s) :
    Balanced k late s' c :=
  ⟨h.exec, h.waits, fun hp => htokens.trans (h.count hp), htokens.trans_le h.le, h.timeout⟩

/-- A time-out, which no call has that has found a token. -/
theorem Balanced.expire (h : Balanced k late s c) (hp : c.phase = .take)
    (hzero : s.respNotice = 0) : k = 0 := by
  have hcount := h.count (by rw [hp]; exact fun r => Phase.noConfusion)
  have hattached : s.resp.toList.length ≤ 1 := Option.length_toList_le
  obtain ⟨a, ha⟩ := Option.ne_none_iff_exists'.1 (h.waits hp)
  simp only [tokens, Call.owed, hp, ha, Option.toList_some, List.length_singleton, hzero] at hcount
  omega

/-- **The balance of a call at every event, up to its return.** -/
theorem Balanced.next (h : Balanced k late s c) (hk : k ≤ 1) (hl : Linked s)
    (hc : s.caller = some c) {e : AtEvent} (hout : atOut s e = none) (hlate : e = .expire → late) :
    ∃ c', (atNext conf s e).caller = some c' ∧ c'.resp = c.resp ∧
      Balanced k late (atNext conf s e) c' := by
  cases e with
  | rx ch =>
    refine ⟨c, ?_, rfl, ?_⟩
    · exact (hear_frame { s with reader := (clientParser conf s.reader ch).1 }
        (clientParser conf s.reader ch).2).1.trans hc
    · exact h.same (@tokens_hear { s with reader := (clientParser conf s.reader ch).1 }
        (h.tokens_le hk) (clientParser conf s.reader ch).2)
  | create a bufSize lineNum =>
    unfold atNext
    simp only
    split
    · exact ⟨c, hc, rfl, h.same rfl⟩
    · exact ⟨c, hc, rfl, h⟩
  | delete a =>
    unfold atNext
    simp only
    split
    · exact ⟨c, hc, rfl, h⟩
    · exact ⟨c, hc, rfl, h.same rfl⟩
  | execCmd resp =>
    unfold atNext
    simp only
    rw [if_neg fun hfree => by cases hc.symm.trans hfree.1]
    exact ⟨c, hc, rfl, h⟩
  | waitConnect a =>
    unfold atNext
    simp only
    rw [if_neg fun hfree => by cases hc.symm.trans hfree.1]
    exact ⟨c, hc, rfl, h⟩
  | caller =>
    have hp : ∀ r, c.phase ≠ .release r := by
      intro r hr
      obtain ⟨resp, connect, phase⟩ := c
      simp only at hr
      subst hr
      rw [atOut, hc] at hout
      cases hout
    have hstep : atNext conf s .caller = At.callerStep s c := by
      unfold atNext
      simp only [hc]
    rw [hstep]
    exact h.callerStep (hl.call c hc) hc hp
  | expire =>
    unfold atNext
    simp only [hc]
    split
    · rename_i htake
      have hzero := h.expire htake.1 htake.2
      obtain ⟨a, ha⟩ := Option.ne_none_iff_exists'.1 (h.waits htake.1)
      have hexec : ¬c.connect = true := by rw [h.exec]; exact Bool.false_ne_true
      rw [if_neg hexec]
      refine ⟨_, rfl, rfl, ?_⟩
      refine h.move (fun r hr => ?_) rfl ?_ (fun _ => h.waits htake.1) fun _ => ⟨hzero, hlate rfl⟩
      · rw [htake.1] at hr
        cases hr
      · simp [Call.owed, htake.1, ha]
    · exact ⟨c, hc, rfl, h⟩
  | giveUp =>
    unfold atNext
    simp only [hc]
    have hloop : c.phase ≠ .loop := by
      intro hp
      have hvalid := (hl.call c hc).valid.2
      rw [hp, h.exec] at hvalid
      cases hvalid
    rw [if_neg hloop]
    exact ⟨c, hc, rfl, h⟩

/-! ### Between two commands -/

/-- There are at most `K` tokens between two commands, and time-outs if there is one only. -/
structure Counted (K : ℕ) (s : AtSystem) : Prop where
  linked : Linked s
  idle : s.caller = none → s.respNotice ≤ K
  call : ∀ c, s.caller = some c → ∃ k ≤ K, Balanced k (K = 1) s c

variable {K : ℕ}

theorem counted_init (conf : AtConf) (K : ℕ) : Counted K (AtSystem.init conf) :=
  ⟨linked_init conf, fun _ => Nat.zero_le K, fun _ hc => by cases hc⟩

/-- The beginning of a command. -/
theorem balanced_status (hl : Linked s) (hc : s.caller = none) (resp : Option ℕ) (late : Prop) :
    Balanced s.respNotice late { s with caller := some ⟨resp, false, .status⟩ }
      ⟨resp, false, .status⟩ := by
  have htokens : tokens s = s.respNotice := by
    rw [tokens, hl.idle hc, Option.toList_none, List.length_nil, Nat.add_zero]
  refine ⟨rfl, fun ht => (by cases ht), fun _ => htokens, htokens.le, fun ht => ?_⟩
  simp [Call.timedOut] at ht

theorem atOut_some {e : AtEvent} {result : Option ℕ × ℤ} (h : atOut s e = some result) :
    e = .caller ∧ ∃ c, s.caller = some c ∧ c.phase = .release result.2 ∧ c.resp = result.1 := by
  unfold atOut at h
  split at h
  · split at h
    · rename_i hc
      obtain rfl := Option.some_inj.1 h
      exact ⟨rfl, _, hc, rfl, rfl⟩
    · cases h
  · cases h

/-- The return of a call. -/
theorem callerStep_release {r : ℤ} (hc : s.caller = some c) (hp : c.phase = .release r) :
    atNext conf s .caller = { s with caller := none } := by
  unfold atNext callerStep
  simp only [hc, hp]

/-- A line that nobody waits for. -/
theorem hear_detached (hresp : s.resp = none) (message : Option AtMessage) :
    hear s message = s := by
  unfold hear
  split
  · rename_i line
    rcases hearLine_cases s line with hsame | ⟨a, resp, ha, -⟩
    · exact hsame
    · cases hresp.symm.trans ha
  · rfl

/-- An event between two commands. -/
theorem Counted.next_idle (h : Counted K s) (hc : s.caller = none) (e : AtEvent)
    (hconnect : ∀ a, e ≠ .waitConnect a) : Counted K (atNext conf s e) := by
  have hlinked := @Linked.next conf s h.linked e
  have hnotice := h.idle hc
  have hresp := h.linked.idle hc
  have hsame : ∀ s' : AtSystem, Linked s' → s'.caller = none → s'.respNotice ≤ K → Counted K s' :=
    fun s' hl hc' hn => ⟨hl, fun _ => hn, fun _ hs => by cases hc'.symm.trans hs⟩
  cases e with
  | rx ch =>
    have hstep : atNext conf s (.rx ch) = { s with reader := (clientParser conf s.reader ch).1 } :=
      @hear_detached { s with reader := (clientParser conf s.reader ch).1 } hresp _
    exact hsame _ hlinked (by rw [hstep]; exact hc) (by rw [hstep]; exact hnotice)
  | create a bufSize lineNum =>
    refine hsame _ hlinked ?_ ?_
    · unfold atNext
      simp only
      split <;> exact hc
    · unfold atNext
      simp only
      split <;> exact hnotice
  | delete a =>
    refine hsame _ hlinked ?_ ?_
    · unfold atNext
      simp only
      split <;> exact hc
    · unfold atNext
      simp only
      split <;> exact hnotice
  | execCmd resp =>
    unfold atNext at hlinked ⊢
    simp only at hlinked ⊢
    split
    · rename_i hfree
      rw [if_pos hfree] at hlinked
      refine ⟨hlinked, fun hno => (by cases hno), fun c hs => ?_⟩
      obtain rfl := Option.some_inj.1 hs
      exact ⟨_, hnotice, balanced_status h.linked hc resp _⟩
    · exact h
  | waitConnect a => exact absurd rfl (hconnect a)
  | caller =>
    have hstep : atNext conf s .caller = s := by unfold atNext; simp only [hc]
    rw [hstep]
    exact h
  | expire =>
    have hstep : atNext conf s .expire = s := by unfold atNext; simp only [hc]
    rw [hstep]
    exact h
  | giveUp =>
    have hstep : atNext conf s .giveUp = s := by unfold atNext; simp only [hc]
    rw [hstep]
    exact h

/-- **One step of the commands.** -/
theorem Counted.next (h : Counted K s) (hK : K ≤ 1) {e : AtEvent}
    (hconnect : ∀ a, e ≠ .waitConnect a) (hlate : e = .expire → K = 1) :
    Counted K (atNext conf s e) := by
  cases hc : s.caller with
  | none => exact h.next_idle hc e hconnect
  | some c =>
    obtain ⟨k, hk, hbal⟩ := h.call c hc
    have hlinked := @Linked.next conf s h.linked e
    cases hout : atOut s e with
    | none =>
      obtain ⟨c', hc', -, hbal'⟩ := @Balanced.next conf s c k _ hbal (hk.trans hK) h.linked hc e
        hout hlate
      refine ⟨hlinked, fun hno => (by cases hc'.symm.trans hno), fun c'' hc'' => ?_⟩
      rw [hc'] at hc''
      obtain rfl := Option.some_inj.1 hc''
      exact ⟨k, hk, hbal'⟩
    | some result =>
      obtain ⟨rfl, c', hc', hp, -⟩ := atOut_some hout
      rw [hc] at hc'
      obtain rfl := Option.some_inj.1 hc'
      rw [callerStep_release hc hp] at hlinked ⊢
      refine ⟨hlinked, fun _ => ?_, fun _ hno => (by cases hno)⟩
      have hle : s.respNotice ≤ k + c.owed := (Nat.le_add_right _ _).trans hbal.le
      rw [Call.owed, hp] at hle
      simp only at hle
      split at hle
      · rename_i hr
        obtain ⟨rfl, rfl⟩ := hbal.timeout (Or.inr (Or.inr (by rw [hp, hr])))
        omega
      · exact hle.trans hk

theorem Counted.run (h : Counted K s) (hK : K ≤ 1) {es : List AtEvent}
    (hconnect : ∀ a, .waitConnect a ∉ es) (hlate : .expire ∈ es → K = 1) :
    Counted K (atRun conf s es) :=
  List.foldlRecOn es (atNext conf) h fun _ hs _ he => hs.next hK
    (fun a ha => hconnect a (ha ▸ he)) fun hexp => hlate (hexp ▸ he)

/-- **At most one token is left over.**  In every run of commands, at every interleaving with the
parser, there is at most one token in `resp_notice` between two commands and never more than two,
and in a run without time-outs there is none between two commands. -/
theorem resp_notice_le (conf : AtConf) {es : List AtEvent} (hconnect : ∀ a, .waitConnect a ∉ es) :
    let s := atRun conf (AtSystem.init conf) es
    s.respNotice ≤ 2 ∧ (s.caller = none → s.respNotice ≤ 1) ∧
      (.expire ∉ es → s.caller = none → s.respNotice = 0) := by
  intro s
  have hone : Counted 1 s := (counted_init conf 1).run le_rfl hconnect fun _ => rfl
  refine ⟨?_, hone.idle, fun hexp hc => ?_⟩
  · cases hc : s.caller with
    | none => exact (hone.idle hc).trans (by omega)
    | some c =>
      obtain ⟨k, hk, hbal⟩ := hone.call c hc
      exact (Nat.le_add_right _ _).trans (hbal.tokens_le hk)
  · have hzero : Counted 0 s :=
      (counted_init conf 0).run (by omega) hconnect fun he => absurd he hexp
    exact Nat.le_zero.1 (hzero.idle hc)

/-- A command that times out, and whose response comes before it has returned. -/
def lateCommand (a : ℕ) : List AtEvent :=
  .execCmd (some a) :: List.replicate 5 .caller ++
    .expire :: [0x4f, 0x4b, 0x0d, 0x0a].map (fun ch => .rx (some ch)) ++ List.replicate 3 .caller

theorem resp_notice_le_late :
    (atRun { endSign := 0, recvBufsz := 8, urcTable := [] }
      (AtSystem.init { endSign := 0, recvBufsz := 8, urcTable := [] })
      (.create 0 8 0 :: lateCommand 0)).respNotice ≤ 1 :=
  (resp_notice_le { endSign := 0, recvBufsz := 8, urcTable := [] } (by simp [lateCommand])).2.1
    (by decide)

/-! ### The token a command takes -/

/-- The balance of a call over a run in which it does not return. -/
theorem Balanced.run (h : Balanced k late s c) (hk : k ≤ 1) (hl : Linked s)
    (hc : s.caller = some c) {es : List AtEvent}
    (hout : ∀ o ∈ outputs (atNext conf) atOut s es, o = none) (hlate : .expire ∈ es → late) :
    ∃ c', (atRun conf s es).caller = some c' ∧ c'.resp = c.resp ∧
      Balanced k late (atRun conf s es) c' := by
  induction es generalizing s c with
  | nil => exact ⟨c, hc, rfl, h⟩
  | cons e es ih =>
    rw [outputs, List.forall_mem_cons] at hout
    obtain ⟨c₁, hc₁, hresp₁, h₁⟩ := @Balanced.next conf s c k late h hk hl hc e hout.1 fun he =>
      hlate (he ▸ List.mem_cons_self ..)
    obtain ⟨c', hc', hresp', h'⟩ := ih h₁ (hl.next e) hc₁ hout.2 fun he =>
      hlate (List.mem_cons_of_mem _ he)
    exact ⟨c', hc', hresp'.trans hresp₁, h'⟩

theorem execCmd_next (hidle : s.caller = none) {resp : Option ℕ}
    (hthere : ∀ a ∈ resp, s.heap a ≠ none) :
    atNext conf s (.execCmd resp) = { s with caller := some ⟨resp, false, .status⟩ } :=
  if_pos ⟨hidle, hthere⟩

/-- **A command takes the token that it finds, and else that of its own response.**  At every
interleaving, while the command has not returned: if it has found no token and takes one, the parser
has seen the end of its response; if it has found one, its wait does not time out. -/
theorem command_tokens (conf : AtConf) {es es' : List AtEvent} {resp : Option ℕ}
    (hconnect : ∀ a, .waitConnect a ∉ es)
    (hidle : (atRun conf (AtSystem.init conf) es).caller = none)
    (hthere : ∀ a ∈ resp, (atRun conf (AtSystem.init conf) es).heap a ≠ none)
    (hrunning : ∀ o ∈ outputs (atNext conf) atOut (atRun conf (AtSystem.init conf) es)
      (.execCmd resp :: es'), o = none) :
    let s := atRun conf (AtSystem.init conf) es
    let s' := atRun conf s (.execCmd resp :: es')
    ∃ c, s'.caller = some c ∧ c.resp = resp ∧
      (s.respNotice = 0 → c.phase = .taken → s'.resp = none ∧ s'.respNotice = 0) ∧
      (s.respNotice ≠ 0 → c.phase ≠ .expired) := by
  intro s s'
  have hcounted : Counted 1 s := (counted_init conf 1).run le_rfl hconnect fun _ => rfl
  have hstart : atNext conf s (.execCmd resp) = { s with caller := some ⟨resp, false, .status⟩ } :=
    execCmd_next hidle hthere
  have hs' : s' = atRun conf { s with caller := some ⟨resp, false, .status⟩ } es' := by
    show atRun conf (atNext conf s (.execCmd resp)) es' = _
    rw [hstart]
  rw [outputs, List.forall_mem_cons, hstart] at hrunning
  have hlinked : Linked { s with caller := some ⟨resp, false, .status⟩ } := by
    have hnext := @Linked.next conf s hcounted.linked (.execCmd resp)
    rwa [hstart] at hnext
  obtain ⟨c, hc, hresp, hbal⟩ := (balanced_status hcounted.linked hidle resp True).run
    (hcounted.idle hidle) hlinked rfl hrunning.2 fun _ => trivial
  rw [← hs'] at hc hbal
  refine ⟨c, hc, hresp, fun hzero hp => ?_, fun hfound hp => hfound ?_⟩
  · have hcount := hbal.count (by rw [hp]; exact fun r => Phase.noConfusion)
    have howed : c.owed = 0 := by rw [Call.owed, hp]
    rw [howed, hzero, tokens] at hcount
    have hnone : s'.resp.toList = [] := List.eq_nil_of_length_eq_zero (by omega)
    exact ⟨Option.toList_eq_nil_iff.1 hnone, by omega⟩
  · exact (hbal.timeout (Or.inl hp)).1

/-- A command that takes the token of its own response. -/
theorem command_tokens_one :
    (atRun { endSign := 0, recvBufsz := 8, urcTable := [] }
      (atRun { endSign := 0, recvBufsz := 8, urcTable := [] }
        (AtSystem.init { endSign := 0, recvBufsz := 8, urcTable := [] }) [.create 0 8 0])
      (.execCmd (some 0) :: (List.replicate 5 .caller ++
        [0x4f, 0x4b, 0x0d, 0x0a].map (fun ch => .rx (some ch)) ++ [.caller]))).resp = none := by
  obtain ⟨c, hc, -, htaken, -⟩ := @command_tokens { endSign := 0, recvBufsz := 8, urcTable := [] }
    [.create 0 8 0] (List.replicate 5 .caller ++
      [0x4f, 0x4b, 0x0d, 0x0a].map (fun ch => .rx (some ch)) ++ [.caller]) (some 0) (by simp)
    (by decide) (by decide) (forall_mem_of_all (by decide))
  have hcall : some c = some ⟨some 0, false, .taken⟩ := hc.symm.trans (by decide)
  exact (htaken (by decide) (congrArg Call.phase (Option.some_inj.1 hcall))).1

end At
end AccTx
