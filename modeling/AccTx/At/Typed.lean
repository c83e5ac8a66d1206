/-
# Registers of another device

`atrd` and `atwr` of `main.c`: commands of the shell that send a command with two numbers to the AT
server.  From the keys to the device, whatever arguments are typed: the numbers sent are those
typed, modulo 2^16 (`typed_numbers`).  Nothing is sent without an AT client, nor to one in CLI mode,
unless the memory for the response has run out: a command without one is sent in CLI mode too.

Both read their arguments before they count them, so with fewer than two they read through a null
pointer, and never print how they are used.
-/

import AccTx.Console.Typed
import Mathlib.Data.Nat.Digits.Lemmas

namespace AccTx
namespace At

open Console Firmware Series

/-! ### Texts sent -/

def AT_CMD_MAX_LEN : ℕ := 128

/-- `%d` of a number that is not negative. -/
def decimal (n : ℕ) : List UInt8 :=
  if n = 0 then [0x30] else (Nat.digits 10 n).reverse.map fun d => 0x30 + UInt8.ofNat d

/-- `at_vprintfln` with the text printed: what is written to the device.  `none` is a read behind
`send_buf`. -/
def atVprintfln (text : List UInt8) : Option (List UInt8) :=
  -- `vsnprintf` cuts the text off, but returns the whole length
  let sendBuf := text.take (AT_CMD_MAX_LEN - 1) ++ [0]
  if text.length ≤ AT_CMD_MAX_LEN then some (sendBuf.take text.length ++ [0x0d, 0x0a]) else none

/-- The number fits an `int`. -/
def FitsInt (z : ℤ) : Prop := -2 ^ 31 ≤ z ∧ z < 2 ^ 31

instance (z : ℤ) : Decidable (FitsInt z) := inferInstanceAs (Decidable (_ ∧ _))

/-- `atoi` of an argument.  `none` is undefined: there is no such argument, or its number does not
fit an `int`. -/
def argInt (argv : List (List UInt8)) (i : ℕ) : Option ℤ :=
  argv[i]?.bind fun s => if FitsInt (atoi s) then some (atoi s) else none

/-- The states of an AT client. -/
inductive AtStatus
  | uninitialized
  | initialized
  | cli
  deriving DecidableEq

/-- What comes of a command: the text that tells how it is used, an error of `at_obj_exec_cmd`
before anything is sent, or what is sent. -/
inductive Outcome
  | usage
  /-- `-RT_ERROR`: there is no client -/
  | error
  /-- `-RT_EBUSY`: the client is in CLI mode -/
  | busy
  | sent (text : List UInt8)
  deriving DecidableEq

/-- `at_obj_exec_cmd` up to what it sends: `client` is the status of the first client, if there is
one, and `resp` whether there is a response. -/
def atObjExecCmd (client : Option AtStatus) (resp : Bool) (text : List UInt8) : Option Outcome :=
  match client with
  | none => some .error
  | some status =>
    if status = .cli ∧ resp then some .busy else do return .sent (← atVprintfln text)

/-- A command with two numbers; `created` says whether `at_create_resp` finds its memory. -/
def atNumbers (word : List UInt8) (client : Option AtStatus) (created : Bool)
    (argv : List (List UInt8)) : Option Outcome := do
  let regAddr ← argInt argv 1
  let regCnt ← argInt argv 2
  if argv.length < 3 then return .usage
  atObjExecCmd client created
    (word ++ decimal (uint16 regAddr) ++ 0x2c :: decimal (uint16 regCnt) ++ [0x0d, 0x0a])

def RD_REG : List UInt8 := [0x52, 0x44, 0x5f, 0x52, 0x45, 0x47, 0x3d]

def WR_REG : List UInt8 := [0x57, 0x52, 0x5f, 0x52, 0x45, 0x47, 0x3d]

/-- `atrd`. -/
def atrd : Option AtStatus → Bool → List (List UInt8) → Option Outcome := atNumbers RD_REG

/-- `atwr`. -/
def atwr : Option AtStatus → Bool → List (List UInt8) → Option Outcome := atNumbers WR_REG

inductive AtCommand
  | atrd
  | atwr
  deriving DecidableEq

namespace AtCommand

def name : AtCommand → List UInt8
  | atrd => [0x61, 0x74, 0x72, 0x64]
  | atwr => [0x61, 0x74, 0x77, 0x72]

def word : AtCommand → List UInt8
  | atrd => RD_REG
  | atwr => WR_REG

def run : AtCommand → Option AtStatus → Bool → List (List UInt8) → Option Outcome
  | atrd => At.atrd
  | atwr => At.atwr

theorem run_eq (cmd : AtCommand) : cmd.run = atNumbers cmd.word := by cases cmd <;> rfl

end AtCommand

/-! ### Digits -/

theorem digit_ofNat {d : ℕ} (h : d < 10) :
    Digit (0x30 + UInt8.ofNat d) ∧ (0x30 + UInt8.ofNat d).toNat - 0x30 = d := by
  interval_cases d <;> decide

theorem digits_decimal (n : ℕ) : ∀ c ∈ decimal n, Digit c := by
  unfold decimal
  split
  · exact forall_mem_of_all (by decide)
  · intro c hc
    obtain ⟨d, hd, rfl⟩ := List.mem_map.1 hc
    exact (digit_ofNat (Nat.digits_lt_base (by decide) (List.mem_reverse.1 hd))).1

/-- **A number sent is read again.** -/
theorem ofDigits_decimal (n : ℕ) : ofDigits (decimal n) = n := by
  unfold decimal
  split
  · rename_i h
    rw [h]
    rfl
  · have hvalue : ∀ l : List ℕ, (∀ d ∈ l, d < 10) →
        ofDigits (l.reverse.map fun d => 0x30 + UInt8.ofNat d) = Nat.ofDigits 10 l := by
      intro l hl
      induction l with
      | nil => rfl
      | cons d l ih =>
        obtain ⟨hd, hl⟩ := List.forall_mem_cons.1 hl
        rw [List.reverse_cons, List.map_append, ofDigits, List.foldl_append, ← ofDigits, ih hl]
        show 10 * _ + ((0x30 + UInt8.ofNat d).toNat - 0x30) = _
        rw [(digit_ofNat hd).2, Nat.ofDigits_cons, Nat.add_comm]
    rw [hvalue _ fun d hd => Nat.digits_lt_base (by decide) hd, Nat.ofDigits_digits]

theorem length_decimal {n : ℕ} (h : n < 2 ^ 16) : (decimal n).length ≤ 5 := by
  unfold decimal
  split
  · decide
  · rw [List.length_map, List.length_reverse, Nat.digits_length_le_iff (by decide)]
    omega

theorem atVprintfln_of_lt {text : List UInt8} (h : text.length < AT_CMD_MAX_LEN) :
    atVprintfln text = some (text ++ [0x0d, 0x0a]) := by
  have htake : text.take (AT_CMD_MAX_LEN - 1) = text := List.take_of_length_le (by omega)
  rw [atVprintfln, if_pos h.le, htake, List.take_left]

/-! ### Two numbers typed -/

/-- Two numbers, whatever stands behind them. -/
theorem run_numbers (cmd : AtCommand) (client : Option AtStatus) (created : Bool)
    {a v : List UInt8} (rest : List (List UInt8)) (ha : FitsInt (atoi a)) (hv : FitsInt (atoi v)) :
    cmd.run client created (cmd.name :: a :: v :: rest) =
      atObjExecCmd client created (cmd.word ++ decimal (uint16 (atoi a)) ++
        0x2c :: decimal (uint16 (atoi v)) ++ [0x0d, 0x0a]) := by
  have haddr : argInt (cmd.name :: a :: v :: rest) 1 = some (atoi a) := if_pos ha
  have hcnt : argInt (cmd.name :: a :: v :: rest) 2 = some (atoi v) := if_pos hv
  have hmany : ¬ (cmd.name :: a :: v :: rest).length < 3 := by
    simp only [List.length_cons]
    omega
  rw [AtCommand.run_eq, atNumbers, haddr, Option.bind_eq_bind, Option.bind_some, hcnt,
    Option.bind_some, if_neg hmany]

/-- The text of two numbers fits `send_buf`. -/
theorem atVprintfln_numbers (cmd : AtCommand) (a v : ℤ) :
    atVprintfln (cmd.word ++ decimal (uint16 a) ++ 0x2c :: decimal (uint16 v) ++ [0x0d, 0x0a]) =
      some (cmd.word ++ decimal (uint16 a) ++ 0x2c :: decimal (uint16 v) ++ [0x0d, 0x0a] ++
        [0x0d, 0x0a]) := by
  refine atVprintfln_of_lt ?_
  have hword : cmd.word.length = 7 := by cases cmd <;> rfl
  have haddr := length_decimal (uint16_lt a)
  have hcnt := length_decimal (uint16_lt v)
  simp only [List.length_append, List.length_cons, List.length_nil, hword, AT_CMD_MAX_LEN]
  omega

/-- Fewer than two arguments. -/
theorem run_missing (cmd : AtCommand) (client : Option AtStatus) (created : Bool)
    {argv : List (List UInt8)} (h : argv.length < 3) : cmd.run client created argv = none := by
  have hcnt : argInt argv 2 = none := by
    rw [argInt, List.getElem?_eq_none (by omega), Option.bind_none]
  rw [AtCommand.run_eq, atNumbers, hcnt]
  cases argInt argv 1 <;> rfl

/-- What a command with two numbers does to send the text. -/
structure Sends (outcome : Option AtStatus → Bool → Option Outcome) (text : List UInt8) : Prop where
  noClient : ∀ created, outcome none created = some .error
  cli : outcome (some .cli) true = some .busy
  noResp : ∀ status, outcome (some status) false = some (.sent text)
  sent : ∀ status created, status ≠ .cli → outcome (some status) created = some (.sent text)

theorem sends_atObjExecCmd {text sent : List UInt8} (h : atVprintfln text = some sent) :
    Sends (fun client created => atObjExecCmd client created text) sent := by
  constructor
  case noClient => exact fun _ => rfl
  case cli => rfl
  case noResp =>
    intro status
    simp [atObjExecCmd, h]
  case sent =>
    intro status created hne
    simp [atObjExecCmd, h, hne]

/-- **Numbers typed are numbers sent.**  From every state reached in which the line is empty, and
no line has reached 80 characters, the line typed calls the command.  With fewer than two arguments
it reads through a null pointer; with two or more it sends the first two, as digits, modulo 2^16,
unless there is no client or a response and a client in CLI mode. -/
theorem typed_numbers (cmd : AtCommand) {tab : Table} {chs g trail : List UInt8}
    {args : List (List UInt8 × Arg)} (hnames : ∀ name ∈ tab.names, Console.IsLine name)
    (hname : cmd.name ∈ tab.names) (hfits : Editor.init.Fits tab chs)
    (hargs : Separated ((g, .word cmd.name) :: args)) (htrail : ∀ c ∈ trail, Blank c)
    (hprint : ∀ c ∈ render ((g, .word cmd.name) :: args) ++ trail, Printable c)
    (hlen : (render ((g, .word cmd.name) :: args) ++ trail).length < FINSH_CMD_SIZE) :
    ∃ sh actions, finshKeys tab chs Shell.init = some (sh, actions) ∧
      (sh.stat = .waitNormal → sh.text = [] →
        ∃ sh' before line length after argv,
          finshKeys tab (chs ++ (render ((g, .word cmd.name) :: args) ++ trail ++ [0x0d]))
            Shell.init = some (sh', actions ++ (before ++ [.exec line length] ++ after)) ∧
          executed before = [] ∧ executed after = [] ∧
          mshExec tab line length = some (.call cmd.name argv) ∧
          (args.length < 2 → ∀ client created, cmd.run client created argv = none) ∧
          ∀ a v rest, args = a :: v :: rest → FitsInt (atoi a.2.value) →
            FitsInt (atoi v.2.value) →
            ∃ addr cnt, (∀ c ∈ addr, Digit c) ∧ ofDigits addr = uint16 (atoi a.2.value) ∧
              (∀ c ∈ cnt, Digit c) ∧ ofDigits cnt = uint16 (atoi v.2.value) ∧
              Sends (fun client created => cmd.run client created argv)
                (cmd.word ++ addr ++ 0x2c :: cnt ++ [0x0d, 0x0a] ++ [0x0d, 0x0a])) := by
  obtain ⟨sh, actions, hrun, hline⟩ := Editor.typed_executes hnames hfits hprint hlen
  refine ⟨sh, actions, hrun, fun hstat htext => ?_⟩
  obtain ⟨sh', before, line, length, after, hkeys, hbefore, hafter, hexec⟩ := hline hstat htext
  rw [execute_render hname hargs htrail] at hexec
  refine ⟨sh', before, line, length, after, _, hkeys, hbefore, hafter, hexec,
    fun hfew client created => ?_, fun a v rest heq ha hv => ?_⟩
  · refine run_missing cmd client created ?_
    rw [List.length_take, List.length_cons, List.length_map]
    omega
  · refine ⟨_, _, digits_decimal _, ofDigits_decimal _, digits_decimal _, ofDigits_decimal _, ?_⟩
    have hsends := sends_atObjExecCmd (atVprintfln_numbers cmd (atoi a.2.value) (atoi v.2.value))
    have hruns := fun client created => run_numbers cmd client created
      ((rest.map fun x => x.2.value).take (FINSH_ARG_MAX - 3)) ha hv
    rw [heq]
    exact (funext fun client => funext fun created => hruns client created) ▸ hsends

/-- `atwr 3 65539`, where 3 is sent for the second number. -/
theorem typed_numbers_wraps :
    ∃ line length argv addr cnt,
      mshExec ⟨[0x3e], [AtCommand.atwr.name]⟩ line length =
        some (.call AtCommand.atwr.name argv) ∧
      ofDigits addr = 3 ∧ ofDigits cnt = 3 ∧
      Sends (fun client created => AtCommand.atwr.run client created argv)
        (WR_REG ++ addr ++ 0x2c :: cnt ++ [0x0d, 0x0a] ++ [0x0d, 0x0a]) := by
  have hargs : Separated [([], .word AtCommand.atwr.name), ([0x20], .word [0x33]),
      ([0x20], .word [0x36, 0x35, 0x35, 0x33, 0x39])] := by
    simp only [Separated, List.forall_mem_cons, List.not_mem_nil, false_imp_iff, implies_true,
      and_true, List.tail_cons, Arg.Valid]
    exact ⟨⟨⟨by decide, by decide, by decide, forall_mem_of_all (by decide)⟩,
      ⟨by decide, by decide, by decide, by decide⟩, by decide, by decide, by decide, by decide⟩,
      by decide, by decide⟩
  obtain ⟨sh, actions, hrun, hline⟩ := @typed_numbers .atwr ⟨[0x3e], [AtCommand.atwr.name]⟩ [] [] []
    _ (by decide) (by decide) (by decide) hargs (fun _ hc => absurd hc List.not_mem_nil)
    (forall_mem_of_all (by decide)) (by decide)
  obtain rfl : Shell.init = sh := congrArg Prod.fst (Option.some_inj.1 hrun)
  obtain ⟨-, -, line, length, -, argv, -, -, -, hexec, -, hsent⟩ := hline rfl rfl
  obtain ⟨addr, cnt, -, haddr, -, hcnt, hbytes⟩ := hsent _ _ _ rfl (by decide) (by decide)
  exact ⟨line, length, argv, addr, cnt, hexec, haddr.trans (by decide), hcnt.trans (by decide),
    hbytes⟩

end At
end AccTx
