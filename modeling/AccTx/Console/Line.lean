/-
# The line editor of the shell

`components/finsh/shell.c`: the loop of `finsh_thread_entry`, with the history of command lines,
and `msh_auto_complete` of `msh.c`.  The shell is built with `FINSH_USING_MSH_ONLY` and
`FINSH_USING_HISTORY`, without authentication and file systems.

A key changes the shell, prints and may execute a command (`finshKey`).  What it prints and
executes is a list of `Action`s.  `none` is an access outside of an array.  A `char` is unsigned, as
on ARM, so no character is negative.

The command table is put together by the linker, so `Table` leaves it open.  Its names are those of
the `__cmd_` entries without the prefix.
-/

import AccTx.Series.Text
import Mathlib.Data.UInt

namespace AccTx
namespace Console

open Series

def FINSH_CMD_SIZE : ℕ := 80

def FINSH_HISTORY_LINES : ℕ := 5

/-- `enum input_stat`. -/
inductive InputStat
  | waitNormal
  | waitSpecKey
  | waitFuncKey
  deriving DecidableEq

/-- `struct finsh_shell`, the fields of the line and of the history. -/
structure Shell where
  stat : InputStat
  currentHistory : ℕ
  historyCount : ℕ
  cmdHistory : List (List UInt8)
  line : List UInt8
  linePosition : ℕ
  lineCurpos : ℕ

/-- The shell that `finsh_system_init` allocates. -/
def Shell.init : Shell where
  stat := .waitNormal
  currentHistory := 0
  historyCount := 0
  cmdHistory := List.replicate FINSH_HISTORY_LINES (List.replicate FINSH_CMD_SIZE 0)
  line := List.replicate FINSH_CMD_SIZE 0
  linePosition := 0
  lineCurpos := 0

/-- What a key makes the shell do besides: print a character, print the list of commands
(`msh_help`), or `msh_exec(line, length)`. -/
inductive Action
  | put (ch : UInt8)
  | help
  | exec (line : List UInt8) (length : ℕ)
  deriving DecidableEq

/-- The prompt and the names of the commands. -/
structure Table where
  prompt : List UInt8
  names : List (List UInt8)

/-- `rt_kprintf("%s", s)`. -/
def print (s : List UInt8) : List Action := s.map .put

/-- `n` times `rt_kprintf("\b")`. -/
def backs (n : ℕ) : List Action := print (List.replicate n 0x08)

/-- What a key leads to. -/
abbrev KeyResult := Option (Shell × List Action)

/-- One less, on 16 bits. -/
def decr (n : ℕ) : ℕ := (n + (2 ^ 16 - 1)) % 2 ^ 16

/-! ### The history -/

/-- A line as it is put into the history. -/
def historyLine (line : List UInt8) (length : ℕ) : Option (List UInt8) :=
  if length ≤ line.length ∧ length ≤ FINSH_CMD_SIZE then
    some (line.take length ++ List.replicate (FINSH_CMD_SIZE - length) 0)
  else none

/-- `shell_push_history` of a line that is not empty.  It is not pushed if it is the same as the
last one. -/
def pushLine (sh : Shell) : Option Shell :=
  if sh.historyCount ≥ FINSH_HISTORY_LINES then
    if sh.cmdHistory[FINSH_HISTORY_LINES - 1]? = some sh.line then some sh
    else
      (historyLine sh.line sh.linePosition).map fun line =>
        { sh with
          cmdHistory := sh.cmdHistory.tail ++ [line]
          historyCount := FINSH_HISTORY_LINES }
  else if sh.historyCount = 0 ∨ sh.cmdHistory[sh.historyCount - 1]? ≠ some sh.line then
    (historyLine sh.line sh.linePosition).bind fun line =>
      (store sh.cmdHistory sh.historyCount line).map fun history =>
        { sh with
          currentHistory := sh.historyCount
          cmdHistory := history
          historyCount := sh.historyCount + 1 }
  else some sh

/-- `shell_push_history`. -/
def shellPushHistory (sh : Shell) : Option Shell :=
  (if sh.linePosition ≠ 0 then pushLine sh else some sh).map fun sh =>
    { sh with currentHistory := sh.historyCount }

/-- Copy a line of the history, and `shell_handle_history`. -/
def showHistory (tab : Table) (sh : Shell) : KeyResult := do
  let line ← sh.cmdHistory[sh.currentHistory]?
  let text ← cString line
  some ({ sh with line := line, linePosition := text.length, lineCurpos := text.length },
    print [0x1b, 0x5b, 0x32, 0x4b, 0x0d] ++ print tab.prompt ++ print text)

/-! ### The keys -/

def upKey (tab : Table) (sh : Shell) : KeyResult :=
  if sh.currentHistory > 0 then
    showHistory tab { sh with currentHistory := sh.currentHistory - 1 }
  else some (sh, [])

def downKey (tab : Table) (sh : Shell) : KeyResult :=
  -- `history_count - 1` is an `int`
  if sh.currentHistory + 1 < sh.historyCount then
    showHistory tab { sh with currentHistory := sh.currentHistory + 1 }
  else if sh.historyCount ≠ 0 then
    showHistory tab { sh with currentHistory := sh.historyCount - 1 }
  else some (sh, [])

def leftKey (sh : Shell) : KeyResult :=
  if sh.lineCurpos ≠ 0 then some ({ sh with lineCurpos := sh.lineCurpos - 1 }, backs 1)
  else some (sh, [])

def rightKey (sh : Shell) : KeyResult := do
  if sh.lineCurpos < sh.linePosition then do
    let ch ← sh.line[sh.lineCurpos]?
    some ({ sh with lineCurpos := sh.lineCurpos + 1 }, [.put ch])
  else some (sh, [])

/-- `str_common`: how far two strings agree. -/
def strCommon : List UInt8 → List UInt8 → ℕ
  | x :: s, y :: t => if x = y then strCommon s t + 1 else 0
  | _, _ => 0

/-- The loop of `msh_auto_complete` after the first command that matches. -/
def minCommon (name : List UInt8) (matched : List (List UInt8)) : ℕ :=
  matched.foldl (fun n cmd => min n (strCommon name cmd)) name.length

/-- `msh_auto_complete`, for the string at the beginning of the line. -/
def mshAutoComplete (tab : Table) (line : List UInt8) : Option (List UInt8 × List Action) := do
  let text ← cString line
  if text = [] then some (line, [.help])
  else
    match tab.names.filter (text <+: ·) with
    | [] => some (line, [])
    | name :: matched =>
      let length := minCommon name (name :: matched)
      if length ≤ line.length then
        some (name.take length ++ line.drop length,
          (name :: matched).flatMap fun cmd => print cmd ++ print [0x0a])
      else none

def tabKey (tab : Table) (sh : Shell) : KeyResult := do
  let (line, actions) ← mshAutoComplete tab sh.line
  let text ← cString line
  some ({ sh with line := line, linePosition := text.length, lineCurpos := text.length },
    backs sh.lineCurpos ++ print [0x0a] ++ actions ++ print tab.prompt ++ print text)

def backspaceKey (sh : Shell) : KeyResult :=
  if sh.lineCurpos = 0 then some (sh, [])
  else
    let position := decr sh.linePosition
    let curpos := sh.lineCurpos - 1
    if position > curpos then do
      let line ← memmove sh.line curpos (curpos + 1) (position - curpos)
      let line ← store line position 0
      let text ← cString (line.drop curpos)
      some ({ sh with line := line, linePosition := position, lineCurpos := curpos },
        backs 1 ++ print text ++ print [0x20, 0x20] ++ backs 1 ++ backs (position - curpos + 1))
    else do
      let line ← store sh.line position 0
      some ({ sh with line := line, linePosition := position, lineCurpos := curpos },
        print [0x08, 0x20, 0x08])

/-- The end of a line.  Nothing that the command does changes the line after it. -/
def enterKey (tab : Table) (sh : Shell) : KeyResult := do
  let sh ← shellPushHistory sh
  some ({ sh with line := List.replicate FINSH_CMD_SIZE 0, linePosition := 0, lineCurpos := 0 },
    print [0x0a] ++ [.exec sh.line sh.linePosition] ++ print tab.prompt)

def normalKey (ch : UInt8) (sh : Shell) : KeyResult := do
  -- it's a large line, discard it
  let position := if sh.linePosition ≥ FINSH_CMD_SIZE then 0 else sh.linePosition
  let (line, actions) ←
    if sh.lineCurpos < position then do
      let line ← memmove sh.line (sh.lineCurpos + 1) sh.lineCurpos (position - sh.lineCurpos)
      let line ← store line sh.lineCurpos ch
      let text ← cString (line.drop sh.lineCurpos)
      some (line, print text ++ backs (position - sh.lineCurpos))
    else do
      let line ← store sh.line position ch
      some (line, print [ch])
  let position := position + 1
  let curpos := (sh.lineCurpos + 1) % 2 ^ 16
  -- clear command line
  let full := position ≥ FINSH_CMD_SIZE
  some ({ sh with
      line := line
      linePosition := if full then 0 else position
      lineCurpos := if full then 0 else curpos }, actions)

/-- A key that is no part of a control key. -/
def plainKey (tab : Table) (ch : UInt8) (sh : Shell) : KeyResult :=
  if ch = 0 ∨ ch = 0xff then some (sh, [])
  else if ch = 0x09 then tabKey tab sh
  else if ch = 0x7f ∨ ch = 0x08 then backspaceKey sh
  else if ch = 0x0d ∨ ch = 0x0a then enterKey tab sh
  else normalKey ch sh

/-- The body of the loop of `finsh_thread_entry`. -/
def finshKey (tab : Table) (ch : UInt8) (sh : Shell) : KeyResult :=
  if ch = 0x1b then some ({ sh with stat := .waitSpecKey }, [])
  else
    match sh.stat with
    | .waitSpecKey =>
      if ch = 0x5b then some ({ sh with stat := .waitFuncKey }, [])
      else plainKey tab ch { sh with stat := .waitNormal }
    | .waitFuncKey =>
      let sh := { sh with stat := .waitNormal }
      if ch = 0x41 then upKey tab sh
      else if ch = 0x42 then downKey tab sh
      else if ch = 0x44 then leftKey sh
      else if ch = 0x43 then rightKey sh
      else plainKey tab ch sh
    | .waitNormal => plainKey tab ch sh

/-- A run of the shell, and what it does. -/
def finshKeys (tab : Table) : List UInt8 → Shell → KeyResult
  | [], sh => some (sh, [])
  | ch :: chs, sh =>
    (finshKey tab ch sh).bind fun r =>
      (finshKeys tab chs r.1).map fun r' => (r'.1, r.2 ++ r'.2)

end Console
end AccTx
