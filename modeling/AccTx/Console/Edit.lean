/-
# The line editor, keys and text

The line editor as its user sees it: a text with a cursor in it, the lines entered before, and
keys that move the cursor, change the text, recall a line, complete a command or enter the line
(`Editor.press`).  Control keys come as several characters (`decode`).

While no line reaches 80 characters the shell is this editor (`finshKeys_edit`): it never accesses
an array outside of its bounds, its arrays hold the text and the lines entered before with zeros
behind them, and it prints and executes what the editor does.
-/

import AccTx.Console.Line
import AccTx.Effect.Mealy
import AccTx.Series.Recent
import AccTx.Series.Zipper

namespace AccTx
namespace Console

open Effect Series

/-! ### The editor -/

inductive Key
  | up
  | down
  | left
  | right
  | tab
  | backspace
  | enter
  | char (ch : UInt8)

/-- A character that is no part of a control key. -/
def plain (ch : UInt8) : Option Key :=
  if ch = 0 ∨ ch = 0xff then none
  else if ch = 0x09 then some .tab
  else if ch = 0x7f ∨ ch = 0x08 then some .backspace
  else if ch = 0x0d ∨ ch = 0x0a then some .enter
  else some (.char ch)

/-- The key that a character ends. -/
def decode (ch : UInt8) : InputStat → InputStat × Option Key
  | .waitNormal => if ch = 0x1b then (.waitSpecKey, none) else (.waitNormal, plain ch)
  | .waitSpecKey =>
    if ch = 0x1b then (.waitSpecKey, none)
    else if ch = 0x5b then (.waitFuncKey, none)
    else (.waitNormal, plain ch)
  | .waitFuncKey =>
    if ch = 0x1b then (.waitSpecKey, none)
    else if ch = 0x41 then (.waitNormal, some .up)
    else if ch = 0x42 then (.waitNormal, some .down)
    else if ch = 0x44 then (.waitNormal, some .left)
    else if ch = 0x43 then (.waitNormal, some .right)
    else (.waitNormal, plain ch)

/-- The text, the lines entered before, the oldest first, and which of them was recalled last. -/
structure Editor where
  stat : InputStat
  cursor : Zipper UInt8
  history : List (List UInt8)
  browse : ℕ

def Editor.init : Editor where
  stat := .waitNormal
  cursor := .ofText []
  history := []
  browse := 0

/-- The lines to recall after a line is entered: empty lines and repetitions are not kept. -/
def remember (history : List (List UInt8)) (t : List UInt8) : List (List UInt8) :=
  if t = [] then history else pushRecent FINSH_HISTORY_LINES history t

/-- What the commands that begin with a text have in common. -/
def complete (names : List (List UInt8)) (t : List UInt8) : List UInt8 :=
  if t = [] then t
  else
    match names.filter (t <+: ·) with
    | [] => t
    | name :: matched => matched.foldl common name

namespace Editor

def recallLine (tab : Table) (e : Editor) (i : ℕ) : Editor × List Action :=
  match e.history[i]? with
  | some t => ({ e with cursor := .ofText t, browse := i },
      print [0x1b, 0x5b, 0x32, 0x4b, 0x0d] ++ print tab.prompt ++ print t)
  | none => (e, [])

/-- What is listed for Tab. -/
def candidates (tab : Table) (t : List UInt8) : List Action :=
  if t = [] then [.help]
  else (tab.names.filter (t <+: ·)).flatMap fun cmd => print cmd ++ print [0x0a]

def press (tab : Table) (e : Editor) : Key → Editor × List Action
  | .up => if e.browse = 0 then (e, []) else e.recallLine tab (e.browse - 1)
  | .down => e.recallLine tab (min (e.browse + 1) (e.history.length - 1))
  | .left => ({ e with cursor := e.cursor.moveLeft }, backs (min e.cursor.left.length 1))
  | .right => ({ e with cursor := e.cursor.moveRight }, print (e.cursor.right.take 1))
  | .tab =>
    let t := complete tab.names e.cursor.text
    ({ e with cursor := .ofText t },
      backs e.cursor.left.length ++ print [0x0a] ++ candidates tab e.cursor.text ++
        print tab.prompt ++ print t)
  | .backspace =>
    ({ e with cursor := e.cursor.erase },
      match e.cursor with
      | ⟨[], _⟩ => []
      | ⟨_ :: _, []⟩ => print [0x08, 0x20, 0x08]
      | ⟨_ :: _, right⟩ =>
        backs 1 ++ print right ++ print [0x20, 0x20] ++ backs 1 ++ backs (right.length + 1))
  | .enter =>
    let history := remember e.history e.cursor.text
    ({ e with cursor := .ofText [], history := history, browse := history.length },
      print [0x0a] ++ [.exec (padded FINSH_CMD_SIZE e.cursor.text) e.cursor.text.length] ++
        print tab.prompt)
  | .char ch =>
    ({ e with cursor := e.cursor.insert ch },
      print (ch :: e.cursor.right) ++ backs e.cursor.right.length)

/-- A character of the terminal. -/
def step (tab : Table) (e : Editor) (ch : UInt8) : Editor × List Action :=
  match decode ch e.stat with
  | (stat, none) => ({ e with stat := stat }, [])
  | (stat, some key) => { e with stat := stat }.press tab key

def next (tab : Table) (e : Editor) (ch : UInt8) : Editor := (e.step tab ch).1

def shows (tab : Table) (e : Editor) (ch : UInt8) : List Action := (e.step tab ch).2

/-! ### The arrays of the shell -/

/-- The history as the shell keeps it. -/
def historyArray (history : List (List UInt8)) : List (List UInt8) :=
  history.map (padded FINSH_CMD_SIZE) ++
    List.replicate (FINSH_HISTORY_LINES - history.length) (List.replicate FINSH_CMD_SIZE 0)

def shell (e : Editor) : Shell where
  stat := e.stat
  currentHistory := e.browse
  historyCount := e.history.length
  cmdHistory := historyArray e.history
  line := padded FINSH_CMD_SIZE e.cursor.text
  linePosition := e.cursor.text.length
  lineCurpos := e.cursor.left.length

end Editor

/-- A text that fits the line with a zero behind it. -/
def IsLine (t : List UInt8) : Prop := t.length < FINSH_CMD_SIZE ∧ 0 ∉ t

instance (t : List UInt8) : Decidable (IsLine t) := inferInstanceAs (Decidable (_ ∧ _))

/-- Every character of the text and of the lines entered before meets `P`. -/
def Editor.Over (P : UInt8 → Prop) (e : Editor) : Prop :=
  ∀ t, t = e.cursor.text ∨ t ∈ e.history → ∀ c ∈ t, P c

structure Editor.Valid (e : Editor) : Prop where
  nonzero : e.Over (· ≠ 0)
  fits : ∀ t, t = e.cursor.text ∨ t ∈ e.history → t.length < FINSH_CMD_SIZE
  size : e.history.length ≤ FINSH_HISTORY_LINES
  browse : e.browse ≤ e.history.length

theorem Editor.Valid.isLine {e : Editor} (hv : e.Valid) {t : List UInt8}
    (ht : t = e.cursor.text ∨ t ∈ e.history) : IsLine t :=
  ⟨hv.fits t ht, fun h => hv.nonzero t ht 0 h rfl⟩

theorem Editor.Valid.line {e : Editor} (hv : e.Valid) : IsLine e.cursor.text := hv.isLine (.inl rfl)

namespace Editor

theorem init_over {P : UInt8 → Prop} : init.Over P := by simp [Over, init]

theorem init_valid : init.Valid := ⟨init_over, by simp [init, FINSH_CMD_SIZE], by decide, by decide⟩

theorem shell_init : init.shell = Shell.init := rfl

variable {tab : Table} {e : Editor} {t : List UInt8} {history : List (List UInt8)} {i : ℕ}

theorem getElem?_historyArray (h : history[i]? = some t) :
    (historyArray history)[i]? = some (padded FINSH_CMD_SIZE t) := by
  obtain ⟨hi, rfl⟩ := List.getElem?_eq_some_iff.1 h
  rw [historyArray, List.getElem?_append_left (by rwa [List.length_map]), List.getElem?_map, h,
    Option.map_some]

theorem historyLine_padded (ht : IsLine t) :
    historyLine (padded FINSH_CMD_SIZE t) t.length = some (padded FINSH_CMD_SIZE t) := by
  have hle := ht.1.le
  rw [historyLine, if_pos ⟨by rwa [length_padded hle], hle⟩, take_padded, padded]

/-- A line behind the history. -/
theorem store_historyArray (h : history.length < FINSH_HISTORY_LINES) :
    store (historyArray history) history.length (padded FINSH_CMD_SIZE t) =
      some (historyArray (history ++ [t])) := by
  have hsub : FINSH_HISTORY_LINES - history.length =
      FINSH_HISTORY_LINES - (history.length + 1) + 1 := by omega
  rw [historyArray, hsub, List.replicate_succ, store_append (List.length_map ..), historyArray,
    List.map_append, List.map_singleton, List.append_assoc, List.singleton_append,
    List.length_append, List.length_singleton]

/-- A line behind a full history moves the others up. -/
theorem tail_historyArray (h : history.length = FINSH_HISTORY_LINES) :
    (historyArray history).tail ++ [padded FINSH_CMD_SIZE t] =
      historyArray ((history ++ [t]).drop 1) := by
  have hlen : (history ++ [t]).tail.length = FINSH_HISTORY_LINES := by
    rw [List.length_tail, List.length_append, h]
    rfl
  have hne : history ≠ [] := List.ne_nil_of_length_pos (by rw [h]; decide)
  rw [List.drop_one, historyArray, historyArray, hlen, h, Nat.sub_self, List.replicate_zero,
    List.append_nil, List.append_nil, List.tail_append_of_ne_nil hne, List.map_append,
    List.map_tail, List.map_singleton]

/-- The last line of the history is compared as a whole array. -/
theorem last_historyArray_iff (hline : IsLine t) (hhist : ∀ u ∈ history, IsLine u)
    (h : history ≠ []) :
    (historyArray history)[history.length - 1]? = some (padded FINSH_CMD_SIZE t) ↔
      history.getLast? = some t := by
  have hlast := List.getLast?_eq_some_getLast h
  rw [List.getLast?_eq_getElem?] at hlast
  have hu : IsLine (history.getLast h) := hhist _ (List.getLast_mem h)
  rw [getElem?_historyArray hlast, Option.some_inj, padded_inj hu.1.le hline.1.le hu.2 hline.2,
    List.getLast?_eq_getElem?, hlast, Option.some_inj]

theorem shellPushHistory_shell (hv : e.Valid) :
    shellPushHistory e.shell =
      some { e with
        history := remember e.history e.cursor.text
        browse := (remember e.history e.cursor.text).length }.shell := by
  have hline := hv.line
  have hhist : ∀ u ∈ e.history, IsLine u := fun u hu => hv.isLine (.inr hu)
  have hposition : e.shell.linePosition = e.cursor.text.length := rfl
  have hcount : e.shell.historyCount = e.history.length := rfl
  have harray : e.shell.cmdHistory = historyArray e.history := rfl
  have htext : e.shell.line = padded FINSH_CMD_SIZE e.cursor.text := rfl
  by_cases hnil : e.cursor.text = []
  · have hzero : e.cursor.text.length = 0 := by rw [hnil, List.length_nil]
    rw [shellPushHistory, if_neg (by rw [hposition, hzero]; simp), remember, if_pos hnil]
    rfl
  have hpos : e.shell.linePosition ≠ 0 := by rwa [hposition, ne_eq, List.length_eq_zero_iff]
  rw [shellPushHistory, if_pos hpos, pushLine, hcount, harray, htext, hposition,
    historyLine_padded hline, remember, if_neg hnil, pushRecent]
  rcases hv.size.eq_or_lt with hfull | hlt
  · have hne : e.history ≠ [] := List.ne_nil_of_length_pos (by rw [hfull]; decide)
    have hlast := last_historyArray_iff hline hhist hne
    rw [if_pos hfull.ge, ← hfull]
    by_cases hrep : e.history.getLast? = some e.cursor.text
    · rw [if_pos (hlast.2 hrep), if_pos hrep]
      rfl
    · have hlen : ((e.history ++ [e.cursor.text]).drop 1).length = e.history.length := by
        rw [List.length_drop, List.length_append, List.length_singleton, Nat.add_sub_cancel]
      rw [if_neg (mt hlast.1 hrep), if_neg hrep, Nat.add_sub_cancel_left, Option.map_some,
        tail_historyArray hfull, Option.map_some]
      simp only [shell, hlen]
  · have hdrop : e.history.length + 1 - FINSH_HISTORY_LINES = 0 := by omega
    rw [if_neg (Nat.not_le_of_lt hlt)]
    by_cases hrep : e.history.getLast? = some e.cursor.text
    · have hne : e.history ≠ [] := by
        rintro heq
        rw [heq] at hrep
        cases hrep
      have hlast := last_historyArray_iff hline hhist hne
      rw [if_neg (by simp [hne, hlast.2 hrep]), if_pos hrep]
      rfl
    · have hpush : e.history.length = 0 ∨ (historyArray e.history)[e.history.length - 1]? ≠
          some (padded FINSH_CMD_SIZE e.cursor.text) := by
        by_cases hne : e.history = []
        · exact .inl (by rw [hne, List.length_nil])
        · exact .inr (mt (last_historyArray_iff hline hhist hne).1 hrep)
      rw [if_pos hpush, Option.bind_some, store_historyArray hlt, if_neg hrep, hdrop,
        List.drop_zero, Option.map_some, Option.map_some]
      simp only [shell, List.length_append, List.length_singleton]

/-! ### One key -/

/-- What the shell does for a key. -/
def keyResult (tab : Table) : Key → Shell → KeyResult
  | .up => upKey tab
  | .down => downKey tab
  | .left => leftKey
  | .right => rightKey
  | .tab => tabKey tab
  | .backspace => backspaceKey
  | .enter => enterKey tab
  | .char ch => normalKey ch

theorem plainKey_eq (ch : UInt8) (sh : Shell) :
    plainKey tab ch sh =
      match plain ch with
      | none => some (sh, [])
      | some key => keyResult tab key sh := by
  rw [plainKey, plain]
  split_ifs <;> rfl

theorem finshKey_eq (ch : UInt8) (sh : Shell) :
    finshKey tab ch sh =
      match decode ch sh.stat with
      | (stat, none) => some ({ sh with stat := stat }, [])
      | (stat, some key) => keyResult tab key { sh with stat := stat } := by
  obtain ⟨stat, cur, count, hist, line, pos, curpos⟩ := sh
  cases stat with
  | waitNormal =>
    simp only [finshKey, decode, plainKey_eq]
    split_ifs
    · rfl
    · cases plain ch <;> rfl
  | waitSpecKey =>
    simp only [finshKey, decode, plainKey_eq]
    split_ifs
    · rfl
    · rfl
    · cases plain ch <;> rfl
  | waitFuncKey =>
    simp only [finshKey, decode, plainKey_eq]
    split_ifs
    · rfl
    · rfl
    · rfl
    · rfl
    · rfl
    · cases plain ch <;> rfl

/-- A line of the history is copied to the line. -/
theorem showHistory_shell (hv : e.Valid) (h : e.history[i]? = some t) :
    showHistory tab { e.shell with currentHistory := i } =
      some ((e.recallLine tab i).1.shell, (e.recallLine tab i).2) := by
  have hline : IsLine t := hv.isLine (.inr (List.mem_of_getElem? h))
  rw [showHistory, show ({ e.shell with currentHistory := i } : Shell).cmdHistory =
    historyArray e.history from rfl, getElem?_historyArray h, Option.bind_eq_bind, Option.bind_some,
    cString_padded hline.1 hline.2, Option.bind_some, recallLine, h]
  simp only [shell, Zipper.text_ofText, Zipper.left_ofText]

theorem upKey_shell (hv : e.Valid) :
    upKey tab e.shell = some ((e.press tab .up).1.shell, (e.press tab .up).2) := by
  have hbrowse : e.shell.currentHistory = e.browse := rfl
  rw [upKey, hbrowse, press]
  split_ifs with hpos hzero hzero
  · omega
  · have hlt : e.browse - 1 < e.history.length := by
      have := hv.browse
      omega
    exact showHistory_shell hv (List.getElem?_eq_getElem hlt)
  · rfl
  · omega

theorem downKey_shell (hv : e.Valid) :
    downKey tab e.shell = some ((e.press tab .down).1.shell, (e.press tab .down).2) := by
  have hbrowse : e.shell.currentHistory = e.browse := rfl
  have hcount : e.shell.historyCount = e.history.length := rfl
  rw [downKey, hbrowse, hcount, press]
  split_ifs with hlt hne
  · have hmin : min (e.browse + 1) (e.history.length - 1) = e.browse + 1 := by omega
    rw [hmin]
    exact showHistory_shell hv (List.getElem?_eq_getElem hlt)
  · have hmin : min (e.browse + 1) (e.history.length - 1) = e.history.length - 1 := by omega
    rw [hmin]
    exact showHistory_shell hv (List.getElem?_eq_getElem (by omega))
  · have hnone : e.history[min (e.browse + 1) (e.history.length - 1)]? = none := by
      rw [List.getElem?_eq_none_iff]
      omega
    rw [recallLine, hnone]

theorem leftKey_shell :
    leftKey e.shell = some ((e.press tab .left).1.shell, (e.press tab .left).2) := by
  obtain ⟨stat, ⟨_ | ⟨x, l⟩, r⟩, hist, browse⟩ := e
  · rfl
  · simp [leftKey, shell, press, Zipper.moveLeft, Zipper.text]

theorem rightKey_shell :
    rightKey e.shell = some ((e.press tab .right).1.shell, (e.press tab .right).2) := by
  obtain ⟨stat, ⟨l, _ | ⟨x, r⟩⟩, hist, browse⟩ := e
  · simp [rightKey, shell, press, Zipper.moveRight, Zipper.text, print]
  · have hget : (padded FINSH_CMD_SIZE (l.reverse ++ x :: r))[l.length]? = some x :=
      Zipper.getElem?_padded
    simp [rightKey, shell, press, hget, Zipper.moveRight, Zipper.text, print]

/-! ### Completion -/

theorem take_strCommon (s t : List UInt8) : s.take (strCommon s t) = common s t := by
  induction s generalizing t with
  | nil => cases t <;> rfl
  | cons x s ih =>
    cases t with
    | nil => rfl
    | cons y t =>
      rw [strCommon, common]
      split_ifs
      · rw [List.take_succ_cons, ih]
      · rfl

theorem take_foldl_strCommon (name : List UInt8) (cmds : List (List UInt8)) (n : ℕ) :
    name.take (cmds.foldl (fun n cmd => min n (strCommon name cmd)) n) =
      cmds.foldl common (name.take n) := by
  induction cmds generalizing n with
  | nil => rfl
  | cons cmd cmds ih =>
    rw [List.foldl_cons, ih, List.foldl_cons, common_take, ← take_strCommon, List.take_take]

theorem foldl_min_le (f : List UInt8 → ℕ) (cmds : List (List UInt8)) (n : ℕ) :
    cmds.foldl (fun n cmd => min n (f cmd)) n ≤ n := by
  induction cmds generalizing n with
  | nil => exact le_rfl
  | cons cmd cmds ih => exact (ih _).trans (min_le_left ..)

/-- The loop over the matching commands finds what they have in common. -/
theorem take_minCommon (name : List UInt8) (matched : List (List UInt8)) :
    name.take (minCommon name (name :: matched)) = matched.foldl common name := by
  rw [minCommon, take_foldl_strCommon, List.take_length, List.foldl_cons, common_self]

theorem minCommon_le (name : List UInt8) (matched : List (List UInt8)) :
    minCommon name matched ≤ name.length := foldl_min_le _ _ _

/-- The completion is the text, or what some commands that begin with it have in common. -/
theorem complete_cases (names : List (List UInt8)) (t : List UInt8) :
    complete names t = t ∨ ∃ name ∈ names, t <+: complete names t ∧ complete names t <+: name := by
  rw [complete]
  split_ifs with hnil
  · exact .inl rfl
  cases hmatch : names.filter (t <+: ·) with
  | nil => exact .inl rfl
  | cons name matched =>
    have hmem : ∀ cmd ∈ name :: matched, cmd ∈ names ∧ t <+: cmd := by
      intro cmd hcmd
      rwa [← hmatch, List.mem_filter, decide_eq_true_iff] at hcmd
    refine .inr ⟨name, (hmem name (List.mem_cons_self ..)).1, ?_, ?_⟩
    · rw [prefix_foldl_common_iff]
      exact ⟨(hmem name (List.mem_cons_self ..)).2, fun cmd hcmd =>
        (hmem cmd (List.mem_cons_of_mem _ hcmd)).2⟩
    · exact (prefix_foldl_common_iff.1 (List.prefix_refl _)).1

theorem isLine_complete {names : List (List UInt8)} (hnames : ∀ name ∈ names, IsLine name)
    (ht : IsLine t) : IsLine (complete names t) := by
  rcases complete_cases names t with heq | ⟨name, hname, -, hbegins⟩
  · rwa [heq]
  · obtain ⟨hlen, hzero⟩ := hnames name hname
    exact ⟨hbegins.length_le.trans_lt hlen, fun h => hzero (hbegins.subset h)⟩

/-- A longer text over a shorter one. -/
theorem take_append_drop_padded {n : ℕ} {u : List UInt8} (h : t.length ≤ u.length) :
    u ++ (padded n t).drop u.length = padded n u := by
  rw [padded, List.drop_append, List.drop_of_length_le h, List.nil_append, List.drop_replicate,
    padded]
  congr 2
  omega

theorem mshAutoComplete_padded (hnames : ∀ name ∈ tab.names, IsLine name) (ht : IsLine t) :
    mshAutoComplete tab (padded FINSH_CMD_SIZE t) =
      some (padded FINSH_CMD_SIZE (complete tab.names t), candidates tab t) := by
  rw [mshAutoComplete, cString_padded ht.1 ht.2, Option.bind_eq_bind, Option.bind_some,
    candidates, complete]
  split_ifs with hnil
  · rfl
  have hcomplete := complete_cases tab.names t
  rw [complete, if_neg hnil] at hcomplete
  cases hmatch : tab.names.filter (t <+: ·) with
  | nil => rfl
  | cons name matched =>
    rw [hmatch] at hcomplete
    simp only at hcomplete ⊢
    have hname : IsLine name := by
      have hmem : name ∈ tab.names.filter (t <+: ·) := by rw [hmatch]; exact List.mem_cons_self ..
      exact hnames name (List.mem_of_mem_filter hmem)
    have htake := take_minCommon name matched
    have hlen : (matched.foldl common name).length = minCommon name (name :: matched) := by
      rw [← htake, List.length_take, min_eq_left (minCommon_le ..)]
    have hle : t.length ≤ (matched.foldl common name).length := by
      rcases hcomplete with heq | ⟨-, -, hbegins, -⟩
      · rw [heq]
      · exact hbegins.length_le
    have hfit : minCommon name (name :: matched) ≤ (padded FINSH_CMD_SIZE t).length := by
      rw [length_padded ht.1.le]
      exact (minCommon_le ..).trans hname.1.le
    rw [if_pos hfit, htake, ← hlen, take_append_drop_padded hle]

theorem tabKey_shell (hnames : ∀ name ∈ tab.names, IsLine name) (hv : e.Valid) :
    tabKey tab e.shell = some ((e.press tab .tab).1.shell, (e.press tab .tab).2) := by
  have hline := isLine_complete hnames hv.line
  have hauto := mshAutoComplete_padded hnames hv.line
  rw [tabKey, show e.shell.line = padded FINSH_CMD_SIZE e.cursor.text from rfl, hauto,
    Option.bind_eq_bind, Option.bind_some]
  simp only [cString_padded hline.1 hline.2, Option.bind_eq_bind, Option.bind_some, press, shell,
    Zipper.text_ofText, Zipper.left_ofText]

/-! ### Edits -/

theorem decr_succ {n : ℕ} (h : n < FINSH_CMD_SIZE) : decr (n + 1) = n := by
  have hsize : FINSH_CMD_SIZE < 2 ^ 16 := by decide
  rw [decr, show n + 1 + (2 ^ 16 - 1) = n + 2 ^ 16 by omega, Nat.add_mod_right,
    Nat.mod_eq_of_lt (h.trans hsize)]

theorem backspaceKey_shell (hv : e.Valid) :
    backspaceKey e.shell =
      some ((e.press tab .backspace).1.shell, (e.press tab .backspace).2) := by
  obtain ⟨stat, ⟨_ | ⟨x, l⟩, r⟩, hist, browse⟩ := e
  · rfl
  have hlen : (Zipper.text ⟨x :: l, r⟩).length < FINSH_CMD_SIZE := hv.line.1
  have hzero : 0 ∉ Zipper.text ⟨x :: l, r⟩ := hv.line.2
  have htext : (Zipper.text ⟨x :: l, r⟩).length = l.length + r.length + 1 := by
    simp only [Zipper.length_text, List.length_cons]
    omega
  have hdel : (Zipper.text ⟨l, r⟩).length = l.length + r.length := Zipper.length_text
  rw [htext] at hlen
  have hdecr : decr (Zipper.text ⟨x :: l, r⟩).length = l.length + r.length := by
    rw [htext, decr_succ (by omega)]
  rw [backspaceKey]
  simp only [shell, hdecr, List.length_cons, Nat.add_sub_cancel, Nat.succ_ne_zero, if_false]
  cases r with
  | nil =>
    -- the last character
    rw [List.length_nil, Nat.add_zero, if_neg (lt_irrefl _),
      Zipper.erase_last_padded (by omega), Option.bind_eq_bind, Option.bind_some]
    simp only [press, Zipper.erase, hdel, List.length_nil, Nat.add_zero]
  | cons y r =>
    have hpos : l.length + (y :: r).length > l.length := by
      rw [List.length_cons]
      omega
    have herase := @Zipper.erase_padded _ x _ FINSH_CMD_SIZE l (y :: r) (by omega)
    have hright : 0 ∉ y :: r := fun h => hzero (List.mem_append_right _ h)
    have hroom : (y :: r).length < FINSH_CMD_SIZE - l.length := by omega
    have hstring : cString ((padded FINSH_CMD_SIZE (Zipper.text ⟨l, y :: r⟩)).drop l.length) =
        some (y :: r) := by
      rw [@Zipper.drop_padded_text _ ⟨l, y :: r⟩, cString_padded hroom hright]
    rw [if_pos hpos, Nat.add_sub_cancel_left]
    rw [Option.bind_eq_bind, ← Option.bind_assoc, herase, Option.bind_some, hstring,
      Option.bind_some]
    simp only [press, Zipper.erase, hdel]

theorem enterKey_shell (hv : e.Valid) :
    enterKey tab e.shell = some ((e.press tab .enter).1.shell, (e.press tab .enter).2) := by
  rw [enterKey, shellPushHistory_shell hv, Option.bind_eq_bind, Option.bind_some]
  rfl

theorem normalKey_shell {ch : UInt8} (hv : e.Valid) (hch : ch ≠ 0)
    (hfits : e.cursor.text.length + 1 < FINSH_CMD_SIZE) :
    normalKey ch e.shell =
      some ((e.press tab (.char ch)).1.shell, (e.press tab (.char ch)).2) := by
  have hlt : e.cursor.text.length < FINSH_CMD_SIZE := hv.line.1
  have hlen : e.cursor.text.length = e.cursor.left.length + e.cursor.right.length :=
    Zipper.length_text
  have hcurpos : (e.cursor.left.length + 1) % 2 ^ 16 = e.cursor.left.length + 1 := by
    have hsize : FINSH_CMD_SIZE < 2 ^ 16 := by decide
    exact Nat.mod_eq_of_lt (by omega)
  have hinsert : (e.cursor.insert ch).left.length = e.cursor.left.length + 1 := rfl
  rw [normalKey]
  simp only [shell, if_neg (Nat.not_le_of_lt hlt), ge_iff_le, if_neg (Nat.not_le_of_lt hfits),
    hcurpos, press, Zipper.length_text_insert, hinsert]
  by_cases hright : e.cursor.right = []
  · -- at the end
    have hend : ¬ e.cursor.left.length < e.cursor.text.length := by
      rw [hlen, hright, List.length_nil]
      omega
    rw [if_neg hend, Zipper.append_padded hlt hright, Option.bind_eq_bind, Option.bind_some,
      Option.bind_eq_bind, Option.bind_some, hright]
    rfl
  · have hmid : e.cursor.left.length < e.cursor.text.length := by
      have hpos := List.length_pos_iff.2 hright
      omega
    have hsub : e.cursor.text.length - e.cursor.left.length = e.cursor.right.length := by omega
    have hzero : 0 ∉ ch :: e.cursor.right := by
      rintro h
      rcases List.mem_cons.1 h with h0 | h0
      · exact hch h0.symm
      · exact hv.line.2 (List.mem_append_right _ h0)
    have hstring : cString ((padded FINSH_CMD_SIZE (e.cursor.insert ch).text).drop
        e.cursor.left.length) = some (ch :: e.cursor.right) := by
      have hdrop := @drop_padded _ _ FINSH_CMD_SIZE e.cursor.left.reverse (ch :: e.cursor.right)
      rw [List.length_reverse] at hdrop
      rw [Zipper.text_insert, hdrop, cString_padded (by rw [List.length_cons]; omega) hzero]
    have hins := @Zipper.insert_padded _ e.cursor ch _ FINSH_CMD_SIZE hlt hright
    rw [if_pos hmid, hsub]
    simp only [Option.bind_eq_bind, ← Option.bind_assoc, hins, Option.bind_some, hstring]

/-! ### Every key -/

theorem keyResult_shell {key : Key} (hnames : ∀ name ∈ tab.names, IsLine name) (hv : e.Valid)
    (hchar : ∀ ch, key = .char ch → ch ≠ 0)
    (hfits : (e.press tab key).1.cursor.text.length < FINSH_CMD_SIZE) :
    keyResult tab key e.shell = some ((e.press tab key).1.shell, (e.press tab key).2) := by
  cases key with
  | up => exact upKey_shell hv
  | down => exact downKey_shell hv
  | left => exact leftKey_shell
  | right => exact rightKey_shell
  | tab => exact tabKey_shell hnames hv
  | backspace => exact backspaceKey_shell hv
  | enter => exact enterKey_shell hv
  | char ch =>
    rw [press, Zipper.length_text_insert] at hfits
    exact normalKey_shell hv (hchar ch rfl) hfits

/-- A line of the history after a key is one from before or the text. -/
theorem mem_remember {u : List UInt8} (h : u ∈ remember history t) : u = t ∨ u ∈ history := by
  rw [remember] at h
  split_ifs at h
  · exact .inr h
  · exact mem_pushRecent h

theorem length_remember (h : history.length ≤ FINSH_HISTORY_LINES) :
    (remember history t).length ≤ FINSH_HISTORY_LINES := by
  rw [remember]
  split_ifs
  · exact h
  · exact length_pushRecent h

/-- The texts after a key: no text, a line from before, a change of the text or a completion. -/
theorem press_text (tab : Table) (key : Key) :
    (e.press tab key).1.cursor.text = [] ∨ (e.press tab key).1.cursor.text = e.cursor.text ∨
      (e.press tab key).1.cursor.text ∈ e.history ∨
      (key = .backspace ∧ (e.press tab key).1.cursor = e.cursor.erase) ∨
      (∃ ch, key = .char ch ∧ (e.press tab key).1.cursor = e.cursor.insert ch) ∨
      ∃ name ∈ tab.names, (e.press tab key).1.cursor.text <+: name := by
  have hrecall : ∀ i, (e.recallLine tab i).1.cursor.text = e.cursor.text ∨
      (e.recallLine tab i).1.cursor.text ∈ e.history := by
    intro i
    rw [recallLine]
    cases h : e.history[i]? with
    | none => exact .inl rfl
    | some t => exact .inr (by rw [Zipper.text_ofText]; exact List.mem_of_getElem? h)
  cases key with
  | up =>
    rw [press]
    split_ifs
    · exact .inr (.inl rfl)
    · exact .inr ((hrecall _).imp_right .inl)
  | down => exact .inr ((hrecall _).imp_right .inl)
  | left => exact .inr (.inl Zipper.text_moveLeft)
  | right => exact .inr (.inl Zipper.text_moveRight)
  | tab =>
    rw [press, Zipper.text_ofText]
    rcases complete_cases tab.names e.cursor.text with heq | ⟨name, hname, -, hbegins⟩
    · exact .inr (.inl heq)
    · exact .inr (.inr (.inr (.inr (.inr ⟨name, hname, hbegins⟩))))
  | backspace => exact .inr (.inr (.inr (.inl ⟨rfl, rfl⟩)))
  | enter => exact .inl Zipper.text_ofText
  | char ch => exact .inr (.inr (.inr (.inr (.inl ⟨ch, rfl, rfl⟩))))

theorem press_history (tab : Table) (key : Key) {u : List UInt8}
    (h : u ∈ (e.press tab key).1.history) : u = e.cursor.text ∨ u ∈ e.history := by
  have hrecall : ∀ i, (e.recallLine tab i).1.history = e.history := by
    intro i
    rw [recallLine]
    cases e.history[i]? <;> rfl
  cases key with
  | up =>
    rw [press] at h
    split_ifs at h
    · exact .inr h
    · exact .inr (by rwa [hrecall] at h)
  | down => exact .inr (by rwa [press, hrecall] at h)
  | enter => exact mem_remember h
  | left | right | tab | backspace | char => exact .inr h

theorem press_over {P : UInt8 → Prop} {key : Key} (hP : e.Over P)
    (hnames : ∀ name ∈ tab.names, ∀ c ∈ name, P c) (hchar : ∀ ch, key = .char ch → P ch) :
    (e.press tab key).1.Over P := by
  rintro u (rfl | hu) c hc
  · rcases press_text tab key with h | h | h | ⟨-, h⟩ | ⟨ch, hkey, h⟩ | ⟨name, hname, h⟩
    · rw [h] at hc
      cases hc
    · exact hP _ (.inl h) c hc
    · exact hP _ (.inr h) c hc
    · rw [h] at hc
      exact hP _ (.inl rfl) c (Zipper.text_erase_subset hc)
    · rw [h, Zipper.mem_text_insert] at hc
      rcases hc with rfl | hc
      · exact hchar _ hkey
      · exact hP _ (.inl rfl) c hc
    · exact hnames name hname c (h.subset hc)
  · exact hP u (press_history tab key hu) c hc

/-- The history does not grow beyond its array, nor the index beyond the history. -/
theorem press_browse (hv : e.Valid) (tab : Table) (key : Key) :
    (e.press tab key).1.history.length ≤ FINSH_HISTORY_LINES ∧
      (e.press tab key).1.browse ≤ (e.press tab key).1.history.length := by
  have hrecall : ∀ i, (e.recallLine tab i).1.history.length ≤ FINSH_HISTORY_LINES ∧
      (e.recallLine tab i).1.browse ≤ (e.recallLine tab i).1.history.length := by
    intro i
    rw [recallLine]
    cases h : e.history[i]? with
    | none => exact ⟨hv.size, hv.browse⟩
    | some t => exact ⟨hv.size, (List.getElem?_eq_some_iff.1 h).1.le⟩
  cases key with
  | up =>
    rw [press]
    split_ifs
    · exact ⟨hv.size, hv.browse⟩
    · exact hrecall _
  | down => exact hrecall _
  | enter => exact ⟨length_remember hv.size, le_rfl⟩
  | left | right | tab | backspace | char => exact ⟨hv.size, hv.browse⟩

theorem press_valid {key : Key} (hnames : ∀ name ∈ tab.names, IsLine name) (hv : e.Valid)
    (hchar : ∀ ch, key = .char ch → ch ≠ 0)
    (hfits : (e.press tab key).1.cursor.text.length < FINSH_CMD_SIZE) :
    (e.press tab key).1.Valid where
  nonzero := press_over hv.nonzero
    (fun name hname c hc h0 => (hnames name hname).2 (h0 ▸ hc)) hchar
  fits := by
    rintro u (rfl | hu)
    · exact hfits
    · exact hv.fits u (press_history tab key hu)
  size := (press_browse hv tab key).1
  browse := (press_browse hv tab key).2

/-- A character that is typed is no control character. -/
theorem decode_char {ch c : UInt8} {stat : InputStat} (h : (decode ch stat).2 = some (.char c)) :
    c = ch ∧ ch ∉ [0x00, 0x08, 0x09, 0x0a, 0x0d, 0x1b, 0x7f, 0xff] := by
  have hplain : ∀ {k : Key}, plain ch = some k → k = .char c → ch ≠ 0x1b →
      c = ch ∧ ch ∉ [0x00, 0x08, 0x09, 0x0a, 0x0d, 0x1b, 0x7f, 0xff] := by
    rintro k hk rfl hesc
    rw [plain] at hk
    split_ifs at hk with h₀ h₁ h₂ h₃
    · cases hk
    · cases hk
    · cases hk
    · cases hk
      simp only [not_or] at h₀ h₂ h₃
      simp [h₀, h₁, h₂, h₃, hesc]
  cases stat with
  | waitNormal =>
    rw [decode] at h
    split_ifs at h with hesc
    exact hplain h rfl hesc
  | waitSpecKey =>
    rw [decode] at h
    split_ifs at h with hesc
    exact hplain h rfl hesc
  | waitFuncKey =>
    rw [decode] at h
    split_ifs at h with hesc
    all_goals first
      | exact hplain h rfl hesc
      | simp at h

/-! ### Runs -/

/-- No line of a run reaches the size of the array. -/
def Fits (tab : Table) (e : Editor) (chs : List UInt8) : Prop :=
  Always (next tab) (fun e ch => (e.next tab ch).cursor.text.length < FINSH_CMD_SIZE) e chs

instance (chs : List UInt8) : Decidable (e.Fits tab chs) :=
  inferInstanceAs (Decidable (Always _ _ _ _))

theorem step_over {P : UInt8 → Prop} {ch : UInt8} (hP : e.Over P)
    (hnames : ∀ name ∈ tab.names, ∀ c ∈ name, P c)
    (hchar : ch ∉ [0x00, 0x08, 0x09, 0x0a, 0x0d, 0x1b, 0x7f, 0xff] → P ch) :
    (e.next tab ch).Over P := by
  rw [next, step]
  have htyped : ∀ c, (decode ch e.stat).2 = some (.char c) → P c := by
    intro c hc
    obtain ⟨rfl, hcontrol⟩ := decode_char hc
    exact hchar hcontrol
  generalize decode ch e.stat = d at *
  obtain ⟨stat, _ | key⟩ := d
  · exact hP
  · exact @press_over tab { e with stat := stat } P key hP hnames fun c hc =>
      htyped c (congrArg some hc)

/-- **One character keeps the shell the editor.** -/
theorem finshKey_shell {ch : UInt8} (hnames : ∀ name ∈ tab.names, IsLine name) (hv : e.Valid)
    (hfits : (e.next tab ch).cursor.text.length < FINSH_CMD_SIZE) :
    finshKey tab ch e.shell = some ((e.next tab ch).shell, e.shows tab ch) ∧
      (e.next tab ch).Valid := by
  have htyped : ∀ c, (decode ch e.stat).2 = some (.char c) → c ≠ 0 := by
    intro c hc
    obtain ⟨rfl, hcontrol⟩ := decode_char hc
    exact fun h0 => hcontrol (by simp [h0])
  rw [finshKey_eq, show e.shell.stat = e.stat from rfl]
  rw [next, step] at hfits ⊢
  rw [shows, step]
  generalize decode ch e.stat = d at *
  obtain ⟨stat, _ | key⟩ := d
  · exact ⟨rfl, hv.nonzero, hv.fits, hv.size, hv.browse⟩
  · have hv' : Valid { e with stat := stat } := ⟨hv.nonzero, hv.fits, hv.size, hv.browse⟩
    have hchar : ∀ c, key = .char c → c ≠ 0 := fun c hc => htyped c (congrArg some hc)
    exact ⟨keyResult_shell hnames hv' hchar hfits, press_valid hnames hv' hchar hfits⟩

theorem finshKeys_shell {chs : List UInt8} (hnames : ∀ name ∈ tab.names, IsLine name)
    (hv : e.Valid) (hfits : e.Fits tab chs) :
    finshKeys tab chs e.shell =
        some ((chs.foldl (next tab) e).shell, (outputs (next tab) (shows tab) e chs).flatten) ∧
      (chs.foldl (next tab) e).Valid := by
  induction chs generalizing e with
  | nil => exact ⟨rfl, hv⟩
  | cons ch chs ih =>
    obtain ⟨hfit, hfits⟩ := hfits
    obtain ⟨hkey, hv'⟩ := finshKey_shell hnames hv hfit
    obtain ⟨hkeys, hv''⟩ := ih hv' hfits
    refine ⟨?_, hv''⟩
    rw [finshKeys, hkey, Option.bind_some, hkeys, Option.map_some, List.foldl_cons, outputs,
      List.flatten_cons]

/-- **The shell is the line editor**, for every run of characters in which no line reaches 80
characters. -/
theorem finshKeys_edit {chs : List UInt8} (hnames : ∀ name ∈ tab.names, IsLine name)
    (hfits : init.Fits tab chs) :
    finshKeys tab chs Shell.init =
      some ((chs.foldl (next tab) init).shell,
        (outputs (next tab) (shows tab) init chs).flatten) :=
  shell_init ▸ (finshKeys_shell hnames init_valid hfits).1

/-- The keys h, Tab, left, backspace and Enter. -/
theorem finshKeys_edit_hi :
    finshKeys ⟨[0x3e], [[0x68, 0x69]]⟩ [0x68, 0x09, 0x1b, 0x5b, 0x44, 0x08, 0x0d] Shell.init =
      some (([0x68, 0x09, 0x1b, 0x5b, 0x44, 0x08, 0x0d].foldl
          (next ⟨[0x3e], [[0x68, 0x69]]⟩) init).shell,
        (outputs (next ⟨[0x3e], [[0x68, 0x69]]⟩) (shows ⟨[0x3e], [[0x68, 0x69]]⟩) init
          [0x68, 0x09, 0x1b, 0x5b, 0x44, 0x08, 0x0d]).flatten) :=
  finshKeys_edit (by decide) (by decide)

end Editor
end Console
end AccTx
