/-
# Lines recalled and commands completed

What the history and Tab do for the user of the shell, for every run of characters before in which
no line reaches 80 characters.

The history holds the last five lines entered, without empty lines and repetitions
(`history_foldl`), so Up and Enter execute these lines again, the latest first (`up_repeats`).  Tab
turns the text into what the commands that begin with it have in common, no more and no less, and
leaves a text with which no command begins (`tab_completes`).
-/

import AccTx.Console.Edit

namespace AccTx
namespace Console

open Effect Series

/-- The line that an action executes. -/
def Action.line? : Action → Option (List UInt8)
  | .exec line length => some (line.take length)
  | .put _ | .help => none

/-- The lines executed. -/
def executed (actions : List Action) : List (List UInt8) := actions.filterMap Action.line?

/-- The lines that can be recalled: the last ones, without empty lines and repetitions. -/
def recent (lines : List (List UInt8)) : List (List UInt8) :=
  ((lines.filter (· ≠ [])).destutter (· ≠ ·)).rtake FINSH_HISTORY_LINES

/-- The line that can be recalled with `k` lines behind it, or else the oldest one. -/
def recalled (lines : List (List UInt8)) (k : ℕ) : List UInt8 :=
  ((recent lines).reverse[min k ((recent lines).length - 1)]?).getD []

/-- The text of the line. -/
def Shell.text (sh : Shell) : List UInt8 := sh.line.take sh.linePosition

@[simp] theorem executed_append (as bs : List Action) :
    executed (as ++ bs) = executed as ++ executed bs := List.filterMap_append

@[simp] theorem executed_nil : executed [] = [] := rfl

@[simp] theorem executed_exec (line : List UInt8) (length : ℕ) :
    executed [.exec line length] = [line.take length] := rfl

@[simp] theorem executed_print (s : List UInt8) : executed (print s) = [] := by
  rw [executed, print, List.filterMap_map, List.filterMap_eq_nil_iff]
  exact fun _ _ => rfl

namespace Editor

variable {tab : Table} {e : Editor} {chs : List UInt8} {t : List UInt8}

/-- The line that a key enters. -/
def entered (e : Editor) : Key → List (List UInt8)
  | .enter => [e.cursor.text]
  | _ => []

theorem executed_candidates (tab : Table) (t : List UInt8) : executed (candidates tab t) = [] := by
  rw [candidates]
  split_ifs
  · rfl
  · rw [executed, List.filterMap_eq_nil_iff]
    intro a ha
    obtain ⟨cmd, -, ha⟩ := List.mem_flatMap.1 ha
    rw [print, print, ← List.map_append] at ha
    obtain ⟨ch, -, rfl⟩ := List.mem_map.1 ha
    rfl

theorem executed_press (tab : Table) (key : Key) :
    executed (e.press tab key).2 = e.entered key := by
  have hrecall : ∀ i, executed (e.recallLine tab i).2 = [] := by
    intro i
    rw [recallLine]
    cases e.history[i]? with
    | none => rfl
    | some t => simp
  cases key with
  | up =>
    rw [press]
    split_ifs
    · rfl
    · exact hrecall _
  | down => exact hrecall _
  | left => exact executed_print _
  | right => exact executed_print _
  | tab => simp [press, backs, entered, executed_candidates]
  | backspace =>
    obtain ⟨stat, ⟨_ | ⟨x, l⟩, _ | ⟨y, r⟩⟩, hist, browse⟩ := e <;>
      simp [press, backs, entered]
  | enter =>
    rw [press, executed_append, executed_append, executed_print, executed_print, executed_exec,
      take_padded]
    rfl
  | char ch => simp [press, backs, entered]

theorem history_press (tab : Table) (key : Key) :
    (e.press tab key).1.history = (e.entered key).foldl remember e.history := by
  have hrecall : ∀ i, (e.recallLine tab i).1.history = e.history := by
    intro i
    rw [recallLine]
    cases e.history[i]? <;> rfl
  cases key with
  | up =>
    rw [press]
    split_ifs
    · rfl
    · exact hrecall _
  | down => exact hrecall _
  | left | right | tab | backspace | enter | char => rfl

/-- One character changes the history by what it executes. -/
theorem history_next (tab : Table) (e : Editor) (ch : UInt8) :
    (e.next tab ch).history = (executed (e.shows tab ch)).foldl remember e.history := by
  rw [next, shows, step]
  rcases decode ch e.stat with ⟨stat, _ | key⟩
  · rfl
  · exact (history_press tab key).trans (by rw [executed_press])

theorem foldl_remember (lines : List (List UInt8)) :
    lines.foldl remember [] = recent lines := by
  have hfilter : ∀ history, lines.foldl remember history =
      (lines.filter (· ≠ [])).foldl (pushRecent FINSH_HISTORY_LINES) history := by
    induction lines with
    | nil => exact fun _ => rfl
    | cons t lines ih =>
      intro history
      rw [List.foldl_cons, ih, List.filter_cons, remember]
      by_cases ht : t = []
      · simp [ht]
      · simp [ht]
  rw [hfilter, recent, foldl_pushRecent (by decide)]

/-- **The history holds the last lines entered.** -/
theorem history_foldl (tab : Table) (chs : List UInt8) :
    (chs.foldl (next tab) init).history =
      recent (executed (outputs (next tab) (shows tab) init chs).flatten) := by
  have hrun : ∀ e : Editor, (chs.foldl (next tab) e).history =
      (executed (outputs (next tab) (shows tab) e chs).flatten).foldl remember e.history := by
    induction chs with
    | nil => exact fun _ => rfl
    | cons ch chs ih =>
      intro e
      rw [List.foldl_cons, ih, outputs, List.flatten_cons, executed_append, List.foldl_append,
        history_next]
  rw [hrun, ← foldl_remember]
  rfl

/-! ### Up -/

/-- The characters of `k` Up keys. -/
def upKeys (k : ℕ) : List UInt8 := (List.replicate k [0x1b, 0x5b, 0x41]).flatten

theorem upKeys_succ (k : ℕ) : upKeys (k + 1) = [0x1b, 0x5b, 0x41] ++ upKeys k := rfl

theorem up_next (tab : Table) (e : Editor) :
    [0x1b, 0x5b, 0x41].foldl (next tab) e = ({ e with stat := .waitNormal }.press tab .up).1 := by
  obtain ⟨stat, cursor, hist, browse⟩ := e
  cases stat <;> rfl

/-- The first Up shows the line before the one recalled last. -/
theorem press_up (h : e.browse ≤ e.history.length) (hpos : e.browse ≠ 0) :
    (e.press tab .up).1 = { e with
      cursor := .ofText (e.history[e.browse - 1]?.getD [])
      browse := e.browse - 1 } := by
  have hlt : e.browse - 1 < e.history.length := by omega
  rw [press, if_neg hpos, recallLine, List.getElem?_eq_getElem hlt]
  rfl

/-- `k` times Up.  At the oldest line it stays. -/
theorem ups_next (hstat : e.stat = .waitNormal) (h : e.browse ≤ e.history.length) (k : ℕ) :
    (upKeys k).foldl (next tab) e = { e with
      cursor := if k = 0 ∨ e.browse = 0 then e.cursor
        else .ofText (e.history[e.browse - k]?.getD [])
      browse := e.browse - k } := by
  induction k generalizing e with
  | zero => rfl
  | succ k ih =>
    have hself : { e with stat := .waitNormal } = e := by rw [← hstat]
    rw [upKeys_succ, List.foldl_append, up_next, hself]
    by_cases hzero : e.browse = 0
    · have hup : (e.press tab .up).1 = e := by rw [press, if_pos hzero]
      rw [hup, ih hstat h, if_pos (.inr hzero), if_pos (.inr hzero), hzero, Nat.zero_sub,
        Nat.zero_sub]
    · have hrest := @ih { e with
          cursor := .ofText (e.history[e.browse - 1]?.getD [])
          browse := e.browse - 1 } hstat ((Nat.sub_le ..).trans h)
      have hright : ¬ (k + 1 = 0 ∨ e.browse = 0) := by omega
      rw [press_up h hzero, hrest, if_neg hright]
      simp only [Nat.sub_sub, Nat.add_comm 1 k]
      split_ifs with hend
      · have hsame : e.browse - 1 = e.browse - (k + 1) := by omega
        rw [hsame]
      · rfl

/-- A key that types no character keeps the line below 80 characters. -/
theorem next_fits {ch : UInt8} (hnames : ∀ name ∈ tab.names, IsLine name) (hv : e.Valid)
    (hch : ∀ c, (decode ch e.stat).2 ≠ some (.char c)) :
    (e.next tab ch).cursor.text.length < FINSH_CMD_SIZE := by
  rw [next, step]
  generalize decode ch e.stat = d at *
  obtain ⟨stat, _ | key⟩ := d
  · exact hv.line.1
  have hline : IsLine e.cursor.text := hv.line
  rcases @press_text { e with stat := stat } tab key with
    h | h | h | ⟨-, h⟩ | ⟨c, hkey, -⟩ | ⟨name, hname, h⟩
  · simp only [h]
    decide
  · simp only [h]
    exact hline.1
  · exact (hv.isLine (.inr h)).1
  · simp only [h]
    exact Zipper.length_text_erase_le.trans_lt hline.1
  · exact absurd (congrArg some hkey) (hch c)
  · exact h.length_le.trans_lt (hnames name hname).1

theorem next_valid {ch : UInt8} (hnames : ∀ name ∈ tab.names, IsLine name) (hv : e.Valid)
    (hch : ∀ c, (decode ch e.stat).2 ≠ some (.char c)) : (e.next tab ch).Valid :=
  (finshKey_shell hnames hv (next_fits hnames hv hch)).2

/-- The three characters of an Up key are that key and no other. -/
theorem upKeys_up (tab : Table) (e : Editor) (k : ℕ) :
    Always (next tab) (fun e ch => ∀ key, (decode ch e.stat).2 = some key → key = .up) e
      (upKeys k) := by
  induction k generalizing e with
  | zero => exact trivial
  | succ k ih =>
    have hesc : (decode 0x1b e.stat).2 = none := by cases e.stat <;> rfl
    have hstat : (e.next tab 0x1b).stat = .waitSpecKey := by
      obtain ⟨stat, cursor, hist, browse⟩ := e
      cases stat <;> rfl
    have hstat' : ((e.next tab 0x1b).next tab 0x5b).stat = .waitFuncKey := by
      rw [next, step, hstat]
      rfl
    refine ⟨fun key hkey => ?_, fun key hkey => ?_, fun key hkey => ?_, ih _⟩
    · rw [hesc] at hkey
      cases hkey
    · rw [hstat] at hkey
      cases hkey
    · rw [hstat'] at hkey
      cases hkey
      rfl

/-- Up keys execute nothing. -/
theorem upKeys_quiet (hnames : ∀ name ∈ tab.names, IsLine name) (hv : e.Valid)
    (h : Always (next tab) (fun e ch => ∀ key, (decode ch e.stat).2 = some key → key = .up) e chs) :
    e.Fits tab chs ∧ (chs.foldl (next tab) e).Valid ∧
      executed (outputs (next tab) (shows tab) e chs).flatten = [] := by
  induction chs generalizing e with
  | nil => exact ⟨trivial, hv, rfl⟩
  | cons ch chs ih =>
    obtain ⟨hup, h⟩ := h
    have hchar : ∀ c, (decode ch e.stat).2 ≠ some (.char c) := fun c hc => by cases hup _ hc
    have hshows : executed (e.shows tab ch) = [] := by
      rw [shows, step]
      generalize decode ch e.stat = d at *
      obtain ⟨stat, _ | key⟩ := d
      · rfl
      · rw [executed_press, hup key rfl]
        rfl
    obtain ⟨hfits, hv', hquiet⟩ := ih (next_valid hnames hv hchar) h
    refine ⟨⟨next_fits hnames hv hchar, hfits⟩, hv', ?_⟩
    rw [outputs, List.flatten_cons, executed_append, hshows, hquiet, List.nil_append]

/-- The end of a line: it is executed, and the line after it is empty. -/
theorem enter_next (tab : Table) (e : Editor) :
    e.next tab 0x0d = ({ e with stat := .waitNormal }.press tab .enter).1 ∧
      e.shows tab 0x0d = ({ e with stat := .waitNormal }.press tab .enter).2 := by
  obtain ⟨stat, cursor, hist, browse⟩ := e
  cases stat <;> exact ⟨rfl, rfl⟩

theorem fits_append {chs chs' : List UInt8} :
    e.Fits tab (chs ++ chs') ↔ e.Fits tab chs ∧ (chs.foldl (next tab) e).Fits tab chs' :=
  always_append

theorem fits_enter (hnames : ∀ name ∈ tab.names, IsLine name) (hv : e.Valid) :
    e.Fits tab [0x0d] ∧ (e.next tab 0x0d).Valid := by
  have henter : ∀ c, (decode 0x0d e.stat).2 ≠ some (.char c) := by
    cases e.stat <;> exact fun c h => by cases h
  exact ⟨⟨next_fits hnames hv henter, trivial⟩, next_valid hnames hv henter⟩

theorem executed_enter (tab : Table) (e : Editor) :
    executed (e.shows tab 0x0d) = [e.cursor.text] := by
  rw [(enter_next tab e).2, executed_press]
  rfl

/-- Up keys from an empty line, and Enter. -/
theorem ups_execute (hnames : ∀ name ∈ tab.names, IsLine name) (hv : e.Valid)
    (hstat : e.stat = .waitNormal) (hbrowse : e.browse = e.history.length)
    (hempty : e.cursor.text = []) (k : ℕ) :
    e.Fits tab (upKeys (k + 1) ++ [0x0d]) ∧
      executed (outputs (next tab) (shows tab) e (upKeys (k + 1) ++ [0x0d])).flatten =
        [(e.history.reverse[min k (e.history.length - 1)]?).getD []] := by
  obtain ⟨hfits, hv', hquiet⟩ := upKeys_quiet hnames hv (upKeys_up tab e (k + 1))
  refine ⟨fits_append.2 ⟨hfits, (fits_enter hnames hv').1⟩, ?_⟩
  rw [outputs_append, List.flatten_append, executed_append, hquiet, List.nil_append, outputs,
    outputs, List.flatten_singleton, executed_enter, ups_next hstat hbrowse.le]
  congr 1
  by_cases hzero : e.history.length = 0
  · have hnil : e.history = [] := List.length_eq_zero_iff.1 hzero
    rw [if_pos (.inr (hbrowse.trans hzero)), hempty, hnil]
    rfl
  · have hlt : min k (e.history.length - 1) < e.history.length := by omega
    have hindex : e.history.length - 1 - min k (e.history.length - 1) = e.browse - (k + 1) := by
      omega
    rw [if_neg (by omega), Zipper.text_ofText, List.getElem?_reverse hlt, hindex]

/-- **Up and Enter execute the lines again, the latest first**, after every run in which no line
reaches 80 characters.  Beyond the oldest line kept, Up stays there. -/
theorem up_repeats (hnames : ∀ name ∈ tab.names, IsLine name) (hfits : init.Fits tab chs) (k : ℕ) :
    ∃ sh actions sh' actions',
      finshKeys tab (chs ++ [0x0d]) Shell.init = some (sh, actions) ∧
      finshKeys tab (chs ++ [0x0d] ++ upKeys (k + 1) ++ [0x0d]) Shell.init =
        some (sh', actions ++ actions') ∧
      executed actions' = [recalled (executed actions) k] := by
  have hv := (finshKeys_shell hnames init_valid hfits).2
  have hfits₁ := (fits_enter hnames hv).1
  have hrun₁ : init.Fits tab (chs ++ [0x0d]) := fits_append.2 ⟨hfits, hfits₁⟩
  -- after the first line the history is not browsed
  have hlast : (chs ++ [0x0d]).foldl (next tab) init =
      (chs.foldl (next tab) init).next tab 0x0d := by
    rw [List.foldl_append]
    rfl
  rw [(enter_next tab _).1] at hlast
  have hhist := history_foldl tab (chs ++ [0x0d])
  obtain ⟨hrun₂, hexec⟩ := @ups_execute tab ((chs ++ [0x0d]).foldl (next tab) init) hnames
    (finshKeys_shell hnames init_valid hrun₁).2 (by rw [hlast]; rfl) (by rw [hlast]; rfl)
    (by rw [hlast]; rfl) k
  have hfits₂ : init.Fits tab (chs ++ [0x0d] ++ (upKeys (k + 1) ++ [0x0d])) :=
    fits_append.2 ⟨hrun₁, hrun₂⟩
  have hsecond := finshKeys_edit hnames hfits₂
  rw [outputs_append, List.flatten_append, ← List.append_assoc _ (upKeys (k + 1))] at hsecond
  rw [hhist] at hexec
  exact ⟨_, _, _, _, finshKeys_edit hnames hrun₁, hsecond, hexec⟩

/-- The line before the last one, recalled by two Up keys. -/
theorem up_repeats_two :
    ∃ sh actions sh' actions',
      finshKeys ⟨[0x3e], [[0x68, 0x69]]⟩ ([0x61, 0x0d, 0x62] ++ [0x0d]) Shell.init =
        some (sh, actions) ∧
      finshKeys ⟨[0x3e], [[0x68, 0x69]]⟩ ([0x61, 0x0d, 0x62] ++ [0x0d] ++ upKeys (1 + 1) ++ [0x0d])
        Shell.init = some (sh', actions ++ actions') ∧
      executed actions' = [recalled (executed actions) 1] :=
  up_repeats (by decide) (by decide) 1

/-! ### Tab -/

/-- The completion is the longest text that begins every command beginning with the text. -/
theorem prefix_complete_iff {names : List (List UInt8)} {p : List UInt8} (ht : t ≠ [])
    (hsome : ∃ cmd ∈ names, t <+: cmd) :
    p <+: complete names t ↔ ∀ cmd ∈ names, t <+: cmd → p <+: cmd := by
  have hmem : ∀ cmd, cmd ∈ names.filter (t <+: ·) ↔ cmd ∈ names ∧ t <+: cmd := by
    simp
  rw [complete, if_neg ht]
  cases hmatch : names.filter (t <+: ·) with
  | nil =>
    obtain ⟨cmd, hcmd⟩ := hsome
    rw [← hmem, hmatch] at hcmd
    cases hcmd
  | cons name matched =>
    rw [hmatch] at hmem
    simp only [prefix_foldl_common_iff]
    constructor
    · rintro ⟨hname, hmatched⟩ cmd hcmd htext
      rcases List.mem_cons.1 ((hmem cmd).2 ⟨hcmd, htext⟩) with rfl | hin
      · exact hname
      · exact hmatched cmd hin
    · intro h
      have hall : ∀ cmd ∈ name :: matched, p <+: cmd := fun cmd hcmd =>
        h cmd ((hmem cmd).1 hcmd).1 ((hmem cmd).1 hcmd).2
      exact ⟨hall name (List.mem_cons_self ..), fun cmd hcmd =>
        hall cmd (List.mem_cons_of_mem _ hcmd)⟩

theorem complete_of_none {names : List (List UInt8)} (h : ∀ cmd ∈ names, ¬ t <+: cmd) :
    complete names t = t := by
  have hnil : names.filter (t <+: ·) = [] := by
    rw [List.filter_eq_nil_iff]
    simpa using h
  rw [complete, hnil]
  split_ifs <;> rfl

theorem tab_next (tab : Table) (e : Editor) :
    e.next tab 0x09 = ({ e with stat := .waitNormal }.press tab .tab).1 := by
  obtain ⟨stat, cursor, hist, browse⟩ := e
  cases stat <;> rfl

theorem text_shell (e : Editor) : e.shell.text = e.cursor.text := take_padded

/-- **Tab completes what the commands have in common**, after every run in which no line reaches 80
characters, for a text that is not empty. -/
theorem tab_completes (hnames : ∀ name ∈ tab.names, IsLine name) (hfits : init.Fits tab chs) :
    ∃ sh actions sh' actions',
      finshKeys tab chs Shell.init = some (sh, actions) ∧
      finshKeys tab (chs ++ [0x09]) Shell.init = some (sh', actions') ∧
      sh'.lineCurpos = sh'.text.length ∧
      ((∀ cmd ∈ tab.names, ¬ sh.text <+: cmd) → sh'.text = sh.text) ∧
      (sh.text ≠ [] → (∃ cmd ∈ tab.names, sh.text <+: cmd) →
        ∀ p, p <+: sh'.text ↔ ∀ cmd ∈ tab.names, sh.text <+: cmd → p <+: cmd) := by
  have hv := (finshKeys_shell hnames init_valid hfits).2
  have htab : ∀ c, (decode 0x09 (chs.foldl (next tab) init).stat).2 ≠ some (.char c) := by
    cases (chs.foldl (next tab) init).stat <;> exact fun c h => by cases h
  have hfits' : init.Fits tab (chs ++ [0x09]) :=
    fits_append.2 ⟨hfits, next_fits hnames hv htab, trivial⟩
  have hlast : (chs ++ [0x09]).foldl (next tab) init =
      ({ chs.foldl (next tab) init with stat := .waitNormal }.press tab .tab).1 := by
    rw [List.foldl_append, ← tab_next]
    rfl
  have htext' : ((chs ++ [0x09]).foldl (next tab) init).shell.text =
      complete tab.names (chs.foldl (next tab) init).cursor.text := by
    rw [text_shell, hlast, press, Zipper.text_ofText]
  have hcurpos : ((chs ++ [0x09]).foldl (next tab) init).shell.lineCurpos =
      ((chs ++ [0x09]).foldl (next tab) init).shell.text.length := by
    rw [htext', hlast, shell, press, Zipper.left_ofText]
  refine ⟨_, _, _, _, finshKeys_edit hnames hfits, finshKeys_edit hnames hfits', hcurpos, ?_, ?_⟩
  · intro hnone
    rw [text_shell] at hnone
    rw [htext', text_shell, complete_of_none hnone]
  · intro hne hsome p
    rw [text_shell] at hne hsome
    rw [htext', text_shell, prefix_complete_iff hne hsome]

/-- A command completed from its first character. -/
theorem tab_completes_hi :
    ∃ sh actions sh' actions',
      finshKeys ⟨[0x3e], [[0x68, 0x69]]⟩ [0x68] Shell.init = some (sh, actions) ∧
      finshKeys ⟨[0x3e], [[0x68, 0x69]]⟩ ([0x68] ++ [0x09]) Shell.init = some (sh', actions') ∧
      sh'.lineCurpos = sh'.text.length ∧
      ((∀ cmd ∈ ([[0x68, 0x69]] : List (List UInt8)), ¬ sh.text <+: cmd) → sh'.text = sh.text) ∧
      (sh.text ≠ [] → (∃ cmd ∈ ([[0x68, 0x69]] : List (List UInt8)), sh.text <+: cmd) →
        ∀ p, p <+: sh'.text ↔
          ∀ cmd ∈ ([[0x68, 0x69]] : List (List UInt8)), sh.text <+: cmd → p <+: cmd) :=
  tab_completes (by decide) (by decide)

end Editor
end Console
end AccTx
