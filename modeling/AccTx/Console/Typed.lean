/-
# Typed commands

A command line is a command and its arguments with blanks between them, where an argument is a word
or a text in quotation marks (`render`).  `msh_split` finds these arguments again, the first ten
(`tokens_render`).  A line typed and entered is executed as it was typed (`typed_executes`).

So a `wr_reg_map` typed with an address and a value is the register write with these numbers
(`typed_write`).
-/

import AccTx.Console.Recall
import AccTx.Console.Screen
import AccTx.Console.Split
import AccTx.Firmware.Shell

namespace AccTx
namespace Console

open Effect Series Firmware

/-! ### Arguments -/

/-- A text that can stand in quotation marks: every quotation mark in it stands behind a backslash,
and it does not end with a backslash. -/
def Quotable : List UInt8 → Prop
  | [] => True
  | [c] => c ≠ 0x22 ∧ c ≠ 0x5c
  | c :: d :: t => c ≠ 0x22 ∧ if c = 0x5c ∧ d = 0x22 then Quotable t else Quotable (d :: t)

inductive Arg
  | word (s : List UInt8)
  | quoted (s : List UInt8)

namespace Arg

/-- What is typed for an argument. -/
def text : Arg → List UInt8
  | word s => s
  | quoted s => 0x22 :: s ++ [0x22]

/-- What the command gets. -/
def value : Arg → List UInt8
  | word s => s
  | quoted s => s

/-- A word has no blanks and does not begin with a quotation mark. -/
def Valid : Arg → Prop
  | word s => s ≠ [] ∧ s.head? ≠ some 0x22 ∧ ∀ c ∈ s, ¬ Blank c
  | quoted s => Quotable s

end Arg

/-- Arguments, each with the blanks before it. -/
def render (args : List (List UInt8 × Arg)) : List UInt8 := args.flatMap fun x => x.1 ++ x.2.text

/-- Only before the first argument there may be no blank. -/
def Separated (args : List (List UInt8 × Arg)) : Prop :=
  (∀ x ∈ args, (∀ c ∈ x.1, Blank c) ∧ x.2.Valid) ∧ ∀ x ∈ args.tail, x.1 ≠ []

theorem unquote_quotable {s : List UInt8} (hs : Quotable s) (t : List UInt8) :
    unquote (s ++ 0x22 :: t) = (s, t) := by
  have hend : ∀ t, unquote (0x22 :: t) = ([], t) := by
    intro t
    cases t <;> rfl
  induction s using unquote.induct with
  | case1 => exact hend t
  | case2 => exact absurd rfl hs.1
  | case3 c hc =>
    rw [List.singleton_append, unquote, if_neg hc, if_neg fun h => hs.2 h.1, hend]
  | case4 d s => exact absurd rfl hs.1
  | case5 c d s hc hesc ih =>
    rw [Quotable, if_pos hesc] at hs
    rw [List.cons_append, List.cons_append, unquote, if_neg hc, if_pos hesc, ih hs.2]
  | case6 c d s hc hesc ih =>
    rw [Quotable, if_neg hesc] at hs
    rw [List.cons_append, List.cons_append, unquote, if_neg hc, if_neg hesc, ← List.cons_append,
      ih hs.2]

theorem dropWhile_blanks {g t : List UInt8} (hg : ∀ c ∈ g, Blank c)
    (ht : ∀ c r, t = c :: r → ¬ Blank c) : (g ++ t).dropWhile Blank = t := by
  rw [List.dropWhile_append_of_pos (by simpa using hg)]
  cases t with
  | nil => rfl
  | cons c r => rw [List.dropWhile_cons_of_neg (by simpa using ht c r rfl)]

/-- A word ends at a blank or at the end of the text. -/
theorem takeWhile_word {w t : List UInt8} (hw : ∀ c ∈ w, ¬ Blank c)
    (ht : ∀ c r, t = c :: r → Blank c) :
    (w ++ t).takeWhile (¬ Blank ·) = w ∧ (w ++ t).dropWhile (¬ Blank ·) = t := by
  rw [List.takeWhile_append_of_pos (by simpa using hw), List.dropWhile_append_of_pos
    (by simpa using hw)]
  cases t with
  | nil => simp
  | cons c r =>
    have hc := ht c r rfl
    simp [hc]

/-- What stands behind an argument begins with a blank. -/
theorem render_head {args : List (List UInt8 × Arg)} (h : ∀ x ∈ args, ∀ c ∈ x.1, Blank c)
    (hgap : ∀ x ∈ args, x.1 ≠ []) {trail : List UInt8} (htrail : ∀ c ∈ trail, Blank c)
    (c : UInt8) (r : List UInt8) (heq : render args ++ trail = c :: r) : Blank c := by
  cases args with
  | nil =>
    rw [render, List.flatMap_nil, List.nil_append] at heq
    exact htrail c (heq ▸ List.mem_cons_self ..)
  | cons x args =>
    obtain ⟨d, g, hd⟩ := List.exists_cons_of_ne_nil (hgap x (List.mem_cons_self ..))
    rw [render, List.flatMap_cons, hd, List.cons_append, List.cons_append, List.cons_append,
      List.cons_eq_cons] at heq
    exact heq.1 ▸ h x (List.mem_cons_self ..) d (hd ▸ List.mem_cons_self ..)

theorem tokens_arg (free : ℕ) {g t : List UInt8} {a : Arg} (hg : ∀ c ∈ g, Blank c) (ha : a.Valid)
    (ht : ∀ c r, t = c :: r → Blank c) :
    tokens (free + 1) (g ++ a.text ++ t) = a.value :: tokens free t := by
  rw [List.append_assoc, tokens]
  cases a with
  | word s =>
    obtain ⟨hne, hquote, hs⟩ := ha
    obtain ⟨c, s, rfl⟩ := List.exists_cons_of_ne_nil hne
    have hc : c ≠ 0x22 := fun h => hquote (by rw [h, List.head?_cons])
    obtain ⟨htake, hdrop⟩ := takeWhile_word hs ht
    rw [Arg.text, dropWhile_blanks hg fun d r h => by
      rw [List.cons_append, List.cons_eq_cons] at h
      exact h.1 ▸ hs c (List.mem_cons_self ..)]
    rw [List.cons_append] at htake hdrop ⊢
    simp only [if_neg hc, htake, hdrop, Arg.value]
  | quoted s =>
    have htext : (Arg.quoted s).text ++ t = 0x22 :: (s ++ 0x22 :: t) := by
      rw [Arg.text, List.cons_append, List.cons_append, List.append_assoc, List.singleton_append]
    rw [htext, dropWhile_blanks hg fun d r h => by
      rw [List.cons_eq_cons] at h
      exact h.1 ▸ by decide]
    simp only [if_true, unquote_quotable ha, Arg.value]

/-- **`msh_split` finds the arguments typed**, as many as there is room for. -/
theorem tokens_render (free : ℕ) {args : List (List UInt8 × Arg)} (h : Separated args)
    {trail : List UInt8} (htrail : ∀ c ∈ trail, Blank c) :
    tokens free (render args ++ trail) = (args.map fun x => x.2.value).take free := by
  induction args generalizing free with
  | nil =>
    cases free with
    | zero => rfl
    | succ free =>
      have hnil : trail.dropWhile Blank = [] := by
        simpa using htrail
      rw [render, List.flatMap_nil, List.nil_append, tokens, hnil]
      rfl
  | cons x args ih =>
    obtain ⟨hargs, hgaps⟩ := h
    obtain ⟨⟨hg, ha⟩, hargs⟩ := List.forall_mem_cons.1 hargs
    have hrest : Separated args := ⟨hargs, fun y hy => hgaps y (List.mem_of_mem_tail hy)⟩
    have hhead := render_head (fun y hy => (hargs y hy).1) hgaps htrail
    cases free with
    | zero => rfl
    | succ free =>
      rw [render, List.flatMap_cons, ← render, List.append_assoc, tokens_arg free hg ha hhead,
        ih free hrest, List.map_cons, List.take_succ_cons]

/-- **A line of arguments calls the command with them.** -/
theorem execute_render {tab : Table} {g name trail : List UInt8}
    {args : List (List UInt8 × Arg)} (hname : name ∈ tab.names)
    (h : Separated ((g, .word name) :: args)) (htrail : ∀ c ∈ trail, Blank c) :
    execute tab (render ((g, .word name) :: args) ++ trail) =
      .call name ((name :: args.map fun x => x.2.value).take FINSH_ARG_MAX) := by
  have htokens := tokens_render FINSH_ARG_MAX h htrail
  obtain ⟨hargs, hgaps⟩ := h
  obtain ⟨⟨hg, hne, -, hs⟩, hargs⟩ := List.forall_mem_cons.1 hargs
  have hhead := render_head (fun y hy => (hargs y hy).1) hgaps htrail
  obtain ⟨htake, -⟩ := takeWhile_word hs hhead
  obtain ⟨c, s, rfl⟩ := List.exists_cons_of_ne_nil hne
  have htext : render ((g, .word (c :: s)) :: args) ++ trail =
      g ++ (c :: s ++ (render args ++ trail)) := by
    rw [render, List.flatMap_cons, ← render, List.append_assoc, List.append_assoc]
    rfl
  rw [execute, htokens, htext, dropWhile_blanks hg fun d r heq => by
    rw [List.cons_append, List.cons_eq_cons] at heq
    exact heq.1 ▸ hs c (List.mem_cons_self ..)]
  rw [List.cons_append] at htake ⊢
  simp only [htake, if_pos hname]
  rfl

/-! ### A line typed -/

namespace Editor

variable {tab : Table} {e : Editor} {chs t : List UInt8}

theorem plain_printable {ch : UInt8} (h : Printable ch) : plain ch = some (.char ch) := by
  have hne : ∀ c : UInt8, ¬ Printable c → ch ≠ c := fun c hc heq => hc (heq ▸ h)
  rw [plain, if_neg (not_or_intro (hne _ (by decide)) (hne _ (by decide))),
    if_neg (hne _ (by decide)), if_neg (not_or_intro (hne _ (by decide)) (hne _ (by decide))),
    if_neg (not_or_intro (hne _ (by decide)) (hne _ (by decide)))]

/-- A character typed at the end of the line. -/
theorem step_printable {ch : UInt8} (h : Printable ch) (hstat : e.stat = .waitNormal) :
    e.step tab ch = e.press tab (.char ch) := by
  have hesc : ch ≠ 0x1b := fun heq => absurd (heq ▸ h) (by decide)
  obtain ⟨stat, cursor, hist, browse⟩ := e
  cases hstat
  rw [step, decode, if_neg hesc, plain_printable h]

/-- A text typed at the end of the line is put behind it, and nothing is executed. -/
theorem typed_next (ht : ∀ c ∈ t, Printable c) {u : List UInt8}
    (hlen : u.length + t.length < FINSH_CMD_SIZE) (hstat : e.stat = .waitNormal)
    (hcursor : e.cursor = .ofText u) :
    t.foldl (next tab) e = { e with cursor := .ofText (u ++ t) } ∧ e.Fits tab t ∧
      executed (outputs (next tab) (shows tab) e t).flatten = [] := by
  induction t generalizing e u with
  | nil =>
    rw [List.append_nil, ← hcursor]
    exact ⟨rfl, trivial, rfl⟩
  | cons ch t ih =>
    obtain ⟨hch, ht⟩ := List.forall_mem_cons.1 ht
    rw [List.length_cons] at hlen
    have hstep := @step_printable tab e ch hch hstat
    have hnext : e.next tab ch = { e with cursor := .ofText (u ++ [ch]) } := by
      rw [next, hstep, press, hcursor]
      simp [Zipper.ofText, Zipper.insert]
    have hshows : executed (e.shows tab ch) = [] := by
      rw [shows, hstep, executed_press]
      rfl
    obtain ⟨hrun, hfits, hquiet⟩ := @ih { e with cursor := .ofText (u ++ [ch]) } ht (u ++ [ch])
      (by rw [List.length_append, List.length_singleton]; omega) hstat rfl
    refine ⟨?_, ⟨?_, ?_⟩, ?_⟩
    · rw [List.foldl_cons, hnext, hrun, List.append_assoc, List.singleton_append]
    · simp only [hnext, Zipper.text_ofText, List.length_append, List.length_singleton]
      omega
    · rwa [hnext]
    · rw [outputs, List.flatten_cons, executed_append, hshows, hnext, hquiet, List.nil_append]

/-- **A line typed and entered is executed as it was typed.**  From every state reached in which the
line is empty. -/
theorem typed_executes (hnames : ∀ name ∈ tab.names, IsLine name) (hfits : init.Fits tab chs)
    (ht : ∀ c ∈ t, Printable c) (hlen : t.length < FINSH_CMD_SIZE) :
    ∃ sh actions, finshKeys tab chs Shell.init = some (sh, actions) ∧
      (sh.stat = .waitNormal → sh.text = [] →
        ∃ sh' before line length after,
          finshKeys tab (chs ++ (t ++ [0x0d])) Shell.init =
            some (sh', actions ++ (before ++ [.exec line length] ++ after)) ∧
          executed before = [] ∧ executed after = [] ∧
          mshExec tab line length = some (execute tab t)) := by
  have hv := (finshKeys_shell hnames init_valid hfits).2
  refine ⟨_, _, finshKeys_edit hnames hfits, fun hstat htext => ?_⟩
  rw [text_shell] at htext
  obtain ⟨hrun, hfits', hquiet⟩ := @typed_next tab _ t ht [] (by simpa using hlen) hstat
    (Zipper.eq_ofText_nil htext)
  have henter := fits_enter hnames
    (finshKeys_shell hnames init_valid (fits_append.2 ⟨hfits, hfits'⟩)).2
  rw [List.foldl_append] at henter
  have hall : init.Fits tab (chs ++ (t ++ [0x0d])) :=
    fits_append.2 ⟨hfits, fits_append.2 ⟨hfits', henter.1⟩⟩
  have hexec : ((t.foldl (next tab) (chs.foldl (next tab) init)).shows tab 0x0d) =
      print [0x0a] ++ [.exec (padded FINSH_CMD_SIZE t) t.length] ++ print tab.prompt := by
    rw [(enter_next tab _).2, hrun, List.nil_append, press, Zipper.text_ofText]
  have hkeys := finshKeys_edit hnames hall
  rw [outputs_append, List.flatten_append, outputs_append, List.flatten_append, outputs, outputs,
    List.flatten_singleton, hexec, ← List.append_assoc _ _ (print tab.prompt),
    ← List.append_assoc _ _ [Action.exec _ _]] at hkeys
  have hzero : 0 ∉ t := fun h => absurd (ht 0 h) (by decide)
  refine ⟨_, _, _, _, _, hkeys, ?_, executed_print _, mshExec_padded hlen (by decide) hzero⟩
  rw [executed_append, hquiet, executed_print, List.append_nil]

end Editor

/-! ### A register write typed -/

/-- `isspace`. -/
def Space (c : UInt8) : Prop := c = 0x20 ∨ 0x09 ≤ c ∧ c ≤ 0x0d

/-- `isdigit`. -/
def Digit (c : UInt8) : Prop := 0x30 ≤ c ∧ c ≤ 0x39

instance (c : UInt8) : Decidable (Space c) := inferInstanceAs (Decidable (_ ∨ _))

instance (c : UInt8) : Decidable (Digit c) := inferInstanceAs (Decidable (_ ∧ _))

/-- The number of a text of digits. -/
def ofDigits (s : List UInt8) : ℕ := s.foldl (fun n c => 10 * n + (c.toNat - 0x30)) 0

/-- `atoi` of the C library, for numbers that fit an `int`. -/
def atoi (s : List UInt8) : ℤ :=
  match s.dropWhile Space with
  | [] => 0
  | c :: r =>
    if c = 0x2d then -ofDigits (r.takeWhile Digit)
    else if c = 0x2b then ofDigits (r.takeWhile Digit)
    else ofDigits ((c :: r).takeWhile Digit)

/-- The name of `wr_reg_map`. -/
def WR_REG_MAP : List UInt8 := [0x77, 0x72, 0x5f, 0x72, 0x65, 0x67, 0x5f, 0x6d, 0x61, 0x70]

/-- `wr_reg_map`, called from the shell. -/
def wrRegMapArgv (env : Env) (argv : List (List UInt8)) : Fw Unit :=
  wrRegMap env argv.length (atoi (argv.getD 1 [])) (atoi (argv.getD 2 []))

theorem Digit.plain {c : UInt8} (h : Digit c) :
    Printable c ∧ ¬ Blank c ∧ ¬ Space c ∧ c ≠ 0x22 ∧ c ≠ 0x2d ∧ c ≠ 0x2b := by
  have hne : ∀ d : UInt8, ¬ Digit d → c ≠ d := fun d hd heq => hd (heq ▸ h)
  refine ⟨⟨UInt8.le_trans (by decide) h.1, UInt8.lt_of_le_of_lt h.2 (by decide)⟩, ?_, ?_,
    hne _ (by decide), hne _ (by decide), hne _ (by decide)⟩
  · rintro (heq | heq)
    · exact hne _ (by decide) heq
    · exact hne _ (by decide) heq
  · rintro (heq | ⟨-, hle⟩)
    · exact hne _ (by decide) heq
    · exact absurd (UInt8.le_trans h.1 hle) (by decide)

theorem atoi_digits {s : List UInt8} (hs : ∀ c ∈ s, Digit c) : atoi s = ofDigits s := by
  cases s with
  | nil => rfl
  | cons c s =>
    obtain ⟨-, -, hspace, -, hminus, hplus⟩ := (hs c (List.mem_cons_self ..)).plain
    have hall : (c :: s).takeWhile Digit = c :: s := by
      rw [List.takeWhile_eq_self_iff]
      simpa using hs
    rw [atoi, List.dropWhile_cons_of_neg (by simpa using hspace)]
    simp only [if_neg hminus, if_neg hplus, hall]

/-- `wr_reg_map` with an address and a value, and spaces around them. -/
def writeArgs (g₀ g₁ g₂ : ℕ) (a v : List UInt8) : List (List UInt8 × Arg) :=
  [(List.replicate g₀ 0x20, .word WR_REG_MAP), (List.replicate (g₁ + 1) 0x20, .word a),
    (List.replicate (g₂ + 1) 0x20, .word v)]

def writeLine (g₀ g₁ g₂ g₃ : ℕ) (a v : List UInt8) : List UInt8 :=
  render (writeArgs g₀ g₁ g₂ a v) ++ List.replicate g₃ 0x20

theorem word_digits {s : List UInt8} (hne : s ≠ []) (hs : ∀ c ∈ s, Digit c) :
    (Arg.word s).Valid := by
  refine ⟨hne, fun h => ?_, fun c hc => (hs c hc).plain.2.1⟩
  exact (hs _ (List.mem_of_mem_head? h)).plain.2.2.2.1 rfl

theorem separated_writeArgs {g₀ g₁ g₂ : ℕ} {a v : List UInt8} (ha : a ≠ []) (hv : v ≠ [])
    (hda : ∀ c ∈ a, Digit c) (hdv : ∀ c ∈ v, Digit c) : Separated (writeArgs g₀ g₁ g₂ a v) := by
  have hspaces : ∀ n, ∀ c ∈ List.replicate n (0x20 : UInt8), Blank c := fun n c hc =>
    .inl (List.eq_of_mem_replicate hc)
  constructor
  · simp only [writeArgs, List.forall_mem_cons, List.not_mem_nil, false_imp_iff, implies_true,
      and_true]
    exact ⟨⟨hspaces _, by decide, by decide, forall_mem_of_all (by decide)⟩,
      ⟨hspaces _, word_digits ha hda⟩, hspaces _, word_digits hv hdv⟩
  · simp [writeArgs, List.replicate_succ]

theorem printable_writeLine {g₀ g₁ g₂ g₃ : ℕ} {a v : List UInt8} (hda : ∀ c ∈ a, Digit c)
    (hdv : ∀ c ∈ v, Digit c) : ∀ c ∈ writeLine g₀ g₁ g₂ g₃ a v, Printable c := by
  have hspaces : ∀ n, ∀ c ∈ List.replicate n (0x20 : UInt8), Printable c := fun n c hc =>
    List.eq_of_mem_replicate hc ▸ by decide
  have hcommand : ∀ c ∈ WR_REG_MAP, Printable c := forall_mem_of_all (by decide)
  intro c hc
  simp only [writeLine, writeArgs, render, List.flatMap_cons, List.flatMap_nil, List.append_nil,
    List.mem_append, Arg.text] at hc
  rcases hc with ((hc | hc) | (hc | hc) | hc | hc) | hc
  · exact hspaces _ c hc
  · exact hcommand c hc
  · exact hspaces _ c hc
  · exact (hda c hc).plain.1
  · exact hspaces _ c hc
  · exact (hdv c hc).plain.1
  · exact hspaces _ c hc

theorem execute_writeLine {tab : Table} {a v : List UInt8} {g₀ g₁ g₂ g₃ : ℕ}
    (hname : WR_REG_MAP ∈ tab.names) (ha : a ≠ []) (hv : v ≠ []) (hda : ∀ c ∈ a, Digit c)
    (hdv : ∀ c ∈ v, Digit c) :
    execute tab (writeLine g₀ g₁ g₂ g₃ a v) = .call WR_REG_MAP [WR_REG_MAP, a, v] :=
  execute_render hname (separated_writeArgs ha hv hda hdv) fun _ hc =>
    .inl (List.eq_of_mem_replicate hc)

theorem wrRegMapArgv_digits (env : Env) {a v : List UInt8} (hda : ∀ c ∈ a, Digit c)
    (hdv : ∀ c ∈ v, Digit c) (ha : ofDigits a < 2 ^ 16) (hv : ofDigits v < 2 ^ 16) :
    wrRegMapArgv env [WR_REG_MAP, a, v] =
      regMapWrite env (ofDigits a) [ofDigits v] >>= fun _ => pure () := by
  have haddr : uint16 (atoi a) = ofDigits a := by
    rw [atoi_digits hda, uint16_eq (by omega) (by omega), Int.toNat_natCast]
  have hvalue : uint16 (atoi v) = ofDigits v := by
    rw [atoi_digits hdv, uint16_eq (by omega) (by omega), Int.toNat_natCast]
  have hgetA : [WR_REG_MAP, a, v].getD 1 [] = a := rfl
  have hgetV : [WR_REG_MAP, a, v].getD 2 [] = v := rfl
  rw [wrRegMapArgv, hgetA, hgetV, wrRegMap, haddr, hvalue]
  rfl

/-- **A register write typed.**  From every state reached in which the line is empty, and no line
has reached 80 characters, the line typed calls `wr_reg_map`, and this writes the value to the
address. -/
theorem typed_write {tab : Table} {chs a v : List UInt8} {g₀ g₁ g₂ g₃ : ℕ}
    (hnames : ∀ name ∈ tab.names, IsLine name) (hname : WR_REG_MAP ∈ tab.names)
    (hfits : Editor.init.Fits tab chs)
    (ha : a ≠ []) (hv : v ≠ []) (hda : ∀ c ∈ a, Digit c) (hdv : ∀ c ∈ v, Digit c)
    (ha' : ofDigits a < 2 ^ 16) (hv' : ofDigits v < 2 ^ 16)
    (hlen : (writeLine g₀ g₁ g₂ g₃ a v).length < FINSH_CMD_SIZE) :
    ∃ sh actions, finshKeys tab chs Shell.init = some (sh, actions) ∧
      (sh.stat = .waitNormal → sh.text = [] →
        ∃ sh' before line length after argv,
          finshKeys tab (chs ++ (writeLine g₀ g₁ g₂ g₃ a v ++ [0x0d])) Shell.init =
            some (sh', actions ++ (before ++ [.exec line length] ++ after)) ∧
          executed before = [] ∧ executed after = [] ∧
          mshExec tab line length = some (.call WR_REG_MAP argv) ∧
          ∀ env, wrRegMapArgv env argv =
            regMapWrite env (ofDigits a) [ofDigits v] >>= fun _ => pure ()) := by
  obtain ⟨sh, actions, hrun, hline⟩ :=
    Editor.typed_executes hnames hfits (printable_writeLine hda hdv) hlen
  refine ⟨sh, actions, hrun, fun hstat htext => ?_⟩
  obtain ⟨sh', before, line, length, after, hkeys, hbefore, hafter, hexec⟩ := hline hstat htext
  rw [execute_writeLine hname ha hv hda hdv] at hexec
  exact ⟨sh', before, line, length, after, _, hkeys, hbefore, hafter, hexec, fun env =>
    wrRegMapArgv_digits env hda hdv ha' hv'⟩

/-- The value 12 written to the address 3 by the first line. -/
theorem typed_write_three :
    ∃ sh actions, finshKeys ⟨[0x3e], [WR_REG_MAP]⟩ [] Shell.init = some (sh, actions) ∧
      (sh.stat = .waitNormal → sh.text = [] →
        ∃ sh' before line length after argv,
          finshKeys ⟨[0x3e], [WR_REG_MAP]⟩ ([] ++ (writeLine 0 0 0 0 [0x33] [0x31, 0x32] ++ [0x0d]))
            Shell.init = some (sh', actions ++ (before ++ [.exec line length] ++ after)) ∧
          executed before = [] ∧ executed after = [] ∧
          mshExec ⟨[0x3e], [WR_REG_MAP]⟩ line length = some (.call WR_REG_MAP argv) ∧
          ∀ env, wrRegMapArgv env argv =
            regMapWrite env (ofDigits [0x33]) [ofDigits [0x31, 0x32]] >>= fun _ => pure ()) :=
  typed_write (by decide) (by decide) (by decide) (by decide) (by decide)
    (forall_mem_of_all (by decide)) (forall_mem_of_all (by decide)) (by decide) (by decide)
    (by decide)

end Console
end AccTx
