/-
# The row on the screen

A terminal is a parameter here (`Terminal`), and so is what the commands print.  What is asked of
the terminal is `Behaves`: a character appears at the cursor, backspace moves the cursor to the
left, a carriage return to the beginning of the row, `ESC [ 2 K` clears the row, and a line feed,
before which the serial driver puts a carriage return, begins a new row.  What happens in the last
column is left open.

For every run of printable characters and control keys in which no line reaches 80 characters, the
row ends with the prompt and the text that Enter would execute, nothing stands behind it, and the
cursor of the screen is the cursor of the line (`screen_shows_line`), as long as each command leaves
the cursor behind its row and room for the prompt and a line there.
-/

import AccTx.Console.Recall

namespace AccTx
namespace Console

open Effect Series

/-! ### The terminal -/

/-- A character that takes one column. -/
def Printable (ch : UInt8) : Prop := 0x20 ≤ ch ∧ ch < 0x7f

instance (ch : UInt8) : Decidable (Printable ch) := inferInstanceAs (Decidable (_ ∧ _))

/-- A terminal of `width` columns.  `Shows s row column` says that the row of the cursor holds the
text `row` and blanks behind it, that the rows below are blank, and that the cursor is at
`column`. -/
structure Terminal (T : Type) where
  width : ℕ
  put : T → UInt8 → T
  Shows : T → List UInt8 → ℕ → Prop

namespace Terminal

variable {T : Type}

/-- What a terminal does with the characters the shell prints. -/
structure Behaves (term : Terminal T) : Prop where
  /-- blanks at the end of a row are not seen -/
  blanks {s row n column} :
    term.Shows s (row ++ List.replicate n 0x20) column → term.Shows s row column
  /-- a character takes the place of the one at the cursor -/
  printable {s ch a b} : Printable ch → a.length + 1 < term.width → term.Shows s (a ++ b) a.length →
    term.Shows (term.put s ch) (a ++ ch :: b.drop 1) (a.length + 1)
  backspace {s row column} : term.Shows s row (column + 1) →
    term.Shows (term.put s 0x08) row column
  carriageReturn {s row column} : term.Shows s row column → term.Shows (term.put s 0x0d) row 0
  lineFeed {s row} : term.Shows s row 0 → term.Shows (term.put s 0x0a) [] 0
  /-- `ESC [ 2 K` -/
  clear {s row column} : term.Shows s row column →
    term.Shows ([0x1b, 0x5b, 0x32, 0x4b].foldl term.put s) [] column

variable {term : Terminal T} {s s' : T} {room column c c' c'' : ℕ} {ch : UInt8}
  {a b t row r r' r'' : List UInt8} {acts acts' : List Action}

/-- What an action may make of the terminal.  The list of commands ends with a line feed; a command
leaves the cursor behind what stands in its row, with `room` for the prompt and a line. -/
def Act (term : Terminal T) (room : ℕ) (s : T) : Action → T → Prop
  | .put ch, s' => s' = if ch = 0x0a then term.put (term.put s 0x0d) ch else term.put s ch
  | .help, s' => term.Shows s' [] 0
  | .exec _ _, s' => ∃ row, row.length + room < term.width ∧ term.Shows s' row row.length

/-- The actions, one after another, may lead from `s` to `s'`. -/
def Displays (term : Terminal T) (room : ℕ) : T → List Action → T → Prop
  | s, [], s' => s' = s
  | s, act :: acts, s' => ∃ s₁, term.Act room s act s₁ ∧ Displays term room s₁ acts s'

theorem displays_append :
    term.Displays room s (acts ++ acts') s' ↔
      ∃ s₁, term.Displays room s acts s₁ ∧ term.Displays room s₁ acts' s' := by
  induction acts generalizing s with
  | nil => simp [Displays]
  | cons act acts ih =>
    simp only [List.cons_append, Displays, ih]
    constructor
    · rintro ⟨s₁, h₁, s₂, h₂, h₃⟩
      exact ⟨s₂, ⟨s₁, h₁, h₂⟩, h₃⟩
    · rintro ⟨s₂, ⟨s₁, h₁, h₂⟩, h₃⟩
      exact ⟨s₁, h₁, s₂, h₂, h₃⟩

/-- The actions lead from a row and a cursor to a row and a cursor. -/
def Draws (term : Terminal T) (room : ℕ) (acts : List Action) (r : List UInt8) (c : ℕ)
    (r' : List UInt8) (c' : ℕ) : Prop :=
  ∀ s s', term.Shows s r c → term.Displays room s acts s' → term.Shows s' r' c'

theorem Draws.nil : term.Draws room [] r c r c := by
  rintro s _ hs rfl
  exact hs

theorem Draws.append (h : term.Draws room acts r c r' c')
    (h' : term.Draws room acts' r' c' r'' c'') :
    term.Draws room (acts ++ acts') r c r'' c'' := by
  intro s s' hs hd
  obtain ⟨s₁, hd₁, hd₂⟩ := displays_append.1 hd
  exact h' s₁ s' (h s s₁ hs hd₁) hd₂

/-- Characters that are no line feeds reach the terminal as they are. -/
theorem displays_print (ht : 0x0a ∉ t) (hd : term.Displays room s (print t) s') :
    s' = t.foldl term.put s := by
  induction t generalizing s with
  | nil => exact hd
  | cons ch t ih =>
    obtain ⟨hch, ht⟩ := not_or.1 (mt List.mem_cons.2 ht)
    obtain ⟨s₁, rfl, hd⟩ := hd
    rw [ih ht hd, if_neg (Ne.symm hch), List.foldl_cons]

/-- A text is written over what stands in the row. -/
theorem Behaves.print (h : term.Behaves) (ht : ∀ ch ∈ t, Printable ch)
    (hroom : a.length + t.length < term.width) :
    term.Draws room (print t) (a ++ b) a.length (a ++ t ++ b.drop t.length) (a ++ t).length := by
  intro s s' hs hd
  have hfeed : 0x0a ∉ t := fun hmem => absurd (ht _ hmem) (by decide)
  rw [displays_print hfeed hd]
  clear hd hfeed
  induction t generalizing a b s with
  | nil => simpa using hs
  | cons ch t ih =>
    obtain ⟨hch, ht⟩ := List.forall_mem_cons.1 ht
    rw [List.length_cons] at hroom
    have hput := h.printable hch (by omega) hs
    have hsplit : a ++ ch :: b.drop 1 = (a ++ [ch]) ++ b.drop 1 := by simp
    have hlen : a.length + 1 = (a ++ [ch]).length := by simp
    rw [hsplit, hlen] at hput
    have hrest := ih ht (by rw [← hlen]; omega) _ hput
    rw [List.foldl_cons]
    simpa [Nat.add_comm] using hrest

/-- A text is written at the end of the row. -/
theorem Behaves.write (h : term.Behaves) (ht : ∀ ch ∈ t, Printable ch)
    (hroom : a.length + t.length < term.width) :
    term.Draws room (Console.print t) a a.length (a ++ t) (a ++ t).length := by
  have hprint := @Behaves.print T term room a [] t h ht hroom
  rwa [List.append_nil, List.drop_nil, List.append_nil] at hprint

theorem Behaves.backs (h : term.Behaves) (n : ℕ) :
    term.Draws room (backs n) row (column + n) row column := by
  intro s s' hs hd
  rw [displays_print (by simp) hd]
  clear hd
  induction n generalizing s with
  | zero => exact hs
  | succ n ih =>
    rw [List.replicate_succ, List.foldl_cons]
    exact ih _ (h.backspace hs)

theorem Behaves.newline (h : term.Behaves) :
    term.Draws room (Console.print [0x0a]) row column [] 0 := by
  rintro s _ hs ⟨_, rfl, rfl⟩
  exact h.lineFeed (h.carriageReturn hs)

/-- The row cleared, and the cursor at its beginning. -/
theorem Behaves.erase (h : term.Behaves) :
    term.Draws room (Console.print [0x1b, 0x5b, 0x32, 0x4b, 0x0d]) row column [] 0 := by
  intro s s' hs hd
  rw [displays_print (by decide) hd]
  exact h.carriageReturn (h.clear hs)

/-! ### A line behind a prompt -/

/-- The actions lead from a line to another one, each with its cursor, behind `head`. -/
def DrawsLine (term : Terminal T) (room : ℕ) (acts : List Action) (head : List UInt8)
    (z z' : Zipper UInt8) : Prop :=
  term.Draws room acts (head ++ z.text) (head.length + z.left.length) (head ++ z'.text)
    (head.length + z'.left.length)

variable {head : List UInt8} {z : Zipper UInt8}

theorem row_split (head l r : List UInt8) :
    head ++ (Zipper.mk l r).text = head ++ l.reverse ++ r ∧
      head.length + l.length = (head ++ l.reverse).length := by
  rw [Zipper.text, List.append_assoc, List.length_append, List.length_reverse]
  exact ⟨rfl, rfl⟩

theorem Behaves.moveLeft (h : term.Behaves) :
    term.DrawsLine room (Console.backs (min z.left.length 1)) head z z.moveLeft := by
  obtain ⟨_ | ⟨x, l⟩, r⟩ := z
  · exact Draws.nil
  · have hmin : min (x :: l).length 1 = 1 := by simp
    rw [hmin, DrawsLine, Zipper.text_moveLeft]
    exact h.backs 1

theorem Behaves.moveRight (h : term.Behaves) (hz : ∀ ch ∈ z.right, Printable ch)
    (hroom : head.length + z.text.length < term.width) :
    term.DrawsLine room (Console.print (z.right.take 1)) head z z.moveRight := by
  obtain ⟨l, _ | ⟨x, r⟩⟩ := z
  · exact Draws.nil
  · have hx : ∀ ch ∈ [x], Printable ch :=
      List.forall_mem_singleton.2 (hz x (List.mem_cons_self ..))
    have hprint := @Behaves.print T term room (head ++ l.reverse) (x :: r) [x] h hx (by
      simp only [Zipper.text, List.length_append, List.length_cons, List.length_nil] at hroom ⊢
      omega)
    rw [DrawsLine, Zipper.text_moveRight, (row_split head l (x :: r)).1,
      (row_split head l (x :: r)).2]
    simpa [Zipper.moveRight] using hprint

theorem Behaves.insert (h : term.Behaves) (hch : Printable ch) (hz : ∀ ch ∈ z.right, Printable ch)
    (hroom : head.length + z.text.length + 1 < term.width) :
    term.DrawsLine room (Console.print (ch :: z.right) ++ Console.backs z.right.length) head z
      (z.insert ch) := by
  obtain ⟨l, r⟩ := z
  have ht : ∀ c ∈ ch :: r, Printable c := List.forall_mem_cons.2 ⟨hch, hz⟩
  have hprint := @Behaves.print T term room (head ++ l.reverse) r (ch :: r) h ht (by
    simp only [Zipper.text, List.length_append, List.length_reverse, List.length_cons] at hroom ⊢
    omega)
  have hdrop : r.drop (ch :: r).length = [] := List.drop_of_length_le (by simp)
  have hcolumn : (head ++ l.reverse ++ ch :: r).length =
      head.length + (ch :: l).length + r.length := by
    simp only [List.length_append, List.length_cons, List.length_reverse]
    omega
  rw [hdrop, List.append_nil, hcolumn] at hprint
  rw [DrawsLine, (row_split head l r).1, (row_split head l r).2, Zipper.insert,
    (row_split head (ch :: l) r).1]
  refine hprint.append ?_
  simpa using @Behaves.backs T term room (head.length + (ch :: l).length)
    (head ++ l.reverse ++ ch :: r) h r.length

/-- The last character is overwritten with a blank. -/
theorem Behaves.eraseLast (h : term.Behaves) {x : UInt8} {l : List UInt8}
    (hroom : head.length + (x :: l).length < term.width) :
    term.DrawsLine room (Console.print [0x08, 0x20, 0x08]) head ⟨x :: l, []⟩ ⟨l, []⟩ := by
  have hblank : ∀ c ∈ [(0x20 : UInt8)], Printable c := forall_mem_of_all (by decide)
  have hprint := @Behaves.print T term room (head ++ l.reverse) [x] [0x20] h hblank (by
    simp only [List.length_append, List.length_reverse, List.length_cons, List.length_nil] at *
    omega)
  have hback := @Behaves.backs T term room (head ++ l.reverse).length (head ++ l.reverse ++ [x]) h 1
  have hback' := @Behaves.backs T term room (head ++ l.reverse).length
    (head ++ l.reverse ++ [0x20]) h 1
  have hcolumn : (head ++ (x :: l).reverse).length = (head ++ l.reverse).length + 1 := by
    simp [Nat.add_assoc]
  have hcolumn' : (head ++ l.reverse ++ [0x20]).length = (head ++ l.reverse).length + 1 := by
    simp [Nat.add_assoc]
  have hdrop : [x].drop [(0x20 : UInt8)].length = [] := rfl
  rw [hdrop, List.append_nil, hcolumn'] at hprint
  have hall := (hback.append hprint).append hback'
  rw [DrawsLine, (row_split head (x :: l) []).1, (row_split head (x :: l) []).2, hcolumn,
    (row_split head l []).1, (row_split head l []).2]
  intro s s' hs hd
  have hrow := hall s s' (by simpa using hs) hd
  exact h.blanks (n := 1) (by simpa using hrow)

/-- The rest of the line is printed one column to the left, and blanks over its end. -/
theorem Behaves.eraseInner (h : term.Behaves) {x : UInt8} {l r : List UInt8}
    (hr : ∀ ch ∈ r, Printable ch)
    (hroom : head.length + (x :: l).length + r.length + 1 < term.width) :
    term.DrawsLine room (Console.backs 1 ++ Console.print r ++ Console.print [0x20, 0x20] ++
      Console.backs 1 ++ Console.backs (r.length + 1)) head ⟨x :: l, r⟩ ⟨l, r⟩ := by
  have hblanks : ∀ c ∈ [(0x20 : UInt8), 0x20], Printable c := forall_mem_of_all (by decide)
  have hlen : (head ++ l.reverse).length = head.length + l.length := by simp
  rw [List.length_cons] at hroom
  -- the row still holds the old rest of the line behind the cursor
  have hback := @Behaves.backs T term room (head ++ l.reverse).length
    (head ++ l.reverse ++ x :: r) h 1
  have hrest := @Behaves.print T term room (head ++ l.reverse) (x :: r) r h hr (by omega)
  have hends := @Behaves.print T term room (head ++ l.reverse ++ r) ((x :: r).drop r.length)
    [0x20, 0x20] h hblanks (by
      simp only [List.length_append, List.length_cons, List.length_nil, List.length_reverse]
      omega)
  have hdrop : ((x :: r).drop r.length).drop [(0x20 : UInt8), 0x20].length = [] := by
    rw [List.drop_drop]
    exact List.drop_of_length_le (by simp)
  have hcolumn : (head ++ l.reverse ++ r ++ [0x20, 0x20]).length =
      (head ++ l.reverse).length + (r.length + 1) + 1 := by
    simp only [List.length_append, List.length_cons, List.length_nil]
    omega
  rw [hdrop, List.append_nil, hcolumn] at hends
  have hback₁ := @Behaves.backs T term room ((head ++ l.reverse).length + (r.length + 1))
    (head ++ l.reverse ++ r ++ [0x20, 0x20]) h 1
  have hback₂ := @Behaves.backs T term room (head ++ l.reverse).length
    (head ++ l.reverse ++ r ++ [0x20, 0x20]) h (r.length + 1)
  have hall := (((hback.append hrest).append hends).append hback₁).append hback₂
  have hstart : (head ++ (x :: l).reverse).length = (head ++ l.reverse).length + 1 := by
    simp [Nat.add_assoc]
  rw [DrawsLine, (row_split head (x :: l) r).1, (row_split head (x :: l) r).2, hstart,
    (row_split head l r).1, (row_split head l r).2]
  intro s s' hs hd
  exact h.blanks (n := 2) (hall s s' (by simpa using hs) hd)

end Terminal

namespace Editor

variable {T : Type} {term : Terminal T} {tab : Table} {e : Editor} {junk row : List UInt8}
  {column : ℕ}

/-- The room a command leaves: for the prompt and a line. -/
def room (tab : Table) : ℕ := tab.prompt.length + FINSH_CMD_SIZE

/-- The row ends with the prompt and the line, with room behind it. -/
def OnScreen (term : Terminal T) (tab : Table) (e : Editor) (s : T) : Prop :=
  ∃ junk : List UInt8, junk.length + room tab < term.width ∧
    term.Shows s (junk ++ tab.prompt ++ e.cursor.text)
      ((junk ++ tab.prompt).length + e.cursor.left.length)

/-- A prompt and a text printed behind what stands in the row. -/
theorem onScreen_print (junk : List UInt8) (h : term.Behaves)
    (hprompt : ∀ ch ∈ tab.prompt, Printable ch) {t : List UInt8} (ht : ∀ ch ∈ t, Printable ch)
    (hlen : t.length < FINSH_CMD_SIZE) (hcursor : e.cursor = .ofText t)
    (hjunk : junk.length + room tab < term.width) {s s' : T} (hs : term.Shows s junk junk.length)
    (hd : term.Displays (room tab) s (print tab.prompt ++ print t) s') :
    e.OnScreen term tab s' := by
  have hfirst : term.Draws (room tab) (print tab.prompt) junk junk.length (junk ++ tab.prompt)
      (junk ++ tab.prompt).length := by
    refine h.write hprompt ?_
    unfold room at hjunk
    omega
  have hthen : term.Draws (room tab) (print t) (junk ++ tab.prompt) (junk ++ tab.prompt).length
      (junk ++ tab.prompt ++ t) (junk ++ tab.prompt ++ t).length := by
    refine h.write ht ?_
    rw [List.length_append]
    unfold room at hjunk
    omega
  refine ⟨junk, hjunk, ?_⟩
  have hrow := (hfirst.append hthen) s s' hs hd
  rw [hcursor, Zipper.text_ofText, Zipper.left_ofText, ← List.length_append]
  exact hrow

theorem candidates_draws (h : term.Behaves) (hwidth : room tab < term.width)
    (hnames : ∀ name ∈ tab.names, IsLine name ∧ ∀ ch ∈ name, Printable ch) (t : List UInt8) :
    term.Draws (room tab) (candidates tab t) [] 0 [] 0 := by
  rw [candidates]
  split_ifs
  · -- the list of commands
    rintro s _ - ⟨s₁, hs₁, rfl⟩
    exact hs₁
  have hlist : ∀ cmds : List (List UInt8), (∀ cmd ∈ cmds, cmd ∈ tab.names) →
      term.Draws (room tab) (cmds.flatMap fun cmd => print cmd ++ print [0x0a]) [] 0 [] 0 := by
    intro cmds hcmds
    induction cmds with
    | nil => exact Terminal.Draws.nil
    | cons cmd cmds ih =>
      obtain ⟨hcmd, hcmds⟩ := List.forall_mem_cons.1 hcmds
      obtain ⟨hline, hch⟩ := hnames cmd hcmd
      have hprint : term.Draws (room tab) (print cmd) [] 0 cmd cmd.length := by
        have hlen := hline.1
        unfold room at hwidth
        refine h.write (a := []) hch ?_
        rw [List.length_nil]
        omega
      rw [List.flatMap_cons]
      exact (hprint.append h.newline).append (ih hcmds)
  exact hlist _ fun cmd hcmd => List.mem_of_mem_filter hcmd

theorem recall_onScreen (h : term.Behaves) {s s' : T} (hs : e.OnScreen term tab s) (hv : e.Valid)
    (he : e.Over Printable) (hprompt : ∀ ch ∈ tab.prompt, Printable ch) (i : ℕ)
    (hd : term.Displays (room tab) s (e.recallLine tab i).2 s') :
    (e.recallLine tab i).1.OnScreen term tab s' := by
  rw [recallLine] at hd ⊢
  cases hi : e.history[i]? with
  | none =>
    rw [hi] at hd
    obtain rfl : s' = s := hd
    exact hs
  | some t =>
    rw [hi] at hd
    obtain ⟨junk, hjunk, hrow⟩ := hs
    have ht : ∀ ch ∈ t, Printable ch := he t (.inr (List.mem_of_getElem? hi))
    have hlen : t.length < FINSH_CMD_SIZE := hv.fits t (.inr (List.mem_of_getElem? hi))
    have hacts : term.Displays (room tab) s
        (print [0x1b, 0x5b, 0x32, 0x4b, 0x0d] ++ (print tab.prompt ++ print t)) s' := by
      rwa [← List.append_assoc]
    obtain ⟨s₁, hd₁, hd₂⟩ := Terminal.displays_append.1 hacts
    exact onScreen_print [] h hprompt ht hlen rfl (by rw [List.length_nil]; omega)
      (h.erase s s₁ hrow hd₁) hd₂

/-- **One key keeps the row the line.** -/
theorem press_onScreen (h : term.Behaves) {key : Key} {s s' : T} (hs : e.OnScreen term tab s)
    (hv : e.Valid) (he : e.Over Printable) (hprompt : ∀ ch ∈ tab.prompt, Printable ch)
    (hnames : ∀ name ∈ tab.names, IsLine name ∧ ∀ ch ∈ name, Printable ch)
    (hchar : ∀ ch, key = .char ch → Printable ch)
    (hfits : (e.press tab key).1.cursor.text.length < FINSH_CMD_SIZE)
    (hd : term.Displays (room tab) s (e.press tab key).2 s') :
    (e.press tab key).1.OnScreen term tab s' := by
  have he' : (e.press tab key).1.Over Printable :=
    press_over he (fun name hname => (hnames name hname).2) hchar
  have hright : ∀ ch ∈ e.cursor.right, Printable ch := fun ch hch =>
    he _ (.inl rfl) ch (List.mem_append_right _ hch)
  have hline : e.cursor.text.length < FINSH_CMD_SIZE := hv.line.1
  have hspace : ∀ junk : List UInt8, junk.length + room tab < term.width →
      (junk ++ tab.prompt).length + FINSH_CMD_SIZE < term.width := by
    intro junk hjunk
    rw [List.length_append]
    unfold room at hjunk
    omega
  cases key with
  | up =>
    rw [press] at hd ⊢
    split_ifs at hd ⊢
    · obtain rfl : s' = s := hd
      exact hs
    · exact recall_onScreen h hs hv he hprompt _ hd
  | down => exact recall_onScreen h hs hv he hprompt _ hd
  | left =>
    obtain ⟨junk, hjunk, hrow⟩ := hs
    exact ⟨junk, hjunk, h.moveLeft s s' hrow hd⟩
  | right =>
    obtain ⟨junk, hjunk, hrow⟩ := hs
    have hwide := hspace junk hjunk
    exact ⟨junk, hjunk, h.moveRight hright (by omega) s s' hrow hd⟩
  | tab =>
    obtain ⟨junk, hjunk, hrow⟩ := hs
    have ht : ∀ ch ∈ complete tab.names e.cursor.text, Printable ch := by
      have htext := he' _ (.inl rfl)
      rwa [press, Zipper.text_ofText] at htext
    have hlen : (complete tab.names e.cursor.text).length < FINSH_CMD_SIZE := by
      rwa [press, Zipper.text_ofText] at hfits
    rw [press, List.append_assoc] at hd
    obtain ⟨s₁, hd₁, hd₂⟩ := Terminal.displays_append.1 hd
    have hback := @Terminal.Behaves.backs T term (room tab) (junk ++ tab.prompt).length
      (junk ++ tab.prompt ++ e.cursor.text) h e.cursor.left.length
    have hblank := (hback.append h.newline).append
      (candidates_draws h (by omega) hnames e.cursor.text)
    exact onScreen_print [] h hprompt ht hlen rfl (by rw [List.length_nil]; omega)
      (hblank s s₁ hrow hd₁) hd₂
  | backspace =>
    obtain ⟨junk, hjunk, hrow⟩ := hs
    have hwide := hspace junk hjunk
    obtain ⟨stat, ⟨_ | ⟨x, l⟩, r⟩, hist, browse⟩ := e
    · obtain rfl : s' = s := hd
      exact ⟨junk, hjunk, hrow⟩
    · have hcolumn : (Zipper.mk (x :: l) r).text.length = (x :: l).length + r.length := by
        rw [Zipper.text, List.length_append, List.length_reverse]
      have hlast : (x :: l).length + r.length < FINSH_CMD_SIZE := hcolumn ▸ hline
      rcases r with _ | ⟨y, r⟩
      · exact ⟨junk, hjunk, h.eraseLast (by rw [List.length_nil] at hlast; omega) s s' hrow hd⟩
      · have hrest : ∀ ch ∈ y :: r, Printable ch := hright
        exact ⟨junk, hjunk, h.eraseInner hrest (by omega) s s' hrow hd⟩
  | enter =>
    obtain ⟨junk, hjunk, hrow⟩ := hs
    rw [press] at hd
    obtain ⟨s₁, hd₁, hd₂⟩ := Terminal.displays_append.1 hd
    obtain ⟨s₂, _, s₃, ⟨row, hroom, hshows⟩, rfl⟩ := Terminal.displays_append.1 hd₁
    have hnil : print [] = [] := rfl
    refine onScreen_print row (t := []) h hprompt (by simp) (by decide) rfl hroom hshows ?_
    rwa [hnil, List.append_nil]
  | char ch =>
    obtain ⟨junk, hjunk, hrow⟩ := hs
    have hwide := hspace junk hjunk
    exact ⟨junk, hjunk, h.insert (hchar ch rfl) hright (by omega) s s' hrow hd⟩

theorem next_onScreen (h : term.Behaves) {ch : UInt8} {s s' : T} (hs : e.OnScreen term tab s)
    (hv : e.Valid) (he : e.Over Printable) (hprompt : ∀ ch ∈ tab.prompt, Printable ch)
    (hnames : ∀ name ∈ tab.names, IsLine name ∧ ∀ ch ∈ name, Printable ch)
    (hch : ch ∉ [0x00, 0x08, 0x09, 0x0a, 0x0d, 0x1b, 0x7f, 0xff] → Printable ch)
    (hfits : (e.next tab ch).cursor.text.length < FINSH_CMD_SIZE)
    (hd : term.Displays (room tab) s (e.shows tab ch) s') :
    (e.next tab ch).OnScreen term tab s' := by
  have htyped : ∀ c, (decode ch e.stat).2 = some (.char c) → Printable c := by
    intro c hc
    obtain ⟨rfl, hcontrol⟩ := decode_char hc
    exact hch hcontrol
  rw [next, step] at hfits ⊢
  rw [shows, step] at hd
  generalize decode ch e.stat = d at *
  obtain ⟨stat, _ | key⟩ := d
  · obtain rfl : s' = s := hd
    exact hs
  · exact @press_onScreen T term tab { e with stat := stat } h key s s' hs
      ⟨hv.nonzero, hv.fits, hv.size, hv.browse⟩ he hprompt hnames
      (fun c hc => htyped c (congrArg some hc)) hfits hd

/-- **What stands on the screen is the line.**  For every terminal that behaves and every run of
printable characters and control characters in which no line reaches 80 characters, and whatever the
commands leave, as long as the cursor is behind it with room for the prompt and a line. -/
theorem screen_shows_line {chs : List UInt8} (h : term.Behaves)
    (hprompt : ∀ ch ∈ tab.prompt, Printable ch)
    (hnames : ∀ name ∈ tab.names, IsLine name ∧ ∀ ch ∈ name, Printable ch)
    (htyped : ∀ ch ∈ chs, ch ∉ [0x00, 0x08, 0x09, 0x0a, 0x0d, 0x1b, 0x7f, 0xff] → Printable ch)
    (hfits : init.Fits tab chs) (hwidth : room tab < term.width) {s : T}
    (hs : term.Shows s tab.prompt tab.prompt.length) :
    ∃ sh actions, finshKeys tab chs Shell.init = some (sh, actions) ∧
      ∀ s', term.Displays (room tab) s actions s' →
        ∃ junk : List UInt8, term.Shows s' (junk ++ tab.prompt ++ sh.text)
          (junk.length + tab.prompt.length + sh.lineCurpos) := by
  have hlines : ∀ name ∈ tab.names, IsLine name := fun name hname => (hnames name hname).1
  have hprint : ∀ name ∈ tab.names, ∀ ch ∈ name, Printable ch := fun name hname =>
    (hnames name hname).2
  have hrun : ∀ (e : Editor) (s s' : T), e.OnScreen term tab s → e.Valid → e.Over Printable →
      e.Fits tab chs →
      term.Displays (room tab) s (outputs (next tab) (shows tab) e chs).flatten s' →
      (chs.foldl (next tab) e).OnScreen term tab s' := by
    clear hfits
    induction chs with
    | nil =>
      rintro e s _ hs - - - rfl
      exact hs
    | cons ch chs ih =>
      intro e s s' hs hv he hfits hd
      obtain ⟨hch, hchs⟩ := List.forall_mem_cons.1 htyped
      obtain ⟨hfit, hfits⟩ := hfits
      rw [outputs, List.flatten_cons] at hd
      obtain ⟨s₁, hd₁, hd₂⟩ := Terminal.displays_append.1 hd
      exact ih hchs _ _ _ (next_onScreen h hs hv he hprompt hnames hch hfit hd₁)
        (finshKey_shell hlines hv hfit).2 (step_over he hprint hch) hfits hd₂
  refine ⟨_, _, finshKeys_edit hlines hfits, fun s' hd => ?_⟩
  have hinit : init.OnScreen term tab s := ⟨[], by rwa [List.length_nil, Nat.zero_add], by
    simpa [init, Zipper.text_ofText, Zipper.left_ofText] using hs⟩
  obtain ⟨junk, -, hrow⟩ := hrun init s s' hinit init_valid init_over hfits hd
  refine ⟨junk, ?_⟩
  rw [text_shell, ← List.length_append]
  exact hrow

/-! ### A terminal -/

/-- The row of the cursor, the column of the cursor, and a control sequence that has begun. -/
structure Vt where
  row : ℕ → UInt8
  column : ℕ
  sequence : Option (List UInt8)

namespace Vt

/-- A row with blanks behind it. -/
def ofRow (row : List UInt8) (column : ℕ) : Vt where
  row i := row.getD i 0x20
  column := column
  sequence := none

/-- A terminal of 132 columns, whose cursor stays in the last one. -/
def put (s : Vt) (ch : UInt8) : Vt :=
  match s.sequence with
  | some sequence =>
    if sequence ++ [ch] = [0x5b, 0x32, 0x4b] then
      { s with row := fun _ => 0x20, sequence := none }
    -- a letter ends a sequence
    else if 0x40 ≤ ch ∧ ch ≤ 0x7e ∧ sequence ≠ [] then { s with sequence := none }
    else { s with sequence := some (sequence ++ [ch]) }
  | none =>
    if ch = 0x1b then { s with sequence := some [] }
    else if ch = 0x08 then { s with column := s.column - 1 }
    else if ch = 0x0d then { s with column := 0 }
    else if ch = 0x0a then { ofRow [] s.column with sequence := none }
    else { s with row := Function.update s.row s.column ch, column := min (s.column + 1) 131 }

def terminal : Terminal Vt where
  width := 132
  put := put
  Shows s row column := s = ofRow row column

/-- Blanks at the end of a row are not seen. -/
theorem ofRow_append_blanks (row : List UInt8) (n column : ℕ) :
    ofRow (row ++ List.replicate n 0x20) column = ofRow row column := by
  rw [ofRow, ofRow]
  congr 1
  funext i
  rw [List.getD_eq_getElem?_getD, List.getD_eq_getElem?_getD]
  rcases Nat.lt_or_ge i row.length with hlt | hge
  · rw [List.getElem?_append_left hlt]
  · rw [List.getElem?_append_right hge, List.getElem?_eq_none hge, List.getElem?_replicate]
    split_ifs <;> rfl

theorem put_ofRow {ch : UInt8} (h : Printable ch) {a b : List UInt8} (hroom : a.length + 1 < 132) :
    (ofRow (a ++ b) a.length).put ch = ofRow (a ++ ch :: b.drop 1) (a.length + 1) := by
  have hne : ch ≠ 0x1b ∧ ch ≠ 0x08 ∧ ch ≠ 0x0d ∧ ch ≠ 0x0a := by
    refine ⟨?_, ?_, ?_, ?_⟩ <;>
    · rintro rfl
      exact absurd h (by decide)
  have hmin : min (a.length + 1) 131 = a.length + 1 := by omega
  simp only [put, ofRow, hne.1, hne.2.1, hne.2.2.1, hne.2.2.2, if_false, hmin]
  congr 1
  funext i
  rw [Function.update_apply]
  simp only [List.getD_eq_getElem?_getD]
  rcases Nat.lt_trichotomy i a.length with hlt | rfl | hgt
  · rw [if_neg hlt.ne, List.getElem?_append_left hlt, List.getElem?_append_left hlt]
  · simp
  · obtain ⟨k, rfl⟩ := Nat.exists_eq_add_of_lt hgt
    rw [if_neg hgt.ne', List.getElem?_append_right hgt.le, List.getElem?_append_right hgt.le]
    have hk : a.length + k + 1 - a.length = k + 1 := by omega
    rw [hk, List.getElem?_cons_succ, List.getElem?_drop, Nat.add_comm 1]

theorem behaves : terminal.Behaves := by
  constructor
  case blanks =>
    intro s row n column hs
    exact hs.trans (ofRow_append_blanks row n column)
  case printable =>
    rintro _ ch a b hch hroom rfl
    exact put_ofRow hch hroom
  case lineFeed =>
    rintro _ _ rfl
    rfl
  all_goals
    rintro _ _ _ rfl
    rfl

end Vt

/-- A character typed before the end of the line. -/
theorem screen_shows_line_two :
    ∃ sh actions, finshKeys ⟨[0x3e], [[0x68, 0x69]]⟩ [0x61, 0x1b, 0x5b, 0x44, 0x62] Shell.init =
        some (sh, actions) ∧
      ∀ s', Vt.terminal.Displays (room ⟨[0x3e], [[0x68, 0x69]]⟩) (Vt.ofRow [0x3e] 1) actions s' →
        ∃ junk : List UInt8, Vt.terminal.Shows s' (junk ++ [0x3e] ++ sh.text)
          (junk.length + [(0x3e : UInt8)].length + sh.lineCurpos) :=
  screen_shows_line Vt.behaves (forall_mem_of_all (by decide))
    (List.forall_mem_singleton.2 ⟨by decide, forall_mem_of_all (by decide)⟩)
    (forall_mem_of_all (by decide)) (by decide) (by decide) rfl

end Editor
end Console
end AccTx
