/-
# Lines of 80 characters

The 80th character of a line is not refused, and the line is not cleared: `line_position` and
`line_curpos` go back to the beginning, with the text still in the array.  What is typed next
overwrites it from there, and Enter executes the characters typed with the rest of the overlong line
behind them, and no zero anywhere in the array (`overlong_stale`).  Typed before the end of the
line, the 80th character is printed with whatever stands behind the array (`full_insert`).
-/

import AccTx.Console.Typed

namespace AccTx
namespace Console

open Effect Series

namespace Editor

variable {tab : Table} {e : Editor} {chs t : List UInt8} {ch : UInt8} {sh : Shell}

theorem finshKey_printable (h : Printable ch) (hstat : sh.stat = .waitNormal) :
    finshKey tab ch sh = normalKey ch sh := by
  have hesc : ch ≠ 0x1b := fun heq => absurd (heq ▸ h) (by decide)
  rw [finshKey_eq, hstat, decode, if_neg hesc, plain_printable h]
  simp only [keyResult, ← hstat]

theorem length_historyArray {history : List (List UInt8)}
    (h : history.length ≤ FINSH_HISTORY_LINES) :
    (historyArray history).length = FINSH_HISTORY_LINES := by
  rw [historyArray, List.length_append, List.length_map, List.length_replicate,
    Nat.add_sub_cancel' h]

/-- The history takes any line. -/
theorem shellPushHistory_total (hline : sh.line.length = FINSH_CMD_SIZE)
    (hposition : sh.linePosition ≤ FINSH_CMD_SIZE)
    (harray : sh.cmdHistory.length = FINSH_HISTORY_LINES) :
    ∃ sh', shellPushHistory sh = some sh' ∧ sh'.line = sh.line ∧
      sh'.linePosition = sh.linePosition := by
  obtain ⟨line, hpush⟩ : ∃ line, historyLine sh.line sh.linePosition = some line :=
    ⟨_, if_pos ⟨hline ▸ hposition, hposition⟩⟩
  rw [shellPushHistory]
  split_ifs
  · rw [pushLine, hpush]
    split_ifs with hfull
    · exact ⟨_, rfl, rfl, rfl⟩
    · exact ⟨_, rfl, rfl, rfl⟩
    · have hlt : sh.historyCount < sh.cmdHistory.length := by omega
      rw [Option.bind_some, store, if_pos hlt]
      exact ⟨_, rfl, rfl, rfl⟩
    · exact ⟨_, rfl, rfl, rfl⟩
  · exact ⟨_, rfl, rfl, rfl⟩

/-- The shell behind an overlong line, with `t` typed since. -/
structure Stale (full t : List UInt8) (sh : Shell) : Prop where
  stat : sh.stat = .waitNormal
  array : sh.cmdHistory.length = FINSH_HISTORY_LINES
  line : sh.line = t ++ full.drop t.length
  position : sh.linePosition = t.length
  curpos : sh.lineCurpos = t.length

variable {full : List UInt8}

theorem Stale.length_line (h : Stale full t sh) (hfull : full.length = FINSH_CMD_SIZE)
    (ht : t.length ≤ FINSH_CMD_SIZE) : sh.line.length = FINSH_CMD_SIZE := by
  rw [h.line, List.length_append, List.length_drop, hfull, Nat.add_sub_cancel' ht]

/-- A character typed over the overlong line. -/
theorem Stale.key (tab : Table) (h : Stale full t sh) (hfull : full.length = FINSH_CMD_SIZE)
    (hch : Printable ch) (hlen : t.length + 1 < FINSH_CMD_SIZE) :
    ∃ sh', finshKey tab ch sh = some (sh', print [ch]) ∧ Stale full (t ++ [ch]) sh' := by
  have hcurpos : (t.length + 1) % 2 ^ 16 = t.length + 1 := by
    have hsize : FINSH_CMD_SIZE < 2 ^ 16 := by decide
    exact Nat.mod_eq_of_lt (by omega)
  have hlt : ¬ t.length ≥ FINSH_CMD_SIZE := by omega
  have hlt' : ¬ t.length + 1 ≥ FINSH_CMD_SIZE := by omega
  have hroom : t.length < full.length := by omega
  have hdrop : full.drop t.length = full[t.length] :: full.drop (t.length + 1) :=
    List.drop_eq_getElem_cons hroom
  rw [finshKey_printable hch h.stat, normalKey, h.position, h.curpos, h.line]
  simp only [if_neg hlt, lt_irrefl, if_false]
  rw [hdrop, store_append rfl, Option.bind_eq_bind, Option.bind_some, Option.bind_eq_bind,
    Option.bind_some]
  simp only [if_neg hlt', hcurpos]
  exact ⟨_, rfl, h.stat, h.array, by simp, by simp, by simp⟩

theorem finshKeys_append (chs chs' : List UInt8) (sh : Shell) :
    finshKeys tab (chs ++ chs') sh =
      (finshKeys tab chs sh).bind fun r =>
        (finshKeys tab chs' r.1).map fun r' => (r'.1, r.2 ++ r'.2) := by
  induction chs generalizing sh with
  | nil =>
    rw [List.nil_append, finshKeys, Option.bind_some]
    cases finshKeys tab chs' sh <;> rfl
  | cons ch chs ih =>
    rw [List.cons_append, finshKeys, finshKeys]
    cases finshKey tab ch sh with
    | none => rfl
    | some r =>
      rw [Option.bind_some, Option.bind_some, ih]
      cases finshKeys tab chs r.1 with
      | none => rfl
      | some r' =>
        simp only [Option.bind_some, Option.map_some]
        cases finshKeys tab chs' r'.1 <;> simp

theorem Stale.keys (tab : Table) {u : List UInt8} (h : Stale full u sh)
    (hfull : full.length = FINSH_CMD_SIZE) (ht : ∀ c ∈ t, Printable c)
    (hlen : u.length + t.length < FINSH_CMD_SIZE) :
    ∃ sh', finshKeys tab t sh = some (sh', print t) ∧ Stale full (u ++ t) sh' := by
  induction t generalizing u sh with
  | nil => exact ⟨sh, rfl, by rwa [List.append_nil]⟩
  | cons ch t ih =>
    obtain ⟨hch, ht⟩ := List.forall_mem_cons.1 ht
    rw [List.length_cons] at hlen
    obtain ⟨sh₁, hkey, h₁⟩ := h.key tab hfull hch (by omega)
    obtain ⟨sh₂, hkeys, h₂⟩ := ih h₁ ht (by
      rw [List.length_append, List.length_singleton]
      omega)
    refine ⟨sh₂, ?_, by rwa [List.append_assoc, List.singleton_append] at h₂⟩
    rw [finshKeys, hkey, Option.bind_some, hkeys, Option.map_some]
    rfl

/-- Enter executes what was typed with the rest of the overlong line behind it. -/
theorem Stale.enter (tab : Table) (h : Stale full t sh) (hfull : full.length = FINSH_CMD_SIZE)
    (hlen : t.length < FINSH_CMD_SIZE) :
    ∃ sh', finshKey tab 0x0d sh =
      some (sh', print [0x0a] ++ [.exec (t ++ full.drop t.length) t.length] ++
        print tab.prompt) := by
  obtain ⟨sh', hpush, hline, hposition⟩ := shellPushHistory_total (h.length_line hfull hlen.le)
    (h.position ▸ hlen.le) h.array
  have henter : decode 0x0d sh.stat = (.waitNormal, some .enter) := by
    cases sh.stat <;> rfl
  have hself : ({ sh with stat := .waitNormal } : Shell) = sh := by rw [← h.stat]
  rw [finshKey_eq, henter]
  simp only [keyResult, hself]
  rw [enterKey, hpush, Option.bind_eq_bind, Option.bind_some, hline, hposition, h.line, h.position]
  exact ⟨_, rfl⟩

/-- The 80th character, typed at the end of the line. -/
theorem full_line (hv : e.Valid) (hch : Printable ch) (hstat : e.stat = .waitNormal)
    (hlen : e.cursor.text.length + 1 = FINSH_CMD_SIZE) (hright : e.cursor.right = []) :
    ∃ sh, finshKey tab ch e.shell = some (sh, print [ch]) ∧
      Stale (e.cursor.text ++ [ch]) [] sh := by
  have hlt : ¬ e.cursor.text.length ≥ FINSH_CMD_SIZE := by omega
  have hleft : e.cursor.left.length = e.cursor.text.length := by
    rw [Zipper.length_text, hright, List.length_nil, Nat.add_zero]
  have hpadded : padded FINSH_CMD_SIZE (e.cursor.text ++ [ch]) = e.cursor.text ++ [ch] := by
    rw [padded, List.length_append, List.length_singleton, hlen, Nat.sub_self, List.replicate_zero,
      List.append_nil]
  rw [finshKey_printable hch hstat, normalKey]
  simp only [shell, if_neg hlt, hleft, lt_irrefl, if_false]
  rw [store_padded (by omega), hpadded, Option.bind_eq_bind, Option.bind_some, Option.bind_eq_bind,
    Option.bind_some]
  simp only [hlen, le_refl, if_true]
  exact ⟨_, rfl, hstat, length_historyArray hv.size, by simp, rfl, rfl⟩

/-- The 80th character, typed before the end of the line: no zero is left to end what is printed. -/
theorem full_insert (hv : e.Valid) (hch : Printable ch) (hstat : e.stat = .waitNormal)
    (hlen : e.cursor.text.length + 1 = FINSH_CMD_SIZE) (hright : e.cursor.right ≠ []) :
    finshKey tab ch e.shell = none := by
  have hlt : ¬ FINSH_CMD_SIZE ≤ e.cursor.text.length := by omega
  have hmid : e.cursor.left.length < e.cursor.text.length := by
    have hlength := @Zipper.length_text _ e.cursor
    have hpos := List.length_pos_iff.2 hright
    omega
  have hsub : e.cursor.text.length - e.cursor.left.length = e.cursor.right.length := by
    rw [Zipper.length_text, Nat.add_sub_cancel_left]
  have hins := @Zipper.insert_padded _ e.cursor ch _ FINSH_CMD_SIZE (by omega) hright
  have hstring : cString ((padded FINSH_CMD_SIZE (e.cursor.insert ch).text).drop
      e.cursor.left.length) = none := by
    refine if_neg fun h => ?_
    have hmem := List.mem_of_mem_drop h
    have hzero : FINSH_CMD_SIZE - (e.cursor.insert ch).text.length = 0 := by
      rw [Zipper.length_text_insert, hlen, Nat.sub_self]
    rw [padded, hzero, List.replicate_zero, List.append_nil, Zipper.mem_text_insert] at hmem
    rcases hmem with heq | hmem
    · exact absurd (heq ▸ hch) (by decide)
    · exact hv.line.2 hmem
  rw [finshKey_printable hch hstat, normalKey]
  simp only [shell, ge_iff_le, if_neg hlt, if_pos hmid, hsub]
  simp only [Option.bind_eq_bind, ← Option.bind_assoc, hins, Option.bind_some, hstring,
    Option.bind_none]

/-- **The line after an overlong line is executed with its rest.**  For every state with a line of
79 characters that is reached without an overlong line, the 80th character typed at its end, and any
text typed and entered then.  Before the end of the line, the 80th character makes the shell print
beyond the array. -/
theorem overlong_stale (hnames : ∀ name ∈ tab.names, IsLine name) (hfits : init.Fits tab chs)
    (hch : Printable ch) (ht : ∀ c ∈ t, Printable c) (hlen : t.length < FINSH_CMD_SIZE) :
    ∃ sh actions, finshKeys tab chs Shell.init = some (sh, actions) ∧
      (sh.stat = .waitNormal → sh.linePosition + 1 = FINSH_CMD_SIZE →
        (sh.lineCurpos < sh.linePosition → finshKeys tab (chs ++ [ch]) Shell.init = none) ∧
        (sh.lineCurpos = sh.linePosition →
          0 ∉ t ++ (sh.text ++ [ch]).drop t.length ∧
          ∃ sh',
            finshKeys tab (chs ++ ([ch] ++ (t ++ [0x0d]))) Shell.init =
              some (sh', actions ++ (print [ch] ++ (print t ++ (print [0x0a] ++
                [.exec (t ++ (sh.text ++ [ch]).drop t.length) t.length] ++
                  print tab.prompt)))))) := by
  have hv := (finshKeys_shell hnames init_valid hfits).2
  have hkeys := finshKeys_edit hnames hfits
  have hlength := @Zipper.length_text _ (chs.foldl (next tab) init).cursor
  have hone : ∀ ch sh, finshKeys tab [ch] sh = finshKey tab ch sh := by
    intro ch sh
    rw [finshKeys]
    cases finshKey tab ch sh <;> simp [finshKeys]
  refine ⟨_, _, hkeys, fun hstat hposition => ⟨fun hcurpos => ?_, fun hcurpos => ?_⟩⟩
  · have hright : (chs.foldl (next tab) init).cursor.right ≠ [] := by
      intro heq
      simp only [shell, hlength, heq, List.length_nil] at hcurpos
      omega
    rw [finshKeys_append, hkeys, Option.bind_some, hone, full_insert hv hch hstat hposition hright]
    rfl
  · rw [text_shell]
    have hright : (chs.foldl (next tab) init).cursor.right = [] := by
      refine List.length_eq_zero_iff.1 ?_
      simp only [shell] at hcurpos
      omega
    have hfull : ((chs.foldl (next tab) init).cursor.text ++ [ch]).length = FINSH_CMD_SIZE := by
      rw [List.length_append, List.length_singleton]
      exact hposition
    obtain ⟨sh₁, hkey, h₁⟩ := @full_line tab _ ch hv hch hstat hposition hright
    obtain ⟨sh₂, hkeys₂, h₂⟩ := h₁.keys tab hfull ht (by simpa using hlen)
    obtain ⟨sh₃, henter⟩ := h₂.enter tab hfull (by simpa using hlen)
    rw [List.nil_append] at henter
    refine ⟨?_, sh₃, ?_⟩
    · intro h
      rcases List.mem_append.1 h with h | h
      · exact absurd (ht 0 h) (by decide)
      · rcases List.mem_append.1 (List.mem_of_mem_drop h) with h | h
        · exact hv.line.2 h
        · exact absurd (List.mem_singleton.1 h ▸ hch) (by decide)
    · rw [finshKeys_append, hkeys, Option.bind_some, finshKeys_append, hone, hkey, Option.bind_some,
        finshKeys_append, hkeys₂, Option.bind_some, hone, henter]
      rfl

/-- Eighty times a, and then b. -/
theorem overlong_stale_b :
    ∃ sh actions, finshKeys ⟨[0x3e], []⟩ (List.replicate 79 0x61) Shell.init = some (sh, actions) ∧
      (sh.stat = .waitNormal → sh.linePosition + 1 = FINSH_CMD_SIZE →
        (sh.lineCurpos < sh.linePosition →
          finshKeys ⟨[0x3e], []⟩ (List.replicate 79 0x61 ++ [0x61]) Shell.init = none) ∧
        (sh.lineCurpos = sh.linePosition →
          0 ∉ [0x62] ++ (sh.text ++ [0x61]).drop [(0x62 : UInt8)].length ∧
          ∃ sh',
            finshKeys ⟨[0x3e], []⟩ (List.replicate 79 0x61 ++ ([0x61] ++ ([0x62] ++ [0x0d])))
              Shell.init =
              some (sh', actions ++ (print [0x61] ++ (print [0x62] ++ (print [0x0a] ++
                [.exec ([0x62] ++ (sh.text ++ [0x61]).drop [(0x62 : UInt8)].length)
                  [(0x62 : UInt8)].length] ++ print [0x3e])))))) :=
  overlong_stale (by decide)
    (typed_next (forall_mem_of_all (by decide)) (by decide) rfl rfl).2.1 (by decide)
    (forall_mem_of_all (by decide)) (by decide)

end Editor
end Console
end AccTx
