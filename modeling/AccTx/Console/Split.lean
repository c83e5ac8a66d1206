/-
# Command lines

`components/finsh/msh.c`: `msh_exec` finds the command that a line begins with, and `msh_split` cuts
the line into its arguments, in place: the blanks and the closing quotation marks become zeros and
`argv` points into the line.

Here `cmd` is the line from the command on, as far as the array goes, and `argv` holds indices in
it.  `ptr` of `msh_split` is always `cmd + position`.  `none` is an access outside of the array.

On a text with a zero behind it `msh_split` is a function on lists (`tokens`), and so is `msh_exec`
(`execute`): for every line, `mshExec_padded`.
-/

import AccTx.Console.Line
import Mathlib.Data.List.DropRight

namespace AccTx
namespace Console

open Series

def FINSH_ARG_MAX : ℕ := 10

/-- A blank or a tab. -/
def Blank (c : UInt8) : Prop := c = 0x20 ∨ c = 0x09

instance (c : UInt8) : Decidable (Blank c) := inferInstanceAs (Decidable (_ ∨ _))

/-! ### The loops of `msh_split`

`left` is `length - position`. -/

/-- `strip bank and tab`. -/
def strip : ℕ → List UInt8 → ℕ → Option (List UInt8 × ℕ)
  | 0, cmd, position => (cmd[position]?).map fun _ => (cmd, position)
  | left + 1, cmd, position =>
    (cmd[position]?).bind fun c =>
      if Blank c then (store cmd position 0).bind fun cmd => strip left cmd (position + 1)
      else some (cmd, position)

/-- `skip this string`. -/
def skipString : ℕ → List UInt8 → ℕ → Option ℕ
  | 0, cmd, position => (cmd[position]?).map fun _ => position
  | left + 1, cmd, position =>
    (cmd[position]?).bind fun c =>
      if c = 0x22 then some position
      else if c = 0x5c then
        (cmd[position + 1]?).bind fun c' =>
          if c' = 0x22 then
            match left with
            | 0 => (cmd[position + 2]?).map fun _ => position + 2
            | left + 1 => skipString left cmd (position + 2)
          else skipString left cmd (position + 1)
      else skipString left cmd (position + 1)

/-- The end of a word, also of the first one in `_msh_exec_cmd`. -/
def skipWord : ℕ → List UInt8 → ℕ → Option ℕ
  | 0, cmd, position => (cmd[position]?).map fun _ => position
  | left + 1, cmd, position =>
    (cmd[position]?).bind fun c =>
      if Blank c then some position else skipWord left cmd (position + 1)

/-- One argument, and what `next` does behind it. -/
def splitArg (length : ℕ) (next : List UInt8 → ℕ → Option (List UInt8 × List ℕ))
    (cmd : List UInt8) (position : ℕ) : Option (List UInt8 × List ℕ) :=
  (cmd[position]?).bind fun c =>
    if c = 0x22 then
      let start := position + 1
      (skipString (length - start) cmd start).bind fun position =>
        if length ≤ position then some (cmd, [start])
        else
          (store cmd position 0).bind fun cmd =>
            (next cmd (position + 1)).map fun r => (r.1, start :: r.2)
    else
      (skipWord (length - position) cmd position).bind fun end' =>
        if length ≤ end' then some (cmd, [position])
        else (next cmd end').map fun r => (r.1, position :: r.2)

/-- The loop of `msh_split`, where `free` elements of `argv` are left. -/
def splitArgs (length : ℕ) : ℕ → List UInt8 → ℕ → Option (List UInt8 × List ℕ)
  | free, cmd, position =>
    if length ≤ position then some (cmd, [])
    else
      (strip (length - position) cmd position).bind fun (cmd, position) =>
        match free with
        -- too many args
        | 0 => some (cmd, [])
        | free + 1 =>
          if length ≤ position then some (cmd, [])
          else splitArg length (splitArgs length free) cmd position

/-- `msh_split`, and the strings that `argv` points to. -/
def mshSplit (cmd : List UInt8) (length : ℕ) : Option (List (List UInt8)) :=
  (splitArgs length FINSH_ARG_MAX cmd 0).bind fun (cmd, argv) =>
    argv.mapM fun start => cString (cmd.drop start)

/-! ### `msh_exec` -/

/-- What `msh_exec` does: nothing, call a command, or print that there is none. -/
inductive Exec
  | nothing
  | call (name : List UInt8) (argv : List (List UInt8))
  | notFound (cmd : List UInt8)
  deriving DecidableEq

/-- `strim the beginning of command`.  The length is 32 bits wide. -/
def strim : List UInt8 → ℕ → Option (List UInt8 × ℕ)
  | [], _ => none
  | c :: cmd, length =>
    if Blank c then strim cmd ((length + (2 ^ 32 - 1)) % 2 ^ 32) else some (c :: cmd, length)

/-- `_msh_exec_cmd`, which is `none` where there is no such command. -/
def mshExecCmd (tab : Table) (cmd : List UInt8) (length : ℕ) : Option (Option Exec) :=
  (skipWord length cmd 0).bind fun cmd0Size =>
    if cmd0Size = 0 then some none
    else
      match tab.names.find? (· = cmd.take cmd0Size) with
      | none => some none
      | some name =>
        (mshSplit cmd length).map fun argv => if argv = [] then none else some (.call name argv)

/-- `msh_exec`. -/
def mshExec (tab : Table) (cmd : List UInt8) (length : ℕ) : Option Exec :=
  (strim cmd length).bind fun (cmd, length) =>
    if length = 0 then some .nothing
    else
      (mshExecCmd tab cmd length).bind fun
        | some exec => some exec
        | none =>
          -- truncate the cmd at the first space
          if ∃ c ∈ cmd, c = 0x20 ∨ c = 0 then
            some (.notFound (cmd.takeWhile fun c => c ≠ 0x20 ∧ c ≠ 0))
          else none

/-! ### Arguments of a text -/

/-- A text in quotation marks, and what is behind it.  `\"` does not end it. -/
def unquote : List UInt8 → List UInt8 × List UInt8
  | [] => ([], [])
  | [c] => if c = 0x22 then ([], []) else ([c], [])
  | c :: d :: t =>
    if c = 0x22 then ([], d :: t)
    else if c = 0x5c ∧ d = 0x22 then (c :: d :: (unquote t).1, (unquote t).2)
    else (c :: (unquote (d :: t)).1, (unquote (d :: t)).2)

/-- The arguments of a text, `free` at most. -/
def tokens : ℕ → List UInt8 → List (List UInt8)
  | 0, _ => []
  | free + 1, t =>
    match t.dropWhile Blank with
    | [] => []
    | c :: r =>
      if c = 0x22 then (unquote r).1 :: tokens free (unquote r).2
      else (c :: r).takeWhile (¬ Blank ·) :: tokens free ((c :: r).dropWhile (¬ Blank ·))

variable {back pre t : List UInt8}

theorem getElem?_mid (pre t : List UInt8) (c : UInt8) : (pre ++ c :: t)[pre.length]? = some c := by
  simp

theorem strip_text (back pre t : List UInt8) :
    strip t.length (pre ++ t ++ 0 :: back) pre.length =
      some (pre ++ List.replicate (t.takeWhile Blank).length 0 ++ t.dropWhile Blank ++ 0 :: back,
        pre.length + (t.takeWhile Blank).length) := by
  induction t generalizing pre with
  | nil => simp [strip]
  | cons c t ih =>
    rw [List.length_cons, strip, List.append_assoc, List.cons_append, getElem?_mid,
      Option.bind_some]
    by_cases hc : Blank c
    · rw [if_pos hc, store_append rfl, Option.bind_some]
      have hpre : pre ++ 0 :: (t ++ 0 :: back) = pre ++ [0] ++ t ++ 0 :: back := by simp
      have hlen : pre.length + 1 = (pre ++ [0]).length := by simp
      rw [hpre, hlen, ih]
      simp [hc, List.replicate_succ, Nat.add_assoc, Nat.add_comm 1]
    · simp [hc]

theorem skipWord_text (back pre t : List UInt8) :
    skipWord t.length (pre ++ t ++ 0 :: back) pre.length =
      some (pre.length + (t.takeWhile (¬ Blank ·)).length) := by
  induction t generalizing pre with
  | nil => simp [skipWord]
  | cons c t ih =>
    rw [List.length_cons, skipWord, List.append_assoc, List.cons_append, getElem?_mid,
      Option.bind_some]
    by_cases hc : Blank c
    · simp [hc]
    · have hpre : pre ++ c :: (t ++ 0 :: back) = pre ++ [c] ++ t ++ 0 :: back := by simp
      have hlen : pre.length + 1 = (pre ++ [c]).length := by simp
      rw [if_neg hc, hpre, hlen, ih]
      simp [hc, Nat.add_assoc, Nat.add_comm 1]

theorem skipString_text (back pre : List UInt8) {t : List UInt8} (ht : 0 ∉ t) :
    skipString t.length (pre ++ t ++ 0 :: back) pre.length =
      some (pre.length + (unquote t).1.length) := by
  have hnext : ∀ (pre t : List UInt8) c d, (pre ++ c :: d :: t)[pre.length + 1]? = some d := by
    simp
  induction t using unquote.induct generalizing pre with
  | case1 => simp [skipString, unquote]
  | case2 => simp [skipString, unquote]
  | case3 c hc =>
    have hlast : (pre ++ [c] ++ 0 :: back)[pre.length + 1]? = some 0 := by simp
    have hone : skipString 0 (pre ++ [c] ++ 0 :: back) (pre.length + 1) =
        some (pre.length + 1) := by
      rw [skipString, hlast, Option.map_some]
    rw [List.length_singleton, skipString, hone, hlast, unquote, if_neg hc]
    simp [hc]
  | case4 d t =>
    simp [skipString, unquote]
  | case5 c d t hc hesc ih =>
    obtain ⟨rfl, rfl⟩ := hesc
    have hrest : 0 ∉ t := fun h => ht (List.mem_cons_of_mem _ (List.mem_cons_of_mem _ h))
    have hpre : pre ++ 0x5c :: 0x22 :: (t ++ 0 :: back) =
        pre ++ [0x5c, 0x22] ++ t ++ 0 :: back := by
      simp
    have hlen : pre.length + 2 = (pre ++ [0x5c, 0x22]).length := by simp
    rw [List.length_cons, List.length_cons, List.append_assoc, List.cons_append, List.cons_append,
      skipString, getElem?_mid, Option.bind_some, if_neg hc, if_pos rfl, hnext, Option.bind_some,
      if_pos rfl, hpre, hlen, ih _ hrest, unquote, if_neg hc, if_pos ⟨rfl, rfl⟩]
    simp [Nat.add_assoc, Nat.add_comm 2]
  | case6 c d t hc hesc ih =>
    have hrest : 0 ∉ d :: t := fun h => ht (List.mem_cons_of_mem _ h)
    have hpre : pre ++ c :: d :: (t ++ 0 :: back) = pre ++ [c] ++ d :: t ++ 0 :: back := by simp
    have hlen : pre.length + 1 = (pre ++ [c]).length := by simp
    have hskip : skipString (t.length + 1) (pre ++ c :: d :: (t ++ 0 :: back)) (pre.length + 1) =
        some (pre.length + (unquote (c :: d :: t)).1.length) := by
      rw [hpre, hlen, ← List.length_cons, ih _ hrest, unquote, if_neg hc, if_neg hesc]
      simp [Nat.add_assoc, Nat.add_comm 1]
    rw [List.length_cons, List.length_cons, List.append_assoc, List.cons_append, List.cons_append,
      skipString, getElem?_mid, Option.bind_some, if_neg hc, hnext, Option.bind_some, hskip]
    split_ifs with hback hquote
    · exact absurd ⟨hback, hquote⟩ hesc
    · rfl
    · rfl

/-- A text in quotation marks ends at the text's end or at a quotation mark. -/
theorem unquote_cases (t : List UInt8) :
    (unquote t).1 = t ∧ (unquote t).2 = [] ∨ t = (unquote t).1 ++ 0x22 :: (unquote t).2 := by
  induction t using unquote.induct with
  | case1 => exact .inl ⟨rfl, rfl⟩
  | case2 => exact .inr rfl
  | case3 c hc => simp [unquote, hc]
  | case4 d t => simp [unquote]
  | case5 c d t hc hesc ih =>
    rw [unquote, if_neg hc, if_pos hesc]
    exact ih.imp (fun ⟨h₁, h₂⟩ => ⟨by simp only [h₁], h₂⟩) fun h => by
      rw [List.cons_append, List.cons_append, ← h]
  | case6 c d t hc hesc ih =>
    rw [unquote, if_neg hc, if_neg hesc]
    exact ih.imp (fun ⟨h₁, h₂⟩ => ⟨by simp only [h₁], h₂⟩) fun h => by
      rw [List.cons_append, ← h]

/-- From any position on, `next` finds the arguments `toks` of the text there.  What has been cut
off before stays, and before a blank or the end of the text there is a zero. -/
def Cuts (length : ℕ) (back : List UInt8)
    (next : List UInt8 → ℕ → Option (List UInt8 × List ℕ))
    (toks : List UInt8 → List (List UInt8)) : Prop :=
  ∀ pre t, 0 ∉ t → pre.length + t.length = length →
    ∃ tail argv,
      next (pre ++ t ++ 0 :: back) pre.length = some (pre ++ tail, argv) ∧
      argv.map (fun start => cString ((pre ++ tail).drop start)) = (toks t).map some ∧
      ((∀ c r, t = c :: r → Blank c) → ∃ tail', tail = 0 :: tail')

section

variable {length : ℕ} {next : List UInt8 → ℕ → Option (List UInt8 × List ℕ)}
  {toks : List UInt8 → List (List UInt8)} {c : UInt8} {r : List UInt8}

theorem splitArg_word (hnext : Cuts length back next toks) (hnil : toks [] = []) (ht : 0 ∉ c :: r)
    (hquote : c ≠ 0x22) (hlen : pre.length + (c :: r).length = length) :
    ∃ tail argv,
      splitArg length next (pre ++ c :: r ++ 0 :: back) pre.length = some (pre ++ tail, argv) ∧
      argv.map (fun start => cString ((pre ++ tail).drop start)) =
        ((c :: r).takeWhile (¬ Blank ·) :: toks ((c :: r).dropWhile (¬ Blank ·))).map some := by
  have hsplit : (c :: r).takeWhile (¬ Blank ·) ++ (c :: r).dropWhile (¬ Blank ·) = c :: r :=
    List.takeWhile_append_dropWhile
  have hblank : ∀ d u, (c :: r).dropWhile (¬ Blank ·) = d :: u → Blank d := by
    intro d u h
    have hhead := List.head?_dropWhile_not (¬ Blank ·) (c :: r)
    rw [h] at hhead
    simpa using hhead
  have hleft : length - pre.length = (c :: r).length := by omega
  rw [splitArg, List.append_assoc pre, List.cons_append, getElem?_mid, Option.bind_some,
    if_neg hquote, ← List.cons_append, ← List.append_assoc, hleft, skipWord_text back pre (c :: r),
    Option.bind_some]
  generalize (c :: r).takeWhile (¬ Blank ·) = w at *
  generalize (c :: r).dropWhile (¬ Blank ·) = u at *
  rw [← hsplit] at ht hlen ⊢
  have hw : 0 ∉ w := fun h => ht (List.mem_append_left _ h)
  have hu : 0 ∉ u := fun h => ht (List.mem_append_right _ h)
  have hend : pre.length + w.length = (pre ++ w).length := List.length_append.symm
  rw [List.length_append] at hlen
  rcases eq_or_ne u [] with rfl | hne
  · -- the end of the line
    rw [List.length_nil] at hlen
    rw [if_pos (by omega), hnil, List.append_nil]
    refine ⟨w ++ 0 :: back, [pre.length], by rw [List.append_assoc], ?_⟩
    rw [List.map_singleton, List.drop_left' rfl, cString_append hw]
    rfl
  · have hpos := List.length_pos_iff.2 hne
    obtain ⟨tail, argv, hrun, hargv, hzero⟩ := hnext (pre ++ w) u hu (by
      rw [List.length_append]
      omega)
    obtain ⟨tail, rfl⟩ := hzero hblank
    rw [if_neg (by omega), hend, ← List.append_assoc, hrun, Option.map_some]
    refine ⟨w ++ 0 :: tail, pre.length :: argv, by rw [List.append_assoc], ?_⟩
    rw [List.map_cons, List.drop_left' rfl, cString_append hw, ← List.append_assoc, hargv,
      List.map_cons]

theorem splitArg_string (hnext : Cuts length back next toks) (hnil : toks [] = []) (ht : 0 ∉ r)
    (hlen : pre.length + (r.length + 1) = length) :
    ∃ tail argv,
      splitArg length next (pre ++ 0x22 :: r ++ 0 :: back) pre.length = some (pre ++ tail, argv) ∧
      argv.map (fun start => cString ((pre ++ tail).drop start)) =
        ((unquote r).1 :: toks (unquote r).2).map some := by
  have hsplit : pre ++ 0x22 :: r ++ 0 :: back = pre ++ [0x22] ++ r ++ 0 :: back := by simp
  have hstart : pre.length + 1 = (pre ++ [0x22]).length := by simp
  have hleft : length - (pre.length + 1) = r.length := by omega
  rw [splitArg, List.append_assoc pre, List.cons_append, getElem?_mid, Option.bind_some, if_pos rfl]
  simp only
  rw [← List.cons_append, ← List.append_assoc, hleft, hsplit, hstart, skipString_text back _ ht,
    Option.bind_some]
  rcases unquote_cases r with ⟨hopen, hrest⟩ | hclosed
  · -- the end of the line
    rw [hopen, hrest, if_pos (by simp; omega), hnil]
    refine ⟨[0x22] ++ r ++ 0 :: back, [(pre ++ [0x22]).length], by simp, ?_⟩
    rw [List.map_singleton, ← List.append_assoc, ← List.append_assoc, List.append_assoc _ r,
      List.drop_left' rfl, cString_append ht]
    rfl
  · generalize (unquote r).1 = s at *
    generalize (unquote r).2 = u at *
    subst hclosed
    have hs : 0 ∉ s := fun h => ht (List.mem_append_left _ h)
    have hu : 0 ∉ u := fun h => ht (List.mem_append_right _ (List.mem_cons_of_mem _ h))
    have hcmd : pre ++ [0x22] ++ (s ++ 0x22 :: u) ++ 0 :: back =
        pre ++ [0x22] ++ s ++ 0x22 :: (u ++ 0 :: back) := by simp
    have hend : (pre ++ [0x22] ++ s).length = (pre ++ [0x22]).length + s.length :=
      List.length_append
    have hafter : pre ++ [0x22] ++ s ++ 0 :: (u ++ 0 :: back) =
        pre ++ [0x22] ++ s ++ [0] ++ u ++ 0 :: back := by simp
    have hposition : (pre ++ [0x22]).length + s.length + 1 =
        (pre ++ [0x22] ++ s ++ [0]).length := by
      simp only [List.length_append, List.length_singleton]
    obtain ⟨tail, argv, hrun, hargv, -⟩ := hnext (pre ++ [0x22] ++ s ++ [0]) u hu (by
      simp only [List.length_append, List.length_cons, List.length_nil] at hlen ⊢
      omega)
    rw [if_neg (by
        simp only [List.length_append, List.length_cons, List.length_nil] at hlen ⊢
        omega),
      hcmd, store_append hend, Option.bind_some, hafter, hposition, hrun, Option.map_some]
    refine ⟨[0x22] ++ s ++ [0] ++ tail, (pre ++ [0x22]).length :: argv, by simp, ?_⟩
    have hdrop : (pre ++ ([0x22] ++ s ++ [0] ++ tail)).drop (pre ++ [0x22]).length =
        s ++ 0 :: tail := by
      rw [show pre ++ ([0x22] ++ s ++ [0] ++ tail) = pre ++ [0x22] ++ (s ++ 0 :: tail) by simp,
        List.drop_left' rfl]
    have hsame : pre ++ ([0x22] ++ s ++ [0] ++ tail) = pre ++ [0x22] ++ s ++ [0] ++ tail := by simp
    rw [List.map_cons, hdrop, cString_append hs, hsame, hargv, List.map_cons]

end

theorem tokens_nil (free : ℕ) : tokens free [] = [] := by cases free <;> rfl

/-- The blanks at the beginning become zeros. -/
theorem blanks_zero (hne : t ≠ []) (h : ∀ c r, t = c :: r → Blank c) (u : List UInt8) :
    ∃ u', List.replicate (t.takeWhile Blank).length 0 ++ u = 0 :: u' := by
  obtain ⟨c, r, rfl⟩ := List.exists_cons_of_ne_nil hne
  have hc : Blank c := h c r rfl
  exact ⟨List.replicate (r.takeWhile Blank).length 0 ++ u, by simp [hc, List.replicate_succ]⟩

/-- **`msh_split` finds the arguments of a text.** -/
theorem splitArgs_cuts (length free : ℕ) (back : List UInt8) :
    Cuts length back (splitArgs length free) (tokens free) := by
  induction free with
  | zero =>
    intro pre t ht hlen
    rw [splitArgs]
    rcases eq_or_ne t [] with rfl | hne
    · rw [List.length_nil, Nat.add_zero] at hlen
      rw [if_pos hlen.ge, List.append_nil]
      exact ⟨0 :: back, [], rfl, rfl, fun _ => ⟨back, rfl⟩⟩
    have hpos := List.length_pos_iff.2 hne
    have hleft : length - pre.length = t.length := by omega
    rw [if_neg (by omega), hleft, strip_text, Option.bind_some]
    exact ⟨List.replicate (t.takeWhile Blank).length 0 ++ (t.dropWhile Blank ++ 0 :: back), [],
      by simp, rfl, fun h => blanks_zero hne h _⟩
  | succ free ih =>
    intro pre t ht hlen
    rw [splitArgs]
    rcases eq_or_ne t [] with rfl | hne
    · rw [List.length_nil, Nat.add_zero] at hlen
      rw [if_pos hlen.ge, List.append_nil]
      exact ⟨0 :: back, [], rfl, rfl, fun _ => ⟨back, rfl⟩⟩
    have hpos := List.length_pos_iff.2 hne
    have hleft : length - pre.length = t.length := by omega
    have hsplit : (t.takeWhile Blank).length + (t.dropWhile Blank).length = t.length := by
      rw [← List.length_append, List.takeWhile_append_dropWhile]
    have hrest : ∀ c ∈ t.dropWhile Blank, c ∈ t := fun c hc => (List.dropWhile_sublist _).subset hc
    have hpre : pre.length + (t.takeWhile Blank).length =
        (pre ++ List.replicate (t.takeWhile Blank).length 0).length := by simp
    rw [if_neg (by omega), hleft, strip_text, Option.bind_some, tokens]
    simp only
    cases hrun : t.dropWhile Blank with
    | nil =>
      rw [hrun, List.length_nil] at hsplit
      rw [if_pos (by omega)]
      exact ⟨List.replicate (t.takeWhile Blank).length 0 ++ 0 :: back, [], by simp, rfl,
        fun h => blanks_zero hne h _⟩
    | cons c r =>
      rw [hrun, List.length_cons] at hsplit
      rw [hrun] at hrest
      have hzero : 0 ∉ c :: r := fun h => ht (hrest 0 h)
      have harg : ∃ tail argv,
          splitArg length (splitArgs length free)
            (pre ++ List.replicate (t.takeWhile Blank).length 0 ++ c :: r ++ 0 :: back)
            (pre ++ List.replicate (t.takeWhile Blank).length 0).length =
              some (pre ++ List.replicate (t.takeWhile Blank).length 0 ++ tail, argv) ∧
          argv.map (fun start => cString
            ((pre ++ List.replicate (t.takeWhile Blank).length 0 ++ tail).drop start)) =
              (if c = 0x22 then (unquote r).1 :: tokens free (unquote r).2
                else (c :: r).takeWhile (¬ Blank ·) ::
                  tokens free ((c :: r).dropWhile (¬ Blank ·))).map some := by
        split_ifs with hquote
        · subst hquote
          exact splitArg_string ih (tokens_nil free)
            (fun h => hzero (List.mem_cons_of_mem _ h)) (by rw [← hpre]; omega)
        · exact splitArg_word ih (tokens_nil free) hzero hquote
            (by rw [← hpre, List.length_cons]; omega)
      obtain ⟨tail, argv, harg, hargv⟩ := harg
      rw [if_neg (by omega), hpre, harg]
      refine ⟨List.replicate (t.takeWhile Blank).length 0 ++ tail, argv, by rw [List.append_assoc],
        ?_, fun h => blanks_zero hne h _⟩
      rw [← List.append_assoc, hargv]

theorem mapM_of_map {f : ℕ → Option (List UInt8)} {argv : List ℕ} {ts : List (List UInt8)}
    (h : argv.map f = ts.map some) : argv.mapM f = some ts := by
  induction argv generalizing ts with
  | nil =>
    rw [List.map_nil, eq_comm, List.map_eq_nil_iff] at h
    subst h
    rfl
  | cons i argv ih =>
    cases ts with
    | nil => cases h
    | cons t ts =>
      rw [List.map_cons, List.map_cons, List.cons_eq_cons] at h
      rw [List.mapM_cons, h.1, ih h.2]
      rfl

theorem padded_eq {n : ℕ} (h : t.length < n) :
    padded n t = t ++ 0 :: List.replicate (n - t.length - 1) 0 := by
  have hsub : n - t.length = n - t.length - 1 + 1 := by omega
  rw [padded, hsub, List.replicate_succ, Nat.add_sub_cancel]

theorem mshSplit_padded {n : ℕ} (h : t.length < n) (ht : 0 ∉ t) :
    mshSplit (padded n t) t.length = some (tokens FINSH_ARG_MAX t) := by
  obtain ⟨tail, argv, hrun, hargv, -⟩ :=
    splitArgs_cuts t.length FINSH_ARG_MAX (List.replicate (n - t.length - 1) 0) [] t ht
      (Nat.zero_add _)
  rw [List.nil_append, List.nil_append, List.length_nil] at hrun
  rw [mshSplit, padded_eq h, hrun, Option.bind_some]
  exact mapM_of_map hargv

/-! ### Lines -/

/-- What a line executes. -/
def execute (tab : Table) (t : List UInt8) : Exec :=
  match t.dropWhile Blank with
  | [] => .nothing
  | c :: r =>
    let name := (c :: r).takeWhile (¬ Blank ·)
    if name ∈ tab.names then .call name (tokens FINSH_ARG_MAX t)
    else .notFound ((c :: r).takeWhile (· ≠ 0x20))

theorem tokens_dropWhile (free : ℕ) (t : List UInt8) :
    tokens free (t.dropWhile Blank) = tokens free t := by
  cases free with
  | zero => rfl
  | succ free => rw [tokens, tokens, List.dropWhile_idempotent]

theorem strim_padded {n : ℕ} (h : t.length < n) (hn : n < 2 ^ 32) :
    ∃ m, (t.dropWhile Blank).length < m ∧
      strim (padded n t) t.length =
        some (padded m (t.dropWhile Blank), (t.dropWhile Blank).length) := by
  induction t generalizing n with
  | nil =>
    obtain ⟨n, rfl⟩ := Nat.exists_eq_add_of_lt h
    refine ⟨0 + n + 1, h, ?_⟩
    rw [padded_eq h]
    rfl
  | cons c t ih =>
    rw [List.length_cons] at h
    rw [padded_cons, strim]
    by_cases hc : Blank c
    · obtain ⟨m, hm, hrun⟩ := @ih (n - 1) (by omega) (by omega)
      have hlen : (t.length + 1 + (2 ^ 32 - 1)) % 2 ^ 32 = t.length := by omega
      rw [if_pos hc, List.length_cons, hlen, List.dropWhile_cons_of_pos (by simpa using hc)]
      exact ⟨m, hm, hrun⟩
    · rw [if_neg hc, List.dropWhile_cons_of_neg (by simpa using hc), ← padded_cons]
      exact ⟨n, h, rfl⟩

theorem find?_eq (names : List (List UInt8)) (name : List UInt8) :
    names.find? (· = name) = if name ∈ names then some name else none := by
  split_ifs with h
  · cases hfind : names.find? (· = name) with
    | none => simpa using List.find?_eq_none.1 hfind name h
    | some found =>
      have heq := List.find?_some hfind
      rw [of_decide_eq_true heq]
  · rw [List.find?_eq_none]
    rintro found hfound heq
    exact h (of_decide_eq_true heq ▸ hfound)

theorem mshExecCmd_padded {tab : Table} {n : ℕ} {c : UInt8} {r : List UInt8}
    (h : (c :: r).length < n) (ht : 0 ∉ c :: r) (hc : ¬ Blank c) :
    mshExecCmd tab (padded n (c :: r)) (c :: r).length =
      some (if (c :: r).takeWhile (¬ Blank ·) ∈ tab.names then
        some (.call ((c :: r).takeWhile (¬ Blank ·)) (tokens FINSH_ARG_MAX (c :: r)))
          else none) := by
  have hword : skipWord (c :: r).length (padded n (c :: r)) 0 =
      some ((c :: r).takeWhile (¬ Blank ·)).length := by
    have hskip := skipWord_text (List.replicate (n - (c :: r).length - 1) 0) [] (c :: r)
    rwa [List.nil_append, List.length_nil, Nat.zero_add, ← padded_eq h] at hskip
  have hpos : ((c :: r).takeWhile (¬ Blank ·)).length ≠ 0 := by simp [hc]
  have htake : (padded n (c :: r)).take ((c :: r).takeWhile (¬ Blank ·)).length =
      (c :: r).takeWhile (¬ Blank ·) := by
    have hfirst : (c :: r).takeWhile (¬ Blank ·) <+: c :: r := List.takeWhile_prefix _
    have hbegins : (c :: r).takeWhile (¬ Blank ·) <+: padded n (c :: r) :=
      hfirst.trans (List.prefix_append ..)
    exact (List.prefix_iff_eq_take.1 hbegins).symm
  have hargv : tokens FINSH_ARG_MAX (c :: r) ≠ [] := by
    rw [FINSH_ARG_MAX, tokens, List.dropWhile_cons_of_neg (by simpa using hc)]
    simp only
    split_ifs <;> exact List.cons_ne_nil _ _
  rw [mshExecCmd, hword, Option.bind_some, if_neg hpos, htake, find?_eq]
  split_ifs with hname
  · simp only [mshSplit_padded h ht, Option.map_some, if_neg hargv]
  · rfl

/-- The text up to the first space, or else all of it. -/
theorem takeWhile_text (back : List UInt8) {t : List UInt8} (ht : 0 ∉ t) :
    (t ++ 0 :: back).takeWhile (fun c => c ≠ 0x20 ∧ c ≠ 0) = t.takeWhile (· ≠ 0x20) := by
  induction t with
  | nil => simp
  | cons c t ih =>
    have hc : c ≠ 0 := fun h => ht (h ▸ List.mem_cons_self ..)
    have hrest := ih fun h => ht (List.mem_cons_of_mem _ h)
    by_cases hspace : c = 0x20
    · simp [hspace]
    · rw [List.cons_append, List.takeWhile_cons_of_pos (by simp [hspace, hc]), hrest,
        List.takeWhile_cons_of_pos (by simpa using hspace)]

/-- **`msh_exec` executes the line.** -/
theorem mshExec_padded {tab : Table} {n : ℕ} (h : t.length < n) (hn : n < 2 ^ 32) (ht : 0 ∉ t) :
    mshExec tab (padded n t) t.length = some (execute tab t) := by
  obtain ⟨m, hm, hstrim⟩ := strim_padded h hn
  have hzero : 0 ∉ t.dropWhile Blank := fun h0 => ht ((List.dropWhile_sublist _).subset h0)
  have htokens := tokens_dropWhile FINSH_ARG_MAX t
  have hhead := List.head?_dropWhile_not Blank t
  rw [mshExec, hstrim, Option.bind_some, execute]
  simp only
  cases hrun : t.dropWhile Blank with
  | nil => rfl
  | cons c r =>
    rw [hrun] at hm hzero htokens hhead
    have hc : ¬ Blank c := by simpa using hhead
    rw [if_neg (by simp), mshExecCmd_padded hm hzero hc, Option.bind_some, htokens]
    by_cases hname : (c :: r).takeWhile (¬ Blank ·) ∈ tab.names
    · simp only [if_pos hname]
    · have hend : ∃ d ∈ padded m (c :: r), d = 0x20 ∨ d = 0 := by
        refine ⟨0, ?_, .inr rfl⟩
        rw [padded_eq hm]
        exact List.mem_append_right _ (List.mem_cons_self ..)
      simp only [if_neg hname, if_pos hend]
      rw [padded_eq hm, takeWhile_text _ hzero]

/-- A command with an argument in quotation marks. -/
theorem mshExec_padded_hi :
    mshExec ⟨[], [[0x68, 0x69]]⟩ (padded 80 [0x20, 0x68, 0x69, 0x20, 0x22, 0x61, 0x20, 0x62, 0x22])
        [(0x20 : UInt8), 0x68, 0x69, 0x20, 0x22, 0x61, 0x20, 0x62, 0x22].length =
      some (execute ⟨[], [[0x68, 0x69]]⟩ [0x20, 0x68, 0x69, 0x20, 0x22, 0x61, 0x20, 0x62, 0x22]) :=
  mshExec_padded (by decide) (by decide) (by decide)

end Console
end AccTx
