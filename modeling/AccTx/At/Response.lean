/-
# Responses

The lines of a response lie in its buffer one behind the other, each with a zero in the place of its
last character, so the buffer begins with a text of strings, at least as many as `line_counts`
(`Stores`).  `at_resp_get_line` and `at_resp_get_line_by_kw` find the strings there, whatever the
lines are, and never leave the text (`getLine_stores`, `getLineByKw_stores`).

A line that does not fit is dropped, and a later one may fit again: the buffer holds the lines that
`reply` keeps, up to the one that ends the response (`respLine_holds`).  That a line did not fit
shows nowhere: `AT_RESP_BUFF_FULL` is overwritten at the end of the response, and where the response
ends with `OK` or `ERROR` its status is the same for every size of the buffer (`reply_status`).
-/

import AccTx.At.Client

namespace AccTx
namespace At

open Series

variable {resp : AtResponse} {text : List UInt8} {lines : List (List UInt8)} {line : List UInt8}

/-- The buffer begins with the text. -/
structure Filled (resp : AtResponse) (text : List UInt8) : Prop where
  size : resp.buf.length = resp.bufSize
  fits : resp.bufLen ≤ resp.bufSize
  takes : resp.buf.take resp.bufLen = text

/-- Its strings are not fewer than the lines counted. -/
structure Stores (resp : AtResponse) (text : List UInt8) : Prop extends Filled resp text where
  counts : resp.lineCounts ≤ (strings text).length

/-! ### Finding the lines -/

theorem getLineFrom_stores {rest : List UInt8} {before left k pos : ℕ}
    (hdrop : resp.buf.drop pos = text ++ rest) (hleft : left ≤ (strings text).length)
    (hk : k < left) :
    getLineFrom resp (before + k) left before pos = some (strings text)[k]? := by
  induction left generalizing before text k pos with
  | zero => omega
  | succ left ih =>
    have hne : strings text ≠ [] := fun hnil => by rw [hnil] at hleft; cases hleft
    obtain ⟨s, u, hs, rfl, hstrings⟩ := exists_strings_cons hne
    rw [hstrings, List.length_cons] at hleft
    rw [List.append_assoc, List.cons_append] at hdrop
    rw [getLineFrom, hdrop, cString_append hs, Option.bind_some, hstrings]
    cases k with
    | zero => rw [if_pos (Nat.add_zero before)]; rfl
    | succ k =>
      have hnext : resp.buf.drop (pos + s.length + 1) = u ++ rest := by
        rw [Nat.add_assoc, ← List.drop_drop, hdrop]
        simp
      have hstep : getLineFrom resp (before + 1 + k) left (before + 1) (pos + s.length + 1) =
          some (strings u)[k]? :=
        ih hnext (Nat.le_of_succ_le_succ hleft) (Nat.lt_of_succ_lt_succ hk)
      rw [if_neg (by omega), List.getElem?_cons_succ, ← hstep]
      congr 1
      omega

/-- **`at_resp_get_line` gives the strings of the text.** -/
theorem getLine_stores (h : Stores resp text) (k : ℕ) :
    atRespGetLine resp k =
      some (if k = 0 then none else ((strings text).take resp.lineCounts)[k - 1]?) := by
  unfold atRespGetLine
  rcases Nat.eq_zero_or_pos k with rfl | hpos
  · rw [if_pos (Or.inr rfl), if_pos rfl]
  · rw [if_neg hpos.ne']
    split
    · rename_i hk
      rw [List.getElem?_take, if_neg (by omega)]
    · rename_i hk
      have hdrop : resp.buf.drop 0 = text ++ resp.buf.drop resp.bufLen := by
        rw [List.drop_zero, ← h.takes, List.take_append_drop]
      have hfound : getLineFrom resp (1 + (k - 1)) resp.lineCounts 1 0 =
          some (strings text)[k - 1]? := getLineFrom_stores hdrop h.counts (by omega)
      rw [List.getElem?_take, if_pos (by omega), ← hfound, Nat.add_sub_cancel' hpos]

theorem getLineByKwFrom_stores (keyword : List UInt8) {rest : List UInt8} {left pos : ℕ}
    (hdrop : resp.buf.drop pos = text ++ rest) (hleft : left ≤ (strings text).length) :
    getLineByKwFrom resp keyword left pos =
      some (((strings text).take left).find? (keyword <:+: ·)) := by
  induction left generalizing text pos with
  | zero => rfl
  | succ left ih =>
    have hne : strings text ≠ [] := fun hnil => by rw [hnil] at hleft; cases hleft
    obtain ⟨s, u, hs, rfl, hstrings⟩ := exists_strings_cons hne
    rw [hstrings, List.length_cons] at hleft
    rw [List.append_assoc, List.cons_append] at hdrop
    rw [getLineByKwFrom, hdrop, cString_append hs, Option.bind_some, hstrings,
      List.take_succ_cons, List.find?_cons]
    have hnext : resp.buf.drop (pos + s.length + 1) = u ++ rest := by
      rw [Nat.add_assoc, ← List.drop_drop, hdrop]
      simp
    split
    · rename_i hkw
      simp [hkw]
    · rename_i hkw
      rw [ih hnext (Nat.le_of_succ_le_succ hleft)]
      simp [hkw]

/-- **`at_resp_get_line_by_kw` gives the first string with the keyword.** -/
theorem getLineByKw_stores (h : Stores resp text) (keyword : List UInt8) :
    atRespGetLineByKw resp keyword =
      some (((strings text).take resp.lineCounts).find? (keyword <:+: ·)) :=
  getLineByKwFrom_stores keyword (by rw [List.drop_zero, ← h.takes, List.take_append_drop])
    h.counts

/-! ### Storing the lines -/

theorem stores_create (bufSize lineNum : ℕ) : Stores (atCreateResp bufSize lineNum) [] :=
  ⟨⟨List.length_replicate, Nat.zero_le _, rfl⟩, le_rfl⟩

theorem Filled.length_text (h : Filled resp text) : text.length = resp.bufLen := by
  rw [← h.takes, List.length_take, Nat.min_eq_left (h.fits.trans_eq h.size.symm)]

/-- A line is a string more, or several if it has zeros in it. -/
theorem length_strings_stored (text line : List UInt8) :
    (strings text).length + 1 ≤ (strings (text ++ stored line)).length := by
  rw [length_strings, length_strings, stored, List.count_append, List.count_append,
    List.count_singleton_self]
  omega

/-- The strings of lines without zeros. -/
theorem strings_flatMap (hzero : ∀ l ∈ lines, 0 ∉ l.dropLast) :
    strings (lines.flatMap stored) = lines.map List.dropLast := by
  induction lines with
  | nil => rfl
  | cons line lines ih =>
    rw [List.flatMap_cons, stored, List.append_assoc, List.singleton_append,
      strings_append_zero (hzero line (List.mem_cons_self ..)),
      ih fun l hl => hzero l (List.mem_cons_of_mem _ hl), List.map_cons]

theorem Filled.copy (h : Filled resp text) {resp' : AtResponse}
    (hcopy : resp.copy (stored line) = some resp') :
    Filled resp' (text ++ stored line) ∧ resp'.lineCounts = resp.lineCounts + 1 := by
  unfold AtResponse.copy at hcopy
  split at hcopy
  · rename_i hroom
    obtain rfl := Option.some_inj.1 hcopy
    have hbefore : (resp.buf.take resp.bufLen ++ stored line).length =
        resp.bufLen + (stored line).length := by
      rw [List.length_append, List.length_take, Nat.min_eq_left (h.fits.trans_eq h.size.symm)]
    refine ⟨⟨?_, hroom.le, ?_⟩, rfl⟩
    · simp only [List.length_append, List.length_drop, List.length_take, h.size]
      omega
    · rw [List.take_left' hbefore, h.takes]
  · cases hcopy

theorem respLine_fst (status : AtRespStatus) :
    (respLine resp status line).1 = (resp.copy (stored line)).getD resp := by
  unfold respLine
  cases resp.copy (stored line) with
  | none =>
    simp only
    split <;> rfl
  | some resp' =>
    simp only
    split <;> rfl

/-- A line of a response in any case. -/
theorem Filled.respLine (h : Filled resp text) (status : AtRespStatus) (line : List UInt8) :
    ∃ text', Filled (respLine resp status line).1 text' ∧
      (resp.lineCounts ≤ (strings text).length →
        (At.respLine resp status line).1.lineCounts ≤ (strings text').length) := by
  rw [respLine_fst]
  cases hcopy : resp.copy (stored line) with
  | none => exact ⟨text, h, id⟩
  | some resp' =>
    obtain ⟨hfilled, hcounts⟩ := h.copy hcopy
    refine ⟨_, hfilled, fun hle => ?_⟩
    rw [Option.getD_some, hcounts]
    exact (Nat.succ_le_succ hle).trans (length_strings_stored text line)

/-! ### The lines kept -/

/-- The lines kept in a buffer of `size` characters, one more line. -/
def keep (size : ℕ) (kept : List (List UInt8)) (line : List UInt8) : List (List UInt8) :=
  if (kept.flatMap stored).length + (stored line).length < size then kept ++ [line] else kept

/-- The lines kept of a response, and how it ends, if it does. -/
def reply (size lineNum : ℕ) :
    List (List UInt8) → List (List UInt8) → List (List UInt8) × Option AtRespStatus
  | kept, [] => (kept, none)
  | kept, line :: lines =>
    match checkResult lineNum (keep size kept line).length (stored line) with
    | some status => (keep size kept line, some status)
    | none => reply size lineNum (keep size kept line) lines

/-- The response holds the lines, which are those counted. -/
structure Holds (size lineNum : ℕ) (lines : List (List UInt8)) (resp : AtResponse) : Prop where
  stores : Stores resp (lines.flatMap stored)
  counts : resp.lineCounts = lines.length
  size : resp.bufSize = size
  lineNum : resp.lineNum = lineNum

variable {size lineNum : ℕ}

theorem Holds.copy (h : Holds size lineNum lines resp) :
    Holds size lineNum (keep size lines line) ((resp.copy (stored line)).getD resp) := by
  have hlen := h.stores.length_text
  cases hcopy : resp.copy (stored line) with
  | none =>
    have hfull : keep size lines line = lines := by
      refine if_neg fun hroom => ?_
      rw [hlen, ← h.size] at hroom
      rw [AtResponse.copy, if_pos hroom] at hcopy
      cases hcopy
    rw [hfull]
    exact h
  | some resp' =>
    obtain ⟨hfilled, hcount⟩ := h.stores.copy hcopy
    unfold AtResponse.copy at hcopy
    split at hcopy
    · rename_i hroom
      have hkeep : keep size lines line = lines ++ [line] := if_pos (by rwa [hlen, ← h.size])
      obtain rfl := Option.some_inj.1 hcopy
      rw [hkeep]
      refine ⟨?_, ?_, h.size, h.lineNum⟩
      · rw [List.flatMap_append, List.flatMap_singleton]
        exact ⟨hfilled, (Nat.succ_le_succ h.stores.counts).trans (length_strings_stored _ line)⟩
      · rw [List.length_append, List.length_singleton, ← h.counts]
        rfl
    · cases hcopy

/-- **A line of a response.** -/
theorem respLine_holds (h : Holds size lineNum lines resp) (status : AtRespStatus)
    (line : List UInt8) :
    ∃ resp' status', Holds size lineNum (keep size lines line) resp' ∧
      respLine resp status line =
        match checkResult lineNum (keep size lines line).length (stored line) with
        | some status => (resp', status, true)
        | none => (resp', status', false) := by
  have hnext := @Holds.copy resp lines line size lineNum h
  refine ⟨_, if (resp.copy (stored line)).isSome then status else .buffFull, hnext, ?_⟩
  rw [← hnext.counts, ← hnext.lineNum]
  unfold respLine
  cases resp.copy (stored line) with
  | none => rfl
  | some resp' => rfl

/-! ### Whole responses -/

theorem reply_append (kept ls ls' : List (List UInt8)) :
    reply size lineNum kept (ls ++ ls') =
      match (reply size lineNum kept ls).2 with
      | some _ => reply size lineNum kept ls
      | none => reply size lineNum (reply size lineNum kept ls).1 ls' := by
  induction ls generalizing kept with
  | nil => rfl
  | cons line ls ih =>
    rw [List.cons_append, reply, reply]
    cases checkResult lineNum (keep size kept line).length (stored line) with
    | some status => rfl
    | none => exact ih _

/-- The lines of a response one after the other, up to its end. -/
def respLines : AtResponse → AtRespStatus → List (List UInt8) → AtResponse × AtRespStatus × Bool
  | resp, status, [] => (resp, status, false)
  | resp, status, line :: lines =>
    match respLine resp status line with
    | (resp, status, true) => (resp, status, true)
    | (resp, status, false) => respLines resp status lines

/-- **The lines of a response.** -/
theorem respLines_reply {kept : List (List UInt8)} (h : Holds size lineNum kept resp)
    (status : AtRespStatus) (lines : List (List UInt8)) :
    ∃ resp' status', Holds size lineNum (reply size lineNum kept lines).1 resp' ∧
      respLines resp status lines =
        match (reply size lineNum kept lines).2 with
        | some status => (resp', status, true)
        | none => (resp', status', false) := by
  induction lines generalizing kept resp status with
  | nil => exact ⟨resp, status, h, rfl⟩
  | cons line lines ih =>
    obtain ⟨resp', status', hnext, hline⟩ := respLine_holds h status line
    rw [respLines, reply]
    cases hcheck : checkResult lineNum (keep size kept line).length (stored line) with
    | some st =>
      rw [hcheck] at hline
      rw [hline]
      exact ⟨resp', st, hnext, rfl⟩
    | none =>
      rw [hcheck] at hline
      rw [hline]
      exact ih hnext status'

theorem holds_create (size lineNum : ℕ) : Holds size lineNum [] (atCreateResp size lineNum) :=
  ⟨stores_create size lineNum, rfl, rfl, rfl⟩

theorem Holds.getLine (h : Holds size lineNum lines resp) (hzero : ∀ l ∈ lines, 0 ∉ l.dropLast)
    (k : ℕ) : atRespGetLine resp k =
      some (if k = 0 then none else (lines.map List.dropLast)[k - 1]?) := by
  rw [getLine_stores h.stores, strings_flatMap hzero, h.counts,
    List.take_of_length_le (by rw [List.length_map])]

theorem Holds.getLineByKw (h : Holds size lineNum lines resp)
    (hzero : ∀ l ∈ lines, 0 ∉ l.dropLast) (keyword : List UInt8) :
    atRespGetLineByKw resp keyword =
      some ((lines.map List.dropLast).find? (keyword <:+: ·)) := by
  rw [getLineByKw_stores h.stores, strings_flatMap hzero, h.counts,
    List.take_of_length_le (by rw [List.length_map])]

theorem mem_keep {kept : List (List UInt8)} {l : List UInt8} (h : l ∈ keep size kept line) :
    l ∈ kept ∨ l = line := by
  unfold keep at h
  split at h
  · simpa using h
  · exact Or.inl h

theorem mem_reply {kept : List (List UInt8)} {l : List UInt8}
    (h : l ∈ (reply size lineNum kept lines).1) : l ∈ kept ∨ l ∈ lines := by
  induction lines generalizing kept with
  | nil => exact Or.inl h
  | cons line lines ih =>
    have hline : l ∈ keep size kept line → l ∈ kept ∨ l ∈ line :: lines := fun hl =>
      (mem_keep hl).imp_right fun heq => List.mem_cons.2 (Or.inl heq)
    rw [reply] at h
    split at h
    · exact hline h
    · rcases ih h with hl | hl
      · exact hline hl
      · exact Or.inr (List.mem_cons_of_mem _ hl)

/-- **The lines of a response are found again.**  Of a response of lines without zeros,
`at_resp_get_line` gives the lines kept, in order and without their last characters, and `RT_NULL`
for every other number, and `at_resp_get_line_by_kw` the first of them with the keyword. -/
theorem response_found (size lineNum : ℕ) (hzero : ∀ l ∈ lines, 0 ∉ l.dropLast) :
    (∀ k, atRespGetLine (respLines (atCreateResp size lineNum) .ok lines).1 k =
      some (if k = 0 then none
        else ((reply size lineNum [] lines).1.map List.dropLast)[k - 1]?)) ∧
      ∀ keyword, atRespGetLineByKw (respLines (atCreateResp size lineNum) .ok lines).1 keyword =
        some (((reply size lineNum [] lines).1.map List.dropLast).find? (keyword <:+: ·)) := by
  obtain ⟨resp', status', hholds, hlines⟩ := respLines_reply (holds_create size lineNum) .ok lines
  have hresp : (respLines (atCreateResp size lineNum) .ok lines).1 = resp' := by
    rw [hlines]
    split <;> rfl
  have hkept : ∀ l ∈ (reply size lineNum [] lines).1, 0 ∉ l.dropLast := fun l hl =>
    hzero l ((mem_reply hl).resolve_left List.not_mem_nil)
  rw [hresp]
  exact ⟨hholds.getLine hkept, hholds.getLineByKw hkept⟩

/-- In a buffer of eight characters the second line does not fit, the third one does. -/
theorem response_found_eight :
    atRespGetLine (respLines (atCreateResp 8 0) .ok
      [[0x61, 0x0d, 0x0a], [0x62, 0x62, 0x62, 0x0d, 0x0a], [0x4f, 0x4b, 0x0d, 0x0a]]).1 2 =
        some (some [0x4f, 0x4b, 0x0d]) :=
  ((response_found 8 0 (forall_mem_of_all (by decide))).1 2).trans (by decide)

theorem reply_status (size size' : ℕ) (kept kept' lines : List (List UInt8)) :
    (reply size 0 kept lines).2 = (reply size' 0 kept' lines).2 := by
  induction lines generalizing kept kept' with
  | nil => rfl
  | cons line lines ih =>
    have hcheck : ∀ n, checkResult 0 n (stored line) = checkResult 0 0 (stored line) := fun n => by
      simp [checkResult]
    rw [reply, reply, hcheck, hcheck (keep size' kept' line).length]
    cases checkResult 0 0 (stored line) with
    | none => exact ih _ _
    | some status => rfl

theorem checkResult_cases {lineCounts : ℕ} {status : AtRespStatus}
    (h : checkResult lineNum lineCounts line = some status) :
    status = .ok ∨ status = .error := by
  unfold checkResult at h
  split_ifs at h <;> cases h
  · exact Or.inl rfl
  · exact Or.inr rfl
  · exact Or.inl rfl

theorem reply_cases {kept : List (List UInt8)} {status : AtRespStatus}
    (h : (reply size lineNum kept lines).2 = some status) : status = .ok ∨ status = .error := by
  induction lines generalizing kept with
  | nil => cases h
  | cons line lines ih =>
    rw [reply] at h
    split at h
    · rename_i hcheck
      cases h
      exact checkResult_cases hcheck
    · exact ih h

/-- **Lines that do not fit show nowhere in the status.**  Without a number of lines set, a response
ends at the same line and with the same status for every size of its buffer, and never with
`AT_RESP_BUFF_FULL`. -/
theorem status_ignores_size (size size' : ℕ) (lines : List (List UInt8)) :
    (respLines (atCreateResp size 0) .ok lines).2.2 =
        (respLines (atCreateResp size' 0) .ok lines).2.2 ∧
      ((respLines (atCreateResp size 0) .ok lines).2.2 = true →
        (respLines (atCreateResp size 0) .ok lines).2.1 =
            (respLines (atCreateResp size' 0) .ok lines).2.1 ∧
          (respLines (atCreateResp size 0) .ok lines).2.1 ≠ .buffFull) := by
  obtain ⟨_, _, -, hlines⟩ := respLines_reply (holds_create size 0) .ok lines
  obtain ⟨_, _, -, hlines'⟩ := respLines_reply (holds_create size' 0) .ok lines
  rw [reply_status size' size [] []] at hlines'
  rw [hlines, hlines']
  cases hend : (reply size 0 [] lines).2 with
  | none => exact ⟨rfl, fun h => by cases h⟩
  | some status =>
    refine ⟨rfl, fun _ => ⟨rfl, ?_⟩⟩
    rcases reply_cases hend with rfl | rfl
    · exact AtRespStatus.noConfusion
    · exact AtRespStatus.noConfusion

end At
end AccTx
