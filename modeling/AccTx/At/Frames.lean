/-
# The messages in a stream

What the parser of the AT client makes of the characters it is given, in terms of the stream alone.
A message is a line, and behind the line of a URC the characters its function takes.  The line ends
where it first can: at a carriage return and a line feed, at the end sign, or where the buffer is
that of a URC.  A line that is longer than the buffer is dropped.

After a part of a message the parser is in the state `readerOf` that part, and the character that
completes it yields the message (`clientParser_readerOf`).  So the parser yields the messages of the
frames of the stream (`parser_frames`), whatever comes; and of a stream put together from messages
it yields these (`received_messages`).
-/

import AccTx.At.Client
import AccTx.Series.Framing

namespace AccTx
namespace At

open Effect Series

variable {conf : AtConf} {cs : List UInt8} {m : List (Option UInt8)}

/-- A line ends here. -/
def LineEnds (conf : AtConf) (cs : List UInt8) : Prop :=
  [0x0d, 0x0a] <:+ cs ∨ (conf.endSign ≠ 0 ∧ cs.getLast? = some conf.endSign) ∨
    (getUrcObj conf (cs.take conf.recvBufsz) (cs.take conf.recvBufsz).length).isSome

instance (conf : AtConf) (cs : List UInt8) : Decidable (LineEnds conf cs) :=
  inferInstanceAs (Decidable (_ ∨ _))

/-- The same of what the parser is given. -/
def lineEnds (conf : AtConf) (m : List (Option UInt8)) : Bool :=
  m.reduceOption ≠ [] ∧ LineEnds conf m.reduceOption

/-- The URC of a line whose function takes characters, and how many. -/
def taking (conf : AtConf) (line : List UInt8) : Option (AtUrc × ℕ) :=
  if conf.recvBufsz < line.length then none
  else
    (getUrcObj conf line line.length).bind fun urc =>
      urc.func.bind fun func => if 0 < func line then some (urc, func line) else none

/-- A line that no characters are taken behind. -/
def lineMessage (conf : AtConf) (line : List UInt8) : AtMessage :=
  if conf.recvBufsz < line.length then .full
  else
    match getUrcObj conf line line.length with
    | none => .line line
    | some urc => .urc urc line (some [])

/-- The characters behind a line are complete. -/
def dataEnds (conf : AtConf) (line data : List (Option UInt8)) : Bool :=
  match taking conf line.reduceOption with
  | none => true
  | some (_, size) => size ≤ data.reduceOption.length ∨ none ∈ data

/-- A message ends here. -/
def messageEnds (conf : AtConf) : List (Option UInt8) → Bool :=
  headed (lineEnds conf) (dataEnds conf)

/-- The message of a line with the characters behind it. -/
def messageOf (conf : AtConf) (line data : List (Option UInt8)) : AtMessage :=
  match taking conf line.reduceOption with
  | none => lineMessage conf line.reduceOption
  | some (urc, _) =>
    .urc urc line.reduceOption (if none ∈ data then none else some data.reduceOption)

/-- The message of a frame. -/
def atMessage (conf : AtConf) (m : List (Option UInt8)) : AtMessage :=
  match splitHeader (lineEnds conf) m with
  | none => .full
  | some (line, data) => messageOf conf line data

/-- The parser in a line. -/
def lineReader (conf : AtConf) (cs : List UInt8) : AtReader where
  recvLineBuf := padded conf.recvBufsz (cs.take conf.recvBufsz)
  recvLineLen := (cs.take conf.recvBufsz).length
  point := .readline (cs.getLast?.getD 0) (conf.recvBufsz < cs.length)

/-- The parser behind a line. -/
def dataReader (conf : AtConf) (line data : List UInt8) : AtReader :=
  match taking conf line with
  | none => startLine conf
  | some (urc, size) =>
    { recvLineBuf := padded conf.recvBufsz line
      recvLineLen := line.length
      point := .recv urc size data }

/-- The parser after a part of a message. -/
def readerOf (conf : AtConf) (m : List (Option UInt8)) : AtReader :=
  match splitHeader (lineEnds conf) m with
  | none => lineReader conf m.reduceOption
  | some (line, data) => dataReader conf line.reduceOption data.reduceOption

/-! ### The line buffer -/

theorem matches_padded {n : ℕ} (urc : AtUrc) :
    urc.Matches (padded n cs) cs.length ↔ urc.Matches cs cs.length := by
  unfold AtUrc.Matches
  simp only [not_lt]
  refine and_congr_right fun hlen => ?_
  have hpre : (padded n cs).take urc.cmdPrefix.length = cs.take urc.cmdPrefix.length := by
    rw [padded, List.take_append_of_le_length (by omega)]
  have hsuf : ((padded n cs).drop (cs.length - urc.cmdSuffix.length)).take urc.cmdSuffix.length =
      (cs.drop (cs.length - urc.cmdSuffix.length)).take urc.cmdSuffix.length := by
    rw [padded, List.drop_append_of_le_length (by omega),
      List.take_append_of_le_length (by rw [List.length_drop]; omega)]
  rw [hpre, hsuf]

theorem getUrcObj_padded {n : ℕ} :
    getUrcObj conf (padded n cs) cs.length = getUrcObj conf cs cs.length := by
  unfold getUrcObj
  congr 1
  funext urc
  exact decide_eq_decide.2 (matches_padded urc)

/-- The parser at the beginning of a line. -/
theorem readerOf_nil : readerOf conf [] = startLine conf := by
  rw [readerOf, splitHeader_part isPart_nil]
  simp [lineReader, startLine, padded]

theorem crlf_concat {ch : UInt8} :
    [0x0d, 0x0a] <:+ cs ++ [ch] ↔ ch = 0x0a ∧ cs.getLast?.getD 0 = 0x0d := by
  rw [← List.reverse_prefix, List.reverse_append, List.getLast?_eq_head?_reverse]
  show [0x0a, 0x0d] <+: ch :: cs.reverse ↔ _
  rw [List.cons_prefix_cons, eq_comm]
  refine and_congr_right fun _ => ?_
  cases cs.reverse with
  | nil => simp
  | cons c r => rw [List.cons_prefix_cons, and_iff_left (List.nil_prefix), eq_comm]; rfl

theorem lineEnds_concat {ch : UInt8} : LineEnds conf (cs ++ [ch]) ↔
    (ch = 0x0a ∧ cs.getLast?.getD 0 = 0x0d) ∨ (conf.endSign ≠ 0 ∧ ch = conf.endSign) ∨
      (getUrcObj conf ((cs ++ [ch]).take conf.recvBufsz)
        ((cs ++ [ch]).take conf.recvBufsz).length).isSome := by
  rw [LineEnds, crlf_concat, List.getLast?_concat, Option.some.injEq]

/-- A character is put into the line buffer, if there is room. -/
theorem putc_padded {n : ℕ} (cs : List UInt8) (ch : UInt8) :
    ((cs ++ [ch]).take n = if (cs.take n).length < n then cs.take n ++ [ch] else cs.take n) ∧
      ((cs.take n).length < n ↔ cs.length < n) := by
  have hlen : (cs.take n).length < n ↔ cs.length < n := by
    rw [List.length_take]
    omega
  refine ⟨?_, hlen⟩
  split
  · rename_i h
    have hlt := hlen.1 h
    rw [List.take_of_length_le (by omega : cs.length ≤ n),
      List.take_of_length_le (by rw [List.length_append, List.length_singleton]; omega)]
  · rename_i h
    exact List.take_append_of_le_length (Nat.le_of_not_lt fun hlt => h (hlen.2 hlt))

/-- **A character in a line.** -/
theorem atRecvReadline_lineReader (cs : List UInt8) (ch : UInt8) :
    atRecvReadline conf (lineReader conf cs) (cs.getLast?.getD 0) (conf.recvBufsz < cs.length) ch =
      if LineEnds conf (cs ++ [ch]) then
        if conf.recvBufsz < (cs ++ [ch]).length then (startLine conf, some .full)
        else parseLine conf
          { lineReader conf (cs ++ [ch]) with point := (lineReader conf cs).point }
      else (lineReader conf (cs ++ [ch]), none) := by
  obtain ⟨htake, hroom⟩ := @putc_padded conf.recvBufsz cs ch
  have hbuf : (if (cs.take conf.recvBufsz).length < conf.recvBufsz then
        { lineReader conf cs with
          recvLineBuf := (lineReader conf cs).recvLineBuf.set (cs.take conf.recvBufsz).length ch
          recvLineLen := (cs.take conf.recvBufsz).length + 1 }
      else lineReader conf cs) =
      { lineReader conf (cs ++ [ch]) with point := (lineReader conf cs).point } := by
    simp only [lineReader, htake]
    split
    · rename_i hlt
      have hset := store_padded hlt (x := ch)
      rw [store, length_padded hlt.le, if_pos hlt] at hset
      rw [Option.some_inj.1 hset, List.length_append, List.length_singleton]
    · rfl
  have hfull : (decide (conf.recvBufsz < cs.length) ||
      !decide ((cs.take conf.recvBufsz).length < conf.recvBufsz)) =
        decide (conf.recvBufsz < (cs ++ [ch]).length) := by
    rw [Bool.eq_iff_iff]
    simp
    omega
  have hlast : (cs ++ [ch]).getLast?.getD 0 = ch := by rw [List.getLast?_concat, Option.getD_some]
  have hurc : getUrcObj conf (lineReader conf (cs ++ [ch])).recvLineBuf
      (lineReader conf (cs ++ [ch])).recvLineLen = getUrcObj conf
        ((cs ++ [ch]).take conf.recvBufsz) ((cs ++ [ch]).take conf.recvBufsz).length :=
    getUrcObj_padded
  unfold atRecvReadline
  simp only [show (lineReader conf cs).recvLineLen = (cs.take conf.recvBufsz).length from rfl,
    hbuf, hurc, ← lineEnds_concat, hfull, decide_eq_true_eq]
  have hstop : ({ lineReader conf (cs ++ [ch]) with
      point := .readline ch (conf.recvBufsz < (cs ++ [ch]).length) } : AtReader) =
        lineReader conf (cs ++ [ch]) := by
    simp only [lineReader, hlast]
  rw [hstop]

/-- **A line in the buffer.** -/
theorem parseLine_eq {line : List UInt8} (h : ¬conf.recvBufsz < line.length) (point : AtPoint) :
    parseLine conf { lineReader conf line with point := point } =
      match taking conf line with
      | none => (startLine conf, some (lineMessage conf line))
      | some _ => (dataReader conf line [], none) := by
  have htake : line.take conf.recvBufsz = line := List.take_of_length_le (Nat.le_of_not_lt h)
  have hbuf : (padded conf.recvBufsz line).take line.length = line := take_padded
  have hurc : getUrcObj conf (padded conf.recvBufsz line) line.length =
      getUrcObj conf line line.length := getUrcObj_padded
  unfold parseLine
  simp only [lineReader, htake, hbuf, hurc]
  have htaking : taking conf line = (getUrcObj conf line line.length).bind fun urc =>
      urc.func.bind fun func => if 0 < func line then some (urc, func line) else none := if_neg h
  rw [dataReader, lineMessage, if_neg h, htaking]
  cases hu : getUrcObj conf line line.length with
  | none => rfl
  | some urc =>
    rw [Option.bind_some]
    simp only
    cases hf : urc.func with
    | none => rfl
    | some func =>
      rw [Option.bind_some]
      simp only
      split <;> rfl

theorem reduceOption_concat_none : (m ++ [none]).reduceOption = m.reduceOption := by
  rw [List.reduceOption_append, List.reduceOption_cons_of_none, List.reduceOption_nil,
    List.append_nil]

theorem reduceOption_concat_some {ch : UInt8} :
    (m ++ [some ch]).reduceOption = m.reduceOption ++ [ch] := by
  rw [List.reduceOption_append, List.reduceOption_singleton]
  rfl

/-- A wait in a line does not end it. -/
theorem lineEnds_concat_none (h : IsPart (lineEnds conf) m) :
    lineEnds conf (m ++ [none]) = false := by
  rw [lineEnds, reduceOption_concat_none, ← lineEnds]
  rcases eq_or_ne m [] with rfl | hne
  · rfl
  · exact h m List.prefix_rfl hne

theorem lineEnds_concat_some {ch : UInt8} :
    lineEnds conf (m ++ [some ch]) = true ↔ LineEnds conf (m.reduceOption ++ [ch]) := by
  simp [lineEnds, reduceOption_concat_some]

/-- What a message is made of. -/
theorem atMessage_append {line data : List (Option UInt8)} (h : IsFrame (lineEnds conf) line) :
    atMessage conf (line ++ data) = messageOf conf line data := by
  rw [atMessage, splitHeader_frame h]

theorem readerOf_part (h : IsPart (lineEnds conf) m) :
    readerOf conf m = lineReader conf m.reduceOption := by
  rw [readerOf, splitHeader_part h]

theorem readerOf_append {line data : List (Option UInt8)} (h : IsFrame (lineEnds conf) line) :
    readerOf conf (line ++ data) = dataReader conf line.reduceOption data.reduceOption := by
  rw [readerOf, splitHeader_frame h]

/-- The parser goes on in the message, or yields it. -/
def Follows (conf : AtConf) (m : List (Option UInt8)) (c : Option UInt8) : Prop :=
  clientParser conf (readerOf conf m) c =
    (readerOf conf (collect (messageEnds conf) m c),
      (complete (messageEnds conf) m c).map (atMessage conf))

theorem follows_of_part {c : Option UInt8} (h : messageEnds conf (m ++ [c]) = false)
    (hparser : clientParser conf (readerOf conf m) c = (readerOf conf (m ++ [c]), none)) :
    Follows conf m c := by
  rw [Follows, collect, complete, h]
  exact hparser

theorem follows_of_frame {c : Option UInt8} (h : messageEnds conf (m ++ [c]) = true)
    (hparser : clientParser conf (readerOf conf m) c =
      (startLine conf, some (atMessage conf (m ++ [c])))) :
    Follows conf m c := by
  rw [Follows, collect, complete, h, hparser, if_pos rfl, if_pos rfl, readerOf_nil]
  rfl

theorem taking_pos {line : List UInt8} {urc : AtUrc} {size : ℕ}
    (h : taking conf line = some (urc, size)) : 0 < size := by
  unfold taking at h
  split at h
  · cases h
  · obtain ⟨_, -, h⟩ := Option.bind_eq_some_iff.1 h
    obtain ⟨func, -, h⟩ := Option.bind_eq_some_iff.1 h
    split at h
    · cases h
      assumption
    · cases h

/-- The character that ends a line. -/
theorem follows_newline (h : IsPart (lineEnds conf) m) {ch : UInt8}
    (hends : LineEnds conf (m.reduceOption ++ [ch]))
    (hchar : clientParser conf (readerOf conf m) (some ch) =
      if conf.recvBufsz < (m.reduceOption ++ [ch]).length then (startLine conf, some .full)
      else parseLine conf { lineReader conf (m.reduceOption ++ [ch]) with
        point := (lineReader conf m.reduceOption).point }) : Follows conf m (some ch) := by
  have hframe : IsFrame (lineEnds conf) (m ++ [some ch]) :=
    ⟨by simp, lineEnds_concat_some.2 hends, by rwa [List.dropLast_concat]⟩
  have hdata := @headed_append _ _ (dataEnds conf) _ [] hframe
  have hmessage := @atMessage_append conf _ [] hframe
  have hbehind := @readerOf_append conf _ [] hframe
  rw [List.append_nil] at hdata hmessage hbehind
  rw [dataEnds, reduceOption_concat_some] at hdata
  rw [messageOf, reduceOption_concat_some] at hmessage
  rw [reduceOption_concat_some, List.reduceOption_nil] at hbehind
  split at hchar
  · rename_i hfull
    have htaking : taking conf (m.reduceOption ++ [ch]) = none := if_pos hfull
    rw [htaking] at hdata hmessage
    refine follows_of_frame hdata ?_
    rw [hchar, hmessage, lineMessage, if_pos hfull]
  · rename_i hfits
    rw [parseLine_eq hfits] at hchar
    cases htaking : taking conf (m.reduceOption ++ [ch]) with
    | none =>
      rw [htaking] at hdata hmessage hchar
      refine follows_of_frame hdata ?_
      rw [hchar, hmessage]
    | some p =>
      have hpos : ¬p.2 ≤ 0 := Nat.not_le.2 (taking_pos htaking)
      rw [htaking] at hdata hchar
      refine follows_of_part (hdata.trans ?_) ?_
      · simp [hpos]
      · rw [hchar, hbehind]

/-- A character of a line, or a wait in it. -/
theorem follows_line (h : IsPart (lineEnds conf) m) (c : Option UInt8) : Follows conf m c := by
  have hreader := readerOf_part h
  cases c with
  | none =>
    have hpart := h.concat (lineEnds_concat_none h)
    refine follows_of_part ?_ ?_
    · rw [messageEnds, headed, splitHeader_part hpart]
    · rw [readerOf_part hpart, reduceOption_concat_none, hreader]
      rfl
  | some ch =>
    have hchar := @atRecvReadline_lineReader conf m.reduceOption ch
    by_cases hends : LineEnds conf (m.reduceOption ++ [ch])
    · refine follows_newline h hends ?_
      rw [if_pos hends] at hchar
      rw [hreader]
      exact hchar
    · have hpart : IsPart (lineEnds conf) (m ++ [some ch]) :=
        h.concat (Bool.eq_false_iff.2 fun he => hends (lineEnds_concat_some.1 he))
      refine follows_of_part ?_ ?_
      · rw [messageEnds, headed, splitHeader_part hpart]
      · rw [if_neg hends] at hchar
        rw [readerOf_part hpart, reduceOption_concat_some, hreader]
        exact hchar

theorem clientParser_recv {buf data : List UInt8} {len size : ℕ} {urc : AtUrc} (c : Option UInt8) :
    clientParser conf ⟨buf, len, .recv urc size data⟩ c =
      atClientObjRecv conf ⟨buf, len, .recv urc size data⟩ urc size data c := by
  cases c <;> rfl

/-- A character behind a line, or a wait there. -/
theorem follows_data {line data : List (Option UInt8)} (h : IsFrame (lineEnds conf) line)
    (hdata : dataEnds conf line data = false) (c : Option UInt8) :
    Follows conf (line ++ data) c := by
  have hends := @headed_append _ _ (dataEnds conf) _ (data ++ [c]) h
  have hmessage := @atMessage_append conf _ (data ++ [c]) h
  have hbehind := @readerOf_append conf _ (data ++ [c]) h
  have hreader := @readerOf_append conf _ data h
  rw [← List.append_assoc] at hends hmessage hbehind
  rw [dataEnds] at hends hdata
  rw [messageOf] at hmessage
  rw [dataReader] at hbehind hreader
  cases htaking : taking conf line.reduceOption with
  | none =>
    rw [htaking] at hdata
    cases hdata
  | some p =>
    obtain ⟨urc, size⟩ := p
    rw [htaking] at hends hdata hmessage hbehind hreader
    simp only [decide_eq_false_iff_not, not_or] at hdata
    obtain ⟨hsize, hcame⟩ := hdata
    have hline : (padded conf.recvBufsz line.reduceOption).take line.reduceOption.length =
        line.reduceOption := take_padded
    cases c with
    | none =>
      refine follows_of_frame (hends.trans (by simp)) ?_
      rw [hreader, hmessage, clientParser_recv, atClientObjRecv]
      simp [hline]
    | some ch =>
      rw [reduceOption_concat_some] at hends hmessage hbehind
      have hnone : none ∉ data ++ [some ch] := by simpa using hcame
      by_cases hmore : (data.reduceOption ++ [ch]).length < size
      · refine follows_of_part (hends.trans ?_) ?_
        · simp only [decide_eq_false_iff_not, not_or]
          exact ⟨Nat.not_le.2 hmore, hnone⟩
        · rw [hreader, hbehind, clientParser_recv, atClientObjRecv, if_pos hmore]
      · refine follows_of_frame (hends.trans ?_) ?_
        · simp only [decide_eq_true_eq]
          exact Or.inl (Nat.not_lt.1 hmore)
        · rw [hreader, hmessage, clientParser_recv, atClientObjRecv, if_neg hmore]
          simp [hline, hcame]

/-- **One step of the parser.** -/
theorem clientParser_readerOf (h : IsPart (messageEnds conf) m) (c : Option UInt8) :
    Follows conf m c := by
  rcases splitHeader_cases (lineEnds conf) m with ⟨hpart, -⟩ | ⟨line, data, rfl, hframe, -⟩
  · exact follows_line hpart c
  · have hne : line ++ data ≠ [] := fun hnil => hframe.nonempty (List.append_eq_nil_iff.1 hnil).1
    have hopen : messageEnds conf (line ++ data) = false := h _ List.prefix_rfl hne
    rw [messageEnds, headed_append hframe] at hopen
    exact follows_data hframe hopen c

/-! ### The messages -/

/-- What the parser yields in a run. -/
def received (conf : AtConf) (r : AtReader) (input : List (Option UInt8)) : List AtMessage :=
  (outputs (fun r c => (clientParser conf r c).1) (fun r c => (clientParser conf r c).2) r
    input).reduceOption

/-- The parser after a run. -/
def parserAfter (conf : AtConf) (r : AtReader) (input : List (Option UInt8)) : AtReader :=
  input.foldl (fun r c => (clientParser conf r c).1) r

theorem parser_frames (h : IsPart (messageEnds conf) m) (input : List (Option UInt8)) :
    received conf (readerOf conf m) input =
        (frames (messageEnds conf) m input).map (atMessage conf) ∧
      parserAfter conf (readerOf conf m) input =
        readerOf conf (leftOver (messageEnds conf) m input) := by
  obtain ⟨hout, hstate⟩ := @outputs_simulates_of _ _ _ _ (collect (messageEnds conf))
    (IsPart (messageEnds conf)) (fun r c => (clientParser conf r c).1) (readerOf conf)
    (fun m c => (complete (messageEnds conf) m c).map (atMessage conf))
    (fun r c => (clientParser conf r c).2) (fun _ c h => h.collect c)
    (fun _ c h => (congrArg Prod.fst (clientParser_readerOf h c)).symm)
    (fun _ c h => (congrArg Prod.snd (clientParser_readerOf h c)).symm) m h input
  rw [← frames_map, hout]
  exact ⟨rfl, hstate.symm⟩

/-- **The parser takes every stream apart.**  Whatever it is given, from the beginning of a line on,
it yields the messages of parts of the stream, of which each ends where a message first can, in
order and without a gap, up to a part that is not a message yet. -/
theorem received_frames (conf : AtConf) (input : List (Option UInt8)) :
    ∃ (ms : List (List (Option UInt8))) (rest : List (Option UInt8)),
      ms.flatten ++ rest = input ∧ (∀ m ∈ ms, IsFrame (messageEnds conf) m) ∧
      IsPart (messageEnds conf) rest ∧
      received conf (startLine conf) input = ms.map (atMessage conf) ∧
      parserAfter conf (startLine conf) input = readerOf conf rest := by
  have hall := @flatten_frames _ (messageEnds conf) [] input
  obtain ⟨hframes, hrest⟩ := isFrame_frames (@isPart_nil _ (messageEnds conf)) input
  have hparser := @parser_frames conf [] isPart_nil input
  rw [readerOf_nil] at hparser
  exact ⟨_, _, hall, hframes, hrest, hparser⟩

/-! ### Messages sent -/

/-- The characters of a message. -/
def AtMessage.text : AtMessage → List UInt8
  | .line l => l
  | .urc _ l data => l ++ data.getD []
  | .full => []

/-- A line that ends at its end only, and fits. -/
def IsLine (conf : AtConf) (line : List UInt8) : Prop :=
  LineEnds conf line ∧ line ≠ [] ∧ line.length ≤ conf.recvBufsz ∧
    ∀ k < line.length, 0 < k → ¬LineEnds conf (line.take k)

instance (conf : AtConf) (line : List UInt8) : Decidable (IsLine conf line) :=
  inferInstanceAs (Decidable (_ ∧ _))

/-- A line that is no URC, or one with as many characters behind it as its function takes. -/
def AtMessage.Sendable (conf : AtConf) : AtMessage → Prop
  | .line l => IsLine conf l ∧ getUrcObj conf l l.length = none
  | .urc u l (some data) => IsLine conf l ∧ getUrcObj conf l l.length = some u ∧
      data.length = (u.func.map (· l)).getD 0
  | .urc _ _ none => False
  | .full => False

theorem reduceOption_map_some (l : List UInt8) : (l.map some).reduceOption = l := by
  induction l with
  | nil => rfl
  | cons ch l ih => rw [List.map_cons, List.reduceOption_cons_of_some, ih]

theorem lineEnds_map_some {line : List UInt8} (hne : line ≠ []) :
    lineEnds conf (line.map some) = true ↔ LineEnds conf line := by
  rw [lineEnds, reduceOption_map_some, decide_eq_true_eq, and_iff_right hne]

theorem isFrame_line {line : List UInt8} (h : IsLine conf line) :
    IsFrame (lineEnds conf) (line.map some) := by
  obtain ⟨hends, hne, -, hfirst⟩ := h
  refine isFrame_of (by simpa using hne) ((lineEnds_map_some hne).2 hends) fun p hp hpne hpos => ?_
  obtain ⟨k, rfl⟩ : ∃ k, p = (line.take k).map some :=
    ⟨p.length, by rw [List.map_take, ← List.prefix_iff_eq_take.1 hp]⟩
  have hk : k < line.length := by
    by_contra hle
    rw [List.take_of_length_le (Nat.le_of_not_lt hle)] at hpne
    exact hpne rfl
  have hk0 : 0 < k := Nat.pos_of_ne_zero fun h0 => hpos (by rw [h0]; rfl)
  have htake : line.take k ≠ [] := fun hnil => hpos (by rw [hnil]; rfl)
  exact Bool.eq_false_iff.2 fun he => hfirst k hk hk0 ((lineEnds_map_some htake).1 he)

/-- What the function of the URC of a line that fits takes. -/
theorem taking_of_urc {line : List UInt8} {urc : AtUrc} (h : IsLine conf line)
    (hurc : getUrcObj conf line line.length = some urc) :
    taking conf line = if 0 < (urc.func.map (· line)).getD 0 then
      some (urc, (urc.func.map (· line)).getD 0) else none := by
  rw [taking, if_neg (Nat.not_lt.2 h.2.2.1), hurc, Option.bind_some]
  cases urc.func with
  | none => rfl
  | some func => rfl

/-- The frame of a line that no characters are taken behind. -/
theorem isFrame_alone {line : List UInt8} (h : IsLine conf line)
    (htaking : taking conf line = none) :
    IsFrame (messageEnds conf) (line.map some) ∧
      atMessage conf (line.map some) = lineMessage conf line := by
  have hframe := isFrame_line h
  have hdone : dataEnds conf (line.map some) [] = true := by
    rw [dataEnds, reduceOption_map_some, htaking]
  have hmsg := @atMessage_append conf _ [] hframe
  have hall := hframe.headed hdone fun b hb hne => absurd (List.prefix_nil.1 hb) hne
  rw [List.append_nil] at hmsg hall
  refine ⟨hall, ?_⟩
  rw [hmsg, messageOf, reduceOption_map_some, htaking]

/-- The frame of a line with the characters its function takes. -/
theorem isFrame_data {line data : List UInt8} {urc : AtUrc} (h : IsLine conf line)
    (htaking : taking conf line = some (urc, data.length)) :
    IsFrame (messageEnds conf) (line.map some ++ data.map some) ∧
      atMessage conf (line.map some ++ data.map some) = .urc urc line (some data) := by
  have hframe := isFrame_line h
  refine ⟨hframe.headed ?_ fun b hb hne => ?_, ?_⟩
  · simp [dataEnds, reduceOption_map_some, htaking]
  · obtain ⟨k, rfl⟩ : ∃ k, b = (data.take k).map some :=
      ⟨b.length, by rw [List.map_take, ← List.prefix_iff_eq_take.1 hb]⟩
    have hk : k < data.length := by
      by_contra hle
      rw [List.take_of_length_le (Nat.le_of_not_lt hle)] at hne
      exact hne rfl
    rw [dataEnds, reduceOption_map_some, reduceOption_map_some, htaking]
    simp only [decide_eq_false_iff_not, not_or, List.length_take, not_le]
    refine ⟨by omega, fun hmem => ?_⟩
    obtain ⟨_, -, hch⟩ := List.mem_map.1 hmem
    cases hch
  · rw [atMessage_append hframe, messageOf, reduceOption_map_some, reduceOption_map_some, htaking]
    simp

/-- The frame of a message. -/
theorem AtMessage.Sendable.isFrame {msg : AtMessage} (h : msg.Sendable conf) :
    IsFrame (messageEnds conf) (msg.text.map some) ∧ atMessage conf (msg.text.map some) = msg := by
  cases msg with
  | line l =>
    obtain ⟨hline, hurc⟩ := h
    have hfits : ¬conf.recvBufsz < l.length := Nat.not_lt.2 hline.2.2.1
    obtain ⟨hframe, hmsg⟩ := isFrame_alone hline (by rw [taking, if_neg hfits, hurc]; rfl)
    refine ⟨hframe, hmsg.trans ?_⟩
    rw [lineMessage, if_neg hfits, hurc]
  | urc u l data =>
    cases data with
    | none => exact h.elim
    | some data =>
      obtain ⟨hline, hurc, hlen⟩ := h
      have hfits : ¬conf.recvBufsz < l.length := Nat.not_lt.2 hline.2.2.1
      have htaking := taking_of_urc hline hurc
      rw [← hlen] at htaking
      have hsplit : (AtMessage.urc u l (some data)).text.map some =
          l.map some ++ data.map some := List.map_append
      rw [hsplit]
      split at htaking
      · exact isFrame_data hline htaking
      · rename_i hpos
        obtain rfl := List.length_eq_zero_iff.1 (Nat.le_zero.1 (Nat.not_lt.1 hpos))
        rw [List.map_nil, List.append_nil]
        obtain ⟨hframe, hmsg⟩ := isFrame_alone hline htaking
        refine ⟨hframe, hmsg.trans ?_⟩
        rw [lineMessage, if_neg hfits, hurc]
  | full => exact h.elim

/-- **What is sent is received.**  Messages sent one behind the other, lines and URCs with the
characters their functions take, are what the parser yields, whatever the characters behind a URC
are, and then it is at the beginning of a line. -/
theorem received_messages {msgs : List AtMessage} (h : ∀ msg ∈ msgs, msg.Sendable conf) :
    received conf (startLine conf) ((msgs.flatMap AtMessage.text).map some) = msgs ∧
      parserAfter conf (startLine conf) ((msgs.flatMap AtMessage.text).map some) =
        startLine conf := by
  have hparser := @parser_frames conf [] isPart_nil ((msgs.flatMap AtMessage.text).map some)
  have hstream : (msgs.flatMap AtMessage.text).map some =
      (msgs.map fun msg => msg.text.map some).flatten := by
    rw [List.flatMap, List.map_flatten, List.map_map]
    rfl
  have hframes : ∀ f ∈ msgs.map fun msg => msg.text.map some, IsFrame (messageEnds conf) f := by
    intro f hf
    obtain ⟨msg, hmsg, rfl⟩ := List.mem_map.1 hf
    exact (h msg hmsg).isFrame.1
  obtain ⟨hall, hleft⟩ := frames_flatten hframes []
  rw [List.append_nil] at hall hleft
  rw [readerOf_nil, hstream, hall, hleft, frames_nil, List.append_nil, List.map_map] at hparser
  rw [hstream]
  refine ⟨hparser.1.trans ?_, hparser.2.trans readerOf_nil⟩
  exact (List.map_congr_left fun msg hmsg => (h msg hmsg).isFrame.2).trans (List.map_id msgs)

/-- A URC whose function takes two characters. -/
def plusUrc : AtUrc where
  cmdPrefix := [0x2b]
  cmdSuffix := [0x0d, 0x0a]
  func := some fun _ => 2

/-- A line, the URC with a carriage return and a line feed behind it, and a line. -/
theorem received_messages_urc :
    received { endSign := 0, recvBufsz := 8, urcTable := [[plusUrc]] }
        (startLine { endSign := 0, recvBufsz := 8, urcTable := [[plusUrc]] })
        ([0x61, 0x0d, 0x0a, 0x2b, 0x0d, 0x0a, 0x0d, 0x0a, 0x4f, 0x4b, 0x0d, 0x0a].map some) =
      [.line [0x61, 0x0d, 0x0a], .urc plusUrc [0x2b, 0x0d, 0x0a] (some [0x0d, 0x0a]),
        .line [0x4f, 0x4b, 0x0d, 0x0a]] := by
  refine (@received_messages _ [.line [0x61, 0x0d, 0x0a],
    .urc plusUrc [0x2b, 0x0d, 0x0a] (some [0x0d, 0x0a]), .line [0x4f, 0x4b, 0x0d, 0x0a]] ?_).1
  simp only [List.forall_mem_cons, List.not_mem_nil, false_imp_iff, implies_true, and_true,
    AtMessage.Sendable]
  exact ⟨⟨by decide, rfl⟩, ⟨by decide, rfl, rfl⟩, by decide, rfl⟩

end At
end AccTx
