/-
# The client of AT commands

`components/net/at/src/at_client.c`: the parser thread, which reads lines and hands each one to the
function of its URC or to the response of the command that is being executed, and the functions on
responses.

A character is taken as it comes, so `at_recv_readline` and `at_client_obj_recv` are the two points
where the parser waits (`AtPoint`), and `none` among the characters is a wait of the latter that
takes too long.  `read_len` is always the same as `recv_line_len`.

Strings of the source are lists without the zero.  The function of a URC is code of the
application; what matters here is how many characters it takes with `at_client_obj_recv`.
-/

import AccTx.Series.Text
import Mathlib.Data.UInt

namespace AccTx
namespace At

open Series

/-- `struct at_urc`.  `func` is the number of characters that the function takes behind a line. -/
structure AtUrc where
  cmdPrefix : List UInt8
  cmdSuffix : List UInt8
  func : Option (List UInt8 → ℕ)

/-- `struct at_client`, the fields that are set up before the parser starts. -/
structure AtConf where
  endSign : UInt8
  recvBufsz : ℕ
  urcTable : List (List AtUrc)

/-- `at_obj_set_end_sign`. -/
def atObjSetEndSign (conf : AtConf) (ch : UInt8) : AtConf := { conf with endSign := ch }

/-- `at_obj_set_urc_table`, where there is memory for it. -/
def atObjSetUrcTable (conf : AtConf) (urcTable : List AtUrc) : AtConf :=
  { conf with urcTable := conf.urcTable ++ [urcTable] }

/-! ### The parser -/

/-- Where the parser waits for a character. -/
inductive AtPoint
  | readline (lastCh : UInt8) (isFull : Bool)
  | recv (urc : AtUrc) (size : ℕ) (buf : List UInt8)

/-- `struct at_client`, the line buffer, with the point of the parser. -/
structure AtReader where
  recvLineBuf : List UInt8
  recvLineLen : ℕ
  point : AtPoint

/-- What the parser has received: a line that is no URC, a URC with the characters its function took
(`none` if they did not come), or a line that does not fit. -/
inductive AtMessage
  | line (line : List UInt8)
  | urc (urc : AtUrc) (line : List UInt8) (data : Option (List UInt8))
  | full

variable (conf : AtConf)

/-- The test of `get_urc_obj` for one URC. -/
def AtUrc.Matches (urc : AtUrc) (buffer : List UInt8) (bufsz : ℕ) : Prop :=
  let prefixLen := urc.cmdPrefix.length
  let suffixLen := urc.cmdSuffix.length
  ¬bufsz < prefixLen + suffixLen ∧
    (prefixLen ≠ 0 → buffer.take prefixLen = urc.cmdPrefix) ∧
    (suffixLen ≠ 0 → (buffer.drop (bufsz - suffixLen)).take suffixLen = urc.cmdSuffix)

instance (urc : AtUrc) (buffer : List UInt8) (bufsz : ℕ) : Decidable (urc.Matches buffer bufsz) :=
  inferInstanceAs (Decidable (_ ∧ _))

/-- `get_urc_obj`. -/
def getUrcObj (buffer : List UInt8) (bufsz : ℕ) : Option AtUrc :=
  conf.urcTable.flatten.find? fun urc => urc.Matches buffer bufsz

/-- The beginning of `at_recv_readline`. -/
def startLine : AtReader where
  recvLineBuf := List.replicate conf.recvBufsz 0
  recvLineLen := 0
  point := .readline 0 false

/-- `client_parser` behind `at_recv_readline`. -/
def parseLine (r : AtReader) : AtReader × Option AtMessage :=
  let line := r.recvLineBuf.take r.recvLineLen
  match getUrcObj conf r.recvLineBuf r.recvLineLen with
  | none => (startLine conf, some (.line line))
  | some urc =>
    match urc.func with
    | none => (startLine conf, some (.urc urc line (some [])))
    | some func =>
      if 0 < func line then ({ r with point := .recv urc (func line) [] }, none)
      else (startLine conf, some (.urc urc line (some [])))

/-- The loop of `at_recv_readline`, for one character. -/
def atRecvReadline (r : AtReader) (lastCh : UInt8) (isFull : Bool) (ch : UInt8) :
    AtReader × Option AtMessage :=
  let fits := r.recvLineLen < conf.recvBufsz
  let r := if fits then
      { r with
        recvLineBuf := r.recvLineBuf.set r.recvLineLen ch
        recvLineLen := r.recvLineLen + 1 }
    else r
  let isFull := isFull || !fits
  -- is newline or URC data
  if (ch = 0x0a ∧ lastCh = 0x0d) ∨ (conf.endSign ≠ 0 ∧ ch = conf.endSign) ∨
      (getUrcObj conf r.recvLineBuf r.recvLineLen).isSome then
    if isFull then (startLine conf, some .full) else parseLine conf r
  else ({ r with point := .readline ch isFull }, none)

/-- The loop of `at_client_obj_recv`, for one character or a wait that takes too long. -/
def atClientObjRecv (r : AtReader) (urc : AtUrc) (size : ℕ) (buf : List UInt8) :
    Option UInt8 → AtReader × Option AtMessage
  | none => (startLine conf, some (.urc urc (r.recvLineBuf.take r.recvLineLen) none))
  | some ch =>
    if (buf ++ [ch]).length < size then ({ r with point := .recv urc size (buf ++ [ch]) }, none)
    else (startLine conf,
      some (.urc urc (r.recvLineBuf.take r.recvLineLen) (some (buf ++ [ch]))))

/-- The parser thread.  In a line it waits for ever. -/
def clientParser (r : AtReader) (c : Option UInt8) : AtReader × Option AtMessage :=
  match r.point, c with
  | .readline _ _, none => (r, none)
  | .readline lastCh isFull, some ch => atRecvReadline conf r lastCh isFull ch
  | .recv urc size buf, c => atClientObjRecv conf r urc size buf c

/-! ### Responses -/

/-- `enum at_resp_status`. -/
inductive AtRespStatus
  | ok
  | error
  | timeout
  | buffFull
  deriving DecidableEq

/-- `struct at_response`. -/
structure AtResponse where
  buf : List UInt8
  bufSize : ℕ
  bufLen : ℕ
  lineNum : ℕ
  lineCounts : ℕ
  deriving DecidableEq

/-- `at_create_resp`. -/
def atCreateResp (bufSize lineNum : ℕ) : AtResponse where
  buf := List.replicate bufSize 0
  bufSize := bufSize
  bufLen := 0
  lineNum := lineNum
  lineCounts := 0

def AT_RESP_END_OK : List UInt8 := [0x4f, 0x4b]

def AT_RESP_END_ERROR : List UInt8 := [0x45, 0x52, 0x52, 0x4f, 0x52]

def AT_RESP_END_FAIL : List UInt8 := [0x46, 0x41, 0x49, 0x4c]

/-- A line with a zero in the place of its last character. -/
def stored (line : List UInt8) : List UInt8 := line.dropLast ++ [0]

/-- A line of a response is copied if it fits. -/
def AtResponse.copy (resp : AtResponse) (line : List UInt8) : Option AtResponse :=
  if resp.bufLen + line.length < resp.bufSize then
    some { resp with
      buf := resp.buf.take resp.bufLen ++ line ++ resp.buf.drop (resp.bufLen + line.length)
      bufLen := resp.bufLen + line.length
      lineCounts := resp.lineCounts + 1 }
  else none

/-- `check response result`.  `none` is `continue`. -/
def checkResult (lineNum lineCounts : ℕ) (line : List UInt8) : Option AtRespStatus :=
  if AT_RESP_END_OK <+: line ∧ lineNum = 0 then some .ok
  else if AT_RESP_END_ERROR <:+: line.takeWhile (· ≠ 0) ∨ AT_RESP_END_FAIL <+: line then some .error
  else if lineCounts = lineNum ∧ lineNum ≠ 0 then some .ok
  else none

/-- `client_parser` with a line of a response: the response, `resp_status`, and whether it is the
end of the response. -/
def respLine (resp : AtResponse) (status : AtRespStatus) (line : List UInt8) :
    AtResponse × AtRespStatus × Bool :=
  let (resp, status) := match resp.copy (stored line) with
    | some resp => (resp, status)
    | none => (resp, .buffFull)
  match checkResult resp.lineNum resp.lineCounts (stored line) with
  | some status => (resp, status, true)
  | none => (resp, status, false)

/-- `at_resp_get_line` from the line `lineNum` on, which begins at `pos`, where `left` lines are
left.  Here and below `none` is an access outside of the buffer, and `some none` is `RT_NULL`. -/
def getLineFrom (resp : AtResponse) (respLine : ℕ) : ℕ → ℕ → ℕ → Option (Option (List UInt8))
  | 0, _, _ => some none
  | left + 1, lineNum, pos =>
    (cString (resp.buf.drop pos)).bind fun s =>
      if respLine = lineNum then some (some s)
      else getLineFrom resp respLine left (lineNum + 1) (pos + s.length + 1)

/-- `at_resp_get_line`: the string that the result points to. -/
def atRespGetLine (resp : AtResponse) (respLine : ℕ) : Option (Option (List UInt8)) :=
  if respLine > resp.lineCounts ∨ respLine = 0 then some none
  else getLineFrom resp respLine resp.lineCounts 1 0

/-- `at_resp_get_line_by_kw` from `pos` on. -/
def getLineByKwFrom (resp : AtResponse) (keyword : List UInt8) :
    ℕ → ℕ → Option (Option (List UInt8))
  | 0, _ => some none
  | left + 1, pos =>
    (cString (resp.buf.drop pos)).bind fun s =>
      if keyword <:+: s then some (some s)
      else getLineByKwFrom resp keyword left (pos + s.length + 1)

/-- `at_resp_get_line_by_kw`. -/
def atRespGetLineByKw (resp : AtResponse) (keyword : List UInt8) : Option (Option (List UInt8)) :=
  getLineByKwFrom resp keyword resp.lineCounts 0

end At
end AccTx
