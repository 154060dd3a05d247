import HardLog.Lib.CString
import HardLog.Lib.Decimal

/-! # The device library

`decode_command` answers a request in two steps. `dump_log` or `filter_and_dump_log` writes what is
asked for to the temporary file `response`. `commit` has pigz compress that file to `response.gz`,
copies the result to the response file, and writes `READY` with the number of bytes to the command
file. The first step returns nothing, so `commit` does not learn how it went, and both temporary
files stay where they are. An `Env` is what the system answers in the course of one request. -/

namespace HardLog.Device.Response

open HardLog.Lib.CString HardLog.Lib.Decimal

/-- The size of `tmpbuf`, `trimbuf` and `readbuf`. -/
def bufSize : ℕ := 128 * 1024

theorem bufSize_pos : 0 < bufSize := by decide

/-- A run of pigz: what it makes of a file, which has a header at least. -/
structure Pigz where
  compress : List UInt8 → List UInt8
  compress_ne_nil : ∀ file, compress file ≠ []

/-- What the system answers while a request is handled. -/
structure Env where
  /-- `log_filename`, if it can be opened. -/
  log : Option (List UInt8)
  /-- `tmp_resp_filename` can be opened for writing. -/
  tmpOpens : Bool
  /-- The memory that `malloc` returns for `tmpbuf`, if it does. -/
  tmpbuf : Option (Buffer bufSize)
  /-- `malloc` returns memory for `trimbuf`. -/
  trimbuf : Bool
  /-- pigz, if it can be run. -/
  pigz : Option Pigz
  /-- `tmp_resp_filename` can be opened for reading, if it is there. -/
  tmpReopens : Bool
  /-- `resp_filename` can be opened. -/
  respOpens : Bool
  /-- `malloc` returns memory for `readbuf`. -/
  readbuf : Bool
  /-- `comm_filename` can be opened. -/
  commOpens : Bool

/-- A request: the command, the two offsets, and how it fares. -/
structure Request where
  command : List UInt8
  logFileStartOffset : UInt64
  logFileEndOffset : UInt64
  env : Env

/-- What became of the temporary file in the first step. -/
inductive Dump where
  /-- The step returned before it opened the file for writing. -/
  | kept
  /-- The file was created anew, with these bytes. -/
  | wrote (bytes : List UInt8)
  /-- The step used a null `FILE*`. -/
  | crashed
  deriving DecidableEq

/-- The file from an offset on that is passed as a `long`; `fseek` to a negative one fails. -/
def fseek (file : List UInt8) (offset : UInt64) : List UInt8 :=
  if offset.toNat < 2 ^ 63 then file.drop offset.toNat else file

/-- `remove_null_chars`. -/
def removeNullChars (tmp : List UInt8) : List UInt8 := tmp.filter (· ≠ 0)

theorem removeNullChars_append (a b : List UInt8) :
    removeNullChars (a ++ b) = removeNullChars a ++ removeNullChars b :=
  List.filter_append ..

/-- The loop of `dump_log`, for at most `fuel` rounds: what it writes to the response file. The whole
of `tmpbuf` is trimmed and written, however much of it was read. -/
def dumpLoop : ℕ → List UInt8 → ℕ → List UInt8 → List UInt8
  | 0, _, _, _ => []
  | fuel + 1, logFile, bytes, tmpbuf =>
    let chunk := logFile.take bufSize
    if bytes = 0 ∨ chunk = [] then []
    else
      let tmpbuf := chunk ++ tmpbuf.drop chunk.length
      removeNullChars tmpbuf ++
        if bytes < chunk.length then []
        else dumpLoop fuel (logFile.drop bufSize) (bytes - chunk.length) tmpbuf

/-- `dump_log`. The check behind the `fopen` of the response file looks at `log_file` again, so a
response file that does not open is only noticed when it is used. -/
def dumpLog (r : Request) : Dump :=
  let bytes := (r.logFileEndOffset - r.logFileStartOffset).toNat
  if 100 * 1024 * 1024 ≤ bytes then .kept
  else
    match r.env.log with
    | none => .kept
    | some log =>
      match r.env.tmpbuf with
      | none => if r.env.tmpOpens then .wrote [] else .kept
      | some tmpbuf =>
        if !r.env.trimbuf then (if r.env.tmpOpens then .wrote [] else .kept)
        else if !r.env.tmpOpens then .crashed
        else .wrote (dumpLoop bytes (fseek log r.logFileStartOffset) bytes tmpbuf.bytes)

/-- The loop of `filter_and_dump_log` over the lines from the start offset on. -/
def filterLoop (key : List UInt8) (bytes : ℕ) : List (List UInt8) → ℕ → List UInt8
  | [], _ => []
  | line :: rest, readBytes =>
    (if (find line key).isSome then line ++ [10] else []) ++
      if bytes ≤ readBytes + line.length then []
      else filterLoop key bytes rest (readBytes + line.length)

/-- `filter_and_dump_log`. A `seekg` to a negative position leaves the stream with no line to get. -/
def filterAndDumpLog (r : Request) (key : List UInt8) : Dump :=
  let start := r.logFileStartOffset.toNat
  let bytes := (r.logFileEndOffset - r.logFileStartOffset).toNat
  match r.env.log with
  | none => .kept
  | some log =>
    if !r.env.tmpOpens then .kept
    else .wrote (filterLoop key bytes (if start < 2 ^ 63 then lines (log.drop start) else []) 0)

/-! ### Committing -/

/-- A `READY` message: the request it answers, and the number of bytes it announces. -/
structure Ready where
  request : Request
  bytes : ℕ

/-- The files of the device library, and the message that the last request has sent. -/
structure Library where
  tmp : Option (List UInt8)
  gz : Option (List UInt8)
  resp : List UInt8
  comm : List UInt8
  ready : Option Ready

/-- `READY <bytes>`. -/
def respMsg (bytes : ℕ) : List UInt8 := ofChars "READY ".toList ++ decimal bytes

/-- What writing to the start of a file that was opened for update leaves in it. -/
def writeFront (file data : List UInt8) : List UInt8 := data ++ file.drop data.length

/-- `commit_response_message`: the command file. -/
def commitResponseMessage (opens : Bool) (comm : List UInt8) (bytes : ℕ) : List UInt8 :=
  if opens then writeFront comm (respMsg bytes) else comm

/-- `commit_compress`: the file `response.gz`. Without a file to compress, or when pigz fails, the
old one stays. -/
def commitCompress (env : Env) (tmp gz : Option (List UInt8)) : Option (List UInt8) :=
  match env.pigz, tmp with
  | some pigz, some file => some (pigz.compress file)
  | _, _ => gz

/-- The loop of `commit_response`, for at most `fuel` rounds: what it writes to the response file. A
round writes the whole of `readbuf`. -/
def commitLoop : ℕ → List UInt8 → List UInt8 → List UInt8
  | 0, _, _ => []
  | fuel + 1, readbuf, file =>
    let chunk := file.take bufSize
    if chunk = [] then []
    else
      let readbuf := chunk ++ readbuf.drop chunk.length
      readbuf ++ commitLoop fuel readbuf (file.drop bufSize)

/-- `commit_response`: the number of bytes it returns, and the response file. -/
def commitResponse (env : Env) (tmpRespFile : Option (List UInt8)) (resp : List UInt8) :
    ℕ × List UInt8 :=
  match tmpRespFile with
  | none => (0, resp)
  | some file =>
    if env.tmpReopens && env.respOpens && env.readbuf then
      let written := commitLoop file.length (List.replicate bufSize 0) file
      (file.length, writeFront resp written)
    else (0, resp)

/-- The file that `commit_response` opens, by the value of the flag `compression`. -/
def Library.tmpRespFile (compression : Bool) (s : Library) : Option (List UInt8) :=
  if compression then s.gz else s.tmp

/-- `commit`, at the end of a request. -/
def commit (compression : Bool) (r : Request) (s : Library) : Library :=
  let s := if compression then { s with gz := commitCompress r.env s.tmp s.gz } else s
  let c := commitResponse r.env (s.tmpRespFile compression) s.resp
  { s with
    resp := c.2
    comm := commitResponseMessage r.env.commOpens s.comm c.1
    ready := if r.env.commOpens then some ⟨r, c.1⟩ else none }

/-! ### Commands -/

/-- A loop of `removeWord`, for at most `fuel` rounds: as long as `word` is found, `len` bytes are
removed from there on. -/
def removeLoop (word : List UInt8) (len : ℕ) : ℕ → List UInt8 → List UInt8
  | 0, str => str
  | fuel + 1, str =>
    match find str word with
    | none => str
    | some p => removeLoop word len fuel (str.take p ++ str.drop (p + len))

/-- `removeWord`: both loops look for `word` and remove as many bytes as `tempWord` has. -/
def removeWord (str word : List UInt8) : List UInt8 :=
  if (find str word).isSome then
    let str' := removeLoop word (word.length + 1) str.length str
    removeLoop word (word.length + 1) str'.length str'
  else str

/-- The key of a filter: the second word of the command without `FILTER`. -/
def rule (command : List UInt8) : List UInt8 :=
  let str := removeWord command (ofChars "FILTER".toList)
  (words str.length str).getD 1 []

/-- The first step of `decode_command`. -/
def dump (r : Request) : Dump :=
  if r.command = ofChars "ALL".toList then dumpLog r else filterAndDumpLog r (rule r.command)

/-- `decode_command`, or `none` when the library crashes. -/
def decodeCommand (compression : Bool) (s : Library) (r : Request) : Option Library :=
  match dump r with
  | .kept => some (commit compression r s)
  | .wrote bytes => some (commit compression r { s with tmp := some bytes })
  | .crashed => none

/-! ### What is copied to the response file -/

/-- The loop of `commit_response` writes the file first, and what pads its last round behind it. -/
theorem take_commitLoop {fuel : ℕ} {readbuf file : List UInt8} (hbuf : readbuf.length = bufSize)
    (hfuel : file.length ≤ fuel) : (commitLoop fuel readbuf file).take file.length = file := by
  induction fuel generalizing readbuf file with
  | zero =>
    obtain rfl := List.eq_nil_of_length_eq_zero (Nat.le_zero.mp hfuel)
    rfl
  | succ fuel ih =>
    have hB := bufSize_pos
    rw [commitLoop]
    by_cases hnil : file.take bufSize = []
    · have hfile : file = [] := by
        simpa [Nat.pos_iff_ne_zero.mp hB] using List.take_eq_nil_iff.mp hnil
      simp [hfile]
    · rw [if_neg hnil]
      by_cases hle : file.length ≤ bufSize
      · simp [List.take_of_length_le hle]
      · -- a full round: the whole of `readbuf` is the chunk
        have hlen : (file.take bufSize).length = bufSize := by simp; omega
        have hfull : file.take bufSize ++ readbuf.drop (file.take bufSize).length =
            file.take bufSize := by
          rw [hlen, List.drop_of_length_le (Nat.le_of_eq hbuf), List.append_nil]
        have hrest : (file.drop bufSize).length ≤ fuel := by simp; omega
        have hsub : file.length - bufSize = (file.drop bufSize).length := by simp
        simp only [hfull]
        rw [List.take_append, hlen, List.take_of_length_le (by omega), hsub, ih hlen hrest,
          List.take_append_drop]

/-- **Delivery**: `commit_response` returns the length of the file it opened, and the response file
begins with that file, unless it returns zero. -/
theorem commitResponse_delivers {env : Env} {file : Option (List UInt8)} {resp : List UInt8}
    (h : (commitResponse env file resp).1 ≠ 0) :
    ∃ f, file = some f ∧ (commitResponse env file resp).1 = f.length ∧
      (commitResponse env file resp).2.take f.length = f := by
  cases file with
  | none => exact absurd rfl h
  | some f =>
    simp only [commitResponse] at h ⊢
    split_ifs at h ⊢ with hopens
    · have hloop : (commitLoop f.length (List.replicate bufSize 0) f).take f.length = f :=
        take_commitLoop (List.length_replicate ..) (Nat.le_refl _)
      have hlong : f.length ≤ (commitLoop f.length (List.replicate bufSize 0) f).length := by
        have := congrArg List.length hloop
        rw [List.length_take] at this
        omega
      refine ⟨f, rfl, rfl, ?_⟩
      rw [writeFront, List.take_append_of_le_length hlong, hloop]
    · exact absurd rfl h

theorem commitResponse_ne_zero_iff (env : Env) (file : Option (List UInt8)) (resp : List UInt8) :
    (commitResponse env file resp).1 ≠ 0 ↔
      (env.tmpReopens = true ∧ env.respOpens = true ∧ env.readbuf = true) ∧
        ∃ f, file = some f ∧ f ≠ [] := by
  cases file with
  | none => simp [commitResponse]
  | some f =>
    simp only [commitResponse]
    split_ifs with h <;> simp_all [and_assoc]

end HardLog.Device.Response
