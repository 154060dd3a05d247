import HardLog.Device.Response
import HardLog.Lib.Runs

/-! # The command file as a mailbox

Requests and the news of a response pass through the first 512 bytes of the command file. The host
library formats a command into `hreq.data`, SENDREQUEST formats that into `request_buffer` and
writes 512 bytes of it; the device library overwrites the front of the file with `READY <n>`;
CHECKRESPONSEREADY reads 512 bytes back into `request_buffer` and hands all of it to the library,
which looks for the word and the number in it. Neither writer clears what was there before, and the
message of the device has no terminator. `always_agrees_iff` says exactly when the host reads what
the device wrote. -/

namespace HardLog.Host.Mailbox

open HardLog.Lib.CString HardLog.Lib.Decimal HardLog.Lib.Runs HardLog.Device.Response

/-! ### Reading the buffer -/

/-- The word that the device announces a response with. -/
def readyWord : List UInt8 := ofChars "READY".toList

/-- The first word of a text. -/
def firstWord (bs : List UInt8) : List UInt8 := (bs.dropWhile isSpace).takeWhile (!isSpace ·)

/-- `is_response_ready`, on the memory from `data` on. -/
def isResponseReady (data : List UInt8) : Bool :=
  match extract (cstr data) with
  | none => false
  | some (word, _) => word == readyWord

/-- `get_response_size`, or `none` where `stoul` throws. If there is no second word, `word` keeps the
first. -/
def getResponseSize (data : List UInt8) : Option ℕ :=
  match extract (cstr data) with
  | none => stoul []
  | some (word, rest) =>
    match extract rest with
    | none => stoul word
    | some (word', _) => stoul word'

/-! ### The mailbox -/

/-- Where an exchange stands. -/
inductive Phase where
  | idle
  | requested
  | committed (bytes : ℕ)
  deriving DecidableEq

/-- `hreq.data` of the host library, `request_buffer` of the host module, and the command file. -/
structure Exchange where
  hreqData : Buffer 4096
  requestBuffer : Buffer 4096
  comm : List UInt8
  phase : Phase
  length_comm : 512 ≤ comm.length

/-- `bio_write_request_file`: the command file. -/
def bioWriteRequestFile (request : Buffer 4096) (comm : List UInt8) : List UInt8 :=
  writeFront comm (request.bytes.take 512)

/-- `bio_read_request_file`. -/
def bioReadRequestFile (comm : List UInt8) (data : Buffer 4096) : Buffer 4096 :=
  data.overwrite (comm.take 512)

theorem le_length_writeFront (file data : List UInt8) :
    file.length ≤ (writeFront file data).length := by
  simp [writeFront]; omega

/-- The library formats the command, and SENDREQUEST takes `hreq.data` as a format, which it renders as
`rendered`. -/
def Exchange.sendRequest (s : Exchange) (command rendered : List UInt8) : Exchange where
  hreqData := s.hreqData.snprintf (cstr command ++ [10])
  requestBuffer := s.requestBuffer.snprintf rendered
  comm := bioWriteRequestFile (s.requestBuffer.snprintf rendered) s.comm
  phase := .requested
  length_comm := Nat.le_trans s.length_comm (le_length_writeFront ..)

/-- `commit_response_message`, if it can open the command file. -/
def Exchange.commit (s : Exchange) (opens : Bool) (bytes : ℕ) : Exchange where
  hreqData := s.hreqData
  requestBuffer := s.requestBuffer
  comm := commitResponseMessage opens s.comm bytes
  phase := if opens then .committed bytes else s.phase
  length_comm := by
    unfold commitResponseMessage
    split_ifs
    · exact Nat.le_trans s.length_comm (le_length_writeFront ..)
    · exact s.length_comm

/-- CHECKRESPONSEREADY. -/
def Exchange.checkResponseReady (s : Exchange) : Exchange :=
  let requestBuffer := bioReadRequestFile s.comm s.requestBuffer
  { s with requestBuffer := requestBuffer, hreqData := requestBuffer }

/-- The steps of the two sides. -/
inductive Act where
  | sendRequest (command rendered : List UInt8)
  | commit (opens : Bool) (bytes : ℕ)
  | checkResponseReady

/-- A word that `cin >> command` can read and that does not end the loop, with a rendering of what it
is formatted to: a format without a conversion is rendered as it is. -/
def Sendable (s : Exchange) (command rendered : List UInt8) : Prop :=
  command ≠ [] ∧ (∀ b ∈ command, isSpace b = false) ∧ command ≠ ofChars "exit".toList ∧
    (37 ∉ cstr (s.hreqData.snprintf (cstr command ++ [10])).bytes →
      rendered = cstr (s.hreqData.snprintf (cstr command ++ [10])).bytes)

instance (s : Exchange) (command rendered : List UInt8) : Decidable (Sendable s command rendered) :=
  inferInstanceAs (Decidable (_ ∧ _))

/-- One step. A request is sent when none is under way, and answered once. Every submission to the
device succeeds. -/
def exchangeStep (s : Exchange) : Act → Option Exchange
  | .sendRequest command rendered =>
    if s.phase ≠ .requested ∧ Sendable s command rendered then some (s.sendRequest command rendered)
    else none
  | .commit opens bytes =>
    if s.phase = .requested ∧ bytes < 2 ^ 64 then some (s.commit opens bytes) else none
  | .checkResponseReady => some s.checkResponseReady

/-- What CHECKRESPONSEREADY would give the library now. -/
def Exchange.polled (s : Exchange) : List UInt8 := s.checkResponseReady.hreqData.bytes

/-- What the library makes of a poll is what the device has said: nothing before the commit, and the
number of bytes after it. Behind `hreq.data` there is `behind`. -/
def Agrees (behind : List UInt8) (s : Exchange) : Prop :=
  match s.phase with
  | .idle => True
  | .requested => isResponseReady (s.polled ++ behind) = false
  | .committed bytes =>
    isResponseReady (s.polled ++ behind) = true ∧ getResponseSize (s.polled ++ behind) = some bytes

/-- The first word of a rendered request is not `READY`, and the digits of a response size come to
stand in front of no digit that was there before (or the size is zero, and only zeros follow). -/
def Fits (behind : List UInt8) (s : Exchange) : Act → Prop
  | .sendRequest _ rendered => firstWord (cstr (rendered.take 4095)) ≠ readyWord
  | .commit opens bytes =>
    let digits := ((s.polled ++ behind).drop (respMsg bytes).length).takeWhile isDigit
    opens = true → digits = [] ∨ bytes = 0 ∧ ∀ d ∈ digits, d = 48
  | .checkResponseReady => True

/-! ### Parsing a message -/

theorem isResponseReady_eq (data : List UInt8) :
    isResponseReady data = (firstWord (cstr data) == readyWord) := by
  unfold isResponseReady extract firstWord
  cases (cstr data).dropWhile isSpace <;> rfl

theorem readyWord_mem {b : UInt8} (hb : b ∈ readyWord) : b ≠ 0 ∧ isSpace b = false := by
  have hall : readyWord.all (fun b => b != 0 && !isSpace b) = true := by decide
  simpa using List.all_eq_true.mp hall b hb

theorem respMsg_eq (n : ℕ) : respMsg n = readyWord ++ 32 :: decimal n := rfl

theorem respMsg_ne_zero {n : ℕ} {b : UInt8} (hb : b ∈ respMsg n) : b ≠ 0 := by
  rw [respMsg_eq, List.mem_append, List.mem_cons] at hb
  rcases hb with hb | rfl | hb
  · exact (readyWord_mem hb).1
  · decide
  · exact isDigit_ne_zero (isDigit_of_mem_decimal hb)

theorem length_respMsg_le {n : ℕ} (hn : n < 2 ^ 64) : (respMsg n).length ≤ 26 := by
  have hdec : (decimal n).length ≤ 20 :=
    (length_decimal_le (by decide)).mpr (Nat.lt_trans hn (by decide))
  rw [respMsg_eq, List.length_append, List.length_cons]
  have : readyWord.length = 5 := rfl
  omega

theorem extract_respMsg (n : ℕ) (rest : List UInt8) :
    extract (cstr (respMsg n ++ rest)) = some (readyWord, 32 :: decimal n ++ cstr rest) := by
  rw [cstr_append fun b => respMsg_ne_zero, respMsg_eq, List.append_assoc]
  have hnil : ∀ b ∈ ([] : List UInt8), isSpace b = true := fun b hb => absurd hb List.not_mem_nil
  have h := extract_append (32 :: decimal n ++ cstr rest) hnil (fun b hb => (readyWord_mem hb).2)
    (by decide)
  simpa [isSpace] using h

theorem isResponseReady_respMsg (n : ℕ) (rest : List UInt8) :
    isResponseReady (respMsg n ++ rest) = true := by
  simp [isResponseReady, extract_respMsg]

theorem takeWhile_isDigit_word (rest : List UInt8) :
    ((cstr rest).takeWhile (!isSpace ·)).takeWhile isDigit = rest.takeWhile isDigit := by
  rw [cstr, List.takeWhile_takeWhile, List.takeWhile_takeWhile]
  congr 1
  funext b
  by_cases hb : isDigit b = true
  · simp [hb, isDigit_not_isSpace hb, isDigit_ne_zero hb]
  · simp [hb]

/-- **Reading a message**: the number is read back exactly when no digit stands behind it, or when it
is zero and only zeros do. -/
theorem getResponseSize_respMsg_iff {n : ℕ} (hn : n < 2 ^ 64) (rest : List UInt8) :
    getResponseSize (respMsg n ++ rest) = some n ↔
      rest.takeWhile isDigit = [] ∨ n = 0 ∧ ∀ d ∈ rest.takeWhile isDigit, d = 48 := by
  have hblank : ∀ b ∈ [(32 : UInt8)], isSpace b = true := fun b hb => by
    rw [List.mem_singleton.mp hb]
    decide
  have h := extract_append (cstr rest) hblank
    (fun b hb => isDigit_not_isSpace (isDigit_of_mem_decimal hb)) (decimal_ne_nil n)
  rw [List.singleton_append] at h
  simp only [getResponseSize, extract_respMsg, h]
  rw [stoul_decimal_append_eq_iff hn, takeWhile_isDigit_word]

/-! ### What a poll shows after each step -/

variable {s s' : Exchange} {behind : List UInt8} {a : Act}

theorem length_sector (s : Exchange) : (s.comm.take 512).length = 512 := by
  rw [List.length_take, Nat.min_eq_left s.length_comm]

theorem polled_eq (s : Exchange) : s.polled = s.comm.take 512 ++ s.requestBuffer.bytes.drop 512 := by
  have hlen := length_sector s
  have h := s.requestBuffer.bytes_overwrite (show (s.comm.take 512).length ≤ 4096 by omega)
  rwa [hlen] at h

theorem polled_sendRequest (s : Exchange) (command rendered : List UInt8) :
    (s.sendRequest command rendered).polled = (s.requestBuffer.snprintf rendered).bytes := by
  have hlen : ((s.requestBuffer.snprintf rendered).bytes.take 512).length = 512 := by
    rw [List.length_take, Buffer.length_bytes]
    rfl
  rw [polled_eq]
  simp only [Exchange.sendRequest, bioWriteRequestFile, writeFront]
  rw [List.take_append_of_le_length (by omega), List.take_take, Nat.min_self, List.take_append_drop]

/-- After a commit, a poll would show the message, and behind it what it would have shown before. -/
theorem polled_commit (s : Exchange) {n : ℕ} (hn : n < 2 ^ 64) :
    (s.commit true n).polled = respMsg n ++ s.polled.drop (respMsg n).length := by
  have hle := length_respMsg_le hn
  have hlen := length_sector s
  rw [polled_eq, polled_eq, List.drop_append_of_le_length (by omega), ← List.append_assoc]
  simp only [Exchange.commit, commitResponseMessage, writeFront, if_true]
  rw [List.take_append, List.take_of_length_le (by omega), List.drop_take]

theorem polled_checkResponseReady (s : Exchange) : s.checkResponseReady.polled = s.polled := by
  have hlen := length_sector s
  have hbuf : s.checkResponseReady.requestBuffer.bytes = s.polled := rfl
  have hcomm : s.checkResponseReady.comm = s.comm := rfl
  rw [polled_eq s.checkResponseReady, hbuf, hcomm, polled_eq, List.drop_append_of_le_length (by omega),
    List.drop_of_length_le (by omega), List.nil_append]

/-! ### One step, and runs -/

/-- **One step** leaves the two sides in agreement exactly when it fits. -/
theorem agrees_iff (hs : Agrees behind s) (h : exchangeStep s a = some s') :
    Agrees behind s' ↔ Fits behind s a := by
  cases a with
  | sendRequest command rendered =>
    simp only [exchangeStep] at h
    split_ifs at h
    obtain rfl := Option.some.inj h
    have hagrees : Agrees behind (s.sendRequest command rendered) ↔
        isResponseReady ((s.sendRequest command rendered).polled ++ behind) = false := Iff.rfl
    rw [hagrees, polled_sendRequest, isResponseReady_eq, Buffer.cstr_snprintf (by decide)]
    simp [Fits]
  | commit opens bytes =>
    simp only [exchangeStep] at h
    split_ifs at h with hguard
    obtain rfl := Option.some.inj h
    cases opens with
    | false =>
      have hsame : Agrees behind (s.commit false bytes) ↔ Agrees behind s := Iff.rfl
      exact iff_of_true (hsame.mpr hs) (fun hopen => absurd hopen (by decide))
    | true =>
      have hagrees : Agrees behind (s.commit true bytes) ↔
          isResponseReady ((s.commit true bytes).polled ++ behind) = true ∧
            getResponseSize ((s.commit true bytes).polled ++ behind) = some bytes := Iff.rfl
      have hlen : (respMsg bytes).length ≤ s.polled.length := by
        rw [Exchange.polled, Buffer.length_bytes]
        exact Nat.le_trans (length_respMsg_le hguard.2) (by decide)
      rw [hagrees, polled_commit s hguard.2, List.append_assoc, ← List.drop_append_of_le_length hlen,
        getResponseSize_respMsg_iff hguard.2]
      simp [isResponseReady_respMsg, Fits]
  | checkResponseReady =>
    obtain rfl := Option.some.inj h
    have hsame : Agrees behind s.checkResponseReady ↔ Agrees behind s := by
      simp only [Agrees, polled_checkResponseReady]
      rfl
    exact iff_of_true (hsame.mpr hs) trivial

/-- The mailbox after the disabled block of `hardlog_ioctl_init`: a buffer for requests that was never
written, and a command file that a test message was written to. What memory and file held before is
arbitrary. -/
def start (hreqData requestBuffer testmsg : Buffer 4096) (sector : Buffer 512)
    (rest : List UInt8) : Exchange where
  hreqData := hreqData
  requestBuffer := requestBuffer
  comm := bioWriteRequestFile (testmsg.snprintf (ofChars "HELLO WORLD\n".toList))
    (sector.bytes ++ rest)
  phase := .idle
  length_comm := by
    refine Nat.le_trans ?_ (le_length_writeFront ..)
    rw [List.length_append, sector.length_bytes]
    exact Nat.le_add_right ..

/-- **Mailbox agreement**: in a run of exchanges the host finds no response before each commit and the
committed size after it exactly when every step fits. -/
theorem always_agrees_iff (behind : List UInt8) (hreqData requestBuffer testmsg : Buffer 4096)
    (sector : Buffer 512) (rest : List UInt8) (as : List Act) :
    Always exchangeStep (Agrees behind) (start hreqData requestBuffer testmsg sector rest) as ↔
      EachStep exchangeStep (Fits behind) (start hreqData requestBuffer testmsg sector rest) as :=
  always_iff_eachStep (fun _ _ _ _ _ hP => hP) (fun _ _ _ hs hstep => agrees_iff hs hstep) as
    trivial trivial

/-- A buffer of zeros. -/
def zeros (n : ℕ) : Buffer n := ⟨List.replicate n 0, List.length_replicate ..⟩

/-- `ALL`, and the line it is formatted to. -/
def all : Act := .sendRequest (ofChars "ALL".toList) (ofChars "ALL\n".toList)

/-- The mailbox after `ALL` was sent. -/
def afterAll (s : Exchange) : Exchange :=
  s.sendRequest (ofChars "ALL".toList) (ofChars "ALL\n".toList)

theorem exchangeStep_all (h : s.phase ≠ .requested) : exchangeStep s all = some (afterAll s) := by
  have hline := s.hreqData.cstr_snprintf (by decide) (cstr (ofChars "ALL".toList) ++ [10]) []
  rw [List.append_nil] at hline
  have hsend : Sendable s (ofChars "ALL".toList) (ofChars "ALL\n".toList) := by
    refine ⟨by decide, fun b hb => ?_, by decide, fun _ => ?_⟩
    · have hword : (ofChars "ALL".toList).all (!isSpace ·) = true := by decide
      simpa using List.all_eq_true.mp hword b hb
    · rw [hline]
      decide
  exact if_pos ⟨h, hsend⟩

theorem exchangeStep_commit {opens : Bool} {n : ℕ} (h : s.phase = .requested) (hn : n < 2 ^ 64) :
    exchangeStep s (.commit opens n) = some (s.commit opens n) :=
  if_pos ⟨h, hn⟩

/-- After a response of 12345 bytes, one of 7 bytes is read as one of 72345: the second number is
written over the first digit of the first. -/
theorem shrinking_size_misread :
    ¬ Always exchangeStep (Agrees []) (start (zeros _) (zeros _) (zeros _) (zeros _) [])
      [all, .commit true 12345, .checkResponseReady, all, .commit true 7] := by
  intro h
  have h1 := h.2 _ (exchangeStep_all (by decide))
  have h2 := (h1.2 _ (exchangeStep_commit rfl (by decide))).2 _ rfl
  have h3 := (h2.2 _ (exchangeStep_all (by decide))).2 _ (exchangeStep_commit rfl (by decide))
  exact absurd h3.2 (by decide)

end HardLog.Host.Mailbox
