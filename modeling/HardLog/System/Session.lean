import HardLog.Device.Stale
import HardLog.Device.Reports
import HardLog.Device.ServerRequest
import HardLog.Host.Command
import HardLog.Host.ReadResponse

/-! # Requests and responses

The host library sends a command, polls until the device has answered, and reads the response; the
device library polls the gadget until there is a request, handles it in steps that nothing protects,
and says that it has. Between them are the command file, the response file and the flag of the gadget,
and the gadget itself, which goes on storing log data. Here the three take steps in any order.

The command file and the response file are those of `exchange` and `resp`; what the gadget has as the
files of the LUNs 1 and 2 is not looked at. The log file is the gadget's. -/

namespace HardLog.System.Session

open HardLog.Lib.CString HardLog.Lib.Memory HardLog.Lib.Files HardLog.Lib.Runs HardLog.Lib.Printf
open HardLog.Device.Gadget (Config GadgetState HardlogIoctlRequest gadgetStep gadgetInit ioctlStep)
open HardLog.Device.Response HardLog.Host.Mailbox HardLog.Host.Command HardLog.Host.ReadResponse

/-! ### The host library -/

/-- Where `start_device_communication` of the host library is, with what it has got so far. -/
inductive HostPc where
  /-- At `cin >> command`. -/
  | prompt
  /-- In SENDREQUEST, with the sector written; `arrived` when `do_write` has come to its end. -/
  | sending (arrived : Bool)
  /-- In the inner loop. -/
  | waiting
  /-- At READRESPONSE, with the memory for the response. -/
  | ready (size : UInt64) (data : ℕ → UInt8)
  /-- In the loop of `bio_read_response_file`. -/
  | reading (size : UInt64) (data : ℕ → UInt8) (v : HardLog.Host.ReadResponse.Vars)
  /-- At the `copy_to_user` behind it. -/
  | copyToUser (size : UInt64) (data responseBuffer : ℕ → UInt8)
  /-- At `write_response_to_file`. -/
  | record (size : UInt64) (data : ℕ → UInt8)
  | exited

/-- What the host library reads from its user, and what its system answers in a step: what the
conversions of a format render to, the memory that `malloc` returns, the memory READRESPONSE gets if it
gets its arguments too, how many bytes `copy_to_user` does not copy, and whether `response.gz` can be
opened. -/
structure HostEnv where
  command : List UInt8
  arg : ℕ → List UInt8 → List UInt8
  malloc : Option (ℕ → UInt8)
  vmalloc : Option (ℕ → UInt8)
  uncopied : ℕ
  opens : Bool

/-! ### The device library -/

/-- The variables of the loop of `commit_response`, and the position in the response file. -/
structure Copy where
  readbuf : List UInt8
  /-- What is left to read of the temporary file. -/
  rest : List UInt8
  position : ℕ
  byteCount : ℕ

/-- Where the device library is. -/
inductive LibraryPc where
  /-- In the REQUEST ioctl, or about to call it. -/
  | request
  /-- At the test of `hreq.server_request`. -/
  | check
  /-- In `handle_command`, about to read the command. -/
  | handle
  /-- At `dump_log` or `filter_and_dump_log`. -/
  | dump (command : List UInt8)
  /-- At `commit_compress`, or where it would be called. -/
  | compress (r : Request)
  /-- At the two `fopen` of `commit_response`. -/
  | fopen (r : Request)
  /-- In the loop of `commit_response`. -/
  | copy (r : Request) (c : Copy)
  /-- At `commit_response_message`. -/
  | message (r : Request) (bytes : ℕ)
  | crashed

/-- What the system answers to the device library: whether the ioctl can copy its reply, whether the
command file can be opened, and what it answers while a request is handled. In `env.log` is what the
log file has behind what was written to it. -/
structure LibraryEnv where
  copied : Bool
  opens : Bool
  env : Env

/-- A response that was announced: the request, and the bytes of it in the response file. -/
structure Answer where
  request : Request
  bytes : List UInt8

/-! ### The system -/

/-- The two libraries, the files and the gadget; the commands sent, the responses announced, and the
ones recorded. -/
structure SessionState where
  host : HostPc
  exchange : Exchange
  gadget : GadgetState
  library : LibraryPc
  hreq : HardlogIoctlRequest
  tmp : Option (List UInt8)
  gz : Option (List UInt8)
  resp : Lun
  asked : List (List UInt8)
  answers : List Answer
  received : List (List UInt8)

/-- A step of the host library, of the device library, or of the gadget. -/
inductive SessionAction where
  | host (e : HostEnv)
  | library (e : LibraryEnv)
  | gadget (a : HardLog.Device.Gadget.Action)

/-- How the device is set up, the flag `compression` of its library, and the memory of the host library
behind `hreq.data`. -/
structure Setup where
  cfg : Config
  compression : Bool
  behind : List UInt8

/-- `exit`. -/
def exitWord : List UInt8 := ofChars "exit".toList

/-- A round of the inner loop: CHECKRESPONSEREADY, and the number if the response is ready. Where
`stoul` throws or there is no memory, the library ends. -/
def pollStep (behind : List UInt8) (malloc : Option (ℕ → UInt8)) (s : SessionState) : SessionState :=
  let exchange := s.exchange.checkResponseReady
  let hreqData := exchange.hreqData.bytes ++ behind
  if isResponseReady hreqData then
    match getResponseSize hreqData, malloc with
    | some size, some data => { s with exchange, host := .ready (UInt64.ofNat size) data }
    | _, _ => { s with exchange, host := .exited }
  else { s with exchange }

/-- A step of the host library. -/
def hostStep (behind : List UInt8) (e : HostEnv) (s : SessionState) : Option SessionState :=
  match s.host with
  | .prompt =>
    if e.command = exitWord then some { s with host := .exited }
    else
      some
        { s with
          host := .sending false
          exchange := send e.arg s.exchange e.command
          asked := s.asked ++ [e.command] }
  | .sending _ => some { s with host := .waiting }
  | .waiting => some (pollStep behind e.malloc s)
  | .ready size data =>
    match e.vmalloc with
    | none => some { s with host := .record size data }
    | some responseBuffer =>
      some { s with host := .reading size data ⟨responseBuffer, size.toNat, 0, 0, []⟩ }
  | .reading size data v =>
    match s.resp.sector v.brspdeviceSector with
    | none => some { s with host := .copyToUser size data v.data }
    | some bytes =>
      let v' := v.advance bytes
      if v.size ≤ 512 then some { s with host := .copyToUser size data v'.data }
      else some { s with host := .reading size data { v' with size := v.size - 512 } }
  | .copyToUser size data responseBuffer =>
    let copied := slice responseBuffer 0 (size.toNat - e.uncopied)
    some { s with host := .record size (memcpy data 0 copied) }
  | .record size data =>
    if e.opens then
      some { s with host := .prompt, received := s.received ++ [slice data 0 size.toNat] }
    else some { s with host := .prompt }
  | .exited => none

/-- The file after `data` was written to it at a position. -/
def writeAt (file : List UInt8) (position : ℕ) (data : List UInt8) : List UInt8 :=
  file.take position ++ data ++ file.drop (position + data.length)

/-- The LUN after `data` was written to its file. -/
def writeResp (l : Lun) (position : ℕ) (data : List UInt8) : Lun where
  file := writeAt l.file position data
  numSectors := l.numSectors
  le_length := by
    have := l.le_length
    simp only [writeAt, List.length_append, List.length_take, List.length_drop]
    omega
  lt := l.lt

/-- The variables behind a round of the loop of `commit_response`, which writes the whole of
`readbuf`. -/
def Copy.round (c : Copy) : Copy :=
  let chunk := c.rest.take bufSize
  let readbuf := chunk ++ c.readbuf.drop chunk.length
  ⟨readbuf, c.rest.drop bufSize, c.position + readbuf.length, c.byteCount + chunk.length⟩

/-- A round of the loop, or its end. -/
def copyStep (s : SessionState) (r : Request) (c : Copy) : SessionState :=
  if c.rest.take bufSize = [] then { s with library := .message r c.byteCount }
  else
    { s with
      resp := writeResp s.resp c.position c.round.readbuf
      library := .copy r c.round }

/-- The file that `commit_response` opens. -/
def SessionState.tmpRespFile (compression : Bool) (s : SessionState) : Option (List UInt8) :=
  if compression then s.gz else s.tmp

/-- What the system answers, with the log file as it is: what was written to it, and what it has behind
that. -/
def withLog (env : Env) (g : GadgetState) : Env :=
  { env with log := env.log.map fun rest => g.store.file.contents ++ rest }

/-- A step in the REQUEST ioctl; the library has the reply as soon as it is copied. -/
def requestStep (copied : Bool) (s : SessionState) : SessionState :=
  let gadget := ioctlStep s.gadget copied
  let hreq :=
    match s.gadget.ioctl with
    | .copyToUser hreq => if copied then hreq else s.hreq
    | _ => s.hreq
  match gadget.ioctl with
  | .idle => { s with gadget, hreq, library := .check }
  | _ => { s with gadget, hreq }

/-- A step of the device library. -/
def libraryStep (compression : Bool) (e : LibraryEnv) (s : SessionState) : Option SessionState :=
  match s.library with
  | .request => some (requestStep e.copied s)
  | .check =>
    if s.hreq.serverRequest then some { s with library := .handle }
    else some { s with library := .request }
  | .handle =>
    if e.opens then some { s with library := .dump (handleCommandLine s.exchange.comm) }
    else some { s with library := .request }
  | .dump command =>
    let r : Request := ⟨command, UInt64.ofNat s.hreq.logFileStartOffset,
      UInt64.ofNat s.hreq.logFileEndOffset, withLog e.env s.gadget⟩
    match HardLog.Device.Response.dump r with
    | .kept => some { s with library := .compress r }
    | .wrote bytes => some { s with library := .compress r, tmp := some bytes }
    | .crashed => some { s with library := .crashed }
  | .compress r =>
    if compression then some { s with library := .fopen r, gz := commitCompress r.env s.tmp s.gz }
    else some { s with library := .fopen r }
  | .fopen r =>
    match s.tmpRespFile compression with
    | none => some { s with library := .message r 0 }
    | some file =>
      if r.env.tmpReopens && r.env.respOpens && r.env.readbuf then
        some { s with library := .copy r ⟨List.replicate bufSize 0, file, 0, 0⟩ }
      else some { s with library := .message r 0 }
  | .copy r c => some (copyStep s r c)
  | .message r bytes =>
    if r.env.commOpens then
      some
        { s with
          library := .request
          exchange := s.exchange.commit true bytes
          answers := s.answers ++ [⟨r, s.resp.file.take bytes⟩] }
    else some { s with library := .request }
  | .crashed => none

/-- The step ends a `do_write` to `lun1`. -/
def requests (cfg : Config) (g : GadgetState) (a : HardLog.Device.Gadget.Action) : Bool :=
  match a, g.main, cfg.luns g.common.lun with
  | .main env, .doWrite, some curlun => env.returns && env.atEnd && curlun.name == "lun1"
  | _, _, _ => false

/-- `do_write` of the sector has come to its end. -/
def HostPc.arrive : HostPc → HostPc
  | .sending _ => .sending true
  | pc => pc

/-- A step. -/
def sessionStep (p : Setup) (s : SessionState) : SessionAction → Option SessionState
  | .host e => hostStep p.behind e s
  | .library e => libraryStep p.compression e s
  | .gadget (.ioctl _) => none
  | .gadget a => (gadgetStep p.cfg s.gadget a).map fun gadget =>
      { s with gadget, host := if requests p.cfg s.gadget a then s.host.arrive else s.host }

/-- The system before the first command: the gadget after `hardlog_setup`, the mailbox and the files as
they are. -/
def sessionInit (g : GadgetState) (exchange : Exchange) (tmp gz : Option (List UInt8)) (resp : Lun) :
    SessionState where
  host := .prompt
  exchange
  gadget := g
  library := .request
  hreq := ⟨false, 0, 0⟩
  tmp
  gz
  resp
  asked := []
  answers := []
  received := []

end HardLog.System.Session
