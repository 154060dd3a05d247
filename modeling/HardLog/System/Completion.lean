import HardLog.System.Exchanges

/-! # An exchange comes to its end

Neither library needs the other to get on. `handled_alone`: a request that is there when the device
library begins a poll is handled by steps of that library only, which leave in the files what
`decode_command` as a whole does, up to the message. `recorded_of_reach`: when a response has been
announced, steps of the host library only record it. -/

namespace HardLog.System.Completion

open HardLog.Lib.CString HardLog.Lib.Memory HardLog.Lib.Runs
open HardLog.Device.Gadget (Config GadgetState HardlogIoctlRequest gadgetStep gadgetInit ioctlStep)
open HardLog.Device.Response HardLog.Device.Stale
open HardLog.Host.Mailbox HardLog.Host.Command HardLog.Host.ReadResponse
open HardLog.System.Session HardLog.System.Exchanges

/-- A step of the host library that works. -/
def ByHost (p : Setup) (s : SessionState) (a : SessionAction) : Prop := Works p s a ∧ ∃ e, a = .host e

/-- A step of the device library that works. -/
def ByLibrary (p : Setup) (s : SessionState) (a : SessionAction) : Prop :=
  Works p s a ∧ ∃ e, a = .library e

variable {p : Setup} {s s' : SessionState}

/-! ### The device library -/

section Library

theorem library_step {e : LibraryEnv} (hw : Works p s (.library e))
    (hs : libraryStep p.compression e s = some s') : Reach (sessionStep p) (ByLibrary p) s s' :=
  (Reach.refl s).snoc (a := .library e) ⟨hw, e, rfl⟩ hs

theorem writeAt_writeFront (file out data : List UInt8) :
    writeAt (writeFront file out) out.length data = writeFront file (out ++ data) := by
  unfold writeAt writeFront
  rw [List.take_left, List.drop_length_add_append, List.drop_drop, List.length_append]

theorem reach_copy {r : Request} (fuel : ℕ) {c : Copy} {file out : List UInt8}
    (hlib : s.library = .copy r c) (hfile : s.resp.file = writeFront file out)
    (hposition : c.position = out.length) (hfuel : c.rest.length ≤ fuel) :
    ∃ resp, Reach (sessionStep p) (ByLibrary p) s
        { s with library := .message r (c.byteCount + c.rest.length), resp } ∧
      resp.file = writeFront file (out ++ commitLoop fuel c.readbuf c.rest) ∧
      resp.numSectors = s.resp.numSectors := by
  induction fuel generalizing s c out with
  | zero =>
    have hrest : c.rest = [] := List.eq_nil_of_length_eq_zero (Nat.le_zero.mp hfuel)
    refine ⟨s.resp, library_step (e := ⟨true, true, opening⟩) (by simp [Works, hlib]) ?_, ?_, rfl⟩
    · simp [libraryStep, hlib, copyStep, hrest]
    · simpa [commitLoop] using hfile
  | succ fuel ih =>
    rw [commitLoop]
    by_cases hchunk : c.rest.take bufSize = []
    · have hrest : c.rest = [] := by
        simpa [Nat.pos_iff_ne_zero.mp bufSize_pos] using List.take_eq_nil_iff.mp hchunk
      refine ⟨s.resp, library_step (e := ⟨true, true, opening⟩) (by simp [Works, hlib]) ?_, ?_, rfl⟩
      · simp [libraryStep, hlib, copyStep, hrest]
      · simpa [hrest] using hfile
    · obtain ⟨s1, hs1⟩ : ∃ s1, s1 = { s with
        resp := writeResp s.resp c.position c.round.readbuf
        library := .copy r c.round } := ⟨_, rfl⟩
      have hfirst : Reach (sessionStep p) (ByLibrary p) s s1 := by
        refine library_step (e := ⟨true, true, opening⟩) (by simp [Works, hlib]) ?_
        simp only [libraryStep, hlib, copyStep, if_neg hchunk, hs1]
      have hpos := List.length_pos_of_ne_nil hchunk
      rw [List.length_take] at hpos
      have hless : c.round.rest.length ≤ fuel := by
        rw [Copy.round, List.length_drop]
        omega
      have hcount : c.round.byteCount + c.round.rest.length = c.byteCount + c.rest.length := by
        simp only [Copy.round, List.length_take, List.length_drop]
        omega
      have hnext : c.round.position = (out ++ c.round.readbuf).length := by
        rw [List.length_append, ← hposition]
        rfl
      have hwritten : s1.resp.file = writeFront file (out ++ c.round.readbuf) := by
        rw [hs1]
        simp only [writeResp, hfile, hposition, writeAt_writeFront]
      obtain ⟨resp, hrest, hresp, hnum⟩ := ih (by rw [hs1]) hwritten hnext hless
      rw [hs1] at hfirst hrest hnum
      simp only [hcount] at hrest
      refine ⟨resp, hfirst.trans hrest, ?_, hnum⟩
      rw [hresp, List.append_assoc, if_neg hchunk]
      rfl

theorem reach_commitResponse {r : Request} (hlib : s.library = .fopen r) :
    ∃ resp, Reach (sessionStep p) (ByLibrary p) s
        { s with
          library := .message r
            (commitResponse r.env (s.tmpRespFile p.compression) s.resp.file).1
          resp } ∧
      resp.file = (commitResponse r.env (s.tmpRespFile p.compression) s.resp.file).2 ∧
      resp.numSectors = s.resp.numSectors := by
  have hw : Works p s (.library ⟨true, true, opening⟩) := by simp [Works, hlib]
  cases hfile : s.tmpRespFile p.compression with
  | none =>
    exact ⟨s.resp, library_step hw (by simp [libraryStep, hlib, hfile, commitResponse]), rfl, rfl⟩
  | some file =>
    by_cases hopens : (r.env.tmpReopens && r.env.respOpens && r.env.readbuf) = true
    · obtain ⟨s1, hs1⟩ : ∃ s1, s1 = { s with
        library := .copy r ⟨List.replicate bufSize 0, file, 0, 0⟩ } := ⟨_, rfl⟩
      have hfirst : Reach (sessionStep p) (ByLibrary p) s s1 :=
        library_step hw (by simp only [libraryStep, hlib, hfile, if_pos hopens, hs1])
      have hfront : s1.resp.file = writeFront s.resp.file [] := by
        rw [hs1]
        rfl
      obtain ⟨resp, hrest, hresp, hnum⟩ := reach_copy (p := p) file.length (by rw [hs1]) hfront rfl
        (Nat.le_refl _)
      rw [hs1] at hfirst hrest hnum
      simp only [commitResponse, if_pos hopens]
      exact ⟨resp, hfirst.trans (by simpa using hrest), by simpa using hresp, hnum⟩
    · rw [Bool.not_eq_true] at hopens
      refine ⟨s.resp, library_step hw ?_, ?_, rfl⟩
      · simp [libraryStep, hlib, hfile, commitResponse, hopens]
      · simp [commitResponse, hopens]

/-- The files of the device library. -/
def files (s : SessionState) : Library := ⟨s.tmp, s.gz, s.resp.file, s.exchange.comm, none⟩

/-- The request that a poll which begins now brings, with what the system answers. -/
def request (s : SessionState) (env : Env) : Request :=
  ⟨handleCommandLine s.exchange.comm, 0, UInt64.ofNat s.gadget.store.fileEndOffset,
    withLog env s.gadget⟩

/-- The gadget after a poll that has brought a request. -/
def polledGadget (g : GadgetState) : GadgetState :=
  { g with
    ioctl := .idle
    serverRequest := false
    reports := g.reports ++ [⟨⟨true, 0, g.store.fileEndOffset⟩, g.store.file.fPos⟩] }

/-- **A poll** that begins when there is a request, and the way to `dump_log`. -/
theorem reach_dump (hlib : s.library = .request) (hio : s.gadget.ioctl = .idle)
    (hflag : s.gadget.serverRequest = true) : Reach (sessionStep p) (ByLibrary p) s
      { s with
        gadget := polledGadget s.gadget
        library := .dump (handleCommandLine s.exchange.comm)
        hreq := ⟨true, 0, s.gadget.store.fileEndOffset⟩ } := by
  have hrun : runFrom (sessionStep p) s
      (List.replicate 7 (.library ⟨true, true, opening⟩)) = some { s with
        gadget := polledGadget s.gadget
        library := .dump (handleCommandLine s.exchange.comm)
        hreq := ⟨true, 0, s.gadget.store.fileEndOffset⟩ } := by
    simp [List.replicate, runFrom, sessionStep, libraryStep, requestStep, ioctlStep, hlib, hio, hflag,
      polledGadget]
  refine Reach.of_runFrom hrun ?_
  simp [List.replicate, EachStep, sessionStep, libraryStep, requestStep, ioctlStep, hlib, hio, hflag,
    ByLibrary, Works]

/-- From `dump_log` on, a request leaves behind what `decode_command` does. -/
theorem reach_message {command : List UInt8} (hlib : s.library = .dump command) (env : Env)
    {r : Request} (hr : r = ⟨command, UInt64.ofNat s.hreq.logFileStartOffset,
      UInt64.ofNat s.hreq.logFileEndOffset, withLog env s.gadget⟩) {t : Library}
    (ht : decodeCommand p.compression (files s) r = some t) :
    ∃ bytes resp, Reach (sessionStep p) (ByLibrary p) s
        { s with library := .message r bytes, tmp := t.tmp, gz := t.gz, resp } ∧
      resp.file = t.resp ∧ resp.numSectors = s.resp.numSectors ∧
      commitResponseMessage env.commOpens s.exchange.comm bytes = t.comm ∧
      t.ready = if env.commOpens then some ⟨r, bytes⟩ else none := by
  obtain ⟨tmp, htmp⟩ : ∃ tmp, tmp = tmpAfter (files s) r := ⟨_, rfl⟩
  have hcommit := decodeCommand_eq ht
  rw [← htmp] at hcommit
  obtain ⟨gz, hgz⟩ : ∃ gz, gz = if p.compression then commitCompress r.env tmp s.gz else s.gz :=
    ⟨_, rfl⟩
  have htgz : t.tmp = tmp ∧ t.gz = gz := by
    rw [hcommit, hgz]
    cases p.compression <;> exact ⟨rfl, rfl⟩
  -- the first step and the compression
  have hdump : Reach (sessionStep p) (ByLibrary p) s { s with library := .compress r, tmp } := by
    refine library_step (e := ⟨true, true, env⟩) (by simp [Works, hlib]) ?_
    simp only [libraryStep, hlib, ← hr, htmp, tmpAfter]
    unfold decodeCommand at ht
    cases hd : HardLog.Device.Response.dump r with
    | crashed => simp [hd] at ht
    | _ => rfl
  have hcompress : Reach (sessionStep p) (ByLibrary p) { s with library := .compress r, tmp }
      { s with library := .fopen r, tmp, gz } := by
    refine library_step (e := ⟨true, true, env⟩) (by simp [Works]) ?_
    simp only [libraryStep, hgz]
    split_ifs <;> rfl
  obtain ⟨resp, hcopy, hresp, hnum⟩ :=
    reach_commitResponse (p := p) (s := { s with library := .fopen r, tmp, gz }) (r := r) rfl
  rw [htgz.1, htgz.2]
  refine ⟨(commitResponse r.env (if p.compression then gz else tmp) s.resp.file).1, resp,
    (hdump.trans hcompress).trans hcopy, ?_, hnum, ?_, ?_⟩
  · rw [hresp, hcommit, hgz]
    cases p.compression <;> rfl
  · rw [hcommit, hgz, hr]
    cases p.compression <;> rfl
  · rw [hcommit, hgz, hr]
    cases p.compression <;> rfl

/-- **A request is handled** by the device library alone: if there is one when a poll begins, and
`decode_command` does not crash on it, steps of the library, with no other between them, lead to the
message, and with it the files are those that `decode_command` leaves of the command in the command
file. -/
theorem handled_alone (p : Setup) {s : SessionState} (hlib : s.library = .request)
    (hio : s.gadget.ioctl = .idle) (hflag : s.gadget.serverRequest = true) (env : Env) {t : Library}
    (ht : decodeCommand p.compression (files s) (request s env) = some t) :
    ∃ bytes resp, Reach (sessionStep p) (ByLibrary p) s
        { s with
          gadget := polledGadget s.gadget
          hreq := ⟨true, 0, s.gadget.store.fileEndOffset⟩
          library := .message (request s env) bytes
          tmp := t.tmp
          gz := t.gz
          resp } ∧
      resp.file = t.resp ∧ resp.numSectors = s.resp.numSectors ∧
      commitResponseMessage env.commOpens s.exchange.comm bytes = t.comm ∧
      t.ready = if env.commOpens then some ⟨request s env, bytes⟩ else none := by
  obtain ⟨bytes, resp, hreach, hfiles⟩ := reach_message (p := p)
    (s := { s with
      gadget := polledGadget s.gadget
      library := .dump (handleCommandLine s.exchange.comm)
      hreq := ⟨true, 0, s.gadget.store.fileEndOffset⟩ })
    (r := request s env) rfl env rfl ht
  exact ⟨bytes, resp, (reach_dump hlib hio hflag).trans hreach, hfiles⟩

/-- The system when `ALL` has arrived. -/
def allArrived : SessionState := (runFrom (sessionStep plain) beforeAll allSchedule).getD beforeAll

/-- `ALL` is handled, though there is no log. -/
theorem handled_all : ∃ s bytes, Reach (sessionStep plain) (ByLibrary plain) allArrived s ∧
    s.library = .message (request allArrived opening) bytes := by
  obtain ⟨t, ht⟩ : ∃ t, decodeCommand false (files allArrived) (request allArrived opening) = some t :=
    ⟨_, rfl⟩
  obtain ⟨bytes, resp, hreach, -⟩ := handled_alone plain (s := allArrived) rfl rfl rfl opening ht
  exact ⟨_, bytes, hreach, rfl⟩

theorem reach_three_bytes : ∃ s, Reach (sessionStep plain) (ByLibrary plain) allArrived s ∧
    s.library = .message (request allArrived opening) 3 ∧ s.resp.file.take 3 = [1, 2, 3] ∧
      s.resp.numSectors = 1 ∧ s.exchange = allArrived.exchange ∧ s.host = .sending true ∧
      s.answers = [] := by
  obtain ⟨t, ht, hready, hresp⟩ :
      ∃ t, decodeCommand false (files allArrived) (request allArrived opening) = some t ∧
        t.ready = some ⟨request allArrived opening, 3⟩ ∧ t.resp.take 3 = [1, 2, 3] :=
    ⟨_, rfl, rfl, rfl⟩
  obtain ⟨bytes, resp, hreach, hfile, hnum, -, hr⟩ := reach_message (p := plain)
    (s := { allArrived with
      gadget := polledGadget allArrived.gadget
      library := .dump (handleCommandLine allArrived.exchange.comm)
      hreq := ⟨true, 0, allArrived.gadget.store.fileEndOffset⟩ })
    (r := request allArrived opening) rfl opening rfl ht
  obtain rfl : bytes = 3 := by
    rw [hready] at hr
    exact (congrArg Ready.bytes (Option.some.inj hr)).symm
  refine ⟨_, (reach_dump (s := allArrived) rfl rfl rfl).trans hreach, rfl, ?_, hnum, rfl, rfl, rfl⟩
  rw [← hfile] at hresp
  exact hresp

end Library

/-! ### The host library -/

section Host

/-- A system in which nothing fails. -/
def willing : HostEnv := ⟨[], fun _ _ => [], some fun _ => 0, some fun _ => 0, 0, true⟩

theorem host_step (hprompt : s.host ≠ .prompt) (hs : hostStep p.behind willing s = some s') :
    Reach (sessionStep p) (ByHost p) s s' := by
  refine (Reach.refl s).snoc (a := .host willing) ⟨?_, willing, rfl⟩ hs
  unfold Works
  cases hhost : s.host with
  | prompt => exact absurd hhost hprompt
  | ready | copyToUser | record => simp [willing]
  | _ => trivial

theorem reach_copyToUser {size : UInt64} {data : ℕ → UInt8} {v : HardLog.Host.ReadResponse.Vars}
    (hhost : s.host = .reading size data v) : ∃ responseBuffer,
      Reach (sessionStep p) (ByHost p) s { s with host := .copyToUser size data responseBuffer } := by
  induction hr : v.size using Nat.strong_induction_on generalizing s v with
  | _ r ih =>
    have hstep : ∀ s', hostStep p.behind willing s = some s' →
        Reach (sessionStep p) (ByHost p) s s' := fun s' => host_step (by simp [hhost])
    cases hsector : s.resp.sector v.brspdeviceSector with
    | none => exact ⟨v.data, hstep _ (by simp [hostStep, hhost, hsector])⟩
    | some bytes =>
      by_cases hlast : v.size ≤ 512
      · exact ⟨(v.advance bytes).data, hstep _ (by simp [hostStep, hhost, hsector, hlast])⟩
      · obtain ⟨v', hv'⟩ : ∃ v' : HardLog.Host.ReadResponse.Vars,
            v' = { v.advance bytes with size := v.size - 512 } := ⟨_, rfl⟩
        have hfirst : Reach (sessionStep p) (ByHost p) s { s with host := .reading size data v' } :=
          hstep _ (by simp [hostStep, hhost, hsector, hlast, hv'])
        obtain ⟨responseBuffer, hrest⟩ := ih v'.size (by rw [hv']; simp only; omega)
          (s := { s with host := .reading size data v' }) rfl rfl
        exact ⟨responseBuffer, hfirst.trans hrest⟩

theorem reach_prompt {size : UInt64} {data b : ℕ → UInt8}
    (hhost : s.host = .copyToUser size data b ∨ s.host = .record size data) :
    ∃ received, Reach (sessionStep p) (ByHost p) s { s with host := .prompt, received } := by
  have hrecord : ∀ (s : SessionState) (data : ℕ → UInt8), s.host = .record size data →
      ∃ received, Reach (sessionStep p) (ByHost p) s { s with host := .prompt, received } := by
    intro s data hhost
    exact ⟨_, host_step (by simp [hhost]) (by simp [hostStep, hhost, willing]; rfl)⟩
  rcases hhost with hhost | hhost
  · obtain ⟨received, hrest⟩ := hrecord { s with
      host := .record size (memcpy data 0 (slice b 0 size.toNat)) } _ rfl
    refine ⟨received, Reach.trans (host_step (by simp [hhost]) ?_) hrest⟩
    simp [hostStep, hhost, willing]
  · exact hrecord s data hhost

theorem reach_recorded {size : UInt64} {data : ℕ → UInt8} (hhost : s.host = .ready size data ∨
    ∃ v, s.host = .reading size data v) :
    ∃ received, Reach (sessionStep p) (ByHost p) s { s with host := .prompt, received } := by
  have hread : ∀ (s : SessionState) v, s.host = .reading size data v →
      ∃ received, Reach (sessionStep p) (ByHost p) s { s with host := .prompt, received } := by
    intro s v hhost
    obtain ⟨responseBuffer, hcopy⟩ := reach_copyToUser (p := p) hhost
    obtain ⟨received, hrest⟩ := reach_prompt (p := p)
      (s := { s with host := .copyToUser size data responseBuffer }) (Or.inl rfl)
    exact ⟨received, hcopy.trans hrest⟩
  rcases hhost with hhost | ⟨v, hhost⟩
  · obtain ⟨received, hrest⟩ := hread
      { s with host := .reading size data ⟨fun _ => 0, size.toNat, 0, 0, []⟩ } _ rfl
    refine ⟨received, Reach.trans (host_step (by simp [hhost]) ?_) hrest⟩
    simp [hostStep, hhost, willing]
  · exact hread s v hhost

/-- **A poll** of an announced response finds it, and the response is recorded. -/
theorem reach_recorded_of_waiting (h : Inv p s) {n : ℕ} (hphase : s.exchange.phase = .committed n)
    (hhost : s.host = .waiting) :
    ∃ s', Reach (sessionStep p) (ByHost p) s s' ∧ s'.host = .prompt ∧ s'.answers = s.answers := by
  have hag := h.agrees
  rw [Agrees, hphase] at hag
  obtain ⟨s1, hs1⟩ : ∃ s1, s1 = { s with
    exchange := s.exchange.checkResponseReady
    host := .ready (UInt64.ofNat n) fun _ => 0 } := ⟨_, rfl⟩
  have hpolled : s.exchange.checkResponseReady.hreqData.bytes = s.exchange.polled := rfl
  have hpoll : Reach (sessionStep p) (ByHost p) s s1 := by
    refine host_step (by simp [hhost]) ?_
    simp only [hostStep, hhost, pollStep, hpolled, hag.1, hag.2, willing, if_true, hs1]
  have hready : s1.host = .ready (UInt64.ofNat n) fun _ => 0 := by rw [hs1]
  obtain ⟨received, hrest⟩ := reach_recorded (p := p) (Or.inl hready)
  exact ⟨_, hpoll.trans hrest, rfl, by rw [hs1]⟩

theorem Inv.reach_prompt (h : Inv p s) {n : ℕ} (hphase : s.exchange.phase = .committed n)
    (hexited : s.host ≠ .exited) :
    ∃ s', Reach (sessionStep p) (ByHost p) s s' ∧ s'.host = .prompt ∧ s'.answers = s.answers := by
  cases hhost : s.host with
  | prompt => exact ⟨s, Reach.refl s, hhost, rfl⟩
  | sending arrived =>
    have hsent : hostStep p.behind willing s = some { s with host := .waiting } := by
      simp only [hostStep, hhost]
    have hwaiting : Inv p { s with host := .waiting } :=
      h.host_step (e := willing) (by simp [Works, hhost]) hsent
    obtain ⟨s', hreach, hprompt, hans⟩ := reach_recorded_of_waiting hwaiting (n := n) hphase rfl
    exact ⟨s', Reach.trans (host_step (by simp [hhost]) hsent) hreach, hprompt, hans⟩
  | waiting => exact reach_recorded_of_waiting h hphase hhost
  | ready size data =>
    obtain ⟨received, hreach⟩ := reach_recorded (p := p) (Or.inl hhost)
    exact ⟨_, hreach, rfl, rfl⟩
  | reading size data v =>
    obtain ⟨received, hreach⟩ := reach_recorded (p := p) (Or.inr ⟨v, hhost⟩)
    exact ⟨_, hreach, rfl, rfl⟩
  | copyToUser size data responseBuffer =>
    obtain ⟨received, hreach⟩ := Completion.reach_prompt (p := p) (Or.inl hhost)
    exact ⟨_, hreach, rfl, rfl⟩
  | record size data =>
    obtain ⟨received, hreach⟩ :=
      Completion.reach_prompt (p := p) (b := data) (Or.inr hhost)
    exact ⟨_, hreach, rfl, rfl⟩
  | exited => exact absurd hhost hexited

end Host

end HardLog.System.Completion
