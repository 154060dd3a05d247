import HardLog.Device.Response
import HardLog.Lib.Runs

/-! # Responses of earlier requests

When `dump_log` or `filter_and_dump_log` gives up before it opens the temporary file, that file is
still the one of the request before, and `commit` sends it under a new `READY`; when pigz fails, it
sends the old `response.gz`. And `dump_log` writes all of `tmpbuf`, also the part it has not read
into, which is whatever `malloc` returned. `noStale_iff` says exactly when a request announces no
bytes but those that its own command and offsets select, `always_noStale_iff` says it of a run. -/

namespace HardLog.Device.Stale

open HardLog.Lib.CString HardLog.Lib.Runs HardLog.Device.Response

variable {compression : Bool} {s s' : Library} {r : Request}

/-! ### The property -/

/-- Memory of zeros. -/
def zeros : Buffer bufSize := ⟨List.replicate bufSize 0, List.length_replicate ..⟩

/-- The request, with zeros in the memory that `malloc` returns. Its first step depends on nothing but
the log, the command, the offsets, and on what can be opened and allocated. -/
def cleaned (r : Request) : Request :=
  { r with env := { r.env with tmpbuf := r.env.tmpbuf.map fun _ => zeros } }

/-- What becomes of the bytes of the temporary file before they are sent. -/
def stored (compression : Bool) (env : Env) (bytes : List UInt8) : Option (List UInt8) :=
  if compression then env.pigz.map fun pigz => pigz.compress bytes else some bytes

/-- The bytes that the last message announces were made by the request it answers, and of nothing
but its own command and offsets: the first step of that request has written them to the temporary
file, and would have with any memory from `malloc`. -/
def NoStale (compression : Bool) (s : Library) : Prop :=
  ∀ m, s.ready = some m → m.bytes ≠ 0 →
    ∃ bytes, dump m.request = .wrote bytes ∧ dump (cleaned m.request) = .wrote bytes ∧
      stored compression m.request.env bytes = some (s.resp.take m.bytes)

/-! ### When a request is safe -/

/-- The number of bytes `dump_log` is to read. -/
def size (r : Request) : ℕ := (r.logFileEndOffset - r.logFileStartOffset).toNat

/-- The first step of the request creates the temporary file anew. -/
def Creates (r : Request) : Prop :=
  (r.command = ofChars "ALL".toList → size r < 100 * 1024 * 1024) ∧
  r.env.log.isSome = true ∧ r.env.tmpOpens = true

/-- The file that `commit` looks for is made in the course of the request. -/
def Makes (compression : Bool) (r : Request) : Prop :=
  Creates r ∧ (compression = true → r.env.pigz.isSome = true)

/-- If `dump_log` comes to fill `tmpbuf`, there is nothing in the part it does not fill. -/
def Clean (r : Request) : Prop :=
  r.command = ofChars "ALL".toList → r.env.trimbuf = true → size r ≠ 0 →
    ∀ log ∈ r.env.log, ∀ tmpbuf ∈ r.env.tmpbuf,
      let chunk := (fseek log r.logFileStartOffset).take bufSize
      chunk ≠ [] → removeNullChars (tmpbuf.bytes.drop chunk.length) = []

/-- Nothing that `commit` calls fails, so that it sends what it finds. -/
def Sends (env : Env) : Prop :=
  env.tmpReopens = true ∧ env.respOpens = true ∧ env.readbuf = true ∧ env.commOpens = true

/-- What there is for `commit` to find if the request makes nothing. -/
def leftover (compression : Bool) (s : Library) (r : Request) : Option (List UInt8) :=
  if compression then commitCompress r.env s.tmp s.gz else s.tmp

/-- The request makes the file that is sent, and makes it in clean memory; or it makes none, and
earlier requests have left nothing; or nothing is sent. -/
def Fresh (compression : Bool) (s : Library) (r : Request) : Prop :=
  ¬ Sends r.env ∨ (Makes compression r ∧ Clean r) ∨
    (¬ Makes compression r ∧ ∀ f, leftover compression s r = some f → f = [])

/-! ### The first step -/

theorem dump_eq_wrote_iff (r : Request) : (∃ bytes, dump r = .wrote bytes) ↔ Creates r := by
  unfold dump Creates
  by_cases hall : r.command = ofChars "ALL".toList
  · rw [if_pos hall, dumpLog]
    cases r.env.log <;> cases r.env.tmpbuf <;> cases r.env.trimbuf <;> cases r.env.tmpOpens <;>
      simp [hall, size] <;> split_ifs <;> simp <;> omega
  · rw [if_neg hall, filterAndDumpLog]
    have hany : r.command = ofChars "ALL".toList → size r < 100 * 1024 * 1024 :=
      fun h => absurd h hall
    simp only [iff_true_intro hany, true_and]
    cases r.env.log <;> cases r.env.tmpOpens <;> simp

theorem removeNullChars_zeros (n : ℕ) : removeNullChars (List.replicate n 0) = [] := by
  simp [removeNullChars]

theorem dumpLoop_nil (fuel bytes : ℕ) (tmpbuf : List UInt8) : dumpLoop fuel [] bytes tmpbuf = [] := by
  cases fuel <;> simp [dumpLoop]

/-- The loop of `dump_log` writes what it does with clean memory, and, if its first chunk is short,
the rest of `tmpbuf`. -/
theorem dumpLoop_eq {fuel bytes : ℕ} {logFile : List UInt8} (tmpbuf : Buffer bufSize)
    (hfuel : bytes ≤ fuel) (hbytes : bytes ≠ 0) (hchunk : logFile.take bufSize ≠ []) :
    dumpLoop fuel logFile bytes tmpbuf.bytes =
      dumpLoop fuel logFile bytes zeros.bytes ++
        removeNullChars (tmpbuf.bytes.drop (logFile.take bufSize).length) := by
  cases fuel with
  | zero => omega
  | succ fuel =>
    simp only [dumpLoop, hbytes, hchunk, or_self, if_false]
    by_cases hfull : bufSize ≤ logFile.length
    · -- the chunk fills either buffer
      have hlen : (logFile.take bufSize).length = bufSize := by simp; omega
      have hdrop : ∀ b : Buffer bufSize, b.bytes.drop (logFile.take bufSize).length = [] :=
        fun b => List.drop_of_length_le (by rw [hlen, b.length_bytes])
      simp only [hdrop]
      simp [removeNullChars]
    · -- behind a short chunk the loop ends
      have hrest : logFile.drop bufSize = [] := List.drop_of_length_le (by omega)
      have hzeros : removeNullChars (zeros.bytes.drop (logFile.take bufSize).length) = [] := by
        rw [zeros, List.drop_replicate, removeNullChars_zeros]
      simp only [hrest, dumpLoop_nil, ite_self, List.append_nil, removeNullChars_append, hzeros]

/-- With clean memory the loop writes a prefix of what it writes, and all of it exactly when its first
chunk, if it comes to one, is all there is in `tmpbuf`. -/
theorem dumpLoop_zeros (bytes : ℕ) (logFile : List UInt8) (tmpbuf : Buffer bufSize) :
    dumpLoop bytes logFile bytes zeros.bytes <+: dumpLoop bytes logFile bytes tmpbuf.bytes ∧
      (dumpLoop bytes logFile bytes zeros.bytes = dumpLoop bytes logFile bytes tmpbuf.bytes ↔
        (bytes ≠ 0 → logFile.take bufSize ≠ [] →
          removeNullChars (tmpbuf.bytes.drop (logFile.take bufSize).length) = [])) := by
  by_cases hbytes : bytes = 0
  · simp [hbytes, dumpLoop]
  · by_cases hchunk : logFile.take bufSize = []
    · obtain ⟨n, rfl⟩ := Nat.exists_eq_succ_of_ne_zero hbytes
      simp [dumpLoop, hchunk]
    · rw [dumpLoop_eq tmpbuf (Nat.le_refl _) hbytes hchunk, List.self_eq_append_right]
      exact ⟨List.prefix_append .., fun h _ _ => h, fun h => h hbytes hchunk⟩

/-- **Clean memory**: with zeros in `tmpbuf` the first step writes a prefix of what it writes, and all
of it exactly when the memory is clean. -/
theorem dump_cleaned {bytes : List UInt8} (h : dump r = .wrote bytes) :
    ∃ own, dump (cleaned r) = .wrote own ∧ own <+: bytes ∧ (own = bytes ↔ Clean r) := by
  by_cases hall : r.command = ofChars "ALL".toList
  · have hsize : ¬ 100 * 1024 * 1024 ≤ size r :=
      Nat.not_le.mpr (((dump_eq_wrote_iff r).mp ⟨bytes, h⟩).1 hall)
    have hall' : (cleaned r).command = ofChars "ALL".toList := hall
    have hsize' : ¬ 100 * 1024 * 1024 ≤ size (cleaned r) := hsize
    rw [size] at hsize hsize'
    rw [dump, if_pos hall, dumpLog, if_neg hsize] at h
    rw [dump, if_pos hall', dumpLog, if_neg hsize']
    cases hlog : r.env.log with
    | none => simp [hlog] at h
    | some log =>
      cases hbuf : r.env.tmpbuf with
      | none =>
        refine ⟨bytes, by simpa [cleaned, hlog, hbuf] using h, List.prefix_refl _, ?_⟩
        exact iff_of_true rfl fun _ _ _ _ _ _ hb => by simp [hbuf] at hb
      | some tmpbuf =>
        cases htrim : r.env.trimbuf with
        | false =>
          refine ⟨bytes, by simpa [cleaned, hlog, hbuf, htrim] using h, List.prefix_refl _, ?_⟩
          exact iff_of_true rfl fun _ ht => by simp [htrim] at ht
        | true =>
          cases hopen : r.env.tmpOpens with
          | false => simp [hlog, hbuf, htrim, hopen] at h
          | true =>
            have hclean : Clean r ↔ (size r ≠ 0 →
                (fseek log r.logFileStartOffset).take bufSize ≠ [] →
                removeNullChars (tmpbuf.bytes.drop
                  ((fseek log r.logFileStartOffset).take bufSize).length) = []) := by
              simp [Clean, hall, hlog, hbuf, htrim]
            have hbytes : dumpLoop (size r) (fseek log r.logFileStartOffset) (size r) tmpbuf.bytes =
                bytes := by simpa [size, hlog, hbuf, htrim, hopen] using h
            obtain ⟨hpre, heq⟩ :=
              dumpLoop_zeros (size r) (fseek log r.logFileStartOffset) tmpbuf
            rw [hbytes] at hpre heq
            refine ⟨_, ?_, hpre, heq.trans hclean.symm⟩
            simp [cleaned, hlog, hbuf, htrim, hopen, size]
  · have hsame : dump (cleaned r) = dump r := by
      rw [dump, dump, if_neg hall, if_neg (show (cleaned r).command ≠ _ from hall)]
      rfl
    exact ⟨bytes, hsame.trans h, List.prefix_refl _, iff_of_true rfl fun hc => absurd hc hall⟩

theorem dump_cleaned_iff {bytes : List UInt8} (h : dump r = .wrote bytes) :
    dump (cleaned r) = .wrote bytes ↔ Clean r := by
  obtain ⟨own, hown, -, heq⟩ := dump_cleaned h
  rw [hown, ← heq, Dump.wrote.injEq]

/-! ### What `commit` sends -/

/-- The temporary file after the first step. -/
def tmpAfter (s : Library) (r : Request) : Option (List UInt8) :=
  match dump r with
  | .wrote bytes => some bytes
  | _ => s.tmp

/-- The file that `commit` sends, if it sends one. -/
def sent (compression : Bool) (s : Library) (r : Request) : Option (List UInt8) :=
  leftover compression { s with tmp := tmpAfter s r } r

theorem sent_of_makes (h : Makes compression r) :
    ∃ bytes f, dump r = .wrote bytes ∧ stored compression r.env bytes = some f ∧
      sent compression s r = some f := by
  obtain ⟨bytes, hb⟩ := (dump_eq_wrote_iff r).mpr h.1
  have htmp : tmpAfter s r = some bytes := by simp [tmpAfter, hb]
  cases compression with
  | false => exact ⟨bytes, bytes, hb, rfl, htmp⟩
  | true =>
    obtain ⟨pigz, hp⟩ := Option.isSome_iff_exists.mp (h.2 rfl)
    exact ⟨bytes, pigz.compress bytes, hb, by simp [stored, hp],
      by simp [sent, leftover, commitCompress, hp, htmp]⟩

theorem sent_of_not_makes (h : ¬ Makes compression r) :
    sent compression s r = leftover compression s r := by
  by_cases hc : Creates r
  · have hz : compression = true ∧ r.env.pigz = none := by
      cases compression <;> cases hp : r.env.pigz <;> simp_all [Makes]
    obtain ⟨rfl, hp⟩ := hz
    simp [sent, leftover, commitCompress, hp]
  · have htmp : tmpAfter s r = s.tmp := by
      unfold tmpAfter
      split
      · next bytes hb => exact absurd ((dump_eq_wrote_iff r).mp ⟨bytes, hb⟩) hc
      · rfl
    rw [sent, htmp]

/-- **One request**: the first step, and then `commit`, whatever became of the first step. -/
theorem decodeCommand_eq (h : decodeCommand compression s r = some s') :
    s' = commit compression r { s with tmp := tmpAfter s r } := by
  unfold decodeCommand at h
  split at h
  · next hd => simpa [tmpAfter, hd] using h.symm
  · next hd => simpa [tmpAfter, hd] using h.symm
  · cases h

theorem noStale_decodeCommand_iff (h : decodeCommand compression s r = some s') :
    NoStale compression s' ↔ (Sends r.env → ∀ f, sent compression s r = some f → f ≠ [] →
      ∃ bytes, dump r = .wrote bytes ∧ dump (cleaned r) = .wrote bytes ∧
        stored compression r.env bytes = some f) := by
  obtain rfl := decodeCommand_eq h
  have hresp : (commit compression r { s with tmp := tmpAfter s r }).resp =
      (commitResponse r.env (sent compression s r) s.resp).2 := by cases compression <;> rfl
  have hready : (commit compression r { s with tmp := tmpAfter s r }).ready =
      if r.env.commOpens then
        some ⟨r, (commitResponse r.env (sent compression s r) s.resp).1⟩ else none := by
    cases compression <;> rfl
  unfold NoStale
  rw [hresp, hready]
  constructor
  · rintro hno ⟨h1, h2, h3, h4⟩ f hf hne
    have hn := (commitResponse_ne_zero_iff r.env (sent compression s r) s.resp).mpr
      ⟨⟨h1, h2, h3⟩, f, hf, hne⟩
    obtain ⟨g, hg, hlen, htake⟩ := commitResponse_delivers hn
    obtain ⟨bytes, hb, hb', hst⟩ := hno _ (if_pos h4) hn
    rw [hlen, htake] at hst
    rw [hg] at hf
    exact ⟨bytes, hb, hb', hst.trans hf⟩
  · intro hown m hm hn
    split_ifs at hm with h4
    obtain rfl := Option.some.inj hm
    obtain ⟨⟨h1, h2, h3⟩, f, hf, hne⟩ := (commitResponse_ne_zero_iff _ _ _).mp hn
    obtain ⟨g, hg, hlen, htake⟩ := commitResponse_delivers hn
    obtain ⟨bytes, hb, hb', hst⟩ := hown ⟨h1, h2, h3, h4⟩ f hf hne
    refine ⟨bytes, hb, hb', ?_⟩
    rw [hlen, htake, hst, ← hf, hg]

/-! ### Requests, and runs of them -/

theorem stored_ne_nil {bytes f : List UInt8} (h : ¬ Clean r) (hb : dump r = .wrote bytes)
    (hst : stored compression r.env bytes = some f) : f ≠ [] := by
  cases compression with
  | true =>
    obtain ⟨pigz, -, rfl⟩ := Option.map_eq_some_iff.mp hst
    exact pigz.compress_ne_nil bytes
  | false =>
    obtain rfl := Option.some.inj hst
    rintro rfl
    obtain ⟨own, -, hpre, heq⟩ := dump_cleaned hb
    exact h (heq.mp (List.prefix_nil.mp hpre))

/-- **One request** announces no stale bytes exactly when it is fresh. -/
theorem noStale_iff (h : decodeCommand compression s r = some s') :
    NoStale compression s' ↔ Fresh compression s r := by
  rw [noStale_decodeCommand_iff h, Fresh]
  by_cases hsends : Sends r.env
  · simp only [hsends, not_true, false_or, true_implies]
    by_cases hmakes : Makes compression r
    · obtain ⟨bytes, f, hb, hst, hf⟩ := sent_of_makes (s := s) hmakes
      simp only [hmakes, true_and, not_true, false_and, or_false]
      rw [← dump_cleaned_iff hb]
      constructor
      · intro hown
        by_contra hc
        have hne : f ≠ [] := stored_ne_nil (fun hclean => hc ((dump_cleaned_iff hb).mpr hclean)) hb hst
        obtain ⟨bytes', hb', hc', -⟩ := hown f hf hne
        rw [hb] at hb'
        obtain rfl := Dump.wrote.inj hb'
        exact hc hc'
      · intro hc g hg _
        rw [hf] at hg
        exact ⟨bytes, hb, hc, Option.some.inj hg ▸ hst⟩
    · rw [sent_of_not_makes hmakes]
      simp only [hmakes, false_and, not_false_eq_true, true_and, false_or]
      constructor
      · intro hown f hf
        by_contra hne
        obtain ⟨bytes, hb, -, hst⟩ := hown f hf hne
        refine hmakes ⟨(dump_eq_wrote_iff r).mp ⟨bytes, hb⟩, ?_⟩
        rintro rfl
        cases hp : r.env.pigz with
        | none => simp [stored, hp] at hst
        | some pigz => rfl
      · intro hnone f hf hne
        exact absurd (hnone f hf) hne
  · simp [hsends]

/-- **No stale response**: in a run of the device library, whatever files it starts with, every message
announces bytes of its own request exactly when each request is fresh. -/
theorem always_noStale_iff (compression : Bool) (tmp gz : Option (List UInt8))
    (resp comm : List UInt8) (rs : List Request) :
    Always (decodeCommand compression) (NoStale compression) ⟨tmp, gz, resp, comm, none⟩ rs ↔
      EachStep (decodeCommand compression) (Fresh compression) ⟨tmp, gz, resp, comm, none⟩ rs := by
  have hiff : ∀ s r s', True → decodeCommand compression s r = some s' →
      (NoStale compression s' ↔ Fresh compression s r) := fun s r s' _ h => noStale_iff h
  refine always_iff_eachStep (fun _ _ _ _ _ _ => trivial) hiff rs trivial fun m hm => ?_
  cases hm

/-- The answers to a request in which nothing fails, with a log of one byte. -/
def fair : Env where
  log := some [65]
  tmpOpens := true
  tmpbuf := some zeros
  trimbuf := true
  pigz := some ⟨([31, 139] ++ ·), fun _ => by simp⟩
  tmpReopens := true
  respOpens := true
  readbuf := true
  commOpens := true

/-- `ALL`, for the bytes from 0 to `fin`. -/
def all (fin : UInt64) : Request := ⟨ofChars "ALL".toList, 0, fin, fair⟩

/-- A request for one byte, and then one for 100 MB, which `dump_log` refuses: the second `READY`
announces the file of the first. -/
theorem refused_request_is_stale :
    ¬ Always (decodeCommand true) (NoStale true) ⟨none, none, [], [], none⟩
      [all 1, all (100 * 1024 * 1024)] := by
  intro h
  obtain ⟨bytes, hwrote⟩ := (dump_eq_wrote_iff (all 1)).mpr ⟨fun _ => by decide, rfl, rfl⟩
  have hkept : dump (all (100 * 1024 * 1024)) = .kept := by
    rw [dump, if_pos (by rfl), dumpLog, if_pos (by decide)]
  obtain ⟨s₁, h₁⟩ : ∃ s₁, decodeCommand true ⟨none, none, [], [], none⟩ (all 1) = some s₁ :=
    ⟨_, by rw [decodeCommand, hwrote]⟩
  obtain ⟨s₂, h₂⟩ : ∃ s₂, decodeCommand true s₁ (all (100 * 1024 * 1024)) = some s₂ :=
    ⟨_, by rw [decodeCommand, hkept]⟩
  have hfresh := (noStale_iff h₂).mp ((h.2 s₁ h₁).2 s₂ h₂)
  have hrefused : ¬ Makes true (all (100 * 1024 * 1024)) :=
    fun hm => absurd (hm.1.1 rfl) (by decide)
  -- the first request has left its file
  have htmp : s₁.tmp = some bytes := by
    rw [decodeCommand_eq h₁]
    simp [commit, tmpAfter, hwrote]
  rcases hfresh with hsends | ⟨hm, -⟩ | ⟨-, hnone⟩
  · exact hsends ⟨rfl, rfl, rfl, rfl⟩
  · exact hrefused hm
  · have hleft : leftover true s₁ (all (100 * 1024 * 1024)) = some ([31, 139] ++ bytes) := by
      simp [leftover, commitCompress, htmp, all, fair]
    exact absurd (hnone _ hleft) (by simp)

end HardLog.Device.Stale
