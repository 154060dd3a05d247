import HardLog.Device.Stale

/-! # Commands and their keys

`decode_command` removes the word `FILTER` from the command before it splits it, but not the first one
only: wherever the word stands, it and the byte behind it go, until there is none left.
`filterKey_eq_iff` says which keys survive that. A command that is not of the form it should be is
reported and then answered all the same, so `acceptsGrammar_iff` says that the code does what it should
for the commands of that form only. -/

namespace HardLog.Device.Decode

open HardLog.Lib.CString HardLog.Device.Response HardLog.Device.Stale

/-- `FILTER`. -/
def filterWord : List UInt8 := ofChars "FILTER".toList

/-- The words that a filter may begin with. -/
def criteria : List (List UInt8) :=
  [ofChars "KEY".toList, ofChars "SYSCALL".toList, ofChars "PNAME".toList]

/-- `FILTER`, a criterion and a key. -/
def filterCommand (criterion key : List UInt8) : List UInt8 :=
  filterWord ++ 32 :: (criterion ++ 32 :: key)

/-- What `decode_command` calls `filter_and_dump_log` with, if it does. -/
def filterKey (command : List UInt8) : Option (List UInt8) :=
  if command = ofChars "ALL".toList then none else some (rule command)

theorem dump_eq (r : Request) :
    dump r = match filterKey r.command with
      | none => dumpLog r
      | some key => filterAndDumpLog r key := by
  unfold dump filterKey
  split_ifs <;> rfl

/-! ### Removing a word -/

section Remove

variable {word : List UInt8} {len : ℕ}

theorem removeLoop_sublist (word : List UInt8) (len fuel : ℕ) (str : List UInt8) :
    (removeLoop word len fuel str).Sublist str := by
  induction fuel generalizing str with
  | zero => exact List.Sublist.refl _
  | succ fuel ih =>
    rw [removeLoop]
    split
    · exact List.Sublist.refl _
    · next p _ =>
      refine (ih _).trans ?_
      conv_rhs => rw [← List.take_append_drop p str]
      rw [← List.drop_drop]
      exact (List.Sublist.refl _).append (List.drop_sublist _ _)

theorem removeLoop_of_not_infix {str : List UInt8} (h : ¬ word <:+: str) (len fuel : ℕ) :
    removeLoop word len fuel str = str := by
  have hnone : find str word = none := by
    rwa [← find_isSome_iff, Bool.not_eq_true, Option.isSome_eq_false_iff,
      Option.isNone_iff_eq_none] at h
  rcases fuel with _ | fuel
  · rfl
  · simp only [removeLoop, hnone]

theorem length_removeLoop_lt {str : List UInt8} (h : word <:+: str) (hword : word ≠ []) (hlen : 0 < len)
    (fuel : ℕ) : (removeLoop word len (fuel + 1) str).length < str.length := by
  obtain ⟨p, hp⟩ := Option.isSome_iff_exists.mp ((find_isSome_iff str word).mpr h)
  have hpre := (find_eq_some_iff.mp hp).1.length_le
  have hpos := List.length_pos_iff.mpr hword
  rw [List.length_drop] at hpre
  simp only [removeLoop, hp]
  have hshort := (removeLoop_sublist word len fuel (str.take p ++ str.drop (p + len))).length_le
  rw [List.length_append, List.length_take, List.length_drop] at hshort
  omega

theorem removeLoop_append {before : List UInt8} {b : UInt8} (hb : b ∉ word)
    (hbefore : ¬ word <:+: before) (fuel : ℕ) (behind : List UInt8) :
    removeLoop word len fuel (before ++ b :: behind) =
      before ++ b :: removeLoop word len fuel behind := by
  induction fuel generalizing behind with
  | zero => rfl
  | succ fuel ih =>
    rw [removeLoop, removeLoop, find_append hb hbefore]
    rcases find behind word with _ | p
    · rfl
    · have htake : (before ++ b :: behind).take (p + (before.length + 1)) =
          before ++ b :: behind.take p := by
        rw [Nat.add_comm p, Nat.add_assoc, List.take_length_add_append, Nat.add_comm 1]
        rfl
      have hdrop : (before ++ b :: behind).drop (p + (before.length + 1) + len) =
          behind.drop (p + len) := by
        rw [show p + (before.length + 1) + len = before.length + (p + len + 1) by omega,
          List.drop_length_add_append]
        rfl
      simp only [Option.map_some, htake, hdrop]
      rw [List.append_assoc, List.cons_append, ih]

end Remove

/-! ### Keys -/

section Key

variable {criterion key : List UInt8}

/-- The key after the two loops of `removeWord`. -/
def stripped (key : List UInt8) (fuel fuel' : ℕ) : List UInt8 :=
  removeLoop filterWord (filterWord.length + 1) fuel'
    (removeLoop filterWord (filterWord.length + 1) fuel key)

theorem filterWord_spec : filterWord ≠ [] ∧ (32 : UInt8) ∉ filterWord := by decide

theorem criterion_spec (h : criterion ∈ criteria) :
    criterion ≠ [] ∧ (∀ b ∈ criterion, isSpace b = false) ∧ ¬ filterWord <:+: criterion := by
  simp only [criteria, List.mem_cons, List.not_mem_nil, or_false] at h
  rw [← find_isSome_iff]
  rcases h with rfl | rfl | rfl
  · exact ⟨by decide, isSpace_of_all (by decide), by decide⟩
  · exact ⟨by decide, isSpace_of_all (by decide), by decide⟩
  · exact ⟨by decide, isSpace_of_all (by decide), by decide⟩

/-- The leading `FILTER` goes, the criterion stays, and the key is stripped. -/
theorem removeWord_filterCommand (h : criterion ∈ criteria) (key : List UInt8) :
    ∃ fuel fuel', removeWord (filterCommand criterion key) filterWord =
      criterion ++ 32 :: stripped key (fuel + 1) fuel' := by
  obtain ⟨-, -, hnot⟩ := criterion_spec h
  have hfind : find (filterCommand criterion key) filterWord = some 0 :=
    find_of_prefix (List.prefix_append _ _)
  have hcut : (filterCommand criterion key).take 0 ++
      (filterCommand criterion key).drop (0 + (filterWord.length + 1)) = criterion ++ 32 :: key := by
    rw [filterCommand, Nat.zero_add, List.drop_length_add_append]
    rfl
  obtain ⟨fuel, hfuel⟩ : ∃ fuel, (filterCommand criterion key).length = fuel + 2 :=
    ⟨criterion.length + key.length + 6, by simp [filterCommand, filterWord, ofChars]; omega⟩
  have hfirst : removeLoop filterWord (filterWord.length + 1) (filterCommand criterion key).length
      (filterCommand criterion key) =
        criterion ++ 32 :: removeLoop filterWord (filterWord.length + 1) (fuel + 1) key := by
    rw [hfuel, removeLoop, hfind]
    simp only [hcut]
    exact removeLoop_append filterWord_spec.2 hnot (fuel + 1) key
  refine ⟨fuel, (criterion ++ 32 :: removeLoop filterWord (filterWord.length + 1) (fuel + 1) key).length,
    ?_⟩
  rw [removeWord, hfind, Option.isSome_some, if_pos rfl]
  simp only [hfirst]
  exact removeLoop_append filterWord_spec.2 hnot _ _

theorem stripped_spec (hkey : ∀ b ∈ key, isSpace b = false) (fuel fuel' : ℕ) :
    (∀ b ∈ stripped key fuel fuel', isSpace b = false) ∧
      (stripped key fuel fuel').length ≤ (removeLoop filterWord (filterWord.length + 1) fuel key).length := by
  have hsub := removeLoop_sublist filterWord (filterWord.length + 1) fuel key
  have hsub' := removeLoop_sublist filterWord (filterWord.length + 1) fuel'
    (removeLoop filterWord (filterWord.length + 1) fuel key)
  exact ⟨fun b hb => hkey b ((hsub'.trans hsub).subset hb), hsub'.length_le⟩

theorem rule_filterCommand (h : criterion ∈ criteria) (hkey : ∀ b ∈ key, isSpace b = false) :
    ∃ fuel fuel', rule (filterCommand criterion key) = stripped key (fuel + 1) fuel' := by
  obtain ⟨hne, hspace, -⟩ := criterion_spec h
  obtain ⟨fuel, fuel', heq⟩ := removeWord_filterCommand h key
  refine ⟨fuel, fuel', ?_⟩
  obtain ⟨n, hn⟩ : ∃ n, (removeWord (filterCommand criterion key) filterWord).length = n + 2 := by
    have hpos := List.length_pos_iff.mpr hne
    refine ⟨criterion.length + (stripped key (fuel + 1) fuel').length - 1, ?_⟩
    rw [heq, List.length_append, List.length_cons]
    omega
  rw [rule, ← filterWord]
  simp only [hn]
  rw [heq, words_pair n hne hspace (stripped_spec hkey _ _).1]
  split_ifs with hnil
  · rw [hnil]
    rfl
  · rfl

/-- **Keys**: a filter is on its key exactly if the word `FILTER` is not in the key. -/
theorem filterKey_eq_iff (h : criterion ∈ criteria) (hkey : ∀ b ∈ key, isSpace b = false) :
    filterKey (filterCommand criterion key) = some key ↔ ¬ filterWord <:+: key := by
  obtain ⟨fuel, fuel', hrule⟩ := rule_filterCommand h hkey
  have hcommand : filterCommand criterion key ≠ ofChars "ALL".toList := by
    intro heq
    have hhead : filterWord.head? = some 70 := by decide
    have hfirst := congrArg List.head? heq
    rw [filterCommand, List.head?_append, hhead, Option.some_or] at hfirst
    exact absurd hfirst (by decide)
  rw [filterKey, if_neg hcommand, hrule, Option.some.injEq]
  constructor
  · intro heq hin
    have hlt := length_removeLoop_lt hin filterWord_spec.1
      (show 0 < filterWord.length + 1 by omega) fuel
    have hle := (stripped_spec hkey (fuel + 1) fuel').2
    rw [heq] at hle
    omega
  · intro hnot
    rw [stripped, removeLoop_of_not_infix hnot, removeLoop_of_not_infix hnot]

end Key

/-- The key `sshd`. -/
theorem filterKey_sshd :
    filterKey (filterCommand (ofChars "PNAME".toList) (ofChars "sshd".toList)) =
      some (ofChars "sshd".toList) := by
  refine (filterKey_eq_iff (by decide) (isSpace_of_all (by decide))).mpr ?_
  rw [← find_isSome_iff]
  decide

/-- The record type `NETFILTER_CFG`: the filter is on `NETCFG`. -/
theorem filterKey_netfilter_cfg :
    filterKey (filterCommand (ofChars "KEY".toList) (ofChars "NETFILTER_CFG".toList)) =
        some (ofChars "NETCFG".toList) ∧
      filterKey (filterCommand (ofChars "KEY".toList) (ofChars "NETFILTER_CFG".toList)) ≠
        some (ofChars "NETFILTER_CFG".toList) := by
  have hkey : filterKey (filterCommand (ofChars "KEY".toList) (ofChars "NETFILTER_CFG".toList)) =
      some (ofChars "NETCFG".toList) := by decide +kernel
  refine ⟨hkey, ?_⟩
  rw [hkey]
  decide

/-! ### Commands -/

/-- The form of a command: `ALL`, or a criterion and a key, behind a `FILTER` or not. -/
def Grammatical (command : List UInt8) : Prop :=
  command = ofChars "ALL".toList ∨ ∃ criterion ∈ criteria, ∃ key,
    words command.length command = [criterion, key] ∨
      words command.length command = [filterWord, criterion, key]

/-- Nothing that the code calls fails, and what it is to read is not too much. -/
def Works (compression : Bool) (r : Request) : Prop :=
  Makes compression r ∧ Sends r.env ∧ r.env.tmpbuf.isSome = true ∧ r.env.trimbuf = true

/-- A response is made, and committed under a `READY` for the request. -/
def Answered (compression : Bool) (r : Request) (s' : Library) : Prop :=
  ∃ bytes f, dump r = .wrote bytes ∧ stored compression r.env bytes = some f ∧
    s'.ready = some ⟨r, f.length⟩ ∧ s'.resp.take f.length = f

/-- Nothing of the log is written to the response, and no `READY` is committed. -/
def Refused (r : Request) (s' : Library) : Prop :=
  (∀ bytes, dump r = .wrote bytes → bytes = []) ∧ s'.ready = none

/-- **The grammar**: a command of this form is answered, any other one is refused. -/
def AcceptsGrammar (compression : Bool) (command : List UInt8) : Prop :=
  ∀ s r, r.command = command → Works compression r →
    ∃ s', decodeCommand compression s r = some s' ∧
      (Grammatical command → Answered compression r s') ∧ (¬ Grammatical command → Refused r s')

theorem answered_of_works {compression : Bool} {r : Request} (h : Works compression r) (s : Library) :
    ∃ s', decodeCommand compression s r = some s' ∧ Answered compression r s' := by
  obtain ⟨hmakes, ⟨hreopens, hresp, hread, hcomm⟩, -⟩ := h
  obtain ⟨bytes, f, hdump, hstored, hsent⟩ := sent_of_makes (s := s) hmakes
  obtain ⟨s', hs'⟩ : ∃ s', decodeCommand compression s r = some s' :=
    ⟨_, by rw [decodeCommand, hdump]⟩
  refine ⟨s', hs', bytes, f, hdump, hstored, ?_⟩
  obtain rfl := decodeCommand_eq hs'
  have hcommit : (commit compression r { s with tmp := tmpAfter s r }).resp =
        (commitResponse r.env (sent compression s r) s.resp).2 ∧
      (commit compression r { s with tmp := tmpAfter s r }).ready =
        some ⟨r, (commitResponse r.env (sent compression s r) s.resp).1⟩ := by
    cases compression <;> simp only [commit, hcomm, if_true] <;> exact ⟨rfl, rfl⟩
  rw [hcommit.1, hcommit.2, hsent]
  by_cases hf : f = []
  · simp [hf, commitResponse, hreopens, hresp, hread]
  · obtain ⟨g, hg, hlen, htake⟩ := commitResponse_delivers
      ((commitResponse_ne_zero_iff r.env (some f) s.resp).mpr ⟨⟨hreopens, hresp, hread⟩, f, rfl, hf⟩)
    obtain rfl := Option.some.inj hg
    exact ⟨by rw [hlen], htake⟩

/-- **Malformed commands**: the code keeps to the grammar exactly for the commands that have its form;
all others are answered too. -/
theorem acceptsGrammar_iff (compression : Bool) (command : List UInt8) :
    AcceptsGrammar compression command ↔ Grammatical command := by
  constructor
  · intro h
    by_contra hnot
    have hworks : Works compression ⟨command, 0, 0, fair⟩ :=
      ⟨⟨⟨fun _ => show ((0 : UInt64) - 0).toNat < _ by decide, rfl, rfl⟩, fun _ => rfl⟩,
        ⟨rfl, rfl, rfl, rfl⟩, rfl, rfl⟩
    have s : Library := ⟨none, none, [], [], none⟩
    obtain ⟨s', hs', -, hrefused⟩ := h s _ rfl hworks
    obtain ⟨s'', hs'', bytes, f, -, -, hready, -⟩ := answered_of_works hworks s
    obtain rfl := Option.some.inj (hs'.symm.trans hs'')
    rw [(hrefused hnot).2] at hready
    cases hready
  · rintro hgram s r rfl hworks
    obtain ⟨s', hs', hanswered⟩ := answered_of_works hworks s
    exact ⟨s', hs', fun _ => hanswered, fun hnot => absurd hgram hnot⟩

/-- `KEY` without a key: the answer has every line. -/
theorem key_missing :
    ¬ AcceptsGrammar true (ofChars "KEY".toList) ∧
      dump ⟨ofChars "KEY".toList, 0, 1, fair⟩ = .wrote [65, 10] := by
  refine ⟨fun h => ?_, by decide +kernel⟩
  have hwords : words (ofChars "KEY".toList).length (ofChars "KEY".toList) = [ofChars "KEY".toList] := by
    decide
  rcases (acceptsGrammar_iff _ _).mp h with hall | ⟨criterion, -, key, hpair | htriple⟩
  · exact absurd hall (by decide)
  · rw [hwords] at hpair
    exact absurd (congrArg List.length hpair) (by simp)
  · rw [hwords] at htriple
    exact absurd (congrArg List.length htriple) (by simp)

end HardLog.Device.Decode
