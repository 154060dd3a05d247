import Mathlib.Data.List.TakeWhile
import Mathlib.Tactic.Ring

/-! # Text in buffers

Bytes are `UInt8`. A C string is what a buffer holds up to its first NUL. `Buffer n` is a buffer of
`n` bytes, which `overwrite` changes from its start on and nowhere else; `snprintf` writes at most
`n - 1` bytes and a NUL. `extract` is the `>>` of a string stream into a string: it skips white
space and takes the bytes up to the next white space. -/

namespace HardLog.Lib.CString

/-- The bytes of a text. -/
def ofChars (cs : List Char) : List UInt8 := cs.map fun c => UInt8.ofNat c.toNat

/-- The text a list of bytes stands for. -/
def toChars (bs : List UInt8) : List Char := bs.map fun b => Char.ofNat b.toNat

/-- The bytes up to the first NUL. -/
def cstr (bs : List UInt8) : List UInt8 := bs.takeWhile (· != 0)

/-- Space, and the controls from tab to carriage return. -/
def isSpace (b : UInt8) : Bool := b == 32 || (9 ≤ b && b ≤ 13)

/-! ### Buffers -/

/-- A buffer of `n` bytes. -/
structure Buffer (n : ℕ) where
  bytes : List UInt8
  length_bytes : bytes.length = n
  deriving DecidableEq

variable {n : ℕ}

/-- The buffer after `text` was written to its start; what does not fit is not written. -/
def Buffer.overwrite (b : Buffer n) (text : List UInt8) : Buffer n where
  bytes := text.take n ++ b.bytes.drop text.length
  length_bytes := by simp [b.length_bytes]; omega

/-- What `snprintf` leaves in a buffer of `n` bytes for a rendering of any length. -/
def Buffer.snprintf (b : Buffer n) (rendered : List UInt8) : Buffer n :=
  b.overwrite (rendered.take (n - 1) ++ [0])

theorem Buffer.bytes_overwrite (b : Buffer n) {text : List UInt8} (h : text.length ≤ n) :
    (b.overwrite text).bytes = text ++ b.bytes.drop text.length := by
  simp only [Buffer.overwrite, List.take_of_length_le h]

theorem cstr_append {bs : List UInt8} (h : ∀ b ∈ bs, b ≠ 0) (rest : List UInt8) :
    cstr (bs ++ rest) = bs ++ cstr rest :=
  List.takeWhile_append_of_pos fun b hb => by simp [h b hb]

theorem cstr_append_nul (bs rest : List UInt8) : cstr (bs ++ 0 :: rest) = cstr bs := by
  induction bs with
  | nil => rfl
  | cons b bs ih =>
    simp only [cstr, List.cons_append, List.takeWhile_cons] at ih ⊢
    rw [ih]

/-- A buffer that `snprintf` filled holds the rendering as a C string, whatever lies behind it. -/
theorem Buffer.cstr_snprintf (hn : 0 < n) (b : Buffer n) (rendered behind : List UInt8) :
    cstr ((b.snprintf rendered).bytes ++ behind) = cstr (rendered.take (n - 1)) := by
  have hlen : (rendered.take (n - 1) ++ [(0 : UInt8)]).length ≤ n := by simp; omega
  rw [Buffer.snprintf, Buffer.bytes_overwrite b hlen, List.append_assoc, List.append_assoc,
    List.singleton_append, cstr_append_nul]

/-! ### Words -/

/-- `stream >> word`: the word and what is left behind it, if there is a word. -/
def extract (bs : List UInt8) : Option (List UInt8 × List UInt8) :=
  match bs.dropWhile isSpace with
  | [] => none
  | b :: rest => some ((b :: rest).takeWhile (!isSpace ·), (b :: rest).dropWhile (!isSpace ·))

/-- The words `stream >> word` gives one after the other; `fuel` bounds their number. -/
def words : ℕ → List UInt8 → List (List UInt8)
  | 0, _ => []
  | fuel + 1, bs =>
    match extract bs with
    | none => []
    | some (word, rest) => word :: words fuel rest

/-- The lines `getline` gives one after the other, without their newlines. -/
def lines : List UInt8 → List (List UInt8)
  | [] => []
  | c :: cs =>
    if c = 10 then [] :: lines cs
    else
      match lines cs with
      | [] => [[c]]
      | l :: ls => (c :: l) :: ls

/-- `str.find(word)`: the first place in `str` where `word` stands. -/
def find (str word : List UInt8) : Option ℕ :=
  (List.range (str.length + 1)).find? fun i => word.isPrefixOf (str.drop i)

theorem lines_append_newline (l rest : List UInt8) :
    lines (l ++ 10 :: rest) = lines (l ++ [10]) ++ lines rest := by
  induction l with
  | nil => simp [lines]
  | cons c l ih =>
    simp only [List.cons_append, lines]
    by_cases hc : c = 10
    · rw [if_pos hc, if_pos hc, ih, List.cons_append]
    · have hne : lines (l ++ [10]) ≠ [] := by
        cases l with
        | nil => simp [lines]
        | cons d l =>
          simp only [List.cons_append, lines]
          split_ifs
          · simp
          · split <;> simp
      obtain ⟨first, others, heq⟩ := List.exists_cons_of_ne_nil hne
      rw [if_neg hc, if_neg hc, ih, heq]
      rfl

/-! ### Lines -/

/-- The text with these lines, each of them ended by a newline. -/
def unlines (ls : List (List UInt8)) : List UInt8 := ls.flatMap (· ++ [10])

/-- The text with a newline behind its last line, if it has none there. -/
def terminated (text : List UInt8) : List UInt8 :=
  if text = [] ∨ text.getLast? = some 10 then text else text ++ [10]

theorem unlines_cons (l : List UInt8) (ls : List (List UInt8)) :
    unlines (l :: ls) = l ++ 10 :: unlines ls := by
  simp [unlines]

theorem unlines_append (ls ls' : List (List UInt8)) :
    unlines (ls ++ ls') = unlines ls ++ unlines ls' :=
  List.flatMap_append ..

theorem terminated_cons {c : UInt8} {cs : List UInt8} (h : c = 10 ∨ cs ≠ []) :
    terminated (c :: cs) = c :: terminated cs := by
  unfold terminated
  rcases List.eq_nil_or_concat cs with rfl | ⟨init, last, rfl⟩
  · simp [h.resolve_right (by simp)]
  · have hlast : (c :: (init ++ [last])).getLast? = some last := by
      rw [← List.cons_append, List.getLast?_append]
      rfl
    simp only [List.concat_eq_append, hlast, List.getLast?_append]
    by_cases hl : last = 10
    · simp [hl]
    · simp [hl]

theorem length_unlines (ls : List (List UInt8)) :
    (unlines ls).length = ls.flatten.length + ls.length := by
  induction ls with
  | nil => rfl
  | cons l ls ih =>
    rw [unlines_cons, List.flatten_cons, List.length_append, List.length_append, List.length_cons,
      List.length_cons, ih]
    omega

theorem length_terminated_le (text : List UInt8) : (terminated text).length ≤ text.length + 1 := by
  unfold terminated
  split_ifs <;> simp

theorem prefix_terminated (text : List UInt8) : text <+: terminated text := by
  unfold terminated
  split_ifs
  · exact List.prefix_refl _
  · exact List.prefix_append _ _

theorem terminated_append_newline (text : List UInt8) :
    terminated (text ++ [10]) = text ++ [10] := by
  simp [terminated, List.getLast?_append]

theorem terminated_of_length_ne (text : List UInt8) (h : (terminated text).length ≠ text.length) :
    text ≠ [] ∧ text.getLast? ≠ some 10 ∧ terminated text = text ++ [10] := by
  unfold terminated at h ⊢
  split_ifs at h ⊢ with hend
  · exact absurd rfl h
  · rw [not_or] at hend
    exact ⟨hend.1, hend.2, rfl⟩

theorem lines_eq_nil_iff (text : List UInt8) : lines text = [] ↔ text = [] := by
  constructor
  · intro h
    rcases text with _ | ⟨c, cs⟩
    · rfl
    · rw [lines] at h
      split_ifs at h
      split at h <;> cases h
  · rintro rfl
    rfl

theorem unlines_lines (text : List UInt8) : unlines (lines text) = terminated text := by
  induction text with
  | nil => rfl
  | cons c cs ih =>
    rw [lines]
    by_cases hc : c = 10
    · rw [if_pos hc, unlines_cons, ih, terminated_cons (Or.inl hc), hc]
      rfl
    · rw [if_neg hc]
      split
      · next hnil =>
        obtain rfl := (lines_eq_nil_iff cs).mp hnil
        simp [unlines, terminated, hc]
      · next l ls heq =>
        have hne : cs ≠ [] := fun hnil => by simp [(lines_eq_nil_iff cs).mpr hnil] at heq
        rw [terminated_cons (Or.inr hne), ← ih, heq, unlines_cons, unlines_cons, List.cons_append]

theorem not_mem_of_mem_lines {text l : List UInt8} (hl : l ∈ lines text) : (10 : UInt8) ∉ l := by
  induction text generalizing l with
  | nil => exact absurd hl List.not_mem_nil
  | cons c cs ih =>
    rw [lines] at hl
    split_ifs at hl with hc
    · rcases List.mem_cons.mp hl with rfl | hl
      · exact List.not_mem_nil
      · exact ih hl
    · split at hl
      · rw [List.mem_singleton.mp hl, List.mem_singleton]
        exact fun h => hc h.symm
      · next first others heq =>
        rcases List.mem_cons.mp hl with rfl | hl
        · have := ih (l := first) (by rw [heq]; exact List.mem_cons_self)
          rw [List.mem_cons, not_or]
          exact ⟨fun h => hc h.symm, this⟩
        · exact ih (by rw [heq]; exact List.mem_cons_of_mem _ hl)

theorem lines_line {l : List UInt8} (h : (10 : UInt8) ∉ l) : lines (l ++ [10]) = [l] := by
  induction l with
  | nil => rfl
  | cons c l ih =>
    rw [List.mem_cons, not_or] at h
    rw [List.cons_append, lines, if_neg (Ne.symm h.1), ih h.2]

theorem lines_unlines {ls : List (List UInt8)} (h : ∀ l ∈ ls, (10 : UInt8) ∉ l) :
    lines (unlines ls) = ls := by
  induction ls with
  | nil => rfl
  | cons l ls ih =>
    rw [unlines_cons, lines_append_newline, lines_line (h l List.mem_cons_self),
      ih fun l' hl' => h l' (List.mem_cons_of_mem l hl')]
    rfl

/-- **Equal lines**: texts that differ in a newline at the end at most. -/
theorem lines_eq_lines_iff (text text' : List UInt8) :
    lines text = lines text' ↔ terminated text = terminated text' := by
  constructor
  · intro h
    rw [← unlines_lines, ← unlines_lines, h]
  · intro h
    have hback : ∀ t, lines (terminated t) = lines t := fun t => by
      rw [← unlines_lines]
      exact lines_unlines fun l hl => not_mem_of_mem_lines hl
    rw [← hback text, h, hback]

/-! ### Finding a word -/

theorem find_eq_some_iff {str word : List UInt8} {p : ℕ} :
    find str word = some p ↔
      word <+: str.drop p ∧ p ≤ str.length ∧ ∀ q < p, ¬ word <+: str.drop q := by
  rw [find, List.find?_range_eq_some, List.mem_range, Nat.lt_succ_iff]
  simp [← List.isPrefixOf_iff_prefix]

theorem find_eq_none_iff {str word : List UInt8} :
    find str word = none ↔ ∀ q ≤ str.length, ¬ word <+: str.drop q := by
  rw [find, List.find?_range_eq_none]
  simp only [List.isPrefixOf_iff_prefix, Nat.lt_succ_iff, Bool.not_eq_true', ← Bool.not_eq_true]

theorem find_of_prefix {str word : List UInt8} (h : word <+: str) : find str word = some 0 := by
  rw [find_eq_some_iff, List.drop_zero]
  exact ⟨h, Nat.zero_le _, fun q hq => absurd hq (Nat.not_lt_zero q)⟩

theorem find_isSome_iff (str word : List UInt8) : (find str word).isSome = true ↔ word <:+: str := by
  constructor
  · intro h
    obtain ⟨p, hp⟩ := Option.isSome_iff_exists.mp h
    exact (find_eq_some_iff.mp hp).1.isInfix.trans (List.drop_suffix p str).isInfix
  · rintro ⟨before, behind, rfl⟩
    by_contra hnone
    rw [Bool.not_eq_true, Option.isSome_eq_false_iff, Option.isNone_iff_eq_none,
      find_eq_none_iff] at hnone
    refine hnone before.length (by simp) ?_
    rw [List.append_assoc, List.drop_left]
    exact List.prefix_append _ _

theorem prefix_of_prefix_append {word before behind : List UInt8} {b : UInt8} (hb : b ∉ word)
    (h : word <+: before ++ b :: behind) : word <+: before := by
  rcases Nat.lt_or_ge before.length word.length with hlt | hge
  · have hback : before ++ [b] <+: word := by
      refine List.prefix_of_prefix_length_le ⟨behind, by simp⟩ h ?_
      rw [List.length_append]
      exact hlt
    exact absurd (hback.subset (by simp)) hb
  · exact List.prefix_of_prefix_length_le h (List.prefix_append _ _) hge

/-- A word without the byte `b` that is not in front of `b` is found behind it, if at all. -/
theorem find_append {word before behind : List UInt8} {b : UInt8} (hb : b ∉ word)
    (hbefore : ¬ word <:+: before) :
    find (before ++ b :: behind) word = (find behind word).map (· + (before.length + 1)) := by
  have hfront : ∀ q ≤ before.length, ¬ word <+: (before ++ b :: behind).drop q := by
    intro q hq hpre
    rw [List.drop_append_of_le_length hq] at hpre
    exact hbefore ((prefix_of_prefix_append hb hpre).isInfix.trans (List.drop_suffix q before).isInfix)
  have hback : ∀ q, (before ++ b :: behind).drop (q + (before.length + 1)) = behind.drop q := by
    intro q
    rw [Nat.add_comm q, ← List.drop_drop, ← List.drop_drop, List.drop_left]
    rfl
  rcases hfind : find behind word with _ | p
  · rw [Option.map_none, find_eq_none_iff]
    intro q hq
    rcases Nat.lt_or_ge before.length q with hlt | hge
    · obtain ⟨j, rfl⟩ := Nat.exists_eq_add_of_lt hlt
      rw [show before.length + j + 1 = j + (before.length + 1) by omega, hback]
      refine find_eq_none_iff.mp hfind j ?_
      rw [List.length_append, List.length_cons] at hq
      omega
    · exact hfront q hge
  · obtain ⟨hpre, hle, hmin⟩ := find_eq_some_iff.mp hfind
    rw [Option.map_some, find_eq_some_iff, hback, List.length_append, List.length_cons]
    refine ⟨hpre, by omega, fun q hq => ?_⟩
    rcases Nat.lt_or_ge before.length q with hlt | hge
    · obtain ⟨j, rfl⟩ := Nat.exists_eq_add_of_lt hlt
      rw [show before.length + j + 1 = j + (before.length + 1) by omega, hback]
      exact hmin j (by omega)
    · exact hfront q hge

theorem find_nil (str : List UInt8) : find str [] = some 0 := find_of_prefix List.nil_prefix

/-- **Extraction**: white space, a word of other bytes, and what begins with white space. -/
theorem extract_append {spaces word : List UInt8} (rest : List UInt8)
    (hs : ∀ b ∈ spaces, isSpace b = true) (hw : ∀ b ∈ word, isSpace b = false) (hne : word ≠ []) :
    extract (spaces ++ word ++ rest) =
      some (word ++ rest.takeWhile (!isSpace ·), rest.dropWhile (!isSpace ·)) := by
  obtain ⟨b, bs, rfl⟩ := List.exists_cons_of_ne_nil hne
  have hb : isSpace b = false := hw b (List.mem_cons_self ..)
  have hdrop : (spaces ++ (b :: bs) ++ rest).dropWhile isSpace = b :: (bs ++ rest) := by
    rw [List.append_assoc, List.dropWhile_append_of_pos hs]
    simp [hb]
  have hns : ∀ c ∈ b :: bs, (!isSpace c) = true := fun c hc => by simp [hw c hc]
  have htake : (b :: (bs ++ rest)).takeWhile (!isSpace ·) =
      b :: bs ++ rest.takeWhile (!isSpace ·) := List.takeWhile_append_of_pos hns
  have hrest : (b :: (bs ++ rest)).dropWhile (!isSpace ·) = rest.dropWhile (!isSpace ·) :=
    List.dropWhile_append_of_pos hns
  simp only [extract, hdrop, htake, hrest]

theorem isSpace_of_all {bs : List UInt8} (h : bs.all (!isSpace ·) = true) :
    ∀ b ∈ bs, isSpace b = false :=
  fun b hb => by simpa using List.all_eq_true.mp h b hb

theorem words_pair (n : ℕ) {first second : List UInt8} (hne : first ≠ [])
    (hfirst : ∀ b ∈ first, isSpace b = false) (hsecond : ∀ b ∈ second, isSpace b = false) :
    words (n + 2) (first ++ 32 :: second) = first :: if second = [] then [] else [second] := by
  have hspace : ∀ b ∈ [(32 : UInt8)], isSpace b = true := List.forall_mem_singleton.mpr rfl
  have h1 : extract (first ++ 32 :: second) = some (first, 32 :: second) := by
    have hnone : ∀ b ∈ ([] : List UInt8), isSpace b = true := by simp
    have h := extract_append (32 :: second) hnone hfirst hne
    simpa [List.takeWhile_cons, List.dropWhile_cons, hspace 32 (List.mem_singleton_self _)] using h
  rw [words, h1]
  simp only [List.cons.injEq, true_and]
  rcases List.eq_nil_or_concat second with rfl | ⟨init, last, heq⟩
  · rw [if_pos rfl]
    simp [words, extract, hspace 32 (List.mem_singleton_self _)]
  · have hne' : second ≠ [] := by simp [heq]
    have h2 : extract (32 :: second) = some (second, []) := by
      have h := extract_append [] hspace hsecond hne'
      simpa using h
    rw [if_neg hne', words, h2]
    cases n <;> simp [words, extract]

end HardLog.Lib.CString
