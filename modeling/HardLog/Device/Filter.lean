import HardLog.Device.DumpRange

/-! # Filtering and dumping

`filter_and_dump_log` gets lines from the start offset on until they have as many bytes as the range,
newlines not counted, and trims nothing. So it goes beyond the end of the range by as many bytes as
there are newlines in it, to the end of a line, and leaves NUL bytes in the lines. `agreesWithDump_iff`
says for which ranges it writes, for every key, those lines of the trimmed range that contain it. -/

namespace HardLog.Device.Filter

open HardLog.Lib.CString HardLog.Device.Response HardLog.Device.Stale HardLog.Device.DumpRange

/-- The lines that contain the key, each of them ended by a newline. -/
def matching (key : List UInt8) (ls : List (List UInt8)) : List UInt8 :=
  unlines (ls.filter fun line => (find line key).isSome)

/-- **Agreement**: for every key without a newline the filter writes those lines of the trimmed range
that contain it. -/
def AgreesWithDump (r : Request) (log : List UInt8) : Prop :=
  ∀ key, (10 : UInt8) ∉ key →
    filterAndDumpLog r key = .wrote (matching key (lines (removeNullChars (range r log))))

/-- The lines that the loop of `filter_and_dump_log` gets. -/
def linesRead (bytes : ℕ) : List (List UInt8) → ℕ → List (List UInt8)
  | [], _ => []
  | line :: rest, readBytes =>
    line ::
      if bytes ≤ readBytes + line.length then [] else linesRead bytes rest (readBytes + line.length)

/-- The first `n` bytes have no NUL in them, and the file ends with them; or they do not end with a
newline, but one follows, and either there is none in them or the file ends with the one behind
them. -/
def EndsWithLine (file : List UInt8) (n : ℕ) : Prop :=
  (∀ b ∈ file.take n, b ≠ 0) ∧
    (file.drop n = [] ∨
      (file.take n ≠ [] ∧ (file.take n).getLast? ≠ some 10 ∧ (file.drop n).head? = some 10 ∧
        ((10 : UInt8) ∉ file.take n ∨ file.drop n = [10])))

/-! ### The lines that are read -/

theorem filterLoop_eq (key : List UInt8) (bytes : ℕ) (ls : List (List UInt8)) (readBytes : ℕ) :
    filterLoop key bytes ls readBytes = matching key (linesRead bytes ls readBytes) := by
  induction ls generalizing readBytes with
  | nil => rfl
  | cons line rest ih =>
    have hrest : (if bytes ≤ readBytes + line.length then []
          else filterLoop key bytes rest (readBytes + line.length)) =
        matching key (if bytes ≤ readBytes + line.length then []
          else linesRead bytes rest (readBytes + line.length)) := by
      split_ifs
      · rfl
      · exact ih _
    rw [filterLoop, linesRead, hrest, matching, matching, List.filter_cons]
    split_ifs <;> simp [unlines]

theorem linesRead_isPrefix (bytes : ℕ) (ls : List (List UInt8)) (readBytes : ℕ) :
    linesRead bytes ls readBytes <+: ls := by
  induction ls generalizing readBytes with
  | nil => exact List.prefix_refl _
  | cons line rest ih =>
    rw [linesRead, List.cons_prefix_cons]
    refine ⟨rfl, ?_⟩
    split_ifs
    · exact List.nil_prefix
    · exact ih _

/-- The loop stops behind as many bytes as the range has, or with the file. -/
theorem linesRead_enough (bytes : ℕ) (ls : List (List UInt8)) (readBytes : ℕ) :
    linesRead bytes ls readBytes = ls ∨
      bytes ≤ readBytes + (linesRead bytes ls readBytes).flatten.length := by
  induction ls generalizing readBytes with
  | nil => exact Or.inl rfl
  | cons line rest ih =>
    rw [linesRead]
    split_ifs with hle
    · refine Or.inr ?_
      simpa using hle
    · rcases ih (readBytes + line.length) with heq | henough
      · exact Or.inl (by rw [heq])
      · refine Or.inr ?_
        rw [List.flatten_cons, List.length_append]
        omega

theorem linesRead_ne_nil (bytes readBytes : ℕ) {ls : List (List UInt8)} (h : ls ≠ []) :
    linesRead bytes ls readBytes ≠ [] := by
  obtain ⟨line, rest, rfl⟩ := List.exists_cons_of_ne_nil h
  simp [linesRead]

section Range

variable {file : List UInt8} {n : ℕ}

theorem length_of_linesRead_ne (h : linesRead n (lines file) 0 ≠ lines file) :
    n + 2 ≤ (terminated file).length := by
  obtain ⟨rest, hrest⟩ := linesRead_isPrefix n (lines file) 0
  have henough := (linesRead_enough n (lines file) 0).resolve_left h
  have hne : rest ≠ [] := by
    rintro rfl
    rw [List.append_nil] at hrest
    exact h hrest
  have hlines : lines file ≠ [] := by
    intro hnil
    rw [hnil] at h
    exact h rfl
  have hread := List.length_pos_iff.mpr (linesRead_ne_nil n 0 hlines)
  have hpos := List.length_pos_iff.mpr hne
  have htext : unlines (linesRead n (lines file) 0) ++ unlines rest = terminated file := by
    rw [← unlines_append, hrest, unlines_lines]
  rw [← htext, List.length_append, length_unlines, length_unlines]
  omega

theorem take_prefix_unlines (hn : n ≤ file.length) :
    file.take n <+: unlines (linesRead n (lines file) 0) := by
  have hfile := (List.take_prefix n file).trans (prefix_terminated file)
  rcases linesRead_enough n (lines file) 0 with hall | henough
  · rwa [hall, unlines_lines]
  · obtain ⟨rest, hrest⟩ := linesRead_isPrefix n (lines file) 0
    have hread : unlines (linesRead n (lines file) 0) <+: terminated file :=
      ⟨unlines rest, by rw [← unlines_append, hrest, unlines_lines]⟩
    refine List.prefix_of_prefix_length_le hfile hread ?_
    rw [length_unlines, List.length_take]
    omega

theorem endsWithLine_of_linesRead (hn : n ≤ file.length)
    (h : linesRead n (lines file) 0 = lines (removeNullChars (file.take n))) :
    EndsWithLine file n := by
  have hlen : (file.take n).length = n := List.length_take_of_le hn
  have htext : unlines (linesRead n (lines file) 0) = terminated (removeNullChars (file.take n)) := by
    rw [h, unlines_lines]
  have hnul : ∀ b ∈ file.take n, b ≠ 0 := by
    intro b hb
    have hmem := (take_prefix_unlines hn).subset hb
    rw [htext, terminated] at hmem
    split_ifs at hmem
    · simpa using (List.mem_filter.mp hmem).2
    · rcases List.mem_append.mp hmem with hmem | hmem
      · simpa using (List.mem_filter.mp hmem).2
      · rw [List.mem_singleton.mp hmem]
        decide
  have htrim : removeNullChars (file.take n) = file.take n :=
    List.filter_eq_self.mpr fun b hb => by simpa using hnul b hb
  rw [htrim] at htext
  have hle := length_terminated_le (file.take n)
  refine ⟨hnul, ?_⟩
  by_cases hend : file.drop n = []
  · exact Or.inl hend
  have hmore : n < file.length := by
    by_contra hc
    exact hend (List.drop_of_length_le (by omega))
  by_cases hall : linesRead n (lines file) 0 = lines file
  · -- all lines are read: the file is the range and a newline
    rw [hall, unlines_lines] at htext
    have hself : file = terminated file :=
      (prefix_terminated file).eq_of_length_le (by rw [htext]; omega)
    obtain ⟨hne, hlast, heq⟩ :=
      terminated_of_length_ne (file.take n) (by rw [← htext, ← hself]; omega)
    have hfile : file.take n ++ file.drop n = file.take n ++ [10] := by
      rw [List.take_append_drop, ← heq, ← htext, ← hself]
    have hdrop := List.append_cancel_left hfile
    exact Or.inr ⟨hne, hlast, by rw [hdrop]; rfl, Or.inr hdrop⟩
  · -- one line is read, and it is the range
    have henough := (linesRead_enough n (lines file) 0).resolve_left hall
    have hlong := length_of_linesRead_ne hall
    have hlines : lines file ≠ [] := fun hnil => hall (by rw [hnil]; rfl)
    have hread := List.length_pos_iff.mpr (linesRead_ne_nil n 0 hlines)
    have hsize := congrArg List.length htext
    rw [length_unlines] at hsize
    obtain ⟨l, hl⟩ := List.length_eq_one_iff.mp
      (show (linesRead n (lines file) 0).length = 1 by omega)
    obtain ⟨hne, hlast, heq⟩ := terminated_of_length_ne (file.take n) (by omega)
    have hline : l = file.take n := by
      rw [hl, heq, unlines_cons] at htext
      exact List.append_cancel_right htext
    have hmem : l ∈ lines file := (linesRead_isPrefix n (lines file) 0).subset (by rw [hl]; simp)
    have hprefix : file.take n ++ [10] <+: file := by
      refine List.prefix_of_prefix_length_le ?_ (prefix_terminated file) ?_
      · obtain ⟨rest, hrest⟩ := linesRead_isPrefix n (lines file) 0
        refine ⟨unlines rest, ?_⟩
        rw [← heq, ← htext, ← unlines_append, hrest, unlines_lines]
      · rw [List.length_append, hlen, List.length_singleton]
        omega
    obtain ⟨rest, hrest⟩ := hprefix
    have hdrop : file.drop n = 10 :: rest := by
      have hfile : file.take n ++ file.drop n = file.take n ++ 10 :: rest := by
        rw [List.take_append_drop]
        simpa using hrest.symm
      exact List.append_cancel_left hfile
    exact Or.inr ⟨hne, hlast, by rw [hdrop]; rfl, Or.inl (hline ▸ not_mem_of_mem_lines hmem)⟩

theorem linesRead_of_endsWithLine (hn : n ≤ file.length) (h : EndsWithLine file n) :
    linesRead n (lines file) 0 = lines (removeNullChars (file.take n)) := by
  have hlen : (file.take n).length = n := List.length_take_of_le hn
  obtain ⟨hnul, hor⟩ := h
  have htrim : removeNullChars (file.take n) = file.take n :=
    List.filter_eq_self.mpr fun b hb => by simpa using hnul b hb
  rw [htrim]
  rcases hor with hend | ⟨hne, hlast, hhead, hline⟩
  · have hfile : file.take n = file := by
      have := List.take_append_drop n file
      rwa [hend, List.append_nil] at this
    rw [hfile]
    by_contra hc
    have hlong := length_of_linesRead_ne hc
    have hle := length_terminated_le file
    rw [hfile] at hlen
    omega
  · have hterm : terminated (file.take n) = file.take n ++ [10] := by
      rw [terminated, if_neg (not_or.mpr ⟨hne, hlast⟩)]
    obtain ⟨rest, hrest⟩ : ∃ rest, file.drop n = 10 :: rest := by
      rcases hd : file.drop n with _ | ⟨b, rest⟩
      · simp [hd] at hhead
      · rw [hd, List.head?_cons, Option.some.injEq] at hhead
        exact ⟨rest, by rw [hhead]⟩
    have hfile : file = file.take n ++ 10 :: rest := by
      rw [← hrest, List.take_append_drop]
    have hsame : lines (file.take n ++ [10]) = lines (file.take n) := by
      rw [lines_eq_lines_iff, terminated_append_newline, hterm]
    rcases hline with hline | hdrop
    · -- the range is the first line
      have hlines : lines file = file.take n :: lines rest := by
        rw [hfile, lines_append_newline, ← hfile, lines_line hline]
        rfl
      rw [← hsame, lines_line hline, hlines, linesRead, if_pos (by omega)]
    · -- the file is the range and a newline
      have hall : file.take n ++ [10] = file := by
        rw [← hdrop, List.take_append_drop]
      have hself : terminated file = file := by
        rw [← hall, terminated_append_newline]
      rw [← hsame, hall]
      by_contra hc
      have hlong := length_of_linesRead_ne hc
      have hle := congrArg List.length hall
      rw [hself] at hlong
      rw [List.length_append, hlen, List.length_singleton] at hle
      omega

end Range

/-! ### All keys -/

theorem matching_nil (ls : List (List UInt8)) : matching [] ls = unlines ls := by
  rw [matching, List.filter_eq_self.mpr fun line _ => by rw [find_nil]; rfl]

section Filter

variable {r : Request} {log : List UInt8}

theorem filterAndDumpLog_eq (h : InRange r log) (key : List UInt8) :
    filterAndDumpLog r key =
      .wrote (matching key (linesRead (size r) (lines (behindStart r log)) 0)) := by
  have hle := UInt64.le_iff_toNat_le.mp h.start_le
  have hend := h.end_le
  have hlen := h.length_lt
  rw [← filterLoop_eq, filterAndDumpLog]
  simp only [h.log_eq, h.tmpOpens, Bool.not_true, Bool.false_eq_true, if_false]
  rw [if_pos (by omega)]
  rfl

/-- **The filter** agrees with the dump of a range, for all keys, exactly if the range ends with a
line. -/
theorem agreesWithDump_iff (h : InRange r log) :
    AgreesWithDump r log ↔ EndsWithLine (behindStart r log) (size r) := by
  constructor
  · intro hag
    have hall := hag [] List.not_mem_nil
    rw [filterAndDumpLog_eq h, Dump.wrote.injEq, matching_nil, matching_nil] at hall
    refine endsWithLine_of_linesRead h.size_eq.1 ?_
    have hread : ∀ l ∈ linesRead (size r) (lines (behindStart r log)) 0, (10 : UInt8) ∉ l :=
      fun l hl => not_mem_of_mem_lines ((linesRead_isPrefix _ _ _).subset hl)
    rw [← lines_unlines hread, hall, lines_unlines fun l hl => not_mem_of_mem_lines hl]
    rfl
  · intro hends key _
    rw [filterAndDumpLog_eq h, linesRead_of_endsWithLine h.size_eq.1 hends]
    rfl

end Filter

/-- A request for the bytes from 0 to `fin` of a log. -/
def fromZero (log : List UInt8) (fin : UInt64) : Request :=
  ⟨ofChars "KEY A".toList, 0, fin, { fair with log := some log }⟩

/-- The first of two lines, without its newline. -/
theorem agreesWithDump_line : AgreesWithDump (fromZero [65, 66, 10, 67, 10] 2) [65, 66, 10, 67, 10] := by
  have hrange : InRange (fromZero [65, 66, 10, 67, 10] 2) [65, 66, 10, 67, 10] :=
    ⟨rfl, rfl, by decide, by decide, by decide, by decide⟩
  have hnul : ∀ b ∈ [(65 : UInt8), 66], b ≠ 0 := by simp
  refine (agreesWithDump_iff hrange).mpr ⟨hnul, Or.inr ⟨by decide, by decide, by decide, ?_⟩⟩
  exact Or.inl (by decide)

/-- The first two of three lines, each with its newline: the filter also returns the third one. -/
theorem filter_overrun :
    ¬ AgreesWithDump (fromZero [65, 10, 66, 10, 67, 10] 4) [65, 10, 66, 10, 67, 10] ∧
      filterAndDumpLog (fromZero [65, 10, 66, 10, 67, 10] 4) [] = .wrote [65, 10, 66, 10, 67, 10] := by
  have hrange : InRange (fromZero [65, 10, 66, 10, 67, 10] 4) [65, 10, 66, 10, 67, 10] :=
    ⟨rfl, rfl, by decide, by decide, by decide, by decide⟩
  refine ⟨fun h => ?_, by decide⟩
  obtain ⟨-, hend | ⟨-, hlast, -⟩⟩ := (agreesWithDump_iff hrange).mp h
  · exact absurd hend (by decide)
  · exact hlast (by decide)

end HardLog.Device.Filter
