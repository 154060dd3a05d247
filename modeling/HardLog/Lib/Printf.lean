import HardLog.Lib.CString
import HardLog.Lib.Decimal

/-! # Formats

The kernel's `vsnprintf` as a function of the format and of what its conversions render to. A format
is copied up to the next percent sign; behind it come flags, a width, a precision, a qualifier and
the letter of the conversion, and behind a pointer conversion letters and digits that belong to it.
Two percent signs stand for one, and an unknown letter ends the rendering. `count_render_lt`: a
percent sign is not rendered as it stands, as long as the arguments render to none. -/

namespace HardLog.Lib.Printf

open HardLog.Lib.CString HardLog.Lib.Decimal

/-- `%`. -/
def percent : UInt8 := 37

/-- `-`, `+`, space, `#` and `0`. -/
def isFlag (b : UInt8) : Bool := b == 45 || b == 43 || b == 32 || b == 35 || b == 48

/-- `isalnum`. -/
def isAlnum (b : UInt8) : Bool := isDigit b || (65 ≤ b && b ≤ 90) || (97 ≤ b && b ≤ 122)

/-- The letters of a conversion: `c`, `s`, `o`, `x`, `X`, `d`, `i` and `u`. -/
def isConversion (b : UInt8) : Bool :=
  b == 99 || b == 115 || b == 111 || b == 120 || b == 88 || b == 100 || b == 105 || b == 117

/-- Behind the width, a number or `*`. -/
def skipWidth : List UInt8 → List UInt8
  | [] => []
  | c :: cs => if c = 42 then cs else (c :: cs).dropWhile isDigit

/-- Behind the precision, if there is one. -/
def skipPrecision : List UInt8 → List UInt8
  | [] => []
  | c :: cs => if c = 46 then skipWidth cs else c :: cs

/-- Behind a second letter of the same kind. -/
def skipTwin (c : UInt8) : List UInt8 → List UInt8
  | [] => []
  | d :: cs => if d = c then cs else d :: cs

/-- Behind the qualifier: `h`, `hh`, `l`, `ll`, `L`, `z` or `t`. -/
def skipQualifier : List UInt8 → List UInt8
  | [] => []
  | c :: cs =>
    if c = 104 ∨ c = 108 then skipTwin c cs
    else if c = 76 ∨ c = 122 ∨ c = 116 then cs
    else c :: cs

/-- Behind flags, width, precision and qualifier. -/
def skipSpec (cs : List UInt8) : List UInt8 :=
  skipQualifier (skipPrecision (skipWidth (cs.dropWhile isFlag)))

/-- What stands behind a percent sign, and what follows it. -/
inductive Directive where
  | percentChar (rest : List UInt8)
  | conversion (rest : List UInt8)
  | invalid

/-- `format_decode`. -/
def formatDecode (cs : List UInt8) : Directive :=
  match skipSpec cs with
  | [] => .invalid
  | c :: rest =>
    if c = percent then .percentChar rest
    else if c = 112 then .conversion (rest.dropWhile isAlnum)
    else if isConversion c then .conversion rest
    else .invalid

/-- The rendering of a format, of which at most `fuel` bytes are read. The `k`-th conversion, of the
text `spec`, renders to `arg k spec`. -/
def render (arg : ℕ → List UInt8 → List UInt8) : ℕ → ℕ → List UInt8 → List UInt8
  | 0, _, _ => []
  | _, _, [] => []
  | fuel + 1, k, c :: cs =>
    if c ≠ percent then c :: render arg fuel k cs
    else
      match formatDecode cs with
      | .percentChar rest => percent :: render arg fuel k rest
      | .conversion rest =>
        arg k (cs.take (cs.length - rest.length)) ++ render arg fuel (k + 1) rest
      | .invalid => []

/-- `vsnprintf`, of a size that the rendering fits in. -/
def vsprintf (arg : ℕ → List UInt8 → List UInt8) (fmt : List UInt8) : List UInt8 :=
  render arg fmt.length 0 fmt

/-! ### What is skipped -/

theorem skipWidth_suffix (cs : List UInt8) : skipWidth cs <:+ cs := by
  cases cs with
  | nil => exact List.suffix_refl _
  | cons c cs =>
    rw [skipWidth]
    split_ifs
    · exact List.suffix_cons c cs
    · exact List.dropWhile_suffix _

theorem skipPrecision_suffix (cs : List UInt8) : skipPrecision cs <:+ cs := by
  cases cs with
  | nil => exact List.suffix_refl _
  | cons c cs =>
    rw [skipPrecision]
    split_ifs
    · exact (skipWidth_suffix cs).trans (List.suffix_cons c cs)
    · exact List.suffix_refl _

theorem skipTwin_suffix (c : UInt8) (cs : List UInt8) : skipTwin c cs <:+ cs := by
  cases cs with
  | nil => exact List.suffix_refl _
  | cons d cs =>
    rw [skipTwin]
    split_ifs
    · exact List.suffix_cons d cs
    · exact List.suffix_refl _

theorem skipQualifier_suffix (cs : List UInt8) : skipQualifier cs <:+ cs := by
  cases cs with
  | nil => exact List.suffix_refl _
  | cons c cs =>
    rw [skipQualifier]
    split_ifs
    · exact (skipTwin_suffix c cs).trans (List.suffix_cons c cs)
    · exact List.suffix_cons c cs
    · exact List.suffix_refl _

theorem skipSpec_suffix (cs : List UInt8) : skipSpec cs <:+ cs :=
  (skipQualifier_suffix _).trans ((skipPrecision_suffix _).trans
    ((skipWidth_suffix _).trans (List.dropWhile_suffix _)))

/-- **What a directive takes**: the percent sign that stands for one is part of it. -/
theorem formatDecode_suffix (cs : List UInt8) :
    (∀ rest, formatDecode cs = .percentChar rest → percent :: rest <:+ cs) ∧
      ∀ rest, formatDecode cs = .conversion rest → rest <:+ cs := by
  have hspec := skipSpec_suffix cs
  unfold formatDecode
  cases hs : skipSpec cs with
  | nil => exact ⟨fun rest h => by simp at h, fun rest h => by simp at h⟩
  | cons c cs' =>
    rw [hs] at hspec
    have hrest : cs' <:+ cs := (List.suffix_cons c cs').trans hspec
    simp only
    constructor
    · intro rest h
      split_ifs at h with hc
      obtain rfl := Directive.percentChar.inj h
      exact hc ▸ hspec
    · intro rest h
      split_ifs at h
      · obtain rfl := Directive.conversion.inj h
        exact (List.dropWhile_suffix _).trans hrest
      · obtain rfl := Directive.conversion.inj h
        exact hrest

/-! ### Renderings -/

variable {arg : ℕ → List UInt8 → List UInt8}

theorem render_plain {fuel k : ℕ} {fmt : List UInt8} (hfuel : fmt.length ≤ fuel)
    (h : percent ∉ fmt) : render arg fuel k fmt = fmt := by
  induction fuel generalizing fmt with
  | zero =>
    obtain rfl := List.eq_nil_of_length_eq_zero (Nat.le_zero.mp hfuel)
    rfl
  | succ fuel ih =>
    cases fmt with
    | nil => rfl
    | cons c cs =>
      rw [List.mem_cons, not_or] at h
      obtain ⟨hc, hcs⟩ := h
      rw [render, if_pos (Ne.symm hc), ih (by simpa using hfuel) hcs]

theorem count_render (harg : ∀ k spec, percent ∉ arg k spec) (fuel k : ℕ) (fmt : List UInt8) :
    (render arg fuel k fmt).count percent ≤ fmt.count percent ∧
      (0 < fmt.count percent → (render arg fuel k fmt).count percent < fmt.count percent) := by
  induction fuel generalizing k fmt with
  | zero => exact ⟨Nat.zero_le _, id⟩
  | succ fuel ih =>
    cases fmt with
    | nil => exact ⟨Nat.le_refl _, fun h => absurd h (by simp)⟩
    | cons c cs =>
      rw [render]
      by_cases hc : c = percent
      · rw [if_neg (not_not.mpr hc), hc, List.count_cons_self]
        suffices hlt : _ < cs.count percent + 1 from ⟨hlt.le, fun _ => hlt⟩
        obtain ⟨hpc, hconv⟩ := formatDecode_suffix cs
        cases hd : formatDecode cs with
        | percentChar rest =>
          have hle := (hpc rest hd).sublist.count_le percent
          have := (ih k rest).1
          rw [List.count_cons_self] at hle
          simp only [List.count_cons_self]
          omega
        | conversion rest =>
          have hle := (hconv rest hd).sublist.count_le percent
          have := (ih (k + 1) rest).1
          simp only [List.count_append, List.count_eq_zero_of_not_mem (harg k _)]
          omega
        | invalid => exact Nat.succ_pos _
      · rw [if_pos hc, List.count_cons_of_ne hc, List.count_cons_of_ne hc]
        exact ih k cs

end HardLog.Lib.Printf
