import HardLog.Lib.CString

/-! # Decimal numbers as bytes

`decimal n` is what `to_string` gives for an unsigned number, `stoul` reads an unsigned long of 64
bits off the start of a word: white space, a sign, and then as many digits as there are. Behind the
digits of `n` it therefore reads on, and it gives `n` back only if no digit follows, or if `n` is
zero and so are the digits that follow. -/

namespace HardLog.Lib.Decimal

open HardLog.Lib.CString

/-- The bytes `'0'` to `'9'`. -/
def isDigit (b : UInt8) : Bool := (Char.ofNat b.toNat).isDigit

/-- The digits of `n`. -/
def decimal (n : ℕ) : List UInt8 := ofChars (Nat.toDigits 10 n)

/-- The number that a list of digits spells. -/
def value (ds : List UInt8) : ℕ := Nat.ofDigitChars 10 (toChars ds) 0

/-- The sign in front of a number (`true` for a minus), and what is behind it. -/
def signed : List UInt8 → Bool × List UInt8
  | 45 :: rest => (true, rest)
  | 43 :: rest => (false, rest)
  | rest => (false, rest)

/-- `stoul`, or `none` where it throws: there is no digit, or the number does not fit in 64 bits. -/
def stoul (word : List UInt8) : Option ℕ :=
  let body := signed (word.dropWhile isSpace)
  let digits := body.2.takeWhile isDigit
  if digits = [] ∨ 2 ^ 64 ≤ value digits then none
  else some (if body.1 then (2 ^ 64 - value digits) % 2 ^ 64 else value digits)

/-! ### Digits -/

theorem toNat_charOfNat (b : UInt8) : (Char.ofNat b.toNat).toNat = b.toNat := by
  have hlt : b.toNat < 256 := b.toNat_lt
  have hv : b.toNat.isValidChar := Or.inl (by omega)
  rw [Char.ofNat, dif_pos hv]
  rfl

theorem isDigit_iff (b : UInt8) : isDigit b = true ↔ 48 ≤ b.toNat ∧ b.toNat ≤ 57 := by
  rw [isDigit, Char.isDigit_iff_toNat, toNat_charOfNat]
  simp

theorem isDigit_ne_zero {b : UInt8} (h : isDigit b = true) : b ≠ 0 := by
  rintro rfl
  exact absurd h (by decide)

theorem isDigit_not_isSpace {b : UInt8} (h : isDigit b = true) : isSpace b = false := by
  obtain ⟨h1, h2⟩ := (isDigit_iff b).mp h
  rw [Bool.eq_false_iff]
  intro hs
  simp only [isSpace, Bool.or_eq_true, Bool.and_eq_true, decide_eq_true_eq, beq_iff_eq] at hs
  rcases hs with rfl | ⟨-, hs⟩
  · exact absurd h1 (by decide)
  · have : b.toNat ≤ 13 := UInt8.le_iff_toNat_le.mp hs
    omega

theorem decimal_ne_nil (n : ℕ) : decimal n ≠ [] := by
  simp [decimal, ofChars]

theorem ofNat_toNat_of_isDigit {c : Char} (h : c.isDigit = true) :
    Char.ofNat (UInt8.ofNat c.toNat).toNat = c := by
  obtain ⟨-, h2⟩ := Char.isDigit_iff_toNat.mp h
  have hlt : c.toNat < 256 := Nat.lt_of_le_of_lt h2 (by decide)
  rw [UInt8.toNat_ofNat_of_lt' hlt, Char.ofNat_toNat]

theorem toChars_decimal (n : ℕ) : toChars (decimal n) = Nat.toDigits 10 n := by
  rw [decimal, toChars, ofChars, List.map_map]
  conv_rhs => rw [← List.map_id (Nat.toDigits 10 n)]
  refine List.map_congr_left fun c hc => ?_
  exact ofNat_toNat_of_isDigit (Nat.isDigit_of_mem_toDigits (by decide) (by decide) hc)

theorem isDigit_of_mem_decimal {n : ℕ} {b : UInt8} (hb : b ∈ decimal n) : isDigit b = true := by
  obtain ⟨c, hc, rfl⟩ := List.mem_map.mp hb
  have hd := Nat.isDigit_of_mem_toDigits (by decide) (by decide) hc
  rw [isDigit, ofNat_toNat_of_isDigit hd, hd]

theorem length_decimal_le {n k : ℕ} (hk : 0 < k) : (decimal n).length ≤ k ↔ n < 10 ^ k := by
  rw [decimal, ofChars, List.length_map, Nat.length_toDigits_le_iff (by decide) hk]

/-! ### Values -/

theorem value_decimal (n : ℕ) : value (decimal n) = n := by
  rw [value, toChars_decimal, Nat.ofDigitChars_ten_toDigits]

theorem value_append (ds es : List UInt8) :
    value (ds ++ es) = 10 ^ es.length * value ds + value es := by
  simp only [value, toChars, List.map_append, Nat.ofDigitChars_append]
  rw [Nat.ofDigitChars_eq_ofDigitChars_zero, List.length_map]

theorem value_cons (d : UInt8) (ds : List UInt8) :
    value (d :: ds) = 10 ^ ds.length * value [d] + value ds :=
  value_append [d] ds

theorem value_singleton (d : UInt8) : value [d] = d.toNat - 48 := by
  simp [value, toChars, Nat.ofDigitChars_cons, toNat_charOfNat]

theorem value_eq_zero_iff {ds : List UInt8} (h : ∀ d ∈ ds, isDigit d = true) :
    value ds = 0 ↔ ∀ d ∈ ds, d = 48 := by
  induction ds with
  | nil => simp [value, toChars]
  | cons d ds ih =>
    have hd := ((isDigit_iff d).mp (h d List.mem_cons_self)).1
    have hds : ∀ e ∈ ds, isDigit e = true := fun e he => h e (List.mem_cons_of_mem d he)
    have h48 : d.toNat - 48 = 0 ↔ d = 48 := by
      rw [← UInt8.toNat_inj, show (48 : UInt8).toNat = 48 from rfl]
      omega
    rw [value_cons, Nat.add_eq_zero_iff, Nat.mul_eq_zero, value_singleton, ih hds, h48]
    simp

/-- **Trailing digits**: digits behind those of `n` change the number, unless it is zero and so are
they. -/
theorem value_decimal_append_eq_iff {n : ℕ} {es : List UInt8} (h : ∀ e ∈ es, isDigit e = true) :
    value (decimal n ++ es) = n ↔ es = [] ∨ n = 0 ∧ ∀ e ∈ es, e = 48 := by
  rw [value_append, value_decimal, ← value_eq_zero_iff h]
  cases es with
  | nil => simp [value, toChars]
  | cons e es =>
    have hten : 10 * n ≤ 10 ^ (e :: es).length * n := by
      rw [List.length_cons, Nat.pow_succ]
      exact Nat.mul_le_mul_right n (Nat.le_mul_of_pos_left 10 (Nat.pow_pos (by decide)))
    constructor
    · intro heq
      exact Or.inr (by omega)
    · rintro (hnil | ⟨rfl, hv⟩)
      · exact absurd hnil (by simp)
      · simpa using hv

/-! ### Reading a number -/

theorem signed_of_isDigit {d : UInt8} (hd : isDigit d = true) (rest : List UInt8) :
    signed (d :: rest) = (false, d :: rest) := by
  unfold signed
  split
  · next h => exact absurd ((List.cons.inj h).1 ▸ hd) (by decide)
  · next h => exact absurd ((List.cons.inj h).1 ▸ hd) (by decide)
  · rfl

theorem stoul_of_digits {ds : List UInt8} (hne : ds ≠ []) (h : ∀ d ∈ ds, isDigit d = true)
    (rest : List UInt8) :
    stoul (ds ++ rest) =
      if 2 ^ 64 ≤ value (ds ++ rest.takeWhile isDigit) then none
      else some (value (ds ++ rest.takeWhile isDigit)) := by
  obtain ⟨d, ds', rfl⟩ := List.exists_cons_of_ne_nil hne
  have hd : isDigit d = true := h d List.mem_cons_self
  have hdrop : (d :: ds' ++ rest).dropWhile isSpace = d :: (ds' ++ rest) := by
    simp [isDigit_not_isSpace hd]
  have htake : (d :: (ds' ++ rest)).takeWhile isDigit = d :: ds' ++ rest.takeWhile isDigit :=
    List.takeWhile_append_of_pos h
  simp only [stoul, hdrop, signed_of_isDigit hd, htake]
  simp

/-- **Reading back**: `stoul` gives back the number in front of a text exactly when no digit follows
it, or when it is zero and so are the digits that follow. -/
theorem stoul_decimal_append_eq_iff {n : ℕ} (hn : n < 2 ^ 64) (rest : List UInt8) :
    stoul (decimal n ++ rest) = some n ↔
      rest.takeWhile isDigit = [] ∨ n = 0 ∧ ∀ e ∈ rest.takeWhile isDigit, e = 48 := by
  rw [stoul_of_digits (decimal_ne_nil n) (fun d => isDigit_of_mem_decimal),
    ← value_decimal_append_eq_iff fun e he => List.mem_takeWhile_imp he]
  split_ifs with hbig
  · simp only [false_iff]
    omega
  · simp

end HardLog.Lib.Decimal
