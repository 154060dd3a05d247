import HardLog.Lib.Memory

/-! # A file written at its position

A file is its bytes and the position of its descriptor. `File.write` stores a list at the position
and moves it on. Written this way only, a file grows: `Grows f f'` says that the position has not
gone back and that nothing below it has changed. -/

namespace HardLog.Lib.Files

open HardLog.Lib.Memory

variable {α : Type*}

/-- A file with the position of its descriptor. -/
structure File (α : Type*) where
  bytes : ℕ → α
  fPos : ℕ

/-- The file after `data` was written at the position. -/
def File.write (f : File α) (data : List α) : File α :=
  ⟨memcpy f.bytes f.fPos data, f.fPos + data.length⟩

/-- What stands below the position. -/
def File.contents (f : File α) : List α := slice f.bytes 0 f.fPos

/-- The position has not gone back, and nothing below it has changed. -/
structure Grows (f f' : File α) : Prop where
  fPos_le : f.fPos ≤ f'.fPos
  bytes_eq : ∀ p < f.fPos, f'.bytes p = f.bytes p

@[simp] theorem write_nil (f : File α) : f.write [] = f := by
  simp [File.write]

theorem write_write (f : File α) (a b : List α) : (f.write a).write b = f.write (a ++ b) := by
  simp only [File.write, memcpy_memcpy_append, List.length_append, Nat.add_assoc]

/-- **Appending**: a write makes the contents longer by what was written. -/
theorem contents_write (f : File α) (data : List α) :
    (f.write data).contents = f.contents ++ data := by
  have h := slice_memcpy_append f.bytes 0 f.fPos data
  rw [Nat.zero_add] at h
  exact h

@[refl] theorem Grows.refl (f : File α) : Grows f f := ⟨Nat.le_refl _, fun _ _ => rfl⟩

theorem Grows.trans {f f' f'' : File α} (h : Grows f f') (h' : Grows f' f'') : Grows f f'' :=
  ⟨h.fPos_le.trans h'.fPos_le, fun p hp =>
    (h'.bytes_eq p (hp.trans_le h.fPos_le)).trans (h.bytes_eq p hp)⟩

theorem Grows.write (f : File α) (data : List α) : Grows f (f.write data) :=
  ⟨Nat.le_add_right _ _, fun _ hp => memcpy_outside _ _ _ (Or.inl hp)⟩

end HardLog.Lib.Files
