import Mathlib.Order.Basic
import Mathlib.Data.List.Basic

/-! # Ranges that follow on each other

Each element of a list stands for the range from `lo` to `hi`. `Consecutive lo hi s as e` says that
the ranges follow on each other from `s` to `e`, without a gap and in the order of the list. Two of
them that are each in their right order then do not overlap (`Consecutive.pairwise`). -/

namespace HardLog.Lib.Ranges

variable {α ι : Type*}

/-- The ranges of `as` follow on each other from `s` to `e`. -/
def Consecutive (lo hi : α → ι) : ι → List α → ι → Prop
  | s, [], e => s = e
  | s, a :: as, e => lo a = s ∧ Consecutive lo hi (hi a) as e

variable {lo hi : α → ι} {s m e : ι} {as bs : List α}

theorem Consecutive.append (h : Consecutive lo hi s as m) (h' : Consecutive lo hi m bs e) :
    Consecutive lo hi s (as ++ bs) e := by
  induction as generalizing s with
  | nil =>
    obtain rfl : s = m := h
    exact h'
  | cons a as ih => exact ⟨h.1, ih h.2⟩

theorem Consecutive.concat {a : α} (h : Consecutive lo hi s as (lo a)) :
    Consecutive lo hi s (as ++ [a]) (hi a) :=
  h.append ⟨rfl, rfl⟩

variable [Preorder ι]

theorem Consecutive.start_le (h : Consecutive lo hi s as e) (hle : ∀ a ∈ as, lo a ≤ hi a) :
    ∀ a ∈ as, s ≤ lo a := by
  induction as generalizing s with
  | nil => exact fun a ha => absurd ha List.not_mem_nil
  | cons b as ih =>
    obtain ⟨rfl, hrest⟩ := h
    intro a ha
    rcases List.mem_cons.mp ha with rfl | ha
    · exact le_refl _
    · exact (hle b List.mem_cons_self).trans
        (ih hrest (fun c hc => hle c (List.mem_cons_of_mem b hc)) a ha)

theorem Consecutive.pairwise (h : Consecutive lo hi s as e) (hle : ∀ a ∈ as, lo a ≤ hi a) :
    as.Pairwise fun a b => hi a ≤ lo b := by
  induction as generalizing s with
  | nil => exact List.Pairwise.nil
  | cons a as ih =>
    have hle' : ∀ b ∈ as, lo b ≤ hi b := fun b hb => hle b (List.mem_cons_of_mem a hb)
    exact List.pairwise_cons.mpr ⟨h.2.start_le hle', ih h.2 hle'⟩

end HardLog.Lib.Ranges
