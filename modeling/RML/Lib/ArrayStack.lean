import Mathlib.Data.List.Basic
import Mathlib.Logic.Function.Basic
import Mathlib.Data.Int.Notation

/-! A stack kept in an array: the index counts its elements, the bottom one is at
offset 0, and what lies above the index does not matter. -/

namespace ArrayStack

variable {α : Type*} {a : ℤ → α} {i : ℤ} {l : List α}

/-- The array below index `i` holds the elements of `l`, the first one at offset 0. -/
structure Holds (a : ℤ → α) (i : ℤ) (l : List α) : Prop where
  index : i = l.length
  elems : ∀ (k : ℕ) (h : k < l.length), a k = l[k]

theorem Holds.nil (a : ℤ → α) : Holds a 0 [] := ⟨rfl, fun _ h => absurd h (Nat.not_lt_zero _)⟩

theorem Holds.eq_zero_iff (h : Holds a i l) : i = 0 ↔ l = [] := by
  rw [h.index, ← List.length_eq_zero_iff]
  omega

theorem Holds.push (h : Holds a i l) (x : α) : Holds (Function.update a i x) (i + 1) (l ++ [x]) := by
  refine ⟨?_, ?_⟩
  · rw [h.index, List.length_append, List.length_singleton]
    omega
  · intro k hk
    rw [List.length_append, List.length_singleton] at hk
    rw [h.index]
    by_cases hlt : k < l.length
    · rw [Function.update_of_ne (by omega), List.getElem_append_left hlt, h.elems k hlt]
    · obtain rfl : k = l.length := by omega
      rw [Function.update_self, List.getElem_concat_length]
      rfl

theorem Holds.pop (h : Holds a i l) (hne : l ≠ []) : Holds a (i - 1) l.dropLast := by
  have hpos := List.length_pos_iff.mpr hne
  refine ⟨?_, ?_⟩
  · rw [h.index, List.length_dropLast]
    omega
  · intro k hk
    rw [List.length_dropLast] at hk
    rw [List.getElem_dropLast, h.elems k (by omega)]

end ArrayStack
