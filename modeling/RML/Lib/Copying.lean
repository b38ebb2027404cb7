import Mathlib.Logic.Function.Basic
import Mathlib.Order.Basic
import Mathlib.Algebra.Order.Group.Nat

/-! Copying cell by cell in a memory where the target may overlap the source: what a cell
holds in the end depends on whether its source was overwritten before its turn. -/

namespace Copying

variable {α β : Type*} [DecidableEq α] {f g : ℕ → α} {m : α → β} {n i : ℕ} {a : α}

/-- The cells `g 0`, `g 1` and so on get what `f 0`, `f 1` hold when it is their turn. -/
def copy (f g : ℕ → α) : ℕ → (α → β) → α → β
  | 0, m => m
  | n + 1, m => Function.update (copy f g n m) (g n) (copy f g n m (f n))

theorem copy_of_ne (h : ∀ i < n, g i ≠ a) : copy f g n m a = m a := by
  induction n with
  | zero => rfl
  | succ n ih =>
    rw [copy, Function.update_of_ne (h n (Nat.lt_succ_self n)).symm]
    exact ih fun i hi => h i (Nat.lt_succ_of_lt hi)

/-- A cell that is written once holds what its source held at its turn. -/
theorem copy_target (hi : i < n) (hg : ∀ j < n, g j = g i → j = i) :
    copy f g n m (g i) = copy f g i m (f i) := by
  induction n with
  | zero => exact absurd hi (Nat.not_lt_zero i)
  | succ n ih =>
    rw [copy]
    rcases Nat.lt_succ_iff_lt_or_eq.mp hi with hlt | rfl
    · have hne : g i ≠ g n := fun heq => hlt.ne (hg n (Nat.lt_succ_self n) heq.symm).symm
      rw [Function.update_of_ne hne]
      exact ih hlt fun j hj => hg j (Nat.lt_succ_of_lt hj)
    · rw [Function.update_self]

/-- Nothing is lost when no source is overwritten before its turn. -/
theorem copy_eq (hi : i < n) (hg : ∀ j < n, g j = g i → j = i) (hf : ∀ j < i, g j ≠ f i) :
    copy f g n m (g i) = m (f i) := by
  rw [copy_target hi hg, copy_of_ne hf]

/-- Upwards by `d` cells in one array, the first `d` cells are repeated. -/
theorem copy_up {m : ℕ → β} {s d k : ℕ} (hd : 0 < d) (hk : k < d + n) :
    copy (fun i => s + i) (fun i => s + d + i) n m (s + k) = m (s + k % d) := by
  induction n generalizing k with
  | zero => rw [copy, Nat.mod_eq_of_lt (by omega)]
  | succ n ih =>
    rw [copy]
    rcases Nat.lt_or_ge k (d + n) with hlt | hge
    · rw [Function.update_of_ne (by omega)]
      exact ih hlt
    · obtain rfl : k = d + n := by omega
      rw [← Nat.add_assoc, Function.update_self, ih (by omega), Nat.add_mod_left]

end Copying
