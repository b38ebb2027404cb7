import Mathlib.Data.List.Basic

/-! The first place where two lists differ. It decides their lexicographic order, and
whether their beginnings are the same. -/

namespace FirstDiff

variable {α : Type*} [DecidableEq α]

/-- The index of the first difference; an end differs from an element. -/
def firstDiff : List α → List α → Option ℕ
  | [], [] => none
  | [], _ :: _ => some 0
  | _ :: _, [] => some 0
  | a :: l, b :: l' => if a = b then (firstDiff l l').map (· + 1) else some 0

variable {l l' : List α} {i n : ℕ}

theorem firstDiff_comm (l l' : List α) : firstDiff l l' = firstDiff l' l := by
  induction l generalizing l' with
  | nil => cases l' <;> rfl
  | cons a l ih =>
    cases l' with
    | nil => rfl
    | cons b l' =>
      rw [firstDiff, firstDiff, ih]
      simp only [eq_comm]

theorem firstDiff_eq_none_iff : firstDiff l l' = none ↔ l = l' := by
  induction l generalizing l' with
  | nil => cases l' <;> simp [firstDiff]
  | cons a l ih =>
    cases l' with
    | nil => simp [firstDiff]
    | cons b l' =>
      rw [firstDiff]
      split_ifs with h
      · rw [Option.map_eq_none_iff, ih, h, List.cons.injEq, and_iff_right rfl]
      · simp [h]

theorem firstDiff_take (l l' : List α) (n : ℕ) :
    firstDiff (l.take n) (l'.take n) = (firstDiff l l').filter (· < n) := by
  have hfirst : ∀ n, (some 0).filter (· < n + 1) = some 0 := fun n => by
    rw [Option.filter_some, if_pos (by simp)]
  induction l generalizing l' n with
  | nil =>
    cases l' with
    | nil => simp [firstDiff]
    | cons b l' =>
      cases n with
      | zero => rfl
      | succ n => exact (hfirst n).symm
  | cons a l ih =>
    cases n with
    | zero => cases h : firstDiff (a :: l) l' <;> simp [firstDiff, Option.filter_some]
    | succ n =>
      cases l' with
      | nil => exact (hfirst n).symm
      | cons b l' =>
        rw [List.take_succ_cons, List.take_succ_cons, firstDiff, firstDiff]
        split_ifs
        · rw [ih]
          cases firstDiff l l' with
          | none => rfl
          | some i => by_cases hi : i < n <;> simp [Option.filter_some, hi]
        · exact (hfirst n).symm

theorem take_eq_take_iff : l.take n = l'.take n ↔ ∀ i, firstDiff l l' = some i → n ≤ i := by
  rw [← firstDiff_eq_none_iff, firstDiff_take, Option.filter_eq_none_iff]
  simp

theorem getElem?_ne_of_firstDiff (h : firstDiff l l' = some i) : l[i]? ≠ l'[i]? := by
  induction l generalizing l' i with
  | nil =>
    cases l' with
    | nil => cases h
    | cons b l' =>
      obtain rfl : 0 = i := Option.some.inj h
      simp
  | cons a l ih =>
    cases l' with
    | nil =>
      obtain rfl : 0 = i := Option.some.inj h
      simp
    | cons b l' =>
      rw [firstDiff] at h
      split_ifs at h with hab
      · obtain ⟨j, hj, rfl⟩ := Option.map_eq_some_iff.mp h
        rw [List.getElem?_cons_succ, List.getElem?_cons_succ]
        exact ih hj
      · obtain rfl : 0 = i := Option.some.inj h
        simpa using hab

end FirstDiff
