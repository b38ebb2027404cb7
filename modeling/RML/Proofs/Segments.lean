import RML.Spec.Mm
import Mathlib.Data.Finset.Card
import Mathlib.Data.Finset.Image
import Mathlib.Order.Interval.Finset.Nat
import Mathlib.Tactic.SplitIfs

/-! The allocator on the tables it meets: `ownedBy segs` is `seg_arr` when exactly
the reserved segments and those of `segs` are in use. -/

namespace RML

/-- The entries of `seg_arr` name the ten segments in order. -/
def SegArr.Placed (segArr : SegArr) : Prop := ∀ i < NUM_SEG, (segArr i).address = 0x1000 * i

namespace SegArr.Placed

variable {segArr : SegArr}

theorem update (h : segArr.Placed) (i used : ℕ) :
    SegArr.Placed (Function.update segArr i { segArr i with used := used }) := by
  intro j hj
  rw [Function.update_apply]
  split_ifs with heq
  · subst heq
    exact h j hj
  · exact h j hj

theorem getFreeSeg (h : segArr.Placed) (seg : ℕ) : SegArr.Placed (getFreeSeg segArr seg).2 := by
  unfold RML.getFreeSeg
  split
  · exact h.update _ 1
  · exact h

theorem releaseSeg (h : segArr.Placed) (seg : ℕ) : SegArr.Placed (releaseSeg segArr seg) := by
  unfold RML.releaseSeg
  split
  · exact h.update _ 0
  · exact h

theorem find?_address (h : segArr.Placed) {i : ℕ} (hi : i < NUM_SEG) :
    (List.range NUM_SEG).find? (fun j => (segArr j).address = 0x1000 * i) = some i := by
  rw [List.find?_range_eq_some]
  refine ⟨by simpa using h i hi, List.mem_range.mpr hi, ?_⟩
  intro j hj
  simp only [h j (hj.trans hi), Bool.not_eq_true', decide_eq_false_iff_not]
  omega

theorem releaseSeg_eq (h : segArr.Placed) {i : ℕ} (hi : i < NUM_SEG) :
    RML.releaseSeg segArr (0x1000 * i) =
      Function.update segArr i { segArr i with used := 0 } := by
  simp only [RML.releaseSeg, h.find?_address hi]

theorem release_free (h : segArr.Placed) (seg : ℕ) (hfree : ∃ i < NUM_SEG, (segArr i).used = 0) :
    RML.releaseSeg (RML.getFreeSeg segArr seg).2 (RML.getFreeSeg segArr seg).1 = segArr := by
  cases hfind : (List.range NUM_SEG).find? fun i => (segArr i).used = 0 with
  | none =>
    obtain ⟨i, hi, hused⟩ := hfree
    have hnot := List.find?_eq_none.mp hfind i (List.mem_range.mpr hi)
    simp [hused] at hnot
  | some i =>
    have hi : i < NUM_SEG := List.mem_range.mp (List.mem_of_find?_eq_some hfind)
    have hused : (segArr i).used = 0 := by simpa using List.find?_some hfind
    have hget : RML.getFreeSeg segArr seg =
        (0x1000 * i, Function.update segArr i { segArr i with used := 1 }) := by
      simp only [RML.getFreeSeg, hfind, h i hi]
    rw [hget, (h.update i 1).releaseSeg_eq hi]
    funext j
    by_cases hj : j = i
    · subst hj
      simp only [Function.update_self, ← hused]
    · simp only [Function.update_of_ne hj]

theorem release_ne (h : segArr.Placed) {i : ℕ} (hi : i < NUM_SEG) (hused : (segArr i).used ≠ 0) :
    RML.releaseSeg segArr (segArr i).address ≠ segArr := by
  intro heq
  rw [h i hi, h.releaseSeg_eq hi] at heq
  have hentry := congrArg MemSeg.used (congrFun heq i)
  rw [Function.update_self] at hentry
  exact hused hentry.symm

end SegArr.Placed

def ownedBy (segs : List ℕ) : SegArr := fun i =>
  if i < NUM_SEG then ⟨if i < 2 ∨ 0x1000 * i ∈ segs then 1 else 0, 0x1000 * i⟩ else {}

/-- One of the eight segments `init_seg` leaves free. -/
def UserSeg (seg : ℕ) : Prop := ∃ i, 2 ≤ i ∧ i < NUM_SEG ∧ seg = 0x1000 * i

theorem initSeg_eq : initSeg = ownedBy [] := by
  funext i
  simp only [initSeg, ownedBy, List.not_mem_nil, or_false, NUM_SEG]
  by_cases h2 : i < 2
  · rw [if_pos h2, if_pos h2, if_pos (by omega)]
  · rw [if_neg h2, if_neg h2]
    rfl

theorem ownedBy_address (segs : List ℕ) {i : ℕ} (hi : i < NUM_SEG) :
    (ownedBy segs i).address = 0x1000 * i := by
  rw [ownedBy, if_pos hi]

theorem placed_ownedBy (segs : List ℕ) : (ownedBy segs).Placed :=
  fun _ hi => ownedBy_address segs hi

theorem ownedBy_used (segs : List ℕ) {i : ℕ} (hi : i < NUM_SEG) :
    (ownedBy segs i).used = if i < 2 ∨ 0x1000 * i ∈ segs then 1 else 0 := by
  rw [ownedBy, if_pos hi]

theorem ownedBy_free_iff (segs : List ℕ) {i : ℕ} (hi : i < NUM_SEG) :
    (ownedBy segs i).used = 0 ↔ 2 ≤ i ∧ 0x1000 * i ∉ segs := by
  rw [ownedBy_used segs hi]
  split_ifs with h
  · simp only [false_iff, not_and_or, not_le, not_not]
    exact h
  · simp only [not_or, not_lt] at h
    simpa using h

theorem update_used_ownedBy (segs : List ℕ) {i : ℕ} (hi : i < NUM_SEG) :
    Function.update (ownedBy segs) i { ownedBy segs i with used := 1 } =
      ownedBy (0x1000 * i :: segs) := by
  funext j
  rw [Function.update_apply]
  split_ifs with hj
  · subst hj
    simp [ownedBy, hi]
  · have hne : 0x1000 * j ≠ 0x1000 * i := by omega
    simp only [ownedBy, List.mem_cons, hne, false_or]

theorem update_free_ownedBy {segs : List ℕ} {i : ℕ} (h2 : 2 ≤ i) (hi : i < NUM_SEG)
    (hfree : 0x1000 * i ∉ segs) :
    Function.update (ownedBy (0x1000 * i :: segs)) i
      { ownedBy (0x1000 * i :: segs) i with used := 0 } = ownedBy segs := by
  funext j
  rw [Function.update_apply]
  split_ifs with hj
  · subst hj
    have hlt : ¬ j < 2 := by omega
    simp [ownedBy, hi, hfree, hlt]
  · have hne : 0x1000 * j ≠ 0x1000 * i := by omega
    simp only [ownedBy, List.mem_cons, hne, false_or]

/-- `get_free_seg` hands out a user segment nobody owns and enters it; without
one it returns the stale local and leaves the table alone. -/
theorem getFreeSeg_cases (segs : List ℕ) (seg : ℕ) :
    (∃ s, UserSeg s ∧ s ∉ segs ∧ getFreeSeg (ownedBy segs) seg = (s, ownedBy (s :: segs))) ∨
      (∀ s, UserSeg s → s ∈ segs) ∧ getFreeSeg (ownedBy segs) seg = (seg, ownedBy segs) := by
  unfold getFreeSeg
  cases hfind : (List.range NUM_SEG).find? fun i => (ownedBy segs i).used = 0 with
  | some i =>
    have hi : i < NUM_SEG := List.mem_range.mp (List.mem_of_find?_eq_some hfind)
    have hused : (ownedBy segs i).used = 0 := by simpa using List.find?_some hfind
    obtain ⟨h2, hnot⟩ := (ownedBy_free_iff segs hi).mp hused
    refine Or.inl ⟨0x1000 * i, ⟨i, h2, hi, rfl⟩, hnot, ?_⟩
    show ((ownedBy segs i).address, Function.update _ _ _) = _
    rw [update_used_ownedBy segs hi, ownedBy_address segs hi]
  | none =>
    refine Or.inr ⟨?_, rfl⟩
    rintro s ⟨i, h2, hi, rfl⟩
    by_contra hnot
    have hused := List.find?_eq_none.mp hfind i (List.mem_range.mpr hi)
    simp [(ownedBy_free_iff segs hi).mpr ⟨h2, hnot⟩] at hused

theorem releaseSeg_ownedBy {segs : List ℕ} {s : ℕ} (hs : UserSeg s) (hfree : s ∉ segs) :
    releaseSeg (ownedBy (s :: segs)) s = ownedBy segs := by
  obtain ⟨i, h2, hi, rfl⟩ := hs
  rw [(placed_ownedBy _).releaseSeg_eq hi]
  exact update_free_ownedBy h2 hi hfree

theorem releaseSeg_stray {segArr : SegArr} {s : ℕ}
    (h : ∀ i < NUM_SEG, (segArr i).address ≠ s) : releaseSeg segArr s = segArr := by
  have hfind : (List.range NUM_SEG).find? (fun i => (segArr i).address = s) = none := by
    rw [List.find?_eq_none]
    intro i hi
    simpa using h i (List.mem_range.mp hi)
  simp only [releaseSeg, hfind]

def userSegs : Finset ℕ := (Finset.Ico 2 NUM_SEG).image (0x1000 * ·)

theorem mem_userSegs (s : ℕ) : s ∈ userSegs ↔ UserSeg s := by
  simp only [userSegs, Finset.mem_image, Finset.mem_Ico, UserSeg, and_assoc, eq_comm]

theorem card_userSegs : userSegs.card = 8 := by decide

theorem length_le_of_userSegs {segs : List ℕ} (hnd : segs.Nodup) (hu : ∀ s ∈ segs, UserSeg s) :
    segs.length ≤ 8 := by
  rw [← List.toFinset_card_of_nodup hnd, ← card_userSegs]
  apply Finset.card_le_card
  intro s hs
  exact (mem_userSegs s).mpr (hu s (List.mem_toFinset.mp hs))

/-- Eight owners own every user segment, fewer leave one free. -/
theorem all_owned_iff {segs : List ℕ} (hnd : segs.Nodup) (hu : ∀ s ∈ segs, UserSeg s) :
    (∀ s, UserSeg s → s ∈ segs) ↔ segs.length = 8 := by
  have hsub : segs.toFinset ⊆ userSegs := by
    intro s hs
    exact (mem_userSegs s).mpr (hu s (List.mem_toFinset.mp hs))
  constructor
  · intro hall
    have hsup : userSegs ⊆ segs.toFinset := by
      intro s hs
      exact List.mem_toFinset.mpr (hall s ((mem_userSegs s).mp hs))
    have hcard := Finset.card_le_card hsup
    rw [card_userSegs, List.toFinset_card_of_nodup hnd] at hcard
    have := length_le_of_userSegs hnd hu
    omega
  · intro hlen s hs
    have heq : segs.toFinset = userSegs := by
      apply Finset.eq_of_subset_of_card_le hsub
      rw [card_userSegs, List.toFinset_card_of_nodup hnd, hlen]
    rw [← List.mem_toFinset, heq]
    exact (mem_userSegs s).mpr hs

end RML
