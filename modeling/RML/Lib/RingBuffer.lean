import Mathlib.Data.List.Basic
import Mathlib.Data.List.Range
import Mathlib.Data.Nat.ModEq
import Mathlib.Tactic.Ring

/-! Runs of stores in a ring of cells: a run that starts where the last one ended
comes back to the first cells once it has gone all around. -/

namespace RingBuffer

variable {size w k n start start' : ℕ}

/-- The cells a run of `w` stores goes through from `start` on, in a ring of `size`. -/
def run (size w start : ℕ) : List ℕ := (List.range w).map fun j => (start + j) % size

/-- The runs of `w` stores that follow one another from `start` on. -/
def runs (size w start n : ℕ) : List (List ℕ) :=
  (List.range n).map fun i => run size w (start + i * w)

theorem runs_succ :
    runs size w start (n + 1) = run size w start :: runs size w (start + w) n := by
  have hrest : ∀ i, start + (i + 1) * w = start + w + i * w := by
    intro i
    ring
  simp [runs, List.range_succ_eq_map, Function.comp_def, hrest]

theorem mem_run {x : ℕ} : x ∈ run size w start ↔ ∃ j < w, (start + j) % size = x := by
  simp [run]

theorem run_add (m : ℕ) : run size w (start + m * size) = run size w start := by
  refine List.map_congr_left fun j _ => ?_
  rw [show start + m * size + j = start + j + m * size by ring, Nat.add_mul_mod_self_right]

theorem run_succ :
    run size (w + 1) start = start % size :: run size w (start + 1) := by
  rw [run, List.range_succ_eq_map, List.map_cons, List.map_map]
  refine congrArg _ (List.map_congr_left fun j _ => ?_)
  rw [Function.comp_apply, Nat.succ_eq_add_one, Nat.add_comm j, ← Nat.add_assoc]

theorem run_congr (h : start % size = start' % size) : run size w start = run size w start' :=
  List.map_congr_left fun j _ => Nat.ModEq.add_right j h

theorem runs_congr (h : start % size = start' % size) :
    runs size w start n = runs size w start' n :=
  List.map_congr_left fun i _ => run_congr (Nat.ModEq.add_right (i * w) h)

/-- Two runs that begin and end within one turn of the ring do not meet. -/
theorem disjoint_run (hafter : start + w ≤ start') (hturn : start' + w ≤ start + size) :
    (run size w start).Disjoint (run size w start') := by
  intro x hx hx'
  obtain ⟨i, hi, rfl⟩ := mem_run.mp hx
  obtain ⟨j, hj, heq⟩ := mem_run.mp hx'
  have hdvd : size ∣ start' + j - (start + i) := (Nat.modEq_iff_dvd' (by omega)).mp heq.symm
  have hle := Nat.le_of_dvd (by omega) hdvd
  omega

/-- In a ring of `k` runs the first `n` are apart exactly when there are no more of them. -/
theorem pairwise_runs_iff (hw : 0 < w) (hk : 0 < k) :
    (runs (k * w) w start n).Pairwise List.Disjoint ↔ n ≤ k := by
  rw [runs, List.pairwise_map]
  constructor
  · intro happart
    by_contra hlt
    have hlen : k < (List.range n).length := by
      rw [List.length_range]
      omega
    -- the run that comes back to the cells of the first one
    have hmeet := List.pairwise_iff_getElem.mp happart 0 k (by omega) hlen hk
    rw [List.getElem_range, List.getElem_range, Nat.zero_mul, Nat.add_zero,
      show start + k * w = start + 1 * (k * w) by ring, run_add] at hmeet
    have hcell : start % (k * w) ∈ run (k * w) w start := mem_run.mpr ⟨0, hw, rfl⟩
    exact hmeet hcell hcell
  · intro hle
    refine List.pairwise_lt_range.imp_of_mem ?_
    intro i j hi hj hij
    have hnext : (i + 1) * w ≤ j * w := Nat.mul_le_mul_right w hij
    have hlast : (j + 1) * w ≤ k * w := Nat.mul_le_mul_right w (by
      have hlt := List.mem_range.mp hj
      omega)
    rw [Nat.succ_mul] at hnext hlast
    exact disjoint_run (by omega) (by omega)

end RingBuffer
