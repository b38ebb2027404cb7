import Mathlib.Data.Set.Card
import Mathlib.Logic.Relation

/-! Following a function from element to element until a value that stops the walk,
as a do-while does: the element is visited first and its successor tested after. -/

namespace Walk

open Relation

variable {α : Type*} (f : α → α) (stop : α → Prop)

def Next (a b : α) : Prop := f a = b ∧ ¬ stop b

/-- The elements a walk from `a` comes to. -/
def Met (a : α) : Set α := {b | ReflTransGen (Next f stop) a b}

/-- No element of the walk leads back to itself. -/
def Acyclic (a : α) : Prop := ∀ b ∈ Met f stop a, ¬ TransGen (Next f stop) b b

/-- The walk from `a` is over after at most so many rounds. -/
def EndsWithin : ℕ → α → Prop
  | 0, _ => False
  | n + 1, a => stop (f a) ∨ EndsWithin n (f a)

def visited [DecidablePred stop] : ℕ → α → List α
  | 0, _ => []
  | n + 1, a => a :: if stop (f a) then [] else visited n (f a)

variable {f stop} {a b : α} {n : ℕ}

theorem met_self (a : α) : a ∈ Met f stop a := .refl

theorem Met.tail (hb : b ∈ Met f stop a) (h : ¬ stop (f b)) : f b ∈ Met f stop a :=
  ReflTransGen.tail hb ⟨rfl, h⟩

theorem Met.head (h : ¬ stop (f a)) (hb : b ∈ Met f stop (f a)) : b ∈ Met f stop a :=
  ReflTransGen.head ⟨rfl, h⟩ hb

theorem met_iff : b ∈ Met f stop a ↔ b = a ∨ ¬ stop (f a) ∧ b ∈ Met f stop (f a) := by
  constructor
  · intro hb
    rcases ReflTransGen.cases_head_iff.mp hb with rfl | ⟨c, ⟨rfl, hstop⟩, hrest⟩
    · exact Or.inl rfl
    · exact Or.inr ⟨hstop, hrest⟩
  · rintro (rfl | ⟨hstop, hb⟩)
    · exact met_self b
    · exact Met.head hstop hb

theorem mem_met_iff_visited [DecidablePred stop] :
    b ∈ Met f stop a ↔ ∃ n, b ∈ visited f stop n a := by
  constructor
  · intro hb
    induction hb using ReflTransGen.head_induction_on with
    | refl => exact ⟨1, List.mem_cons_self⟩
    | @head a c hnext _ ih =>
      obtain ⟨rfl, hstop⟩ := hnext
      obtain ⟨n, hn⟩ := ih
      refine ⟨n + 1, ?_⟩
      rw [visited, if_neg hstop]
      exact List.mem_cons_of_mem _ hn
  · rintro ⟨n, hn⟩
    induction n generalizing a with
    | zero => simp [visited] at hn
    | succ n ih =>
      rw [visited, List.mem_cons] at hn
      rcases hn with rfl | hn
      · exact met_self b
      · split_ifs at hn with hstop
        · simp at hn
        · exact Met.head hstop (ih hn)

theorem Acyclic.tail (h : Acyclic f stop a) (hstop : ¬ stop (f a)) : Acyclic f stop (f a) :=
  fun b hb => h b (Met.head hstop hb)

theorem cycle_next (hstop : ¬ stop (f a)) (h : TransGen (Next f stop) a a) :
    TransGen (Next f stop) (f a) (f a) := by
  obtain ⟨c, ⟨rfl, -⟩, hrest⟩ := TransGen.head'_iff.mp h
  exact TransGen.tail' hrest ⟨rfl, hstop⟩

theorem EndsWithin.acyclic (h : EndsWithin f stop n a) : Acyclic f stop a := by
  induction n generalizing a with
  | zero => exact h.elim
  | succ n ih =>
    have hstart : ¬ TransGen (Next f stop) a a := by
      intro hcycle
      obtain ⟨c, ⟨rfl, hstop⟩, -⟩ := TransGen.head'_iff.mp hcycle
      have hrest := ih (h.resolve_left hstop)
      exact hrest (f a) (met_self _) (cycle_next hstop hcycle)
    intro b hb
    rcases met_iff.mp hb with rfl | ⟨hstop, hb⟩
    · exact hstart
    · exact ih (h.resolve_left hstop) b hb

theorem EndsWithin.encard_le (h : EndsWithin f stop n a) : (Met f stop a).encard ≤ n := by
  induction n generalizing a with
  | zero => exact h.elim
  | succ n ih =>
    by_cases hstop : stop (f a)
    · have hone : Met f stop a ⊆ {a} := by
        intro b hb
        rcases met_iff.mp hb with rfl | ⟨hgo, -⟩
        · rfl
        · exact absurd hstop hgo
      calc (Met f stop a).encard ≤ ({a} : Set α).encard := Set.encard_le_encard hone
        _ = 1 := Set.encard_singleton a
        _ ≤ (n + 1 : ℕ) := by exact_mod_cast Nat.le_add_left 1 n
    · have hrest := ih (h.resolve_left hstop)
      have hsub : Met f stop a ⊆ insert a (Met f stop (f a)) := by
        intro b hb
        rcases met_iff.mp hb with rfl | ⟨-, hb⟩
        · exact Set.mem_insert _ _
        · exact Set.mem_insert_of_mem _ hb
      calc (Met f stop a).encard ≤ (insert a (Met f stop (f a))).encard :=
            Set.encard_le_encard hsub
        _ ≤ (Met f stop (f a)).encard + 1 := Set.encard_insert_le _ _
        _ ≤ (n + 1 : ℕ) := by
            rw [Nat.cast_add, Nat.cast_one]
            exact add_le_add_left hrest 1

/-- A walk that does not come back to an element meets a new one in every round. -/
theorem endsWithin_of_encard_le (hacyclic : Acyclic f stop a) (h : (Met f stop a).encard ≤ n) :
    EndsWithin f stop n a := by
  induction n generalizing a with
  | zero =>
    have hempty : Met f stop a = ∅ := by simpa using h
    exact absurd (met_self a) (by rw [hempty]; exact Set.notMem_empty a)
  | succ n ih =>
    by_cases hstop : stop (f a)
    · exact Or.inl hstop
    · refine Or.inr (ih (hacyclic.tail hstop) ?_)
      have hfresh : a ∉ Met f stop (f a) := fun hback =>
        hacyclic a (met_self a) (TransGen.head' ⟨rfl, hstop⟩ hback)
      have hsub : insert a (Met f stop (f a)) ⊆ Met f stop a := by
        intro b hb
        exact met_iff.mpr (hb.imp id fun hb => ⟨hstop, hb⟩)
      have hcard := (Set.encard_le_encard hsub).trans h
      rw [Set.encard_insert_of_notMem hfresh, Nat.cast_add, Nat.cast_one] at hcard
      exact (ENat.add_le_add_iff_right (by decide)).mp hcard

theorem endsWithin_iff :
    EndsWithin f stop n a ↔ Acyclic f stop a ∧ (Met f stop a).encard ≤ n :=
  ⟨fun h => ⟨h.acyclic, h.encard_le⟩, fun h => endsWithin_of_encard_le h.1 h.2⟩

theorem length_visited_of_stop [DecidablePred stop] (h : stop (f a)) :
    (visited f stop n a).length ≤ 1 := by
  cases n with
  | zero => exact Nat.zero_le 1
  | succ n =>
    rw [visited, if_pos h]
    exact le_rfl

theorem length_visited_le_iff [DecidablePred stop] {k : ℕ} :
    (∀ n, (visited f stop n a).length ≤ k) ↔ EndsWithin f stop k a := by
  induction k generalizing a with
  | zero =>
    constructor
    · intro hnone
      exact absurd (hnone 1) (Nat.not_succ_le_zero _)
    · exact False.elim
  | succ k ih =>
    by_cases hstop : stop (f a)
    · constructor
      · exact fun _ => Or.inl hstop
      · intro _ n
        exact (length_visited_of_stop hstop).trans (Nat.le_add_left 1 k)
    · rw [EndsWithin, or_iff_right hstop, ← ih]
      constructor
      · intro hall n
        have hnext := hall (n + 1)
        rw [visited, if_neg hstop, List.length_cons] at hnext
        exact Nat.le_of_succ_le_succ hnext
      · intro hall n
        cases n with
        | zero => exact Nat.zero_le _
        | succ n =>
          rw [visited, if_neg hstop, List.length_cons]
          exact Nat.succ_le_succ (hall n)

/-- Among finitely many elements only a cycle keeps a walk going. -/
theorem endsWithin_card_iff {s : Finset α} (hs : Met f stop a ⊆ s) :
    EndsWithin f stop s.card a ↔ Acyclic f stop a := by
  rw [endsWithin_iff]
  refine and_iff_left ?_
  rw [← Set.encard_coe_eq_coe_finsetCard]
  exact Set.encard_le_encard hs

end Walk
