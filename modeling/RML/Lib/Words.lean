import Mathlib.Algebra.Group.Nat.Defs

/-! A segmented memory of bytes holding 16-bit words, and the part of a segment
that lies above a limit, which stores below the limit leave alone. -/

namespace Words

abbrev Word := BitVec 16

abbrev Memory := Word → Word → BitVec 8

variable {m m' m'' : Memory} {s o p w : Word} {lim lim' : ℕ}

/-- The little-endian word at `s:o`. -/
def load (m : Memory) (s o : Word) : Word := m s (o + 1) ++ m s o

def store (m : Memory) (s o w : Word) : Memory := fun s' o' =>
  if s' = s ∧ o' = o then w.extractLsb' 0 8
  else if s' = s ∧ o' = o + 1 then w.extractLsb' 8 8
  else m s' o'

/-- The bytes of segment `s` from offset `lim` on are the same in both memories. -/
def SameAbove (s : Word) (lim : ℕ) (m m' : Memory) : Prop :=
  ∀ o : Word, lim ≤ o.toNat → m' s o = m s o

theorem load_store : load (store m s o w) s o = w := by
  have hne : o + 1 ≠ o := by bv_omega
  simp only [load, store, hne, and_false, if_false, and_self, if_true]
  apply BitVec.eq_of_toNat_eq
  simp only [BitVec.toNat_append, BitVec.extractLsb'_toNat, Nat.shiftRight_zero]
  rw [← Nat.shiftLeft_add_eq_or_of_lt (Nat.mod_lt _ (by decide))]
  have hw := w.isLt
  simp only [Nat.shiftLeft_eq, Nat.shiftRight_eq_div_pow]
  omega

theorem SameAbove.refl (s : Word) (lim : ℕ) (m : Memory) : SameAbove s lim m m :=
  fun _ _ => rfl

theorem SameAbove.trans (h : SameAbove s lim m m') (h' : SameAbove s lim m' m'') :
    SameAbove s lim m m'' :=
  fun o ho => (h' o ho).trans (h o ho)

theorem SameAbove.mono (h : SameAbove s lim m m') (hle : lim ≤ lim') : SameAbove s lim' m m' :=
  fun o ho => h o (Nat.le_trans hle ho)

theorem SameAbove.load (h : SameAbove s lim m m') (hp : lim ≤ p.toNat)
    (htop : p.toNat + 1 < 2 ^ 16) : load m' s p = load m s p := by
  rw [Words.load, Words.load, h p hp, h (p + 1) (by bv_omega)]

theorem sameAbove_store (ho : o.toNat + 2 ≤ lim) (htop : lim ≤ 2 ^ 16) :
    SameAbove s lim m (store m s o w) := by
  intro p hp
  have h1 : p ≠ o := by bv_omega
  have h2 : p ≠ o + 1 := by bv_omega
  simp only [store, h1, h2, and_false, if_false]

end Words
