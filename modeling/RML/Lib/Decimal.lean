import Mathlib.Data.List.Basic
import Mathlib.Data.List.Induction
import Mathlib.Tactic.Ring
import Mathlib.Tactic.NormNum

/-! Decimal numerals as ASCII text. A numeral has no leading zero, so that it is the
only one of its value. -/

namespace Decimal

def digitChar (d : ℕ) : UInt8 := UInt8.ofNat (48 + d)

def print (n : ℕ) : List UInt8 :=
  if n / 10 = 0 then [digitChar (n % 10)] else print (n / 10) ++ [digitChar (n % 10)]

def value (l : List UInt8) : ℕ := l.foldl (fun v c => 10 * v + (c.toNat - 48)) 0

structure Numeral (l : List UInt8) (n : ℕ) : Prop where
  nonempty : l ≠ []
  digits : ∀ c ∈ l, 48 ≤ c.toNat ∧ c.toNat ≤ 57
  noLeadingZero : l.head? = some 48 → l = [48]
  value_eq : value l = n

/-- A numeral with a minus sign before it when the number is negative. -/
def SignedNumeral (l : List UInt8) (z : ℤ) : Prop :=
  if 0 ≤ z then Numeral l z.toNat else ∃ l', l = 45 :: l' ∧ Numeral l' z.natAbs

/-- A do-while that stores the digits of `i` in front of `p`, the last digit first. -/
def pushDigits : ℕ → ℕ → List UInt8 → List UInt8
  | 0, _, p => p
  | fuel + 1, i, p =>
    let p := digitChar (i % 10) :: p
    if i / 10 = 0 then p else pushDigits fuel (i / 10) p

theorem toNat_digitChar {d : ℕ} (h : d < 10) : (digitChar d).toNat = 48 + d :=
  UInt8.toNat_ofNat_of_lt' (show 48 + d < 256 by omega)

theorem value_append_digit (l : List UInt8) (c : UInt8) :
    value (l ++ [c]) = 10 * value l + (c.toNat - 48) := by
  simp [value, List.foldl_append]

theorem print_lt {n : ℕ} (h : n < 10) : print n = [digitChar n] := by
  rw [print, if_pos (by omega), Nat.mod_eq_of_lt h]

theorem print_ge {n : ℕ} (h : 10 ≤ n) : print n = print (n / 10) ++ [digitChar (n % 10)] := by
  rw [print, if_neg (by omega)]

theorem print_ne_nil (n : ℕ) : print n ≠ [] := by
  rw [print]
  split_ifs
  · exact List.cons_ne_nil _ _
  · exact List.append_ne_nil_of_right_ne_nil _ (List.cons_ne_nil _ _)

theorem value_print (n : ℕ) : value (print n) = n := by
  induction n using Nat.strong_induction_on with
  | _ n ih =>
    by_cases h : n < 10
    · rw [print_lt h]
      simp [value, toNat_digitChar h]
    · rw [print_ge (by omega), value_append_digit, ih (n / 10) (by omega),
        toNat_digitChar (Nat.mod_lt _ (by decide))]
      omega

theorem digits_print (n : ℕ) : ∀ c ∈ print n, 48 ≤ c.toNat ∧ c.toNat ≤ 57 := by
  induction n using Nat.strong_induction_on with
  | _ n ih =>
    have hlast : ∀ c ∈ [digitChar (n % 10)], 48 ≤ c.toNat ∧ c.toNat ≤ 57 := by
      intro c hc
      rw [List.mem_singleton.mp hc, toNat_digitChar (Nat.mod_lt _ (by decide))]
      omega
    rw [print]
    split_ifs with h
    · exact hlast
    · intro c hc
      rcases List.mem_append.mp hc with hc | hc
      · exact ih (n / 10) (by omega) c hc
      · exact hlast c hc

theorem head_print {n : ℕ} (h : 0 < n) : (print n).head? ≠ some 48 := by
  induction n using Nat.strong_induction_on with
  | _ n ih =>
    by_cases hlt : n < 10
    · rw [print_lt hlt, List.head?_cons]
      intro heq
      have hnat := congrArg UInt8.toNat (Option.some.inj heq)
      rw [toNat_digitChar hlt] at hnat
      change 48 + n = 48 at hnat
      omega
    · rw [print_ge (by omega), List.head?_append_of_ne_nil _ (print_ne_nil _)]
      exact ih (n / 10) (by omega) (by omega)

theorem numeral_print (n : ℕ) : Numeral (print n) n := by
  refine ⟨print_ne_nil n, digits_print n, ?_, value_print n⟩
  intro hhead
  rcases Nat.eq_zero_or_pos n with rfl | hpos
  · exact print_lt (by decide)
  · exact absurd hhead (head_print hpos)

theorem Numeral.eq_print {l : List UInt8} {n : ℕ} (h : Numeral l n) : l = print n := by
  induction l using List.reverseRecOn generalizing n with
  | nil => exact absurd rfl h.nonempty
  | append_singleton l c ih =>
    have hc := h.digits c (by simp)
    have hvalue := h.value_eq
    rw [value_append_digit] at hvalue
    have hchar : digitChar (c.toNat - 48) = c := by
      rw [digitChar, Nat.add_sub_cancel' hc.1, UInt8.ofNat_toNat]
    by_cases hnil : l = []
    · subst hnil
      change 10 * 0 + (c.toNat - 48) = n at hvalue
      rw [print_lt (by omega), List.nil_append, ← hvalue, Nat.mul_zero, Nat.zero_add, hchar]
    · have hhead : l.head? ≠ some 48 := by
        intro heq
        have hone := h.noLeadingZero (by rwa [List.head?_append_of_ne_nil _ hnil])
        have hlen := congrArg List.length hone
        rw [List.length_append, List.length_singleton, List.length_singleton] at hlen
        exact hnil (List.length_eq_zero_iff.mp (by omega))
      have hinit : Numeral l (value l) :=
        ⟨hnil, fun d hd => h.digits d (by simp [hd]), fun heq => absurd heq hhead, rfl⟩
      have hpos : value l ≠ 0 := by
        intro h0
        rw [h0] at hinit
        have hzero := ih hinit
        rw [print_lt (by decide)] at hzero
        exact hhead (by rw [hzero]; rfl)
      rw [print_ge (by omega), show n / 10 = value l by omega, ← ih hinit,
        show n % 10 = c.toNat - 48 by omega, hchar]

theorem length_print_le_iff (n k : ℕ) : (print n).length ≤ k + 1 ↔ n < 10 ^ (k + 1) := by
  induction k generalizing n with
  | zero =>
    by_cases h : n < 10
    · simp [print_lt h, h]
    · have hpos := List.length_pos_iff.mpr (print_ne_nil (n / 10))
      rw [print_ge (by omega), List.length_append, List.length_singleton]
      omega
  | succ k ih =>
    by_cases h : n < 10
    · have hpow : 0 < 10 ^ (k + 1) := Nat.pow_pos (by decide)
      rw [print_lt h, List.length_singleton, pow_succ]
      omega
    · have hdiv := ih (n / 10)
      rw [print_ge (by omega), List.length_append, List.length_singleton, pow_succ]
      omega

theorem pushDigits_eq {fuel i : ℕ} (p : List UInt8) (h : i < 10 ^ fuel) (hfuel : 0 < fuel) :
    pushDigits fuel i p = print i ++ p := by
  induction fuel generalizing i p with
  | zero => omega
  | succ fuel ih =>
    rw [pushDigits, print]
    by_cases hlast : i / 10 = 0
    · rw [if_pos hlast, if_pos hlast, List.singleton_append]
    · have hdiv : i / 10 < 10 ^ fuel := by
        rw [pow_succ] at h
        omega
      have hmore : 0 < fuel := by
        rcases Nat.eq_zero_or_pos fuel with rfl | hpos
        · omega
        · exact hpos
      rw [if_neg hlast, if_neg hlast, ih _ hdiv hmore, List.append_assoc, List.singleton_append]

def printInt (z : ℤ) : List UInt8 := if 0 ≤ z then print z.toNat else 45 :: print z.natAbs

theorem signedNumeral_printInt (z : ℤ) : SignedNumeral (printInt z) z := by
  unfold SignedNumeral printInt
  split_ifs
  · exact numeral_print _
  · exact ⟨_, rfl, numeral_print _⟩

theorem SignedNumeral.eq_printInt {l : List UInt8} {z : ℤ} (h : SignedNumeral l z) :
    l = printInt z := by
  unfold SignedNumeral at h
  unfold printInt
  split_ifs at h ⊢
  · exact h.eq_print
  · obtain ⟨l', rfl, hnumeral⟩ := h
    rw [hnumeral.eq_print]

end Decimal
