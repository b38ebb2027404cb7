import RML.Lib.Bytes

/-! Tables of twelve-bit entries, two entries in three bytes, low bits first. -/

namespace Fat12

open Bytes

abbrev Entry := BitVec 12

/-- The bytes of a table; a last entry without a partner takes two of them. -/
def pack : List Entry → List UInt8
  | [] => []
  | [a] => toLE 2 a.toNat
  | a :: b :: entries => toLE 3 (a.toNat + 4096 * b.toNat) ++ pack entries

/-- Where the two bytes lie that hold entry `n`. -/
def offset (n : ℕ) : ℕ := n + n / 2

/-- Entry `n` of the two bytes: the upper twelve bits for an odd one, the lower for an even one. -/
def select (n word : ℕ) : ℕ := if n % 2 = 1 then word / 16 else word % 4096

def decode (table : List UInt8) (n : ℕ) : ℕ := select n (ofLE (slice table (offset n) 2))

theorem offset_add_two (n : ℕ) : offset (n + 2) = 3 + offset n := by
  unfold offset
  omega

theorem select_add_two (n word : ℕ) : select (n + 2) word = select n word := by
  rw [select, select, Nat.add_mod_right]

theorem select_zero (word : ℕ) : select 0 word = word % 4096 := rfl

theorem select_one (word : ℕ) : select 1 word = word / 16 := rfl

theorem decode_pair (a b : Entry) (table : List UInt8) :
    decode (toLE 3 (a.toNat + 4096 * b.toNat) ++ table) 0 = a.toNat ∧
      decode (toLE 3 (a.toNat + 4096 * b.toNat) ++ table) 1 = b.toNat := by
  have ha := a.isLt
  have hb := b.isLt
  have hbyte : ∀ w, (UInt8.ofNat w).toNat = w % 256 := fun _ => UInt8.toNat_ofNat'
  constructor
  · show select 0 (ofLE (slice (_ :: _ :: _ :: table) 0 2)) = _
    simp only [select_zero, slice, List.drop_zero, List.take_succ_cons, List.take_zero, ofLE, hbyte]
    omega
  · show select 1 (ofLE (slice (_ :: _ :: _ :: table) 1 2)) = _
    simp only [select_one, slice, List.drop_succ_cons, List.drop_zero, List.take_succ_cons,
      List.take_zero, ofLE, hbyte]
    omega

theorem decode_append {head : List UInt8} (hhead : head.length = 3) (table : List UInt8) (n : ℕ) :
    decode (head ++ table) (n + 2) = decode table n := by
  rw [decode, decode, select_add_two, offset_add_two, slice, slice, ← List.drop_drop, ← hhead,
    List.drop_left]

theorem decode_pack {entries : List Entry} {n : ℕ} (h : n < entries.length) :
    decode (pack entries) n = entries[n].toNat := by
  induction entries using pack.induct generalizing n with
  | case1 => simp at h
  | case2 a =>
    obtain rfl : n = 0 := by simpa using h
    have ha := a.isLt
    have hword : ofLE (slice (toLE 2 a.toNat) 0 2) = a.toNat := by
      have hall : slice (toLE 2 a.toNat) 0 2 = toLE 2 a.toNat := rfl
      rw [hall, ofLE_toLE_of_lt (by omega)]
    show select 0 (ofLE (slice (toLE 2 a.toNat) 0 2)) = a.toNat
    rw [hword, select_zero]
    omega
  | case3 a b entries ih =>
    obtain ⟨hfirst, hsecond⟩ := decode_pair a b (pack entries)
    match n with
    | 0 => exact hfirst
    | 1 => exact hsecond
    | n + 2 =>
      have hn : n < entries.length := by simpa using h
      rw [pack, decode_append (length_toLE 3 _), ih hn]
      rfl

end Fat12
