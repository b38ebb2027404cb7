import RML.Spec.Numerals
import RML.Spec.Kernio
import RML.Spec.Utils
import RML.Lib.Decimal
import Mathlib.Tactic.SplitIfs

/-! The digit loops on their static buffers. The loop stores the numeral from offset 5
downwards, so that seven bytes hold six characters and a NUL. The twelve of `ultoa` hold
every word. -/

namespace RML

open Decimal

namespace DigitBuf

variable {b b₁ b₂ : DigitBuf} {l l' : List UInt8}

/-- `l` has been stored in front of the pointer, byte by byte. -/
structure Stores (b : DigitBuf) (l : List UInt8) (b' : DigitBuf) : Prop where
  p : b'.p = b.p - l.length
  text : ∀ (k : ℕ) (h : k < l.length), b'.buf (b'.p + k) = l[k]
  rest : ∀ j, j < b'.p ∨ b.p ≤ j → b'.buf j = b.buf j
  stored : ∀ j, j ∈ b'.stored ↔ j ∈ b.stored ∨ b'.p ≤ j ∧ j < b.p

theorem stores_push (b : DigitBuf) (c : UInt8) : Stores b [c] (b.push c) := by
  refine ⟨by simp [push], ?_, ?_, ?_⟩
  · intro k hk
    obtain rfl : k = 0 := by simpa using hk
    simp [push, set]
  · intro j hj
    simp only [push, set] at hj ⊢
    rw [Function.update_of_ne (by omega)]
  · intro j
    simp only [push, set, List.mem_append, List.mem_singleton]
    exact or_congr_right ⟨by omega, by omega⟩

theorem Stores.trans (h : Stores b l b₁) (h' : Stores b₁ l' b₂) : Stores b (l' ++ l) b₂ := by
  have hp := h.p
  have hp' := h'.p
  refine ⟨?_, ?_, ?_, ?_⟩
  · rw [hp', hp, List.length_append]
    omega
  · intro k hk
    rw [List.length_append] at hk
    by_cases hlt : k < l'.length
    · rw [List.getElem_append_left hlt]
      exact h'.text k hlt
    · rw [List.getElem_append_right (by omega), h'.rest _ (by omega)]
      have hplace : b₂.p + k = b₁.p + (k - l'.length : ℕ) := by omega
      rw [hplace]
      exact h.text _ (by omega)
  · intro j hj
    rw [h'.rest j (by omega), h.rest j (by omega)]
  · intro j
    rw [h'.stored, h.stored, or_assoc]
    exact or_congr_right ⟨by omega, by omega⟩

/-- All stores were into the seven bytes of the buffer. -/
def Inside (b : DigitBuf) : Prop := ∀ j ∈ b.stored, 0 ≤ j ∧ j < 5 + 2

structure Holds (b : DigitBuf) (s : List UInt8) : Prop where
  text : ∀ (k : ℕ) (h : k < s.length), b.buf (b.p + k) = s[k]
  nul : b.buf (b.p + s.length) = 0
  nonzero : (0 : UInt8) ∉ s

theorem Stores.holds (h : Stores b l b₁) (hnul : b.buf b.p = 0) (hl : (0 : UInt8) ∉ l) :
    b₁.Holds l := by
  have hend : b₁.p + l.length = b.p := by rw [h.p]; omega
  refine ⟨h.text, ?_, hl⟩
  rw [hend, h.rest b.p (Or.inr le_rfl), hnul]

theorem terminated (b : DigitBuf) : (b.set b.p 0).buf b.p = 0 := by
  simp [set]

theorem Holds.unique {s s' : List UInt8} (h : b.Holds s) (h' : b.Holds s') : s = s' := by
  have hle : ∀ {s s' : List UInt8}, b.Holds s → b.Holds s' → s.length ≤ s'.length := by
    intro s s' h h'
    by_contra hlt
    have hbyte := h.text s'.length (by omega)
    rw [h'.nul] at hbyte
    exact h.nonzero (hbyte ▸ List.getElem_mem _)
  have hlen := (hle h h').antisymm (hle h' h)
  apply List.ext_getElem hlen
  intro k hk hk'
  rw [← h.text k hk, h'.text k hk']

end DigitBuf

open DigitBuf

theorem digitLoop_stores {α : Type} [DecidableEq α] {zero : α} {char : α → UInt8} {tenth : α → α}
    {P : α → Prop} (num : α → ℕ) (hzero : ∀ i, num i = 0 ↔ i = zero)
    (hchar : ∀ i, P i → char i = digitChar (num i % 10))
    (htenth : ∀ i, P i → P (tenth i) ∧ num (tenth i) = num i / 10) {fuel : ℕ} {i : α} (hi : P i)
    (h : num i < 10 ^ fuel) (hfuel : 0 < fuel) (b : DigitBuf) :
    ∃ b', digitLoop zero char tenth fuel i b = some b' ∧ Stores b (print (num i)) b' := by
  induction fuel generalizing i b with
  | zero => omega
  | succ fuel ih =>
    have hfirst := stores_push b (char i)
    obtain ⟨hi', hnext⟩ := htenth i hi
    rw [digitLoop, print, ← hnext, ← hchar i hi]
    by_cases hlast : tenth i = zero
    · rw [if_neg (not_not.mpr hlast), if_pos ((hzero _).mpr hlast)]
      exact ⟨_, rfl, hfirst⟩
    · have hmore : num (tenth i) ≠ 0 := mt (hzero _).mp hlast
      have hless : num (tenth i) < 10 ^ fuel := by
        rw [hnext]
        rw [pow_succ] at h
        omega
      obtain ⟨b', hloop, hrest⟩ := ih hi' hless (Nat.pos_of_ne_zero fun h0 => by
        rw [h0, pow_zero] at hless
        omega) (b.push (char i))
      rw [if_pos hlast, if_neg hmore]
      exact ⟨b', hloop, hfirst.trans hrest⟩

theorem zero_not_mem_print (n : ℕ) : (0 : UInt8) ∉ print n := by
  intro h0
  have hdigit := digits_print n 0 h0
  exact absurd hdigit.1 (by decide)

theorem zero_not_mem_printInt (z : ℤ) : (0 : UInt8) ∉ printInt z := by
  unfold printInt
  split_ifs
  · exact zero_not_mem_print _
  · rw [List.mem_cons, not_or]
    exact ⟨by decide, zero_not_mem_print _⟩

theorem unsignedLoop_stores (u : UInt32) (b : DigitBuf) :
    ∃ b', digitLoop 0 (fun i : UInt32 => (48 + i % 10).toUInt8) (· / 10) 10 u b = some b' ∧
      Stores b (print u.toNat) b' := by
  refine digitLoop_stores (P := fun _ => True) UInt32.toNat ?_ ?_ ?_ trivial ?_ (by decide) b
  · intro i
    exact UInt32.toNat_inj (b := 0)
  · intro i _
    apply UInt8.toNat_inj.mp
    rw [toNat_digitChar (Nat.mod_lt _ (by decide)), UInt32.toNat_toUInt8, UInt32.toNat_add,
      UInt32.toNat_mod]
    show (48 + i.toNat % 10) % 2 ^ 32 % 2 ^ 8 = 48 + i.toNat % 10
    omega
  · intro i _
    exact ⟨trivial, UInt32.toNat_div i 10⟩
  · exact u.toNat_lt.trans (by decide)

theorem uitoaBuf_stores (buf : ℤ → UInt8) (u : UInt32) :
    ∃ b, uitoaBuf buf u = some b ∧ Stores (start buf) (print u.toNat) b :=
  unsignedLoop_stores u (start buf)

/-- No `unsigned long` is negative: `ultoa` stores its NUL and the numeral in front of it. -/
theorem ultoaBuf_stores (buf : ℤ → UInt8) (u : UInt32) : ∃ b, ultoaBuf buf u = some b ∧
    Stores (({ buf := buf, p := 11 } : DigitBuf).set 11 0) (print u.toNat) b := by
  have hsign : 0 ≤ u := UInt32.zero_le
  obtain ⟨b, hloop, hstores⟩ :=
    unsignedLoop_stores u (({ buf := buf, p := 11 } : DigitBuf).set 11 0)
  rw [ultoaBuf, if_pos hsign]
  exact ⟨b, hloop, hstores⟩

theorem toUInt8_eq_digitChar {x : Int32} {r : ℕ} (h : x.toInt = (48 + r : ℕ)) (hr : r < 10) :
    x.toUInt32.toUInt8 = digitChar r := by
  have hx : x = Int32.ofNat (48 + r) := by
    apply Int32.toInt_inj.mp
    rw [h, Int32.toInt_ofNat_of_lt (by omega)]
  rw [hx, Int32.toUInt32_ofNat', digitChar]
  apply UInt8.toNat_inj.mp
  rw [UInt32.toNat_toUInt8, UInt8.toNat_ofNat', UInt32.toNat_ofNat']
  omega

theorem toInt_div_ten (i : Int32) : (i / 10).toInt = i.toInt.tdiv 10 :=
  Int32.toInt_div_of_ne_right i 10 (by decide)

theorem natAbs_lt (i : Int32) : i.toInt.natAbs < 10 ^ 10 := by
  have hlow : -2147483648 ≤ i.toInt := Int32.le_toInt i
  have hhigh : i.toInt < 2147483648 := Int32.toInt_lt i
  omega

/-! The two loops of `itoa`. Remainders have the sign of the number. -/

theorem natAbs_eq_zero_iff (i : Int32) : i.toInt.natAbs = 0 ↔ i = 0 := by
  rw [Int.natAbs_eq_zero, ← Int32.toInt_inj]
  rfl

theorem natAbs_div_ten (i : Int32) : (i / 10).toInt.natAbs = i.toInt.natAbs / 10 := by
  rw [toInt_div_ten, Int.natAbs_tdiv]
  rfl

theorem bmod_digit {r : ℕ} (hr : r < 10) : ((48 + r : ℕ) : ℤ).bmod (2 ^ 32) = (48 + r : ℕ) :=
  Int.bmod_eq_of_le (by omega) (by omega)

theorem itoaBuf_loop_nonneg {i : Int32} (hi : 0 ≤ i.toInt) (b : DigitBuf) :
    ∃ b', digitLoop 0 (fun i : Int32 => (48 + i % 10).toUInt32.toUInt8) (· / 10) 10 i b = some b' ∧
      Stores b (print i.toInt.natAbs) b' := by
  refine digitLoop_stores (P := fun i : Int32 => 0 ≤ i.toInt) (fun i => i.toInt.natAbs)
    natAbs_eq_zero_iff ?_ ?_ hi (natAbs_lt i) (by decide) b
  · intro i hi
    have hrest : i.toInt.tmod 10 = (i.toInt.natAbs % 10 : ℕ) := by
      rw [Int.tmod_eq_emod_of_nonneg hi]
      omega
    have hr : i.toInt.natAbs % 10 < 10 := Nat.mod_lt _ (by decide)
    apply toUInt8_eq_digitChar _ hr
    rw [Int32.toInt_add, Int32.toInt_mod, ← bmod_digit hr, Nat.cast_add, ← hrest]
    rfl
  · intro i hi
    refine ⟨?_, natAbs_div_ten i⟩
    rw [toInt_div_ten]
    exact Int.tdiv_nonneg hi (by decide)

theorem itoaBuf_loop_nonpos {i : Int32} (hi : i.toInt ≤ 0) (b : DigitBuf) :
    ∃ b', digitLoop 0 (fun i : Int32 => (48 - i % 10).toUInt32.toUInt8) (· / 10) 10 i b = some b' ∧
      Stores b (print i.toInt.natAbs) b' := by
  refine digitLoop_stores (P := fun i : Int32 => i.toInt ≤ 0) (fun i => i.toInt.natAbs)
    natAbs_eq_zero_iff ?_ ?_ hi (natAbs_lt i) (by decide) b
  · intro i hi
    have hrest : -i.toInt.tmod 10 = (i.toInt.natAbs % 10 : ℕ) := by
      rw [← Int.neg_tmod, Int.tmod_eq_emod_of_nonneg (by omega)]
      omega
    have hr : i.toInt.natAbs % 10 < 10 := Nat.mod_lt _ (by decide)
    apply toUInt8_eq_digitChar _ hr
    rw [Int32.toInt_sub, Int32.toInt_mod, ← bmod_digit hr, Nat.cast_add, ← hrest,
      ← sub_eq_add_neg]
    rfl
  · intro i hi
    refine ⟨?_, natAbs_div_ten i⟩
    have hneg : 0 ≤ (-i.toInt).tdiv 10 := Int.tdiv_nonneg (by omega) (by decide)
    rw [Int.neg_tdiv] at hneg
    rw [toInt_div_ten]
    omega

theorem itoaBuf_stores (buf : ℤ → UInt8) (i : Int32) :
    ∃ b, itoaBuf buf i = some b ∧
      Stores ((start buf).set 6 0) (printInt i.toInt) b := by
  have hsign : 0 ≤ i ↔ 0 ≤ i.toInt := Int32.le_iff_toInt_le
  unfold itoaBuf printInt
  by_cases h0 : 0 ≤ i.toInt
  · obtain ⟨b, hloop, hstores⟩ := itoaBuf_loop_nonneg h0 _
    have habs : i.toInt.natAbs = i.toInt.toNat := by omega
    rw [habs] at hstores
    rw [if_pos (hsign.mpr h0), if_pos h0]
    exact ⟨b, hloop, hstores⟩
  · obtain ⟨b, hloop, hstores⟩ := itoaBuf_loop_nonpos (le_of_not_ge h0) ((start buf).set 6 0)
    rw [if_neg (mt hsign.mp h0), if_neg h0, hloop]
    exact ⟨_, rfl, hstores.trans (stores_push b 45)⟩

theorem length_printInt_le_iff (z : ℤ) :
    (printInt z).length ≤ 6 ↔ -99999 ≤ z ∧ z ≤ 999999 := by
  unfold printInt
  split_ifs with h0
  · rw [length_print_le_iff _ 5]
    omega
  · have hdigits := length_print_le_iff z.natAbs 4
    rw [List.length_cons]
    omega

theorem DigitBuf.Stores.inside_iff {b b' : DigitBuf} {l : List UInt8} (h : Stores b l b')
    (hp : b.p = 6) (hstored : ∀ j ∈ b.stored, j = 6) : b'.Inside ↔ l.length ≤ 6 := by
  have hend := h.p
  constructor
  · intro hinside
    by_contra hlong
    have hlow := hinside b'.p ((h.stored _).mpr (Or.inr ⟨le_refl _, by omega⟩))
    omega
  · intro hle j hj
    rcases (h.stored j).mp hj with hj | hj
    · rw [hstored j hj]
      decide
    · omega

/-- `itoa` keeps within its buffer and returns the numeral of `i`. -/
def ItoaRight (buf : ℤ → UInt8) (i : Int32) : Prop :=
  ∃ b s, itoaBuf buf i = some b ∧ b.Inside ∧ b.Holds s ∧ SignedNumeral s i.toInt

def UitoaRight (buf : ℤ → UInt8) (u : UInt32) : Prop :=
  ∃ b s, uitoaBuf buf u = some b ∧ b.Inside ∧ b.Holds s ∧ Numeral s u.toNat

theorem itoaRight_iff (buf : ℤ → UInt8) (i : Int32) :
    ItoaRight buf i ↔ (printInt i.toInt).length ≤ 6 := by
  obtain ⟨b, hb, hstores⟩ := itoaBuf_stores buf i
  have hinside := hstores.inside_iff rfl fun j => List.mem_singleton.mp
  constructor
  · rintro ⟨b', s, hb', hin, -, -⟩
    obtain rfl := Option.some.inj (hb.symm.trans hb')
    exact hinside.mp hin
  · intro hle
    have hholds := hstores.holds (terminated (start buf)) (zero_not_mem_printInt _)
    exact ⟨b, _, hb, hinside.mpr hle, hholds, signedNumeral_printInt _⟩

theorem uitoaRight_iff {buf : ℤ → UInt8} (hnul : buf 6 = 0) (u : UInt32) :
    UitoaRight buf u ↔ (print u.toNat).length ≤ 6 := by
  obtain ⟨b, hb, hstores⟩ := uitoaBuf_stores buf u
  have hinside := hstores.inside_iff rfl fun j hj => absurd hj List.not_mem_nil
  constructor
  · rintro ⟨b', s, hb', hin, -, -⟩
    obtain rfl := Option.some.inj (hb.symm.trans hb')
    exact hinside.mp hin
  · intro hle
    have hholds := hstores.holds hnul (zero_not_mem_print _)
    exact ⟨b, _, hb, hinside.mpr hle, hholds, numeral_print _⟩

theorem uitoaMemory_nul (us : List UInt32) : uitoaMemory us 6 = 0 := by
  induction us with
  | nil => rfl
  | cons u us ih =>
    obtain ⟨b, hb, hstores⟩ := uitoaBuf_stores (uitoaMemory us) u
    have hkept : b.buf 6 = (start (uitoaMemory us)).buf 6 := hstores.rest 6 (Or.inr (le_refl 6))
    rw [uitoaMemory, hb, Option.map_some, Option.getD_some, hkept]
    exact ih

/-- The buffers of seven bytes were sized for 16-bit numbers: the conversions of 32-bit
numbers are right, and keep within them, exactly for those of up to six characters. -/
theorem decimal_conversion_iff (buf : ℤ → UInt8) (i : Int32) (us : List UInt32) (u : UInt32) :
    (ItoaRight buf i ↔ -99999 ≤ i.toInt ∧ i.toInt ≤ 999999) ∧
      (UitoaRight (uitoaMemory us) u ↔ u.toNat ≤ 999999) := by
  constructor
  · rw [itoaRight_iff, length_printInt_le_iff]
  · rw [uitoaRight_iff (uitoaMemory_nul us), length_print_le_iff _ 5]
    omega

theorem decimal_conversion_overrun : ¬ ∀ (buf : ℤ → UInt8) (i : Int32) (us : List UInt32)
    (u : UInt32), ItoaRight buf i ∧ UitoaRight (uitoaMemory us) u := by
  intro hlaw
  have hfits := (itoaRight_iff _ _).mp (hlaw (fun _ => 0) 1000000 [] 0).1
  rw [length_printInt_le_iff] at hfits
  exact absurd hfits.2 (by decide)

/-- `ultoa` is right for every word: it keeps within its twelve bytes, and the string that
it returns is the numeral, which no other number has. -/
theorem ultoa_numeral (buf : ℤ → UInt8) (v : UInt32) :
    ∃ b s, ultoaBuf buf v = some b ∧ (∀ j ∈ b.stored, 0 ≤ j ∧ j ≤ 11) ∧
      0 ≤ b.p ∧ b.p + s.length = 11 ∧ b.Holds s ∧ Numeral s v.toNat ∧
      ∀ buf' v' b', ultoaBuf buf' v' = some b' → b'.Holds s → v' = v := by
  obtain ⟨b, hb, hstores⟩ := ultoaBuf_stores buf v
  have hlen : (print v.toNat).length ≤ 10 :=
    (length_print_le_iff v.toNat 9).mpr (v.toNat_lt.trans (by decide))
  have hend : b.p = 11 - (print v.toNat).length := hstores.p
  refine ⟨b, print v.toNat, hb, ?_, by omega, by omega, ?_, numeral_print _, ?_⟩
  · intro j hj
    rcases (hstores.stored j).mp hj with hj | hj
    · rw [List.mem_singleton.mp hj]
      decide
    · have hlow := hj.1
      have hhigh : j < 11 := hj.2
      omega
  · exact hstores.holds (terminated { buf := _, p := 11 }) (zero_not_mem_print _)
  · intro buf' v' b' hb' hs
    obtain ⟨b₁, hb₁, hstores'⟩ := ultoaBuf_stores buf' v'
    obtain rfl := Option.some.inj (hb₁.symm.trans hb')
    have hsame := hs.unique (hstores'.holds (terminated { buf := _, p := 11 }) (zero_not_mem_print _))
    apply UInt32.toNat_inj.mp
    rw [← value_print v'.toNat, ← hsame, value_print]

/-! The conversions of the model that return text are these. -/

theorem uitoaLoop_eq (fuel i : ℕ) (p : List UInt8) : uitoaLoop fuel i p = pushDigits fuel i p := by
  induction fuel generalizing i p with
  | zero => rfl
  | succ fuel ih =>
    rw [uitoaLoop, pushDigits, ← ih]
    rfl

theorem itoaLoop_eq (fuel i : ℕ) (p : List UInt8) : itoaLoop fuel i p = pushDigits fuel i p := by
  induction fuel generalizing i p with
  | zero => rfl
  | succ fuel ih =>
    rw [itoaLoop, pushDigits, ← ih]
    rfl

theorem uitoa_eq {i : ℕ} (h : i < 10 ^ 10) :
    uitoa i = if (print i).length ≤ 6 then some (print i) else none := by
  rw [uitoa, uitoaLoop_eq, pushDigits_eq [] h (by decide), List.append_nil]

theorem itoa_eq (i : Int32) :
    itoa i = if (printInt i.toInt).length ≤ 6 then some (printInt i.toInt) else none := by
  have hsign : 0 ≤ i ↔ 0 ≤ i.toInt := Int32.le_iff_toInt_le
  rw [itoa, itoaLoop_eq, pushDigits_eq [] (natAbs_lt i) (by decide), List.append_nil]
  unfold printInt
  by_cases h0 : 0 ≤ i.toInt
  · have habs : i.toInt.natAbs = i.toInt.toNat := by omega
    simp only [if_pos (hsign.mpr h0), if_pos h0, habs]
  · simp only [if_neg (mt hsign.mp h0), if_neg h0]

end RML
