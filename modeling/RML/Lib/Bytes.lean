import Mathlib.Data.List.TakeDrop
import Mathlib.Tactic.Ring
import Mathlib.Tactic.NormNum

/-! Byte strings as lists: slices, overwriting part of a buffer, the string up to
the first NUL, and little-endian words. -/

namespace Bytes

def slice (l : List UInt8) (off n : ℕ) : List UInt8 := (l.drop off).take n

/-- `l` with the bytes from `off` on replaced by `bs`. -/
def overwrite (l : List UInt8) (off : ℕ) (bs : List UInt8) : List UInt8 :=
  l.take off ++ bs ++ l.drop (off + bs.length)

def store (l : List UInt8) (off : ℕ) (bs : List UInt8) : Option (List UInt8) :=
  if off + bs.length ≤ l.length then some (overwrite l off bs) else none

def storeAll : List (ℕ × List UInt8) → List UInt8 → Option (List UInt8)
  | [], l => some l
  | w :: ws, l => (store l w.1 w.2).bind (storeAll ws)

/-- The C string that starts at the first byte of `l`. -/
def cstr (l : List UInt8) : List UInt8 := l.takeWhile (· ≠ 0)

theorem length_slice {l : List UInt8} {off n : ℕ} (h : off + n ≤ l.length) :
    (slice l off n).length = n := by
  simp only [slice, List.length_take, List.length_drop]
  omega

theorem length_overwrite {l bs : List UInt8} {off : ℕ} (h : off + bs.length ≤ l.length) :
    (overwrite l off bs).length = l.length := by
  simp only [overwrite, List.length_append, List.length_take, List.length_drop]
  omega

theorem overwrite_nil (l : List UInt8) (off : ℕ) : overwrite l off [] = l := by
  simp [overwrite]

theorem overwrite_zero (l bs : List UInt8) : overwrite l 0 bs = bs ++ l.drop bs.length := by
  simp [overwrite]

theorem store_eq_some {l bs : List UInt8} {off : ℕ} (h : off + bs.length ≤ l.length) :
    store l off bs = some (overwrite l off bs) :=
  if_pos h

theorem getElem?_overwrite {l bs : List UInt8} {off : ℕ} (h : off + bs.length ≤ l.length) (i : ℕ) :
    (overwrite l off bs)[i]? = if off ≤ i ∧ i < off + bs.length then bs[i - off]? else l[i]? := by
  have htake : (l.take off).length = off := by simp only [List.length_take]; omega
  rw [overwrite, List.append_assoc, List.getElem?_append, htake]
  split_ifs with h1 h2 h3
  · omega
  · rw [List.getElem?_take, if_pos h1]
  · rw [List.getElem?_append_left (by omega)]
  · rw [List.getElem?_append_right (by omega), List.getElem?_drop]
    congr 1
    omega

theorem getElem?_slice (l : List UInt8) (off n i : ℕ) :
    (slice l off n)[i]? = if i < n then l[off + i]? else none := by
  rw [slice, List.getElem?_take, List.getElem?_drop]

theorem slice_take {l : List UInt8} {m off n : ℕ} (h : off + n ≤ m) :
    slice (l.take m) off n = slice l off n := by
  rw [slice, slice, List.drop_take, List.take_take, Nat.min_eq_left (by omega)]

theorem slice_append_left {l : List UInt8} {off n : ℕ} (h : off + n ≤ l.length) (l' : List UInt8) :
    slice (l ++ l') off n = slice l off n := by
  rw [slice, slice, List.drop_append_of_le_length (by omega),
    List.take_append_of_le_length (by rw [List.length_drop]; omega)]

theorem slice_slice {l : List UInt8} {m off p n : ℕ} (h : p + n ≤ m) :
    slice (slice l off m) p n = slice l (off + p) n := by
  rw [slice, slice, slice, List.drop_take, List.take_take, List.drop_drop,
    Nat.min_eq_left (by omega)]

theorem slice_append_slice (l : List UInt8) (off m n : ℕ) :
    slice l off m ++ slice l (off + m) n = slice l off (m + n) := by
  rw [slice, slice, slice, List.take_add, List.drop_drop]

theorem slice_overwrite_self {l bs : List UInt8} {off : ℕ} (h : off + bs.length ≤ l.length) :
    slice (overwrite l off bs) off bs.length = bs := by
  apply List.ext_getElem?
  intro i
  rw [getElem?_slice, getElem?_overwrite h]
  split_ifs with h1 h2
  · rw [Nat.add_sub_cancel_left]
  · omega
  · rw [List.getElem?_eq_none (by omega)]

theorem slice_overwrite_disjoint {l bs : List UInt8} {off p n : ℕ} (h : off + bs.length ≤ l.length)
    (hd : p + n ≤ off ∨ off + bs.length ≤ p) :
    slice (overwrite l off bs) p n = slice l p n := by
  apply List.ext_getElem?
  intro i
  simp only [getElem?_slice, getElem?_overwrite h]
  split_ifs with h1 h2
  · omega
  · rfl
  · rfl

theorem storeAll_eq_some {ws : List (ℕ × List UInt8)} {l : List UInt8}
    (h : ∀ w ∈ ws, w.1 + w.2.length ≤ l.length) :
    ∃ l', storeAll ws l = some l' ∧ l'.length = l.length := by
  induction ws generalizing l with
  | nil => exact ⟨l, rfl, rfl⟩
  | cons w ws ih =>
    have hw := h w List.mem_cons_self
    have hlen := length_overwrite hw
    obtain ⟨l', hrest, hlen'⟩ := ih (l := overwrite l w.1 w.2) fun v hv => by
      rw [hlen]
      exact h v (List.mem_cons_of_mem w hv)
    exact ⟨l', by rw [storeAll, store_eq_some hw, Option.bind_some, hrest], hlen'.trans hlen⟩

theorem storeAll_cons {w : ℕ × List UInt8} {ws : List (ℕ × List UInt8)} {l l' : List UInt8}
    (h : storeAll (w :: ws) l = some l') :
    w.1 + w.2.length ≤ l.length ∧ storeAll ws (overwrite l w.1 w.2) = some l' := by
  obtain ⟨l₁, hstore, hrest⟩ := Option.bind_eq_some_iff.mp h
  unfold store at hstore
  split_ifs at hstore with hw
  cases hstore
  exact ⟨hw, hrest⟩

theorem slice_storeAll_disjoint {ws : List (ℕ × List UInt8)} {l l' : List UInt8} {p n : ℕ}
    (h : storeAll ws l = some l') (hd : ∀ w ∈ ws, p + n ≤ w.1 ∨ w.1 + w.2.length ≤ p) :
    slice l' p n = slice l p n := by
  induction ws generalizing l with
  | nil =>
    cases h
    rfl
  | cons w ws ih =>
    obtain ⟨hw, hrest⟩ := storeAll_cons h
    rw [ih hrest fun v hv => hd v (List.mem_cons_of_mem w hv),
      slice_overwrite_disjoint hw (hd w List.mem_cons_self)]

/-- The bytes of stores that touch different parts of the buffer. -/
theorem slice_storeAll_written {ws : List (ℕ × List UInt8)} {l l' : List UInt8}
    (h : storeAll ws l = some l')
    (hd : ws.Pairwise fun w v => w.1 + w.2.length ≤ v.1 ∨ v.1 + v.2.length ≤ w.1) :
    ∀ w ∈ ws, slice l' w.1 w.2.length = w.2 := by
  induction ws generalizing l with
  | nil => simp
  | cons w ws ih =>
    obtain ⟨hfits, hrest⟩ := storeAll_cons h
    obtain ⟨hfirst, hd⟩ := List.pairwise_cons.mp hd
    intro v hv
    rcases List.mem_cons.mp hv with rfl | hv
    · rw [slice_storeAll_disjoint hrest hfirst]
      exact slice_overwrite_self hfits
    · exact ih hrest hd v hv

theorem take_overwrite_zero {l bs : List UInt8} {n : ℕ} (hn : n ≤ bs.length) :
    (overwrite l 0 bs).take n = bs.take n := by
  rw [overwrite_zero, List.take_append_of_le_length hn]

theorem take_overwrite_of_le {l bs : List UInt8} {off n : ℕ} (hn : n ≤ off) (hl : n ≤ l.length) :
    (overwrite l off bs).take n = l.take n := by
  have htake : n ≤ (l.take off).length := by
    rw [List.length_take]
    exact le_min hn hl
  rw [overwrite, List.append_assoc, List.take_append_of_le_length htake, List.take_take,
    Nat.min_eq_left hn]

theorem cstr_cons (b : UInt8) (l : List UInt8) :
    cstr (b :: l) = if b = 0 then [] else b :: cstr l := by
  by_cases h : b = 0 <;> simp [cstr, h]

theorem zero_not_mem_cstr (l : List UInt8) : (0 : UInt8) ∉ cstr l := by
  induction l with
  | nil => simp [cstr]
  | cons b l ih =>
    rw [cstr_cons]
    split_ifs with h
    · simp
    · simp [Ne.symm h, ih]

theorem length_cstr_le (l : List UInt8) : (cstr l).length ≤ l.length :=
  (List.takeWhile_prefix _).length_le

/-- A NUL-free string followed by anything is cut exactly where a NUL follows it. -/
theorem cstr_append {s : List UInt8} (hs : (0 : UInt8) ∉ s) (l : List UInt8) :
    cstr (s ++ l) = s ++ cstr l := by
  rw [cstr, cstr, List.takeWhile_append_of_pos]
  intro b hb
  simp only [ne_eq, decide_eq_true_eq]
  rintro rfl
  exact hs hb

theorem cstr_of_not_mem {s : List UInt8} (hs : (0 : UInt8) ∉ s) : cstr s = s := by
  have h : cstr (s ++ []) = s ++ [] := cstr_append hs []
  rwa [List.append_nil] at h

theorem cstr_slice {l s : List UInt8} {off n : ℕ} (h : slice l off (s.length + 1) = s ++ [0])
    (hs : (0 : UInt8) ∉ s) (hn : s.length + 1 ≤ n) : cstr (slice l off n) = s := by
  obtain ⟨k, rfl⟩ : ∃ k, n = s.length + 1 + k := ⟨n - (s.length + 1), by omega⟩
  rw [← slice_append_slice, h, List.append_assoc, cstr_append hs, List.singleton_append, cstr_cons,
    if_pos rfl, List.append_nil]

/-- A string depends on the bytes through its NUL only. -/
theorem cstr_eq_of_take {l l' : List UInt8} {n : ℕ} (hlen : (cstr l).length < n)
    (heq : l'.take n = l.take n) : cstr l' = cstr l := by
  induction n generalizing l l' with
  | zero => omega
  | succ n ih =>
    cases l with
    | nil =>
      rw [List.take_nil, List.take_eq_nil_iff] at heq
      rcases heq with h | rfl
      · omega
      · rfl
    | cons b l =>
      cases l' with
      | nil => simp at heq
      | cons c l' =>
        rw [List.take_succ_cons, List.take_succ_cons, List.cons.injEq] at heq
        obtain ⟨rfl, hrest⟩ := heq
        rw [cstr_cons] at hlen
        rw [cstr_cons, cstr_cons]
        split_ifs at hlen ⊢ with h
        · rfl
        · rw [List.length_cons] at hlen
          rw [ih (by omega) hrest]

theorem cstr_eq_nil_iff (l : List UInt8) : cstr l = [] ↔ l = [] ∨ l[0]? = some 0 := by
  cases l with
  | nil => simp [cstr]
  | cons b l =>
    rw [cstr_cons]
    split_ifs with h <;> simp [h]

/-! Little-endian words. -/

def toLE : ℕ → ℕ → List UInt8
  | 0, _ => []
  | w + 1, n => UInt8.ofNat n :: toLE w (n / 256)

def ofLE : List UInt8 → ℕ
  | [] => 0
  | b :: bs => b.toNat + 256 * ofLE bs

@[simp] theorem length_toLE (w n : ℕ) : (toLE w n).length = w := by
  induction w generalizing n with
  | zero => rfl
  | succ w ih => rw [toLE, List.length_cons, ih]

theorem ofLE_lt (l : List UInt8) : ofLE l < 256 ^ l.length := by
  induction l with
  | nil => simp [ofLE]
  | cons b bs ih =>
    have hb : b.toNat < 256 := b.toNat_lt
    rw [ofLE, List.length_cons, pow_succ]
    omega

theorem ofLE_toLE (w n : ℕ) : ofLE (toLE w n) = n % 256 ^ w := by
  induction w generalizing n with
  | zero => simp [toLE, ofLE, Nat.mod_one]
  | succ w ih =>
    have hb : (UInt8.ofNat n).toNat = n % 256 := UInt8.toNat_ofNat'
    rw [toLE, ofLE, ih, hb, pow_succ', Nat.mod_mul]

theorem ofLE_toLE_of_lt {w n : ℕ} (h : n < 256 ^ w) : ofLE (toLE w n) = n := by
  rw [ofLE_toLE, Nat.mod_eq_of_lt h]

end Bytes
