import RML.Lib.Copying
import RML.Spec.StringMem

/-! The byte loops of `string.c` and `utils.c` against the functions on lists: where the
two may overlap, when they end, and what they leave in memory. -/

namespace RML

open Bytes Copying

variable {m m' : Mem} {s dst src n fuel i : ℕ}

/-- A string of `n` bytes and its NUL. -/
structure StringAt (m : Mem) (s n : ℕ) : Prop where
  chars : ∀ i < n, m (s + i) ≠ 0
  nul : m (s + n) = 0

theorem StringAt.tail (h : StringAt m s (n + 1)) : StringAt m (s + 1) n := by
  refine ⟨fun i hi => ?_, ?_⟩
  · rw [Nat.add_assoc, Nat.add_comm 1]
    exact h.chars (i + 1) (Nat.succ_lt_succ hi)
  · rw [Nat.add_assoc, Nat.add_comm 1]
    exact h.nul

theorem strlenLoop_eq_some_iff {len : ℕ} : strlenLoop m s fuel len = some n ↔
    len ≤ n ∧ n < len + fuel ∧ (∀ i, len ≤ i → i < n → m (s + i) ≠ 0) ∧ m (s + n) = 0 := by
  induction fuel generalizing len with
  | zero =>
    rw [strlenLoop]
    constructor
    · intro h
      cases h
    · rintro ⟨hle, hlt, -⟩
      omega
  | succ fuel ih =>
    rw [strlenLoop]
    split_ifs with hchar
    · rw [ih]
      constructor
      · rintro ⟨hle, hlt, hchars, hnul⟩
        refine ⟨by omega, by omega, fun i hi hin => ?_, hnul⟩
        rcases Nat.lt_or_ge len i with hlt' | hge
        · exact hchars i hlt' hin
        · obtain rfl : i = len := by omega
          exact hchar
      · rintro ⟨hle, hlt, hchars, hnul⟩
        have hne : len ≠ n := by
          rintro rfl
          exact hchar hnul
        exact ⟨by omega, by omega, fun i hi hin => hchars i (by omega) hin, hnul⟩
    · rw [not_not] at hchar
      constructor
      · intro h
        cases h
        exact ⟨le_refl _, by omega, fun i hi hin => by omega, hchar⟩
      · rintro ⟨hle, -, hchars, -⟩
        rcases Nat.lt_or_ge len n with hlt' | hge
        · exact absurd hchar (hchars len (le_refl _) hlt')
        · rw [Nat.le_antisymm hle hge]

theorem strlenMem_eq_some_iff : strlenMem fuel m s = some n ↔ StringAt m s n ∧ n < fuel := by
  rw [strlenMem, strlenLoop_eq_some_iff]
  constructor
  · rintro ⟨-, hlt, hchars, hnul⟩
    exact ⟨⟨fun i hi => hchars i (Nat.zero_le i) hi, hnul⟩, by omega⟩
  · rintro ⟨⟨hchars, hnul⟩, hlt⟩
    exact ⟨Nat.zero_le n, by omega, fun i _ hi => hchars i hi, hnul⟩

/-! `strcpy`. After `i` rounds the memory is that of `i` copied bytes. -/

def copied (m : Mem) (dst src n : ℕ) : Mem := copy (fun i => src + i) (fun i => dst + i) n m

theorem strcpyLoop_eq_some_iff : strcpyLoop dst src fuel i (copied m dst src i) = some m' ↔
    ∃ k, i ≤ k ∧ k < i + fuel ∧
      (∀ j, i ≤ j → j < k → copied m dst src (j + 1) (src + j) ≠ 0) ∧
      copied m dst src (k + 1) (src + k) = 0 ∧ m' = copied m dst src (k + 1) := by
  induction fuel generalizing i with
  | zero =>
    rw [strcpyLoop]
    constructor
    · intro h
      cases h
    · rintro ⟨k, hle, hlt, -⟩
      omega
  | succ fuel ih =>
    have hround : Function.update (copied m dst src i) (dst + i) (copied m dst src i (src + i)) =
        copied m dst src (i + 1) := rfl
    rw [strcpyLoop]
    simp only [hround]
    split_ifs with hchar
    · rw [ih]
      constructor
      · rintro ⟨k, hle, hlt, hchars, hend⟩
        refine ⟨k, by omega, by omega, fun j hj hjk => ?_, hend⟩
        rcases Nat.lt_or_ge i j with hlt' | hge
        · exact hchars j hlt' hjk
        · obtain rfl : j = i := by omega
          exact hchar
      · rintro ⟨k, hle, hlt, hchars, hnul, hm⟩
        have hne : i ≠ k := by
          rintro rfl
          exact hchar hnul
        exact ⟨k, by omega, by omega, fun j hj hjk => hchars j (by omega) hjk, hnul, hm⟩
    · rw [not_not] at hchar
      constructor
      · intro h
        cases h
        exact ⟨i, le_refl _, by omega, fun j hj hjk => by omega, hchar, rfl⟩
      · rintro ⟨k, hle, -, hchars, -, rfl⟩
        rcases Nat.lt_or_ge i k with hlt | hge
        · exact absurd hchar (hchars i (le_refl _) hlt)
        · rw [Nat.le_antisymm hle hge]

/-- Downwards or in place, no byte of the source is overwritten before its turn. -/
theorem copied_down (h : dst ≤ src) (hi : i < n) : copied m dst src n (dst + i) = m (src + i) :=
  copy_eq hi (fun j _ heq => Nat.add_left_cancel heq) fun j hj heq => by omega

theorem copied_of_ne {a : ℕ} (h : a < dst ∨ dst + n ≤ a) : copied m dst src n a = m a :=
  copy_of_ne fun i hi heq => by omega

theorem copied_up (h : src < dst) (hi : i < n) :
    copied m dst src n (dst + i) = m (src + i % (dst - src)) := by
  obtain ⟨d, rfl⟩ : ∃ d, dst = src + d := ⟨dst - src, by omega⟩
  rw [Nat.add_sub_cancel_left, Nat.add_assoc, ← Nat.add_mod_left d i]
  exact copy_up (by omega) (by omega)

theorem copied_read (j : ℕ) : copied m dst src (j + 1) (src + j) =
    if src < dst then m (src + j % (dst - src)) else m (src + j) := by
  split_ifs with hlt
  · obtain ⟨d, rfl⟩ : ∃ d, dst = src + d := ⟨dst - src, by omega⟩
    rw [Nat.add_sub_cancel_left]
    exact copy_up (by omega) (by omega)
  · rcases Nat.lt_or_ge dst src with hlt' | hge
    · exact copied_of_ne (Or.inr (by omega))
    · obtain rfl : dst = src := by omega
      exact copied_down (le_refl _) (Nat.lt_succ_self j)

theorem strcpy_stops_iff {k : ℕ} :
    ((∀ j < k, copied m dst src (j + 1) (src + j) ≠ 0) ∧ copied m dst src (k + 1) (src + k) = 0) ↔
      StringAt m src k ∧ (dst ≤ src ∨ src + k < dst) := by
  simp only [copied_read]
  by_cases hlt : src < dst
  · simp only [if_pos hlt]
    have hd : 0 < dst - src := by omega
    constructor
    · rintro ⟨hchars, hnul⟩
      have hk : k < dst - src := by
        by_contra hge
        have hsmall := Nat.mod_lt k hd
        have hearlier := hchars (k % (dst - src)) (by omega)
        rw [Nat.mod_mod] at hearlier
        exact hearlier hnul
      rw [Nat.mod_eq_of_lt hk] at hnul
      refine ⟨⟨fun j hj => ?_, hnul⟩, Or.inr (by omega)⟩
      have hchar := hchars j hj
      rwa [Nat.mod_eq_of_lt (hj.trans hk)] at hchar
    · rintro ⟨hstring, hdown | hfar⟩
      · omega
      · refine ⟨fun j hj => ?_, ?_⟩
        · rw [Nat.mod_eq_of_lt (by omega)]
          exact hstring.chars j hj
        · rw [Nat.mod_eq_of_lt (by omega)]
          exact hstring.nul
  · simp only [if_neg hlt]
    constructor
    · rintro ⟨hchars, hnul⟩
      exact ⟨⟨hchars, hnul⟩, Or.inl (by omega)⟩
    · rintro ⟨hstring, -⟩
      exact ⟨hstring.chars, hstring.nul⟩

theorem strcpyMem_eq_some_iff : strcpyMem fuel m dst src = some m' ↔
    ∃ k < fuel, (StringAt m src k ∧ (dst ≤ src ∨ src + k < dst)) ∧
      m' = copied m dst src (k + 1) := by
  rw [strcpyMem, show m = copied m dst src 0 from rfl, strcpyLoop_eq_some_iff]
  simp only [Nat.zero_le, true_and, Nat.zero_add, forall_const, ← strcpy_stops_iff, and_assoc]
  rfl

/-- `strcpy` ends exactly when there is a string at `src` and `dst` is not behind its start
and within it, NUL included: there it overwrites the NUL before it gets to it. When it ends,
the string and its NUL are at `dst`, even if they overlap, and nothing else has changed. -/
theorem strcpy_iff (m : Mem) (dst src : ℕ) :
    ((∃ fuel m', strcpyMem fuel m dst src = some m') ↔
        ∃ n, StringAt m src n ∧ (dst ≤ src ∨ src + n < dst)) ∧
      ∀ fuel m', strcpyMem fuel m dst src = some m' → ∃ n, StringAt m src n ∧
        (∀ i ≤ n, m' (dst + i) = m (src + i)) ∧ ∀ a, a < dst ∨ dst + n < a → m' a = m a := by
  refine ⟨⟨?_, ?_⟩, ?_⟩
  · rintro ⟨fuel, m', h⟩
    obtain ⟨k, -, hstops, -⟩ := strcpyMem_eq_some_iff.mp h
    exact ⟨k, hstops⟩
  · rintro ⟨k, hstops⟩
    exact ⟨k + 1, _, strcpyMem_eq_some_iff.mpr ⟨k, Nat.lt_succ_self k, hstops, rfl⟩⟩
  · intro fuel m' h
    obtain ⟨n, -, ⟨hstring, hplace⟩, rfl⟩ := strcpyMem_eq_some_iff.mp h
    refine ⟨n, hstring, fun i hi => ?_, fun a ha => copied_of_ne (by omega)⟩
    rcases hplace with hdown | hfar
    · exact copied_down hdown (by omega)
    · rw [copied_up (by omega) (by omega), Nat.mod_eq_of_lt (by omega)]

/-! `memcpy` goes upwards whatever overlaps. -/

theorem foldl_range_copied (k : ℕ) : (List.range k).foldl
    (fun m i => Function.update m (dst + i) (m (src + i))) m = copied m dst src k := by
  induction k with
  | zero => rfl
  | succ k ih =>
    rw [List.range_succ, List.foldl_append, ih]
    rfl

/-- `memcpy` leaves the `n` bytes of `src` at `dst` exactly when `dst` is not within them
behind their start, or they repeat with the distance of the two. In every case it changes
nothing but those bytes, and upwards it repeats the first ones. -/
theorem memcpy_iff (m : Mem) (dst src : ℕ) (n : ℤ) :
    ((∀ i < n.toNat, memcpyMem m dst src n (dst + i) = m (src + i)) ↔
        dst ≤ src ∨ src + n.toNat ≤ dst ∨
          ∀ i < n.toNat, m (src + i) = m (src + i % (dst - src))) ∧
      (src < dst → ∀ i < n.toNat, memcpyMem m dst src n (dst + i) = m (src + i % (dst - src))) ∧
      ∀ a, a < dst ∨ dst + n.toNat ≤ a → memcpyMem m dst src n a = m a := by
  have hcopy : memcpyMem m dst src n = copied m dst src n.toNat := foldl_range_copied n.toNat
  rw [hcopy]
  refine ⟨⟨fun h => ?_, ?_⟩, fun hup i hi => copied_up hup hi, fun a => copied_of_ne⟩
  · rcases Nat.lt_or_ge src dst with hup | hdown
    · exact Or.inr (Or.inr fun i hi => (h i hi).symm.trans (copied_up hup hi))
    · exact Or.inl hdown
  · rintro (hdown | hfar | hperiod) i hi
    · exact copied_down hdown hi
    · rw [copied_up (by omega) hi, Nat.mod_eq_of_lt (by omega)]
    · rcases Nat.lt_or_ge src dst with hup | hdown
      · exact (copied_up hup hi).trans (hperiod i hi).symm
      · exact copied_down hdown hi

/-! `stolower` and `stoupper`. -/

def converted (convert : UInt8 → UInt8) (m : Mem) (s i : ℕ) : Mem :=
  fun a => if s ≤ a ∧ a < s + i then convert (m a) else m a

variable {convert : UInt8 → UInt8}

theorem converted_zero : converted convert m s 0 = m := by
  funext a
  rw [converted, if_neg (by omega)]

theorem converted_succ (i : ℕ) : Function.update (converted convert m s i) (s + i)
    (convert (converted convert m s i (s + i))) = converted convert m s (i + 1) := by
  funext a
  by_cases ha : a = s + i
  · subst ha
    rw [Function.update_self, converted, converted, if_neg (by omega), if_pos (by omega)]
  · rw [Function.update_of_ne ha, converted, converted]
    congr 1
    apply propext
    omega

theorem StringAt.converted (hconvert : ∀ c, convert c = 0 → c = 0) (h : StringAt m s n)
    (hi : i ≤ n) : StringAt (RML.converted convert m s i) s n := by
  refine ⟨fun j hj => ?_, ?_⟩
  · rw [RML.converted]
    split_ifs
    · exact mt (hconvert _) (h.chars j hj)
    · exact h.chars j hj
  · rw [RML.converted, if_neg (by omega), h.nul]

theorem convertLoop_eq {lenFuel : ℕ} (hconvert : ∀ c, convert c = 0 → c = 0) (h : StringAt m s n)
    (hlen : n < lenFuel) (hi : i ≤ n) (hfuel : n < i + fuel) :
    convertLoop convert s lenFuel fuel i (converted convert m s i) =
      some (converted convert m s n) := by
  induction fuel generalizing i with
  | zero => omega
  | succ fuel ih =>
    have hsame : strlenMem lenFuel (converted convert m s i) s = some n :=
      strlenMem_eq_some_iff.mpr ⟨h.converted hconvert hi, hlen⟩
    rw [convertLoop]
    simp only [hsame, Option.bind_eq_bind, Option.bind_some]
    split_ifs with hlt
    · rw [converted_succ]
      exact ih hlt (by omega)
    · obtain rfl : i = n := by omega
      rfl

theorem tolower_eq_zero_iff (c : UInt8) : tolower c = 0 ↔ c = 0 := by
  unfold tolower
  split_ifs with h
  · grind
  · rfl

/-! The same on lists. -/

def bytesAt (m : Mem) (s k : ℕ) : List UInt8 := (List.range k).map fun i => m (s + i)

theorem length_bytesAt (m : Mem) (s k : ℕ) : (bytesAt m s k).length = k := by
  rw [bytesAt, List.length_map, List.length_range]

theorem bytesAt_succ (m : Mem) (s k : ℕ) : bytesAt m s (k + 1) = m s :: bytesAt m (s + 1) k := by
  rw [bytesAt, List.range_succ_eq_map, List.map_cons, List.map_map, bytesAt]
  congr 1
  apply List.map_congr_left
  intro i _
  show m (s + (i + 1)) = m (s + 1 + i)
  rw [Nat.add_assoc, Nat.add_comm 1]

theorem cstr_bytesAt {k : ℕ} (h : StringAt m s n) (hk : n < k) :
    cstr (bytesAt m s k) = bytesAt m s n := by
  induction n generalizing s k with
  | zero =>
    obtain ⟨k, rfl⟩ : ∃ j, k = j + 1 := ⟨k - 1, by omega⟩
    have hnul : m s = 0 := h.nul
    rw [bytesAt_succ, cstr_cons, if_pos hnul]
    rfl
  | succ n ih =>
    obtain ⟨k, rfl⟩ : ∃ j, k = j + 1 := ⟨k - 1, by omega⟩
    have hchar : m s ≠ 0 := h.chars 0 (Nat.succ_pos n)
    rw [bytesAt_succ, cstr_cons, if_neg hchar, ih h.tail (by omega), bytesAt_succ]

theorem take_bytesAt {k : ℕ} (hn : n ≤ k) : (bytesAt m s k).take n = bytesAt m s n := by
  rw [bytesAt, ← List.map_take, List.take_range, Nat.min_eq_left hn, bytesAt]

theorem bytesAt_converted {k : ℕ} (hn : n ≤ k) : bytesAt (converted convert m s n) s k =
    (bytesAt m s n).map convert ++ (bytesAt m s k).drop n := by
  rw [← List.take_append_drop n (bytesAt (converted convert m s n) s k), take_bytesAt hn]
  congr 1
  · rw [bytesAt, bytesAt, List.map_map]
    apply List.map_congr_left
    intro i hi
    have hlt := List.mem_range.mp hi
    show converted convert m s n (s + i) = convert (m (s + i))
    rw [converted, if_pos (by omega)]
  · apply List.ext_getElem
    · rw [List.length_drop, List.length_drop, length_bytesAt, length_bytesAt]
    · intro i _ _
      rw [List.getElem_drop, List.getElem_drop]
      simp only [bytesAt, List.getElem_map, List.getElem_range]
      rw [converted, if_neg (by omega)]

theorem exists_stringAt {k : ℕ} (h : (0 : UInt8) ∈ bytesAt m s k) : ∃ n < k, StringAt m s n := by
  obtain ⟨j, hj, hnul⟩ := List.mem_map.mp h
  have hex : ∃ j, m (s + j) = 0 := ⟨j, hnul⟩
  exact ⟨Nat.find hex, (Nat.find_min' hex hnul).trans_lt (List.mem_range.mp hj),
    fun i hi => Nat.find_min hex hi, Nat.find_spec hex⟩

theorem strcmpMem_eq {t n' : ℕ} (hs : StringAt m s n) (ht : StringAt m t n') (hfuel : n < fuel) :
    strcmpMem m fuel s t = some (strcmp (bytesAt m s n) (bytesAt m t n')) := by
  induction fuel generalizing s t n n' with
  | zero => omega
  | succ fuel ih =>
    rw [strcmpMem]
    cases n with
    | zero =>
      have hnul : m s = 0 := hs.nul
      cases n' with
      | zero =>
        have hnul' : m t = 0 := ht.nul
        rw [if_pos (hnul.trans hnul'.symm), if_pos hnul]
        rfl
      | succ n' =>
        have hchar : m t ≠ 0 := ht.chars 0 (Nat.succ_pos n')
        rw [if_neg (by rw [hnul]; exact hchar.symm), bytesAt_succ m t, hnul, if_pos]
        · rfl
        · exact UInt8.pos_iff_ne_zero.mpr hchar
    | succ n =>
      have hchar : m s ≠ 0 := hs.chars 0 (Nat.succ_pos n)
      cases n' with
      | zero =>
        have hnul : m t = 0 := ht.nul
        rw [if_neg (by rw [hnul]; exact hchar), hnul, if_neg (UInt8.not_lt_zero), bytesAt_succ m s]
        rfl
      | succ n' =>
        rw [bytesAt_succ m s, bytesAt_succ m t, strcmp]
        split_ifs with heq hlt
        · exact ih hs.tail ht.tail (by omega)
        · rfl
        · rfl

/-- The functions on lists say what the loops do: `strlen` gives the length of the C string,
`stoupper` and `stolower` end and convert it where it is, and `strcmp` orders two of them. -/
theorem string_loops {k : ℕ} (h : (0 : UInt8) ∈ bytesAt m s k) :
    strlenMem k m s = some (cstr (bytesAt m s k)).length ∧
      (∃ m', stoupperMem k m s = some m' ∧ bytesAt m' s k = stoupper (bytesAt m s k) ∧
        ∀ a, a < s ∨ s + k ≤ a → m' a = m a) ∧
      (∃ m', stolowerMem k m s = some m' ∧
        cstr (bytesAt m' s k) = (cstr (bytesAt m s k)).map tolower ∧
        ∀ a, a < s ∨ s + k ≤ a → m' a = m a) ∧
      ∀ t, (0 : UInt8) ∈ bytesAt m t k →
        strcmpMem m k s t = some (strcmp (cstr (bytesAt m s k)) (cstr (bytesAt m t k))) := by
  obtain ⟨n, hn, hstring⟩ := exists_stringAt h
  have houtside : ∀ convert : UInt8 → UInt8, ∀ a, a < s ∨ s + k ≤ a →
      converted convert m s n a = m a := by
    intro convert a ha
    rw [converted, if_neg (by omega)]
  have hends : ∀ convert : UInt8 → UInt8, (∀ c, convert c = 0 → c = 0) →
      convertLoop convert s k k 0 m = some (converted convert m s n) := by
    intro convert hconvert
    have hloop := convertLoop_eq hconvert hstring hn (Nat.zero_le n) (hn.trans_eq (Nat.zero_add k).symm)
    rwa [converted_zero] at hloop
  have hupper : ∀ c, toupper c = 0 → c = 0 := fun c => (toupper_eq_zero_iff c).mp
  have hlower : ∀ c, tolower c = 0 → c = 0 := fun c => (tolower_eq_zero_iff c).mp
  have hcstr := cstr_bytesAt hstring hn
  refine ⟨?_, ⟨_, hends toupper hupper, ?_, houtside toupper⟩,
    ⟨_, hends tolower hlower, ?_, houtside tolower⟩, ?_⟩
  · rw [hcstr, length_bytesAt]
    exact strlenMem_eq_some_iff.mpr ⟨hstring, hn⟩
  · rw [bytesAt_converted hn.le, stoupper, hcstr, length_bytesAt]
  · rw [cstr_bytesAt (hstring.converted hlower (le_refl n)) hn, hcstr, bytesAt_converted (le_refl n),
      List.drop_of_length_le (length_bytesAt m s n).le, List.append_nil]
  · intro t ht
    obtain ⟨n', hn', hstring'⟩ := exists_stringAt ht
    rw [hcstr, cstr_bytesAt hstring' hn']
    exact strcmpMem_eq hstring hstring' hn

def initAt : Mem := fun a => (ascii "..init").getD a 0

theorem string_loops_init : ∃ m', stoupperMem 8 initAt 2 = some m' ∧
    bytesAt m' 2 8 = ascii "INIT" ++ List.replicate 4 0 := by
  obtain ⟨-, ⟨m', hloop, hbytes, -⟩, -⟩ := @string_loops initAt 2 8 (by decide +kernel)
  refine ⟨m', hloop, ?_⟩
  rw [hbytes]
  decide +kernel

end RML
