import RML.Lib.FirstDiff
import RML.Spec.Fs
import Mathlib.Data.List.GetD
import Mathlib.Tactic.SplitIfs

/-! `strncpy` and `strncmp` of `lib/string.c`: what they do wherever the NULs lie and
wherever two strings begin to differ, and what `extract_file_name` makes of an entry. -/

namespace RML

open Bytes FirstDiff

/-- The index at which the do-while of `strncpy` stops. -/
structure StopsAt (src : ℕ → UInt8) (n k : ℕ) : Prop where
  before : ∀ j < k, src j ≠ 0 ∧ j < n
  stop : ¬ (src k ≠ 0 ∧ k < n)

theorem exists_stopsAt (src : ℕ → UInt8) (n : ℕ) : ∃ k, StopsAt src n k := by
  have hends : ∃ k, ¬ (src k ≠ 0 ∧ k < n) := ⟨n, fun h => Nat.lt_irrefl n h.2⟩
  exact ⟨Nat.find hends, fun j hj => not_not.mp (Nat.find_min hends hj), Nat.find_spec hends⟩

/-- The bytes up to the first NUL, and NULs behind it. -/
def padded (src : ℕ → UInt8) (j : ℕ) : UInt8 := if ∀ i < j, src i ≠ 0 then src j else 0

/-- `strncpy` ends, the first `n` bytes of `dst` are the padded string, and no others change. -/
def Pads (dst src : ℕ → UInt8) (n : ℕ) : Prop :=
  ∃ fuel dst', strncpyMem fuel dst src n = some dst' ∧
    ∀ j, dst' j = if j < n then padded src j else dst j

section Copy

variable {src dst : ℕ → UInt8} {n k i fuel : ℕ}

theorem StopsAt.le (h : StopsAt src n k) : k ≤ n := by
  by_contra hlt
  have hlast := (h.before n (not_le.mp hlt)).2
  omega

theorem strncpyLoop_eq (h : StopsAt src n k) (hi : i ≤ k) :
    strncpyLoop src n fuel i dst =
      if k < i + fuel then some (fun j => if i ≤ j ∧ j ≤ k then src j else dst j, k) else none := by
  induction fuel generalizing i dst with
  | zero => rw [strncpyLoop, if_neg (by omega)]
  | succ fuel ih =>
    rw [strncpyLoop]
    by_cases hik : i = k
    · subst hik
      have hone : (fun j => if i ≤ j ∧ j ≤ i then src j else dst j) =
          Function.update dst i (src i) := by
        funext j
        rw [Function.update_apply]
        by_cases hj : j = i
        · rw [if_pos (by omega), if_pos hj, hj]
        · rw [if_neg (by omega), if_neg hj]
      rw [if_neg h.stop, if_pos (by omega), hone]
    · have hrest : (fun j => if i + 1 ≤ j ∧ j ≤ k then src j
          else Function.update dst i (src i) j) = fun j => if i ≤ j ∧ j ≤ k then src j else dst j := by
        funext j
        rw [Function.update_apply]
        by_cases hj : j = i
        · rw [if_neg (by omega), if_pos hj, if_pos (by omega), hj]
        · have hsame : i + 1 ≤ j ∧ j ≤ k ↔ i ≤ j ∧ j ≤ k := by omega
          simp only [if_neg hj, hsame]
      have hrounds : k < i + 1 + fuel ↔ k < i + (fuel + 1) := by omega
      rw [if_pos (h.before i (by omega)), ih (by omega), hrest]
      simp only [hrounds]

theorem strncpyPad_eq : strncpyPad n fuel i dst = if n ≤ i ∧ 0 < fuel then some dst else none := by
  induction fuel generalizing dst with
  | zero => rw [strncpyPad, if_neg (by omega)]
  | succ fuel ih =>
    rw [strncpyPad]
    by_cases hi : i < n
    · rw [if_pos hi, ih, if_neg (by omega), if_neg (by omega)]
    · rw [if_neg hi, if_pos (by omega)]

theorem strncpyMem_eq (h : StopsAt src n k) : strncpyMem fuel dst src n =
    if k < fuel ∧ n ≤ k + 1 then some fun j => if j ≤ k then src j else dst j else none := by
  rw [strncpyMem, strncpyLoop_eq h (Nat.zero_le k), Nat.zero_add]
  by_cases hfuel : k < fuel
  · have hpad : n ≤ k + 1 ∧ 0 < fuel ↔ k < fuel ∧ n ≤ k + 1 := by omega
    simp only [if_pos hfuel, Option.bind_eq_bind, Option.bind_some, strncpyPad_eq, hpad,
      Nat.zero_le, true_and]
  · rw [if_neg hfuel, if_neg fun hboth => hfuel hboth.1]
    rfl

theorem StopsAt.le_succ_iff (h : StopsAt src n k) : n ≤ k + 1 ↔ ∀ j, j + 1 < n → src j ≠ 0 := by
  constructor
  · intro hle j hj
    exact (h.before j (by omega)).1
  · intro hno
    by_contra hshort
    exact h.stop ⟨hno k (by omega), by omega⟩

theorem StopsAt.padded (h : StopsAt src n k) {j : ℕ} (hj : j ≤ k) : RML.padded src j = src j :=
  if_pos fun i hi => (h.before i (by omega)).1

/-- The copy is right exactly when the string has its NUL at the end of the `n` bytes, or
none within them and there is already the next byte of `src` behind them. -/
theorem pads_iff : Pads dst src n ↔
    (∀ j, j + 1 < n → src j ≠ 0) ∧ (0 < n ∧ src (n - 1) = 0 ∨ dst n = src n) := by
  obtain ⟨k, h⟩ := exists_stopsAt src n
  have hle := h.le
  rw [← h.le_succ_iff]
  constructor
  · rintro ⟨fuel, dst', hcopy, hbytes⟩
    rw [strncpyMem_eq h] at hcopy
    split_ifs at hcopy with hends
    obtain rfl := Option.some.inj hcopy
    refine ⟨hends.2, ?_⟩
    by_cases hk : k = n
    · have hlast : (if n ≤ k then src n else dst n) = if n < n then padded src n else dst n :=
        hbytes n
      rw [if_pos hk.ge, if_neg (Nat.lt_irrefl n)] at hlast
      exact Or.inr hlast.symm
    · have hnul : ¬ src (n - 1) ≠ 0 := by
        have hstop := h.stop
        rw [show k = n - 1 by omega] at hstop
        exact fun hne => hstop ⟨hne, by omega⟩
      exact Or.inl ⟨by omega, not_not.mp hnul⟩
  · rintro ⟨hends, hlast⟩
    refine ⟨k + 1, _, by rw [strncpyMem_eq h, if_pos ⟨Nat.lt_succ_self k, hends⟩], ?_⟩
    intro j
    by_cases hj : j < n
    · rw [if_pos hj, if_pos (by omega), h.padded (by omega)]
    · rw [if_neg hj]
      by_cases hjk : j ≤ k
      · obtain rfl : j = n := by omega
        rcases hlast with ⟨hpos, hnul⟩ | hsame
        · exact absurd hnul (h.before (j - 1) (by omega)).1
        · rw [if_pos hjk, hsame]
      · rw [if_neg hjk]

end Copy

/-! The copies of `extract_file_name`. The strings it copies from are longer than asked for,
and there `strncpy` of a list is the one in memory. -/

theorem strncpyCopied_eq {l : List UInt8} {n : ℕ} (h : n < l.length) :
    ∃ k, StopsAt (l.getD · 0) n k ∧ strncpyCopied l n = l.take (k + 1) := by
  induction l generalizing n with
  | nil => cases h
  | cons b l ih =>
    cases n with
    | zero => exact ⟨0, ⟨fun j hj => absurd hj (Nat.not_lt_zero j), by simp⟩, rfl⟩
    | succ n =>
      rw [strncpyCopied]
      by_cases hb : b = 0
      · exact ⟨0, ⟨fun j hj => absurd hj (Nat.not_lt_zero j), by simp [hb]⟩, by rw [if_pos hb]; rfl⟩
      · obtain ⟨k, hk, hcopied⟩ := ih (Nat.lt_of_succ_lt_succ h)
        refine ⟨k + 1, ⟨?_, ?_⟩, by rw [if_neg hb, hcopied, List.take_succ_cons]⟩
        · intro j hj
          cases j with
          | zero => exact ⟨hb, Nat.succ_pos n⟩
          | succ j =>
            have hbefore := hk.before j (Nat.lt_of_succ_lt_succ hj)
            exact ⟨hbefore.1, Nat.succ_lt_succ hbefore.2⟩
        · rintro ⟨hne, hlt⟩
          exact hk.stop ⟨hne, Nat.lt_of_succ_lt_succ hlt⟩

/-- The two forms of `strncpy` agree on a string of more than `n` bytes. -/
theorem exists_strncpyMem_eq {l : List UInt8} {n : ℕ} (h : n < l.length) :
    ∃ k, ∀ fuel dst, k < fuel → strncpyMem fuel dst (l.getD · 0) n =
      (strncpy l n).map fun copied j => copied.getD j (dst j) := by
  obtain ⟨k, hk, hcopied⟩ := strncpyCopied_eq h
  have hle := hk.le
  have hlen : (l.take (k + 1)).length = k + 1 := List.length_take_of_le (by omega)
  refine ⟨k, fun fuel dst hfuel => ?_⟩
  rw [strncpyMem_eq hk, strncpy, hcopied, hlen]
  by_cases hends : n ≤ k + 1
  · rw [if_pos ⟨hfuel, hends⟩, if_neg (by omega), Option.map_some]
    congr 1
    funext j
    split_ifs with hj
    · rw [List.getD_eq_getElem?_getD, List.getD_eq_getElem?_getD, List.getElem?_take,
        if_pos (by omega), List.getElem?_eq_getElem (by omega)]
      rfl
    · rw [List.getD_eq_default _ _ (by omega)]
  · rw [if_neg fun hboth => hends hboth.2, if_pos (by omega), Option.map_none]

theorem forall_getD_ne_zero_iff {l : List UInt8} {m : ℕ} (h : m ≤ l.length) :
    (∀ j < m, l.getD j 0 ≠ 0) ↔ (0 : UInt8) ∉ l.take m := by
  rw [List.mem_take_iff_getElem]
  constructor
  · rintro hne ⟨j, hj, hzero⟩
    exact hne j (by omega) (by rw [List.getD_eq_getElem _ _ (by omega), hzero])
  · intro hno j hj hzero
    exact hno ⟨j, by omega, by rwa [List.getD_eq_getElem _ _ (by omega)] at hzero⟩

theorem strncpy_eq_none_iff {l : List UInt8} {n : ℕ} (h : n < l.length) :
    strncpy l n = none ↔ (0 : UInt8) ∈ l.take (n - 1) := by
  obtain ⟨k, hk, hcopied⟩ := strncpyCopied_eq h
  have hle := hk.le
  have hearly : (∀ j, j + 1 < n → l.getD j 0 ≠ 0) ↔ (0 : UInt8) ∉ l.take (n - 1) := by
    rw [← forall_getD_ne_zero_iff (by omega)]
    exact forall_congr' fun j => by rw [Nat.lt_sub_iff_add_lt]
  rw [strncpy, hcopied, List.length_take_of_le (by omega), ← not_iff_not, ← hearly,
    ← hk.le_succ_iff]
  simp

theorem take_strncpy {l copied : List UInt8} {n : ℕ} (h : n < l.length)
    (hends : strncpy l n = some copied) : copied.take n = l.take n := by
  obtain ⟨k, -, hcopied⟩ := strncpyCopied_eq h
  rw [strncpy, hcopied, List.length_take] at hends
  split_ifs at hends with hshort
  obtain rfl := Option.some.inj hends
  rw [List.take_take, Nat.min_eq_left (by omega)]

theorem extractFileName_eq_ite {file : Fat16Entry} (hname : file.filename.length = 8)
    (hext : file.ext.length = 3) : extractFileName file =
      if (0 : UInt8) ∈ file.filename.take 7 ∨ (0 : UInt8) ∈ file.ext.take 2 then none
      else some (cstr (trimBlanks file.filename), cstr (trimBlanks file.ext)) := by
  have hlong : 8 < (file.filename ++ file.ext).length := by
    rw [List.length_append, hname, hext]
    decide
  have hlong' : 3 < (file.ext ++ [file.attributes]).length := by
    rw [List.length_append, hext, List.length_singleton]
    decide
  have hnul := strncpy_eq_none_iff hlong
  have hnul' := strncpy_eq_none_iff hlong'
  rw [List.take_append_of_le_length (by omega)] at hnul hnul'
  rw [extractFileName]
  cases hcopied : strncpy (file.filename ++ file.ext) 8 with
  | none => rw [if_pos (Or.inl (hnul.mp hcopied))]; rfl
  | some copied =>
    cases hcopied' : strncpy (file.ext ++ [file.attributes]) 3 with
    | none => rw [if_pos (Or.inr (hnul'.mp hcopied'))]; rfl
    | some copied' =>
      have hno : ¬ ((0 : UInt8) ∈ file.filename.take 7 ∨ (0 : UInt8) ∈ file.ext.take 2) := by
        rintro (hmem | hmem)
        · cases hcopied.symm.trans (hnul.mpr hmem)
        · cases hcopied'.symm.trans (hnul'.mpr hmem)
      have hcut : copied.take 8 = file.filename := by
        rw [take_strncpy hlong hcopied, ← hname, List.take_left]
      have hcut' : copied'.take 3 = file.ext := by
        rw [take_strncpy hlong' hcopied', ← hext, List.take_left]
      simp only [if_neg hno, Option.bind_eq_bind, Option.bind_some, hcut, hcut']

theorem Fat16Entry.length_ofBytes {bytes : List UInt8} (h : bytes.length = 32) :
    (ofBytes bytes).filename.length = 8 ∧ (ofBytes bytes).ext.length = 3 :=
  ⟨length_slice (by omega), length_slice (by omega)⟩

/-- When the copies are right, and on which directory entries they end. The first part is
about the loops on memory, the second about `strncpy` on lists, which `extract_file_name`
calls; `exists_strncpyMem_eq` makes them one. -/
theorem strncpy_iff (dst src : ℕ → UInt8) (n : ℕ) {bytes : List UInt8} (h : bytes.length = 32) :
    (Pads dst src n ↔
      (∀ j, j + 1 < n → src j ≠ 0) ∧ (0 < n ∧ src (n - 1) = 0 ∨ dst n = src n)) ∧
    ((extractFileName (.ofBytes bytes)).isSome ↔
      (0 : UInt8) ∉ bytes.take 7 ∧ (0 : UInt8) ∉ slice bytes 8 2) := by
  refine ⟨pads_iff, ?_⟩
  obtain ⟨hname, hext⟩ := Fat16Entry.length_ofBytes h
  have htake : (Fat16Entry.ofBytes bytes).filename.take 7 = bytes.take 7 := by
    simp [Fat16Entry.ofBytes, slice, List.take_take]
  have htake' : (Fat16Entry.ofBytes bytes).ext.take 2 = slice bytes 8 2 := by
    simp [Fat16Entry.ofBytes, slice, List.take_take]
  rw [extractFileName_eq_ite hname hext, htake, htake', ← not_or]
  split_ifs with hnul <;> simp [hnul]

def padEntry (pad : UInt8) : List UInt8 :=
  65 :: List.replicate 7 pad ++ [66, 73, 78, 0x20] ++ List.replicate 20 0

theorem strncpy_iff_blanks : Pads (fun _ => 66) ((padEntry 32).getD · 0) 8 ∧
    (extractFileName (.ofBytes (padEntry 32))).isSome := by
  have hboth := strncpy_iff (fun _ => 66) ((padEntry 32).getD · 0) 8
    (show (padEntry 32).length = 32 by decide)
  have hblanks : ∀ j < 7, (padEntry 32).getD j 0 ≠ 0 := by decide
  exact ⟨hboth.1.mpr ⟨fun j hj => hblanks j (by omega), Or.inr (by decide)⟩,
    hboth.2.mpr (by decide)⟩

/-- With NULs the padding loop never ends; with blanks a byte behind the name changes. -/
theorem strncpy_nuls : (∀ fuel, strncpyMem fuel (fun _ => 0) ((padEntry 0).getD · 0) 8 = none) ∧
    ¬ Pads (fun _ => 0) ((padEntry 0).getD · 0) 8 ∧
    ¬ Pads (fun _ => 0) ((padEntry 32).getD · 0) 8 ∧
    (padEntry 0).length = 32 ∧ extractFileName (.ofBytes (padEntry 0)) = none := by
  have hstops : StopsAt ((padEntry 0).getD · 0) 8 1 := by
    refine ⟨fun j hj => ?_, by decide⟩
    obtain rfl : j = 0 := by omega
    decide
  refine ⟨fun fuel => ?_, fun hpads => ?_, fun hpads => ?_, by decide, by decide⟩
  · rw [strncpyMem_eq hstops, if_neg fun hends => absurd hends.2 (by decide)]
  · exact (pads_iff.mp hpads).1 1 (by decide) (by decide)
  · rcases (pads_iff.mp hpads).2 with hnul | hsame
    · exact absurd hnul.2 (by decide)
    · exact absurd hsame (by decide)

section Compare

variable {a b : List UInt8} {n i : ℕ}

theorem strcmp_neg_iff (a b : List UInt8) : strcmp a b < 0 ↔ a < b := by
  induction a generalizing b with
  | nil => cases b <;> simp [strcmp]
  | cons x a ih =>
    cases b with
    | nil => simp [strcmp]
    | cons y b =>
      rw [strcmp, List.cons_lt_cons_iff]
      by_cases hxy : x = y
      · rw [if_pos hxy, ih, hxy]
        simp
      · rw [if_neg hxy]
        split_ifs with hlt <;> simp [hlt, hxy]

theorem strcmp_eq (ha : (0 : UInt8) ∉ a) (hb : (0 : UInt8) ∉ b) : strcmp a b =
    match firstDiff a b with
    | none => 0
    | some i => if a.getD i 0 < b.getD i 0 then -1 else 1 := by
  induction a generalizing b with
  | nil =>
    cases b with
    | nil => rfl
    | cons y b =>
      have hy : 0 < y := UInt8.pos_iff_ne_zero.mpr fun h => hb (h ▸ List.mem_cons_self)
      exact (if_pos hy).symm
  | cons x a ih =>
    cases b with
    | nil => exact (if_neg UInt8.not_lt_zero).symm
    | cons y b =>
      rw [strcmp, firstDiff]
      split_ifs with hxy hlt
      · rw [ih (fun h => ha (List.mem_cons_of_mem x h)) fun h => hb (List.mem_cons_of_mem y h)]
        cases firstDiff a b <;> rfl
      · exact (if_pos hlt).symm
      · exact (if_neg hlt).symm

/-- What `strncmp` makes of the strings its loop stops at. -/
def strncmpResult (rest : List UInt8 × List UInt8) : ℤ :=
  if rest.1.headD 0 = rest.2.headD 0 then 0
  else if rest.1.headD 0 = 0 ∧ rest.2.headD 0 ≠ 0 then -1
  else 1

theorem strncmpLoop_eq (ha : (0 : UInt8) ∉ a) (hb : (0 : UInt8) ∉ b) (hi : i ≤ n) :
    strncmpResult (strncmpLoop n i a b) =
      match firstDiff a b with
      | none => 0
      | some d => if n < i + d then 0 else if a.getD d 0 = 0 then -1 else 1 := by
  induction a generalizing b i with
  | nil =>
    cases b with
    | nil => rfl
    | cons y b =>
      have hy : y ≠ 0 := fun h => hb (h ▸ List.mem_cons_self)
      simp [strncmpLoop, strncmpResult, firstDiff, hy, Ne.symm hy, hi.not_gt]
  | cons x a ih =>
    have hx : x ≠ 0 := fun h => ha (h ▸ List.mem_cons_self)
    cases b with
    | nil => simp [strncmpLoop, strncmpResult, firstDiff, hx, hi.not_gt]
    | cons y b =>
      have hy : y ≠ 0 := fun h => hb (h ▸ List.mem_cons_self)
      rw [strncmpLoop, firstDiff]
      by_cases hxy : x = y
      · by_cases hin : i < n
        · rw [if_pos ⟨hxy, Int.ofNat_lt.mpr hin⟩, if_pos hxy,
            ih (fun h => ha (List.mem_cons_of_mem x h)) (fun h => hb (List.mem_cons_of_mem y h)) hin]
          cases firstDiff a b with
          | none => rfl
          | some d => simp [Nat.add_assoc, Nat.add_comm 1 d]
        · -- the loop has used up `n` on equal bytes
          rw [if_neg fun hboth => hin (Int.ofNat_lt.mp hboth.2), if_pos hxy]
          cases firstDiff a b with
          | none => simp [strncmpResult, hxy]
          | some d =>
            have hlate : n < i + (d + 1) := by omega
            simp [strncmpResult, hxy, hlate]
      · rw [if_neg fun hboth => hxy hboth.1, if_neg hxy]
        simp [strncmpResult, hxy, hx, hi.not_gt]

/-- `strncmp` looks at the bytes through index `n`, and for the order only at which string ends. -/
theorem strncmp_eq (ha : (0 : UInt8) ∉ a) (hb : (0 : UInt8) ∉ b) : strncmp a b n =
    match firstDiff a b with
    | none => 0
    | some i => if n < i then 0 else if a.getD i 0 = 0 then -1 else 1 := by
  have hloop := strncmpLoop_eq ha hb (Nat.zero_le n)
  simp only [Nat.zero_add] at hloop
  exact hloop

theorem strcmp_take_eq (ha : (0 : UInt8) ∉ a) (hb : (0 : UInt8) ∉ b) :
    strcmp (a.take n) (b.take n) =
      match firstDiff a b with
      | none => 0
      | some i => if n ≤ i then 0 else if a.getD i 0 < b.getD i 0 then -1 else 1 := by
  rw [strcmp_eq (fun h => ha (List.mem_of_mem_take h)) fun h => hb (List.mem_of_mem_take h),
    firstDiff_take]
  cases firstDiff a b with
  | none => rfl
  | some i =>
    by_cases hi : i < n
    · simp [Option.filter_some, hi, hi.not_ge]
    · simp [Option.filter_some, hi, not_lt.mp hi]

theorem getD_ne_of_firstDiff (ha : (0 : UInt8) ∉ a) (hb : (0 : UInt8) ∉ b)
    (h : firstDiff a b = some i) : a.getD i 0 ≠ b.getD i 0 := by
  have hne := getElem?_ne_of_firstDiff h
  intro heq
  rw [List.getD_eq_getElem?_getD, List.getD_eq_getElem?_getD] at heq
  cases hai : a[i]? with
  | none =>
    cases hbi : b[i]? with
    | none => exact hne (hai.trans hbi.symm)
    | some y =>
      rw [hai, hbi] at heq
      exact hb ((show 0 = y from heq) ▸ List.mem_of_getElem? hbi)
  | some x =>
    cases hbi : b[i]? with
    | none =>
      rw [hai, hbi] at heq
      exact ha ((show x = 0 from heq) ▸ List.mem_of_getElem? hai)
    | some y =>
      rw [hai, hbi] at heq
      exact hne (by rw [hai, hbi, show x = y from heq])

/-! What the name promises of `strncmp`, at two strings and a length. -/

/-- The sign is that of `strcmp` on the first `n` characters. -/
def SameSign (a b : List UInt8) (n : ℕ) : Prop :=
  (strncmp a b n).sign = (strcmp (a.take n) (b.take n)).sign

def ZeroIffEqual (a b : List UInt8) (n : ℕ) : Prop := strncmp a b n = 0 ↔ a.take n = b.take n

def OppositeSigns (a b : List UInt8) (n : ℕ) : Prop :=
  (strncmp a b n).sign = -(strncmp b a n).sign

theorem sameSign_iff (ha : (0 : UInt8) ∉ a) (hb : (0 : UInt8) ∉ b) : SameSign a b n ↔
    ∀ i, firstDiff a b = some i → i ≠ n ∧ (i < n → a.getD i 0 = 0 ∨ b.getD i 0 < a.getD i 0) := by
  rw [SameSign, strncmp_eq ha hb, strcmp_take_eq ha hb]
  cases hdiff : firstDiff a b with
  | none => simp
  | some i =>
    have hne := getD_ne_of_firstDiff ha hb hdiff
    simp only [Option.some.injEq, forall_eq']
    generalize a.getD i 0 = x at hne ⊢
    generalize b.getD i 0 = y at hne ⊢
    rcases lt_trichotomy i n with hi | rfl | hi
    · rw [if_neg hi.not_gt, if_neg hi.not_ge]
      by_cases hx : x = 0
      · have hy : 0 < y := UInt8.pos_iff_ne_zero.mpr fun h => hne (hx.trans h.symm)
        simp [hx, hy, hi.ne]
      · rcases UInt8.lt_or_lt_of_ne hne with hlt | hgt
        · simp [hx, hlt, UInt8.lt_asymm hlt, hi]
        · simp [hx, hgt, UInt8.lt_asymm hgt, hi.ne]
    · rw [if_neg (Nat.lt_irrefl i), if_pos le_rfl]
      split_ifs <;> simp
    · simp [hi, hi.le, hi.ne', hi.not_gt]

theorem zeroIffEqual_iff (ha : (0 : UInt8) ∉ a) (hb : (0 : UInt8) ∉ b) :
    ZeroIffEqual a b n ↔ firstDiff a b ≠ some n := by
  rw [ZeroIffEqual, strncmp_eq ha hb, take_eq_take_iff]
  cases firstDiff a b with
  | none => simp
  | some i =>
    simp only [Option.some.injEq, forall_eq', ne_eq]
    rcases lt_trichotomy i n with hi | rfl | hi
    · rw [if_neg hi.not_gt]
      split_ifs <;> simp [hi, hi.ne]
    · rw [if_neg (Nat.lt_irrefl i)]
      split_ifs <;> simp
    · simp [hi, hi.le, hi.ne']

theorem oppositeSigns_iff (ha : (0 : UInt8) ∉ a) (hb : (0 : UInt8) ∉ b) : OppositeSigns a b n ↔
    ∀ i, firstDiff a b = some i → i ≤ n → a.getD i 0 = 0 ∨ b.getD i 0 = 0 := by
  rw [OppositeSigns, strncmp_eq ha hb, strncmp_eq hb ha, firstDiff_comm b a]
  cases hdiff : firstDiff a b with
  | none => simp
  | some i =>
    have hne := getD_ne_of_firstDiff ha hb hdiff
    simp only [Option.some.injEq, forall_eq']
    by_cases hi : n < i
    · simp [hi, hi.not_ge]
    · rw [if_neg hi, if_neg hi]
      generalize a.getD i 0 = x at hne ⊢
      generalize b.getD i 0 = y at hne ⊢
      by_cases hx : x = 0
      · have hy : y ≠ 0 := fun h => hne (hx.trans h.symm)
        simp [hx, hy]
      · by_cases hy : y = 0 <;> simp [hx, hy, not_lt.mp hi]

/-- `strncmp` is right when the strings agree through index `n`, or one of them ends where
they first differ, before index `n`; what is right elsewhere, law by law. -/
theorem strncmp_iff (ha : (0 : UInt8) ∉ a) (hb : (0 : UInt8) ∉ b) (n : ℕ) :
    (SameSign a b n ∧ ZeroIffEqual a b n ∧ OppositeSigns a b n ↔
      ∀ i, firstDiff a b = some i → i ≠ n ∧ (i < n → a.getD i 0 = 0 ∨ b.getD i 0 = 0)) ∧
    (SameSign a b n ↔ ∀ i, firstDiff a b = some i →
      i ≠ n ∧ (i < n → a.getD i 0 = 0 ∨ b.getD i 0 < a.getD i 0)) ∧
    (ZeroIffEqual a b n ↔ firstDiff a b ≠ some n) ∧
    (OppositeSigns a b n ↔
      ∀ i, firstDiff a b = some i → i ≤ n → a.getD i 0 = 0 ∨ b.getD i 0 = 0) ∧
    (strcmp (a.take n) (b.take n) < 0 ↔ a.take n < b.take n) := by
  refine ⟨?_, sameSign_iff ha hb, zeroIffEqual_iff ha hb, oppositeSigns_iff ha hb,
    strcmp_neg_iff _ _⟩
  rw [sameSign_iff ha hb, zeroIffEqual_iff ha hb, oppositeSigns_iff ha hb]
  cases firstDiff a b with
  | none => simp
  | some i =>
    simp only [Option.some.injEq, forall_eq', ne_eq]
    constructor
    · rintro ⟨hsign, -, hopp⟩
      exact ⟨hsign.1, fun hi => hopp hi.le⟩
    · rintro ⟨hn, hends⟩
      refine ⟨⟨hn, fun hi => ?_⟩, hn, fun hle => hends (lt_of_le_of_ne hle hn)⟩
      by_cases hx : a.getD i 0 = 0
      · exact Or.inl hx
      · rw [(hends hi).resolve_left hx]
        exact Or.inr (UInt8.pos_iff_ne_zero.mpr hx)

end Compare

theorem strncmp_iff_ends : SameSign [97, 98] [97] 2 ∧ ZeroIffEqual [97, 98] [97] 2 ∧
    OppositeSigns [97, 98] [97] 2 := by
  refine (strncmp_iff (a := [97, 98]) (b := [97]) (by decide) (by decide) 2).1.mpr fun i hi => ?_
  obtain rfl : 1 = i := Option.some.inj hi
  decide

/-- `"a"` comes before `"b"` and not behind it; `"ab"` and `"ac"` begin with the same character. -/
theorem strncmp_wrong : ¬ SameSign [97] [98] 1 ∧ ¬ OppositeSigns [97] [98] 1 ∧
    ¬ ZeroIffEqual [97, 98] [97, 99] 1 := by
  have hdiff : (strncmp [97] [98] 1).sign ≠ (strcmp [97] [98]).sign := by decide
  have hsame : (strncmp [97] [98] 1).sign ≠ -(strncmp [98] [97] 1).sign := by decide
  have hnonzero : strncmp [97, 98] [97, 99] 1 ≠ 0 := by decide
  exact ⟨hdiff, hsame, fun h => hnonzero (h.mpr rfl)⟩

end RML
