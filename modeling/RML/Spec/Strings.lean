import RML.Spec.Types

/-! `lib/string.c`, `lib/ctype.c` and `lib/utils.c`, as far as the kernel and the
system-call library use them. A C string is the list of its bytes before the NUL. -/

namespace RML

open Bytes

def strcmp : List UInt8 → List UInt8 → ℤ
  | [], [] => 0
  | [], _ :: _ => -1
  | _ :: _, [] => 1
  | a :: src, b :: dst => if a = b then strcmp src dst else if a < b then -1 else 1

theorem strcmp_eq_zero_iff (a b : List UInt8) : strcmp a b = 0 ↔ a = b := by
  induction a generalizing b with
  | nil => cases b <;> simp [strcmp]
  | cons x a ih =>
    cases b with
    | nil => simp [strcmp]
    | cons y b =>
      rw [strcmp]
      split_ifs with h1 h2
      · simp [h1, ih]
      · simp [h1]
      · simp [h1]

/-- The bytes the do-while of `strncpy` copies: through the first NUL, or through index `n`. -/
def strncpyCopied : List UInt8 → ℕ → List UInt8
  | [], _ => []
  | b :: _, 0 => [b]
  | b :: src, n + 1 => if b = 0 then [b] else b :: strncpyCopied src n

/-- `strncpy`; the padding loop does not advance its index, so it ends only when
it has nothing to pad. -/
def strncpy (src : List UInt8) (n : ℕ) : Option (List UInt8) :=
  if (strncpyCopied src n).length < n then none else some (strncpyCopied src n)

/-- The do-while of `strncpy` from index `i` on, which is compared as unsigned: `dst`, and
the index it stops at. -/
def strncpyLoop (src : ℕ → UInt8) (n : ℕ) : ℕ → ℕ → (ℕ → UInt8) → Option ((ℕ → UInt8) × ℕ)
  | 0, _, _ => none
  | fuel + 1, i, dst =>
    let dst := Function.update dst i (src i)
    if src i ≠ 0 ∧ i < n then strncpyLoop src n fuel (i + 1) dst else some (dst, i)

def strncpyPad (n : ℕ) : ℕ → ℕ → (ℕ → UInt8) → Option (ℕ → UInt8)
  | 0, _, _ => none
  | fuel + 1, i, dst => if i < n then strncpyPad n fuel i (Function.update dst i 0) else some dst

/-- `strncpy` on the bytes from `dst` and from `src` on; `none` when one of its loops goes on
after so many rounds. -/
def strncpyMem (fuel : ℕ) (dst src : ℕ → UInt8) (n : ℕ) : Option (ℕ → UInt8) := do
  let (dst, i) ← strncpyLoop src n fuel 0 dst
  strncpyPad n fuel (i + 1) dst

def strncmpLoop (n : ℤ) : ℕ → List UInt8 → List UInt8 → List UInt8 × List UInt8
  | i, a :: src, b :: dst =>
    if a = b ∧ (i : ℤ) < n then strncmpLoop n (i + 1) src dst else (a :: src, b :: dst)
  | _, src, dst => (src, dst)

/-- `strncmp`; where a string is over its NUL is compared. -/
def strncmp (src dst : List UInt8) (n : ℤ) : ℤ :=
  let (src, dst) := strncmpLoop n 0 src dst
  if src.headD 0 = dst.headD 0 then 0
  else if src.headD 0 = 0 ∧ dst.headD 0 ≠ 0 then -1
  else 1

def toupper (c : UInt8) : UInt8 := if 97 ≤ c ∧ c ≤ 122 then c - 32 else c

/-- `stoupper` on the buffer `string` points to: the bytes before the NUL change. -/
def stoupper (string : List UInt8) : List UInt8 :=
  (cstr string).map toupper ++ string.drop (cstr string).length

theorem length_stoupper (string : List UInt8) : (stoupper string).length = string.length := by
  have h := length_cstr_le string
  simp only [stoupper, List.length_append, List.length_map, List.length_drop]
  omega

theorem toupper_eq_zero_iff (c : UInt8) : toupper c = 0 ↔ c = 0 := by
  unfold toupper
  split_ifs with h
  · grind
  · rfl

theorem cstr_stoupper (string : List UInt8) :
    cstr (stoupper string) = (cstr string).map toupper := by
  induction string with
  | nil => rfl
  | cons b s ih =>
    by_cases h : b = 0
    · simp [stoupper, cstr_cons, h]
    · have hup : toupper b ≠ 0 := fun h0 => h ((toupper_eq_zero_iff b).mp h0)
      have hs : stoupper (b :: s) = toupper b :: stoupper s := by
        simp [stoupper, cstr_cons, h]
      rw [hs, cstr_cons, cstr_cons, if_neg hup, if_neg h, ih, List.map_cons]

end RML
