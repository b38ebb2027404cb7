import RML.Spec.Strings

/-! `lib/string.c`, `lib/ctype.c` and `lib/utils.c` byte by byte, in a memory where the
strings may overlap. `Proofs.StringMem` compares them with the functions on lists. -/

namespace RML

/-- Memory as the functions see it; an address never wraps around at the end of a segment. -/
abbrev Mem := ℕ → UInt8

def strlenLoop (m : Mem) (string : ℕ) : ℕ → ℕ → Option ℕ
  | 0, _ => none
  | fuel + 1, len => if m (string + len) ≠ 0 then strlenLoop m string fuel (len + 1) else some len

def strlenMem (fuel : ℕ) (m : Mem) (string : ℕ) : Option ℕ := strlenLoop m string fuel 0

/-- The do-while of `strcpy` from index `i` on; its condition reads `src` after the store. -/
def strcpyLoop (dst src : ℕ) : ℕ → ℕ → Mem → Option Mem
  | 0, _, _ => none
  | fuel + 1, i, m =>
    let m := Function.update m (dst + i) (m (src + i))
    if m (src + i) ≠ 0 then strcpyLoop dst src fuel (i + 1) m else some m

def strcpyMem (fuel : ℕ) (m : Mem) (dst src : ℕ) : Option Mem := strcpyLoop dst src fuel 0 m

def strcmpMem (m : Mem) : ℕ → ℕ → ℕ → Option ℤ
  | 0, _, _ => none
  | fuel + 1, src, dst =>
    if m src = m dst then
      if m src = 0 then some 0 else strcmpMem m fuel (src + 1) (dst + 1)
    else some (if m src < m dst then -1 else 1)

def memcpyMem (m : Mem) (dst src : ℕ) (n : ℤ) : Mem :=
  (List.range n.toNat).foldl (fun m i => Function.update m (dst + i) (m (src + i))) m

def tolower (c : UInt8) : UInt8 := if 65 ≤ c ∧ c ≤ 90 then c + 32 else c

/-- The loop of `stolower` and of `stoupper` from index `i` on, which takes the length
again before every round. -/
def convertLoop (convert : UInt8 → UInt8) (string lenFuel : ℕ) : ℕ → ℕ → Mem → Option Mem
  | 0, _, _ => none
  | fuel + 1, i, m => do
    let len ← strlenMem lenFuel m string
    if i < len then
      convertLoop convert string lenFuel fuel (i + 1)
        (Function.update m (string + i) (convert (m (string + i))))
    else some m

def stolowerMem (fuel : ℕ) (m : Mem) (string : ℕ) : Option Mem :=
  convertLoop tolower string fuel fuel 0 m

def stoupperMem (fuel : ℕ) (m : Mem) (string : ℕ) : Option Mem :=
  convertLoop toupper string fuel fuel 0 m

end RML
