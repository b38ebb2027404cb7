import RML.Spec.Strings

/-! `lib/stdlib.c` and `lib/stdio.c`: formatted output of a user program, as the
chunks it hands to `mywrite` one after another. -/

namespace RML

def itoaLoop : ℕ → ℕ → List UInt8 → List UInt8
  | 0, _, p => p
  | fuel + 1, i, p =>
    let p := UInt8.ofNat (48 + i % 10) :: p
    if i / 10 = 0 then p else itoaLoop fuel (i / 10) p

/-- `itoa`; the remainders of a negative number are negative, so `'0' - (i % 10)`
gives its digits too. `none` when they run below the start of the static buffer. -/
def itoa (i : Int32) : Option (List UInt8) :=
  let digits := itoaLoop 10 i.toInt.natAbs []
  let p := if 0 ≤ i then digits else 45 :: digits
  if p.length ≤ 6 then some p else none

inductive PrintfArg where
  | str (s : List UInt8)
  | int (i : Int32)

/-- `vfprintf` on descriptor 1. A `%` before any character but `s` and `d` is
skipped, and that character is looked at again; a directive without an argument
of its kind reads what is no argument, which is `none`. -/
def vfprintf : List UInt8 → List PrintfArg → Option (List (List UInt8))
  | [], _ => some []
  | c :: template, ap =>
    if c ≠ 37 then do
      let rest ← vfprintf template ap
      some ([c] :: rest)
    else
      match template, ap with
      | 115 :: template, .str sval :: ap => do
        let rest ← vfprintf template ap
        some (sval.map ([·]) ++ rest)
      | 100 :: template, .int ival :: ap => do
        let strnum ← itoa ival
        let rest ← vfprintf template ap
        some (strnum :: rest)
      | 115 :: _, _ => none
      | 100 :: _, _ => none
      | template, ap => vfprintf template ap

/-- Where `vfprintf` has come to: the chunks it has handed to `mywrite`, its index,
and the arguments it has not taken. -/
structure Printed where
  chunks : List (List UInt8)
  i : ℕ
  ap : List PrintfArg

/-- The while loop of `vfprintf` from index `i` on, with at most `fuel` tests of its
condition. `none` when it reads the template behind its NUL, takes an argument of
another kind than the directive, or goes on. -/
def vfprintfLoop (template : List UInt8) : ℕ → ℕ → List PrintfArg → Option Printed
  | 0, _, _ => none
  | fuel + 1, i, ap => do
    let c ← (template ++ [0])[i]?
    if c = 0 then some ⟨[], i, ap⟩
    else if c ≠ 37 then do
      let r ← vfprintfLoop template fuel (i + 1) ap
      some { r with chunks := [c] :: r.chunks }
    else do
      let d ← (template ++ [0])[i + 1]?
      if d = 115 then
        match ap with
        | .str sval :: ap => do
          let r ← vfprintfLoop template fuel (i + 2) ap
          some { r with chunks := sval.map ([·]) ++ r.chunks }
        | _ => none
      else if d = 100 then
        match ap with
        | .int ival :: ap => do
          let strnum ← itoa ival
          let r ← vfprintfLoop template fuel (i + 2) ap
          some { r with chunks := strnum :: r.chunks }
        | _ => none
      -- the NUL, and every character without a case
      else vfprintfLoop template fuel (i + 1) ap

def vfprintfStream (streamFd : ℤ) (fuel : ℕ) (template : List UInt8) (ap : List PrintfArg) :
    Option Printed :=
  if streamFd = 1 then vfprintfLoop template fuel 0 ap else some ⟨[], 0, ap⟩

end RML
