import RML.Spec.Stdio

/-! The conversions to decimal on their static buffers: `itoa` and `ultoa` of `lib/stdlib.c`
and `uitoa` of `kernel/kernio.c`. Offsets count from the start of a buffer and may leave it. -/

namespace RML

/-- A static buffer and the pointer `p` into it. `stored` records the offsets stored
to; no function reads it. -/
structure DigitBuf where
  buf : ℤ → UInt8
  p : ℤ
  stored : List ℤ := []

namespace DigitBuf

def set (b : DigitBuf) (i : ℤ) (c : UInt8) : DigitBuf :=
  { b with buf := Function.update b.buf i c, stored := b.stored ++ [i] }

def start (buf : ℤ → UInt8) : DigitBuf where
  buf := buf
  p := 5 + 1

def push (b : DigitBuf) (c : UInt8) : DigitBuf := { b.set (b.p - 1) c with p := b.p - 1 }

end DigitBuf

/-- The do-while over the digits of `i`: `char` makes the character of the last one,
`tenth` takes it off. -/
def digitLoop {α : Type} [DecidableEq α] (zero : α) (char : α → UInt8) (tenth : α → α) :
    ℕ → α → DigitBuf → Option DigitBuf
  | 0, _, _ => none
  | fuel + 1, i, b =>
    let b := b.push (char i)
    let i := tenth i
    if i ≠ zero then digitLoop zero char tenth fuel i b else some b

def itoaBuf (buf : ℤ → UInt8) (i : Int32) : Option DigitBuf :=
  let b := (DigitBuf.start buf).set 6 0
  if 0 ≤ i then digitLoop 0 (fun i => (48 + i % 10).toUInt32.toUInt8) (· / 10) 10 i b
  else do
    let b ← digitLoop 0 (fun i => (48 - i % 10).toUInt32.toUInt8) (· / 10) 10 i b
    some (b.push 45)

/-- `ultoa`, with the branch for negative numbers that it has from `itoa`. -/
def ultoaBuf (buf : ℤ → UInt8) (i : UInt32) : Option DigitBuf :=
  let b := ({ buf := buf, p := 10 + 1 } : DigitBuf).set 11 0
  if 0 ≤ i then digitLoop 0 (fun i => (48 + i % 10).toUInt8) (· / 10) 10 i b
  else do
    let b ← digitLoop 0 (fun i => (48 - i % 10).toUInt8) (· / 10) 10 i b
    some (b.push 45)

/-- `uitoa` does not store the NUL behind its digits. -/
def uitoaBuf (buf : ℤ → UInt8) (i : UInt32) : Option DigitBuf :=
  digitLoop 0 (fun i => (48 + i % 10).toUInt8) (· / 10) 10 i (.start buf)

/-- The buffer of `uitoa` after a sequence of calls, the last one first; it starts out zeroed. -/
def uitoaMemory : List UInt32 → ℤ → UInt8
  | [] => fun _ => 0
  | u :: us => ((uitoaBuf (uitoaMemory us) u).map DigitBuf.buf).getD (uitoaMemory us)

end RML
