import RML.Lib.Words
import Mathlib.Logic.Function.Basic

/-! `arch/8088/kernel/dispatch.asm`: the switch between a program's stack and the
kernel's. The memory is that of the kernel stack; what `int` and the far call push
on the stack of the program stays with the program and is not followed. -/

namespace RML.Dispatch

open Words

/-- Where the image has the kernel: its segment, `params`, and the instruction
after `call dispatch`. -/
structure Image where
  cs : Word
  params : Word
  back : Word

/-- The registers that select memory, the data of the switch, and the kernel
stack. `spuser` and `ssuser` are by byte offset. `entered` holds the stack
pointers with which the C functions now active were called, innermost first. -/
structure Cpu where
  ss : Word
  sp : Word
  ds : Word
  spbak : Word
  ssbak : Word
  spuser : Word → Word
  ssuser : Word → Word
  suserp : Word
  dsuser : Word
  mem : Memory
  entered : List Word

structure Regs where
  bp : Word
  flags : Word
  ax : Word
  bx : Word
  cx : Word
  dx : Word
  es : Word
  si : Word
  di : Word

def bufBytes : Word := 576

def userStackBytes : ℕ := 20

namespace Cpu

def push (c : Cpu) (w : Word) : Cpu :=
  { c with sp := c.sp - 2, mem := store c.mem c.ss (c.sp - 2) w }

def pop (c : Cpu) : Word × Cpu := (load c.mem c.ss c.sp, { c with sp := c.sp + 2 })

/-- `intr` through `call dispatch`, with the registers of the program; `none` when
`suserp` leaves the tables. -/
def intr (im : Image) (c : Cpu) (si dx : Word) : Option Cpu :=
  let si := si + bufBytes
  let c := { c with ds := im.cs, dsuser := c.ds, suserp := c.suserp + 2 }
  let bx := c.suserp
  if userStackBytes ≤ bx.toNat then none else
  let c := { c with ssuser := Function.update c.ssuser bx c.ss, ss := c.ssbak }
  let c := { c with spuser := Function.update c.spuser bx c.sp, sp := c.spbak }
  let c := ((((c.push (si - bufBytes)).push c.dsuser).push im.params).push dx).push im.back
  some { c with entered := c.sp :: c.entered }

/-- From the return of `dispatch` through `sysexit`: where the reply was copied to,
and the program's registers. -/
def sysexit (c : Cpu) : Option ((Word × Word) × Cpu) :=
  let (_, c) := c.pop
  let (_, c) := c.pop
  let (es, c) := c.pop
  let (di, c) := c.pop
  let c := { c with ssbak := c.ss, spbak := c.sp }
  let bx := c.suserp
  if userStackBytes ≤ bx.toNat then none else
  some ((es, di), { c with
    ss := c.ssuser bx
    sp := c.spuser bx
    suserp := c.suserp - 2
    ds := es })

/-- `farcall` through its far call; the second argument of the caller is the segment. -/
def farcall (c : Cpu) (r : Regs) : Cpu :=
  let bp := c.sp
  let c := [r.bp, r.flags, r.ax, r.bx, r.cx, r.dx, r.es, c.ds, r.si, r.di].foldl push c
  let c := { c with spbak := c.sp, ssbak := c.ss }
  let segm := load c.mem c.ss (bp + 4)
  { c with ss := segm, sp := 0xFFFE - 4 }

/-- `farcall` after the far return: the stack it is on when it starts to pop, and
the state in its caller. The pops are nine registers, `bp` and the return address. -/
def farret (im : Image) (c : Cpu) : (Word × Word) × Cpu :=
  let c := { c with ds := im.cs, sp := c.spbak, ss := c.ssbak }
  ((c.ss, c.sp), { c with ds := load c.mem c.ss (c.sp + 4), sp := c.sp + 22 })

/-- What C code called with stack pointer `entry` may have done to memory: all but
the stack above its return address and arguments, which are the callee's, is `junk`. -/
def scribble (c : Cpu) (entry : Word) (junk : Memory) : Cpu :=
  { c with mem := fun s o => if s = c.ss ∧ entry.toNat + 6 ≤ o.toNat then c.mem s o else junk s o }

end Cpu

inductive Switch where
  /-- C code, having run with its stack down to `sp`, calls `farcall`. -/
  | farcall (sp : Word) (junk : Memory) (r : Regs)
  /-- `int 80h` of the program, with these registers at `intr`. -/
  | int80 (ss sp ds si dx : Word)
  /-- `dispatch` returns, with the stack pointer it was called with. -/
  | sysexit (junk : Memory)
  /-- The far return of the program into `farcall`. -/
  | farret

/-- What a step shows: where the reply went and which stack the program has again,
or which kernel stack `farcall` goes on with. -/
inductive Seen where
  | nothing
  | exited (replySeg replyOfs ss sp : Word)
  | resumed (ss sp : Word)

def step (im : Image) (c : Cpu) : Switch → Option (Cpu × Seen)
  | .farcall sp junk r =>
    match c.entered with
    | [] => none
    | entry :: _ => some ({ c.scribble entry junk with sp := sp }.farcall r, .nothing)
  | .int80 ss sp ds si dx => do
    let c ← { c with ss := ss, sp := sp, ds := ds }.intr im si dx
    some (c, .nothing)
  | .sysexit junk =>
    match c.entered with
    | [] => none
    | entry :: entered => do
      let ((es, di), c) ← { c.scribble entry junk with sp := entry + 2, entered := entered }.sysexit
      some (c, .exited es di c.ss c.sp)
  | .farret =>
    let ((ss, sp), c) := c.farret im
    some (c, .resumed ss sp)

end RML.Dispatch
