import RML.Lib.Decimal
import RML.Lib.Simulation
import RML.Spec.Kernel

/-! What the kernel is for, without segments, slots and descriptors: programs that call
one another, one on top of the other, and a console that shows what they print. This is
no translation of the source; `Proofs.Programs` compares the kernel with it. -/

namespace RML

open Bytes Decimal Transition

structure Program where
  name : List UInt8
  size : ℕ
  deriving DecidableEq

inductive Act where
  | boot
  | run (name : List UInt8)
  | print (text : List UInt8)
  | processes
  | clock (c : Clock)
  | quiet
  | stop

/-- The services by what they are for; those that print nothing and start nothing are
`quiet`. -/
def Event.act : Event → Act
  | .init _ => .boot
  | .exit => .stop
  | .sys amb service request =>
    match service with
    | 0 => .print (ascii "system call!\r\n")
    | 4 => .print (cstr request.bytes)
    | 5 => .print (request.bytes.take 1)
    | 7 => .run (cstr (stoupper request.bytes))
    | 8 => .processes
    | 14 =>
      if request.fd.toInt = 1 ∨ request.fd.toInt = 2 then
        .print (request.bytes.take request.size.toNat)
      else .quiet
    | 15 => .clock amb.clock
    | _ => .quiet

/-- A root directory: the number of its entries, and the size of the file of a name. -/
structure Directory where
  entries : ℕ
  find : List UInt8 → Option ℕ

def entryText (i : ℕ) : List UInt8 :=
  ascii "reading entry number " ++ print i ++ ascii "\r\n" ++
    if i = 223 then ascii "entry 223\r\n" else []

def directoryText (n : ℕ) : List UInt8 :=
  ascii "reading root directory\r\nroot directory entries:" ++ print n ++ ascii "\r\n" ++
    (List.range n).flatMap entryText

/-- The segment of the program that has `depth` programs below it. -/
def segmentAt (depth : ℕ) : ℕ := 0x1000 * (depth + 2)

def processText (depth : ℕ) (p : Program) (state : ProcState) : List UInt8 :=
  ascii "root " ++ print (depth + 1) ++ ascii " " ++ print depth ++ ascii " " ++
    print (segmentAt depth) ++ ascii " " ++ Kernel.procStateText state ++ ascii " " ++
    print p.size ++ ascii " " ++ p.name ++ ascii "\r\n"

def waitingTexts : List Program → List UInt8
  | [] => []
  | p :: ps => waitingTexts ps ++ processText ps.length p .READY

def processTexts : List Program → List UInt8
  | [] => []
  | p :: ps => waitingTexts ps ++ processText ps.length p .RUNNING

def processesText (ps : List Program) : List UInt8 :=
  ascii "USER PID PPID CS STAT SIZE NAME\r\n" ++ processTexts ps

def clockText (c : Clock) : List UInt8 :=
  print (((c.century &&& 0xF0) >>> 4).toNat * 1000 + (c.century &&& 0x0F).toNat * 100 +
      Kernel.bcd c.year) ++ ascii "/" ++
    print (Kernel.bcd c.month) ++ ascii "/" ++ print (Kernel.bcd c.day) ++ ascii " " ++
    print (Kernel.bcd c.hours) ++ ascii ":" ++ print (Kernel.bcd c.minutes) ++ ascii ":" ++
    print (Kernel.bcd c.seconds) ++ ascii "\r\n"

namespace Program

/-- A program is called by name: it goes on top if there is such a file. -/
def start (dir : Directory) (ps : List Program) (name : List UInt8) : List Program × List UInt8 :=
  (match dir.find name with
    | some size => ⟨name, size⟩ :: ps
    | none => ps, directoryText dir.entries)

/-- The programs, the running one first. Without any, `INIT` is started; no program with
a size of more than six digits can be listed. -/
def machine (dir : Directory) : Machine (List Program) Act UInt8
  | [], .boot => some (start dir [] (ascii "INIT"))
  | [], _ => none
  | _ :: _, .boot => none
  | p :: ps, .run name => some (start dir (p :: ps) name)
  | p :: ps, .print text => some (p :: ps, text)
  | p :: ps, .processes =>
    if ∀ q ∈ p :: ps, q.size < 1000000 then some (p :: ps, processesText (p :: ps)) else none
  | p :: ps, .clock c => some (p :: ps, clockText c)
  | p :: ps, .quiet => some (p :: ps, [])
  | _ :: ps, .stop => some (ps, [])

end Program

end RML
