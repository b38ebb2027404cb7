import RML.Spec.Kernel
import RML.Spec.Stdio

/-! `arch/8088/kernel/io.c`: the system-call library of a user program. All its
functions share the one buffer `sysparam`, which the kernel overwrites with its
reply. `flags`, `mode` and `whence` are ignored by the source and left out. -/

namespace RML

open Bytes Transition

/-- The bytes `memcpy(dst, src, n)` goes through: `n` is an `int` there. -/
def memcpyLen (n : UInt32) : ℕ := n.toInt32.toInt.toNat

def writeLen (fd : ℤ) (count : ℕ) : ℕ := if fd = 1 ∨ fd = 2 then count else 0

def SyscallParam.memcpy (sysparam : SyscallParam) (src : List UInt8) (n : UInt32) :
    Option SyscallParam :=
  if src.length < memcpyLen n then none else sysparam.write 0 (src.take (memcpyLen n))

def SyscallParam.memcpyOut (sysparam : SyscallParam) (n : UInt32) : Option (List UInt8) :=
  if SYSCALL_BUF_SIZE < memcpyLen n then none else some (sysparam.bytes.take (memcpyLen n))

/-- The functions that make one system call. `runProgram` takes the 576 bytes
from its string on, which is what the source copies. -/
inductive UserCall where
  | callInt
  | halt
  | reboot
  | getProcessList
  | time
  | runProgram (string : SyscallParam)
  | myopen (pathname : List UInt8)
  | myclose (fd : Int32)
  | mylseek (fildes : Int32) (offset : UInt32)
  | myread (fd : Int32) (count : UInt32)
  | mywrite (fd : Int32) (buf : List UInt8) (count : UInt32)

namespace UserCall

def service : UserCall → ℕ
  | callInt => 0
  | halt => 1
  | reboot => 2
  | runProgram _ => 7
  | getProcessList => 8
  | myopen _ => 10
  | myclose _ => 11
  | mylseek _ _ => 12
  | myread _ _ => 13
  | mywrite _ _ _ => 14
  | time => 15

def request (sysparam : SyscallParam) : UserCall → Option SyscallParam
  | callInt | halt | reboot | getProcessList | time => some sysparam
  | runProgram string => some string
  | myopen pathname => sysparam.memcpy pathname (UInt32.ofNat pathname.length)
  | myclose fd => some (sysparam.setFd fd)
  | mylseek fildes offset => some ((sysparam.setFd fildes).setOffset offset)
  | myread fd count => some ((sysparam.setFd fd).setSize count)
  | mywrite fd buf count => ((sysparam.setFd fd).setSize count).memcpy buf count

end UserCall

namespace Sys

/-- The system call started a program; it and its descendants took the steps `es`;
it returned, and `out` was copied back to the caller. -/
def Answers (env : Env) (m : Sys) (amb : Ambient) (service : ℕ) (request : SyscallParam)
    (es : List Event) (m' : Sys) (out : SyscallParam) : Prop :=
  ∃ m₁ m₂, Step env m (.sys amb service request) m₁ ∧ m₁.frames.length = m.frames.length + 1 ∧
    Run (Above (Step env) Sys.frames m₁.frames.length) m₁ es m₂ ∧
    m₂.step env .exit = some (m', some out) ∧ m'.frames.length = m.frames.length

end Sys

/-- The system while one of its programs runs, with the `sysparam` of that program. -/
structure User where
  sys : Sys
  sysparam : SyscallParam

namespace User

inductive Syscall (env : Env) (service : ℕ) : User → User → Prop
  | reply {s : User} {amb : Ambient} {m : Sys} {out : SyscallParam} :
      s.sys.step env (.sys amb service s.sysparam) = some (m, some out) →
      Syscall env service s ⟨m, out⟩
  | answer {s : User} {amb : Ambient} {es : List Event} {m : Sys} {out : SyscallParam} :
      s.sys.Answers env amb service s.sysparam es m out → Syscall env service s ⟨m, out⟩

def Call (env : Env) (s : User) (c : UserCall) (s' : User) : Prop :=
  ∃ sysparam, c.request s.sysparam = some sysparam ∧
    Syscall env c.service { s with sysparam := sysparam } s'

def myopenFd (s : User) : Int32 := s.sysparam.fd

/-- The return value of `run_program`, a `char` made an `int`. -/
def runProgramCode (s : User) : Int32 := (s.sysparam.bytes.getD 0 0).toInt8.toInt32

def myreadBuf (s : User) (count : UInt32) : Option (List UInt8) := s.sysparam.memcpyOut count

inductive LibCall where
  | call (c : UserCall)
  | listRootFiles

/-- `list_root_files` opens the root directory, prints its descriptor and makes
system call 9. -/
inductive LibStep (env : Env) : User → LibCall → User → Prop
  | call {s s' : User} {c : UserCall} : Call env s c s' → LibStep env s (.call c) s'
  | listRootFiles {s s₁ s₂ s' : User} {chunks : List (List UInt8)} :
      Call env s (.myopen (ascii "/")) s₁ →
      vfprintf (ascii "opened / with file descriptor %d\r\n") [.int s₁.myopenFd] = some chunks →
      Run (Call env) s₁ (chunks.map fun c => .mywrite 1 c (UInt32.ofNat c.length)) s₂ →
      Syscall env 9 s₂ s' → LibStep env s .listRootFiles s'

end User

end RML
