import RML.Lib.While
import RML.Spec.UserIo
import RML.Spec.Utils

/-! `utils/shell.c`, statement by statement. The functions of the library are those that
`call` lets return. -/

namespace RML

open Bytes Transition While

/-- The process and the locals of `shell`; `input` is its `in`. A store past `buf` is
recorded in `astray`, and what it overwrites is not followed. -/
structure Shell where
  user : User
  buf : ℤ → UInt8
  input : UInt8
  i : ℤ
  j : ℤ
  astray : Bool

namespace Shell

def line (s : Shell) : List UInt8 :=
  cstr ((List.range ShellLine.size.toNat).map fun k : ℕ => s.buf k)

def stored (s : Shell) (i : ℤ) (c : UInt8) : Shell :=
  if 0 ≤ i ∧ i < ShellLine.size then { s with buf := Function.update s.buf i c }
  else { s with astray := true }

def store (i : Shell → ℤ) (c : Shell → UInt8) : Cmd Shell := .assign fun s => s.stored (i s) (c s)

section

variable (call : User → UserCall → User → Prop)

def calls (c : UserCall) : Cmd Shell :=
  .act fun s t => ∃ u, call s.user c u ∧ t = { s with user := u }

/-- `printf` of a template, with whatever the stack holds behind it. -/
def printf (format : Shell → List UInt8) : Cmd Shell :=
  .act fun s t => ∃ ap r u, RML.printf (format s) ap = some r ∧
    Run call s.user (r.chunks.map fun c => .mywrite 1 c (UInt32.ofNat c.length)) u ∧
    t = { s with user := u }

def putchar (c : Shell → UInt8) : Cmd Shell :=
  .act fun s t => ∃ u, call s.user (.mywrite 1 [c s] 1) u ∧ t = { s with user := u }

def Getchar (s : Shell) (c : UInt8) (t : Shell) : Prop :=
  ∃ u, call s.user (.myread 0 1) u ∧ u.myreadBuf 1 = some [c] ∧ t = { s with user := u }

def typesOn : Cond Shell :=
  fun s v t => ∃ c s₁, Getchar call s c s₁ ∧ v = decide (c ≠ 13) ∧ t = { s₁ with input := c }

/-- `system(buf)`. `run_program` copies 576 bytes from `buf` on. -/
def system : Cond Shell :=
  fun s v t => ∃ string u,
    (∀ k < ShellLine.size.toNat, string.bytes[k]? = some (s.buf k)) ∧
    call s.user (.runProgram string) u ∧ v = decide (u.runProgramCode ≠ 0) ∧
    t = { s with user := u }

def press : Cmd Shell :=
  .block [
    .ite (test fun s => decide (s.input = 8 ∧ s.i = 0)) .cont .skip,
    .ite (test fun s => decide (s.input = 8))
      (.block [
        .assign fun s => { s with i := s.i - 1 },
        putchar call fun s => s.input,
        putchar call fun _ => 32,
        putchar call fun s => s.input])
      (.block [
        putchar call fun s => s.input,
        store (fun s => s.i) fun s => s.input,
        .assign fun s => { s with i := s.i + 1 }])]

def readLine : Cmd Shell := .loop (typesOn call) (press call)

def takeKey : Cmd Shell :=
  .block [
    .act fun s t => ∃ c s₁, Getchar call s c s₁ ∧ t = s₁.stored s.j c,
    putchar call fun s => s.buf s.j,
    .assign fun s => { s with j := s.j + 1 }]

def tenKeys : Cmd Shell :=
  .block [
    .assign fun s => { s with j := 0 },
    .loop (test fun s => decide (s.j < 10)) (takeKey call),
    store (fun _ => 10) fun _ => 0,
    printf call fun _ => ascii "\r\n",
    printf call line]

def command : ShellCommand → Cmd Shell
  | .syscall => calls call .callInt
  | .aaa => printf call fun _ => ascii "Hello kernel!"
  | .bbb => putchar call fun _ => 83
  | .ccc => tenKeys call
  | .halt => calls call .halt
  | .reboot => calls call .reboot
  | .exit => .brk
  | .date => calls call .time
  | .system => .ite (system call)
      (.block [printf call line, printf call fun _ => ascii ": command not found"]) .skip

/-- A case of the chain: `strcmp(buf, name) == 0`. -/
def named (name : List UInt8) (c : ShellCommand) : (Shell → Bool) × Cmd Shell :=
  (fun s => decide (strcmp s.line name = 0), command call c)

def branches : List ((Shell → Bool) × Cmd Shell) := [
  named call (ascii "syscall") .syscall,
  named call (ascii "aaa") .aaa,
  named call (ascii "bbb") .bbb,
  named call (ascii "ccc") .ccc,
  named call (ascii "halt") .halt,
  named call (ascii "reboot") .reboot,
  named call (ascii "exit") .exit,
  named call (ascii "date") .date]

def round : Cmd Shell :=
  .block [
    printf call fun _ => ascii "\r\n",
    printf call fun _ => ascii "# ",
    .assign fun s => { s with i := 0 },
    readLine call,
    printf call fun _ => ascii "\r\n",
    store (fun s => s.i) fun _ => 0,
    .elseIf (branches call) (command call .system)]

def shell : Cmd Shell := .loop (test fun _ => true) (round call)

end

end Shell

end RML
