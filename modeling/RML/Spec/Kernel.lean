import RML.Spec.Fs
import RML.Spec.Mm
import RML.Spec.Sched
import RML.Lib.Transition

/-! `kernel/kernel.c`. A program runs inside `farcall`, so `run_program` is cut
there: `runProgramStart` goes up to the far call, `runProgramEnd` from its return
on, and what it keeps on the kernel stack in between is a `Frame`. -/

namespace RML

open Bytes

/-- The kernel's data. `mem` has the stores of `load_to_memory` by linear address, and none of
those that the programs, the kernel or `dispatch.asm` make. -/
structure Kernel where
  segArr : SegArr := fun _ => {}
  sched : Sched := {}
  io : Io := {}
  params : SyscallParam := .zero
  mem : ℕ → UInt8 := fun _ => 0

/-- The locals `pid` and `segment` of a suspended `run_program`, and `curr_pid` of
the `dispatch` that called it; `startk` calls it without one. -/
structure Frame where
  currPid : Option ℕ
  pid : ℕ
  segment : ℕ
  deriving DecidableEq

namespace Kernel

/-- What `get_root_files` and `get_file` find in `load`. `file_list` has 256
entries, and more than that overrun it. -/
def lookup (env : Env) (amb : Ambient) (io : Io) (name : List UInt8) :
    Option (Option Fat16Entry × Io) :=
  if 256 < io.bs.rootDirEntries then none else do
    let (fileList, io) ← io.getRootFiles env amb
    let found ← getFile fileList name
    some (found, io)

structure LoadResult where
  retcode : ℕ
  pid : ℕ
  segment : ℕ
  kernel : Kernel

/-- `load` of the upper-cased name. When `register_proc` finds no slot, `*pid`
keeps what `run_program`'s local held. -/
def load (env : Env) (amb : Ambient) (k : Kernel) (name : List UInt8) : Option LoadResult := do
  let (segment, segArr) := getFreeSeg k.segArr amb.seg
  let (found, io) ← lookup env amb k.io name
  match found with
  | none => some ⟨1, amb.pid, segment, { k with segArr := segArr, io := io }⟩
  | some file =>
    let (io, mem) ← io.loadFileContent env amb k.mem file segment 0
    let k := { k with segArr := segArr, io := io, mem := mem }
    match k.sched.registerProc name segment segment segment 0 k.sched.runningProc file.fileSize with
    | none => some ⟨0, amb.pid, segment, k⟩
    | some (pid, sched) => some ⟨0, pid, segment, { k with sched := sched }⟩

inductive RunResult where
  | returned (retcode : ℕ) (k : Kernel)
  | started (f : Frame) (k : Kernel)

def runProgramStart (env : Env) (amb : Ambient) (k : Kernel) (currPid : Option ℕ)
    (name : List UInt8) : Option RunResult := do
  let r ← k.load env amb name
  if r.retcode = 0 then do
    let sched ← r.kernel.sched.setRunningProc r.pid
    let io := (r.kernel.io.openFd (ascii "/dev/stdin") r.pid).2
    let io := (io.openFd (ascii "/dev/stdout") r.pid).2
    some (.started ⟨currPid, r.pid, r.segment⟩ { r.kernel with sched := sched, io := io })
  else
    some (.returned r.retcode
      { r.kernel with segArr := releaseSeg r.kernel.segArr r.segment })

/-- `run_program` from the return of its far call on; it returns 0 then. -/
def runProgramEnd (k : Kernel) (f : Frame) : Kernel :=
  { k with sched := k.sched.unregisterProc f.pid, segArr := releaseSeg k.segArr f.segment }

def finishRun (k : Kernel) (currPid retcode : ℕ) : Option Kernel := do
  let sched ← k.sched.setRunningProc currPid
  some { k with
    params := k.params.setInt 0 (UInt32.ofNat retcode)
    sched := sched }

def procStateText : ProcState → List UInt8
  | .READY => ascii "READY"
  | .WAIT => ascii "WAIT"
  | .RUNNING => ascii "RUNNING"
  | .SLEEP => ascii "UNKNOWN"

def processListLoop (k : Kernel) : ℕ → ℕ → Io → Option Io
  | 0, _, io => some io
  | n + 1, i, io =>
    let p := k.sched.processes i
    if p.pid = 0 then processListLoop k n (i + 1) io else do
      let pid ← uitoa p.pid
      let ppid ← uitoa p.ppid
      let cs ← uitoa p.cs
      let size ← uitoa p.size
      processListLoop k n (i + 1) (io.printk (ascii "root " ++ pid ++ ascii " " ++ ppid ++
        ascii " " ++ cs ++ ascii " " ++ procStateText p.state ++ ascii " " ++ size ++
        ascii " " ++ p.name ++ ascii "\r\n"))

def getProcessList (k : Kernel) : Option Io :=
  processListLoop k NUM_PROCESSES 0
    (k.io.printk (ascii "USER PID PPID CS STAT SIZE NAME\r\n"))

def bcd (b : UInt8) : ℕ := ((b &&& 0xF0) >>> 4).toNat * 10 + (b &&& 0x0F).toNat

def time (c : Clock) (io : Io) : Option Io := do
  let year ← uitoa (((c.century &&& 0xF0) >>> 4).toNat * 1000 + (c.century &&& 0x0F).toNat * 100 +
    bcd c.year)
  let month ← uitoa (bcd c.month)
  let day ← uitoa (bcd c.day)
  let hours ← uitoa (bcd c.hours)
  let minutes ← uitoa (bcd c.minutes)
  let seconds ← uitoa (bcd c.seconds)
  some (io.printk (year ++ ascii "/" ++ month ++ ascii "/" ++ day ++ ascii " " ++ hours ++
    ascii ":" ++ minutes ++ ascii ":" ++ seconds ++ ascii "\r\n"))

end Kernel

/-- The calls on descriptors that cases 9 to 14 of `dispatch` make, with the
arguments they take from `params`. -/
inductive FileCall where
  | list
  | open (pathname : List UInt8)
  | close (fd : ℤ)
  | lseek (fd : ℤ) (offset : ℕ)
  | read (fd : ℤ) (count : ℕ)
  | write (fd : ℤ) (count : ℕ)
  deriving DecidableEq

def FileCall.ofParams (service : ℕ) (p : SyscallParam) : Option FileCall :=
  match service with
  | 9 => some .list
  | 10 => some (.open (cstr p.bytes))
  | 11 => some (.close p.fd.toInt)
  | 12 => some (.lseek p.fd.toInt p.offset.toNat)
  | 13 => some (.read p.fd.toInt p.size.toNat)
  | 14 => some (.write p.fd.toInt p.size.toNat)
  | _ => none

inductive FileReply where
  | nothing
  | opened (fd : Int32)
  | listed (filesRead : ℕ) (param : SyscallParam)
  | stored (bytes : List UInt8)

/-- The call itself, on behalf of `currPid`. `list_root_files` goes through the
kernel's own table. A `write` takes its bytes from `params` on, and past the end
of `params` the model does not follow it. -/
def Io.exec (env : Env) (amb : Ambient) (io : Io) (currPid : ℕ) (p : SyscallParam) :
    FileCall → Option (FileReply × Io)
  | .list => do
    let io := ((io.openFd (ascii "/") 0).2).lseek 5 0 0
    let (filesRead, buf, io) ← io.listRootFiles env amb SYSCALL_DATA_SIZE p.bytes
    let p ← SyscallParam.ofBytes buf
    some (.listed filesRead p, io)
  | .open pathname =>
    let (fd, io) := io.openFd pathname currPid
    some (.opened fd, io)
  | .close fd => some (.nothing, io.close fd currPid)
  | .lseek fd offset => some (.nothing, io.lseek fd offset currPid)
  | .read fd count => do
    let r ← io.read env amb amb.fuel fd count currPid
    some (.stored r.bytes, r.io)
  | .write fd count =>
    if (fd = 1 ∨ fd = 2) ∧ SYSCALL_BUF_SIZE < count then none
    else some (.nothing, io.write fd (p.bytes.take count))

def FileReply.store (p : SyscallParam) : FileReply → Option SyscallParam
  | .nothing => some p
  | .opened fd => some (p.setFd fd)
  | .listed filesRead q => some (q.setFilesRead (UInt32.ofNat filesRead))
  | .stored bytes => p.write 0 bytes

namespace Kernel

inductive Outcome where
  | reply (k : Kernel)
  | started (f : Frame) (k : Kernel)

/-- `dispatch(service, params)`. Service 1 resumes after the next interrupt,
service 2 never does. `load` upper-cases the name in place, in `params`. -/
def dispatch (env : Env) (amb : Ambient) (k : Kernel) (service : ℕ) : Option Outcome :=
  match service with
  | 0 => some (.reply { k with io := k.io.write 1 (ascii "system call!\r\n") })
  | 2 => none
  | 4 => some (.reply { k with io := k.io.write 1 (cstr k.params.bytes) })
  | 5 => some (.reply { k with io := k.io.write 1 (k.params.bytes.take 1) })
  | 6 => do
    let r ← k.io.read env amb amb.fuel 0 1 0
    let p ← k.params.write 0 r.bytes
    some (.reply { k with io := r.io, params := p })
  | 7 =>
    let currPid := k.sched.runningProc
    let name := stoupper k.params.bytes
    let k := { k with params := ⟨name, by rw [length_stoupper, k.params.length_eq]⟩ }
    do match ← k.runProgramStart env amb (some currPid) (cstr name) with
      | .started f k => some (.started f k)
      | .returned retcode k => do
        let k ← k.finishRun currPid retcode
        some (.reply k)
  | 8 => do
    let io ← k.getProcessList
    some (.reply { k with io := io })
  | 15 => do
    let io ← time amb.clock k.io
    some (.reply { k with io := io })
  | service =>
    match FileCall.ofParams service k.params with
    | none => some (.reply k)
    | some call => do
      let (r, io) ← k.io.exec env amb k.sched.runningProc k.params call
      let p ← r.store k.params
      some (.reply { k with io := io, params := p })

/-- `startk` up to its loop, from zeroed data. -/
def startk (env : Env) (amb : Ambient) : Option Kernel := do
  let io := ((({} : Io).openFd (ascii "/dev/stdout") 0).2).printk (ascii "starting kernel...\r\n")
  let io ← io.mount env amb (ascii "/dev/fdb")
  some { segArr := initSeg, io := (io.openFd (ascii "/dev/stdin") 0).2 }

end Kernel

/-- The kernel and the programs it has started, innermost first: the first
program runs, the others wait in a system call. -/
structure Sys where
  kernel : Kernel
  frames : List Frame

inductive Event where
  /-- One turn of the loop of `startk`. -/
  | init (amb : Ambient)
  /-- `int 80h` of the running program with a request in its `sysparam`. -/
  | sys (amb : Ambient) (service : ℕ) (request : SyscallParam)
  /-- The far return of the running program. -/
  | exit

/-- A system call that keeps to what it is given: the descriptor it names is one of the
five of a table, "/" with its sixth one is left to the kernel, and a string it passes ends
in `params`. -/
def Event.InBounds : Event → Prop
  | .sys _ service request =>
    (service = 11 ∨ service = 12 ∨ service = 13 →
        0 ≤ request.fd.toInt ∧ request.fd.toInt < NUM_FILES) ∧
      (service = 10 → cstr request.bytes ≠ ascii "/") ∧
      (service = 4 ∨ service = 7 ∨ service = 10 → 0 ∈ request.bytes)
  | _ => True

instance (e : Event) : Decidable e.InBounds := by
  cases e <;> unfold Event.InBounds <;> infer_instance

namespace Sys

/-- One step, and the buffer it copies back to the program that goes on. -/
def step (env : Env) (m : Sys) : Event → Option (Sys × Option SyscallParam)
  | .init amb =>
    match m.frames with
    | _ :: _ => none
    | [] => do
      let k := { m.kernel with sched := m.kernel.sched.initProcesses }
      match ← k.runProgramStart env amb none (ascii "INIT") with
      | .started f k => some (⟨k, [f]⟩, none)
      | .returned _ k => some (⟨k, []⟩, none)
  | .sys amb service request =>
    match m.frames with
    | [] => none
    | _ :: _ => do
      let k := { m.kernel with params := request, io := { m.kernel.io with touched := [] } }
      match ← k.dispatch env amb service with
      | .started f k => some (⟨k, f :: m.frames⟩, none)
      | .reply k => some (⟨k, m.frames⟩, some k.params)
  | .exit =>
    match m.frames with
    | [] => none
    | f :: frames =>
      let k := m.kernel.runProgramEnd f
      match f.currPid with
      | none => some (⟨k, frames⟩, none)
      | some currPid => do
        let k ← k.finishRun currPid 0
        some (⟨k, frames⟩, some k.params)

def Step (env : Env) (m : Sys) (e : Event) (m' : Sys) : Prop := ∃ out, m.step env e = some (m', out)

def exec (env : Env) : List Event → Sys → Option Sys
  | [], m => some m
  | e :: es, m => do
    let (m, _) ← m.step env e
    exec env es m

theorem run_of_exec {env : Env} {m m' : Sys} {es : List Event} (h : exec env es m = some m') :
    Transition.Run (Step env) m es m' := by
  induction es generalizing m with
  | nil =>
    cases h
    exact .nil _
  | cons e es ih =>
    simp only [exec, Option.bind_eq_bind, Option.bind_eq_some_iff] at h
    obtain ⟨⟨m₁, out⟩, hstep, hrest⟩ := h
    exact .cons ⟨out, hstep⟩ (ih hrest)

theorem step_of_exec {env : Env} {m m' : Sys} {e : Event} (h : exec env [e] m = some m') :
    Step env m e m' := by
  simp only [exec, Option.bind_eq_bind, Option.bind_eq_some_iff, Option.some.injEq] at h
  obtain ⟨⟨m₁, out⟩, hstep, rfl⟩ := h
  exact ⟨out, hstep⟩

def Boot (env : Env) (m : Sys) : Prop :=
  ∃ amb k, Kernel.startk env amb = some k ∧ m = ⟨k, []⟩

def Reachable (env : Env) (m : Sys) : Prop :=
  ∃ m₀ es, Boot env m₀ ∧ Transition.Run (Step env) m₀ es m

end Sys

end RML
