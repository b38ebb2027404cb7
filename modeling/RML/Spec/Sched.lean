import RML.Spec.Types
import Mathlib.Data.List.Basic

/-! `kernel/sched.c`: the process table. -/

namespace RML

/-- `processes`, whose first `NUM_PROCESSES` slots exist, and `running_proc`. -/
structure Sched where
  processes : ℕ → ProcessDesc := fun _ => {}
  runningProc : ℕ := 0

namespace Sched

def modify (s : Sched) (i : ℕ) (f : ProcessDesc → ProcessDesc) : Sched :=
  { s with processes := Function.update s.processes i (f (s.processes i)) }

@[simp] theorem modify_runningProc (s : Sched) (i : ℕ) (f : ProcessDesc → ProcessDesc) :
    (s.modify i f).runningProc = s.runningProc := rfl

theorem modify_processes (s : Sched) (i j : ℕ) (f : ProcessDesc → ProcessDesc) :
    (s.modify i f).processes j = if j = i then f (s.processes i) else s.processes j := by
  simp only [modify, Function.update_apply]

def initProcesses (s : Sched) : Sched where
  processes i := if i < NUM_PROCESSES then { s.processes i with pid := 0 } else s.processes i
  runningProc := 0

/-- `set_running_proc`; `none` when `processes[pid-1]` is outside the array. -/
def setRunningProc (s : Sched) (pid : ℕ) : Option Sched :=
  let s := if s.runningProc ≠ 0 then s.modify (s.runningProc - 1) ({ · with state := .READY }) else s
  if 1 ≤ pid ∧ pid ≤ NUM_PROCESSES then
    some ({ s with runningProc := pid }.modify (pid - 1) ({ · with state := .RUNNING }))
  else none

/-- `register_proc` takes the first slot whose pid is 0 and returns its number
plus one; `none` stands for the -1 of a full table. -/
def registerProc (s : Sched) (name : List UInt8) (cs ds ss entryPoint ppid size : ℕ) :
    Option (ℕ × Sched) :=
  ((List.range NUM_PROCESSES).find? fun i => (s.processes i).pid = 0).map fun i =>
    (i + 1, s.modify i fun p => { p with
      pid := i + 1, cs := cs, ds := ds, ss := ss, state := .READY, ip := entryPoint,
      ppid := ppid, size := size, name := name })

def unregisterProc (s : Sched) (pid : ℕ) : Sched := s.modify (pid - 1) ({ · with pid := 0 })

end Sched

end RML
