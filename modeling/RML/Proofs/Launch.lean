import RML.Spec.Kernel
import Mathlib.Tactic.SplitIfs

/-! What `load`, the two halves of `run_program` and the three kinds of step can
do, said once: later proofs case on these and never unfold the functions. -/

namespace RML

open Bytes Transition

theorem getFile_found {fileList : List Fat16Entry} {name : List UInt8} {file : Fat16Entry}
    (h : getFile fileList name = some (some file)) :
    file ∈ fileList ∧ ∃ ext, extractFileName file = some (name, ext) := by
  induction fileList with
  | nil => cases h
  | cons entry fileList ih =>
    have hrest : getFile fileList name = some (some file) →
        file ∈ entry :: fileList ∧ ∃ ext, extractFileName file = some (name, ext) := fun h =>
      ⟨List.mem_cons_of_mem entry (ih h).1, (ih h).2⟩
    rw [getFile] at h
    split_ifs at h with hfile
    · simp only [Option.bind_eq_bind, Option.bind_eq_some_iff] at h
      obtain ⟨⟨filename, ext⟩, hextract, h⟩ := h
      split_ifs at h with hcmp
      · cases h
        obtain rfl := (strcmp_eq_zero_iff filename name).mp hcmp
        exact ⟨List.mem_cons_self, ext, hextract⟩
      · exact hrest h
    · exact hrest h

theorem length_extractFileName_le {file : Fat16Entry} {name ext : List UInt8}
    (h : extractFileName file = some (name, ext)) : name.length ≤ 8 := by
  simp only [extractFileName, Option.bind_eq_bind, Option.bind_eq_some_iff, Option.some.injEq,
    Prod.mk.injEq] at h
  obtain ⟨filename, -, ext', -, rfl, -⟩ := h
  refine (length_cstr_le _).trans ?_
  rw [trimBlanks, List.length_map]
  exact List.length_take_le 8 filename

namespace Kernel

variable {env : Env} {amb : Ambient} {k : Kernel} {currPid : Option ℕ} {name : List UInt8}
  {seg : ℕ} {segArr : SegArr}

/-- The kernel's data once `load` has the file in memory. -/
def loaded (k : Kernel) (segArr : SegArr) (io : Io) (mem : ℕ → UInt8) : Kernel :=
  { k with segArr := segArr, io := io, mem := mem }

theorem lookup_found {io io' : Io} {file : Fat16Entry}
    (h : lookup env amb io name = some (some file, io')) :
    ∃ fileList io₁, io.getRootFiles env amb = some (fileList, io₁) ∧ file ∈ fileList ∧
      ∃ ext, extractFileName file = some (name, ext) := by
  unfold lookup at h
  split_ifs at h
  simp only [Option.bind_eq_bind, Option.bind_eq_some_iff, Option.some.injEq, Prod.mk.injEq] at h
  obtain ⟨⟨fileList, io₁⟩, hfiles, found, hfound, rfl, -⟩ := h
  obtain ⟨hmem, hname⟩ := getFile_found hfound
  exact ⟨fileList, io₁, hfiles, hmem, hname⟩

theorem load_cases {r : LoadResult} (hseg : getFreeSeg k.segArr amb.seg = (seg, segArr))
    (h : k.load env amb name = some r) :
    (∃ io, lookup env amb k.io name = some (none, io) ∧
      r = ⟨1, amb.pid, seg, { k with segArr := segArr, io := io }⟩) ∨
    ∃ file io io' mem, lookup env amb k.io name = some (some file, io) ∧
      io.loadFileContent env amb k.mem file seg 0 = some (io', mem) ∧
      (k.sched.registerProc name seg seg seg 0 k.sched.runningProc file.fileSize = none ∧
          r = ⟨0, amb.pid, seg, k.loaded segArr io' mem⟩ ∨
        ∃ pid sched,
          k.sched.registerProc name seg seg seg 0 k.sched.runningProc file.fileSize =
            some (pid, sched) ∧
          r = ⟨0, pid, seg, { k.loaded segArr io' mem with sched := sched }⟩) := by
  simp only [load, hseg, Option.bind_eq_bind, Option.bind_eq_some_iff] at h
  obtain ⟨⟨found, io⟩, hlook, h⟩ := h
  cases found with
  | none =>
    refine Or.inl ⟨io, hlook, ?_⟩
    simpa using h.symm
  | some file =>
    simp only [Option.bind_eq_some_iff] at h
    obtain ⟨⟨io', mem⟩, hload, h⟩ := h
    refine Or.inr ⟨file, io, io', mem, hlook, hload, ?_⟩
    cases hreg : k.sched.registerProc name seg seg seg 0 k.sched.runningProc file.fileSize with
    | none =>
      simp only [hreg, Option.some.injEq] at h
      exact Or.inl ⟨rfl, h.symm⟩
    | some p =>
      obtain ⟨pid, sched⟩ := p
      simp only [hreg, Option.some.injEq] at h
      exact Or.inr ⟨pid, sched, rfl, h.symm⟩

def openStd (io : Io) (pid : ℕ) : Io :=
  ((io.openFd (ascii "/dev/stdin") pid).2.openFd (ascii "/dev/stdout") pid).2

/-- `run_program` returns 1 and releases the segment it took, or it has called
the program it loaded. -/
theorem runProgramStart_cases {r : RunResult}
    (hseg : getFreeSeg k.segArr amb.seg = (seg, segArr))
    (h : k.runProgramStart env amb currPid name = some r) :
    (∃ io, lookup env amb k.io name = some (none, io) ∧
      r = .returned 1 { k with segArr := releaseSeg segArr seg, io := io }) ∨
    ∃ file io io' mem pid sched, lookup env amb k.io name = some (some file, io) ∧
      io.loadFileContent env amb k.mem file seg 0 = some (io', mem) ∧
      (k.sched.registerProc name seg seg seg 0 k.sched.runningProc file.fileSize = none ∧
          pid = amb.pid ∧ k.sched.setRunningProc pid = some sched ∨
        ∃ sched', k.sched.registerProc name seg seg seg 0 k.sched.runningProc file.fileSize =
            some (pid, sched') ∧ sched'.setRunningProc pid = some sched) ∧
      r = .started ⟨currPid, pid, seg⟩
        { k.loaded segArr (openStd io' pid) mem with sched := sched } := by
  simp only [runProgramStart, Option.bind_eq_bind, Option.bind_eq_some_iff] at h
  obtain ⟨l, hl, h⟩ := h
  rcases load_cases hseg hl with ⟨io, hlook, rfl⟩ | ⟨file, io, io', mem, hlook, hmem, hreg⟩
  · refine Or.inl ⟨io, hlook, ?_⟩
    simpa using h.symm
  · rcases hreg with ⟨hnone, rfl⟩ | ⟨pid, sched', hsome, rfl⟩
    · simp only [if_true, Option.bind_eq_some_iff, Option.some.injEq] at h
      obtain ⟨sched, hset, rfl⟩ := h
      exact Or.inr ⟨file, io, io', mem, amb.pid, sched, hlook, hmem, Or.inl ⟨hnone, rfl, hset⟩, rfl⟩
    · simp only [if_true, Option.bind_eq_some_iff, Option.some.injEq] at h
      obtain ⟨sched, hset, rfl⟩ := h
      exact Or.inr ⟨file, io, io', mem, pid, sched, hlook, hmem,
        Or.inr ⟨sched', hsome, hset⟩, rfl⟩

theorem runProgramStart_of_missing {io : Io} (hseg : getFreeSeg k.segArr amb.seg = (seg, segArr))
    (h : lookup env amb k.io name = some (none, io)) :
    k.runProgramStart env amb currPid name =
      some (.returned 1 { k with segArr := releaseSeg segArr seg, io := io }) := by
  simp [runProgramStart, load, hseg, h]

theorem finishRun_cases {k' : Kernel} {pid retcode : ℕ} (h : k.finishRun pid retcode = some k') :
    ∃ sched, k.sched.setRunningProc pid = some sched ∧
      k' = { k with params := k.params.setInt 0 (UInt32.ofNat retcode), sched := sched } := by
  simp only [finishRun, Option.bind_eq_bind, Option.bind_eq_some_iff, Option.some.injEq] at h
  obtain ⟨sched, hset, rfl⟩ := h
  exact ⟨sched, hset, rfl⟩

/-- The other services touch neither the allocator, nor the process table, nor the
memory of the programs. -/
theorem dispatch_other {service : ℕ} {o : Outcome} (hs : service ≠ 7)
    (h : k.dispatch env amb service = some o) :
    ∃ io params, o = .reply { k with io := io, params := params } := by
  unfold dispatch at h
  split at h
  · exact ⟨_, _, (Option.some.inj h).symm⟩
  · simp at h
  · exact ⟨_, _, (Option.some.inj h).symm⟩
  · exact ⟨_, _, (Option.some.inj h).symm⟩
  · simp only [Option.bind_eq_bind, Option.bind_eq_some_iff, Option.some.injEq] at h
    obtain ⟨r, -, p, -, rfl⟩ := h
    exact ⟨_, _, rfl⟩
  · exact absurd rfl hs
  · simp only [Option.bind_eq_bind, Option.bind_eq_some_iff, Option.some.injEq] at h
    obtain ⟨io, -, rfl⟩ := h
    exact ⟨_, _, rfl⟩
  · simp only [Option.bind_eq_bind, Option.bind_eq_some_iff, Option.some.injEq] at h
    obtain ⟨io, -, rfl⟩ := h
    exact ⟨_, _, rfl⟩
  · split at h
    · exact ⟨_, _, (Option.some.inj h).symm⟩
    · simp only [Option.bind_eq_bind, Option.bind_eq_some_iff, Option.some.injEq] at h
      obtain ⟨⟨r, io⟩, -, p, -, rfl⟩ := h
      exact ⟨_, _, rfl⟩

end Kernel

namespace Sys

variable {env : Env} {m m' : Sys} {amb : Ambient} {service : ℕ} {request : SyscallParam}

def restarted (k : Kernel) : Kernel := { k with sched := k.sched.initProcesses }

/-- The kernel with a request copied into `params`. -/
def entered (k : Kernel) (request : SyscallParam) : Kernel :=
  { k with params := request, io := { k.io with touched := [] } }

theorem step_init {out : Option SyscallParam} (h : m.step env (.init amb) = some (m', out)) :
    m.frames = [] ∧ out = none ∧
      ((∃ rc k, (restarted m.kernel).runProgramStart env amb none (ascii "INIT") =
          some (.returned rc k) ∧ m' = ⟨k, []⟩) ∨
        ∃ f k, (restarted m.kernel).runProgramStart env amb none (ascii "INIT") =
          some (.started f k) ∧ m' = ⟨k, [f]⟩) := by
  simp only [step] at h
  split at h
  · simp at h
  · next hframes =>
    simp only [Option.bind_eq_bind, Option.bind_eq_some_iff] at h
    obtain ⟨r, hr, h⟩ := h
    refine ⟨hframes, ?_⟩
    cases r with
    | returned rc k =>
      simp only [Option.some.injEq, Prod.mk.injEq] at h
      exact ⟨h.2.symm, Or.inl ⟨rc, k, hr, h.1.symm⟩⟩
    | started f k =>
      simp only [Option.some.injEq, Prod.mk.injEq] at h
      exact ⟨h.2.symm, Or.inr ⟨f, k, hr, h.1.symm⟩⟩

theorem step_sys {out : Option SyscallParam}
    (h : m.step env (.sys amb service request) = some (m', out)) :
    m.frames ≠ [] ∧
      ((∃ f k, (entered m.kernel request).dispatch env amb service = some (.started f k) ∧
          m' = ⟨k, f :: m.frames⟩ ∧ out = none) ∨
        ∃ k, (entered m.kernel request).dispatch env amb service = some (.reply k) ∧
          m' = ⟨k, m.frames⟩ ∧ out = some k.params) := by
  simp only [step] at h
  split at h
  · simp at h
  · next hframes =>
    simp only [Option.bind_eq_bind, Option.bind_eq_some_iff] at h
    obtain ⟨r, hr, h⟩ := h
    refine ⟨by simp [hframes], ?_⟩
    cases r with
    | started f k =>
      simp only [Option.some.injEq, Prod.mk.injEq] at h
      exact Or.inl ⟨f, k, hr, h.1.symm, h.2.symm⟩
    | reply k =>
      simp only [Option.some.injEq, Prod.mk.injEq] at h
      exact Or.inr ⟨k, hr, h.1.symm, h.2.symm⟩

theorem step_exit {out : Option SyscallParam} (h : m.step env .exit = some (m', out)) :
    ∃ f frames, m.frames = f :: frames ∧
      (f.currPid = none ∧ m' = ⟨m.kernel.runProgramEnd f, frames⟩ ∧ out = none ∨
        ∃ pid k, f.currPid = some pid ∧ (m.kernel.runProgramEnd f).finishRun pid 0 = some k ∧
          m' = ⟨k, frames⟩ ∧ out = some k.params) := by
  simp only [step] at h
  split at h
  · simp at h
  · next f frames hframes =>
    refine ⟨f, frames, hframes, ?_⟩
    cases hcur : f.currPid with
    | none =>
      simp only [hcur, Option.some.injEq, Prod.mk.injEq] at h
      exact Or.inl ⟨rfl, h.1.symm, h.2.symm⟩
    | some pid =>
      simp only [hcur, Option.bind_eq_bind, Option.bind_eq_some_iff, Option.some.injEq,
        Prod.mk.injEq] at h
      obtain ⟨k, hk, h1, h2⟩ := h
      exact Or.inr ⟨pid, k, rfl, hk, h1.symm, h2.symm⟩

/-- The kernel with the request in `params` and its name upper-cased in place. -/
def named (k : Kernel) (request : SyscallParam) : Kernel :=
  { entered k request with
    params := ⟨stoupper request.bytes, by rw [length_stoupper, request.length_eq]⟩ }

theorem dispatch_seven {o : Kernel.Outcome}
    (h : (entered m.kernel request).dispatch env amb 7 = some o) :
    (∃ f k, (named m.kernel request).runProgramStart env amb
        (some m.kernel.sched.runningProc) (cstr (stoupper request.bytes)) = some (.started f k) ∧
        o = .started f k) ∨
      ∃ rc k k', (named m.kernel request).runProgramStart env amb
        (some m.kernel.sched.runningProc) (cstr (stoupper request.bytes)) =
          some (.returned rc k) ∧
        k.finishRun m.kernel.sched.runningProc rc = some k' ∧ o = .reply k' := by
  simp only [Kernel.dispatch, Option.bind_eq_bind, Option.bind_eq_some_iff] at h
  obtain ⟨r, hr, h⟩ := h
  cases r with
  | started f k => exact Or.inl ⟨f, k, hr, (Option.some.inj h).symm⟩
  | returned rc k =>
    simp only [Option.bind_eq_some_iff, Option.some.injEq] at h
    obtain ⟨k', hk', rfl⟩ := h
    exact Or.inr ⟨rc, k, k', hr, hk', rfl⟩

/-- All a system call can do: start a program, report that it could not, or change
`params` and the globals of the file system. -/
theorem step_call {out : Option SyscallParam}
    (h : m.step env (.sys amb service request) = some (m', out)) :
    m.frames ≠ [] ∧
      ((service = 7 ∧ ∃ f k, (named m.kernel request).runProgramStart env amb
          (some m.kernel.sched.runningProc) (cstr (stoupper request.bytes)) =
            some (.started f k) ∧ m' = ⟨k, f :: m.frames⟩ ∧ out = none) ∨
        (service = 7 ∧ ∃ rc k k', (named m.kernel request).runProgramStart env amb
          (some m.kernel.sched.runningProc) (cstr (stoupper request.bytes)) =
            some (.returned rc k) ∧ k.finishRun m.kernel.sched.runningProc rc = some k' ∧
          m' = ⟨k', m.frames⟩ ∧ out = some k'.params) ∨
        service ≠ 7 ∧ ∃ io params,
          (entered m.kernel request).dispatch env amb service =
            some (.reply { m.kernel with io := io, params := params }) ∧
          m' = ⟨{ m.kernel with io := io, params := params }, m.frames⟩ ∧ out = some params) := by
  obtain ⟨hne, hd⟩ := step_sys h
  refine ⟨hne, ?_⟩
  by_cases hs : service = 7
  · subst hs
    rcases hd with ⟨f, k, hd, rfl, rfl⟩ | ⟨k, hd, rfl, rfl⟩
    · rcases dispatch_seven hd with ⟨f', k', hstart, heq⟩ | ⟨_, _, _, -, -, heq⟩
      · cases heq
        exact Or.inl ⟨rfl, f, k, hstart, rfl, rfl⟩
      · cases heq
    · rcases dispatch_seven hd with ⟨_, _, -, heq⟩ | ⟨rc, k', k'', hstart, hfin, heq⟩
      · cases heq
      · cases heq
        exact Or.inr (Or.inl ⟨rfl, rc, k', k, hstart, hfin, rfl, rfl⟩)
  · rcases hd with ⟨f, k, hd, rfl, -⟩ | ⟨k, hd, rfl, rfl⟩
    · obtain ⟨io, params, heq⟩ := Kernel.dispatch_other hs hd
      cases heq
    · obtain ⟨io, params, heq⟩ := Kernel.dispatch_other hs hd
      cases heq
      exact Or.inr (Or.inr ⟨hs, io, params, hd, rfl, rfl⟩)

end Sys

end RML
