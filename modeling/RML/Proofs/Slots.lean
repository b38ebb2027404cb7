import RML.Proofs.Chain
import RML.Proofs.Directory
import RML.Proofs.Processes

/-! The descriptor table a program finds in its slot. `run_program` opens the console
in it and leaves the rest as the slot's last occupant did. -/

namespace RML

open Bytes Transition

/-- The five entries of a table: the console, and nothing else. -/
def Fresh (t : FdTable) : Prop :=
  ∀ fd : ℤ, 0 ≤ fd → fd < NUM_FILES → t fd = if fd = 0 ∨ fd = 1 then { pfd := -1 } else {}

/-- Nothing is left but perhaps the console. -/
def Vacant (t : FdTable) : Prop := ∀ fd : ℤ, 2 ≤ fd → fd < NUM_FILES → t fd = {}

theorem Fresh.vacant {t : FdTable} (h : Fresh t) : Vacant t := by
  intro fd h2 hfd
  rw [h fd (by omega) hfd, if_neg (by omega)]

namespace Io

variable {env : Env} {amb : Ambient} {io io' : Io} {pid q : ℕ} {fd : ℤ}

/-- No descriptor of a process has a `pathname`: nobody stores one. -/
def Unnamed (io : Io) : Prop := ∀ q fd, (io.filesTable q fd).pathname = []

theorem Unnamed.update (hn : Unnamed io) (pid : ℕ) (fd : ℤ) {f : FileDescriptor → FileDescriptor}
    (hf : ∀ d, d.pathname = [] → (f d).pathname = []) : Unnamed (io.update pid fd f) := by
  intro q i
  rw [update_filesTable]
  split_ifs
  · exact hf _ (hn (pid - 1) fd)
  · exact hn q i

theorem Unnamed.seeks (hn : Unnamed io) (h : Seeks pid io io') : Unnamed io' := by
  intro q fd
  by_cases hq : q = pid - 1
  · obtain ⟨pos, heq⟩ := h.own fd
    rw [hq, heq]
    exact hn _ fd
  · rw [h.others q (Or.inr hq)]
    exact hn q fd

theorem Unnamed.openFd (hn : Unnamed io) (pathname : List UInt8) (pid : ℕ) :
    Unnamed (io.openFd pathname pid).2 := by
  unfold Io.openFd
  split_ifs <;> dsimp only
  · exact hn.update pid 3 fun d hd => hd
  · exact hn.update pid 0 fun d hd => hd
  · exact hn.update pid 1 fun d hd => hd
  · exact hn.update pid 4 fun d hd => hd
  · exact hn.update pid 5 fun d hd => hd
  · exact hn

theorem stable_unnamed : Stable Unnamed where
  seeks hn h := hn.seeks h
  openFd pathname pid hn := hn.openFd pathname pid
  close fd pid _ hn := hn.update pid fd fun _ _ => rfl
  entered hn := hn

def SameFrom (n : ℕ) (io₀ io : Io) : Prop := ∀ q, n ≤ q → io.filesTable q = io₀.filesTable q

theorem update_filesTable_other (io : Io) (fd : ℤ) (f : FileDescriptor → FileDescriptor)
    (h : pid = 0 ∨ q ≠ pid - 1) : (io.update pid fd f).filesTable q = io.filesTable q := by
  funext i
  rw [update_filesTable, if_neg]
  rintro ⟨hpid, hq, -⟩
  exact h.elim hpid fun hne => hne hq

theorem openFd_filesTable_other (io : Io) (pathname : List UInt8) (h : pid = 0 ∨ q ≠ pid - 1) :
    (io.openFd pathname pid).2.filesTable q = io.filesTable q := by
  unfold openFd
  split_ifs <;> first | exact update_filesTable_other io _ _ h | rfl

theorem SameFrom.trans_eq {n : ℕ} {io₀ : Io} (h : SameFrom n io₀ io)
    (heq : ∀ q, n ≤ q → io'.filesTable q = io.filesTable q) : SameFrom n io₀ io' :=
  fun q hq => (heq q hq).trans (h q hq)

theorem stableFor_sameFrom {n : ℕ} (io₀ : Io) (hpos : 1 ≤ pid) (hle : pid ≤ n) :
    StableFor pid (SameFrom n io₀) where
  kernel h hseeks := h.trans_eq fun q _ => hseeks.others q (Or.inl rfl)
  seeks h hseeks := h.trans_eq fun q hq => hseeks.others q (Or.inr (by omega))
  openRoot h := h.trans_eq fun q _ => openFd_filesTable_other _ _ (Or.inl rfl)
  openFd pathname h := h.trans_eq fun q hq => openFd_filesTable_other _ _ (Or.inr (by omega))
  close fd h := h.trans_eq fun q hq => update_filesTable_other _ fd _ (Or.inr (by omega))

end Io

theorem Sched.setRunningProc_pids {s s' : Sched} {pid : ℕ} (h : s.setRunningProc pid = some s') :
    1 ≤ pid ∧ s'.runningProc = pid ∧ ∀ i, (s'.processes i).pid = (s.processes i).pid := by
  have hpid : 1 ≤ pid ∧ pid ≤ NUM_PROCESSES := by
    by_contra hout
    simp [setRunningProc, if_neg hout] at h
  obtain ⟨s'', hset, hrun, hprocs⟩ := setRunningProc_eq s pid hpid.1 hpid.2
  rw [h, Option.some.injEq] at hset
  subst hset
  exact ⟨hpid.1, hrun, fun i => by rw [hprocs]⟩

namespace Kernel

open Io

variable {env : Env} {amb : Ambient} {k k' : Kernel} {f : Frame} {currPid : Option ℕ}
  {name : List UInt8} {io : Io} {pid q : ℕ}

theorem openStd_filesTable (io : Io) (hpid : 1 ≤ pid) (q : ℕ) (fd : ℤ) :
    (openStd io pid).filesTable q fd =
      if q = pid - 1 ∧ (fd = 0 ∨ fd = 1) then
        { io.filesTable q fd with pos := 0, size := 0, pfd := -1, pfdOffset := 0 }
      else io.filesTable q fd := by
  have hne : pid ≠ 0 := by omega
  rw [openStd, openFd_stdout, openFd_stdin]
  simp only [update_filesTable, hne, ne_eq, not_false_eq_true, true_and]
  by_cases hq : q = pid - 1
  · subst hq
    by_cases h0 : fd = 0
    · simp [h0]
    · by_cases h1 : fd = 1
      · simp [h1]
      · simp [h0, h1]
  · simp [hq]

theorem openStd_fresh_iff (hn : Unnamed io) (hpid : 1 ≤ pid) :
    Fresh ((openStd io pid).filesTable (pid - 1)) ↔ Vacant (io.filesTable (pid - 1)) := by
  constructor
  · intro h fd h2 hfd
    rw [← h.vacant fd h2 hfd, openStd_filesTable io hpid, if_neg (by omega)]
  · intro h fd h0 hfd
    rw [openStd_filesTable io hpid]
    by_cases hstd : fd = 0 ∨ fd = 1
    · rw [if_pos ⟨rfl, hstd⟩, if_pos hstd]
      simp only [hn (pid - 1) fd]
    · rw [if_neg fun h => hstd h.2, if_neg hstd]
      exact h fd (by omega) hfd

theorem start_io {r : RunResult} (h : k.runProgramStart env amb currPid name = some r) :
    ∃ io, Seeks 0 k.io io ∧
      ((∃ rc k', r = .returned rc k' ∧ k'.io = io ∧ k'.sched = k.sched) ∨
        ∃ f k', r = .started f k' ∧ k'.io = openStd io f.pid ∧
          k'.sched.runningProc = f.pid ∧ 1 ≤ f.pid) := by
  rcases runProgramStart_cases rfl h with ⟨io, hlook, rfl⟩ |
    ⟨file, io, io', mem, pid, sched, hlook, hload, hreg, rfl⟩
  · exact ⟨io, seeks_lookup hlook, Or.inl ⟨1, _, rfl, rfl, rfl⟩⟩
  · refine ⟨io', (seeks_lookup hlook).trans (seeks_loadLoop hload), Or.inr ⟨_, _, rfl, rfl, ?_⟩⟩
    rcases hreg with ⟨-, -, hset⟩ | ⟨sched', -, hset⟩
    · obtain ⟨hpos, hrun, -⟩ := Sched.setRunningProc_pids hset
      exact ⟨hrun, hpos⟩
    · obtain ⟨hpos, hrun, -⟩ := Sched.setRunningProc_pids hset
      exact ⟨hrun, hpos⟩

end Kernel

/-- The frames number the programs from the outside in. -/
def Depths : List Frame → Prop
  | [] => True
  | f :: fs =>
    f.pid = fs.length + 1 ∧ f.currPid = (if fs = [] then none else some fs.length) ∧ Depths fs

/-- The live programs hold the first slots. -/
structure Numbered (k : Kernel) (fs : List Frame) : Prop where
  depths : Depths fs
  slots : ∀ i < NUM_PROCESSES, (k.sched.processes i).pid = if i < fs.length then i + 1 else 0

theorem Depths.mem_iff {fs : List Frame} (h : Depths fs) (pid : ℕ) :
    pid ∈ fs.map Frame.pid ↔ 1 ≤ pid ∧ pid ≤ fs.length := by
  induction fs with
  | nil =>
    simp only [List.map_nil, List.not_mem_nil, List.length_nil, false_iff]
    omega
  | cons f fs ih =>
    obtain ⟨hpid, -, hfs⟩ := h
    rw [List.map_cons, List.mem_cons, ih hfs, hpid, List.length_cons]
    omega

theorem Depths.length_eq {fs gs : List Frame} (hf : Depths fs) (hg : Depths gs)
    (h : ∀ pid, pid ∈ fs.map Frame.pid ↔ pid ∈ gs.map Frame.pid) : fs.length = gs.length := by
  have hle := h fs.length
  have hge := h gs.length
  rw [hf.mem_iff, hg.mem_iff] at hle hge
  omega

namespace Numbered

variable {env : Env} {amb : Ambient} {k k' : Kernel} {f : Frame} {fs : List Frame}
  {name : List UInt8}

theorem congr (h : Numbered k fs) (hs : k'.sched = k.sched) : Numbered k' fs :=
  ⟨h.depths, by rw [hs]; exact h.slots⟩

theorem start (h : Numbered k fs) (hfew : fs.length < NUM_PROCESSES)
    (hstart : k.runProgramStart env amb (if fs = [] then none else some fs.length) name =
      some (.started f k')) : Numbered k' (f :: fs) := by
  rcases Kernel.runProgramStart_cases rfl hstart with ⟨io, -, heq⟩ |
    ⟨file, io, io', mem, pid, sched, -, -, hreg, heq⟩
  · cases heq
  · cases heq
    have hregister := Sched.registerProc_eq (s := k.sched) hfew
      (fun i hi => by rw [h.slots i (by omega), if_pos hi]; omega)
      (by rw [h.slots _ hfew, if_neg (lt_irrefl _)])
    rw [hregister] at hreg
    rcases hreg with ⟨hnone, -⟩ | ⟨sched', heq, hset⟩
    · cases hnone
    cases heq
    obtain ⟨-, -, hpids⟩ := Sched.setRunningProc_pids hset
    refine ⟨⟨rfl, rfl, h.depths⟩, fun i hi => ?_⟩
    simp only [hpids, Sched.modify_processes, List.length_cons]
    by_cases hlast : i = fs.length
    · rw [if_pos hlast, hlast, if_pos (Nat.lt_succ_self _)]
    · rw [if_neg hlast, h.slots i hi]
      split_ifs <;> omega

theorem stop (h : Numbered k (f :: fs)) : Numbered (k.runProgramEnd f) fs := by
  obtain ⟨⟨hpid, -, hdepths⟩, hslots⟩ := h
  refine ⟨hdepths, fun i hi => ?_⟩
  have hold := hslots i hi
  rw [List.length_cons] at hold
  simp only [Kernel.runProgramEnd, Sched.unregisterProc, hpid, Nat.add_sub_cancel,
    Sched.modify_processes]
  by_cases hlast : i = fs.length
  · rw [if_pos hlast, if_neg (by omega)]
  · rw [if_neg hlast, hold]
    split_ifs <;> omega

theorem finish {pid retcode : ℕ} (h : Numbered k fs) (hfin : k.finishRun pid retcode = some k') :
    Numbered k' fs ∧ k'.sched.runningProc = pid := by
  obtain ⟨sched, hset, rfl⟩ := Kernel.finishRun_cases hfin
  obtain ⟨-, hrun, hpids⟩ := Sched.setRunningProc_pids hset
  refine ⟨⟨h.depths, fun i hi => ?_⟩, hrun⟩
  rw [hpids, h.slots i hi]

end Numbered

namespace Sys

variable {env : Env} {m m' : Sys} {e : Event} {es : List Event} {f : Frame}

/-- The slots that no program holds are vacant, whatever ran in them. -/
structure TidySlots (m : Sys) : Prop extends Numbered m.kernel m.frames where
  running : m.frames ≠ [] → m.kernel.sched.runningProc = m.frames.length
  vacant : ∀ q, m.frames.length ≤ q → Vacant (m.kernel.io.filesTable q)
  unnamed : m.kernel.io.Unnamed

/-- A program names descriptors of its table alone and leaves its slot vacant when it
exits, and none is started while all slots are taken. -/
def Tidies (m : Sys) (e : Event) : Prop :=
  e.InBounds ∧ match e with
    | .init _ => True
    | .sys _ service _ => service = 7 → m.frames.length < NUM_PROCESSES
    | .exit => ∀ f ∈ m.frames.head?, Vacant (m.kernel.io.filesTable (f.pid - 1))

theorem tidySlots_start {amb : Ambient} {k k' : Kernel} {fs : List Frame} {name : List UInt8}
    (hnum : Numbered k fs) (hvacant : ∀ q, fs.length ≤ q → Vacant (k.io.filesTable q))
    (hn : k.io.Unnamed) (hfew : fs.length < NUM_PROCESSES)
    (hstart : k.runProgramStart env amb (if fs = [] then none else some fs.length) name =
      some (.started f k')) :
    TidySlots ⟨k', f :: fs⟩ := by
  have hnum' := hnum.start hfew hstart
  have hpid : f.pid = fs.length + 1 := hnum'.depths.1
  obtain ⟨io, hseeks, ⟨_, _, heq, -⟩ | ⟨f', k'', heq, hio, hrun, hpos⟩⟩ := Kernel.start_io hstart
  · cases heq
  · cases heq
    refine ⟨hnum', fun _ => hrun.trans hpid, ?_, ?_⟩
    · intro q hq fd h2 hfd
      show k'.io.filesTable q fd = {}
      rw [hio, Kernel.openStd_filesTable io hpos, if_neg (by omega), hseeks.others q (Or.inl rfl)]
      exact hvacant q (by rw [List.length_cons] at hq; omega) fd h2 hfd
    · show k'.io.Unnamed
      rw [hio]
      exact ((hn.seeks hseeks).openFd _ f.pid).openFd _ f.pid

theorem filesTable_boot (h : Boot env m) (q : ℕ) : m.kernel.io.filesTable q = fun _ => {} := by
  obtain ⟨-, io₁, io₂, hseeks, hkept, hio⟩ := boot_io h
  have hopen : ∀ (io : Io) pathname, (io.openFd pathname 0).2.filesTable q = io.filesTable q :=
    fun io pathname => Io.openFd_filesTable_other io pathname (Or.inl rfl)
  have hread : io₁.filesTable q = fun _ => {} := by
    rw [hseeks.others q (Or.inl rfl), mounting, hopen, (Io.seeks_printk _ _).others q (Or.inl rfl),
      hopen]
  rw [hio, hopen, hopen, hkept.others q (Or.inl rfl)]
  exact hread

theorem unnamed_boot (h : Boot env m) : m.kernel.io.Unnamed := by
  intro q fd
  rw [filesTable_boot h]

theorem tidySlots_boot (h : Boot env m) : TidySlots m := by
  have htables := filesTable_boot h
  have hunnamed := unnamed_boot h
  obtain ⟨amb, k, hk, rfl⟩ := h
  simp only [Kernel.startk, Option.bind_eq_bind, Option.bind_eq_some_iff, Option.some.injEq] at hk
  obtain ⟨io, -, rfl⟩ := hk
  refine ⟨⟨trivial, fun i _ => rfl⟩, fun hne => absurd rfl hne, ?_, hunnamed⟩
  intro q _ fd _ _
  rw [htables]

theorem tidySlots_init {amb : Ambient} {out : Option SyscallParam} (hm : TidySlots m)
    (h : m.step env (.init amb) = some (m', out)) : TidySlots m' := by
  obtain ⟨hnil, -, hstart⟩ := step_init h
  have hnum : Numbered (restarted m.kernel) [] := by
    refine ⟨trivial, fun i hi => ?_⟩
    simp only [restarted, Sched.initProcesses, if_pos hi]
    rfl
  have hvacant : ∀ q, ([] : List Frame).length ≤ q → Vacant (m.kernel.io.filesTable q) := by
    rw [← hnil]
    exact hm.vacant
  rcases hstart with ⟨rc, k, hstart, rfl⟩ | ⟨f, k, hstart, rfl⟩
  · obtain ⟨io, hseeks, ⟨_, _, heq, hio, hsched⟩ | ⟨_, _, heq, -⟩⟩ := Kernel.start_io hstart
    · cases heq
      refine ⟨hnum.congr hsched, fun hne => absurd rfl hne, ?_, ?_⟩
      · intro q hq
        show Vacant (k.io.filesTable q)
        rw [hio, hseeks.others q (Or.inl rfl)]
        exact hvacant q hq
      · show k.io.Unnamed
        rw [hio]
        exact Io.Unnamed.seeks hm.unnamed hseeks
    · cases heq
  · exact tidySlots_start hnum hvacant hm.unnamed (by decide) hstart

theorem tidySlots_exit {out : Option SyscallParam} (hm : TidySlots m)
    (htidy : Tidies m .exit) (h : m.step env .exit = some (m', out)) : TidySlots m' := by
  obtain ⟨k, frames⟩ := m
  obtain ⟨f, fs, rfl : frames = f :: fs, hret⟩ := step_exit h
  have hnum := hm.toNumbered.stop
  obtain ⟨hpid, hcur, -⟩ := hm.depths
  have hvacant : ∀ q, fs.length ≤ q → Vacant (k.io.filesTable q) := by
    intro q hq
    rcases Nat.eq_or_lt_of_le hq with heq | hlt
    · have hown := htidy.2 f rfl
      rw [hpid, Nat.add_sub_cancel, heq] at hown
      exact hown
    · exact hm.vacant q hlt
  rcases hret with ⟨hnone, rfl, -⟩ | ⟨pid, k', hsome, hfin, rfl, -⟩
  · refine ⟨hnum, fun hne => ?_, hvacant, hm.unnamed⟩
    rw [hnone, if_neg hne] at hcur
    cases hcur
  · obtain ⟨hnum', hrun⟩ := hnum.finish hfin
    obtain ⟨hio, -⟩ := Kernel.finishRun_running hfin
    refine ⟨hnum', fun hne => ?_, ?_, ?_⟩
    · rw [hsome, if_neg hne, Option.some.injEq] at hcur
      exact hrun.trans hcur
    · intro q hq
      show Vacant (k'.io.filesTable q)
      rw [hio]
      exact hvacant q hq
    · show k'.io.Unnamed
      rw [hio]
      exact hm.unnamed

theorem numbered_named (hm : TidySlots m) (request : SyscallParam) :
    Numbered (named m.kernel request) m.frames := hm.toNumbered.congr rfl

theorem tidySlots_sys {amb : Ambient} {service : ℕ} {request : SyscallParam}
    {out : Option SyscallParam} (hm : TidySlots m) (htidy : Tidies m (.sys amb service request))
    (h : m.step env (.sys amb service request) = some (m', out)) : TidySlots m' := by
  have hentered : (entered m.kernel request).io.Unnamed := hm.unnamed
  obtain ⟨hne, ⟨rfl, f, k, hstart, rfl, -⟩ | ⟨rfl, rc, k, k', hstart, hfin, rfl, -⟩ |
    ⟨hs, io, params, hd, rfl, -⟩⟩ := step_call h
  · rw [hm.running hne] at hstart
    have hstart' : (named m.kernel request).runProgramStart env amb
        (if m.frames = [] then none else some m.frames.length)
        (cstr (stoupper request.bytes)) = some (.started f k) := by
      rwa [if_neg hne]
    exact tidySlots_start (numbered_named hm request) hm.vacant hm.unnamed (htidy.2 rfl) hstart'
  · obtain ⟨io, hseeks, ⟨_, _, heq, hio, hsched⟩ | ⟨_, _, heq, -⟩⟩ := Kernel.start_io hstart
    · cases heq
      obtain ⟨hnum, hrun⟩ := ((numbered_named hm request).congr hsched).finish hfin
      obtain ⟨hsame, -⟩ := Kernel.finishRun_running hfin
      refine ⟨hnum, fun _ => hrun.trans (hm.running hne), ?_, ?_⟩
      · intro q hq
        show Vacant (k'.io.filesTable q)
        rw [hsame, hio, hseeks.others q (Or.inl rfl)]
        exact hm.vacant q hq
      · show k'.io.Unnamed
        rw [hsame, hio]
        exact Io.Unnamed.seeks hentered hseeks
    · cases heq
  · have hrunning : (entered m.kernel request).sched.runningProc = m.frames.length := hm.running hne
    have hpos : 1 ≤ (entered m.kernel request).sched.runningProc := by
      rw [hrunning]
      exact List.length_pos_iff.mpr hne
    have hsame : Io.SameFrom m.frames.length m.kernel.io (entered m.kernel request).io :=
      fun _ _ => rfl
    obtain ⟨k, heq, hkept⟩ := Kernel.stable_dispatch
      (Io.stableFor_sameFrom m.kernel.io hpos hrunning.le) hsame hs hd
    cases heq
    obtain ⟨k, heq, hn⟩ := Kernel.stable_dispatch
      (Io.stable_unnamed.forCaller (Nat.one_le_iff_ne_zero.mp hpos)) hentered hs hd
    cases heq
    refine ⟨hm.toNumbered.congr rfl, fun _ => hrunning, ?_, hn⟩
    intro q hq
    show Vacant (io.filesTable q)
    have hq' : io.filesTable q = m.kernel.io.filesTable q := hkept q hq
    rw [hq']
    exact hm.vacant q hq

theorem tidySlots_step (m : Sys) (e : Event) (m' : Sys) (hm : TidySlots m)
    (h : Guarded Tidies (Step env) m e m') : TidySlots m' := by
  obtain ⟨htidy, out, hstep⟩ := h
  cases e with
  | init amb => exact tidySlots_init hm hstep
  | sys amb service request => exact tidySlots_sys hm htidy hstep
  | exit => exact tidySlots_exit hm htidy hstep

theorem tidySlots_run (h0 : Boot env m) (h : Run (Guarded Tidies (Step env)) m es m') :
    TidySlots m' :=
  h.invariant TidySlots tidySlots_step (tidySlots_boot h0)

def Starts (env : Env) (m : Sys) (e : Event) (f : Frame) (m' : Sys) : Prop :=
  Step env m e m' ∧ m'.frames = f :: m.frames

theorem starts_cases {m' : Sys} (h : Starts env m e f m') :
    ∃ (amb : Ambient) (k : Kernel) (currPid : Option ℕ) (name : List UInt8),
      k.io.filesTable = m.kernel.io.filesTable ∧
        k.runProgramStart env amb currPid name = some (.started f m'.kernel) := by
  obtain ⟨⟨out, hstep⟩, hframes⟩ := h
  have hlonger : m'.frames.length = m.frames.length + 1 := by rw [hframes, List.length_cons]
  cases e with
  | init amb =>
    obtain ⟨hnil, -, ⟨rc, k, -, rfl⟩ | ⟨f', k, hstart, rfl⟩⟩ := step_init hstep
    · cases hframes
    · obtain ⟨rfl, -⟩ := List.cons.inj hframes
      exact ⟨amb, restarted m.kernel, none, _, rfl, hstart⟩
  | exit =>
    obtain ⟨f', frames, hold, ⟨-, rfl, -⟩ | ⟨pid, k, -, -, rfl, -⟩⟩ := step_exit hstep
    · rw [hold, List.length_cons] at hlonger
      dsimp only at hlonger
      omega
    · rw [hold, List.length_cons] at hlonger
      dsimp only at hlonger
      omega
  | sys amb service request =>
    obtain ⟨-, ⟨-, f', k, hstart, rfl, -⟩ | ⟨-, rc, k, k', -, -, rfl, -⟩ |
      ⟨-, io, params, -, rfl, -⟩⟩ := step_call hstep
    · obtain ⟨rfl, -⟩ := List.cons.inj hframes
      exact ⟨amb, named m.kernel request, _, _, rfl, hstart⟩
    · dsimp only at hlonger
      omega
    · dsimp only at hlonger
      omega

/-- The program finds a fresh table exactly when its slot was vacant. -/
theorem starts_fresh_iff {m' : Sys} (hn : m.kernel.io.Unnamed) (h : Starts env m e f m') :
    Fresh (m'.kernel.io.filesTable (f.pid - 1)) ↔ Vacant (m.kernel.io.filesTable (f.pid - 1)) := by
  obtain ⟨amb, k, currPid, name, hsame, hstart⟩ := starts_cases h
  have hunnamed : k.io.Unnamed := by
    intro q fd
    rw [hsame, hn q fd]
  obtain ⟨io, hseeks, ⟨_, _, heq, -⟩ | ⟨f', k', heq, hio, -, hpos⟩⟩ := Kernel.start_io hstart
  · cases heq
  · cases heq
    rw [hio, Kernel.openStd_fresh_iff (hunnamed.seeks hseeks) hpos,
      hseeks.others _ (Or.inl rfl), hsame]

theorem unnamed_reachable (h : Reachable env m) : m.kernel.io.Unnamed := by
  obtain ⟨m₀, es, hboot, hrun⟩ := h
  exact (settled_run Io.stable_unnamed hboot (unnamed_boot hboot) hrun).io

theorem TidySlots.starts {m' : Sys} (hm : TidySlots m) (htidy : Tidies m e)
    (h : Starts env m e f m') :
    f.pid = m.frames.length + 1 ∧ Fresh (m'.kernel.io.filesTable (f.pid - 1)) := by
  have hm' := tidySlots_step m e m' hm ⟨htidy, h.1⟩
  have hdepths := hm'.depths
  rw [h.2] at hdepths
  have hpid : f.pid = m.frames.length + 1 := hdepths.1
  refine ⟨hpid, (starts_fresh_iff hm.unnamed h).mpr ?_⟩
  rw [hpid, Nat.add_sub_cancel]
  exact hm.vacant _ (le_refl _)

/-- A reused slot. In any reachable state a program gets a fresh table exactly when its
slot is vacant; and after any two histories that leave the same programs alive, with
every program keeping to its table and leaving its slot vacant and no start without a free
slot, the next program gets the same slot and the same fresh table. -/
theorem reused_slot_fresh_iff (env : Env) :
    (∀ m e f m', Reachable env m → Starts env m e f m' →
      (Fresh (m'.kernel.io.filesTable (f.pid - 1)) ↔
        Vacant (m.kernel.io.filesTable (f.pid - 1)))) ∧
    ∀ m₀ n₀ es ds m n, Boot env m₀ → Boot env n₀ →
      Run (Guarded Tidies (Step env)) m₀ es m → Run (Guarded Tidies (Step env)) n₀ ds n →
      (∀ pid, pid ∈ m.frames.map Frame.pid ↔ pid ∈ n.frames.map Frame.pid) →
      ∀ e d f g m' n', Tidies m e → Tidies n d → Starts env m e f m' → Starts env n d g n' →
        f.pid = g.pid ∧ Fresh (m'.kernel.io.filesTable (f.pid - 1)) ∧
          Fresh (n'.kernel.io.filesTable (g.pid - 1)) := by
  refine ⟨fun m e f m' h hstarts => starts_fresh_iff (unnamed_reachable h) hstarts, ?_⟩
  intro m₀ n₀ es ds m n hm₀ hn₀ hm hn hlive e d f g m' n' htidy htidy' hstarts hstarts'
  have htidyM := tidySlots_run hm₀ hm
  have htidyN := tidySlots_run hn₀ hn
  have hsame := htidyM.depths.length_eq htidyN.depths hlive
  obtain ⟨hpid, hfresh⟩ := htidyM.starts htidy hstarts
  obtain ⟨hpid', hfresh'⟩ := htidyN.starts htidy' hstarts'
  exact ⟨by rw [hpid, hpid', hsame], hfresh, hfresh'⟩

def exited : Sys := (exec (.ofVolume floppy) [.exit] twoLive).get (by decide +kernel)

def calledAgain : Sys :=
  (exec (.ofVolume floppy) [.sys calm 7 callInit] exited).get (by decide +kernel)

def callee : Frame := ⟨some 1, 2, 0x3000⟩

theorem callee_slot : callee.pid - 1 = 1 := rfl

theorem frames_oneLive : oneLive.frames = [⟨none, 1, 0x2000⟩] := by
  decide +kernel

theorem starts_twoLive :
    Starts (.ofVolume floppy) oneLive (.sys calm 7 callInit) callee twoLive :=
  ⟨step_twoLive, by rw [frames_twoLive, frames_oneLive]; rfl⟩

theorem starts_calledAgain :
    Starts (.ofVolume floppy) exited (.sys calm 7 callInit) callee calledAgain :=
  ⟨step_of_exec (Option.some_get _).symm, by decide +kernel⟩

theorem run_oneLive : Run (Guarded Tidies (Step (.ofVolume floppy))) booted [.init calm] oneLive :=
  .single ⟨⟨trivial, trivial⟩, step_oneLive⟩

theorem tidies_oneLive : Tidies oneLive (.sys calm 7 callInit) := by
  refine ⟨by decide +kernel, ?_⟩
  intro _
  rw [frames_oneLive]
  decide

theorem frames_exited : exited.frames = oneLive.frames := by
  decide +kernel

theorem tidies_exited : Tidies exited (.sys calm 7 callInit) := by
  refine ⟨by decide +kernel, ?_⟩
  intro _
  rw [frames_exited, frames_oneLive]
  decide

theorem run_exited : Run (Guarded Tidies (Step (.ofVolume floppy))) booted
    [.init calm, .sys calm 7 callInit, .exit] exited := by
  have hexit : Step (.ofVolume floppy) twoLive .exit exited := step_of_exec (Option.some_get _).symm
  refine .cons ⟨⟨trivial, trivial⟩, step_oneLive⟩
    (.cons ⟨tidies_oneLive, step_twoLive⟩ (.single ⟨⟨trivial, ?_⟩, hexit⟩))
  intro f hf
  have hframe : f = callee := by
    rw [starts_twoLive.2] at hf
    exact (Option.some.inj hf).symm
  have hfresh := ((tidySlots_run boot_booted run_oneLive).starts tidies_oneLive starts_twoLive).2
  rw [hframe]
  exact hfresh.vacant

theorem reused_slot_fresh_iff_exited :
    Fresh (twoLive.kernel.io.filesTable 1) ∧ Fresh (calledAgain.kernel.io.filesTable 1) := by
  have hlive : ∀ pid, pid ∈ oneLive.frames.map Frame.pid ↔ pid ∈ exited.frames.map Frame.pid := by
    intro pid
    rw [frames_exited]
  rw [← callee_slot]
  exact ((reused_slot_fresh_iff _).2 _ _ _ _ _ _ boot_booted boot_booted run_oneLive run_exited hlive
    _ _ _ _ _ _ tidies_oneLive tidies_exited starts_twoLive starts_calledAgain).2

def openDisk : SyscallParam :=
  ⟨ascii "/dev/fdb" ++ List.replicate 568 0, by decide +kernel⟩

/-- The called `INIT` has opened the floppy and exited without closing it. -/
def leftOpen : Sys :=
  (exec (.ofVolume floppy) [.sys calm 10 openDisk, .exit] twoLive).get (by decide +kernel)

def calledAfter : Sys :=
  (exec (.ofVolume floppy) [.sys calm 7 callInit] leftOpen).get (by decide +kernel)

/-- The next program in the slot finds descriptor 4 open. -/
theorem reused_slot_not_fresh : ¬ ∀ env m₀ n₀ es ds m n, Boot env m₀ → Boot env n₀ →
    Run (Step env) m₀ es m → Run (Step env) n₀ ds n →
    (∀ pid, pid ∈ m.frames.map Frame.pid ↔ pid ∈ n.frames.map Frame.pid) →
    ∀ e f g m' n', Starts env m e f m' → Starts env n e g n' → ∀ fd : ℤ, 0 ≤ fd → fd < NUM_FILES →
      m'.kernel.io.filesTable (f.pid - 1) fd = n'.kernel.io.filesTable (g.pid - 1) fd := by
  intro hlaw
  have hrun : Run (Step (.ofVolume floppy)) twoLive [.sys calm 10 openDisk, .exit] leftOpen :=
    run_of_exec (Option.some_get _).symm
  have hframes : leftOpen.frames = oneLive.frames := by decide +kernel
  have hstarts : Starts (.ofVolume floppy) leftOpen (.sys calm 7 callInit) callee calledAfter :=
    ⟨step_of_exec (Option.some_get _).symm, by decide +kernel⟩
  have hsame := hlaw _ booted booted _ _ oneLive leftOpen boot_booted boot_booted
    (.single step_oneLive) (.cons step_oneLive (.cons step_twoLive hrun))
    (fun pid => by rw [hframes]) _ _ _ _ _ starts_twoLive hstarts
  have hfour : twoLive.kernel.io.filesTable 1 4 ≠ calledAfter.kernel.io.filesTable 1 4 := by
    decide +kernel
  rw [callee_slot] at hsame
  exact hfour (hsame 4 (by decide) (by simp [NUM_FILES]))

end Sys

end RML
