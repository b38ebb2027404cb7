import RML.Proofs.Launch
import RML.Proofs.Segments

/-! The shape of the system at every moment a program runs: the pending frames,
innermost first, number the occupied slots 0 to k-1 from the outside in, and their
segments are what the allocator has given out. -/

namespace RML

open Bytes Transition

/-- The frames and the slots they occupy. The outermost frame is `startk`'s. -/
def Live (procs : ℕ → ProcessDesc) : List Frame → Prop
  | [] => True
  | f :: fs =>
    f.pid = fs.length + 1 ∧ f.currPid = (if fs = [] then none else some fs.length) ∧
      UserSeg f.segment ∧ f.segment ∉ fs.map Frame.segment ∧
      (procs fs.length).pid = fs.length + 1 ∧ (procs fs.length).ppid = fs.length ∧
      (procs fs.length).cs = f.segment ∧ Live procs fs

/-- What the kernel holds for the programs of `fs`, whoever runs. -/
structure Held (k : Kernel) (fs : List Frame) : Prop where
  live : Live k.sched.processes fs
  free : ∀ i, fs.length ≤ i → i < NUM_PROCESSES → (k.sched.processes i).pid = 0
  ready : ∀ i, i + 1 < fs.length → (k.sched.processes i).state = .READY
  seg : k.segArr = ownedBy (fs.map Frame.segment)

/-- While a program runs, it is the innermost one. -/
structure Chain (m : Sys) : Prop extends Held m.kernel m.frames where
  running : m.frames ≠ [] → m.kernel.sched.runningProc = m.frames.length ∧
    (m.kernel.sched.processes (m.frames.length - 1)).state = .RUNNING

theorem Live.nodup {procs : ℕ → ProcessDesc} {fs : List Frame} (h : Live procs fs) :
    (fs.map Frame.segment).Nodup := by
  induction fs with
  | nil => exact List.nodup_nil
  | cons f fs ih =>
    obtain ⟨-, -, -, hnot, -, -, -, hfs⟩ := h
    rw [List.map_cons, List.nodup_cons]
    exact ⟨hnot, ih hfs⟩

theorem Live.userSeg {procs : ℕ → ProcessDesc} {fs : List Frame} (h : Live procs fs) :
    ∀ s ∈ fs.map Frame.segment, UserSeg s := by
  induction fs with
  | nil => simp
  | cons f fs ih =>
    obtain ⟨-, -, hu, -, -, -, -, hfs⟩ := h
    intro s hs
    rcases List.mem_cons.mp hs with rfl | hs
    · exact hu
    · exact ih hfs s hs

theorem Live.length_le {procs : ℕ → ProcessDesc} {fs : List Frame} (h : Live procs fs) :
    fs.length ≤ 8 := by
  simpa using length_le_of_userSegs h.nodup h.userSeg

theorem Live.slot {procs : ℕ → ProcessDesc} {fs : List Frame} (h : Live procs fs) {i : ℕ}
    (hi : i < fs.length) :
    (procs i).pid = i + 1 ∧ (procs i).ppid = i ∧ (procs i).cs ∈ fs.map Frame.segment := by
  induction fs with
  | nil => simp at hi
  | cons f fs ih =>
    obtain ⟨-, -, -, -, hpid, hppid, hcs, hfs⟩ := h
    rw [List.length_cons] at hi
    rcases Nat.lt_or_ge i fs.length with hlt | hge
    · obtain ⟨h1, h2, h3⟩ := ih hfs hlt
      exact ⟨h1, h2, List.mem_cons_of_mem _ h3⟩
    · have heq : i = fs.length := by omega
      subst heq
      exact ⟨hpid, hppid, by rw [hcs]; exact List.mem_cons_self⟩

theorem Live.congr {procs procs' : ℕ → ProcessDesc} {fs : List Frame} (h : Live procs fs)
    (heq : ∀ i < fs.length, (procs' i).pid = (procs i).pid ∧ (procs' i).ppid = (procs i).ppid ∧
      (procs' i).cs = (procs i).cs) : Live procs' fs := by
  induction fs with
  | nil => exact trivial
  | cons f fs ih =>
    obtain ⟨h1, h2, h3, h4, h5, h6, h7, hfs⟩ := h
    obtain ⟨e1, e2, e3⟩ := heq fs.length (by simp)
    refine ⟨h1, h2, h3, h4, e1.trans h5, e2.trans h6, e3.trans h7, ih hfs fun i hi => heq i ?_⟩
    rw [List.length_cons]
    omega

namespace Sched

theorem registerProc_eq {s : Sched} {n : ℕ} (hlt : n < NUM_PROCESSES)
    (hocc : ∀ i < n, (s.processes i).pid ≠ 0) (hfree : (s.processes n).pid = 0)
    (name : List UInt8) (cs ds ss entry ppid size : ℕ) :
    s.registerProc name cs ds ss entry ppid size = some (n + 1, s.modify n fun p => { p with
      pid := n + 1, cs := cs, ds := ds, ss := ss, state := .READY, ip := entry,
      ppid := ppid, size := size, name := name }) := by
  have hfind : (List.range NUM_PROCESSES).find? (fun i => (s.processes i).pid = 0) = some n := by
    rw [List.find?_range_eq_some]
    refine ⟨by simpa using hfree, List.mem_range.mpr hlt, ?_⟩
    intro i hi
    simpa using hocc i hi
  simp only [registerProc, hfind, Option.map_some]

theorem setRunningProc_eq (s : Sched) (pid : ℕ) (h1 : 1 ≤ pid) (h2 : pid ≤ NUM_PROCESSES) :
    ∃ s', s.setRunningProc pid = some s' ∧ s'.runningProc = pid ∧
      ∀ i, s'.processes i = { s.processes i with
        state := if i = pid - 1 then .RUNNING
          else if s.runningProc ≠ 0 ∧ i = s.runningProc - 1 then .READY
          else (s.processes i).state } := by
  simp only [setRunningProc, h1, h2, and_self, if_true]
  refine ⟨_, rfl, rfl, fun i => ?_⟩
  by_cases hr : s.runningProc = 0
  · simp only [hr, ne_eq, not_true_eq_false, if_false, false_and, modify_processes]
    split_ifs with hi
    · rw [hi]
    · rfl
  · simp only [hr, ne_eq, not_false_eq_true, if_true, true_and, modify_processes]
    split_ifs with h3 h4 h5 <;> simp_all

end Sched

theorem Held.congr {k k' : Kernel} {fs : List Frame} (h : Held k fs) (hs : k'.sched = k.sched)
    (hseg : k'.segArr = k.segArr) : Held k' fs := by
  obtain ⟨h1, h2, h3, h4⟩ := h
  exact ⟨by rwa [hs], by rwa [hs], by rwa [hs], by rw [hseg, h4]⟩

theorem Chain.congr {k k' : Kernel} {fs : List Frame} (h : Chain ⟨k, fs⟩) (hs : k'.sched = k.sched)
    (hseg : k'.segArr = k.segArr) : Chain ⟨k', fs⟩ :=
  ⟨h.toHeld.congr hs hseg, by simpa only [hs] using h.running⟩

theorem Held.running {k k' : Kernel} {fs : List Frame} {retcode : ℕ} (h : Held k fs)
    (hne : fs ≠ []) (hfin : k.finishRun fs.length retcode = some k') : Chain ⟨k', fs⟩ := by
  obtain ⟨hlive, hfree, hready, hseg⟩ := h
  have hpos : 0 < fs.length := List.length_pos_iff.mpr hne
  have hle := hlive.length_le
  obtain ⟨sched, hset, rfl⟩ := Kernel.finishRun_cases hfin
  obtain ⟨sched', hset', hrun, hprocs⟩ := Sched.setRunningProc_eq k.sched fs.length hpos
    (by simp only [NUM_PROCESSES]; omega)
  rw [hset, Option.some.injEq] at hset'
  subst hset'
  refine ⟨⟨?_, ?_, ?_, hseg⟩, fun _ => ⟨hrun, by simp [hprocs]⟩⟩
  · exact hlive.congr fun i _ => by simp [hprocs]
  · intro i hi hi9
    simpa [hprocs] using hfree i hi hi9
  · intro i hi
    have hi1 : i ≠ fs.length - 1 := by
      simp only at hi
      omega
    simp [hprocs, hi1, hready i hi]

/-- A program on a segment of its own, in the slot behind the occupied ones, extends the chain
when the table is otherwise as it was but for the caller, which is ready again. -/
theorem Held.push {k k' : Kernel} {fs : List Frame} {s : ℕ} (hc : Held k fs) (hu : UserSeg s)
    (hnot : s ∉ fs.map Frame.segment) (hseg : k'.segArr = ownedBy (s :: fs.map Frame.segment))
    (hrun : k'.sched.runningProc = fs.length + 1)
    (hpid : (k'.sched.processes fs.length).pid = fs.length + 1)
    (hppid : (k'.sched.processes fs.length).ppid = fs.length)
    (hcs : (k'.sched.processes fs.length).cs = s)
    (hstate : (k'.sched.processes fs.length).state = .RUNNING)
    (hold : ∀ i, i ≠ fs.length → k'.sched.processes i = { k.sched.processes i with
      state := if i + 1 = fs.length then .READY else (k.sched.processes i).state }) :
    Chain ⟨k', ⟨if fs = [] then none else some fs.length, fs.length + 1, s⟩ :: fs⟩ := by
  refine ⟨⟨?_, ?_, ?_, hseg⟩, fun _ => ⟨hrun, hstate⟩⟩
  · refine ⟨rfl, rfl, hu, hnot, hpid, hppid, hcs, hc.live.congr fun i hi => ?_⟩
    rw [hold i hi.ne]
    exact ⟨rfl, rfl, rfl⟩
  · intro i hi hi9
    rw [List.length_cons] at hi
    rw [hold i (by omega)]
    exact hc.free i (by omega) hi9
  · intro i hi
    rw [List.length_cons] at hi
    rw [hold i (by omega)]
    by_cases hlast : i + 1 = fs.length
    · exact if_pos hlast
    · exact (if_neg hlast).trans (hc.ready i (by omega))

theorem Held.register {k : Kernel} {fs : List Frame} (hc : Held k fs)
    (hlt : fs.length < NUM_PROCESSES) (hrun : k.sched.runningProc = fs.length)
    (name : List UInt8) (s size : ℕ) :
    ∃ sched sched', k.sched.registerProc name s s s 0 k.sched.runningProc size =
        some (fs.length + 1, sched) ∧ sched.setRunningProc (fs.length + 1) = some sched' ∧
      sched'.runningProc = fs.length + 1 ∧
      (sched'.processes fs.length).pid = fs.length + 1 ∧
      (sched'.processes fs.length).ppid = fs.length ∧ (sched'.processes fs.length).cs = s ∧
      (sched'.processes fs.length).state = .RUNNING ∧
      ∀ i, i ≠ fs.length → sched'.processes i = { k.sched.processes i with
        state := if i + 1 = fs.length then .READY else (k.sched.processes i).state } := by
  have hregister := Sched.registerProc_eq hlt (fun i hi => by rw [(hc.live.slot hi).1]; omega)
    (hc.free fs.length le_rfl hlt) name s s s 0 k.sched.runningProc size
  obtain ⟨sched', hset, hrun', hprocs⟩ := Sched.setRunningProc_eq
    (k.sched.modify fs.length fun p => { p with
      pid := fs.length + 1, cs := s, ds := s, ss := s, state := .READY, ip := 0,
      ppid := k.sched.runningProc, size := size, name := name })
    (fs.length + 1) (by omega) (by omega)
  simp only [Sched.modify_processes, Sched.modify_runningProc, Nat.add_sub_cancel] at hprocs
  refine ⟨_, sched', hregister, hset, hrun', ?_, ?_, ?_, ?_, ?_⟩
  · simp [hprocs]
  · simp [hprocs, hrun]
  · simp [hprocs]
  · simp [hprocs]
  · intro i hne
    have hcaller : k.sched.runningProc ≠ 0 ∧ i = k.sched.runningProc - 1 ↔ i + 1 = fs.length := by
      omega
    rw [hprocs]
    simp only [if_neg hne, hcaller]

/-- What `run_program` does below eight live programs: it refuses and leaves the
allocator and the table alone, or the new program extends the chain. -/
theorem Held.start {env : Env} {amb : Ambient} {k : Kernel} {fs : List Frame} {name : List UInt8}
    {r : Kernel.RunResult} (hc : Held k fs) (hlt : fs.length < 8)
    (hrun : k.sched.runningProc = fs.length)
    (h : k.runProgramStart env amb (if fs = [] then none else some fs.length) name = some r) :
    (∃ k', r = .returned 1 k' ∧ k'.segArr = k.segArr ∧ k'.sched = k.sched) ∨
      ∃ f k', r = .started f k' ∧ Chain ⟨k', f :: fs⟩ := by
  rcases getFreeSeg_cases (fs.map Frame.segment) amb.seg with ⟨s, hu, hnot, hget⟩ | ⟨hall, -⟩
  swap
  · have hfull := (all_owned_iff hc.live.nodup hc.live.userSeg).mp hall
    rw [List.length_map] at hfull
    omega
  rw [← hc.seg] at hget
  rcases Kernel.runProgramStart_cases hget h with
    ⟨io, -, rfl⟩ | ⟨file, io, io', mem, pid, sched, -, -, hreg, rfl⟩
  · refine Or.inl ⟨_, rfl, ?_, rfl⟩
    rw [hc.seg]
    exact releaseSeg_ownedBy hu hnot
  · obtain ⟨sched₁, sched₂, hregister, hset', hrun', hpid, hppid, hcs, hstate, hold⟩ :=
      hc.register (by simp only [NUM_PROCESSES]; omega) hrun name s file.fileSize
    rcases hreg with ⟨hnone, -⟩ | ⟨sched', heq, hset⟩
    · cases hnone.symm.trans hregister
    cases heq.symm.trans hregister
    cases hset.symm.trans hset'
    exact Or.inr ⟨_, _, rfl, hc.push hu hnot rfl hrun' hpid hppid hcs hstate hold⟩

theorem Held.stop {k : Kernel} {f : Frame} {fs : List Frame} (h : Held k (f :: fs)) :
    Held (k.runProgramEnd f) fs := by
  obtain ⟨⟨hpid, -, hu, hnot, -, -, -, hlive⟩, hfree, hready, hseg⟩ := h
  have hprocs : ∀ i, (k.runProgramEnd f).sched.processes i =
      if i = fs.length then { k.sched.processes fs.length with pid := 0 }
      else k.sched.processes i := by
    intro i
    simp only [Kernel.runProgramEnd, Sched.unregisterProc, hpid, Nat.add_sub_cancel,
      Sched.modify_processes]
  refine ⟨?_, ?_, ?_, ?_⟩
  · refine hlive.congr fun i hi => ?_
    have hne : i ≠ fs.length := by omega
    simp [hprocs, hne]
  · intro i hi hi9
    rw [hprocs]
    split_ifs with heq
    · rfl
    · exact hfree i (by rw [List.length_cons]; omega) hi9
  · intro i hi
    have hne : i ≠ fs.length := by omega
    simp only [hprocs, hne, if_false]
    exact hready i (by rw [List.length_cons]; omega)
  · simp only [Kernel.runProgramEnd, hseg, List.map_cons]
    exact releaseSeg_ownedBy hu hnot

namespace Sys

variable {env : Env} {m m' : Sys} {amb : Ambient} {service : ℕ} {request : SyscallParam}
  {out : Option SyscallParam}

theorem nested : Nested (Step env) Sys.frames := by
  rintro m e m' ⟨out, h⟩
  cases e with
  | init amb =>
    obtain ⟨hnil, -, ⟨rc, k, -, rfl⟩ | ⟨f, k, -, rfl⟩⟩ := step_init h
    · exact Or.inl hnil.symm
    · exact Or.inr (Or.inl ⟨f, by rw [hnil]⟩)
  | sys amb service request =>
    obtain ⟨-, ⟨f, k, -, rfl, -⟩ | ⟨k, -, rfl, -⟩⟩ := step_sys h
    · exact Or.inr (Or.inl ⟨f, rfl⟩)
    · exact Or.inl rfl
  | exit =>
    obtain ⟨f, frames, hframes, ⟨-, rfl, -⟩ | ⟨pid, k, -, -, rfl, -⟩⟩ := step_exit h
    · exact Or.inr (Or.inr ⟨f, hframes⟩)
    · exact Or.inr (Or.inr ⟨f, hframes⟩)

theorem chain_boot (h : Boot env m) : Chain m := by
  obtain ⟨amb, k, hk, rfl⟩ := h
  simp only [Kernel.startk, Option.bind_eq_bind, Option.bind_eq_some_iff, Option.some.injEq] at hk
  obtain ⟨io, -, rfl⟩ := hk
  refine ⟨⟨trivial, fun i _ _ => rfl, ?_, initSeg_eq⟩, fun hne => absurd rfl hne⟩
  intro i hi
  simp at hi

theorem chain_init (hc : Chain m) (h : m.step env (.init amb) = some (m', out)) : Chain m' := by
  obtain ⟨hnil, -, hrun⟩ := step_init h
  have hheld : Held (restarted m.kernel) [] := by
    refine ⟨trivial, ?_, ?_, ?_⟩
    · intro i _ hi9
      simp only [restarted, Sched.initProcesses, if_pos hi9]
    · intro i hi
      simp at hi
    · rw [← hnil]
      exact hc.seg
  rcases hrun with ⟨rc, k, hstart, rfl⟩ | ⟨f, k, hstart, rfl⟩
  · rcases hheld.start (by decide) rfl hstart with ⟨k', heq, hseg, hsched⟩ | ⟨f, k', heq, -⟩
    · cases heq
      exact ⟨hheld.congr hsched hseg, fun hne => absurd rfl hne⟩
    · cases heq
  · rcases hheld.start (by decide) rfl hstart with ⟨k', heq, -⟩ | ⟨f, k', heq, hchain⟩
    · cases heq
    · cases heq
      exact hchain

theorem chain_exit (hc : Chain m) (h : m.step env .exit = some (m', out)) : Chain m' := by
  obtain ⟨k, frames⟩ := m
  obtain ⟨f, fs, rfl : frames = f :: fs, hret⟩ := step_exit h
  have hheld := hc.toHeld.stop
  have hcur := hc.live.2.1
  rcases hret with ⟨hnone, rfl, -⟩ | ⟨pid, k', hsome, hfin, rfl, -⟩
  · have hnil : fs = [] := by
      by_contra hne
      rw [hnone, if_neg hne] at hcur
      cases hcur
    subst hnil
    exact ⟨hheld, fun hne => absurd rfl hne⟩
  · have hne : fs ≠ [] := by
      intro hnil
      rw [hsome, if_pos hnil] at hcur
      cases hcur
    rw [hsome, if_neg hne, Option.some.injEq] at hcur
    subst hcur
    exact hheld.running hne hfin

/-- A system call keeps the chain when `run_program`, if that is the call, can only
refuse cleanly or extend it. -/
theorem chain_sys (hc : Chain m)
    (hstart : service = 7 → ∀ r, (named m.kernel request).runProgramStart env amb
        (some m.frames.length) (cstr (stoupper request.bytes)) = some r →
      (∃ k, r = .returned 1 k ∧ k.segArr = m.kernel.segArr ∧ k.sched = m.kernel.sched) ∨
        ∃ f k, r = .started f k ∧ Chain ⟨k, f :: m.frames⟩)
    (h : m.step env (.sys amb service request) = some (m', out)) : Chain m' := by
  obtain ⟨hne, ⟨rfl, f, k, hrun, rfl, -⟩ | ⟨rfl, rc, k, k', hrun, hfin, rfl, -⟩ |
    ⟨-, io, params, -, rfl, -⟩⟩ := step_call h
  · rw [(hc.running hne).1] at hrun
    rcases hstart rfl _ hrun with ⟨k', heq, -⟩ | ⟨f', k', heq, hchain⟩
    · cases heq
    · cases heq
      exact hchain
  · rw [(hc.running hne).1] at hrun hfin
    rcases hstart rfl _ hrun with ⟨k₁, heq, hseg, hsched⟩ | ⟨f', k₁, heq, -⟩
    · cases heq
      exact (hc.toHeld.congr hsched hseg).running hne hfin
    · cases heq
  · exact Chain.congr hc rfl rfl

/-- `run_program` is only called while fewer than eight programs live. -/
def Roomy (m : Sys) : Event → Prop
  | .sys _ service _ => service = 7 → m.frames.length < 8
  | _ => True

/-- Nor does a call leave the descriptor tables or `params`. -/
def Orderly (m : Sys) (e : Event) : Prop := Roomy m e ∧ e.InBounds

theorem roomy_of_orderly {es : List Event} (h : Run (Guarded Orderly (Step env)) m es m') :
    Run (Guarded Roomy (Step env)) m es m' :=
  h.mono fun _ _ _ hstep => ⟨hstep.1.1, hstep.2⟩

theorem orderly_of_inBounds {es : List Event} (h : Run (Guarded Roomy (Step env)) m es m')
    (hes : ∀ e ∈ es, e.InBounds) : Run (Guarded Orderly (Step env)) m es m' := by
  induction h with
  | nil m => exact .nil m
  | cons hstep _ ih =>
    rw [List.forall_mem_cons] at hes
    exact .cons ⟨⟨hstep.1, hes.1⟩, hstep.2⟩ (ih hes.2)

theorem chain_step (m : Sys) (e : Event) (m' : Sys) (hc : Chain m)
    (h : Guarded Roomy (Step env) m e m') : Chain m' := by
  obtain ⟨hroom, out, hstep⟩ := h
  cases e with
  | init amb => exact chain_init hc hstep
  | exit => exact chain_exit hc hstep
  | sys amb service request =>
    refine chain_sys hc ?_ hstep
    intro hs r hr
    obtain ⟨hne, -⟩ := step_sys hstep
    have hheld : Held (named m.kernel request) m.frames := hc.toHeld.congr rfl rfl
    have hr' : (named m.kernel request).runProgramStart env amb
        (if m.frames = [] then none else some m.frames.length)
        (cstr (stoupper request.bytes)) = some r := by
      rwa [if_neg hne]
    exact hheld.start (hroom hs) (hc.running hne).1 hr'

theorem chain_run {es : List Event} (h0 : Boot env m)
    (h : Run (Guarded Roomy (Step env)) m es m') : Chain m' :=
  h.invariant Chain chain_step (chain_boot h0)

end Sys

end RML
