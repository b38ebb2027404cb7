import RML.Proofs.Chain
import RML.Spec.Volume

/-! Who owns which segment and who is whose parent, at every moment of a run made
of system calls and exits in which `run_program` meets fewer than eight live
programs. Both come from the chain of `Proofs.Chain`; a call that returns finds
the frames it left, and with them the same chain. -/

namespace RML

open Bytes Transition

theorem Live.segments {procs : ℕ → ProcessDesc} {fs : List Frame} (h : Live procs fs) :
    fs.map Frame.segment = ((List.range fs.length).map fun i => (procs i).cs).reverse := by
  induction fs with
  | nil => rfl
  | cons f fs ih =>
    obtain ⟨-, -, -, -, -, -, hcs, hfs⟩ := h
    rw [List.map_cons, List.length_cons, List.range_succ, List.map_append, List.reverse_append,
      ih hfs, List.map_singleton, List.reverse_singleton, hcs, List.singleton_append]

theorem UserSeg.unreserved {s : ℕ} (h : UserSeg s) : s ≠ 0x0000 ∧ s ≠ 0x1000 := by
  obtain ⟨i, h2, -, rfl⟩ := h
  omega

/-- The addresses `seg_arr` marks as used. -/
def SegArr.inUse (segArr : SegArr) : Set ℕ :=
  {s | ∃ i < NUM_SEG, (segArr i).used = 1 ∧ (segArr i).address = s}

theorem inUse_ownedBy {segs : List ℕ} (hu : ∀ s ∈ segs, UserSeg s) :
    SegArr.inUse (ownedBy segs) = {0x0000, 0x1000} ∪ {s | s ∈ segs} := by
  ext s
  simp only [SegArr.inUse, Set.mem_ofPred_eq, Set.mem_union, Set.mem_insert_iff,
    Set.mem_singleton_iff]
  constructor
  · rintro ⟨i, hi, hused, rfl⟩
    rw [ownedBy_address segs hi]
    by_contra hnot
    simp only [not_or] at hnot
    rw [(ownedBy_free_iff segs hi).mpr ⟨by omega, hnot.2⟩] at hused
    omega
  · intro hs
    have hentry : ∃ i < NUM_SEG, s = 0x1000 * i := by
      rcases hs with (rfl | rfl) | hs
      · exact ⟨0, by decide, rfl⟩
      · exact ⟨1, by decide, rfl⟩
      · obtain ⟨i, -, hi, heq⟩ := hu s hs
        exact ⟨i, hi, heq⟩
    obtain ⟨i, hi, rfl⟩ := hentry
    refine ⟨i, hi, ?_, ownedBy_address segs hi⟩
    rw [ownedBy_used segs hi, if_pos]
    rcases hs with hs | hs
    · exact Or.inl (by omega)
    · exact Or.inr hs

namespace Sys

variable {env : Env} {m₀ m m' : Sys} {es : List Event}

def segments (m : Sys) : List ℕ := m.frames.map Frame.segment

/-- `run_program`, called in `m`, has come back in `m'`: at once, or after the
program it started and all that this one called. -/
def CallReturned (env : Env) (m m' : Sys) : Prop :=
  (∃ e, Guarded Roomy (Step env) m e m' ∧ m'.frames.length = m.frames.length) ∨
    Returns (Guarded Roomy (Step env)) Sys.frames m m'

theorem CallReturned.run (h : CallReturned env m m') :
    m'.frames = m.frames ∧ ∃ es, Run (Guarded Roomy (Step env)) m es m' := by
  have hn : Nested (Guarded Roomy (Step env)) Sys.frames := nested.guarded Roomy
  rcases h with ⟨e, hstep, hlen⟩ | hret
  · refine ⟨?_, [e], .single hstep⟩
    rcases hn m e m' hstep with heq | ⟨f, hpush⟩ | ⟨f, hpop⟩
    · exact heq
    · rw [hpush, List.length_cons] at hlen
      omega
    · rw [hpop, List.length_cons] at hlen
      omega
  · exact ⟨hret.same_stack hn, hret.run⟩

theorem CallReturned.chain (h : CallReturned env m m') (hc : Chain m) :
    Chain m' ∧ m'.frames = m.frames := by
  obtain ⟨hframes, es, hrun⟩ := h.run
  exact ⟨hrun.invariant Chain chain_step hc, hframes⟩

theorem roomy_of_short (h : Run (Step env) m es m') (hlen : m.frames.length + es.length ≤ 8) :
    Run (Guarded Roomy (Step env)) m es m' := by
  induction h with
  | nil m => exact .nil m
  | @cons m e m₁ es m' hstep _ ih =>
    rw [List.length_cons] at hlen
    have hgrow : m₁.frames.length ≤ m.frames.length + 1 := by
      rcases nested m e m₁ hstep with heq | ⟨f, hpush⟩ | ⟨f, hpop⟩
      · rw [heq]
        omega
      · rw [hpush, List.length_cons]
      · rw [hpop, List.length_cons]
        omega
    refine .cons ⟨?_, hstep⟩ (ih (by omega))
    cases e with
    | sys amb service request =>
      intro _
      omega
    | init amb => trivial
    | exit => trivial

/-- `startk` has mounted a volume. -/
def bootedFrom (v : Volume) (h : (Kernel.startk (.ofVolume v) calm).isSome) : Sys :=
  ⟨(Kernel.startk (.ofVolume v) calm).get h, []⟩

theorem reachable_bootedFrom (v : Volume) (h : (Kernel.startk (.ofVolume v) calm).isSome) :
    Reachable (.ofVolume v) (bootedFrom v h) :=
  ⟨bootedFrom v h, [], ⟨calm, _, (Option.some_get h).symm, rfl⟩, .nil _⟩

/-- `startk` has mounted the floppy and is about to run `INIT`. -/
def booted : Sys :=
  ⟨(Kernel.startk (.ofVolume floppy) calm).get (by decide +kernel), []⟩

theorem boot_booted : Boot (.ofVolume floppy) booted :=
  ⟨calm, _, (Option.some_get _).symm, rfl⟩

def callInit : SyscallParam :=
  ⟨ascii "init" ++ List.replicate 572 0, by decide +kernel⟩

def oneLive : Sys := (exec (.ofVolume floppy) [.init calm] booted).get (by decide +kernel)

theorem step_oneLive : Step (.ofVolume floppy) booted (.init calm) oneLive :=
  step_of_exec (Option.some_get _).symm

/-- `INIT` has called `INIT`. -/
def twoLive : Sys :=
  (exec (.ofVolume floppy) [.sys calm 7 callInit] oneLive).get (by decide +kernel)

theorem step_twoLive : Step (.ofVolume floppy) oneLive (.sys calm 7 callInit) twoLive :=
  step_of_exec (Option.some_get _).symm

theorem frames_twoLive :
    twoLive.frames = [⟨some 1, 2, 0x3000⟩, ⟨none, 1, 0x2000⟩] := by
  decide +kernel

theorem run_twoLive : Run (Guarded Roomy (Step (.ofVolume floppy))) booted
    [.init calm, .sys calm 7 callInit] twoLive :=
  roomy_of_short (.cons step_oneLive (.single step_twoLive)) (by decide +kernel)

theorem orderly_twoLive : Run (Guarded Orderly (Step (.ofVolume floppy))) booted
    [.init calm, .sys calm 7 callInit] twoLive :=
  orderly_of_inBounds run_twoLive (by decide +kernel)

/-- Segment ownership: the live programs own different segments, none of the two
reserved ones, and with these exactly the used entries of `seg_arr`, which
every call of `run_program` leaves as it found it. -/
theorem segment_ownership (h0 : Boot env m₀) (h : Run (Guarded Roomy (Step env)) m₀ es m) :
    m.segments = ((List.range m.frames.length).map fun i =>
        (m.kernel.sched.processes i).cs).reverse ∧
      m.segments.Nodup ∧
      (∀ s ∈ m.segments, s ≠ 0x0000 ∧ s ≠ 0x1000) ∧
      m.kernel.segArr.inUse = {0x0000, 0x1000} ∪ {s | s ∈ m.segments} ∧
      ∀ m', CallReturned env m m' → m'.kernel.segArr = m.kernel.segArr := by
  have hc := chain_run h0 h
  refine ⟨hc.live.segments, hc.live.nodup, fun s hs => (hc.live.userSeg s hs).unreserved, ?_, ?_⟩
  · rw [hc.seg]
    exact inUse_ownedBy hc.live.userSeg
  · intro m' hret
    obtain ⟨hc', hframes⟩ := hret.chain hc
    rw [hc'.seg, hc.seg, hframes]

theorem segment_ownership_twoLive :
    twoLive.segments = [0x3000, 0x2000] ∧
      twoLive.kernel.segArr.inUse = {0x0000, 0x1000} ∪ {s | s ∈ twoLive.segments} :=
  ⟨by rw [segments, frames_twoLive]; rfl, (segment_ownership boot_booted run_twoLive).2.2.2.1⟩

/-- The process chain: the `k` live programs hold the slots 0 to `k-1`, each the
child of the one before it, the last is running and the others are ready. A
program that is started has its caller as parent, and a call of `run_program`
that returns leaves its caller running. -/
theorem process_chain (h0 : Boot env m₀) (h : Run (Guarded Roomy (Step env)) m₀ es m)
    (hlive : m.frames ≠ []) :
    (∀ i < NUM_PROCESSES,
        (m.kernel.sched.processes i).pid = if i < m.frames.length then i + 1 else 0) ∧
      (∀ i < m.frames.length, (m.kernel.sched.processes i).ppid = i) ∧
      m.kernel.sched.runningProc = m.frames.length ∧
      (∀ i < m.frames.length, (m.kernel.sched.processes i).state =
        if i = m.frames.length - 1 then .RUNNING else .READY) ∧
      (∀ e m', Guarded Roomy (Step env) m e m' → m'.frames.length = m.frames.length + 1 →
        (m'.kernel.sched.processes m.frames.length).ppid = m.kernel.sched.runningProc) ∧
      ∀ m', CallReturned env m m' →
        m'.kernel.sched.runningProc = m.kernel.sched.runningProc := by
  have hc := chain_run h0 h
  obtain ⟨hrunning, hstate⟩ := hc.running hlive
  refine ⟨?_, fun i hi => (hc.live.slot hi).2.1, hrunning, ?_, ?_, ?_⟩
  · intro i hi9
    split_ifs with hi
    · exact (hc.live.slot hi).1
    · exact hc.free i (by omega) hi9
  · intro i hi
    split_ifs with heq
    · rw [heq, hstate]
    · exact hc.ready i (by omega)
  · intro e m' hstep hlen
    rw [((chain_step m e m' hc hstep).live.slot (by omega)).2.1, hrunning]
  · intro m' hret
    obtain ⟨hc', hframes⟩ := hret.chain hc
    rw [hrunning, ← hframes]
    exact (hc'.running (by rwa [hframes])).1

theorem process_chain_twoLive :
    (twoLive.kernel.sched.processes 1).ppid = 1 ∧
      twoLive.kernel.sched.runningProc = twoLive.frames.length :=
  have h := process_chain boot_booted run_twoLive (by rw [frames_twoLive]; simp)
  ⟨h.2.1 1 (by rw [frames_twoLive]; decide), h.2.2.1⟩

end Sys

end RML
