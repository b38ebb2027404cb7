import RML.Proofs.Processes

/-! A full machine. `run_program` refuses a name the directory does not hold; a
name it does hold starts a ninth program, in whatever segment the local of
`get_free_seg` names, since `load` looks at no failure of `get_free_seg` or of
`register_proc`. -/

namespace RML

open Bytes Transition

theorem getFreeSeg_of_full {segArr : SegArr} (hall : ∀ i < NUM_SEG, (segArr i).used ≠ 0) (seg : ℕ) :
    getFreeSeg segArr seg = (seg, segArr) := by
  have hfind : (List.range NUM_SEG).find? (fun i => (segArr i).used = 0) = none := by
    rw [List.find?_eq_none]
    intro i hi
    simpa using hall i (List.mem_range.mp hi)
  simp only [getFreeSeg, hfind]

namespace Kernel

variable {env : Env} {amb : Ambient} {k : Kernel} {currPid : Option ℕ} {name : List UInt8}

/-- Every entry of `seg_arr` is used, or every slot of `processes` occupied. -/
def Full (k : Kernel) : Prop :=
  (∀ i < NUM_SEG, (k.segArr i).used ≠ 0) ∨ ∀ i < NUM_PROCESSES, (k.sched.processes i).pid ≠ 0

/-- `run_program` has returned a failure with no program started, no byte loaded
and the allocator and the table as they were. -/
def Refused (k : Kernel) : Option RunResult → Prop
  | some (.returned retcode k') =>
    retcode ≠ 0 ∧ k'.segArr = k.segArr ∧ k'.sched = k.sched ∧ k'.mem = k.mem
  | _ => False

/-- The name is not in the directory, and where no segment is free the stale local
of `get_free_seg` names none either. -/
def Refusable (env : Env) (amb : Ambient) (k : Kernel) (name : List UInt8) : Prop :=
  (∃ io, lookup env amb k.io name = some (none, io)) ∧
    ((∀ i < NUM_SEG, (k.segArr i).used ≠ 0) → ∀ i < NUM_SEG, (k.segArr i).address ≠ amb.seg)

theorem refused_of_refusable (hplaced : k.segArr.Placed) (h : Refusable env amb k name) :
    k.Refused (k.runProgramStart env amb currPid name) := by
  obtain ⟨⟨io, hlook⟩, hstray⟩ := h
  rw [runProgramStart_of_missing rfl hlook]
  refine ⟨Nat.one_ne_zero, ?_, rfl, rfl⟩
  by_cases hall : ∀ i < NUM_SEG, (k.segArr i).used ≠ 0
  · show releaseSeg (getFreeSeg k.segArr amb.seg).2 (getFreeSeg k.segArr amb.seg).1 = k.segArr
    rw [getFreeSeg_of_full hall]
    exact releaseSeg_stray (hstray hall)
  · simp only [not_forall, not_not] at hall
    obtain ⟨i, hi, hused⟩ := hall
    exact hplaced.release_free amb.seg ⟨i, hi, hused⟩

theorem refusable_of_refused (hplaced : k.segArr.Placed)
    (h : k.Refused (k.runProgramStart env amb currPid name)) : Refusable env amb k name := by
  cases hr : k.runProgramStart env amb currPid name with
  | none => simp [hr, Refused] at h
  | some r =>
    rw [hr] at h
    rcases runProgramStart_cases rfl hr with
      ⟨io, hlook, rfl⟩ | ⟨file, io, io', mem, pid, sched, -, -, -, rfl⟩
    · refine ⟨⟨io, hlook⟩, ?_⟩
      intro hall i hi heq
      have hseg : releaseSeg (getFreeSeg k.segArr amb.seg).2 (getFreeSeg k.segArr amb.seg).1 =
          k.segArr := h.2.1
      rw [getFreeSeg_of_full hall, ← heq] at hseg
      exact hplaced.release_ne hi (hall i hi) hseg
    · simp [Refused] at h

theorem refused_iff (hplaced : k.segArr.Placed) :
    k.Refused (k.runProgramStart env amb currPid name) ↔ Refusable env amb k name :=
  ⟨refusable_of_refused hplaced, refused_of_refusable hplaced⟩

end Kernel

namespace Sys

variable {env : Env} {m₀ m m' : Sys} {es : List Event}

theorem placed_start {amb : Ambient} {k : Kernel} {currPid : Option ℕ} {name : List UInt8}
    {r : Kernel.RunResult} (hp : k.segArr.Placed)
    (h : k.runProgramStart env amb currPid name = some r) :
    match r with
    | .returned _ k' => k'.segArr.Placed
    | .started _ k' => k'.segArr.Placed := by
  rcases Kernel.runProgramStart_cases rfl h with
    ⟨io, -, rfl⟩ | ⟨file, io, io', mem, pid, sched, -, -, -, rfl⟩
  · exact (hp.getFreeSeg _).releaseSeg _
  · exact hp.getFreeSeg _

theorem placed_step (m : Sys) (e : Event) (m' : Sys) (hp : m.kernel.segArr.Placed)
    (h : Step env m e m') : m'.kernel.segArr.Placed := by
  obtain ⟨out, hstep⟩ := h
  cases e with
  | init amb =>
    obtain ⟨-, -, ⟨rc, k, hstart, rfl⟩ | ⟨f, k, hstart, rfl⟩⟩ := step_init hstep
    · exact placed_start (k := restarted m.kernel) hp hstart
    · exact placed_start (k := restarted m.kernel) hp hstart
  | exit =>
    obtain ⟨f, frames, -, ⟨-, rfl, -⟩ | ⟨pid, k, -, hfin, rfl, -⟩⟩ := step_exit hstep
    · exact hp.releaseSeg _
    · obtain ⟨sched, -, rfl⟩ := Kernel.finishRun_cases hfin
      exact hp.releaseSeg _
  | sys amb service request =>
    obtain ⟨-, ⟨-, f, k, hstart, rfl, -⟩ | ⟨-, rc, k, k', hstart, hfin, rfl, -⟩ |
      ⟨-, io, params, -, rfl, -⟩⟩ := step_call hstep
    · exact placed_start (k := named m.kernel request) hp hstart
    · obtain ⟨sched, -, rfl⟩ := Kernel.finishRun_cases hfin
      exact placed_start (k := named m.kernel request) hp hstart
    · exact hp

theorem placed_run (h0 : Boot env m₀) (h : Run (Step env) m₀ es m) : m.kernel.segArr.Placed := by
  refine h.invariant (fun m => m.kernel.segArr.Placed) placed_step ?_
  rw [(chain_boot h0).seg]
  exact placed_ownedBy _

/-- A full machine is only asked for what `run_program` can refuse. -/
def Sparing (env : Env) (m : Sys) : Event → Prop
  | .sys amb service request => service = 7 → m.kernel.Full →
    Kernel.Refusable env amb (named m.kernel request) (cstr (stoupper request.bytes))
  | _ => True

theorem full_iff (hc : Chain m) : m.kernel.Full ↔ m.frames.length = 8 := by
  have hle := hc.live.length_le
  have hall := all_owned_iff hc.live.nodup hc.live.userSeg
  rw [List.length_map] at hall
  rw [← hall, Kernel.Full, hc.seg]
  constructor
  · rintro (hused | hslots)
    · rintro s ⟨i, h2, hi, rfl⟩
      by_contra hnot
      exact hused i hi ((ownedBy_free_iff _ hi).mpr ⟨h2, hnot⟩)
    · exact absurd (hc.free 8 hle (by decide)) (hslots 8 (by decide))
  · intro howned
    refine Or.inl fun i hi hzero => ?_
    obtain ⟨h2, hnot⟩ := (ownedBy_free_iff _ hi).mp hzero
    exact hnot (howned _ ⟨i, h2, hi, rfl⟩)

theorem chain_sparing (m : Sys) (e : Event) (m' : Sys) (hc : Chain m)
    (h : Guarded (Sparing env) (Step env) m e m') : Chain m' := by
  obtain ⟨hspare, out, hstep⟩ := h
  cases e with
  | init amb => exact chain_init hc hstep
  | exit => exact chain_exit hc hstep
  | sys amb service request =>
    by_cases hfull : m.kernel.Full
    · refine chain_sys hc ?_ hstep
      intro hs r hr
      have hplaced : m.kernel.segArr.Placed := by
        rw [hc.seg]
        exact placed_ownedBy _
      have href : (named m.kernel request).Refused ((named m.kernel request).runProgramStart env amb
          (some m.frames.length) (cstr (stoupper request.bytes))) :=
        Kernel.refused_of_refusable hplaced (hspare hs hfull)
      rw [hr] at href
      rcases Kernel.runProgramStart_cases rfl hr with
        ⟨io, -, rfl⟩ | ⟨file, io, io', mem, pid, sched, -, -, -, rfl⟩
      · exact Or.inl ⟨_, rfl, href.2.1, href.2.2.1⟩
      · exact absurd href (by simp [Kernel.Refused])
    · have hle := hc.live.length_le
      rw [full_iff hc] at hfull
      have hroom : Roomy m (.sys amb service request) := by
        intro _
        omega
      exact chain_step m _ m' hc ⟨hroom, out, hstep⟩

/-- The system calls outstanding while the running program makes one: its own, and
those that started the programs below it. -/
def outstanding (m : Sys) : ℕ := (m.frames.filter fun f => f.currPid.isSome).length + 1

@[irreducible] def eightLive : Sys :=
  (exec (.ofVolume floppy) (.init calm :: List.replicate 7 (.sys calm 7 callInit)) booted).get
    (by decide +kernel)

theorem exec_eightLive : exec (.ofVolume floppy) (.init calm :: List.replicate 7 (.sys calm 7 callInit))
    booted = some eightLive := by
  unfold eightLive
  exact (Option.some_get _).symm

theorem run_eightLive : Run (Step (.ofVolume floppy)) booted
    (.init calm :: List.replicate 7 (.sys calm 7 callInit)) eightLive :=
  run_of_exec exec_eightLive

theorem full_and_found : eightLive.frames.length = 8 ∧
    ((Kernel.lookup (.ofVolume floppy) calm (named eightLive.kernel callInit).io
      (ascii "INIT")).bind fun r => r.1).isSome = true := by
  have hrun : (exec (.ofVolume floppy) (.init calm :: List.replicate 7 (.sys calm 7 callInit))
      booted).map (fun m => (m.frames.length,
        ((Kernel.lookup (.ofVolume floppy) calm (named m.kernel callInit).io
          (ascii "INIT")).bind fun r => r.1).isSome)) = some (8, true) := by
    decide +kernel
  rw [exec_eightLive, Option.map_some, Option.some.injEq, Prod.mk.injEq] at hrun
  exact hrun

theorem chain_eightLive : Chain eightLive := by
  have hframes : booted.frames = [] := rfl
  apply chain_run boot_booted (roomy_of_short run_eightLive _)
  rw [hframes, List.length_cons, List.length_replicate]
  decide

theorem full_eightLive : eightLive.kernel.Full :=
  (full_iff chain_eightLive).mpr full_and_found.1

end Sys

end RML
