import RML.Proofs.Chain
import RML.Proofs.Console
import RML.Proofs.Processes

/-! The kernel runs a stack of programs. Its frames, its segments and its process table
are determined by the programs that live, and these, with all that is on the screen, by
what was asked of it: by the names that were called and by the directory, not by the
descriptors, the stale locals or the contents of the buffers. -/

namespace RML

open Bytes Decimal Transition

def frameAt (depth : ℕ) : Frame :=
  ⟨if depth = 0 then none else some depth, depth + 1, segmentAt depth⟩

def framesOf : ℕ → List Frame
  | 0 => []
  | n + 1 => frameAt n :: framesOf n

@[simp] theorem length_framesOf (n : ℕ) : (framesOf n).length = n := by
  induction n with
  | zero => rfl
  | succ n ih => rw [framesOf, List.length_cons, ih]

theorem framesOf_eq_nil_iff (n : ℕ) : framesOf n = [] ↔ n = 0 := by
  rw [← List.length_eq_zero_iff, length_framesOf]

theorem mem_segmentsOf {n s : ℕ} : s ∈ (framesOf n).map Frame.segment ↔ ∃ i < n, s = segmentAt i := by
  induction n with
  | zero => simp [framesOf]
  | succ n ih =>
    rw [framesOf, List.map_cons, List.mem_cons, ih]
    constructor
    · rintro (rfl | ⟨i, hi, rfl⟩)
      · exact ⟨n, Nat.lt_succ_self n, rfl⟩
      · exact ⟨i, Nat.lt_succ_of_lt hi, rfl⟩
    · rintro ⟨i, hi, rfl⟩
      rcases Nat.lt_succ_iff_lt_or_eq.mp hi with hlt | rfl
      · exact Or.inr ⟨i, hlt, rfl⟩
      · exact Or.inl rfl

def Program.slot (p : Program) (depth : ℕ) (state : ProcState) : ProcessDesc where
  pid := depth + 1
  name := p.name
  ss := segmentAt depth
  ds := segmentAt depth
  cs := segmentAt depth
  ip := 0
  ppid := depth
  size := p.size
  state := state

/-- The slots of the programs hold what is known of them. -/
def Resident (procs : ℕ → ProcessDesc) : List Program → Prop
  | [] => True
  | p :: ps => (∃ state, procs ps.length = p.slot ps.length state) ∧ Resident procs ps

theorem Resident.congr {procs procs' : ℕ → ProcessDesc} {ps : List Program}
    (h : Resident procs ps)
    (heq : ∀ i < ps.length, ∃ state, procs' i = { procs i with state := state }) :
    Resident procs' ps := by
  induction ps with
  | nil => exact trivial
  | cons p ps ih =>
    obtain ⟨⟨state, hslot⟩, hrest⟩ := h
    obtain ⟨state', hslot'⟩ := heq ps.length (by simp)
    refine ⟨⟨state', by rw [hslot', hslot]; rfl⟩, ih hrest fun i hi => heq i ?_⟩
    rw [List.length_cons]
    omega

theorem Resident.slot {procs : ℕ → ProcessDesc} {ps : List Program} (h : Resident procs ps)
    {i : ℕ} {p : Program} (hp : ps.reverse[i]? = some p) :
    procs i = p.slot i (procs i).state := by
  induction ps with
  | nil => simp at hp
  | cons q ps ih =>
    obtain ⟨⟨state, hslot⟩, hrest⟩ := h
    rw [List.reverse_cons] at hp
    rcases Nat.lt_or_ge i ps.reverse.length with hlt | hge
    · rw [List.getElem?_append_left hlt] at hp
      exact ih hrest hp
    · rw [List.getElem?_append_right hge] at hp
      rw [List.length_reverse] at hp hge
      obtain ⟨h0, heq⟩ : i - ps.length = 0 ∧ q = p := by
        cases hd : i - ps.length with
        | zero => simpa [hd] using hp
        | succ d => simp [hd] at hp
      obtain rfl : i = ps.length := by omega
      rw [hslot, ← heq]
      rfl

/-- The root directory of the second floppy, as `get_file` searches it. -/
def Env.directory (env : Env) : Directory where
  entries := env.bootSector.rootDirEntries
  find name := (env.files.find? fun file => shortText file.filename = name).map Fat16Entry.fileSize

theorem Rooted.lookup_eq {env : Env} {amb : Ambient} {io io' : Io} {name : List UInt8}
    {found : Option Fat16Entry} (hr : Rooted env io)
    (h : Kernel.lookup env amb io name = some (found, io')) :
    env.directory.find name = found.map Fat16Entry.fileSize := by
  rw [hr.lookup_files h]
  rfl

theorem Env.directory_size {env : Env} {name : List UInt8} {size : ℕ}
    (h : env.directory.find name = some size) : size < 2 ^ 32 := by
  obtain ⟨file, hfind, rfl⟩ := Option.map_eq_some_iff.mp h
  have hmem := List.mem_of_mem_filter (List.mem_of_find?_eq_some hfind)
  obtain ⟨j, -, rfl⟩ := List.mem_map.mp hmem
  have hdev := env.length_dev 4 (wrap (env.bootSector.positions.rootDirectoryStart + 32 * j)) 32
    (by decide)
  have hlen : (slice (env.dev 4 (wrap (env.bootSector.positions.rootDirectoryStart + 32 * j)) 32)
      28 4).length = 4 := length_slice (by rw [hdev])
  refine (ofLE_lt _).trans_eq ?_
  rw [hlen]
  rfl

theorem getFreeSeg_framesOf {n : ℕ} (hn : n < 8) (seg : ℕ) :
    getFreeSeg (ownedBy ((framesOf n).map Frame.segment)) seg =
      (segmentAt n, ownedBy (segmentAt n :: (framesOf n).map Frame.segment)) := by
  have hi : n + 2 < NUM_SEG := by
    simp only [NUM_SEG]
    omega
  have hfind : (List.range NUM_SEG).find?
      (fun i => (ownedBy ((framesOf n).map Frame.segment) i).used = 0) = some (n + 2) := by
    rw [List.find?_range_eq_some]
    refine ⟨?_, List.mem_range.mpr hi, ?_⟩
    · rw [decide_eq_true_eq, ownedBy_free_iff _ hi]
      refine ⟨by omega, fun hmem => ?_⟩
      obtain ⟨i, hlt, heq⟩ := mem_segmentsOf.mp hmem
      simp only [segmentAt] at heq
      omega
    · intro j hj
      have hj' : j < NUM_SEG := hj.trans hi
      simp only [Bool.not_eq_true', decide_eq_false_iff_not, ownedBy_free_iff _ hj', not_and,
        not_not]
      intro h2
      exact mem_segmentsOf.mpr ⟨j - 2, by omega, by simp only [segmentAt]; omega⟩
  simp only [getFreeSeg, hfind]
  rw [update_used_ownedBy _ hi, ownedBy_address _ hi]
  rfl

/-- What the kernel holds for the programs `ps`, whoever runs. -/
structure Keeps (env : Env) (k : Kernel) (ps : List Program) : Prop
    extends Held k (framesOf ps.length) where
  resident : Resident k.sched.processes ps
  small : ∀ p ∈ ps, p.size < 2 ^ 32
  rooted : Rooted env k.io

/-- The system stands for the stack `ps`. -/
structure Stacked (env : Env) (m : Sys) (ps : List Program) : Prop extends Chain m where
  frames_eq : m.frames = framesOf ps.length
  resident : Resident m.kernel.sched.processes ps
  small : ∀ p ∈ ps, p.size < 2 ^ 32
  rooted : Rooted env m.kernel.io

theorem Stacked.keeps {env : Env} {m : Sys} {ps : List Program} (h : Stacked env m ps) :
    Keeps env m.kernel ps :=
  ⟨by rw [← h.frames_eq]; exact h.toHeld, h.resident, h.small, h.rooted⟩

namespace Keeps

variable {env : Env} {amb : Ambient} {k k' : Kernel} {ps : List Program} {name : List UInt8}

theorem congr (h : Keeps env k ps) (hsched : k'.sched = k.sched) (hseg : k'.segArr = k.segArr)
    (hrooted : Rooted env k'.io) : Keeps env k' ps :=
  ⟨h.toHeld.congr hsched hseg, by rw [hsched]; exact h.resident, h.small, hrooted⟩

theorem registered {sched sched' : Sched} {pid size : ℕ} (h : Keeps env k ps)
    (hlt : ps.length < NUM_PROCESSES) (hrun : k.sched.runningProc = ps.length)
    (hreg : k.sched.registerProc name (segmentAt ps.length) (segmentAt ps.length)
      (segmentAt ps.length) 0 k.sched.runningProc size = some (pid, sched))
    (hset : sched.setRunningProc pid = some sched') :
    pid = ps.length + 1 ∧ Resident sched'.processes (⟨name, size⟩ :: ps) := by
  have hlen := length_framesOf ps.length
  rw [Sched.registerProc_eq hlt
    (fun i hi => by rw [(h.live.slot (hi.trans_eq hlen.symm)).1]; omega)
    (h.free ps.length hlen.le hlt), Option.some.injEq, Prod.mk.injEq] at hreg
  obtain ⟨rfl, rfl⟩ := hreg
  obtain ⟨sched₁, hset₁, -, hprocs⟩ := Sched.setRunningProc_eq (k.sched.modify ps.length fun p =>
    { p with
      pid := ps.length + 1, cs := segmentAt ps.length, ds := segmentAt ps.length,
      ss := segmentAt ps.length, state := .READY, ip := 0, ppid := k.sched.runningProc,
      size := size, name := name }) (ps.length + 1) (by omega) (by omega)
  rw [hset, Option.some.injEq] at hset₁
  subst hset₁
  simp only [Sched.modify_processes, Sched.modify_runningProc, Nat.add_sub_cancel] at hprocs
  refine ⟨rfl, ⟨.RUNNING, ?_⟩, h.resident.congr fun i hi => ⟨(sched'.processes i).state, ?_⟩⟩
  · simp only [hprocs, if_true, hrun]
    rfl
  · simp only [hprocs, if_neg hi.ne]

/-- `run_program` below eight programs: the name is not in the directory and is refused,
or its program goes on top. Either way the directory is read. -/
theorem start {r : Kernel.RunResult} (h : Keeps env k ps) (hlt : ps.length < 8)
    (hrun : k.sched.runningProc = ps.length)
    (hstart : k.runProgramStart env amb (if ps.length = 0 then none else some ps.length) name =
      some r) :
    (env.directory.find name = none ∧ ∃ k', r = .returned 1 k' ∧ Keeps env k' ps ∧
        k'.sched = k.sched ∧ k.io.Shows (directoryText env.bootSector.rootDirEntries) k'.io) ∨
      ∃ size k', env.directory.find name = some size ∧ r = .started (frameAt ps.length) k' ∧
        Stacked env ⟨k', framesOf (ps.length + 1)⟩ (⟨name, size⟩ :: ps) ∧
        k.io.Shows (directoryText env.bootSector.rootDirEntries) k'.io := by
  have hlen := length_framesOf ps.length
  have hcur : (if framesOf ps.length = [] then none else some (framesOf ps.length).length) =
      if ps.length = 0 then none else some ps.length := by
    rw [hlen]
    simp only [framesOf_eq_nil_iff]
  have hget := getFreeSeg_framesOf hlt amb.seg
  rw [← h.seg] at hget
  have hchain := h.toHeld.start (hlen.trans_lt hlt) (hrun.trans hlen.symm)
    ((congrArg (fun cur => k.runProgramStart env amb cur name) hcur).trans hstart)
  rcases Kernel.runProgramStart_cases hget hstart with
    ⟨io, hlook, rfl⟩ | ⟨file, io, io', mem, pid, sched, hlook, hload, hreg, rfl⟩
  · have hfind := h.rooted.lookup_eq hlook
    refine Or.inl ⟨hfind, _, rfl, h.congr rfl ?_ (h.rooted.seeks (Kernel.seeks_lookup hlook)), rfl,
      Kernel.shows_lookup h.rooted hlook⟩
    rcases hchain with ⟨k', heq, hseg, -⟩ | ⟨f, k', heq, -⟩
    · obtain ⟨-, rfl⟩ := Kernel.RunResult.returned.inj heq
      exact hseg
    · nomatch heq
  · have hfind := h.rooted.lookup_eq hlook
    have hshows := Kernel.shows_lookup h.rooted hlook
    have hrooted : Rooted env io := h.rooted.seeks (Kernel.seeks_lookup hlook)
    have hsilent := (Io.shows_loadLoop hrooted.disk hload).trans (Kernel.shows_openStd io' pid)
    have hrooted' : Rooted env (Kernel.openStd io' pid) :=
      ((hrooted.seeks (Io.seeks_loadLoop hload)).openFd _ pid).openFd _ pid
    rcases hreg with ⟨hnone, -⟩ | ⟨sched', hsome, hset⟩
    · obtain ⟨sched₁, _, hregister, -⟩ := h.register
        (hlen.trans_lt (hlt.trans (by decide))) (hrun.trans hlen.symm) name (segmentAt ps.length)
        file.fileSize
      cases hnone.symm.trans hregister
    · obtain ⟨rfl, hresident⟩ := h.registered (hlt.trans (by decide)) hrun hsome hset
      refine Or.inr ⟨file.fileSize, _, hfind, rfl, ⟨?_, rfl, hresident, ?_, hrooted'⟩, ?_⟩
      · rcases hchain with ⟨k', heq, -⟩ | ⟨f, k', heq, hchain⟩
        · cases heq
        · cases heq
          exact hchain
      · intro p hp
        rcases List.mem_cons.mp hp with rfl | hp
        · exact env.directory_size hfind
        · exact h.small p hp
      · exact hshows.quietly hsilent

theorem start_mem {r : Kernel.RunResult} {currPid : Option ℕ} (h : Keeps env k ps)
    (hlt : ps.length < 8) (hstart : k.runProgramStart env amb currPid name = some r) :
    (∃ rc k', r = .returned rc k' ∧ k'.mem = k.mem) ∨
      ∃ f k' file io io', r = .started f k' ∧
        env.files.find? (fun file => shortText file.filename = name) = some file ∧
        k.io.Seeks 0 io ∧
        io.loadFileContent env amb k.mem file (segmentAt ps.length) 0 = some (io', k'.mem) := by
  have hget := getFreeSeg_framesOf hlt amb.seg
  rw [← h.seg] at hget
  rcases Kernel.runProgramStart_cases hget hstart with
    ⟨io, -, rfl⟩ | ⟨file, io, io', mem, pid, sched, hlook, hload, -, rfl⟩
  · exact Or.inl ⟨1, _, rfl, rfl⟩
  · exact Or.inr ⟨_, _, file, io, io', rfl, (h.rooted.lookup_files hlook).symm,
      Kernel.seeks_lookup hlook, hload⟩

theorem stop {p : Program} (h : Keeps env k (p :: ps)) :
    Keeps env (k.runProgramEnd (frameAt ps.length)) ps := by
  refine ⟨Held.stop h.toHeld, ?_, fun q hq => h.small q (List.mem_cons_of_mem p hq), h.rooted⟩
  refine h.resident.2.congr fun i hi => ⟨(k.sched.processes i).state, ?_⟩
  simp only [Kernel.runProgramEnd, Sched.unregisterProc, frameAt, Nat.add_sub_cancel,
    Sched.modify_processes, if_neg hi.ne]

theorem finish {p : Program} {retcode : ℕ} (h : Keeps env k (p :: ps))
    (hfin : k.finishRun (ps.length + 1) retcode = some k') :
    Stacked env ⟨k', framesOf (ps.length + 1)⟩ (p :: ps) := by
  have hlen := length_framesOf (ps.length + 1)
  have hchain : Chain ⟨k', framesOf (ps.length + 1)⟩ :=
    h.toHeld.running (List.cons_ne_nil _ _) (by rw [List.length_cons, hlen]; exact hfin)
  have hle : ps.length + 1 ≤ 8 := hlen.symm.trans_le hchain.live.length_le
  obtain ⟨sched, hset, rfl⟩ := Kernel.finishRun_cases hfin
  obtain ⟨sched', hset', -, hprocs⟩ := Sched.setRunningProc_eq k.sched (ps.length + 1) (by omega)
    (by simp only [NUM_PROCESSES]; omega)
  rw [hset, Option.some.injEq] at hset'
  subst hset'
  exact ⟨hchain, rfl, h.resident.congr fun i _ => ⟨_, hprocs i⟩, h.small, h.rooted⟩

end Keeps

end RML
