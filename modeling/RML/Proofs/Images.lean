import RML.Proofs.Loader
import RML.Proofs.Refinement
import RML.Proofs.Reply

/-! What `load_to_memory` stores. It is called only to load a program, and stores only to the
segment that the program gets: the loader writes to nothing that waits, and what it has loaded
it leaves alone. The stores of the programs, of the kernel to its own segment, and of
`dispatch.asm` to the buffer of each caller are not followed. -/

namespace RML

open Bytes Transition

def InSegment (segment a : ℕ) : Prop := segment * 16 ≤ a ∧ a < segment * 16 + 65536

section Outside

variable {env : Env} {amb : Ambient} {segment a : ℕ}

theorem copyLoop_outside {buffer : List UInt8} {di : ℕ} {mem : ℕ → UInt8} (hdi : di < 65536)
    (ha : ¬ InSegment segment a) : copyLoop segment buffer di mem a = mem a := by
  induction buffer generalizing di mem with
  | nil => rfl
  | cons b buffer ih =>
    have hne : a ≠ segment * 16 + di := by
      rintro rfl
      exact ha ⟨Nat.le_add_right _ _, Nat.add_lt_add_left hdi _⟩
    rw [copyLoop, ih (Nat.mod_lt _ (by decide)), Function.update_of_ne hne]

theorem Io.loadLoop_outside {fuel offset c : ℕ} {io io' : Io} {mem mem' : ℕ → UInt8}
    {clustBuf : List UInt8} (ha : ¬ InSegment segment a)
    (h : loadLoop env amb segment fuel io mem clustBuf offset c = some (io', mem')) :
    mem' a = mem a := by
  induction fuel generalizing io mem clustBuf offset c with
  | zero => cases h
  | succ fuel ih =>
    simp only [loadLoop, Option.bind_eq_bind, Option.bind_eq_some_iff] at h
    obtain ⟨⟨bytes, io₁⟩, -, h⟩ := h
    have hround : ∀ buffer, loadToMemory mem segment offset buffer 4096 a = mem a :=
      fun _ => copyLoop_outside (Nat.mod_lt _ (by decide)) ha
    split at h
    · cases h
    · obtain ⟨⟨next, io₂⟩, -, h⟩ := Option.bind_eq_some_iff.mp h
      split at h
      · exact (ih h).trans (hround _)
      · cases h
        exact hround _

theorem Io.loadLoop_mono {fuel fuel' offset c : ℕ} {io : Io} {mem : ℕ → UInt8}
    {clustBuf : List UInt8} {r : Io × (ℕ → UInt8)} (hle : fuel ≤ fuel')
    (h : loadLoop env amb segment fuel io mem clustBuf offset c = some r) :
    loadLoop env amb segment fuel' io mem clustBuf offset c = some r := by
  induction fuel generalizing fuel' io mem clustBuf offset c with
  | zero => cases h
  | succ fuel ih =>
    obtain ⟨fuel', rfl⟩ : ∃ n, fuel' = n + 1 := ⟨fuel' - 1, by omega⟩
    simp only [loadLoop, Option.bind_eq_bind, Option.bind_eq_some_iff] at h ⊢
    obtain ⟨⟨bytes, io₁⟩, hread, h⟩ := h
    refine ⟨(bytes, io₁), hread, ?_⟩
    split at h
    · cases h
    · next hfits =>
      obtain ⟨⟨next, io₂⟩, hnext, h⟩ := Option.bind_eq_some_iff.mp h
      simp only [if_neg hfits]
      refine Option.bind_eq_some_iff.mpr ⟨(next, io₂), hnext, ?_⟩
      split at h
      · next hgo =>
        simp only [if_pos hgo]
        exact ih (Nat.le_of_succ_le_succ hle) h
      · next hend =>
        simp only [if_neg hend]
        exact h

end Outside

/-- The second floppy is the volume, as far as the boot sector and the root directory go. -/
structure Env.Holds (env : Env) (v : Volume) : Prop where
  boot : env.DeliversBoot v
  root : env.DeliversDir (v.bytes.drop v.rootStart)

theorem Env.holds_ofVolume {v : Volume} (hboot : 512 ≤ v.bytes.length)
    (hdata : v.dataStart ≤ v.bytes.length) : (Env.ofVolume v).Holds v :=
  ⟨deliversBoot_ofVolume hboot, deliversDir_ofVolume hboot hdata⟩

def Volume.files (v : Volume) : List Fat16Entry := v.rootDir.filter isFile

theorem Env.Holds.files_eq {env : Env} {v : Volume} (h : env.Holds v) : env.files = v.files := by
  rw [Env.files, h.root.rootDir_eq, Mounted.bootSector_eq h.boot]
  rfl

/-- The loader gets a chain of clusters right that are as large as its buffer, and a single
one that is smaller, if it finds them. -/
def Volume.Loadable (v : Volume) (chain : List ℕ) : Prop :=
  chain.length * v.clusterSize ≤ 65536 ∧
    (v.bs.sectorsPerCluster = 8 ∨ chain.length = 1 ∧ v.bs.sectorsPerCluster < 8) ∧ v.Found chain

theorem Volume.Loadable.clusterSize_le {v : Volume} {chain : List ℕ} (h : v.Loadable chain) :
    v.clusterSize ≤ 4096 := by
  have hsize : v.clusterSize = 512 * v.bs.sectorsPerCluster := rfl
  obtain ⟨-, h8 | ⟨-, hlt⟩, -⟩ := h
  · omega
  · omega

theorem Mounted.loaded {env : Env} {amb : Ambient} {io io' : Io} {v : Volume} {file : Fat16Entry}
    {segment : ℕ} {chain : List ℕ} {mem mem' : ℕ → UInt8} (hm : Mounted io v)
    (hd : ∀ c ∈ chain, env.DeliversCluster v c) (hchain : v.FatChain file.startingCluster chain)
    (hok : v.Loadable chain)
    (h : io.loadFileContent env amb mem file segment 0 = some (io', mem')) :
    segmentBytes mem' segment (chain.length * v.clusterSize) = v.content chain := by
  have hfits := hok.clusterSize_le
  have hsize : v.clusterSize = 512 * v.bs.sectorsPerCluster := rfl
  obtain ⟨hlen, hstep, hfound⟩ := hok
  have hpos : 0 < amb.fuel := by
    cases hfuel : amb.fuel with
    | zero =>
      rw [Io.loadFileContent, hfuel] at h
      cases h
    | succ n => exact Nat.succ_pos n
  -- the same machine with fuel enough for the whole chain
  let amb' : Ambient := { amb with fuel := max amb.fuel chain.length }
  obtain ⟨io₁, mem₁, hload₁, hbytes⟩ : ∃ io' mem',
      io.loadFileContent env amb' mem file segment 0 = some (io', mem') ∧
        segmentBytes mem' segment (chain.length * v.clusterSize) = v.foundContent chain :=
    hm.loads_found hd hchain hlen (hstep.imp (by omega) (And.imp_right (by omega))) amb' mem
      (le_max_right _ _)
  obtain ⟨io₂, hload₂⟩ : ∃ io', io.loadFileContent env amb' mem file segment 0 =
      some (io', loadedMem segment (chain.map v.found) 0 (amb.fill 4096 []) mem) :=
    hm.loadFileContent_eq hd hchain hfits amb' mem (le_max_right _ _)
  obtain ⟨io₃, hload₃⟩ : ∃ io', Io.loadLoop env amb segment (max amb.fuel chain.length) io mem
      (amb.fill 4096 []) 0 file.startingCluster =
        some (io', loadedMem segment (chain.map v.found) 0 (amb.fill 4096 []) mem) :=
    hm.loadLoop_eq hchain hd hfits hpos (le_max_right _ _)
  have hmono := Io.loadLoop_mono (le_max_left amb.fuel chain.length) h
  rw [hload₃] at hmono
  obtain ⟨-, rfl⟩ := Prod.mk.inj (Option.some.inj hmono)
  rw [hload₂] at hload₁
  obtain ⟨-, rfl⟩ := Prod.mk.inj (Option.some.inj hload₁)
  rw [hbytes, (Volume.foundContent_eq_iff hchain.inArea).mpr hfound]

/-- The segment of a program with `depth` programs below it holds the file of its name, in
its full length, if the loader gets that right and the device delivers its clusters. -/
def Image (env : Env) (v : Volume) (mem : ℕ → UInt8) (depth : ℕ) (p : Program) : Prop :=
  ∃ file, v.files.find? (fun file => shortText file.filename = p.name) = some file ∧
    p.size = file.fileSize ∧ ∀ chain, v.FatChain file.startingCluster chain → v.Loadable chain →
      (∀ c ∈ chain, env.DeliversCluster v c) →
      segmentBytes mem (segmentAt depth) (chain.length * v.clusterSize) = v.content chain

def Images (env : Env) (v : Volume) (mem : ℕ → UInt8) : List Program → Prop
  | [] => True
  | p :: ps => Image env v mem ps.length p ∧ Images env v mem ps

theorem segmentBytes_congr {mem mem' : ℕ → UInt8} {segment n : ℕ}
    (h : ∀ i < n, mem' (segment * 16 + i) = mem (segment * 16 + i)) :
    segmentBytes mem' segment n = segmentBytes mem segment n :=
  List.map_congr_left fun i hi => h i (List.mem_range.mp hi)

/-- The first address behind the segments of `n` programs. -/
def topOf (n : ℕ) : ℕ := 0x10000 * (n + 2)

theorem not_inSegment {n a : ℕ} (h : a < topOf n ∨ topOf (n + 1) ≤ a) :
    ¬ InSegment (segmentAt n) a := by
  simp only [InSegment, segmentAt, topOf] at h ⊢
  omega

theorem Images.congr {env : Env} {v : Volume} {mem mem' : ℕ → UInt8} {ps : List Program}
    (h : Images env v mem ps) (heq : ∀ a < topOf ps.length, mem' a = mem a) :
    Images env v mem' ps := by
  induction ps with
  | nil => trivial
  | cons p ps ih =>
    obtain ⟨⟨file, hfind, hsize, himage⟩, hrest⟩ := h
    rw [List.length_cons] at heq
    refine ⟨⟨file, hfind, hsize, fun chain hchain hok hd => ?_⟩, ih hrest fun a ha => heq a ?_⟩
    · rw [← himage chain hchain hok hd]
      refine segmentBytes_congr fun i hi => heq _ ?_
      have hfits := hok.1
      simp only [segmentAt, topOf]
      omega
    · simp only [topOf] at ha ⊢
      omega

theorem Resident.images {env : Env} {v : Volume} {procs : ℕ → ProcessDesc} {mem : ℕ → UInt8}
    {ps : List Program} (h : Resident procs ps) (himages : Images env v mem ps) :
    ∀ i < ps.length, ∃ file,
      v.files.find? (fun file => shortText file.filename = (procs i).name) = some file ∧
        (procs i).size = file.fileSize ∧
        ∀ chain, v.FatChain file.startingCluster chain → v.Loadable chain →
          (∀ c ∈ chain, env.DeliversCluster v c) →
          segmentBytes mem (procs i).cs (chain.length * v.clusterSize) = v.content chain := by
  induction ps with
  | nil => simp
  | cons p ps ih =>
    obtain ⟨⟨state, hslot⟩, hrest⟩ := h
    intro i hi
    rcases Nat.lt_succ_iff_lt_or_eq.mp hi with hlt | rfl
    · exact ih hrest himages.2 i hlt
    · rw [hslot]
      exact himages.1

theorem Program.machine_cases {dir : Directory} {ps ps' : List Program} {a : Act}
    {out : List UInt8} (h : machine dir ps a = some (ps', out)) :
    ps' = ps ∨ (∃ p, ps = p :: ps') ∨ ∃ p, ps' = p :: ps := by
  have hstart : ∀ name, some (start dir ps name) = some (ps', out) →
      ps' = ps ∨ (∃ p, ps = p :: ps') ∨ ∃ p, ps' = p :: ps := by
    intro name heq
    obtain ⟨rfl, -⟩ := Prod.mk.inj (Option.some.inj heq)
    split
    · exact Or.inr (Or.inr ⟨_, rfl⟩)
    · exact Or.inl rfl
  unfold machine at h
  split at h
  · exact hstart _ h
  · cases h
  · cases h
  · exact hstart _ h
  · cases h
    exact Or.inl rfl
  · split at h
    · cases h
      exact Or.inl rfl
    · cases h
  · cases h
    exact Or.inl rfl
  · cases h
    exact Or.inl rfl
  · cases h
    exact Or.inr (Or.inl ⟨_, rfl⟩)

def Act.called : Act → Option (List UInt8)
  | .boot => some (ascii "INIT")
  | .run name => some name
  | _ => none

theorem Program.machine_called {dir : Directory} {ps ps' : List Program} {a : Act}
    {out name : List UInt8} {size : ℕ} (h : machine dir ps a = some (ps', out))
    (hname : a.called = some name) (hfind : dir.find name = some size) :
    ps' = ⟨name, size⟩ :: ps := by
  have hstart : some (start dir ps name) = some (ps', out) → ps' = ⟨name, size⟩ :: ps := by
    intro heq
    obtain ⟨rfl, -⟩ := Prod.mk.inj (Option.some.inj heq)
    simp only [hfind]
  cases a <;> cases hname
  · cases ps with
    | nil => exact hstart h
    | cons p ps => cases h
  · cases ps with
    | nil => cases h
    | cons p ps => exact hstart h

theorem Rooted.lookup_first {env : Env} {io : Io} (hr : Rooted env io)
    (hentries : env.bootSector.rootDirEntries ≤ 256) (hnames : env.NamesWithoutNul)
    (amb : Ambient) (hfuel : 2 ≤ amb.fuel) (name : List UInt8) :
    ∃ io', Kernel.lookup env amb io name =
      some (env.files.find? fun file => shortText file.filename = name, io') := by
  obtain ⟨io', hfiles⟩ := hr.getRootFiles amb hfuel
  have hnamed : ∀ file ∈ env.rootDir, isFile file → file.Named := by
    intro file hfile hmark
    have hnul := hnames file (List.mem_filter.mpr ⟨hfile, hmark⟩)
    obtain ⟨j, -, rfl⟩ := List.mem_map.mp hfile
    exact env.rootEntry_named hnul
  refine ⟨io', ?_⟩
  rw [Kernel.lookup, hr.bs, if_neg (Nat.not_lt.mpr hentries)]
  simp only [hfiles, Option.bind_eq_bind, Option.bind_some, getFile_eq hnamed]
  rfl

theorem Keeps.start_some {env : Env} {amb : Ambient} {k : Kernel} {ps : List Program}
    {name : List UInt8} {file : Fat16Entry} {io io' : Io} {mem : ℕ → UInt8} (h : Keeps env k ps)
    (hlt : ps.length < 8) (hrun : k.sched.runningProc = ps.length)
    (hlook : Kernel.lookup env amb k.io name = some (some file, io))
    (hload : io.loadFileContent env amb k.mem file (segmentAt ps.length) 0 = some (io', mem))
    (currPid : Option ℕ) : ∃ f k', k.runProgramStart env amb currPid name = some (.started f k') := by
  have hlen := length_framesOf ps.length
  have hget := getFreeSeg_framesOf hlt amb.seg
  rw [← h.seg] at hget
  obtain ⟨sched, sched', hreg, hset, -⟩ := h.register
    (hlen.trans_lt (hlt.trans (by decide))) (hrun.trans hlen.symm) name (segmentAt ps.length)
    file.fileSize
  rw [hlen] at hreg hset
  simp only [Kernel.runProgramStart, Kernel.load, hget, hlook, hload, hreg, hset,
    Option.bind_eq_bind, Option.bind_some, if_true]
  exact ⟨_, _, rfl⟩

namespace Sys

variable {env : Env} {v : Volume} {m₀ m m' : Sys} {es ds : List Event} {ps : List Program}

/-- What a step does to memory: nothing, or it loads the file of the name that is called
into the segment above those in use. -/
theorem mem_step {e : Event} (h : Stacked env m ps) (hstep : Guarded Roomy (Step env) m e m') :
    (m'.kernel.mem = m.kernel.mem ∧ m'.frames.length ≤ m.frames.length) ∨
      ps.length < 8 ∧ m'.frames.length = m.frames.length + 1 ∧ ∃ amb name file io io',
        e.act.called = some name ∧
        env.files.find? (fun file => shortText file.filename = name) = some file ∧
        (∀ v, Mounted m.kernel.io v → Mounted io v) ∧
        io.loadFileContent env amb m.kernel.mem file (segmentAt ps.length) 0 =
          some (io', m'.kernel.mem) := by
  obtain ⟨hroom, out, hstep⟩ := hstep
  cases e with
  | init amb =>
    obtain ⟨hnil, -, hrun⟩ := step_init hstep
    obtain rfl := h.eq_nil_iff.mpr hnil
    rw [hnil]
    rcases hrun with ⟨rc, k, hstart, rfl⟩ | ⟨f, k, hstart, rfl⟩
    · rcases h.restarted.start_mem (by decide) hstart with ⟨_, _, heq, hmem⟩ | ⟨_, _, _, _, _, heq, -⟩
      · obtain ⟨-, rfl⟩ := Kernel.RunResult.returned.inj heq
        exact Or.inl ⟨hmem, le_refl _⟩
      · nomatch heq
    · rcases h.restarted.start_mem (by decide) hstart with
        ⟨_, _, heq, -⟩ | ⟨_, _, file, io, io', heq, hfind, hseeks, hload⟩
      · nomatch heq
      · obtain ⟨-, rfl⟩ := Kernel.RunResult.started.inj heq
        exact Or.inr ⟨by decide, rfl, amb, _, file, io, io', rfl, hfind,
          fun v hv => hv.seeks hseeks, hload⟩
  | exit =>
    obtain ⟨f, frames, hframes, ⟨-, rfl, -⟩ | ⟨pid, k, -, hfin, rfl, -⟩⟩ := step_exit hstep
    · exact Or.inl ⟨rfl, by rw [hframes]; exact Nat.le_succ _⟩
    · obtain ⟨sched, -, rfl⟩ := Kernel.finishRun_cases hfin
      exact Or.inl ⟨rfl, by rw [hframes]; exact Nat.le_succ _⟩
  | sys amb service request =>
    obtain ⟨-, ⟨rfl, f, k, hstart, rfl, -⟩ | ⟨rfl, rc, k, k', hstart, hfin, rfl, -⟩ |
      ⟨-, io, params, -, rfl, -⟩⟩ := step_call hstep
    · have hlt : ps.length < 8 := by
        have hfew := hroom rfl
        rwa [h.frames_eq, length_framesOf] at hfew
      rcases (h.named request).start_mem hlt hstart with
        ⟨_, _, heq, -⟩ | ⟨_, _, file, io, io', heq, hfind, hseeks, hload⟩
      · nomatch heq
      · obtain ⟨-, rfl⟩ := Kernel.RunResult.started.inj heq
        refine Or.inr ⟨hlt, rfl, amb, _, file, io, io', rfl, hfind, fun v hv => ?_, hload⟩
        have hentered : Mounted (named m.kernel request).io v := ⟨hv.bs, hv.sPos, hv.disk⟩
        exact hentered.seeks hseeks
    · have hlt : ps.length < 8 := by
        have hfew := hroom rfl
        rwa [h.frames_eq, length_framesOf] at hfew
      rcases (h.named request).start_mem hlt hstart with
        ⟨_, _, heq, hmem⟩ | ⟨_, _, _, _, _, heq, -⟩
      · obtain ⟨-, rfl⟩ := Kernel.RunResult.returned.inj heq
        obtain ⟨sched, -, rfl⟩ := Kernel.finishRun_cases hfin
        exact Or.inl ⟨hmem, le_refl _⟩
      · nomatch heq
    · exact Or.inl ⟨rfl, le_refl _⟩

theorem mem_step_outside {e : Event} {a : ℕ} (h : Stacked env m ps)
    (hstep : Guarded Roomy (Step env) m e m') (ha : a < topOf ps.length ∨ topOf 8 ≤ a) :
    m'.kernel.mem a = m.kernel.mem a := by
  rcases mem_step h hstep with ⟨hmem, -⟩ | ⟨hlt, -, amb, name, file, io, io', -, -, -, hload⟩
  · rw [hmem]
  · refine Io.loadLoop_outside (not_inSegment (ha.imp id fun hhigh => ?_)) hload
    simp only [topOf] at hhigh ⊢
    omega

theorem images_step {e : Event} {ps' : List Program} {out : List UInt8} (hd : env.Holds v)
    (hreach : Reachable env m) (h : Stacked env m ps) (himages : Images env v m.kernel.mem ps)
    (hstep : Guarded Roomy (Step env) m e m')
    (hact : Program.machine env.directory ps e.act = some (ps', out)) (h' : Stacked env m' ps') :
    Images env v m'.kernel.mem ps' := by
  have hkept : Images env v m'.kernel.mem ps :=
    himages.congr fun a ha => mem_step_outside h hstep (Or.inl ha)
  rcases mem_step h hstep with ⟨-, hlen⟩ |
    ⟨-, -, amb, name, file, io, io', hcalled, hfind, hmounted, hload⟩
  · rw [h.frames_eq, h'.frames_eq, length_framesOf, length_framesOf] at hlen
    rcases Program.machine_cases hact with rfl | ⟨p, rfl⟩ | ⟨p, rfl⟩
    · exact hkept
    · exact hkept.2
    · rw [List.length_cons] at hlen
      omega
  · have hdir : env.directory.find name = some file.fileSize := by
      simp only [Env.directory, hfind, Option.map_some]
    obtain rfl := Program.machine_called hact hcalled hdir
    rw [hd.files_eq] at hfind
    refine ⟨⟨file, hfind, rfl, fun chain hchain hok hclusters => ?_⟩, hkept⟩
    have hfirst : v.InArea file.startingCluster := hchain.inArea _ hchain.first_mem
    have hm : Mounted io v := hmounted v (Mounted.of_reachable hd.boot hfirst hreach)
    exact hm.loaded hclusters hchain hok hload

theorem dispatch_seven_of_returned {amb : Ambient} {request : SyscallParam} {rc : ℕ}
    {k k' : Kernel} (h : (named m.kernel request).runProgramStart env amb
      (some m.kernel.sched.runningProc) (cstr (stoupper request.bytes)) = some (.returned rc k))
    (hfin : k.finishRun m.kernel.sched.runningProc rc = some k') :
    (entered m.kernel request).dispatch env amb 7 = some (.reply k') := by
  simp only [Kernel.dispatch, Option.bind_eq_bind]
  refine (congrArg (Option.bind · _) h).trans ?_
  exact (congrArg (Option.bind · _) hfin).trans rfl

theorem missing_step {ps : List Program} {amb : Ambient} {request : SyscallParam}
    (h : Stacked env m ps) (hne : ps ≠ []) (hlt : ps.length < 8)
    (hentries : env.bootSector.rootDirEntries ≤ 256) (hnames : env.NamesWithoutNul)
    (hfuel : 2 ≤ amb.fuel) (hfind : (env.files.find? fun file =>
      shortText file.filename = cstr (stoupper request.bytes)) = none) :
    ∃ m' reply, m.step env (.sys amb 7 request) = some (m', some reply) ∧ reply.int 0 = 1 ∧
      m'.frames = m.frames ∧ m'.kernel.mem = m.kernel.mem := by
  have hnamed := h.named request
  have hrun : m.kernel.sched.runningProc = ps.length := h.running_eq hne
  obtain ⟨io, hlook⟩ := hnamed.rooted.lookup_first hentries hnames amb hfuel
    (cstr (stoupper request.bytes))
  rw [hfind] at hlook
  have hget := getFreeSeg_framesOf hlt amb.seg
  rw [← hnamed.seg] at hget
  have hmissing : (named m.kernel request).runProgramStart env amb
      (some m.kernel.sched.runningProc) (cstr (stoupper request.bytes)) = some (.returned 1 _) :=
    Kernel.runProgramStart_of_missing hget hlook
  obtain ⟨sched, hset, -⟩ := Sched.setRunningProc_eq m.kernel.sched m.kernel.sched.runningProc
    (by rw [hrun]; exact List.length_pos_iff.mpr hne) (by rw [hrun]; exact hlt.le.trans (by decide))
  have hfin : ∀ k : Kernel, k.sched = m.kernel.sched → k.finishRun m.kernel.sched.runningProc 1 =
      some { k with params := k.params.setInt 0 1, sched := sched } := by
    intro k hk
    simp only [Kernel.finishRun, hk, hset, Option.bind_eq_bind, Option.bind_some]
    rfl
  exact ⟨_, _, step_of_reply (mt h.eq_nil_iff.mpr hne)
    (dispatch_seven_of_returned hmissing (hfin _ rfl)),
    SyscallParam.int_setInt (by decide), rfl, rfl⟩

theorem holds_floppy : (Env.ofVolume floppy).Holds floppy :=
  Env.holds_ofVolume (by decide +kernel) (by decide +kernel)

theorem delivers_floppyInit : ∀ c ∈ [2], (Env.ofVolume floppy).DeliversCluster floppy c :=
  fun c hc => Env.deliversCluster_ofVolume (floppyInit_chain.inArea c hc)

theorem loadable_floppyInit : floppy.Loadable [2] :=
  ⟨by decide +kernel, Or.inr (by decide +kernel), Or.inl (by decide +kernel)⟩

end Sys

end RML
