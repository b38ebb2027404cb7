import RML.Proofs.Launch
import Mathlib.Tactic.SplitIfs

/-! The descriptor tables. All of the kernel's own traffic only moves positions;
what is behind a descriptor changes in `open` and `close` alone, and in the
kernel's table it stays within one hop of a device. -/

namespace RML

open Bytes

namespace Io

variable {env : Env} {amb : Ambient} {io io' io'' : Io} {pid : ℕ} {fd : ℤ}

theorem update_fdList (io : Io) (pid : ℕ) (fd i : ℤ) (f : FileDescriptor → FileDescriptor) :
    (io.update pid fd f).fdList i =
      if pid = 0 ∧ i = fd then f (io.fdList fd) else io.fdList i := by
  unfold update
  by_cases hp : pid = 0
  · simp only [hp, if_true, true_and, Function.update_apply]
  · simp only [hp, if_false, false_and]

theorem update_filesTable (io : Io) (pid q : ℕ) (fd i : ℤ) (f : FileDescriptor → FileDescriptor) :
    (io.update pid fd f).filesTable q i =
      if pid ≠ 0 ∧ q = pid - 1 ∧ i = fd then f (io.filesTable (pid - 1) fd)
      else io.filesTable q i := by
  unfold update
  by_cases hp : pid = 0
  · simp only [hp, if_true, ne_eq, not_true_eq_false, false_and, if_false]
  · simp only [hp, if_false, ne_eq, not_false_eq_true, true_and, Function.update_apply]
    by_cases hq : q = pid - 1
    · simp only [hq, if_true, true_and, Function.update_apply]
    · simp only [hq, if_false, false_and]

@[simp] theorem update_touched (io : Io) (pid : ℕ) (fd : ℤ) (f : FileDescriptor → FileDescriptor) :
    (io.update pid fd f).touched = io.touched ++ [(pid, fd)] := by
  unfold update
  split_ifs <;> rfl

@[simp] theorem update_bs (io : Io) (pid : ℕ) (fd : ℤ) (f : FileDescriptor → FileDescriptor) :
    (io.update pid fd f).bs = io.bs := by
  unfold update
  split_ifs <;> rfl

@[simp] theorem update_sPos (io : Io) (pid : ℕ) (fd : ℤ) (f : FileDescriptor → FileDescriptor) :
    (io.update pid fd f).sPos = io.sPos := by
  unfold update
  split_ifs <;> rfl

/-- From `io` to `io'` positions moved, in the kernel's table and in that of `pid`,
and the record of accesses grew. -/
structure Seeks (pid : ℕ) (io io' : Io) : Prop where
  fdList : ∀ i, ∃ pos, io'.fdList i = { io.fdList i with pos := pos }
  own : ∀ i, ∃ pos, io'.filesTable (pid - 1) i = { io.filesTable (pid - 1) i with pos := pos }
  others : ∀ q, pid = 0 ∨ q ≠ pid - 1 → io'.filesTable q = io.filesTable q
  bs : io'.bs = io.bs
  sPos : io'.sPos = io.sPos
  touched : io.touched <+: io'.touched

theorem Seeks.of_tables (h1 : io'.fdList = io.fdList) (h2 : io'.filesTable = io.filesTable)
    (h3 : io'.bs = io.bs) (h4 : io'.sPos = io.sPos) (h5 : io'.touched = io.touched) :
    Seeks pid io io' :=
  ⟨fun i => ⟨(io.fdList i).pos, by rw [h1]⟩, fun i => ⟨(io.filesTable (pid - 1) i).pos, by rw [h2]⟩,
    fun q _ => by rw [h2], h3, h4, by rw [h5]⟩

theorem Seeks.refl (pid : ℕ) (io : Io) : Seeks pid io io := .of_tables rfl rfl rfl rfl rfl

theorem Seeks.trans (h : Seeks pid io io') (h' : Seeks pid io' io'') : Seeks pid io io'' := by
  refine ⟨?_, ?_, ?_, h'.bs.trans h.bs, h'.sPos.trans h.sPos, h.touched.trans h'.touched⟩
  · intro i
    obtain ⟨pos, h1⟩ := h.fdList i
    obtain ⟨pos', h2⟩ := h'.fdList i
    exact ⟨pos', by rw [h2, h1]⟩
  · intro i
    obtain ⟨pos, h1⟩ := h.own i
    obtain ⟨pos', h2⟩ := h'.own i
    exact ⟨pos', by rw [h2, h1]⟩
  · intro q hq
    rw [h'.others q hq, h.others q hq]

/-- What is done with pid 0 is no more than what any process may do. -/
theorem Seeks.of_zero (h : Seeks 0 io io') : Seeks pid io io' :=
  ⟨h.fdList, fun i => ⟨(io.filesTable (pid - 1) i).pos, by rw [h.others _ (Or.inl rfl)]⟩,
    fun q _ => h.others q (Or.inl rfl), h.bs, h.sPos, h.touched⟩

theorem seeks_update (io : Io) (pid : ℕ) (fd : ℤ) (pos : UInt32 → UInt32) :
    Seeks pid io (io.update pid fd fun d => { d with pos := pos d.pos }) := by
  refine ⟨?_, ?_, ?_, update_bs _ _ _ _, update_sPos _ _ _ _, by simp⟩
  · intro i
    rw [update_fdList]
    split_ifs with h
    · exact ⟨_, by rw [h.2]⟩
    · exact ⟨_, rfl⟩
  · intro i
    rw [update_filesTable]
    split_ifs with h
    · exact ⟨_, by rw [h.2.2]⟩
    · exact ⟨_, rfl⟩
  · intro q hq
    funext i
    rw [update_filesTable, if_neg]
    rintro ⟨hp, heq, -⟩
    exact hq.elim hp (fun hne => hne heq)

theorem seeks_lseek (io : Io) (fd : ℤ) (offset pid : ℕ) : Seeks pid io (io.lseek fd offset pid) :=
  seeks_update io pid fd fun _ => UInt32.ofNat offset

/-- The end of `read`: the kernel's descriptor moves on by what was read. -/
def advance (r : ReadResult) (fd : ℤ) : ReadResult :=
  { r with io := r.io.update 0 fd fun d =>
      { d with pos := d.pos + UInt32.ofNat r.bytesRead } }

/-- The four kinds of descriptor that `read` can meet in the kernel's table. -/
theorem read_cases {fuel count : ℕ} {r : ReadResult}
    (h : io.read env amb (fuel + 1) fd count pid = some r) :
    ∃ r', r = advance r' fd ∧
      ((io.fdList fd).pfd ≠ -1 ∧ (io.lseek (io.fdList fd).pfd
          (wrap ((io.fdList fd).pfdOffset + (io.fdList fd).pos.toNat)) pid).read env amb fuel
            (io.fdList fd).pfd count 0 = some r' ∨
        (io.fdList fd).pfd = -1 ∧ (fd = 3 ∨ fd = 4) ∧
          r' = ⟨env.dev fd (io.fdList fd).pos.toNat count, count, io⟩ ∨
        (io.fdList fd).pfd = -1 ∧ fd = 0 ∧
          r' = ⟨(List.range count).map fun i => env.key (io.keys + i), 0,
            { io with keys := io.keys + count }⟩ ∨
        (io.fdList fd).pfd = -1 ∧ ¬ (fd = 3 ∨ fd = 4) ∧ fd ≠ 0 ∧
          r' = ⟨[], amb.bytesRead, io⟩) := by
  simp only [read, Option.bind_eq_bind] at h
  split_ifs at h with hpfd hdev hkey
  · obtain ⟨r', hr', heq⟩ := Option.bind_eq_some_iff.mp h
    exact ⟨r', (Option.some.inj heq).symm, Or.inl ⟨hpfd, hr'⟩⟩
  · exact ⟨_, (Option.some.inj h).symm, Or.inr (Or.inl ⟨not_not.mp hpfd, hdev, rfl⟩)⟩
  · exact ⟨_, (Option.some.inj h).symm, Or.inr (Or.inr (Or.inl ⟨not_not.mp hpfd, hkey, rfl⟩))⟩
  · exact ⟨_, (Option.some.inj h).symm,
      Or.inr (Or.inr (Or.inr ⟨not_not.mp hpfd, hdev, hkey, rfl⟩))⟩

theorem read_device {fuel count : ℕ} (hpfd : (io.fdList fd).pfd = -1) :
    ∃ r, io.read env amb (fuel + 1) fd count pid = some r := by
  simp only [read, hpfd, ne_eq, not_true_eq_false, if_false]
  split_ifs
  · exact ⟨_, rfl⟩
  · exact ⟨_, rfl⟩
  · exact ⟨_, rfl⟩

theorem read_fuel_pos {fuel count : ℕ} {r : ReadResult}
    (h : io.read env amb fuel fd count pid = some r) : 0 < fuel := by
  rcases Nat.eq_zero_or_pos fuel with h0 | hpos
  · rw [h0, read] at h
    cases h
  · exact hpos

theorem seeks_read {fuel count : ℕ} {r : ReadResult}
    (h : io.read env amb fuel fd count pid = some r) : Seeks pid io r.io := by
  induction fuel generalizing io fd pid r with
  | zero => simp [read] at h
  | succ fuel ih =>
    obtain ⟨r', rfl, hcases⟩ := read_cases h
    have hinner : Seeks pid io r'.io := by
      rcases hcases with ⟨-, hr'⟩ | ⟨-, -, rfl⟩ | ⟨-, -, rfl⟩ | ⟨-, -, -, rfl⟩
      · exact (seeks_lseek _ _ _ _).trans (ih hr').of_zero
      · exact .refl _ _
      · exact .of_tables rfl rfl rfl rfl rfl
      · exact .refl _ _
    exact hinner.trans (seeks_update r'.io 0 fd fun pos => pos + UInt32.ofNat r'.bytesRead).of_zero

theorem read_at (env : Env) (amb : Ambient) {fuel : ℕ} (hdisk : (io.fdList 4).pfd = -1)
    (hfuel : 0 < fuel) (pos count : ℕ) :
    ∃ io', (io.lseek 4 pos 0).read env amb fuel 4 count 0 =
        some ⟨env.dev 4 (wrap pos) count, count, io'⟩ ∧ Seeks 0 io io' ∧
      ∀ i, i ≠ 4 → io'.fdList i = io.fdList i := by
  have hpfd : ((io.lseek 4 pos 0).fdList 4).pfd = -1 := by
    obtain ⟨_, heq⟩ := (seeks_lseek io 4 pos 0).fdList 4
    rw [heq, hdisk]
  have hpos : ((io.lseek 4 pos 0).fdList 4).pos.toNat = wrap pos := by
    rw [lseek, update_fdList, if_pos ⟨rfl, rfl⟩]
    exact UInt32.toNat_ofNat'
  obtain ⟨fuel, rfl⟩ : ∃ n, fuel = n + 1 := ⟨fuel - 1, by omega⟩
  obtain ⟨r, hr⟩ : ∃ r, (io.lseek 4 pos 0).read env amb (fuel + 1) 4 count 0 = some r :=
    read_device hpfd
  have hseeks := (seeks_lseek io 4 pos 0).trans (seeks_read hr)
  obtain ⟨r', rfl, ⟨hne, -⟩ | ⟨-, -, rfl⟩ | ⟨-, h0, -⟩ | ⟨-, hnot, -⟩⟩ := read_cases hr
  · exact absurd hpfd hne
  · refine ⟨_, ?_, hseeks, ?_⟩
    · rw [hr, hpos]
      rfl
    · intro i hi
      rw [advance, update_fdList, if_neg fun h => hi h.2, lseek, update_fdList,
        if_neg fun h => hi h.2]
  · cases h0
  · exact absurd (Or.inr rfl) hnot

theorem seeks_write (io : Io) (pid : ℕ) (fd : ℤ) (buf : List UInt8) :
    Seeks pid io (io.write fd buf) := by
  unfold write
  split_ifs
  · exact .of_tables rfl rfl rfl rfl rfl
  · exact .refl _ _

theorem seeks_printk (io : Io) (string : List UInt8) : Seeks 0 io (io.printk string) :=
  seeks_write io 0 1 string

theorem seeks_rootFilesLoop {n i : ℕ} {files : List Fat16Entry}
    (h : io.rootFilesLoop env amb n i = some (files, io')) : Seeks 0 io io' := by
  induction n generalizing i io files io' with
  | zero =>
    cases h
    exact .refl _ _
  | succ n ih =>
    simp only [rootFilesLoop, Option.bind_eq_bind, Option.bind_eq_some_iff, Option.some.injEq] at h
    obtain ⟨number, -, r, hr, ⟨files', io₁⟩, hrest, heq⟩ := h
    cases heq
    refine Seeks.trans ?_ ((seeks_read hr).trans (ih hrest))
    split_ifs
    · exact (seeks_printk _ _).trans (seeks_printk _ _)
    · exact seeks_printk _ _

theorem seeks_getRootFiles {files : List Fat16Entry}
    (h : io.getRootFiles env amb = some (files, io')) : Seeks 0 io io' := by
  simp only [getRootFiles, Option.bind_eq_bind, Option.bind_eq_some_iff] at h
  obtain ⟨number, -, hloop⟩ := h
  exact (seeks_lseek _ _ _ _).trans ((seeks_printk _ _).trans (seeks_rootFilesLoop hloop))

theorem seeks_readCluster {clusterNum : ℕ} {bytes : List UInt8}
    (h : io.readCluster env amb clusterNum = some (bytes, io')) : Seeks 0 io io' := by
  simp only [readCluster, Option.bind_eq_bind, Option.bind_eq_some_iff, Option.some.injEq] at h
  obtain ⟨r, hr, heq⟩ := h
  cases heq
  exact (seeks_lseek _ _ _ _).trans (seeks_read hr)

theorem seeks_getNextCluster {currCluster nextCluster : ℕ}
    (h : io.getNextCluster env amb currCluster = some (nextCluster, io')) : Seeks 0 io io' := by
  simp only [getNextCluster, Option.bind_eq_bind, Option.bind_eq_some_iff, Option.some.injEq] at h
  obtain ⟨r, hr, heq⟩ := h
  cases heq
  exact (seeks_lseek _ _ _ _).trans (seeks_read hr)

theorem seeks_loadLoop {segment fuel offset currCluster : ℕ} {mem mem' : ℕ → UInt8}
    {clustBuf : List UInt8}
    (h : loadLoop env amb segment fuel io mem clustBuf offset currCluster = some (io', mem')) :
    Seeks 0 io io' := by
  induction fuel generalizing io mem clustBuf offset currCluster with
  | zero => simp [loadLoop] at h
  | succ fuel ih =>
    simp only [loadLoop, Option.bind_eq_bind, Option.bind_eq_some_iff] at h
    obtain ⟨⟨bytes, io₁⟩, hread, h⟩ := h
    split at h
    · simp at h
    · obtain ⟨⟨next, io₂⟩, hnext, h⟩ := Option.bind_eq_some_iff.mp h
      have hboth := (seeks_readCluster hread).trans (seeks_getNextCluster hnext)
      split at h
      · exact hboth.trans (ih h)
      · cases h
        exact hboth

theorem seeks_getRootNextFile {next : Option Fat16Entry}
    (h : io.getRootNextFile env amb = some (next, io')) : Seeks 0 io io' := by
  have hlook : Seeks 0 io { io with touched := io.touched ++ [(0, 5)] } :=
    ⟨fun i => ⟨(io.fdList i).pos, rfl⟩, fun i => ⟨(io.filesTable (0 - 1) i).pos, rfl⟩,
      fun _ _ => rfl, rfl, rfl, List.prefix_append _ _⟩
  unfold getRootNextFile at h
  simp only at h
  split at h
  · simp only [Option.bind_eq_bind, Option.bind_eq_some_iff, Option.some.injEq] at h
    obtain ⟨r, hr, heq⟩ := h
    cases heq
    exact hlook.trans (seeks_read hr)
  · cases h
    exact hlook

theorem seeks_listLoop {fuel filesRead room filesRead' : ℕ} {buf buf' : List UInt8}
    (h : listLoop env amb fuel io buf filesRead room = some (filesRead', buf', io')) :
    Seeks 0 io io' := by
  induction fuel generalizing io buf filesRead room with
  | zero => simp [listLoop] at h
  | succ fuel ih =>
    rw [listLoop] at h
    split at h
    · cases h
      exact .refl _ _
    · simp only [Option.bind_eq_bind, Option.bind_eq_some_iff] at h
      obtain ⟨⟨next, io₁⟩, hnext, h⟩ := h
      have hone := seeks_getRootNextFile hnext
      cases next with
      | none =>
        cases h
        exact hone
      | some file =>
        simp only at h
        split at h
        · exact hone.trans (ih h)
        · split at h
          · exact hone.trans (ih h)
          · split at h
            · cases h
              exact hone
            · simp only [Option.bind_eq_some_iff] at h
              obtain ⟨⟨name, ext⟩, -, buf₁, -, h⟩ := h
              exact hone.trans (ih h)

/-- What `read` relies on: the console and the two floppies are the devices, and
every other descriptor of the kernel is layered on descriptor 0 or 4. -/
structure Wired (io : Io) : Prop where
  targets : ∀ fd, (io.fdList fd).pfd = -1 ∨ (io.fdList fd).pfd = 0 ∨ (io.fdList fd).pfd = 4
  devices : ∀ fd, (io.fdList fd).pfd = -1 → fd = 0 ∨ fd = 1 ∨ fd = 3 ∨ fd = 4
  stdin : (io.fdList 0).pfd = -1
  stdout : (io.fdList 1).pfd = -1
  disk : (io.fdList 4).pfd = -1

theorem Seeks.pfd (h : Seeks pid io io') (i : ℤ) : (io'.fdList i).pfd = (io.fdList i).pfd := by
  obtain ⟨pos, heq⟩ := h.fdList i
  rw [heq]

theorem Wired.of_pfd (hw : Wired io) (h : ∀ i, (io'.fdList i).pfd = (io.fdList i).pfd) :
    Wired io' := by
  refine ⟨?_, ?_, (h 0).trans hw.stdin, (h 1).trans hw.stdout, (h 4).trans hw.disk⟩
  · intro i
    rw [h]
    exact hw.targets i
  · intro i hi
    exact hw.devices i ((h i).symm.trans hi)

theorem Wired.seeks (hw : Wired io) (h : Seeks pid io io') : Wired io' :=
  hw.of_pfd h.pfd

theorem Wired.congr (hw : Wired io) (h : io'.fdList = io.fdList) : Wired io' :=
  hw.of_pfd fun i => by rw [h]

/-- `open` makes a device of the console or a floppy, and hangs the root directory
on the second one. -/
theorem Wired.update (hw : Wired io) (pid : ℕ) (fd : ℤ) {f : FileDescriptor → FileDescriptor}
    (hf : (f (io.fdList fd)).pfd = -1 ∧ (fd = 0 ∨ fd = 1 ∨ fd = 3 ∨ fd = 4) ∨
      (f (io.fdList fd)).pfd = 4 ∧ fd = 5) :
    Wired (io.update pid fd f) := by
  have hdevice : ∀ i, i = 0 ∨ i = 1 ∨ i = 4 → (io.fdList i).pfd = -1 →
      ((io.update pid fd f).fdList i).pfd = -1 := by
    intro i hi hold
    rw [update_fdList]
    split_ifs with h
    · rcases hf with ⟨hnew, -⟩ | ⟨-, h5⟩
      · exact hnew
      · omega
    · exact hold
  refine ⟨?_, ?_, hdevice 0 (by decide) hw.stdin, hdevice 1 (by decide) hw.stdout,
    hdevice 4 (by decide) hw.disk⟩
  · intro i
    rw [update_fdList]
    split_ifs
    · rcases hf with ⟨hnew, -⟩ | ⟨hnew, -⟩
      · exact Or.inl hnew
      · exact Or.inr (Or.inr hnew)
    · exact hw.targets i
  · intro i hi
    rw [update_fdList] at hi
    split_ifs at hi with h
    · rcases hf with ⟨-, hfd⟩ | ⟨hnew, -⟩
      · rwa [h.2]
      · rw [hnew] at hi
        cases hi
    · exact hw.devices i hi

theorem Wired.openFd (hw : Wired io) (pathname : List UInt8) (pid : ℕ) :
    Wired (io.openFd pathname pid).2 := by
  unfold Io.openFd
  split_ifs <;> dsimp only
  · apply hw.update pid 3
    exact Or.inl ⟨rfl, by decide⟩
  · apply hw.update pid 0
    exact Or.inl ⟨rfl, by decide⟩
  · apply hw.update pid 1
    exact Or.inl ⟨rfl, by decide⟩
  · apply hw.update pid 4
    exact Or.inl ⟨rfl, by decide⟩
  · apply hw.update pid 5
    exact Or.inr ⟨rfl, rfl⟩
  · exact hw

/-- A process closes its own descriptors only. -/
theorem close_fdList (io : Io) (fd : ℤ) (hpid : pid ≠ 0) : (io.close fd pid).fdList = io.fdList := by
  funext i
  rw [Io.close, update_fdList, if_neg]
  exact fun h => hpid h.1

theorem Wired.close (hw : Wired io) (fd : ℤ) (hpid : pid ≠ 0) : Wired (io.close fd pid) :=
  hw.congr (close_fdList io fd hpid)

/-- A property of the kernel's globals that survives whatever the kernel does with
descriptors, on its own behalf or for the process `pid`. -/
structure StableFor (pid : ℕ) (P : Io → Prop) : Prop where
  kernel : ∀ {io io'}, P io → Seeks 0 io io' → P io'
  seeks : ∀ {io io'}, P io → Seeks pid io io' → P io'
  openRoot : ∀ {io}, P io → P (io.openFd (ascii "/") 0).2
  openFd : ∀ {io} pathname, P io → P (io.openFd pathname pid).2
  close : ∀ {io} fd, P io → P (io.close fd pid)

/-- It survives that for every process. -/
structure Stable (P : Io → Prop) : Prop where
  seeks : ∀ {pid io io'}, P io → Seeks pid io io' → P io'
  openFd : ∀ {io} pathname pid, P io → P (io.openFd pathname pid).2
  close : ∀ {io} fd {pid}, pid ≠ 0 → P io → P (io.close fd pid)
  entered : ∀ {io}, P io → P { io with touched := [] }

theorem Stable.forCaller {P : Io → Prop} (hP : Stable P) (hpid : pid ≠ 0) : StableFor pid P where
  kernel hio h := hP.seeks hio h
  seeks hio h := hP.seeks hio h
  openRoot hio := hP.openFd _ 0 hio
  openFd pathname hio := hP.openFd pathname pid hio
  close fd hio := hP.close fd hpid hio

theorem stable_wired : Stable Wired where
  seeks hw h := hw.seeks h
  openFd pathname pid hw := hw.openFd pathname pid
  close fd _ hpid hw := hw.close fd hpid
  entered hw := hw.congr rfl

end Io

theorem Sched.setRunningProc_pos {s s' : Sched} {pid : ℕ} (h : s.setRunningProc pid = some s') :
    1 ≤ s'.runningProc := by
  by_cases hpid : 1 ≤ pid ∧ pid ≤ NUM_PROCESSES
  · simp only [Sched.setRunningProc, if_pos hpid, Option.some.injEq] at h
    subst h
    exact hpid.1
  · simp [Sched.setRunningProc, if_neg hpid] at h

namespace Kernel

variable {env : Env} {amb : Ambient} {k k' : Kernel}

theorem seeks_lookup {io io' : Io} {name : List UInt8} {found : Option Fat16Entry}
    (h : lookup env amb io name = some (found, io')) : io.Seeks 0 io' := by
  unfold lookup at h
  split at h
  · simp at h
  · simp only [Option.bind_eq_bind, Option.bind_eq_some_iff, Option.some.injEq] at h
    obtain ⟨⟨fileList, io₁⟩, hfiles, found', -, heq⟩ := h
    cases heq
    exact Io.seeks_getRootFiles hfiles

theorem seeks_processListLoop {n i : ℕ} {io io' : Io}
    (h : processListLoop k n i io = some io') : io.Seeks 0 io' := by
  induction n generalizing i io with
  | zero =>
    cases h
    exact .refl _ _
  | succ n ih =>
    simp only [processListLoop, Option.bind_eq_bind] at h
    split at h
    · exact ih h
    · simp only [Option.bind_eq_some_iff] at h
      obtain ⟨pid, -, ppid, -, cs, -, size, -, hrest⟩ := h
      exact (Io.seeks_printk _ _).trans (ih hrest)

theorem seeks_time {c : Clock} {io io' : Io} (h : time c io = some io') : io.Seeks 0 io' := by
  simp only [time, Option.bind_eq_bind, Option.bind_eq_some_iff, Option.some.injEq] at h
  obtain ⟨_, -, _, -, _, -, _, -, _, -, _, -, rfl⟩ := h
  exact Io.seeks_printk _ _

/-- `run_program` keeps what is stable, and what it starts is a process of the table. -/
theorem stable_start {P : Io → Prop} {currPid : Option ℕ} {name : List UInt8} {r : RunResult}
    (hP : Io.Stable P) (hio : P k.io) (h : k.runProgramStart env amb currPid name = some r) :
    (∃ rc k', r = .returned rc k' ∧ P k'.io) ∨
      ∃ f k', r = .started f k' ∧ P k'.io ∧ 1 ≤ k'.sched.runningProc := by
  rcases runProgramStart_cases rfl h with ⟨io, hlook, rfl⟩ |
    ⟨file, io, io', mem, pid, sched, hlook, hload, hreg, rfl⟩
  · exact Or.inl ⟨1, _, rfl, hP.seeks hio (seeks_lookup hlook)⟩
  · refine Or.inr ⟨_, _, rfl, hP.openFd _ pid (hP.openFd _ pid ?_), ?_⟩
    · exact hP.seeks (hP.seeks hio (seeks_lookup hlook)) (Io.seeks_loadLoop hload)
    · rcases hreg with ⟨-, -, hset⟩ | ⟨sched', -, hset⟩
      · exact Sched.setRunningProc_pos hset
      · exact Sched.setRunningProc_pos hset

theorem finishRun_running {pid retcode : ℕ} (h : k.finishRun pid retcode = some k') :
    k'.io = k.io ∧ 1 ≤ k'.sched.runningProc := by
  obtain ⟨sched, hset, rfl⟩ := finishRun_cases h
  exact ⟨rfl, Sched.setRunningProc_pos hset⟩

end Kernel

namespace Io

variable {env : Env} {amb : Ambient} {io io' : Io} {pid : ℕ}

theorem openFd_stdout (io : Io) (pid : ℕ) : io.openFd (ascii "/dev/stdout") pid =
    (1, io.update pid 1 fun d => { d with pos := 0, size := 0, pfd := -1, pfdOffset := 0 }) := rfl

theorem openFd_stdin (io : Io) (pid : ℕ) : io.openFd (ascii "/dev/stdin") pid =
    (0, io.update pid 0 fun d => { d with pos := 0, size := 0, pfd := -1, pfdOffset := 0 }) := rfl

theorem openFd_fdb (io : Io) (pid : ℕ) : io.openFd (ascii "/dev/fdb") pid =
    (4, io.update pid 4 fun d => { d with pos := 0, pfd := -1, size := 65535 }) := rfl

theorem openFd_root (io : Io) (pid : ℕ) : io.openFd (ascii "/") pid =
    (5, io.update pid 5 fun d =>
      { d with pos := 0, size := io.getRootSize, pfd := 4, pfdOffset := io.getRootOffset }) := rfl

theorem StableFor.exec {P : Io → Prop} {p : SyscallParam} {call : FileCall} {r : FileReply}
    (hP : StableFor pid P) (hio : P io)
    (h : io.exec env amb pid p call = some (r, io')) : P io' := by
  cases call with
  | list =>
    simp only [Io.exec, Option.bind_eq_bind, Option.bind_eq_some_iff, Option.some.injEq] at h
    obtain ⟨⟨filesRead, buf, io₁⟩, hlist, p', -, heq⟩ := h
    cases heq
    exact hP.kernel (hP.kernel (hP.openRoot hio) (seeks_lseek _ 5 0 0)) (seeks_listLoop hlist)
  | «open» pathname =>
    cases h
    exact hP.openFd pathname hio
  | close fd =>
    cases h
    exact hP.close fd hio
  | lseek fd offset =>
    cases h
    exact hP.seeks hio (seeks_lseek io fd offset pid)
  | read fd count =>
    simp only [Io.exec, Option.bind_eq_bind, Option.bind_eq_some_iff, Option.some.injEq] at h
    obtain ⟨r', hr', heq⟩ := h
    cases heq
    exact hP.seeks hio (seeks_read hr')
  | write fd count =>
    simp only [Io.exec] at h
    split at h
    · simp at h
    · cases h
      exact hP.seeks hio (seeks_write io pid fd _)

end Io

namespace Kernel

theorem stable_dispatch {P : Io → Prop} {env : Env} {amb : Ambient} {k : Kernel} {service : ℕ}
    {o : Outcome} (hP : Io.StableFor k.sched.runningProc P) (hio : P k.io)
    (hs : service ≠ 7) (h : k.dispatch env amb service = some o) :
    ∃ k', o = .reply k' ∧ P k'.io := by
  unfold dispatch at h
  split at h
  · cases h
    exact ⟨_, rfl, hP.kernel hio (Io.seeks_write k.io 0 1 _)⟩
  · simp at h
  · cases h
    exact ⟨_, rfl, hP.kernel hio (Io.seeks_write k.io 0 1 _)⟩
  · cases h
    exact ⟨_, rfl, hP.kernel hio (Io.seeks_write k.io 0 1 _)⟩
  · simp only [Option.bind_eq_bind, Option.bind_eq_some_iff, Option.some.injEq] at h
    obtain ⟨r, hr, p, -, rfl⟩ := h
    exact ⟨_, rfl, hP.kernel hio (Io.seeks_read hr)⟩
  · exact absurd rfl hs
  · simp only [Option.bind_eq_bind, Option.bind_eq_some_iff, Option.some.injEq] at h
    obtain ⟨io, hlist, rfl⟩ := h
    exact ⟨_, rfl, hP.kernel (hP.kernel hio (Io.seeks_printk _ _)) (seeks_processListLoop hlist)⟩
  · simp only [Option.bind_eq_bind, Option.bind_eq_some_iff, Option.some.injEq] at h
    obtain ⟨io, htime, rfl⟩ := h
    exact ⟨_, rfl, hP.kernel hio (seeks_time htime)⟩
  · split at h
    · cases h
      exact ⟨_, rfl, hio⟩
    · simp only [Option.bind_eq_bind, Option.bind_eq_some_iff, Option.some.injEq] at h
      obtain ⟨⟨r, io⟩, hexec, p, -, rfl⟩ := h
      exact ⟨_, rfl, hP.exec hio hexec⟩

end Kernel

end RML
