import RML.Proofs.Descriptors

/-! What `startk` leaves behind, and what every reachable state keeps of it. The
geometry comes from the boot sector that the second floppy delivers. -/

namespace RML

open Bytes

theorem Ambient.fill_full (amb : Ambient) {n : ℕ} {bs : List UInt8} (h : bs.length = n) :
    amb.fill n bs = bs := by
  simp [fill, ← h]

/-- Where the areas of a volume start, as `read_boot_sector` computes it. -/
def Fat16BootSector.positions (bs : Fat16BootSector) : SectionPositions :=
  let rootSectors := bs.rootDirEntries * 32 / bs.sectorSize
  let fatStart := wrap (bs.sectorSize * bs.reservedSectors)
  let rootStart := wrap (fatStart + bs.sectorSize * bs.fatSizeSectors * bs.numberOfFats)
  ⟨fatStart, wrap (rootStart + bs.sectorSize * rootSectors), rootStart⟩

/-- The boot sector of the floppy behind descriptor 4. -/
def Env.bootSector (env : Env) : Fat16BootSector := .ofBytes (env.dev 4 0 512)

def mounting : Io :=
  ((((({} : Io).openFd (ascii "/dev/stdout") 0).2).printk
    (ascii "starting kernel...\r\n")).openFd (ascii "/dev/fdb") 0).2

namespace Io

variable {env : Env} {amb : Ambient} {io io' : Io}

theorem readBootSector_eq (env : Env) (amb : Ambient) (hdisk : (io.fdList 4).pfd = -1)
    (hfuel : 0 < amb.fuel) :
    ∃ io₁, Seeks 0 io io₁ ∧ io.readBootSector env amb =
      if env.bootSector.sectorSize = 0 then none
      else some { io₁ with bs := env.bootSector, sPos := env.bootSector.positions } := by
  obtain ⟨io₁, hread, hseeks, -⟩ := read_at env amb hdisk hfuel 0 512
  have hpos : wrap 0 = 0 := rfl
  rw [hpos] at hread
  refine ⟨io₁, hseeks, ?_⟩
  simp only [readBootSector, hread, Option.bind_eq_bind, Option.bind_some,
    amb.fill_full (env.length_dev 4 0 512 (le_refl _))]
  rfl

theorem readBootSector_cases (hdisk : (io.fdList 4).pfd = -1)
    (h : io.readBootSector env amb = some io') :
    env.bootSector.sectorSize ≠ 0 ∧ ∃ io₁, Seeks 0 io io₁ ∧
      io' = { io₁ with bs := env.bootSector, sPos := env.bootSector.positions } := by
  have hfuel : 0 < amb.fuel := by
    simp only [readBootSector, Option.bind_eq_bind, Option.bind_eq_some_iff] at h
    obtain ⟨r, hr, -⟩ := h
    exact read_fuel_pos hr
  obtain ⟨io₁, hseeks, heq⟩ := readBootSector_eq env amb hdisk hfuel
  rw [heq] at h
  split_ifs at h with h0
  exact ⟨h0, io₁, hseeks, (Option.some.inj h).symm⟩

theorem seeks_readFat (h : io.readFat env amb = some io') : Seeks 0 io io' := by
  simp only [readFat, Option.bind_eq_bind, Option.bind_eq_some_iff] at h
  obtain ⟨r, hr, h⟩ := h
  split_ifs at h with hlong
  obtain rfl := Option.some.inj h
  exact (seeks_lseek io 4 _ 0).trans (seeks_read hr)

theorem mount_cases (h : io.mount env amb (ascii "/dev/fdb") = some io') :
    ∃ io₁ io₂, (io.openFd (ascii "/dev/fdb") 0).2.readBootSector env amb = some io₁ ∧
      io₁.readFat env amb = some io₂ ∧ io' = (io₂.openFd (ascii "/") 0).2 := by
  have hname : strcmp (ascii "/dev/fdb") (ascii "/dev/fdb") = 0 := rfl
  simp only [mount, hname, if_true, Option.bind_eq_bind, Option.bind_eq_some_iff,
    Option.some.injEq] at h
  obtain ⟨io₁, hboot, io₂, hfat, rfl⟩ := h
  exact ⟨io₁, io₂, hboot, hfat, rfl⟩

theorem disk_openFd_fdb (io : Io) : ((io.openFd (ascii "/dev/fdb") 0).2.fdList 4).pfd = -1 := by
  rw [openFd_fdb, update_fdList, if_pos ⟨rfl, rfl⟩]

end Io

namespace Sys

variable {env : Env} {m m' : Sys}

/-- The globals keep a stable property, and a process runs whenever a program does. -/
structure Settled (P : Io → Prop) (m : Sys) : Prop where
  io : P m.kernel.io
  running : m.frames ≠ [] → 1 ≤ m.kernel.sched.runningProc

theorem settled_boot {P : Io → Prop} (h : Boot env m) (hio : P m.kernel.io) : Settled P m := by
  obtain ⟨amb, k, hk, rfl⟩ := h
  exact ⟨hio, fun hne => absurd rfl hne⟩

theorem settled_step {P : Io → Prop} (hP : Io.Stable P) (m : Sys) (e : Event) (m' : Sys)
    (hm : Settled P m) (h : Step env m e m') : Settled P m' := by
  obtain ⟨out, hstep⟩ := h
  cases e with
  | init amb =>
    obtain ⟨-, -, ⟨rc, k, hstart, rfl⟩ | ⟨f, k, hstart, rfl⟩⟩ := step_init hstep
    · rcases Kernel.stable_start (k := restarted m.kernel) hP hm.io hstart with
        ⟨_, _, heq, hio⟩ | ⟨_, _, heq, -⟩
      · cases heq
        exact ⟨hio, fun hne => absurd rfl hne⟩
      · cases heq
    · rcases Kernel.stable_start (k := restarted m.kernel) hP hm.io hstart with
        ⟨_, _, heq, -⟩ | ⟨_, _, heq, hio, hrun⟩
      · cases heq
      · cases heq
        exact ⟨hio, fun _ => hrun⟩
  | exit =>
    obtain ⟨f, frames, hframes, ⟨-, rfl, -⟩ | ⟨pid, k, -, hfin, rfl, -⟩⟩ := step_exit hstep
    · exact ⟨hm.io, fun _ => hm.running (by rw [hframes]; exact List.cons_ne_nil _ _)⟩
    · obtain ⟨hsame, hrun⟩ := Kernel.finishRun_running hfin
      exact ⟨by rw [hsame]; exact hm.io, fun _ => hrun⟩
  | sys amb service request =>
    have hentered : P (entered m.kernel request).io := hP.entered hm.io
    obtain ⟨hne, ⟨-, f, k, hstart, rfl, -⟩ | ⟨-, rc, k, k', hstart, hfin, rfl, -⟩ |
      ⟨hs, io, params, hd, rfl, -⟩⟩ := step_call hstep
    · rcases Kernel.stable_start (k := named m.kernel request) hP hentered hstart with
        ⟨_, _, heq, -⟩ | ⟨_, _, heq, hio, hrun⟩
      · cases heq
      · cases heq
        exact ⟨hio, fun _ => hrun⟩
    · obtain ⟨hsame, hrun⟩ := Kernel.finishRun_running hfin
      rcases Kernel.stable_start (k := named m.kernel request) hP hentered hstart with
        ⟨_, _, heq, hio⟩ | ⟨_, _, heq, -⟩
      · cases heq
        exact ⟨by rw [hsame]; exact hio, fun _ => hrun⟩
      · cases heq
    · have hpid : (entered m.kernel request).sched.runningProc ≠ 0 :=
        Nat.one_le_iff_ne_zero.mp (hm.running hne)
      obtain ⟨k', heq, hio⟩ := Kernel.stable_dispatch (hP.forCaller hpid) hentered hs hd
      cases heq
      exact ⟨hio, fun _ => hm.running hne⟩

theorem settled_run {P : Io → Prop} {es : List Event} (hP : Io.Stable P) (h : Boot env m)
    (hio : P m.kernel.io) (hrun : Transition.Run (Step env) m es m') : Settled P m' :=
  hrun.invariant (Settled P) (settled_step hP) (settled_boot h hio)

theorem boot_io (h : Boot env m) : env.bootSector.sectorSize ≠ 0 ∧ ∃ io₁ io₂ : Io,
    mounting.Seeks 0 io₁ ∧
      { io₁ with bs := env.bootSector, sPos := env.bootSector.positions }.Seeks 0 io₂ ∧
      m.kernel.io = ((io₂.openFd (ascii "/") 0).2.openFd (ascii "/dev/stdin") 0).2 := by
  obtain ⟨amb, k, hk, rfl⟩ := h
  simp only [Kernel.startk, Option.bind_eq_bind, Option.bind_eq_some_iff, Option.some.injEq] at hk
  obtain ⟨io, hmount, rfl⟩ := hk
  obtain ⟨io₀, io₂, hboot, hfat, rfl⟩ := Io.mount_cases hmount
  obtain ⟨hsize, io₁, hseeks, rfl⟩ := Io.readBootSector_cases (Io.disk_openFd_fdb _) hboot
  exact ⟨hsize, io₁, io₂, hseeks, Io.seeks_readFat hfat, rfl⟩

theorem wired_boot (h : Boot env m) : m.kernel.io.Wired := by
  obtain ⟨-, io₁, io₂, hseeks, hkept, hio⟩ := boot_io h
  have hread : ∀ i, (io₂.fdList i).pfd = if i = 4 ∨ i = 1 then -1 else 0 := by
    intro i
    rw [hkept.pfd]
    show (io₁.fdList i).pfd = _
    rw [hseeks.pfd, mounting, Io.openFd_fdb, Io.update_fdList]
    by_cases h4 : i = 4
    · simp [h4]
    · rw [if_neg fun h => h4 h.2, (Io.seeks_printk _ _).pfd, Io.openFd_stdout, Io.update_fdList]
      by_cases h1 : i = 1
      · simp [h1]
      · simp [h1, h4]
  have hpfd : ∀ i, (m.kernel.io.fdList i).pfd =
      if i = 0 ∨ i = 4 ∨ i = 1 then -1 else if i = 5 then 4 else 0 := by
    intro i
    rw [hio, Io.openFd_stdin, Io.update_fdList]
    by_cases h0 : i = 0
    · simp [h0]
    · rw [if_neg fun h => h0 h.2, Io.openFd_root, Io.update_fdList]
      by_cases h5 : i = 5
      · simp [h5]
      · rw [if_neg fun h => h5 h.2, hread]
        simp [h0, h5]
  refine ⟨?_, ?_, by rw [hpfd]; rfl, by rw [hpfd]; rfl, by rw [hpfd]; rfl⟩
  · intro i
    rw [hpfd]
    split_ifs <;> simp
  · intro i hi
    rw [hpfd] at hi
    split_ifs at hi with h
    · omega

theorem settled_reachable (h : Reachable env m) : Settled Io.Wired m := by
  obtain ⟨m₀, es, hboot, hrun⟩ := h
  exact settled_run Io.stable_wired hboot (wired_boot hboot) hrun

end Sys

end RML
