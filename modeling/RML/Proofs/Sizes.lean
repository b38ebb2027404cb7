import RML.Proofs.Clusters
import RML.Proofs.Directory
import RML.Spec.Device

/-! The sizes in a boot sector against the buffers of the kernel: the 1024 bytes of
`mount`'s `fat_table`, the 256 entries of `load`'s `file_list` and the 4096 bytes of
`load_file_content`'s `clust_buf`. -/

namespace RML

open Bytes

namespace Bios

variable (bios : Bios)

def bootSector : Fat16BootSector := .ofBytes (bios.readSectors 1 ⟨0, 0, 1⟩)

theorem bootSector_env : bios.env.bootSector = bios.bootSector := by
  have hfirst : nextHead (lbaToChs (0 / 512) 2 18) = ⟨0, 0, 1⟩ := by decide
  have hbytes : bios.dev 4 0 512 = bios.readSectors 1 ⟨0, 0, 1⟩ := by
    have hlen := bios.length_readSectors 1 ⟨0, 0, 1⟩
    rw [dev, devRounds_small (by decide) (le_refl 512), List.foldl_cons, List.foldl_nil, copy,
      hfirst, overwrite_zero, List.drop_nil, List.append_nil]
    show slice (bios.readSectors 1 ⟨0, 0, 1⟩ ++ _) 0 512 = _
    rw [slice, List.drop_zero, List.take_append_of_le_length (by omega), List.take_of_length_le
      (by omega)]
  exact congrArg Fat16BootSector.ofBytes hbytes

end Bios

def Io.fatRead (env : Env) (amb : Ambient) (io : Io) : Option Io.ReadResult :=
  (io.lseek 4 io.sPos.fatSectionStart 0).read env amb amb.fuel 4
    (io.bs.numberOfFats * io.bs.fatSizeSectors) 0

/-- What `read_fat`, `get_root_files` and `read_cluster` store fits the buffers they are given. -/
structure SizesFit (env : Env) : Prop where
  fatTable : ∀ amb io r, mounting.readBootSector env amb = some io →
    io.fatRead env amb = some r → r.bytes.length ≤ 1024
  fileList : ∀ m amb files io, Sys.Reachable env m →
    m.kernel.io.getRootFiles env amb = some (files, io) → files.length ≤ 256
  clustBuf : ∀ m amb io c bytes io', Sys.Reachable env m → m.kernel.io.Seeks 0 io →
    io.readCluster env amb c = some (bytes, io') → bytes.length ≤ 4096

theorem readFat_eq (env : Env) (amb : Ambient) (io : Io) : io.readFat env amb =
    (io.fatRead env amb).bind fun r => if 1024 < r.bytes.length then none else some r.io :=
  rfl

theorem fatRead_eq (env : Env) (h0 : env.bootSector.sectorSize ≠ 0) :
    ∃ io r, mounting.readBootSector env calm = some io ∧ io.fatRead env calm = some r ∧
      r.bytes = env.dev 4 (wrap env.bootSector.positions.fatSectionStart)
        (env.bootSector.numberOfFats * env.bootSector.fatSizeSectors) := by
  have hopened : (mounting.fdList 4).pfd = -1 := Io.disk_openFd_fdb _
  obtain ⟨io₁, hseeks, hboot⟩ := Io.readBootSector_eq env calm hopened
    (show 0 < calm.fuel by decide)
  rw [if_neg h0] at hboot
  let booted : Io := { io₁ with bs := env.bootSector, sPos := env.bootSector.positions }
  have hdisk : (booted.fdList 4).pfd = -1 := (hseeks.pfd 4).trans hopened
  obtain ⟨io₂, hread, -, -⟩ := Io.read_at env calm hdisk
    (show 0 < calm.fuel by decide) env.bootSector.positions.fatSectionStart
    (env.bootSector.numberOfFats * env.bootSector.fatSizeSectors)
  exact ⟨_, _, hboot, hread, rfl⟩

theorem boot_exists {env : Env} (h0 : env.bootSector.sectorSize ≠ 0)
    (hfat : env.bootSector.numberOfFats * env.bootSector.fatSizeSectors ≤ 1024) :
    ∃ m, Sys.Reachable env m := by
  obtain ⟨io, r, hboot, hread, hbytes⟩ := fatRead_eq env h0
  have hfits : ¬ 1024 < r.bytes.length := by
    rw [hbytes, not_lt]
    exact (env.length_dev_le _ _ _).trans hfat
  have hmount : (((({} : Io).openFd (ascii "/dev/stdout") 0).2).printk
      (ascii "starting kernel...\r\n")).mount env calm (ascii "/dev/fdb") =
        some (r.io.openFd (ascii "/") 0).2 := by
    have hname : strcmp (ascii "/dev/fdb") (ascii "/dev/fdb") = 0 := rfl
    have hfat : io.readFat env calm = some r.io := by
      rw [readFat_eq, hread, Option.bind_some, if_neg hfits]
    rw [mounting] at hboot
    simp only [Io.mount, hname, if_true, hboot, hfat, Option.bind_eq_bind, Option.bind_some]
  obtain ⟨k, hk⟩ : ∃ k, Kernel.startk env calm = some k := by
    simp only [Kernel.startk, hmount, Option.bind_eq_bind, Option.bind_some]
    exact ⟨_, rfl⟩
  exact ⟨⟨k, []⟩, ⟨k, []⟩, [], ⟨calm, k, hk, rfl⟩, .nil _⟩

/-- Nothing runs from a floppy whose sectors have no size. -/
theorem sectorSize_ne_zero {env : Env} {m : Sys} (h : Sys.Reachable env m) :
    env.bootSector.sectorSize ≠ 0 := by
  obtain ⟨m₀, es, hboot, -⟩ := h
  exact (Sys.boot_io hboot).1

theorem Io.length_rootFilesLoop {env : Env} {amb : Ambient} {n i : ℕ} {io io' : Io}
    {files : List Fat16Entry} (h : io.rootFilesLoop env amb n i = some (files, io')) :
    files.length = n := by
  induction n generalizing i io files with
  | zero =>
    cases h
    rfl
  | succ n ih =>
    simp only [rootFilesLoop, Option.bind_eq_bind, Option.bind_eq_some_iff, Option.some.injEq] at h
    obtain ⟨number, -, r, -, ⟨files', io₁⟩, hrest, heq⟩ := h
    cases heq
    rw [List.length_cons, ih hrest]

theorem Io.length_readCluster {env : Env} {amb : Ambient} {c : ℕ} {io io' : Io}
    {bytes : List UInt8} (hdisk : (io.fdList 4).pfd = -1)
    (h : io.readCluster env amb c = some (bytes, io')) : bytes.length ≤ io.clusterSize := by
  have hfuel : 0 < amb.fuel := by
    simp only [readCluster, Option.bind_eq_bind, Option.bind_eq_some_iff] at h
    obtain ⟨r, hr, -⟩ := h
    exact read_fuel_pos hr
  obtain ⟨io₁, hread, -⟩ := readCluster_eq env amb hdisk hfuel c
  cases hread.symm.trans h
  exact env.length_dev_le _ _ _

theorem length_rootDir (env : Env) : env.rootDir.length = env.bootSector.rootDirEntries := by
  rw [Env.rootDir, List.length_map, List.length_range]

variable {bios : Bios}

theorem within_of_sizesFit (h : SizesFit bios.env) (h0 : bios.bootSector.sectorSize ≠ 0) :
    bios.bootSector.numberOfFats * bios.bootSector.fatSizeSectors ≤ 1024 ∧
      bios.bootSector.rootDirEntries ≤ 256 ∧
      bios.bootSector.sectorSize * bios.bootSector.sectorsPerCluster ≤ 4096 := by
  rw [← bios.bootSector_env] at h0 ⊢
  have hfat : bios.env.bootSector.numberOfFats * bios.env.bootSector.fatSizeSectors ≤ 1024 := by
    obtain ⟨io, r, hboot, hread, hbytes⟩ := fatRead_eq bios.env h0
    by_contra hlong
    have hlen : 512 * 2 < r.bytes.length := by
      rw [hbytes]
      exact bios.lt_length_dev 4 _ (by omega)
    have hfits := h.fatTable calm io r hboot hread
    omega
  obtain ⟨m, hreach⟩ := boot_exists h0 hfat
  have hrooted := Rooted.of_reachable hreach
  refine ⟨hfat, ?_, ?_⟩
  · obtain ⟨io, hfiles⟩ := hrooted.getRootFiles calm (by decide)
    have hfits := h.fileList m calm _ io hreach hfiles
    rwa [length_rootDir] at hfits
  · obtain ⟨io, hread, -⟩ := Io.readCluster_eq bios.env calm hrooted.disk (by decide) 2
    have hfits := h.clustBuf m calm _ 2 _ io hreach (.refl 0 _) hread
    have hsize : m.kernel.io.clusterSize =
        bios.env.bootSector.sectorSize * bios.env.bootSector.sectorsPerCluster := by
      rw [Io.clusterSize, hrooted.bs]
    by_contra hlong
    have hlen : 512 * 8 < (bios.env.dev 4 (m.kernel.io.seekPos 2) m.kernel.io.clusterSize).length :=
      bios.lt_length_dev 4 _ (by omega)
    omega

theorem sizesFit_of_within
    (hfat : bios.bootSector.numberOfFats * bios.bootSector.fatSizeSectors ≤ 1024)
    (hroot : bios.bootSector.rootDirEntries ≤ 256)
    (hcluster : bios.bootSector.sectorSize * bios.bootSector.sectorsPerCluster ≤ 4096) :
    SizesFit bios.env := by
  rw [← bios.bootSector_env] at hfat hroot hcluster
  refine ⟨?_, ?_, ?_⟩
  · intro amb io r hboot hread
    obtain ⟨-, io₁, hseeks, rfl⟩ := Io.readBootSector_cases (Io.disk_openFd_fdb _) hboot
    let booted : Io :=
      { io₁ with bs := bios.env.bootSector, sPos := bios.env.bootSector.positions }
    have hdisk : (booted.fdList 4).pfd = -1 := (hseeks.pfd 4).trans (Io.disk_openFd_fdb _)
    obtain ⟨io₂, hread', -, -⟩ := Io.read_at bios.env amb hdisk (Io.read_fuel_pos hread)
      bios.env.bootSector.positions.fatSectionStart
      (bios.env.bootSector.numberOfFats * bios.env.bootSector.fatSizeSectors)
    obtain rfl := Option.some.inj (hread.symm.trans hread')
    exact (bios.env.length_dev_le _ _ _).trans hfat
  · intro m amb files io hreach hfiles
    simp only [Io.getRootFiles, Option.bind_eq_bind, Option.bind_eq_some_iff] at hfiles
    obtain ⟨number, -, hloop⟩ := hfiles
    have hlen := Io.length_rootFilesLoop hloop
    have hbs : ((m.kernel.io.lseek 5 0 0).printk (ascii
        "reading root directory\r\nroot directory entries:" ++ number ++ ascii "\r\n")).bs =
          bios.env.bootSector := by
      rw [(Io.seeks_printk _ _).bs, (Io.seeks_lseek _ 5 0 0).bs, (Rooted.of_reachable hreach).bs]
    rwa [hlen, hbs]
  · intro m amb io c bytes io' hreach hseeks hread
    have hrooted := (Rooted.of_reachable hreach).seeks hseeks
    have hlen := Io.length_readCluster hrooted.disk hread
    rw [Io.clusterSize, hrooted.bs] at hlen
    exact hlen.trans hcluster

/-- The sizes fit exactly when the products of the boot sector's fields do; with a
sector size of 0 the kernel stops at a division before it stores anything. -/
theorem disk_sizes_fit_iff (bios : Bios) :
    SizesFit bios.env ↔ bios.bootSector.sectorSize = 0 ∨
      bios.bootSector.numberOfFats * bios.bootSector.fatSizeSectors ≤ 1024 ∧
        bios.bootSector.rootDirEntries ≤ 256 ∧
        bios.bootSector.sectorSize * bios.bootSector.sectorsPerCluster ≤ 4096 := by
  constructor
  · intro h
    by_cases h0 : bios.bootSector.sectorSize = 0
    · exact Or.inl h0
    · exact Or.inr (within_of_sizesFit h h0)
  · rintro (h0 | ⟨hfat, hroot, hcluster⟩)
    · rw [← bios.bootSector_env] at h0
      refine ⟨?_, ?_, ?_⟩
      · intro amb io r hboot
        exact absurd h0 (Io.readBootSector_cases (Io.disk_openFd_fdb _) hboot).1
      · intro m amb files io hreach
        exact absurd h0 (sectorSize_ne_zero hreach)
      · intro m amb io c bytes io' hreach
        exact absurd h0 (sectorSize_ne_zero hreach)
    · exact sizesFit_of_within hfat hroot hcluster

/-- Clusters of sixteen sectors are read into a buffer of eight. -/
theorem disk_sizes_overrun : ¬ ∀ bios : Bios, SizesFit bios.env := by
  intro hlaw
  have hwithin := within_of_sizesFit (hlaw (.ofDisk (floppyBytes 16 [] [] []))) (by decide +kernel)
  exact absurd hwithin.2.2 (by decide +kernel)

end RML
