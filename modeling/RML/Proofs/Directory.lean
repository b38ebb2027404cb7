import RML.Proofs.Numerals
import RML.Proofs.Startup
import RML.Spec.Volume

/-! The root directory behind descriptor 5. In every reachable state it lies where the
boot sector of the second floppy puts it, and reading descriptor 5 delivers its entries
one after the other. -/

namespace RML

open Bytes

namespace Env

variable (env : Env)

/-- What the kernel's read of entry `i` delivers. -/
def rootEntry (i : ℕ) : Fat16Entry :=
  .ofBytes (env.dev 4 (wrap (env.bootSector.positions.rootDirectoryStart + 32 * i)) 32)

def rootDir : List Fat16Entry := (List.range env.bootSector.rootDirEntries).map env.rootEntry

/-- The device has the bytes `dir` where its boot sector puts the root directory. -/
def DeliversDir (dir : List UInt8) : Prop :=
  ∀ i < env.bootSector.rootDirEntries,
    env.dev 4 (wrap (env.bootSector.positions.rootDirectoryStart + 32 * i)) 32 =
      slice dir (32 * i) 32

theorem DeliversDir.rootDir_eq {env : Env} {dir : List UInt8} (h : env.DeliversDir dir) :
    env.rootDir = dirEntries dir env.bootSector.rootDirEntries := by
  refine List.map_congr_left fun i hi => ?_
  rw [rootEntry, h i (List.mem_range.mp hi)]

theorem rootDirEntries_lt : env.bootSector.rootDirEntries < 65536 := by
  have hlt := ofLE_lt (slice (env.dev 4 0 512) 17 2)
  have hlen : (slice (env.dev 4 0 512) 17 2).length = 2 :=
    length_slice (by rw [env.length_dev 4 0 512 (le_refl _)]; decide)
  rwa [hlen] at hlt

end Env

theorem uitoa_some {i : ℕ} (h : i < 1000000) : ∃ l, uitoa i = some l := by
  have hlen : (Decimal.print i).length ≤ 6 := (Decimal.length_print_le_iff i 5).mpr h
  exact ⟨_, (uitoa_eq (lt_trans h (by decide))).trans (if_pos hlen)⟩

/-- The volume in the second drive is mounted, with descriptor 5 on its root directory. -/
structure Rooted (env : Env) (io : Io) : Prop where
  bs : io.bs = env.bootSector
  sPos : io.sPos = env.bootSector.positions
  disk : (io.fdList 4).pfd = -1
  pfd : (io.fdList 5).pfd = 4
  pfdOffset : (io.fdList 5).pfdOffset = env.bootSector.positions.rootDirectoryStart

namespace Rooted

variable {env : Env} {amb : Ambient} {io io' : Io}

theorem seeks {pid : ℕ} (hr : Rooted env io) (h : io.Seeks pid io') : Rooted env io' := by
  obtain ⟨pos, heq⟩ := h.fdList 5
  refine ⟨h.bs.trans hr.bs, h.sPos.trans hr.sPos, (h.pfd 4).trans hr.disk, ?_, ?_⟩
  · rw [heq, hr.pfd]
  · rw [heq, hr.pfdOffset]

theorem update {pid : ℕ} {fd : ℤ} {f : FileDescriptor → FileDescriptor} (hr : Rooted env io)
    (h4 : fd ≠ 4 ∨ (f (io.fdList fd)).pfd = -1)
    (h5 : fd ≠ 5 ∨ (f (io.fdList fd)).pfd = 4 ∧
      (f (io.fdList fd)).pfdOffset = env.bootSector.positions.rootDirectoryStart) :
    Rooted env (io.update pid fd f) := by
  refine ⟨?_, ?_, ?_, ?_, ?_⟩
  · rw [Io.update_bs, hr.bs]
  · rw [Io.update_sPos, hr.sPos]
  · rw [Io.update_fdList]
    split_ifs with h
    · exact h4.resolve_left (not_not.mpr h.2.symm)
    · exact hr.disk
  · rw [Io.update_fdList]
    split_ifs with h
    · exact (h5.resolve_left (not_not.mpr h.2.symm)).1
    · exact hr.pfd
  · rw [Io.update_fdList]
    split_ifs with h
    · exact (h5.resolve_left (not_not.mpr h.2.symm)).2
    · exact hr.pfdOffset

theorem openFd (hr : Rooted env io) (pathname : List UInt8) (pid : ℕ) :
    Rooted env (io.openFd pathname pid).2 := by
  unfold Io.openFd
  split_ifs <;> dsimp only
  · exact hr.update (Or.inl (by decide)) (Or.inl (by decide))
  · exact hr.update (Or.inl (by decide)) (Or.inl (by decide))
  · exact hr.update (Or.inl (by decide)) (Or.inl (by decide))
  · exact hr.update (Or.inr rfl) (Or.inl (by decide))
  · apply hr.update (Or.inl (by decide))
    refine Or.inr ⟨rfl, ?_⟩
    show io.sPos.rootDirectoryStart = _
    rw [hr.sPos]
  · exact hr

theorem stable (env : Env) : Io.Stable (Rooted env) where
  seeks hr h := hr.seeks h
  openFd pathname pid hr := hr.openFd pathname pid
  close fd pid hpid hr := by
    have hlist := Io.close_fdList ‹Io› fd hpid
    refine ⟨?_, ?_, ?_, ?_, ?_⟩
    · rw [Io.close, Io.update_bs, hr.bs]
    · rw [Io.close, Io.update_sPos, hr.sPos]
    · rw [hlist, hr.disk]
    · rw [hlist, hr.pfd]
    · rw [hlist, hr.pfdOffset]
  entered hr := ⟨hr.bs, hr.sPos, hr.disk, hr.pfd, hr.pfdOffset⟩

theorem of_boot {m : Sys} (h : Sys.Boot env m) : Rooted env m.kernel.io := by
  have hw := Sys.wired_boot h
  obtain ⟨-, io₁, io₂, -, hkept, hio⟩ := Sys.boot_io h
  have hroot : m.kernel.io.fdList 5 = (io₂.openFd (ascii "/") 0).2.fdList 5 := by
    rw [hio, Io.openFd_stdin, Io.update_fdList, if_neg (by decide)]
  rw [Io.openFd_root, Io.update_fdList, if_pos ⟨rfl, rfl⟩] at hroot
  refine ⟨?_, ?_, hw.disk, ?_, ?_⟩
  · rw [hio, Io.openFd_stdin, Io.update_bs, Io.openFd_root, Io.update_bs, hkept.bs]
  · rw [hio, Io.openFd_stdin, Io.update_sPos, Io.openFd_root, Io.update_sPos, hkept.sPos]
  · rw [hroot]
  · rw [hroot]
    show io₂.sPos.rootDirectoryStart = _
    rw [hkept.sPos]

theorem of_reachable {m : Sys} (h : Sys.Reachable env m) : Rooted env m.kernel.io := by
  obtain ⟨m₀, es, hboot, hrun⟩ := h
  exact (Sys.settled_run (stable env) hboot (of_boot hboot) hrun).io

end Rooted

/-- Descriptor 5 stands at entry `i` of the root directory. -/
structure AtEntry (env : Env) (i : ℕ) (io : Io) : Prop extends Rooted env io where
  pos : (io.fdList 5).pos = UInt32.ofNat (32 * i)

namespace AtEntry

variable {env : Env} {amb : Ambient} {io io' : Io} {i : ℕ}

theorem congr (h : AtEntry env i io) (hlist : io'.fdList = io.fdList) (hbs : io'.bs = io.bs)
    (hsPos : io'.sPos = io.sPos) : AtEntry env i io' :=
  ⟨⟨hbs.trans h.bs, hsPos.trans h.sPos, by rw [hlist, h.disk], by rw [hlist, h.pfd],
    by rw [hlist, h.pfdOffset]⟩, by rw [hlist, h.pos]⟩

theorem printk (h : AtEntry env i io) (string : List UInt8) : AtEntry env i (io.printk string) :=
  h.congr rfl rfl rfl

theorem lseek (h : Rooted env io) : AtEntry env 0 (io.lseek 5 0 0) := by
  refine ⟨h.seeks (Io.seeks_lseek io 5 0 0), ?_⟩
  rw [Io.lseek, Io.update_fdList, if_pos ⟨rfl, rfl⟩]

theorem read (h : AtEntry env i io) (amb : Ambient) {fuel : ℕ} (hfuel : 2 ≤ fuel) :
    ∃ r, io.read env amb fuel 5 32 0 = some r ∧
      Fat16Entry.ofBytes (amb.fill 32 r.bytes) = env.rootEntry i ∧ AtEntry env (i + 1) r.io := by
  obtain ⟨fuel, rfl⟩ : ∃ n, fuel = n + 2 := ⟨fuel - 2, by omega⟩
  obtain ⟨io₁, hread, hseeks, hothers⟩ := Io.read_at env amb h.disk (Nat.succ_pos fuel)
    (wrap ((io.fdList 5).pfdOffset + (io.fdList 5).pos.toNat)) 32
  have hpos : wrap (wrap ((io.fdList 5).pfdOffset + (io.fdList 5).pos.toNat)) =
      wrap (env.bootSector.positions.rootDirectoryStart + 32 * i) := by
    have htoNat : (UInt32.ofNat (32 * i)).toNat = 32 * i % 2 ^ 32 := UInt32.toNat_ofNat'
    rw [h.pfdOffset, h.pos, htoNat]
    simp only [wrap, Nat.mod_mod, Nat.add_mod_mod]
  rw [hpos] at hread
  refine ⟨Io.advance ⟨env.dev 4 (wrap (env.bootSector.positions.rootDirectoryStart + 32 * i)) 32,
    32, io₁⟩ 5, ?_, ?_, ?_, ?_⟩
  · rw [Io.read]
    simp only [h.pfd, hread]
    rfl
  · rw [Io.advance, amb.fill_full (env.length_dev 4 _ 32 (by decide))]
    rfl
  · exact (h.toRooted.seeks hseeks).seeks (Io.seeks_update io₁ 0 5 fun pos => pos + UInt32.ofNat 32)
  · rw [Io.advance, Io.update_fdList, if_pos ⟨rfl, rfl⟩]
    show (io₁.fdList 5).pos + UInt32.ofNat 32 = _
    rw [hothers 5 (by decide), h.pos, Nat.mul_add_one, UInt32.ofNat_add]

theorem rootFilesLoop (h : AtEntry env i io) (amb : Ambient) (hfuel : 2 ≤ amb.fuel) {n : ℕ}
    (hn : i + n ≤ 1000000) :
    ∃ io', io.rootFilesLoop env amb n i = some ((List.range' i n).map env.rootEntry, io') := by
  induction n generalizing i io with
  | zero => exact ⟨io, rfl⟩
  | succ n ih =>
    obtain ⟨number, hnumber⟩ := uitoa_some (show i < 1000000 by omega)
    let io₁ := io.printk (ascii "reading entry number " ++ number ++ ascii "\r\n")
    have h₁ : AtEntry env i (if i = 223 then io₁.printk (ascii "entry 223\r\n") else io₁) := by
      split_ifs
      · exact (h.printk _).printk _
      · exact h.printk _
    obtain ⟨r, hr, hentry, h₂⟩ := h₁.read amb hfuel
    obtain ⟨io', hrest⟩ := ih h₂ (by omega)
    refine ⟨io', ?_⟩
    simp only [Io.rootFilesLoop, hnumber, Option.bind_eq_bind, Option.bind_some]
    rw [hr]
    simp only [Option.bind_some, hrest, hentry, List.range'_succ, List.map_cons]

end AtEntry

theorem Rooted.getRootFiles {env : Env} {io : Io} (h : Rooted env io) (amb : Ambient)
    (hfuel : 2 ≤ amb.fuel) : ∃ io', io.getRootFiles env amb = some (env.rootDir, io') := by
  have hlt := env.rootDirEntries_lt
  obtain ⟨number, hnumber⟩ := uitoa_some (show io.bs.rootDirEntries < 1000000 by
    rw [h.bs]
    omega)
  have hstart := (AtEntry.lseek h).printk
    (ascii "reading root directory\r\nroot directory entries:" ++ number ++ ascii "\r\n")
  obtain ⟨io', hloop⟩ := hstart.rootFilesLoop amb hfuel
    (show 0 + env.bootSector.rootDirEntries ≤ 1000000 by omega)
  refine ⟨io', ?_⟩
  rw [Env.rootDir, List.range_eq_range', ← hloop, ← hstart.bs]
  simp only [Io.getRootFiles, hnumber, Option.bind_eq_bind, Option.bind_some]

/-- `get_root_next_file` delivers the next entry as long as there is one. -/
theorem AtEntry.getRootNextFile {env : Env} {io : Io} {i : ℕ} (h : AtEntry env i io)
    (amb : Ambient) (hfuel : 2 ≤ amb.fuel) (hi : i ≤ env.bootSector.rootDirEntries) :
    ∃ io', io.getRootNextFile env amb =
        some (if i < env.bootSector.rootDirEntries then some (env.rootEntry i) else none, io') ∧
      AtEntry env (if i < env.bootSector.rootDirEntries then i + 1 else i) io' := by
  have hlt := env.rootDirEntries_lt
  have hlooked : AtEntry env i { io with touched := io.touched ++ [(0, 5)] } := h.congr rfl rfl rfl
  have hpos : ((io.fdList 5).pos).toNat = 32 * i := by
    rw [h.pos]
    exact UInt32.toNat_ofNat_of_lt' (show 32 * i < 2 ^ 32 by omega)
  have hmore : wrap (((io.fdList 5).pos).toNat + 32) ≤ io.bs.rootDirEntries * 32 ↔
      i < env.bootSector.rootDirEntries := by
    rw [hpos, h.bs, wrap, Nat.mod_eq_of_lt (by omega)]
    omega
  by_cases hin : i < env.bootSector.rootDirEntries
  · obtain ⟨r, hr, hentry, hnext⟩ := hlooked.read amb hfuel
    rw [if_pos hin, if_pos hin]
    refine ⟨r.io, ?_, hnext⟩
    simp only [Io.getRootNextFile, if_pos (hmore.mpr hin), hr, hentry, Option.bind_eq_bind,
      Option.bind_some]
  · rw [if_neg hin, if_neg hin]
    refine ⟨{ io with touched := io.touched ++ [(0, 5)] }, ?_, hlooked⟩
    simp only [Io.getRootNextFile, if_neg (mt hmore.mp hin)]

end RML
