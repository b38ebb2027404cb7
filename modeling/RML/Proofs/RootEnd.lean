import RML.Proofs.Mounted
import RML.Proofs.Sectors
import RML.Proofs.Sizes
import RML.Spec.Volume

/-! The end of the root directory behind descriptor 5. `open` computes its size, and
`read` looks at it and does nothing, so that only requests which end within the
directory are served as an end-of-file test would serve them; and of these only the ones
whose first sector `lba_to_chs` gets right and for which the loop fetches enough sectors. -/

namespace RML

open Bytes Transition

def Fat16BootSector.rootSize (bs : Fat16BootSector) : ℕ :=
  wrap (bs.positions.dataSectionStart + 2 ^ 32 - bs.positions.rootDirectoryStart)

/-- Descriptor 5 is open on the root directory, with its size. -/
structure RootOpen (env : Env) (io : Io) : Prop extends Rooted env io where
  size : (io.fdList 5).size = env.bootSector.rootSize

namespace RootOpen

variable {env : Env} {amb : Ambient} {io io' : Io}

theorem seeks {pid : ℕ} (h : RootOpen env io) (hs : io.Seeks pid io') : RootOpen env io' := by
  obtain ⟨pos, heq⟩ := hs.fdList 5
  exact ⟨h.toRooted.seeks hs, by rw [heq, h.size]⟩

theorem update {pid : ℕ} {fd : ℤ} {f : FileDescriptor → FileDescriptor} (h : RootOpen env io)
    (hr : Rooted env (io.update pid fd f))
    (h5 : fd ≠ 5 ∨ (f (io.fdList fd)).size = env.bootSector.rootSize) :
    RootOpen env (io.update pid fd f) := by
  refine ⟨hr, ?_⟩
  rw [Io.update_fdList]
  split_ifs with hfd
  · exact h5.resolve_left (not_not.mpr hfd.2.symm)
  · exact h.size

theorem getRootSize (h : Rooted env io) : io.getRootSize = env.bootSector.rootSize := by
  rw [Io.getRootSize, h.sPos]
  rfl

theorem openFd (h : RootOpen env io) (pathname : List UInt8) (pid : ℕ) :
    RootOpen env (io.openFd pathname pid).2 := by
  have hr := h.toRooted.openFd pathname pid
  revert hr
  unfold Io.openFd
  split_ifs <;> dsimp only <;> intro hr
  · exact h.update hr (Or.inl (by decide))
  · exact h.update hr (Or.inl (by decide))
  · exact h.update hr (Or.inl (by decide))
  · exact h.update hr (Or.inl (by decide))
  · exact h.update hr (Or.inr (getRootSize h.toRooted))
  · exact h

theorem stable (env : Env) : Io.Stable (RootOpen env) where
  seeks h hs := h.seeks hs
  openFd pathname pid h := h.openFd pathname pid
  close fd pid hpid h :=
    ⟨(Rooted.stable env).close fd hpid h.toRooted, by rw [Io.close_fdList _ fd hpid, h.size]⟩
  entered h := ⟨(Rooted.stable env).entered h.toRooted, h.size⟩

theorem of_boot {m : Sys} (h : Sys.Boot env m) : RootOpen env m.kernel.io := by
  refine ⟨.of_boot h, ?_⟩
  obtain ⟨-, io₁, io₂, -, hkept, hio⟩ := Sys.boot_io h
  rw [hio, Io.openFd_stdin, Io.update_fdList, if_neg (by decide), Io.openFd_root, Io.update_fdList,
    if_pos ⟨rfl, rfl⟩]
  show io₂.getRootSize = _
  rw [Io.getRootSize, hkept.sPos]
  rfl

theorem of_reachable {m : Sys} (h : Sys.Reachable env m) : RootOpen env m.kernel.io := by
  obtain ⟨m₀, es, hboot, hrun⟩ := h
  exact (Sys.settled_run (stable env) hboot (of_boot hboot) hrun).io

theorem read_eq (h : RootOpen env io) (amb : Ambient) (hfuel : 2 ≤ amb.fuel) (count : ℕ) :
    ∃ r, io.read env amb amb.fuel 5 count 0 = some r ∧ r.bytes =
        env.dev 4 (wrap (env.bootSector.positions.rootDirectoryStart + (io.fdList 5).pos.toNat)) count ∧
      r.bytesRead = count ∧ (r.io.fdList 5).pos = (io.fdList 5).pos + UInt32.ofNat count ∧
      RootOpen env r.io := by
  obtain ⟨fuel, hfuel'⟩ : ∃ n, amb.fuel = n + 2 := ⟨amb.fuel - 2, by omega⟩
  obtain ⟨io₁, hread, hseeks, hothers⟩ := Io.read_at env amb h.disk (Nat.succ_pos fuel)
    (wrap ((io.fdList 5).pfdOffset + (io.fdList 5).pos.toNat)) count
  rw [h.pfdOffset] at hread
  have hpos : ∀ n, wrap (wrap n) = wrap n := fun n => Nat.mod_mod _ _
  rw [hpos] at hread
  refine ⟨Io.advance ⟨env.dev 4 _ count, count, io₁⟩ 5, ?_, rfl, rfl, ?_, ?_⟩
  · rw [hfuel', Io.read]
    simp only [h.pfd, h.pfdOffset, hread]
    rfl
  · rw [Io.advance, Io.update_fdList, if_pos ⟨rfl, rfl⟩]
    show (io₁.fdList 5).pos + UInt32.ofNat count = _
    rw [hothers 5 (by decide)]
  · exact (h.seeks hseeks).seeks (Io.seeks_update io₁ 0 5 fun pos => pos + UInt32.ofNat count)

end RootOpen

namespace Bios

variable (bios : Bios)

theorem length_roundsLoop_le_of {drive : UInt8} {n bound : ℕ} {chs : Chs}
    {numBytes sectorOffset newBuf : ℕ} {buf : List UInt8} (hoff : sectorOffset < 512)
    (hbuf : buf.length ≤ bound) (hfirst : n ≠ 0 → newBuf + 512 ≤ bound)
    (hlast : newBuf + 512 * n ≤ bound + sectorOffset) :
    ((roundsLoop n chs numBytes sectorOffset newBuf).foldl (bios.copy drive) buf).length ≤ bound := by
  induction n generalizing chs numBytes sectorOffset newBuf buf with
  | zero => exact hbuf
  | succ n ih =>
    have hcopy : ∀ len ≤ 512,
        (bios.copy drive buf ⟨nextHead chs, sectorOffset, len, newBuf⟩).length ≤ bound := by
      intro len hlen
      have hcopied := @length_copied bios drive (nextHead chs) _ _ hoff.le hlen
      have hend := hfirst (Nat.succ_ne_zero n)
      simp only [copy, overwrite, List.length_append, List.length_take, List.length_drop, hcopied]
      omega
    have hnext : n ≠ 0 → newBuf + (512 - sectorOffset) + 512 ≤ bound := by omega
    have hend : newBuf + (512 - sectorOffset) + 512 * n ≤ bound + 0 := by omega
    rw [roundsLoop]
    by_cases hmore : 512 < numBytes
    · rw [if_pos hmore, List.foldl_cons]
      exact ih (by decide) (hcopy 512 (le_refl 512)) hnext hend
    · rw [if_neg hmore, List.foldl_cons]
      exact ih (by decide) (hcopy numBytes (not_lt.mp hmore)) hnext hend

/-- A request of more than a sector that its sectors have no room for is cut short. -/
theorem fits_of_length_dev {fd : ℤ} {pos count : ℕ} (hlong : 512 < count)
    (hlen : (bios.dev fd pos count).length = count) :
    pos % 512 + count ≤ 512 * numSectors count := by
  have hoff : pos % 512 < 512 := Nat.mod_lt _ (by decide)
  have hspec := numSectors_spec count
  have hbound : (bios.dev fd pos count).length ≤ 512 * numSectors count - pos % 512 :=
    bios.length_roundsLoop_le_of hoff (Nat.zero_le _) (fun _ => by omega) (by omega)
  omega

theorem take_foldl_copy {drive : UInt8} {rs : List Round} {buf : List UInt8} {k : ℕ}
    (hdst : ∀ r ∈ rs, k ≤ r.dst) (hbuf : k ≤ buf.length) :
    (rs.foldl (bios.copy drive) buf).take k = buf.take k := by
  induction rs generalizing buf with
  | nil => rfl
  | cons r rs ih =>
    have hkept : (bios.copy drive buf r).take k = buf.take k := by
      rw [copy, take_overwrite_of_le (hdst r List.mem_cons_self) hbuf]
    rw [List.foldl_cons, ih (fun r' hr => hdst r' (List.mem_cons_of_mem r hr))
      (hbuf.trans (bios.length_le_copy drive buf r)), hkept]

/-- The first round decides the bytes up to the end of its sector. -/
theorem take_dev {fd : ℤ} {pos count k : ℕ} (hk : k ≤ count) (hsector : pos % 512 + k ≤ 512)
    (hfits : pos % 512 + count ≤ 512 * numSectors count ∨ count ≤ 512) :
    (bios.dev fd pos count).take k =
      slice (bios.sectorBuf (drive fd) (nextHead (lbaToChs (pos / 512) 2 18))) (pos % 512) k := by
  have hspec := numSectors_spec count
  by_cases h0 : count = 0
  · obtain rfl : k = 0 := by omega
    simp [slice]
  have hcut : ∀ n, k ≤ n → (slice (bios.sectorBuf (drive fd)
      (nextHead (lbaToChs (pos / 512) 2 18))) (pos % 512) n).take k =
        slice (bios.sectorBuf (drive fd) (nextHead (lbaToChs (pos / 512) 2 18))) (pos % 512) k := by
    intro n hn
    rw [slice, slice, List.take_take, Nat.min_eq_left hn]
  by_cases hshort : count ≤ 512
  · rw [dev, @devRounds_small pos count h0 hshort, List.foldl_cons, List.foldl_nil, copy,
      overwrite_zero, List.drop_nil, List.append_nil, hcut count hk]
  · obtain ⟨n, hn⟩ : ∃ n, numSectors count = n + 1 := ⟨numSectors count - 1, by omega⟩
    have hoff : pos % 512 < 512 := Nat.mod_lt _ (by decide)
    have hfirst : bios.copy (drive fd) [] ⟨nextHead (lbaToChs (pos / 512) 2 18), pos % 512, 512, 0⟩ =
        slice (bios.sectorBuf (drive fd) (nextHead (lbaToChs (pos / 512) 2 18))) (pos % 512) 512 := by
      rw [copy, overwrite_zero, List.drop_nil, List.append_nil]
    rw [dev, devRounds, rounds, hn, roundsLoop, if_pos (not_le.mp hshort), List.foldl_cons,
      take_foldl_copy, hfirst, hcut 512 (by omega)]
    · intro r hr
      have hdst := (roundsLoop_within (by omega) (by omega) r hr).1
      omega
    · rw [hfirst, bios.length_copied hoff.le (le_refl _)]
      omega

/-- A short request that its sector has no room for takes a byte from behind `sector_buf`. -/
theorem dev_behind {fd : ℤ} {pos count : ℕ} (hshort : count ≤ 512) (hout : 512 < pos % 512 + count) :
    (bios.dev fd pos count)[512 - pos % 512]? = some (bios.stack 0) := by
  have hoff : pos % 512 < 512 := Nat.mod_lt _ (by decide)
  have hsector : ∀ chs, (bios.readSectors (drive fd) chs).length = 512 :=
    bios.length_readSectors (drive fd)
  have hone : bios.dev fd pos count = slice (bios.sectorBuf (drive fd)
      (nextHead (lbaToChs (pos / 512) 2 18))) (pos % 512) count := by
    rw [dev, devRounds_small (by omega) hshort, List.foldl_cons, List.foldl_nil, copy,
      overwrite_zero, List.drop_nil, List.append_nil]
  rw [hone, getElem?_slice, if_pos (by omega), Nat.add_sub_cancel' hoff.le, sectorBuf,
    List.getElem?_append_right (hsector _).le, hsector, Nat.sub_self, List.getElem?_map,
    List.getElem?_range (by decide), Option.map_some]

theorem Holds.bootSector_eq {bios : Bios} {disk : List UInt8} (h : bios.Holds disk) :
    bios.env.bootSector = .ofBytes disk := by
  have hfirst : bios.readSectors 1 ⟨0, 0, 1⟩ = slice disk (512 * 0) 512 :=
    h _ 0 ((numbers_iff _ _).mpr ⟨by decide, by decide⟩)
  rw [bootSector_env, bootSector, hfirst]
  exact Fat16BootSector.ofBytes_take disk

end Bios

inductive RootCall where
  | lseek (offset : ℕ)
  | read (amb : Ambient) (count : ℕ)

def RootStep (env : Env) (io : Io) (call : RootCall) (io' : Io) : Prop :=
  match call with
  | .lseek offset => io' = io.lseek 5 offset 0
  | .read amb count => ∃ r, io.read env amb amb.fuel 5 count 0 = some r ∧ r.io = io'

theorem rootOpen_step {env : Env} (io : Io) (call : RootCall) (io' : Io) (h : RootOpen env io)
    (hstep : RootStep env io call io') : RootOpen env io' := by
  cases call with
  | lseek offset =>
    obtain rfl : io' = io.lseek 5 offset 0 := hstep
    exact h.seeks (Io.seeks_lseek io 5 offset 0)
  | read amb count =>
    obtain ⟨r, hr, rfl⟩ := hstep
    exact h.seeks (Io.seeks_read hr)

/-- The bytes that are left at the position of descriptor 5. -/
def rootLeft (io : Io) : ℕ := (io.fdList 5).size - (io.fdList 5).pos.toNat

/-- The kernel's `read` of descriptor 5 delivers what is left of `count` bytes, as the floppy
has them in the root directory, returns their number and advances by it: whatever the floppy
holds behind its boot sector, and whatever the stack does. -/
def ReadsRoot (amb : Ambient) (io : Io) (count : ℕ) : Prop :=
  let start := io.sPos.rootDirectoryStart + (io.fdList 5).pos.toNat
  let n := min count (rootLeft io)
  (n ≠ 0 → start + n ≤ io.sPos.dataSectionStart) ∧
    ∀ (bios : Bios) (disk : List UInt8), disk.length = 512 * 2880 → bios.Holds disk →
      Fat16BootSector.ofBytes disk = io.bs →
      ∃ r, io.read bios.env amb amb.fuel 5 count 0 = some r ∧ r.bytes.length = n ∧
        r.bytes = slice disk start n ∧ r.bytesRead = n ∧
        (r.io.fdList 5).pos.toNat = (io.fdList 5).pos.toNat + n

/-- A request that ends within the root directory and on the floppy, on a volume whose data
area does not wrap around in front of it; its first sector does not end a track, and the
loop fetches the sectors that it touches. -/
def WithinRoot (io : Io) (count : ℕ) : Prop :=
  let start := io.sPos.rootDirectoryStart + (io.fdList 5).pos.toNat
  count = 0 ∨ (io.fdList 5).pos.toNat + count ≤ (io.fdList 5).size ∧
    io.sPos.rootDirectoryStart ≤ io.sPos.dataSectionStart ∧ start + count ≤ 512 * 2880 ∧
    (start / 512 + 1) % 18 ≠ 0 ∧ start % 512 + count ≤ 512 * numSectors count

section Reads

variable {bios : Bios} {disk : List UInt8} {amb : Ambient} {io : Io} {count : ℕ}

theorem RootOpen.positions_lt {env : Env} (h : RootOpen env io) :
    io.sPos.rootDirectoryStart < 2 ^ 32 ∧ io.sPos.dataSectionStart < 2 ^ 32 ∧
      (io.fdList 5).size =
        wrap (io.sPos.dataSectionStart + 2 ^ 32 - io.sPos.rootDirectoryStart) := by
  rw [h.size, h.sPos]
  exact ⟨Nat.mod_lt _ (by decide), Nat.mod_lt _ (by decide), rfl⟩

/-- The boot sector is all that an open root directory depends on. -/
theorem RootOpen.of_holds {env : Env} (h : RootOpen env io) (hholds : bios.Holds disk)
    (hbs : Fat16BootSector.ofBytes disk = io.bs) : RootOpen bios.env io := by
  have hsame : bios.env.bootSector = env.bootSector := by rw [hholds.bootSector_eq, hbs, h.bs]
  exact ⟨⟨h.bs.trans hsame.symm, by rw [h.sPos, hsame], h.disk, h.pfd, by rw [h.pfdOffset, hsame]⟩,
    by rw [h.size, hsame]⟩

/-- The triple of a sector that ends its track is that of another sector of the floppy. -/
theorem misplaced {l : ℕ} (hl : l < 2880) (hend : (l + 1) % 18 = 0) :
    ∃ l' < 2880, l' ≠ l ∧ nextHead (lbaToChs l 2 18) = chsOf l' := by
  have htwo : (2 : UInt8).toNat = 2 ∧ (18 : UInt8).toNat = 18 := ⟨rfl, rfl⟩
  have hwrap : wrap (l + 1) = l + 1 := Nat.mod_eq_of_lt (by omega)
  -- the other side of the same cylinder
  have hother : ∀ l', l' / 36 = l / 36 → l' % 18 = 17 → l' / 18 % 2 = (l + 1) / 18 % 2 →
      nextHead (lbaToChs l 2 18) = chsOf l' := by
    intro l' hcylinder hsector hhead
    have heq : lbaToChs l 2 18 = chsOf l' := by
      simp only [lbaToChs, chsOf, htwo.1, htwo.2, hwrap, hcylinder, hsector, hhead]
      have hlast : l % 18 = 17 := by omega
      rw [hlast]
    rw [heq, nextHead, if_neg]
    rw [UInt8.lt_iff_toNat_lt, toNat_sector_chsOf, hsector]
    decide
  by_cases hside : l / 18 % 2 = 0
  · exact ⟨l + 18, by omega, by omega, hother _ (by omega) (by omega) (by omega)⟩
  · exact ⟨l - 18, by omega, by omega, hother _ (by omega) (by omega) (by omega)⟩

theorem ofBytes_set {i : ℕ} (hi : 512 ≤ i) (b : UInt8) :
    Fat16BootSector.ofBytes (disk.set i b) = Fat16BootSector.ofBytes disk := by
  rw [← Fat16BootSector.ofBytes_take (disk.set i b), List.take_set_of_le hi,
    Fat16BootSector.ofBytes_take]

/-- Whatever byte behind the boot sector is another one, the sector loop delivers what is on
the floppy. -/
def Bios.Serves (disk : List UInt8) (start count : ℕ) : Prop :=
  ∀ i b, 512 ≤ i →
    (Bios.ofDisk (disk.set i b)).dev 4 start count = slice (disk.set i b) start count ∧
      (slice (disk.set i b) start count).length = count

namespace Bios.Serves

variable {start : ℕ}

theorem le_disk (h : Serves disk start count) (hlen : disk.length = 512 * 2880) (h0 : count ≠ 0) :
    start + count ≤ 512 * 2880 := by
  have hwhole := (h 512 0 (le_refl _)).2
  rw [slice, List.length_take, List.length_drop, List.length_set, hlen] at hwhole
  omega

theorem fits (h : Serves disk start count) (hlen : disk.length = 512 * 2880) (h0 : count ≠ 0) :
    start % 512 + count ≤ 512 * numSectors count := by
  have hon := h.le_disk hlen h0
  have hspec := numSectors_spec count
  have hoff : start % 512 < 512 := Nat.mod_lt _ (by decide)
  by_contra hnot
  by_cases hlong : 512 < count
  · obtain ⟨heq, hlength⟩ := h 512 0 (le_refl _)
    exact hnot (fits_of_length_dev _ hlong (heq ▸ hlength))
  · -- the first byte of the next sector is not what the stack holds
    have hnext : start + (512 - start % 512) = 512 * (start / 512 + 1) := by omega
    obtain ⟨heq, -⟩ := h (512 * (start / 512 + 1)) 1 (by omega)
    have hbyte := congrArg (fun bytes : List UInt8 => bytes[512 - start % 512]?) heq
    rw [dev_behind _ (by omega) (by omega), getElem?_slice, if_pos (by omega), hnext,
      List.getElem?_set_self (by omega)] at hbyte
    cases hbyte

theorem track (h : Serves disk start count) (hlen : disk.length = 512 * 2880) (h0 : count ≠ 0) :
    (start / 512 + 1) % 18 ≠ 0 := by
  intro htrack
  have hon := h.le_disk hlen h0
  have hfits := h.fits hlen h0
  obtain ⟨l', hl', hne, hchs⟩ := @misplaced (start / 512) (by omega) htrack
  have hplace : 512 * l' + start % 512 ≠ start := by omega
  have hin : 512 * l' + start % 512 < disk.length := by omega
  -- the byte asked for is not the one in the sector that is fetched
  obtain ⟨b, hb⟩ : ∃ b, disk[512 * l' + start % 512]? = some b := ⟨_, List.getElem?_eq_getElem hin⟩
  obtain ⟨heq, -⟩ := h start (b + 1) (by omega)
  have hholds := @holds_ofDisk (disk.set start (b + 1)) (by rw [List.length_set, hlen])
  have hsector : (ofDisk (disk.set start (b + 1))).readSectors 1 (chsOf l') =
      slice (disk.set start (b + 1)) (512 * l') 512 := hholds _ l' ((numbers_iff _ _).mpr ⟨hl', rfl⟩)
  have hfirst : ((ofDisk (disk.set start (b + 1))).dev 4 start count).take 1 =
      slice (disk.set start (b + 1)) (512 * l' + start % 512) 1 := by
    rw [take_dev _ (by omega) (by omega) (Or.inl hfits), hchs]
    exact slice_sectorBuf (by omega) hsector
  have hbyte := congrArg (fun bytes : List UInt8 => bytes[0]?) hfirst
  rw [heq, List.getElem?_take, if_pos (by decide), getElem?_slice, if_pos (by omega), getElem?_slice,
    if_pos (by decide), Nat.add_zero, Nat.add_zero, List.getElem?_set_self (by omega),
    List.getElem?_set_ne hplace.symm, hb, Option.some.injEq, UInt8.add_eq_left] at hbyte
  cases hbyte

end Bios.Serves

theorem ReadsRoot.serves (h : RootOpen bios.env io) (hfuel : 2 ≤ amb.fuel)
    (hlen : disk.length = 512 * 2880) (hbs : Fat16BootSector.ofBytes disk = io.bs)
    (hreads : ReadsRoot amb io count) (h0 : count ≠ 0) :
    count ≤ rootLeft io ∧
      io.sPos.rootDirectoryStart + (io.fdList 5).pos.toNat + count ≤ io.sPos.dataSectionStart ∧
      Bios.Serves disk (io.sPos.rootDirectoryStart + (io.fdList 5).pos.toNat) count := by
  obtain ⟨harea, hmachines⟩ := hreads
  -- what the code does on such a machine, and what it should do
  have hread : ∀ i b, 512 ≤ i → ∃ bytes,
      (Bios.ofDisk (disk.set i b)).dev 4
        (wrap (io.sPos.rootDirectoryStart + (io.fdList 5).pos.toNat)) count = bytes ∧
      bytes.length = min count (rootLeft io) ∧
      bytes = slice (disk.set i b) (io.sPos.rootDirectoryStart + (io.fdList 5).pos.toNat)
        (min count (rootLeft io)) ∧ count = min count (rootLeft io) := by
    intro i b hi
    have hlen' : (disk.set i b).length = 512 * 2880 := by rw [List.length_set, hlen]
    have hholds := Bios.holds_ofDisk hlen'
    have hbs' : Fat16BootSector.ofBytes (disk.set i b) = io.bs := (ofBytes_set hi b).trans hbs
    have hopen := h.of_holds hholds hbs'
    obtain ⟨r, hr, hbytes, hreturned, -, -⟩ := hopen.read_eq amb hfuel count
    obtain ⟨r', hr', hlength, hslice, hcount, -⟩ := hmachines _ _ hlen' hholds hbs'
    rw [hr, Option.some.injEq] at hr'
    subst hr'
    rw [← hopen.sPos] at hbytes
    exact ⟨r.bytes, hbytes.symm, hlength, hslice, hreturned.symm.trans hcount⟩
  obtain ⟨-, -, -, -, hmin⟩ := hread 512 0 (le_refl _)
  rw [← hmin] at harea
  have hend := harea h0
  obtain ⟨-, hdata, -⟩ := h.positions_lt
  have hplain : wrap (io.sPos.rootDirectoryStart + (io.fdList 5).pos.toNat) =
      io.sPos.rootDirectoryStart + (io.fdList 5).pos.toNat := Nat.mod_eq_of_lt (by omega)
  refine ⟨by omega, hend, fun i b hi => ?_⟩
  obtain ⟨bytes, hdev, hlength, hslice, -⟩ := hread i b hi
  rw [hplain] at hdev
  rw [← hmin] at hlength hslice
  exact ⟨hdev.trans hslice, by rw [← hslice, hlength]⟩

theorem withinRoot_of_readsRoot (h : RootOpen bios.env io) (hfuel : 2 ≤ amb.fuel)
    (hlen : disk.length = 512 * 2880) (hbs : Fat16BootSector.ofBytes disk = io.bs)
    (hreads : ReadsRoot amb io count) : WithinRoot io count := by
  rw [WithinRoot, or_iff_not_imp_left]
  intro h0
  obtain ⟨hleft, hend, hserves⟩ := ReadsRoot.serves h hfuel hlen hbs hreads h0
  have hsize : (io.fdList 5).pos.toNat + count ≤ (io.fdList 5).size := by
    unfold rootLeft at hleft
    omega
  exact ⟨hsize, by omega, hserves.le_disk hlen h0, hserves.track hlen h0, hserves.fits hlen h0⟩

theorem readsRoot_zero (h : RootOpen bios.env io) (hfuel : 2 ≤ amb.fuel) :
    ReadsRoot amb io 0 := by
  rw [ReadsRoot, Nat.zero_min]
  refine ⟨fun hne => absurd rfl hne, fun bios' disk' _ hholds hbs => ?_⟩
  have hopen := h.of_holds hholds hbs
  obtain ⟨r, hr, hbytes, hreturned, hpos, -⟩ := hopen.read_eq amb hfuel 0
  have hnil : r.bytes = [] := by
    rw [hbytes]
    rfl
  refine ⟨r, hr, ?_, ?_, hreturned, ?_⟩
  · rw [hnil, List.length_nil]
  · rw [hnil, slice, List.take_zero]
  · rw [hpos]
    simp

theorem readsRoot_of_withinRoot (h : RootOpen bios.env io) (hfuel : 2 ≤ amb.fuel)
    (hwithin : WithinRoot io count) : ReadsRoot amb io count := by
  by_cases h0 : count = 0
  · rw [h0]
    exact readsRoot_zero h hfuel
  obtain ⟨hend, hle, hon, htrack, hfits⟩ := hwithin.resolve_left h0
  obtain ⟨hroot, hdata, hsize⟩ := h.positions_lt
  have hmin : min count (rootLeft io) = count := by
    unfold rootLeft
    omega
  have harea : io.sPos.rootDirectoryStart + (io.fdList 5).pos.toNat + count ≤
      io.sPos.dataSectionStart := by
    rw [hsize, wrap] at hend
    omega
  have hplain : wrap (io.sPos.rootDirectoryStart + (io.fdList 5).pos.toNat) =
      io.sPos.rootDirectoryStart + (io.fdList 5).pos.toNat := Nat.mod_eq_of_lt (by omega)
  rw [ReadsRoot, hmin]
  refine ⟨fun _ => harea, fun bios' disk' hlen hholds hbs => ?_⟩
  have hopen := h.of_holds hholds hbs
  obtain ⟨r, hr, hbytes, hreturned, hpos, -⟩ := hopen.read_eq amb hfuel count
  rw [← hopen.sPos, hplain] at hbytes
  generalize io.sPos.rootDirectoryStart + (io.fdList 5).pos.toNat = start at harea hbytes hon htrack hfits ⊢
  have hspec := Bios.numSectors_spec count
  have hstart : (lbaToChs (start / 512) 2 18).Numbers (start / 512) 80 2 18 :=
    (lbaToChs_inverts_iff (by decide) (by decide) (show start / 512 < 80 * 2 * 18 by omega)).mpr
      (Or.inl htrack)
  have hfetches : bios'.Fetches (Bios.drive 4) disk' (start / 512) (Bios.devRounds start count) :=
    hholds.fetches hstart (by omega)
  have hslice : r.bytes = slice disk' start count := hbytes.trans (Bios.dev_of_fits hfits hfetches)
  refine ⟨r, hr, ?_, hslice, hreturned, ?_⟩
  · rw [hslice, length_slice (by omega)]
  · have htoNat : (UInt32.ofNat count).toNat = count :=
      UInt32.toNat_ofNat_of_lt' (show count < 2 ^ 32 by omega)
    have hroom : (io.fdList 5).pos.toNat + count < 2 ^ 32 := by
      rw [hsize, wrap] at hend
      omega
    rw [hpos, UInt32.toNat_add, htoNat, Nat.mod_eq_of_lt hroom]

theorem readsRoot_iff (h : RootOpen bios.env io) (hlen : disk.length = 512 * 2880)
    (hholds : bios.Holds disk) (hfuel : 2 ≤ amb.fuel) :
    ReadsRoot amb io count ↔ WithinRoot io count :=
  ⟨withinRoot_of_readsRoot h hfuel hlen (by rw [h.bs, hholds.bootSector_eq]),
    readsRoot_of_withinRoot h hfuel⟩

end Reads

theorem rootOpen_run {env : Env} {io io' : Io} {calls : List RootCall} (h : RootOpen env io)
    (hrun : Run (RootStep env) io calls io') : RootOpen env io' :=
  hrun.invariant (RootOpen env) rootOpen_step h

def ReadsWithin (io : Io) : RootCall → Prop
  | .lseek _ => False
  | .read amb count => 2 ≤ amb.fuel ∧ WithinRoot io count

section Runs

variable {bios : Bios} {disk : List UInt8} {io io' : Io}

theorem pos_le_size_of_reads {reads : List RootCall} (hlen : disk.length = 512 * 2880)
    (hholds : bios.Holds disk) (h : RootOpen bios.env io)
    (hpos : (io.fdList 5).pos.toNat ≤ bios.env.bootSector.rootSize)
    (hrun : Run (Guarded ReadsWithin (RootStep bios.env)) io reads io') :
    (io'.fdList 5).pos.toNat ≤ bios.env.bootSector.rootSize := by
  refine (hrun.invariant (fun io => RootOpen bios.env io ∧
    (io.fdList 5).pos.toNat ≤ bios.env.bootSector.rootSize) ?_ ⟨h, hpos⟩).2
  rintro io call io' ⟨hopen, hle⟩ ⟨hguard, hstep⟩
  refine ⟨rootOpen_step io call io' hopen hstep, ?_⟩
  cases call with
  | lseek offset => exact hguard.elim
  | read amb count =>
    obtain ⟨r, hr, rfl⟩ := hstep
    have hbs : Fat16BootSector.ofBytes disk = io.bs := by rw [hopen.bs, hholds.bootSector_eq]
    obtain ⟨-, hreads⟩ := readsRoot_of_withinRoot hopen hguard.1 hguard.2
    obtain ⟨r', hr', -, -, -, hadvanced⟩ := hreads bios disk hlen hholds hbs
    rw [hr, Option.some.injEq] at hr'
    subst hr'
    rw [hadvanced, rootLeft, hopen.size]
    omega

/-- Whatever programs have run and wherever the kernel's `lseek`s and `read`s have left
descriptor 5, the next read is served as an end-of-file test would serve it exactly when the
request ends within the directory, starts in a sector that does not end its track, and needs
no more sectors than its length takes; reads that meet this condition never get past the end. -/
theorem root_end_iff {m : Sys} {calls : List RootCall} {amb : Ambient}
    (hlen : disk.length = 512 * 2880) (hholds : bios.Holds disk) (h : Sys.Reachable bios.env m)
    (hrun : Run (RootStep bios.env) m.kernel.io calls io) (hfuel : 2 ≤ amb.fuel) (count : ℕ) :
    (ReadsRoot amb io count ↔ WithinRoot io count) ∧
      ∀ reads io', Run (Guarded ReadsWithin (RootStep bios.env)) io reads io' →
        (io.fdList 5).pos.toNat ≤ (io.fdList 5).size →
        (io'.fdList 5).pos.toNat ≤ (io'.fdList 5).size := by
  have hopen := rootOpen_run (.of_reachable h) hrun
  refine ⟨readsRoot_iff hopen hlen hholds hfuel, ?_⟩
  intro reads io' hreads hpos
  have hopen' := rootOpen_run hopen (hreads.mono fun _ _ _ hstep => hstep.2)
  rw [hopen.size] at hpos
  rw [hopen'.size]
  exact pos_le_size_of_reads hlen hholds hopen hpos hreads

end Runs

/-- The small floppy in the second drive, on a disk of 1.44 MB. -/
def floppyDisk : List UInt8 := floppy.bytes ++ List.replicate (512 * 2880 - 2048) 0

theorem length_floppyDisk : floppyDisk.length = 512 * 2880 := by
  have hlen : floppy.bytes.length = 2048 := by decide +kernel
  rw [floppyDisk, List.length_append, List.length_replicate, hlen]

def floppyDrive : Bios := .ofDisk floppyDisk

theorem holds_floppyDrive : floppyDrive.Holds floppyDisk := Bios.holds_ofDisk length_floppyDisk

theorem bootSector_floppyDrive : floppyDrive.env.bootSector = floppy.bs := by
  rw [holds_floppyDrive.bootSector_eq, Volume.bs, ← Fat16BootSector.ofBytes_take floppyDisk,
    ← Fat16BootSector.ofBytes_take floppy.bytes, floppyDisk,
    List.take_append_of_le_length (by decide +kernel)]

theorem floppyDrive_boots : ∃ m, Sys.Reachable floppyDrive.env m := by
  apply boot_exists
  · rw [bootSector_floppyDrive]
    decide +kernel
  · rw [bootSector_floppyDrive]
    decide +kernel

theorem floppyDrive_sought {m : Sys} (h : Sys.Reachable floppyDrive.env m) {offset : ℕ}
    (hoffset : offset < 2 ^ 32) :
    ((m.kernel.io.lseek 5 offset 0).fdList 5).pos.toNat = offset ∧
      ((m.kernel.io.lseek 5 offset 0).fdList 5).size = 512 ∧
      (m.kernel.io.lseek 5 offset 0).sPos = ⟨512, 1536, 1024⟩ := by
  have hopen := (RootOpen.of_reachable h).seeks (Io.seeks_lseek m.kernel.io 5 offset 0)
  refine ⟨?_, ?_, ?_⟩
  · rw [Io.lseek, Io.update_fdList, if_pos ⟨rfl, rfl⟩]
    exact UInt32.toNat_ofNat_of_lt' hoffset
  · rw [hopen.size, bootSector_floppyDrive]
    decide +kernel
  · rw [hopen.sPos, bootSector_floppyDrive]
    decide +kernel

theorem root_end_iff_floppy : ∃ m : Sys, ReadsRoot calm (m.kernel.io.lseek 5 0 0) 512 := by
  obtain ⟨m, hm⟩ := floppyDrive_boots
  obtain ⟨hpos, hsize, hsPos⟩ := floppyDrive_sought hm (show 0 < 2 ^ 32 by decide)
  have hstep : RootStep floppyDrive.env m.kernel.io (.lseek 0) (m.kernel.io.lseek 5 0 0) := rfl
  have hfuel : 2 ≤ calm.fuel := by decide
  refine ⟨m, (root_end_iff length_floppyDisk holds_floppyDrive hm (.single hstep) hfuel 512).1.mpr
    (Or.inr ?_)⟩
  rw [hpos, hsize, hsPos]
  decide

/-- At the end of the directory another entry is read from the data area. -/
theorem root_end_ignored : ¬ ∀ bios disk m calls io amb count, disk.length = 512 * 2880 →
    Bios.Holds bios disk → Sys.Reachable bios.env m →
    Run (RootStep bios.env) m.kernel.io calls io → 2 ≤ amb.fuel → ReadsRoot amb io count := by
  intro hlaw
  obtain ⟨m, hm⟩ := floppyDrive_boots
  obtain ⟨hpos, hsize, -⟩ := floppyDrive_sought hm (show 512 < 2 ^ 32 by decide)
  have hstep : RootStep floppyDrive.env m.kernel.io (.lseek 512) (m.kernel.io.lseek 5 512 0) := rfl
  have hfuel : 2 ≤ calm.fuel := by decide
  have hreads := hlaw floppyDrive _ m _ _ calm 32 length_floppyDisk holds_floppyDrive hm
    (.single hstep) hfuel
  have hopen := rootOpen_run (.of_reachable hm) (.single hstep)
  rcases (readsRoot_iff hopen length_floppyDisk holds_floppyDrive hfuel).mp hreads with h0 | ⟨hend, -⟩
  · cases h0
  · rw [hpos, hsize] at hend
    omega

end RML
