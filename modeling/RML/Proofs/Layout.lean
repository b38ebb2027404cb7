import RML.Proofs.Directory
import RML.Spec.Volume
import Mathlib.Order.Bounds.Basic

/-! The arithmetic of `read_boot_sector` in its C types, and when the areas of a volume
that it computes fit together. -/

namespace RML

/-- The result of an operation, when its type can hold it. -/
def fits (bound n : ℕ) : Option ℕ := if n < bound then some n else none

theorem fits_eq_some_iff {bound n k : ℕ} : fits bound n = some k ↔ n < bound ∧ k = n := by
  unfold fits
  split_ifs with h
  · rw [Option.some.injEq, eq_comm]
    exact (and_iff_right h).symm
  · exact iff_of_false not_false fun hand => h hand.1

def intResult : ℕ → Option ℕ := fits (2 ^ 31)

def unsignedResult : ℕ → Option ℕ := fits (2 ^ 32)

namespace Fat16BootSector

/-- The arithmetic of `read_boot_sector`; `none` when it divides by zero or overflows.
The fields are promoted to `int`; `root_sectors` and what is added up is unsigned. -/
def checkedPositions (bs : Fat16BootSector) : Option SectionPositions := do
  let entryBytes ← intResult (bs.rootDirEntries * 32)
  if bs.sectorSize = 0 then none else do
    let rootSectors := entryBytes / bs.sectorSize
    let fatStart ← intResult (bs.sectorSize * bs.reservedSectors)
    let fatBytes ← intResult (bs.sectorSize * bs.fatSizeSectors)
    let fatsBytes ← intResult (fatBytes * bs.numberOfFats)
    let rootStart ← unsignedResult (fatStart + fatsBytes)
    let rootBytes ← unsignedResult (bs.sectorSize * rootSectors)
    let dataStart ← unsignedResult (rootStart + rootBytes)
    some ⟨fatStart, dataStart, rootStart⟩

variable {bs : Fat16BootSector} {p : SectionPositions}

/-- What the fields have to be for the arithmetic to go through. -/
structure Computable (bs : Fat16BootSector) : Prop where
  entries : bs.rootDirEntries * 32 < 2 ^ 31
  sectorSize : bs.sectorSize ≠ 0
  reserved : bs.sectorSize * bs.reservedSectors < 2 ^ 31
  fat : bs.sectorSize * bs.fatSizeSectors < 2 ^ 31
  fats : bs.sectorSize * bs.fatSizeSectors * bs.numberOfFats < 2 ^ 31
  total : bs.sectorSize * bs.reservedSectors + bs.sectorSize * bs.fatSizeSectors * bs.numberOfFats +
    bs.sectorSize * (bs.rootDirEntries * 32 / bs.sectorSize) < 2 ^ 32

theorem checkedPositions_eq_some_iff : bs.checkedPositions = some p ↔ bs.Computable ∧ p =
    ⟨bs.sectorSize * bs.reservedSectors,
      bs.sectorSize * bs.reservedSectors + bs.sectorSize * bs.fatSizeSectors * bs.numberOfFats +
        bs.sectorSize * (bs.rootDirEntries * 32 / bs.sectorSize),
      bs.sectorSize * bs.reservedSectors + bs.sectorSize * bs.fatSizeSectors * bs.numberOfFats⟩ := by
  simp only [checkedPositions, Option.bind_eq_bind, Option.bind_eq_some_iff,
    Option.ite_none_left_eq_some, intResult, unsignedResult, fits_eq_some_iff, Option.some.injEq]
  constructor
  · rintro ⟨_, ⟨hentries, rfl⟩, hsize, _, ⟨hreserved, rfl⟩, _, ⟨hfat, rfl⟩, _, ⟨hfats, rfl⟩, _,
      ⟨hroot, rfl⟩, _, ⟨hbytes, rfl⟩, _, ⟨htotal, rfl⟩, rfl⟩
    exact ⟨⟨hentries, hsize, hreserved, hfat, hfats, htotal⟩, rfl⟩
  · rintro ⟨⟨hentries, hsize, hreserved, hfat, hfats, htotal⟩, rfl⟩
    exact ⟨_, ⟨hentries, rfl⟩, hsize, _, ⟨hreserved, rfl⟩, _, ⟨hfat, rfl⟩, _, ⟨hfats, rfl⟩, _,
      ⟨by omega, rfl⟩, _, ⟨by omega, rfl⟩, _, ⟨htotal, rfl⟩, rfl⟩

theorem positions_of_checked (h : bs.checkedPositions = some p) : bs.positions = p := by
  obtain ⟨hc, rfl⟩ := checkedPositions_eq_some_iff.mp h
  have htotal := hc.total
  simp only [positions, wrap]
  rw [Nat.mod_eq_of_lt (show bs.sectorSize * bs.reservedSectors < 2 ^ 32 by omega),
    Nat.mod_eq_of_lt (show bs.sectorSize * bs.reservedSectors +
      bs.sectorSize * bs.fatSizeSectors * bs.numberOfFats < 2 ^ 32 by omega), Nat.mod_eq_of_lt htotal]

/-- The areas of a volume at these positions, `rootSize` bytes of it for the root directory. -/
structure LaidOut (bs : Fat16BootSector) (p : SectionPositions) (rootSize : ℕ) : Prop where
  fat_le_root : p.fatSectionStart ≤ p.rootDirectoryStart
  root_le_data : p.rootDirectoryStart ≤ p.dataSectionStart
  fats : p.rootDirectoryStart =
    p.fatSectionStart + bs.sectorSize * (bs.numberOfFats * bs.fatSizeSectors)
  root : p.dataSectionStart = p.rootDirectoryStart + rootSize
  least : ∃ sectors, IsLeast {n | 32 * bs.rootDirEntries ≤ bs.sectorSize * n} sectors ∧
    rootSize = bs.sectorSize * sectors
  entries : ∀ i < bs.rootDirEntries, p.rootDirectoryStart ≤ wrap (p.rootDirectoryStart + 32 * i) ∧
    wrap (p.rootDirectoryStart + 32 * i) + 32 ≤ p.dataSectionStart

/-- No product is too large for an `int`, the areas end below 4 GiB, and the root
directory ends with a sector. -/
structure Regular (bs : Fat16BootSector) : Prop where
  sectorSize : bs.sectorSize ≠ 0
  reserved : bs.sectorSize * bs.reservedSectors < 2 ^ 31
  fat : bs.sectorSize * bs.fatSizeSectors < 2 ^ 31
  fats : bs.sectorSize * bs.fatSizeSectors * bs.numberOfFats < 2 ^ 31
  total : bs.sectorSize * bs.reservedSectors + bs.sectorSize * bs.fatSizeSectors * bs.numberOfFats +
    32 * bs.rootDirEntries < 2 ^ 32
  wholeSectors : bs.sectorSize ∣ 32 * bs.rootDirEntries

theorem Regular.root_bytes (h : bs.Regular) :
    bs.sectorSize * (bs.rootDirEntries * 32 / bs.sectorSize) = 32 * bs.rootDirEntries := by
  rw [Nat.mul_comm bs.rootDirEntries, Nat.mul_div_cancel' h.wholeSectors]

theorem Regular.computable (h : bs.Regular) (hentries : bs.rootDirEntries < 65536) :
    bs.Computable := by
  have htotal := h.total
  refine ⟨by omega, h.sectorSize, h.reserved, h.fat, h.fats, ?_⟩
  rw [h.root_bytes]
  exact htotal

theorem Regular.laidOut (h : bs.Regular) (hp : bs.checkedPositions = some p) :
    bs.LaidOut p (32 * bs.rootDirEntries) := by
  obtain ⟨-, rfl⟩ := checkedPositions_eq_some_iff.mp hp
  have htotal := h.total
  have hbytes := h.root_bytes
  refine ⟨Nat.le_add_right _ _, Nat.le_add_right _ _, ?_, by rw [hbytes], ?_, ?_⟩
  · rw [Nat.mul_assoc, Nat.mul_comm bs.fatSizeSectors]
  · refine ⟨bs.rootDirEntries * 32 / bs.sectorSize, ⟨hbytes.ge, ?_⟩, hbytes.symm⟩
    intro n hn
    rw [Set.mem_ofPred_eq, ← hbytes] at hn
    exact Nat.le_of_mul_le_mul_left hn (Nat.pos_of_ne_zero h.sectorSize)
  · intro i hi
    rw [hbytes]
    simp only [wrap]
    rw [Nat.mod_eq_of_lt (by omega)]
    omega

/-- A root directory that takes whole sectors, as few as possible, although the sectors
were counted by a division that rounds down. -/
theorem regular_of_laidOut {rootSize : ℕ} (hp : bs.checkedPositions = some p)
    (h : bs.LaidOut p rootSize) : bs.Regular := by
  obtain ⟨hc, rfl⟩ := checkedPositions_eq_some_iff.mp hp
  obtain ⟨sectors, ⟨hholds, -⟩, rfl⟩ := h.least
  have hroot := h.root
  have htotal := hc.total
  have hle : bs.sectorSize * (bs.rootDirEntries * 32 / bs.sectorSize) ≤ bs.rootDirEntries * 32 :=
    Nat.mul_div_le _ _
  rw [Set.mem_ofPred_eq] at hholds
  simp only at hroot
  have hwhole : bs.sectorSize * sectors = 32 * bs.rootDirEntries := by omega
  exact ⟨hc.sectorSize, hc.reserved, hc.fat, hc.fats, by omega, ⟨sectors, hwhole.symm⟩⟩

end Fat16BootSector

/-- `mount` gets through `read_boot_sector` without dividing by zero or overflowing,
and the areas fit together. -/
def LaysOut (env : Env) (amb : Ambient) (io : Io) : Prop :=
  ∃ p io', env.bootSector.checkedPositions = some p ∧
    (io.openFd (ascii "/dev/fdb") 0).2.readBootSector env amb = some io' ∧
    io'.bs = env.bootSector ∧ io'.sPos = p ∧ env.bootSector.LaidOut p io'.getRootSize

theorem Env.checkedPositions_of_regular {env : Env} (h : env.bootSector.Regular) :
    env.bootSector.checkedPositions = some env.bootSector.positions := by
  have hp := Fat16BootSector.checkedPositions_eq_some_iff.mpr
    ⟨h.computable env.rootDirEntries_lt, rfl⟩
  rw [hp, Fat16BootSector.positions_of_checked hp]

theorem laysOut_of_regular {env : Env} {amb : Ambient} (hfuel : 0 < amb.fuel) (io : Io)
    (h : env.bootSector.Regular) : LaysOut env amb io := by
  have hp := Env.checkedPositions_of_regular h
  have hlaid := h.laidOut hp
  obtain ⟨io₁, -, hread⟩ := Io.readBootSector_eq env amb (Io.disk_openFd_fdb io) hfuel
  rw [if_neg h.sectorSize] at hread
  refine ⟨_, _, hp, hread, rfl, rfl, ?_⟩
  have hsize : ({ io₁ with bs := env.bootSector, sPos := env.bootSector.positions } :
      Io).getRootSize = 32 * env.bootSector.rootDirEntries := by
    have hlt := env.rootDirEntries_lt
    have hroot := hlaid.root
    simp only [Io.getRootSize, wrap]
    omega
  rw [hsize]
  exact hlaid

/-- The layout of a volume is right exactly when its boot sector is regular; the areas
are not empty when there is a table and an entry. -/
theorem volume_layout_iff (env : Env) {amb : Ambient} (hfuel : 0 < amb.fuel) (io : Io) :
    (LaysOut env amb io ↔ env.bootSector.Regular) ∧
      (env.bootSector.Regular →
        (env.bootSector.positions.fatSectionStart < env.bootSector.positions.rootDirectoryStart ↔
          0 < env.bootSector.numberOfFats * env.bootSector.fatSizeSectors) ∧
        (env.bootSector.positions.rootDirectoryStart < env.bootSector.positions.dataSectionStart ↔
          0 < env.bootSector.rootDirEntries)) := by
  refine ⟨⟨?_, laysOut_of_regular hfuel io⟩, ?_⟩
  · rintro ⟨p, io', hp, -, -, -, hlaid⟩
    exact Fat16BootSector.regular_of_laidOut hp hlaid
  · intro h
    have hlaid := h.laidOut (Env.checkedPositions_of_regular h)
    have hsize := Nat.pos_of_ne_zero h.sectorSize
    rw [hlaid.root, hlaid.fats]
    constructor
    · rw [Nat.lt_add_right_iff_pos, Nat.mul_pos_iff_of_pos_left hsize]
    · omega

theorem volume_layout_iff_floppy : LaysOut (.ofVolume floppy) calm {} :=
  (volume_layout_iff (.ofVolume floppy) (by decide) {}).1.mpr
    ⟨by decide +kernel, by decide +kernel, by decide +kernel, by decide +kernel,
      by decide +kernel, by decide +kernel⟩

/-- Of seventeen entries the last one lies in the data area. -/
def seventeenEntries : Volume where
  bytes := List.replicate 12 0 ++ [2, 1, 1, 0, 1, 17, 0, 0, 0, 0, 1, 0]
  length_lt := by decide +kernel
  sectorSize_eq := by decide +kernel

theorem volume_layout_overlap : ¬ ∀ env amb io, 0 < amb.fuel → LaysOut env amb io := by
  intro h
  obtain ⟨p, io', hp, -, -, -, hlaid⟩ := h (.ofVolume seventeenEntries) calm {} (by decide)
  have hpos : (Env.ofVolume seventeenEntries).bootSector.checkedPositions =
      some ⟨512, 1536, 1024⟩ := by decide +kernel
  rw [hpos, Option.some.injEq] at hp
  subst hp
  have hentry := (hlaid.entries 16 (by decide +kernel)).2
  revert hentry
  decide

end RML
