import RML.Spec.Kernio

/-! The device branch of `read` (`kernio.c`, lines 173 to 262): `lba_to_chs` and the
loop over sectors. It is an `Env` for every BIOS whose `read_sectors` succeeds. -/

namespace RML

open Bytes

structure Chs where
  cylinder : UInt8
  head : UInt8
  sector : UInt8
  deriving DecidableEq

/-- The number of the sector when the disk is counted side by side, track by track. -/
def Chs.linear (chs : Chs) (heads sectors : UInt8) : ℕ :=
  (chs.cylinder.toNat * heads.toNat + chs.head.toNat) * sectors.toNat + (chs.sector.toNat - 1)

/-- `lba_to_chs`; the number of cylinders is ignored by the source and left out. -/
def lbaToChs (lba : ℕ) (heads sectors : UInt8) : Chs where
  sector := UInt8.ofNat (lba % sectors.toNat + 1)
  head := UInt8.ofNat (wrap (lba + 1) / sectors.toNat % heads.toNat)
  cylinder := UInt8.ofNat (lba / (sectors.toNat * heads.toNat))

/-- The step to the next head after sector 18. -/
def nextHead (chs : Chs) : Chs :=
  if 18 < chs.sector then
    let head := UInt8.ofNat ((chs.head.toNat + 1) % 2)
    ⟨if head = 0 then chs.cylinder + 1 else chs.cylinder, head, 1⟩
  else chs

/-- One round of the loop: the sector it fetches, and its `memcpy` of `len` bytes
from `sector_buf + src` to `buf + dst`. -/
structure Round where
  chs : Chs
  src : ℕ
  len : ℕ
  dst : ℕ
  deriving DecidableEq

/-- The rounds that are left with `num_sectors`, `num_bytes`, `sector_offset` and
`new_buf`, an offset into `buf`. No data decide them. -/
def roundsLoop : ℕ → Chs → ℕ → ℕ → ℕ → List Round
  | 0, _, _, _, _ => []
  | numSectors + 1, chs, numBytes, sectorOffset, newBuf =>
    let chs := nextHead chs
    let next := { chs with sector := chs.sector + 1 }
    if 512 < numBytes then
      ⟨chs, sectorOffset, 512, newBuf⟩ ::
        roundsLoop numSectors next (numBytes - (512 - sectorOffset)) 0 (newBuf + (512 - sectorOffset))
    else
      ⟨chs, sectorOffset, numBytes, newBuf⟩ ::
        roundsLoop numSectors next 0 0 (newBuf + (512 - sectorOffset))

def numSectors (count : ℕ) : ℕ := if count = 0 then 0 else (count - 1) / 512 + 1

def rounds (start : Chs) (pos count : ℕ) : List Round :=
  roundsLoop (numSectors count) start count (pos % 512) 0

/-- The machine below the kernel: its floppies by drive number, its keyboard, and
the stack behind `sector_buf`, which a copy from an unaligned position reaches. -/
structure Bios where
  readSectors : UInt8 → Chs → List UInt8
  length_readSectors : ∀ drive chs, (readSectors drive chs).length = 512
  stack : ℕ → UInt8
  key : ℕ → UInt8

namespace Bios

variable (bios : Bios)

def sectorBuf (drive : UInt8) (chs : Chs) : List UInt8 :=
  bios.readSectors drive chs ++ (List.range 512).map bios.stack

/-- What a round makes of the part of `buf` that is stored so far. -/
def copy (drive : UInt8) (buf : List UInt8) (r : Round) : List UInt8 :=
  overwrite buf r.dst (slice (bios.sectorBuf drive r.chs) r.src r.len)

def drive (fd : ℤ) : UInt8 := if fd = 3 then 0 else 1

/-- The rounds of a `read` at `pos` of a floppy of 2 heads and 18 sectors. -/
def devRounds (pos count : ℕ) : List Round := rounds (lbaToChs (pos / 512) 2 18) pos count

/-- What `read` leaves at the start of `buf` for the floppy behind descriptor 3 or 4. -/
def dev (fd : ℤ) (pos count : ℕ) : List UInt8 :=
  (devRounds pos count).foldl (bios.copy (drive fd)) []

theorem length_copied {drive : UInt8} {chs : Chs} {off n : ℕ} (hoff : off ≤ 512) (hn : n ≤ 512) :
    (slice (bios.sectorBuf drive chs) off n).length = n := by
  apply length_slice
  simp only [sectorBuf, List.length_append, bios.length_readSectors, List.length_map,
    List.length_range]
  omega

theorem length_roundsLoop_le {drive : UInt8} {n : ℕ} {chs : Chs}
    {numBytes sectorOffset newBuf count : ℕ} {buf : List UInt8} (hoff : sectorOffset < 512)
    (hbuf : buf.length ≤ count)
    (hleft : numBytes = 0 ∨ newBuf + numBytes = count ∧ newBuf ≤ buf.length) :
    ((roundsLoop n chs numBytes sectorOffset newBuf).foldl (bios.copy drive) buf).length ≤ count := by
  induction n generalizing chs numBytes sectorOffset newBuf buf with
  | zero => exact hbuf
  | succ n ih =>
    rw [roundsLoop]
    by_cases hmore : 512 < numBytes
    · obtain ⟨hsum, hle⟩ := hleft.resolve_left (by omega)
      have hcopied := @length_copied bios drive (nextHead chs) _ _ hoff.le (le_refl 512)
      rw [if_pos hmore, List.foldl_cons]
      have hlen : (bios.copy drive buf ⟨nextHead chs, sectorOffset, 512, newBuf⟩).length =
          newBuf + 512 + (buf.length - (newBuf + 512)) := by
        simp only [copy, overwrite, List.length_append, List.length_take, List.length_drop, hcopied]
        omega
      apply ih (by decide)
      · rw [hlen]
        omega
      · rw [hlen]
        exact Or.inr ⟨by omega, by omega⟩
    · have hcopied := @length_copied bios drive (nextHead chs) _ _ hoff.le (not_lt.mp hmore)
      rw [if_neg hmore, List.foldl_cons]
      apply ih (by decide) ?_ (Or.inl rfl)
      rcases hleft with h0 | ⟨hsum, hle⟩
      · have hnil : slice (bios.sectorBuf drive (nextHead chs)) sectorOffset numBytes = [] :=
          List.length_eq_zero_iff.mp (by rw [hcopied, h0])
        rw [copy, hnil, overwrite_nil]
        exact hbuf
      · simp only [copy, overwrite, List.length_append, List.length_take, List.length_drop, hcopied]
        omega

theorem length_dev_le (fd : ℤ) (pos count : ℕ) : (bios.dev fd pos count).length ≤ count := by
  apply bios.length_roundsLoop_le (Nat.mod_lt _ (by decide)) (Nat.zero_le _)
  exact Or.inr ⟨Nat.zero_add _, le_refl _⟩

theorem devRounds_small {pos count : ℕ} (h0 : count ≠ 0) (h : count ≤ 512) :
    devRounds pos count = [⟨nextHead (lbaToChs (pos / 512) 2 18), pos % 512, count, 0⟩] := by
  have hone : (count - 1) / 512 + 1 = 1 := by omega
  rw [devRounds, rounds, numSectors, if_neg h0, hone, roundsLoop, if_neg (not_lt.mpr h), roundsLoop]

theorem length_dev (fd : ℤ) (pos count : ℕ) (h : count ≤ 512) :
    (bios.dev fd pos count).length = count := by
  by_cases h0 : count = 0
  · rw [h0]
    rfl
  · have hoff : pos % 512 < 512 := Nat.mod_lt _ (by decide)
    rw [dev, devRounds_small h0 h, List.foldl_cons, List.foldl_nil, copy, overwrite,
      List.take_nil, List.nil_append, List.drop_nil, List.append_nil, bios.length_copied hoff.le h]

theorem length_le_copy (drive : UInt8) (buf : List UInt8) (r : Round) :
    buf.length ≤ (bios.copy drive buf r).length := by
  simp only [copy, overwrite, List.length_append, List.length_take, List.length_drop]
  omega

theorem length_le_foldl (drive : UInt8) (buf : List UInt8) (rs : List Round) :
    buf.length ≤ (rs.foldl (bios.copy drive) buf).length := by
  induction rs generalizing buf with
  | nil => exact le_refl _
  | cons r rs ih => exact (bios.length_le_copy drive buf r).trans (ih _)

theorem le_length_roundsLoop {drive : UInt8} {n : ℕ} {chs : Chs}
    {numBytes sectorOffset newBuf : ℕ} {buf : List UInt8} (hoff : sectorOffset < 512)
    (hbuf : newBuf ≤ buf.length) :
    min (newBuf + numBytes) (newBuf + 512 * n - sectorOffset) ≤
      ((roundsLoop n chs numBytes sectorOffset newBuf).foldl (bios.copy drive) buf).length := by
  induction n generalizing chs numBytes sectorOffset newBuf buf with
  | zero =>
    rw [roundsLoop, List.foldl_nil]
    omega
  | succ n ih =>
    rw [roundsLoop]
    by_cases hmore : 512 < numBytes
    · have hcopied := @length_copied bios drive (nextHead chs) _ _ hoff.le (le_refl 512)
      have hgrown : newBuf + 512 ≤
          (bios.copy drive buf ⟨nextHead chs, sectorOffset, 512, newBuf⟩).length := by
        simp only [copy, overwrite, List.length_append, List.length_take, List.length_drop, hcopied]
        omega
      rw [if_pos hmore, List.foldl_cons]
      refine le_trans ?_ (ih (by decide) (by omega))
      omega
    · have hcopied := @length_copied bios drive (nextHead chs) _ _ hoff.le (not_lt.mp hmore)
      have hgrown : newBuf + numBytes ≤
          (bios.copy drive buf ⟨nextHead chs, sectorOffset, numBytes, newBuf⟩).length := by
        simp only [copy, overwrite, List.length_append, List.length_take, List.length_drop, hcopied]
        omega
      rw [if_neg hmore, List.foldl_cons]
      exact (min_le_left _ _).trans (hgrown.trans (bios.length_le_foldl _ _ _))

theorem lt_length_dev {t count : ℕ} (fd : ℤ) (pos : ℕ) (h : 512 * t < count) :
    512 * t < (bios.dev fd pos count).length := by
  have hoff : pos % 512 < 512 := Nat.mod_lt _ (by decide)
  have hlen : min (0 + count) (0 + 512 * numSectors count - pos % 512) ≤
      (bios.dev fd pos count).length := bios.le_length_roundsLoop hoff (le_refl _)
  have hsectors : 512 * t < 512 * numSectors count - 511 := by
    rw [numSectors, if_neg (by omega)]
    omega
  exact lt_of_lt_of_le (by omega) hlen

def env : Env where
  dev := bios.dev
  length_dev_le := bios.length_dev_le
  length_dev := bios.length_dev
  lt_length_dev _ fd pos _ h := bios.lt_length_dev fd pos h
  key := bios.key

/-- A machine whose floppies hold `disk`, followed by zeros. -/
def ofDisk (disk : List UInt8) : Bios where
  readSectors _ chs := (disk.drop (512 * chs.linear 2 18) ++ List.replicate 512 0).take 512
  length_readSectors _ chs := by
    rw [List.length_take, List.length_append, List.length_replicate]
    omega
  stack _ := 0
  key _ := 13

theorem ofDisk_readSectors {disk : List UInt8} {chs : Chs} {l : ℕ} (drive : UInt8)
    (hl : chs.linear 2 18 = l) (h : 512 * (l + 1) ≤ disk.length) :
    (ofDisk disk).readSectors drive chs = slice disk (512 * l) 512 := by
  simp only [ofDisk, hl, slice]
  rw [List.take_append_of_le_length]
  simp only [List.length_drop]
  omega

end Bios

end RML
