import RML.Spec.Kernio

/-! A FAT12 volume as its bytes: where its areas lie, its cluster chains, and the
device that delivers it. -/

namespace RML

open Bytes

/-- The first `n` entries of a root directory. -/
def dirEntries (dir : List UInt8) (n : ℕ) : List Fat16Entry :=
  (List.range n).map fun i => .ofBytes (slice dir (32 * i) 32)

/-- A volume of 512-byte sectors that the 32-bit positions of the kernel reach. -/
structure Volume where
  bytes : List UInt8
  length_lt : bytes.length < 2 ^ 32
  sectorSize_eq : (Fat16BootSector.ofBytes bytes).sectorSize = 512

namespace Volume

def bs (v : Volume) : Fat16BootSector := .ofBytes v.bytes

def fatStart (v : Volume) : ℕ := 512 * v.bs.reservedSectors

def rootStart (v : Volume) : ℕ := v.fatStart + 512 * v.bs.fatSizeSectors * v.bs.numberOfFats

/-- The data area follows the sectors of the root directory, the last of which its
entries need not fill. -/
def dataStart (v : Volume) : ℕ := v.rootStart + 512 * ((v.bs.rootDirEntries * 32 + 511) / 512)

def rootDir (v : Volume) : List Fat16Entry :=
  dirEntries (v.bytes.drop v.rootStart) v.bs.rootDirEntries

def clusterSize (v : Volume) : ℕ := 512 * v.bs.sectorsPerCluster

def cluster (v : Volume) (c : ℕ) : List UInt8 :=
  slice v.bytes (v.dataStart + v.clusterSize * (c - 2)) v.clusterSize

/-- Entry `c` of the table: twelve bits, two entries in three bytes. -/
def fatEntry (v : Volume) (c : ℕ) : ℕ :=
  let word := ofLE (slice v.bytes (v.fatStart + (c + c / 2)) 2)
  if c % 2 = 1 then word / 16 else word % 4096

/-- Cluster `c` lies in the data area, and the table has an entry for it. -/
def InArea (v : Volume) (c : ℕ) : Prop :=
  2 ≤ c ∧ v.dataStart + v.clusterSize * (c - 2) + v.clusterSize ≤ v.bytes.length ∧
    v.fatStart + (c + c / 2) + 2 ≤ v.rootStart

instance (v : Volume) (c : ℕ) : Decidable (v.InArea c) := by
  unfold InArea
  infer_instance

/-- The chain of a file from its first cluster on. A chain that comes back to a
cluster has no end and is none of these. -/
inductive FatChain (v : Volume) : ℕ → List ℕ → Prop
  | last {c : ℕ} : v.InArea c → 0x0FF8 ≤ v.fatEntry c → FatChain v c [c]
  | link {c : ℕ} {cs : List ℕ} : v.InArea c → v.fatEntry c < 0x0FF8 →
      FatChain v (v.fatEntry c) cs → FatChain v c (c :: cs)

end Volume

/-- A machine whose second floppy holds the volume, followed by zeros. -/
def Env.ofVolume (v : Volume) : Env where
  dev _ pos count := (v.bytes.drop pos ++ List.replicate count 0).take count
  length_dev_le _ _ count := by simp
  length_dev _ _ count _ := by simp
  lt_length_dev _ _ _ count h := by simpa using h
  key _ := 13

theorem Env.dev_ofVolume {v : Volume} {pos count : ℕ} (fd : ℤ) (h : pos + count ≤ v.bytes.length) :
    (Env.ofVolume v).dev fd pos count = slice v.bytes pos count := by
  simp only [ofVolume, slice]
  rw [List.take_append_of_le_length]
  simp only [List.length_drop]
  omega

def floppyBytes (sectorsPerCluster : UInt8) (fat root data : List UInt8) : List UInt8 :=
  let pad (l : List UInt8) := l ++ List.replicate (512 - l.length) 0
  pad (List.replicate 12 0 ++ [2, sectorsPerCluster, 1, 0, 1, 16, 0, 0, 0, 0, 1, 0]) ++
    pad fat ++ pad root ++ data

def dirEntry (name : List UInt8) (startingCluster : UInt8) : List UInt8 :=
  name ++ List.replicate (11 - name.length) 32 ++ [0x20] ++ List.replicate 14 0 ++
    [startingCluster, 0, 0, 2, 0, 0]

/-- `INIT` in the single cluster 2. -/
def floppy : Volume where
  bytes := floppyBytes 1 [0xF0, 0xFF, 0xFF, 0xFF, 0x0F] (dirEntry (ascii "INIT") 2)
    (List.replicate 512 0x90)
  length_lt := by decide +kernel
  sectorSize_eq := by decide +kernel

/-- `INIT` in the clusters 2, 4 and 3 of eight sectors. -/
def scattered : Volume where
  bytes := floppyBytes 8 [0xF0, 0xFF, 0xFF, 0x04, 0xF0, 0xFF, 0x03, 0x00, 0x00]
    ((dirEntry (ascii "INIT") 2).take 28 ++ [0, 0x30, 0, 0])
    (List.replicate 4096 0x90 ++ List.replicate 4096 0x92 ++ List.replicate 4096 0x91)
  length_lt := by decide +kernel
  sectorSize_eq := by decide +kernel

def scatteredInit : Fat16Entry := .ofBytes (slice scattered.bytes scattered.rootStart 32)

/-- An entry that finds zeros in every local. -/
def calm : Ambient where
  fuel := 32
  buf _ := 0
  seg := 0
  pid := 0
  bytesRead := 0
  clock := ⟨0, 0, 0, 0, 0, 0, 0⟩

end RML
