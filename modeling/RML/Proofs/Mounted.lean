import RML.Proofs.Directory
import RML.Spec.Volume
import RML.Lib.Fat12

/-! The volume `startk` mounts stays mounted: every reachable kernel has its
geometry from the boot sector that the second floppy delivers. -/

namespace RML

open Bytes

namespace Volume

/-- `data_section_start`: the division leaves out a sector that the root directory begins
and does not fill. -/
def dataSectionStart (v : Volume) : ℕ := v.rootStart + 512 * (v.bs.rootDirEntries * 32 / 512)

def seekPos (v : Volume) (c : ℕ) : ℕ := v.dataSectionStart + v.clusterSize * (c - 2)

def found (v : Volume) (c : ℕ) : List UInt8 := slice v.bytes (v.seekPos c) v.clusterSize

theorem dataSectionStart_le (v : Volume) : v.dataSectionStart ≤ v.dataStart := by
  unfold dataSectionStart dataStart
  omega

theorem rootStart_le (v : Volume) : v.rootStart ≤ v.dataSectionStart := Nat.le_add_right _ _

theorem fatStart_le (v : Volume) : v.fatStart ≤ v.rootStart := Nat.le_add_right _ _

theorem dataStart_eq (v : Volume) : v.dataStart =
    if 16 ∣ v.bs.rootDirEntries then v.dataSectionStart else v.dataSectionStart + 512 := by
  have hsplit := Nat.div_add_mod v.bs.rootDirEntries 16
  have hrest := Nat.mod_lt v.bs.rootDirEntries (show 0 < 16 by decide)
  have hdown : v.bs.rootDirEntries * 32 / 512 = v.bs.rootDirEntries / 16 := by omega
  rw [dataStart, dataSectionStart, hdown]
  by_cases hwhole : 16 ∣ v.bs.rootDirEntries
  · have hmod := Nat.dvd_iff_mod_eq_zero.mp hwhole
    have hup : (v.bs.rootDirEntries * 32 + 511) / 512 = v.bs.rootDirEntries / 16 := by omega
    rw [if_pos hwhole, hup]
  · have hmod : 0 < v.bs.rootDirEntries % 16 :=
      Nat.pos_of_ne_zero (mt Nat.dvd_iff_mod_eq_zero.mpr hwhole)
    have hup : (v.bs.rootDirEntries * 32 + 511) / 512 = v.bs.rootDirEntries / 16 + 1 := by omega
    rw [if_neg hwhole, hup, Nat.mul_add_one, Nat.add_assoc]

end Volume

/-- What `read_cluster` and `get_next_cluster` read for cluster `c` is what the volume has
at the positions they address. -/
structure Env.DeliversCluster (env : Env) (v : Volume) (c : ℕ) : Prop where
  cluster : env.dev 4 (v.seekPos c) v.clusterSize = v.found c
  entry : env.dev 4 (v.fatStart + Fat12.offset c) 2 = slice v.bytes (v.fatStart + Fat12.offset c) 2

/-- The `read` of `read_boot_sector` finds the boot sector of the volume. -/
def Env.DeliversBoot (env : Env) (v : Volume) : Prop := env.dev 4 0 512 = slice v.bytes 0 512

theorem Env.deliversBoot_ofVolume {v : Volume} (h : 512 ≤ v.bytes.length) :
    (Env.ofVolume v).DeliversBoot v :=
  dev_ofVolume 4 (by omega)

theorem Env.deliversCluster_ofVolume {v : Volume} {c : ℕ} (hin : v.InArea c) :
    (Env.ofVolume v).DeliversCluster v c := by
  obtain ⟨-, hdata, htable⟩ := hin
  have hstart := v.dataSectionStart_le
  have hroot := v.rootStart_le
  refine ⟨dev_ofVolume 4 ?_, dev_ofVolume 4 ?_⟩
  · rw [Volume.seekPos]
    omega
  · rw [Fat12.offset]
    omega

/-- The kernel has mounted the volume from descriptor 4. -/
structure Mounted (io : Io) (v : Volume) : Prop where
  bs : io.bs = v.bs
  sPos : io.sPos = ⟨v.fatStart, v.dataSectionStart, v.rootStart⟩
  disk : (io.fdList 4).pfd = -1

theorem Fat16BootSector.ofBytes_take (b : List UInt8) : ofBytes (b.take 512) = ofBytes b := by
  simp only [ofBytes]
  rw [slice_take (by decide), slice_take (by decide), slice_take (by decide),
    slice_take (by decide), slice_take (by decide), slice_take (by decide)]

namespace Mounted

variable {env : Env} {io io' : Io} {v : Volume}

theorem seeks {pid : ℕ} (hm : Mounted io v) (h : io.Seeks pid io') : Mounted io' v :=
  ⟨h.bs.trans hm.bs, h.sPos.trans hm.sPos, (h.pfd 4).trans hm.disk⟩

theorem bootSector_eq (hd : env.DeliversBoot v) : env.bootSector = v.bs := by
  rw [Env.bootSector, hd]
  exact Fat16BootSector.ofBytes_take v.bytes

theorem positions_eq (hdata : v.dataStart ≤ v.bytes.length) :
    v.bs.positions = ⟨v.fatStart, v.dataSectionStart, v.rootStart⟩ := by
  have hsize : v.bs.sectorSize = 512 := v.sectorSize_eq
  have hlt := v.length_lt
  have hfat := v.fatStart_le
  have hroot := v.rootStart_le
  have hstart := v.dataSectionStart_le
  have h1 : wrap (512 * v.bs.reservedSectors) = v.fatStart :=
    Nat.mod_eq_of_lt (show v.fatStart < 2 ^ 32 by omega)
  have h2 : wrap (v.fatStart + 512 * v.bs.fatSizeSectors * v.bs.numberOfFats) = v.rootStart :=
    Nat.mod_eq_of_lt (show v.rootStart < 2 ^ 32 by omega)
  have h3 : wrap (v.rootStart + 512 * (v.bs.rootDirEntries * 32 / 512)) = v.dataSectionStart :=
    Nat.mod_eq_of_lt (show v.dataSectionStart < 2 ^ 32 by omega)
  simp only [Fat16BootSector.positions, hsize, h1, h2, h3]

theorem of_reachable {m : Sys} {c : ℕ} (hd : env.DeliversBoot v) (hin : v.InArea c)
    (h : Sys.Reachable env m) : Mounted m.kernel.io v := by
  obtain ⟨h2, hdata, htable⟩ := hin
  have hrooted := Rooted.of_reachable h
  have hbs := bootSector_eq hd
  refine ⟨hrooted.bs.trans hbs, ?_, hrooted.disk⟩
  rw [hrooted.sPos, hbs, positions_eq (by omega)]

end Mounted

theorem Env.deliversDir_ofVolume {v : Volume} (hboot : 512 ≤ v.bytes.length)
    (hdata : v.dataStart ≤ v.bytes.length) :
    (Env.ofVolume v).DeliversDir (v.bytes.drop v.rootStart) := by
  intro i hi
  rw [Mounted.bootSector_eq (deliversBoot_ofVolume hboot)] at hi ⊢
  have hlt := v.length_lt
  have hentry : v.rootStart + 32 * i + 32 ≤ v.dataStart := by
    rw [Volume.dataStart]
    omega
  have hpos : wrap (v.rootStart + 32 * i) = v.rootStart + 32 * i := Nat.mod_eq_of_lt (by omega)
  rw [Mounted.positions_eq hdata, hpos, slice, List.drop_drop]
  exact dev_ofVolume 4 (by omega)

end RML
