import RML.Proofs.Geometry
import RML.Proofs.Clusters
import RML.Proofs.Positions

/-! The loop of `read` over the sectors of a floppy: which bytes it stores, and in
which order it fetches. -/

namespace RML

open Bytes

/-! Rounds that fetch neighbouring sectors store neighbouring bytes, as
long as no copy starts within a sector and goes past its end. -/

namespace Bios

variable {bios : Bios} {drive : UInt8} {disk buf : List UInt8}

/-- The first round fetches the sector `l` of the disk, the next one `l + 1`, and so on. -/
def Fetches (bios : Bios) (drive : UInt8) (disk : List UInt8) (l : ℕ) (rs : List Round) : Prop :=
  ∀ k r, rs[k]? = some r → bios.readSectors drive r.chs = slice disk (512 * (l + k)) 512

theorem Fetches.tail {l : ℕ} {r : Round} {rs : List Round}
    (h : bios.Fetches drive disk l (r :: rs)) : bios.Fetches drive disk (l + 1) rs := by
  intro k r' hr'
  rw [h (k + 1) r' hr']
  congr 2
  omega

theorem slice_sectorBuf {chs : Chs} {l off n : ℕ} (hn : off + n ≤ 512)
    (h : bios.readSectors drive chs = slice disk (512 * l) 512) :
    slice (bios.sectorBuf drive chs) off n = slice disk (512 * l + off) n := by
  rw [sectorBuf, slice_append_left (by rw [bios.length_readSectors]; exact hn), h, slice_slice hn]

theorem copy_eq {chs : Chs} {l src len dst : ℕ} (hn : src + len ≤ 512)
    (h : bios.readSectors drive chs = slice disk (512 * l) 512) :
    bios.copy drive buf ⟨chs, src, len, dst⟩ =
      buf.take dst ++ slice disk (512 * l + src) len ++ buf.drop (dst + len) := by
  have hcopied : (slice (bios.sectorBuf drive chs) src len).length = len :=
    bios.length_copied (by omega) (by omega)
  rw [copy, overwrite, hcopied, slice_sectorBuf hn h]

/-- The loop from the start of a sector on, over what the round before has stored there. -/
theorem foldl_roundsLoop {n l numBytes newBuf : ℕ} {chs : Chs} (hle : numBytes ≤ 512 * n)
    (hlt : 512 * n < numBytes + 512) (hnew : newBuf ≤ buf.length)
    (hlong : buf.length ≤ newBuf + numBytes)
    (h : bios.Fetches drive disk l (roundsLoop n chs numBytes 0 newBuf)) :
    (roundsLoop n chs numBytes 0 newBuf).foldl (bios.copy drive) buf =
      buf.take newBuf ++ slice disk (512 * l) numBytes := by
  induction n generalizing chs l numBytes newBuf buf with
  | zero =>
    obtain rfl : numBytes = 0 := by omega
    rw [roundsLoop, List.foldl_nil, List.take_of_length_le (by omega)]
    simp [slice]
  | succ n ih =>
    rw [roundsLoop] at h ⊢
    by_cases hmore : 512 < numBytes
    · rw [if_pos hmore, Nat.sub_zero] at h ⊢
      have hsector : (slice disk (512 * l) 512).length = 512 := by
        have hfirst : bios.readSectors drive (nextHead chs) = slice disk (512 * l) 512 :=
          h 0 _ rfl
        rw [← hfirst, bios.length_readSectors]
      have hcopy : bios.copy drive buf ⟨nextHead chs, 0, 512, newBuf⟩ =
          buf.take newBuf ++ slice disk (512 * l) 512 ++ buf.drop (newBuf + 512) :=
        copy_eq (by decide) (h 0 _ rfl)
      have hkept : (buf.take newBuf ++ slice disk (512 * l) 512).length = newBuf + 512 := by
        rw [List.length_append, List.length_take, hsector]
        omega
      have hlen : (bios.copy drive buf ⟨nextHead chs, 0, 512, newBuf⟩).length =
          newBuf + 512 + (buf.length - (newBuf + 512)) := by
        rw [hcopy, List.length_append, hkept, List.length_drop]
      rw [List.foldl_cons, ih (by omega) (by omega) (by omega) (by omega) h.tail, hcopy,
        List.take_left' hkept, List.append_assoc, Nat.mul_add_one, slice_append_slice,
        Nat.add_sub_cancel' hmore.le]
    · rw [if_neg hmore] at h ⊢
      obtain rfl : n = 0 := by omega
      have hcopy : bios.copy drive buf ⟨nextHead chs, 0, numBytes, newBuf⟩ =
          buf.take newBuf ++ slice disk (512 * l) numBytes ++ buf.drop (newBuf + numBytes) :=
        copy_eq (by omega) (h 0 _ rfl)
      rw [roundsLoop, List.foldl_cons, List.foldl_nil, hcopy, List.drop_eq_nil_of_le hlong,
        List.append_nil]

theorem roundsLoop_within {n numBytes newBuf : ℕ} {chs : Chs} (hle : numBytes ≤ 512 * n)
    (hlt : 512 * n < numBytes + 512) :
    ∀ r ∈ roundsLoop n chs numBytes 0 newBuf,
      newBuf ≤ r.dst ∧ r.dst + r.len ≤ newBuf + numBytes ∧ r.src + r.len ≤ 512 := by
  induction n generalizing chs numBytes newBuf with
  | zero => simp [roundsLoop]
  | succ n ih =>
    intro r hr
    rw [roundsLoop] at hr
    split_ifs at hr with hmore
    · rcases List.mem_cons.mp hr with rfl | hr
      · exact ⟨le_refl _, Nat.add_le_add_left hmore.le _, by simp⟩
      · obtain ⟨hstart, hdst, hsrc⟩ := ih (by omega) (by omega) r hr
        exact ⟨by omega, by omega, hsrc⟩
    · obtain rfl : n = 0 := by omega
      obtain rfl := List.mem_singleton.mp hr
      exact ⟨le_refl _, le_refl _, by simpa using hmore⟩

theorem numSectors_spec (count : ℕ) :
    count ≤ 512 * numSectors count ∧ 512 * numSectors count < count + 512 := by
  unfold numSectors
  split_ifs with h0
  · omega
  · omega

/-- A request that its sectors have room for is stored as it is on the disk: what a first
copy takes from behind its sector is overwritten by the next one. -/
theorem dev_of_fits {fd : ℤ} {pos count : ℕ} (hfits : pos % 512 + count ≤ 512 * numSectors count)
    (h : bios.Fetches (Bios.drive fd) disk (pos / 512) (devRounds pos count)) :
    bios.dev fd pos count = slice disk pos count := by
  have hspec := numSectors_spec count
  have hoff : pos % 512 < 512 := Nat.mod_lt _ (by decide)
  have hpos : 512 * (pos / 512) + pos % 512 = pos := Nat.div_add_mod pos 512
  by_cases hshort : count ≤ 512
  · by_cases h0 : count = 0
    · subst h0
      simp [dev, devRounds, rounds, numSectors, roundsLoop, slice]
    · have hone := @Bios.devRounds_small pos count h0 hshort
      have hroom : pos % 512 + count ≤ 512 := by omega
      rw [hone] at h
      rw [dev, hone, List.foldl_cons, List.foldl_nil, copy_eq hroom (h 0 _ rfl), Nat.add_zero, hpos]
      simp
  · obtain ⟨n, hn⟩ : ∃ n, numSectors count = n + 1 := ⟨numSectors count - 1, by omega⟩
    rw [dev]
    rw [devRounds, rounds, hn, roundsLoop, if_pos (not_le.mp hshort)] at h ⊢
    rw [Nat.zero_add] at h ⊢
    have hfirst : bios.copy (Bios.drive fd) [] ⟨nextHead (lbaToChs (pos / 512) 2 18), pos % 512, 512, 0⟩ =
        slice (bios.sectorBuf (Bios.drive fd) (nextHead (lbaToChs (pos / 512) 2 18)))
          (pos % 512) 512 := by
      rw [copy, overwrite_zero, List.drop_nil, List.append_nil]
    have hlen : (slice (bios.sectorBuf (Bios.drive fd) (nextHead (lbaToChs (pos / 512) 2 18)))
        (pos % 512) 512).length = 512 := bios.length_copied hoff.le (le_refl _)
    have hkept : (slice (bios.sectorBuf (Bios.drive fd) (nextHead (lbaToChs (pos / 512) 2 18)))
        (pos % 512) 512).take (512 - pos % 512) = slice disk pos (512 - pos % 512) := by
      rw [slice, List.take_take, Nat.min_eq_left (Nat.sub_le _ _)]
      have hsector := @slice_sectorBuf bios (Bios.drive fd) disk _ (pos / 512) (pos % 512)
        (512 - pos % 512) (by omega) (h 0 _ rfl)
      rwa [hpos] at hsector
    have hnext : pos + (512 - pos % 512) = 512 * (pos / 512 + 1) := by omega
    rw [List.foldl_cons, hfirst, foldl_roundsLoop (l := pos / 512 + 1) (by omega) (by omega) (by omega)
      (by omega) h.tail, hkept, ← hnext, slice_append_slice]
    congr 1
    omega

theorem dev_exact {fd : ℤ} {pos count : ℕ}
    (hplace : pos % 512 = 0 ∨ pos % 512 + count ≤ 512)
    (h : bios.Fetches (Bios.drive fd) disk (pos / 512) (devRounds pos count)) :
    bios.dev fd pos count = slice disk pos count ∧
      ∀ r ∈ devRounds pos count, r.dst + r.len ≤ count ∧ r.src + r.len ≤ 512 := by
  obtain ⟨hle, hlt⟩ := numSectors_spec count
  by_cases hnone : count = 0
  · subst hnone
    simp [dev, devRounds, rounds, numSectors, roundsLoop, slice]
  refine ⟨dev_of_fits (by omega) h, ?_⟩
  by_cases h0 : pos % 512 = 0
  · rw [devRounds, rounds, h0]
    intro r hr
    obtain ⟨-, hdst, hsrc⟩ := roundsLoop_within hle hlt r hr
    exact ⟨by omega, hsrc⟩
  · have hfit : pos % 512 + count ≤ 512 := hplace.resolve_left h0
    rw [@Bios.devRounds_small pos count hnone (by omega)]
    intro r hr
    obtain rfl := List.mem_singleton.mp hr
    exact ⟨by simp, hfit⟩

theorem place_of_within {pos count : ℕ} (h : ∀ r ∈ devRounds pos count, r.src + r.len ≤ 512) :
    pos % 512 = 0 ∨ pos % 512 + count ≤ 512 := by
  obtain ⟨hle, -⟩ := numSectors_spec count
  by_contra hnot
  simp only [not_or] at hnot
  obtain ⟨n, hn⟩ : ∃ n, numSectors count = n + 1 := ⟨numSectors count - 1, by omega⟩
  rw [devRounds, rounds, hn, roundsLoop] at h
  split_ifs at h with hmore
  · have hfirst : pos % 512 + 512 ≤ 512 := h _ List.mem_cons_self
    omega
  · have hfirst : pos % 512 + count ≤ 512 := h _ List.mem_cons_self
    omega

/-- `read` of the floppy stores the bytes at its position, and every `memcpy` stays
within `count` bytes of `buf` and the 512 of `sector_buf`. -/
def ReadsExactly (bios : Bios) (amb : Ambient) (io : Io) (disk : List UInt8) (count : ℕ) : Prop :=
  (∃ r, io.read bios.env amb amb.fuel 4 count 0 = some r ∧
      r.bytes = slice disk (io.fdList 4).pos.toNat count) ∧
    ∀ r ∈ devRounds (io.fdList 4).pos.toNat count, r.dst + r.len ≤ count ∧ r.src + r.len ≤ 512

theorem read_dev {amb : Ambient} {io : Io} {fuel : ℕ} (bios : Bios)
    (hdisk : (io.fdList 4).pfd = -1) (hfuel : 0 < fuel) (count : ℕ) :
    ∃ r, io.read bios.env amb fuel 4 count 0 = some r ∧
      r.bytes = bios.dev 4 (io.fdList 4).pos.toNat count := by
  obtain ⟨fuel, rfl⟩ : ∃ n, fuel = n + 1 := ⟨fuel - 1, by omega⟩
  obtain ⟨r, hr⟩ : ∃ r, io.read bios.env amb (fuel + 1) 4 count 0 = some r := Io.read_device hdisk
  exact ⟨r, hr, ((Io.read_direct hdisk hr).2.2.2.1 (Or.inr rfl)).1⟩

theorem read_exactly_iff {amb : Ambient} {io : Io} {count : ℕ} (hdisk : (io.fdList 4).pfd = -1)
    (hfuel : 0 < amb.fuel)
    (h : bios.Fetches 1 disk ((io.fdList 4).pos.toNat / 512)
      (devRounds (io.fdList 4).pos.toNat count)) :
    bios.ReadsExactly amb io disk count ↔ (io.fdList 4).pos.toNat % 512 = 0 ∨
      (io.fdList 4).pos.toNat % 512 + count ≤ 512 := by
  constructor
  · rintro ⟨-, hwithin⟩
    exact place_of_within fun r hr => (hwithin r hr).2
  · intro hplace
    obtain ⟨r, hr, hbytes⟩ := bios.read_dev hdisk hfuel count
    have hfetches : bios.Fetches (Bios.drive 4) disk _ _ := h
    obtain ⟨hexact, hwithin⟩ := dev_exact hplace hfetches
    exact ⟨⟨r, hr, hbytes.trans hexact⟩, hwithin⟩

def diskAt (pos : UInt32) : Io :=
  { fdList := Function.update (fun _ => {}) 4 { pos := pos, size := 65535, pfd := -1 } }

def ramp : List UInt8 := (List.range 2048).map UInt8.ofNat

theorem fetches_ramp {pos count : ℕ} (hpos : pos / 512 < 4) (h0 : count ≠ 0) (h : count ≤ 512) :
    (ofDisk ramp).Fetches 1 ramp (pos / 512) (devRounds pos count) := by
  rw [devRounds_small h0 h]
  intro k r hr
  obtain ⟨rfl, rfl⟩ : k = 0 ∧ ⟨nextHead (lbaToChs (pos / 512) 2 18), pos % 512, count, 0⟩ = r := by
    cases k with
    | zero => exact ⟨rfl, Option.some.inj hr⟩
    | succ k => cases hr
  have hlength : ramp.length = 2048 := by decide +kernel
  have hlinear : ∀ l < 4, (nextHead (lbaToChs l 2 18)).linear 2 18 = l := by decide
  exact ofDisk_readSectors 1 (hlinear _ hpos) (by rw [hlength]; omega)

theorem read_exactly_iff_ramp : (ofDisk ramp).ReadsExactly calm (diskAt 1000) ramp 24 :=
  (read_exactly_iff rfl (by decide) (fetches_ramp (by decide) (by decide) (by decide))).mpr
    (Or.inr (by decide))

/-- A FAT entry in the last byte of a sector and the first byte of the next one. -/
theorem read_not_exact : ¬ ∀ (bios : Bios) (amb : Ambient) (io : Io) (disk : List UInt8) (count : ℕ),
    (io.fdList 4).pfd = -1 → 0 < amb.fuel → (io.fdList 4).pos.toNat + count ≤ disk.length →
    bios.Fetches 1 disk ((io.fdList 4).pos.toNat / 512)
      (devRounds (io.fdList 4).pos.toNat count) →
    bios.ReadsExactly amb io disk count := by
  intro hlaw
  have hlength : ramp.length = 2048 := by decide +kernel
  obtain ⟨-, hwithin⟩ := hlaw (ofDisk ramp) calm (diskAt 511) ramp 2 rfl (by decide)
    (by rw [hlength]; decide) (fetches_ramp (by decide) (by decide) (by decide))
  have hplace := place_of_within fun r hr => (hwithin r hr).2
  exact absurd hplace (by decide)

end Bios

/-! From a right start on, the loop walks the linear order across tracks and cylinders. -/

theorem chs_roundsLoop {n l numBytes sectorOffset newBuf : ℕ} {chs : Chs}
    (h : nextHead chs = chsOf l) :
    (roundsLoop n chs numBytes sectorOffset newBuf).map Round.chs =
      (List.range' l n).map chsOf := by
  induction n generalizing l chs numBytes sectorOffset newBuf with
  | zero => rfl
  | succ n ih =>
    have hnext : nextHead { nextHead chs with sector := (nextHead chs).sector + 1 } =
        chsOf (l + 1) := by
      rw [h]
      exact nextHead_chsOf l
    rw [roundsLoop, List.range'_succ, List.map_cons, ← h]
    by_cases hmore : 512 < numBytes
    · rw [if_pos hmore, List.map_cons, ih hnext]
    · rw [if_neg hmore, List.map_cons, ih hnext]

theorem length_devRounds (pos count : ℕ) : (Bios.devRounds pos count).length = numSectors count := by
  have hloop : ∀ n chs numBytes sectorOffset newBuf,
      (roundsLoop n chs numBytes sectorOffset newBuf).length = n := by
    intro n
    induction n with
    | zero =>
      intros
      rfl
    | succ n ih =>
      intro chs numBytes sectorOffset newBuf
      rw [roundsLoop]
      split_ifs <;> rw [List.length_cons, ih]
  exact hloop _ _ _ _ _

theorem chs_devRounds {pos count k : ℕ} {r : Round}
    (hstart : (lbaToChs (pos / 512) 2 18).Numbers (pos / 512) 80 2 18)
    (hr : (Bios.devRounds pos count)[k]? = some r) : r.chs = chsOf (pos / 512 + k) := by
  have hmap : (Bios.devRounds pos count).map Round.chs =
      (List.range' (pos / 512) (numSectors count)).map chsOf :=
    chs_roundsLoop (nextHead_of_numbers hstart)
  have hk : k < numSectors count := by
    rw [← length_devRounds pos count]
    exact (List.getElem?_eq_some_iff.mp hr).1
  have hget : ((Bios.devRounds pos count).map Round.chs)[k]? =
      ((List.range' (pos / 512) (numSectors count)).map chsOf)[k]? := by rw [hmap]
  rw [List.getElem?_map, List.getElem?_map, hr, List.getElem?_range' hk] at hget
  simpa using hget

namespace Bios

theorem fetches_ofDisk {disk : List UInt8} {pos count : ℕ} (drive : UInt8)
    (hstart : (lbaToChs (pos / 512) 2 18).Numbers (pos / 512) 80 2 18)
    (hfloppy : pos / 512 + numSectors count ≤ 2880)
    (hon : 512 * (pos / 512 + numSectors count) ≤ disk.length) :
    (ofDisk disk).Fetches drive disk (pos / 512) (devRounds pos count) := by
  intro k r hr
  have hk := (List.getElem?_eq_some_iff.mp hr).1
  rw [length_devRounds] at hk
  obtain ⟨-, -, -, -, hlinear⟩ :=
    (numbers_iff r.chs (pos / 512 + k)).mpr ⟨by omega, chs_devRounds hstart hr⟩
  exact ofDisk_readSectors drive hlinear (by omega)

theorem dev_ofDisk {disk : List UInt8} {pos count : ℕ} (fd : ℤ)
    (hstart : (lbaToChs (pos / 512) 2 18).Numbers (pos / 512) 80 2 18)
    (hfloppy : pos / 512 + numSectors count ≤ 2880)
    (hon : 512 * (pos / 512 + numSectors count) ≤ disk.length)
    (hplace : pos % 512 = 0 ∨ pos % 512 + count ≤ 512) :
    (ofDisk disk).dev fd pos count = slice disk pos count :=
  (dev_exact hplace (fetches_ofDisk (drive fd) hstart hfloppy hon)).1

end Bios

/-- The floppy in the second drive holds `disk`. -/
def Bios.Holds (bios : Bios) (disk : List UInt8) : Prop :=
  ∀ chs l, chs.Numbers l 80 2 18 → bios.readSectors 1 chs = slice disk (512 * l) 512

theorem Bios.holds_ofDisk {disk : List UInt8} (hlen : disk.length = 512 * 2880) :
    (ofDisk disk).Holds disk := by
  intro chs l h
  obtain ⟨hl, -⟩ := (numbers_iff chs l).mp h
  exact ofDisk_readSectors 1 h.2.2.2.2 (by omega)

theorem Bios.Holds.fetches {bios : Bios} {disk : List UInt8} {pos count : ℕ} (h : bios.Holds disk)
    (hstart : (lbaToChs (pos / 512) 2 18).Numbers (pos / 512) 80 2 18)
    (hfloppy : pos / 512 + numSectors count ≤ 2880) :
    bios.Fetches 1 disk (pos / 512) (devRounds pos count) := by
  intro k r hr
  have hk := (List.getElem?_eq_some_iff.mp hr).1
  rw [length_devRounds] at hk
  exact h _ _ ((numbers_iff _ _).mpr ⟨by omega, chs_devRounds hstart hr⟩)

def clusterPos (io : Io) (c : ℕ) : ℕ := io.sPos.dataSectionStart + io.clusterSize * (c - 2)

theorem seekPos_eq {io : Io} {c : ℕ} (hc : 2 ≤ c)
    (hon : clusterPos io c + io.clusterSize ≤ 512 * 2880) : io.seekPos c = clusterPos io c := by
  have hpos : wrap (clusterPos io c) = clusterPos io c := Nat.mod_eq_of_lt (by omega)
  by_cases h0 : io.clusterSize = 0
  · rw [clusterPos, h0, Nat.zero_mul] at hpos
    rw [Io.seekPos, clusterPos, h0, Nat.zero_mul, Nat.zero_mul, hpos]
  · have hone : 1 * (c - 2) ≤ io.clusterSize * (c - 2) := Nat.mul_le_mul_right _ (by omega)
    rw [clusterPos] at hon
    rw [Io.seekPos_eq_wrap hc (by omega)]
    exact hpos

/-- Cluster `c` of a volume of 512-byte sectors, when the triple for its first sector is right. -/
theorem read_cluster_linear {bios : Bios} {amb : Ambient} {io : Io} {disk : List UInt8} {c : ℕ}
    (hsize : io.bs.sectorSize = 512) (hdata : io.sPos.dataSectionStart % 512 = 0) (hc : 2 ≤ c)
    (hon : clusterPos io c + io.clusterSize ≤ 512 * 2880) (hdisk : (io.fdList 4).pfd = -1)
    (hfuel : 0 < amb.fuel) (hholds : bios.Holds disk)
    (hstart : (lbaToChs (clusterPos io c / 512) 2 18).Numbers (clusterPos io c / 512) 80 2 18) :
    (∀ k < io.bs.sectorsPerCluster, ∃ r,
        (Bios.devRounds (clusterPos io c) io.clusterSize)[k]? = some r ∧
          r.chs.Numbers (clusterPos io c / 512 + k) 80 2 18) ∧
      (Bios.devRounds (clusterPos io c) io.clusterSize).length = io.bs.sectorsPerCluster ∧
      ∃ io', io.readCluster bios.env amb c =
        some (slice disk (clusterPos io c) io.clusterSize, io') := by
  have hwhole : io.clusterSize = 512 * io.bs.sectorsPerCluster := by rw [Io.clusterSize, hsize]
  have haligned : clusterPos io c % 512 = 0 := by
    rw [clusterPos, hwhole, Nat.mul_assoc, Nat.add_mul_mod_self_left, hdata]
  have hlength : (Bios.devRounds (clusterPos io c) io.clusterSize).length =
      io.bs.sectorsPerCluster := by
    have hcount := Bios.numSectors_spec io.clusterSize
    rw [length_devRounds]
    omega
  have hnumbers : ∀ (k : ℕ) (r : Round), (Bios.devRounds (clusterPos io c) io.clusterSize)[k]? = some r →
      r.chs.Numbers (clusterPos io c / 512 + k) 80 2 18 := by
    intro k r hr
    have hk := (List.getElem?_eq_some_iff.mp hr).1
    exact (numbers_iff _ _).mpr ⟨by omega, chs_devRounds hstart hr⟩
  refine ⟨?_, hlength, ?_⟩
  · intro k hk
    rw [← hlength] at hk
    exact ⟨_, List.getElem?_eq_getElem hk, hnumbers k _ (List.getElem?_eq_getElem hk)⟩
  · obtain ⟨io', hread, -⟩ := Io.readCluster_eq bios.env amb hdisk hfuel c
    have hfetches : bios.Fetches (Bios.drive 4) disk (clusterPos io c / 512)
        (Bios.devRounds (clusterPos io c) io.clusterSize) :=
      fun k r hr => hholds _ _ (hnumbers k r hr)
    have hexact : bios.env.dev 4 (clusterPos io c) io.clusterSize =
        slice disk (clusterPos io c) io.clusterSize := (Bios.dev_exact (Or.inl haligned) hfetches).1
    refine ⟨io', ?_⟩
    rw [hread, seekPos_eq hc hon, hexact]

/-- A volume whose data area starts at sector 33, with clusters of eight sectors: the first
one begins on cylinder 0 and ends on cylinder 1. -/
def mountedAt33 : Io :=
  { Bios.diskAt 0 with
    bs := { sectorSize := 512, sectorsPerCluster := 8 }
    sPos := ⟨512, 512 * 33, 512 * 19⟩ }

def fullDisk : List UInt8 := (List.range (512 * 2880)).map UInt8.ofNat

theorem length_fullDisk : fullDisk.length = 512 * 2880 := by
  rw [fullDisk, List.length_map, List.length_range]

theorem read_cluster_linear_second : (∀ k < 8, ∃ r, (Bios.devRounds (512 * 33) 4096)[k]? = some r ∧
      r.chs.Numbers (33 + k) 80 2 18) ∧
    ∃ io', mountedAt33.readCluster (Bios.ofDisk fullDisk).env calm 2 =
      some (slice fullDisk (512 * 33) 4096, io') := by
  have hpos : clusterPos mountedAt33 2 = 512 * 33 := rfl
  have hsize : mountedAt33.clusterSize = 4096 := rfl
  have hstart : (lbaToChs (512 * 33 / 512) 2 18).Numbers (512 * 33 / 512) 80 2 18 :=
    (numbers_iff _ _).mpr ⟨by decide, by decide⟩
  obtain ⟨hwalk, -, hread⟩ := @read_cluster_linear (.ofDisk fullDisk) calm mountedAt33 fullDisk 2 rfl rfl
    (by decide) (by rw [hpos, hsize]; decide) rfl (by decide) (Bios.holds_ofDisk length_fullDisk)
    (by rw [hpos]; exact hstart)
  rw [hpos, hsize] at hwalk hread
  exact ⟨hwalk, hread⟩

end RML
