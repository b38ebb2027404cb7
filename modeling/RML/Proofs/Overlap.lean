import RML.Lib.RingBuffer
import RML.Proofs.LoadRounds
import RML.Proofs.Loader

/-! Where the rounds of `load_file_content` store. The offset grows in 32 bits, `di`
has the lower 16 of them, and the segment is a ring of sixteen rounds. -/

namespace RML

open Bytes Walk RingBuffer

def copyAddresses (segment : ℕ) : ℕ → ℕ → List ℕ
  | 0, _ => []
  | count + 1, di => (segment * 16 + di) :: copyAddresses segment count ((di + 1) % 65536)

def storeByte (mem : ℕ → UInt8) (s : ℕ × UInt8) : ℕ → UInt8 := Function.update mem s.1 s.2

theorem copyLoop_stores {segment di : ℕ} {buffer : List UInt8} {mem : ℕ → UInt8} :
    copyLoop segment buffer di mem =
      ((copyAddresses segment buffer.length di).zip buffer).foldl storeByte mem := by
  induction buffer generalizing di mem with
  | nil => rfl
  | cons b buffer ih =>
    rw [copyLoop, ih]
    rfl

theorem length_copyAddresses (segment count di : ℕ) :
    (copyAddresses segment count di).length = count := by
  induction count generalizing di with
  | zero => rfl
  | succ count ih => rw [copyAddresses, List.length_cons, ih]

theorem copyAddresses_eq {segment count di : ℕ} :
    copyAddresses segment count (di % 65536) =
      (run 65536 count di).map fun offset => segment * 16 + offset := by
  induction count generalizing di with
  | zero => rfl
  | succ count ih =>
    rw [copyAddresses, Nat.mod_add_mod, ih, run_succ, List.map_cons]

namespace Io

/-- The first rounds of the loop: the addresses each of them stores to; `none` when a
cluster overruns `clust_buf`, as in `loadRounds`. -/
def loadWrites (env : Env) (amb : Ambient) (segment : ℕ) :
    ℕ → Io → ℕ → ℕ → Option (List (List ℕ))
  | 0, _, _, _ => some []
  | n + 1, io, offset, currCluster => do
    let (bytes, io) ← io.readCluster env amb currCluster
    if 4096 < bytes.length then none else
    let addresses := copyAddresses segment (2 * (4096 / 2)) (offset % 65536)
    let (nextCluster, io) ← io.getNextCluster env amb currCluster
    if nextCluster < 0x0FF8 then do
      let rest ← loadWrites env amb segment n io (wrap (offset + 4096)) nextCluster
      some (addresses :: rest)
    else some [addresses]

variable {env : Env} {amb : Ambient} {io io' : Io} {segment n offset c : ℕ}

/-- All that the loop does to memory are the stores of its rounds. -/
theorem loadLoop_stores {mem mem' : ℕ → UInt8} {clustBuf : List UInt8}
    (hbuf : clustBuf.length = 4096)
    (hload : loadLoop env amb segment n io mem clustBuf offset c = some (io', mem')) :
    ∃ stores : List (List (ℕ × UInt8)),
      loadWrites env amb segment n io offset c = some (stores.map (·.map Prod.fst)) ∧
        mem' = stores.flatten.foldl storeByte mem := by
  induction n generalizing io mem clustBuf offset c with
  | zero => cases hload
  | succ n ih =>
    simp only [loadLoop, Option.bind_eq_bind, Option.bind_eq_some_iff, Prod.exists] at hload
    obtain ⟨bytes, io₁, hread, hload⟩ := hload
    split_ifs at hload with hlong
    simp only [Option.bind_eq_some_iff, Prod.exists] at hload
    obtain ⟨nextCluster, io₂, hnext, hload⟩ := hload
    have hbuf' : (overwrite clustBuf 0 bytes).length = 4096 := by
      rw [length_overwrite (by omega), hbuf]
    have hwhole : (overwrite clustBuf 0 bytes).take (2 * (4096 / 2)) = overwrite clustBuf 0 bytes :=
      List.take_of_length_le hbuf'.le
    let addresses := copyAddresses segment (2 * (4096 / 2)) (offset % 65536)
    let round := addresses.zip (overwrite clustBuf 0 bytes)
    have hround : round.map Prod.fst = addresses := by
      refine List.map_fst_zip ?_
      rw [length_copyAddresses, hbuf']
    have hcopy : loadToMemory mem segment offset (overwrite clustBuf 0 bytes) 4096 =
        round.foldl storeByte mem := by
      rw [loadToMemory, hwhole, copyLoop_stores, hbuf']
    simp only [loadWrites, hread, hnext, Option.bind_eq_bind, Option.bind_some, if_neg hlong]
    by_cases hgo : nextCluster < 0x0FF8
    · rw [if_pos hgo] at hload ⊢
      obtain ⟨stores, hrest, rfl⟩ := ih hbuf' hload
      refine ⟨round :: stores, ?_, ?_⟩
      · rw [hrest, Option.bind_some, List.map_cons, hround]
      · rw [List.flatten_cons, List.foldl_append, hcopy]
    · rw [if_neg hgo] at hload ⊢
      cases hload
      refine ⟨[round], ?_, ?_⟩
      · rw [List.map_cons, hround, List.map_nil]
      · rw [List.flatten_singleton, hcopy]

theorem loadWrites_eq (env : Env) (amb : Ambient) (hdisk : (io.fdList 4).pfd = -1)
    (hfuel : 0 < amb.fuel) (hsize : io.clusterSize ≤ 4096) (segment n offset c : ℕ) :
    io.loadWrites env amb segment n offset c =
      some ((runs (16 * 4096) 4096 offset (visited (io.link env) EndMark n c).length).map
        (·.map fun di => segment * 16 + di)) := by
  induction n generalizing io offset c with
  | zero => rfl
  | succ n ih =>
    obtain ⟨io₁, io₂, hread, hnext, hfits, hdisk₂, hsize₂, hlink⟩ :=
      round_eq env amb hdisk hfuel hsize c
    simp only [loadWrites, hread, hnext, Option.bind_eq_bind, Option.bind_some,
      if_neg (not_lt.mpr hfits), visited]
    by_cases hend : EndMark (io.link env c)
    · rw [if_neg (not_lt.mpr hend), if_pos hend, copyAddresses_eq]
      rfl
    · have hstep : runs (16 * 4096) 4096 (wrap (offset + 4096)) =
          runs (16 * 4096) 4096 (offset + 4096) := by
        funext m
        refine runs_congr ?_
        rw [wrap]
        omega
      rw [if_pos (not_le.mp hend), if_neg hend, ih hdisk₂ hsize₂, hlink, copyAddresses_eq,
        List.length_cons, runs_succ, hstep]
      rfl

theorem clusterSize_le_of_loadWrites (hdisk : (io.fdList 4).pfd = -1) (hfuel : 0 < amb.fuel)
    {rounds : List (List ℕ)}
    (hwrites : io.loadWrites env amb segment (n + 1) offset c = some rounds) :
    io.clusterSize ≤ 4096 := by
  obtain ⟨io₁, hread, -⟩ := readCluster_eq env amb hdisk hfuel c
  by_contra hbig
  have hlong : 4096 < (env.dev 4 (io.seekPos c) io.clusterSize).length := by
    rw [← not_le, dev_fits_iff]
    exact hbig
  simp only [loadWrites, hread, Option.bind_eq_bind, Option.bind_some, if_pos hlong] at hwrites
  cases hwrites

/-- Over any number of rounds of the loop that loads `file`, no byte of the segment is
stored to by two of them. The stores of the loop itself are these rounds by
`loadLoop_stores`. -/
def WritesApart (env : Env) (amb : Ambient) (io : Io) (segment : ℕ) (file : Fat16Entry) : Prop :=
  ∀ n, ∃ rounds, io.loadWrites env amb segment n 0 file.startingCluster = some rounds ∧
    rounds.Pairwise List.Disjoint

theorem writesApart_iff (hdisk : (io.fdList 4).pfd = -1) (hfuel : 0 < amb.fuel)
    {file : Fat16Entry} : io.WritesApart env amb segment file ↔ io.clusterSize ≤ 4096 ∧
      EndsWithin (io.link env) EndMark 16 file.startingCluster := by
  have hround : ∀ n, io.clusterSize ≤ 4096 →
      ((∃ rounds, io.loadWrites env amb segment n 0 file.startingCluster = some rounds ∧
          rounds.Pairwise List.Disjoint) ↔
        (visited (io.link env) EndMark n file.startingCluster).length ≤ 16) := by
    intro n hsize
    have hshift : Function.Injective fun di => segment * 16 + di := add_right_injective _
    simp only [loadWrites_eq env amb hdisk hfuel hsize, Option.some.injEq, exists_eq_left',
      List.pairwise_map, List.Disjoint.map_iff hshift]
    exact pairwise_runs_iff (by decide) (by decide)
  rw [← length_visited_le_iff]
  constructor
  · intro hall
    obtain ⟨rounds, hfirst, -⟩ := hall 1
    have hsize := clusterSize_le_of_loadWrites hdisk hfuel hfirst
    exact ⟨hsize, fun n => (hround n hsize).mp (hall n)⟩
  · rintro ⟨hsize, hlengths⟩ n
    exact (hround n hsize).mpr (hlengths n)

end Io

variable {env : Env} {amb : Ambient} {k : Kernel} {name : List UInt8} {file : Fat16Entry} {io : Io}

/-- The loader answers a request for a file it has found with a code. -/
def Kernel.Refuses (env : Env) (amb : Ambient) (k : Kernel) (name : List UInt8) : Prop :=
  ∃ r, k.load env amb name = some r ∧ r.retcode ≠ 0

theorem Kernel.not_refuses (hlookup : lookup env amb k.io name = some (some file, io)) :
    ¬ k.Refuses env amb name := by
  rintro ⟨r, hload, hcode⟩
  rcases load_cases rfl hload with
    ⟨io', hnone, -⟩ | ⟨file', io₁, io₂, mem, -, -, ⟨-, rfl⟩ | ⟨pid, sched, -, rfl⟩⟩
  · rw [hlookup] at hnone
    cases hnone
  · exact hcode rfl
  · exact hcode rfl

/-- The kernel in which `load` runs: in the loop of `startk`, or for a system call. -/
def Sys.Loads (m : Sys) (k : Kernel) : Prop :=
  k = restarted m.kernel ∨ ∃ request, k = named m.kernel request

theorem Sys.Loads.disk {m : Sys} (hloads : m.Loads k) (hreach : Sys.Reachable env m) :
    (k.io.fdList 4).pfd = -1 ∧ k.io.link env = m.kernel.io.link env ∧
      k.io.clusterSize = m.kernel.io.clusterSize := by
  have hdisk := (Sys.settled_reachable hreach).io.disk
  rcases hloads with rfl | ⟨request, rfl⟩
  · exact ⟨hdisk, rfl, rfl⟩
  · exact ⟨hdisk, rfl, rfl⟩

/-- The clusters of a file come to lie apart: each of them fits the buffer, and there
are at most the sixteen that the segment has room for. -/
def Io.FitsSegment (env : Env) (io : Io) (file : Fat16Entry) : Prop :=
  io.clusterSize ≤ 4096 ∧ EndsWithin (io.link env) Io.EndMark 16 file.startingCluster

theorem length_floppyBytes {sectors : UInt8} {fat root data : List UInt8}
    (hfat : fat.length ≤ 512) (hroot : root.length ≤ 512) :
    (floppyBytes sectors fat root data).length = 1536 + data.length := by
  have hpad : ∀ l : List UInt8, l.length ≤ 512 →
      (l ++ List.replicate (512 - l.length) 0).length = 512 := by
    intro l hl
    rw [List.length_append, List.length_replicate]
    omega
  rw [floppyBytes, List.length_append, List.length_append, List.length_append, hpad fat hfat,
    hpad root hroot, hpad _ (by simp)]

def longFat : List UInt8 :=
  [0xF0, 0xFF, 0xFF, 0x03, 0x40, 0x00, 0x05, 0x60, 0x00, 0x07, 0x80, 0x00, 0x09, 0xA0, 0x00,
    0x0B, 0xC0, 0x00, 0x0D, 0xE0, 0x00, 0x0F, 0x00, 0x01, 0x11, 0x20, 0x01, 0xFF, 0x0F]

def longRoot : List UInt8 := (dirEntry (ascii "INIT") 2).take 28 ++ [0x00, 0x10, 0x01, 0x00]

/-- `INIT` in the clusters 2 to 18 of eight sectors: 69632 bytes. -/
def longFile : Volume where
  bytes := floppyBytes 8 longFat longRoot (List.replicate 69632 0x90)
  length_lt := by
    have hlen := @length_floppyBytes 8 longFat longRoot (List.replicate 69632 0x90)
      (by decide +kernel) (by decide +kernel)
    rw [hlen, List.length_replicate]
    decide
  sectorSize_eq := by decide +kernel

def longFileBooted : Sys := Sys.bootedFrom longFile (by decide +kernel)

end RML
