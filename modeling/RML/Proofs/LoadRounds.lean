import RML.Proofs.Clusters

/-! The do-while of `load_file_content` as a walk along the links of the table: how
long it goes on, and which clusters it reads. -/

namespace RML

open Bytes Walk

namespace Io

variable {env : Env} {amb : Ambient} {io : Io}

/-- The values that end a file. -/
abbrev EndMark (c : ℕ) : Prop := 0x0FF8 ≤ c

/-- The first rounds of the loop without what they do to memory: the clusters passed to
`read_cluster`, and whether the loop has ended; `none` when a cluster overruns
`clust_buf`, behind which the loop's own variables lie. -/
def loadRounds (env : Env) (amb : Ambient) : ℕ → Io → ℕ → Option (List ℕ × Bool)
  | 0, _, _ => some ([], false)
  | n + 1, io, currCluster => do
    let (bytes, io) ← io.readCluster env amb currCluster
    if 4096 < bytes.length then none else
    let (nextCluster, io) ← io.getNextCluster env amb currCluster
    if nextCluster < 0x0FF8 then do
      let (clusters, ended) ← loadRounds env amb n io nextCluster
      some (currCluster :: clusters, ended)
    else some ([currCluster], true)

theorem dev_fits_iff (env : Env) (fd : ℤ) (pos count : ℕ) :
    (env.dev fd pos count).length ≤ 4096 ↔ count ≤ 4096 := by
  constructor
  · intro hfits
    by_contra hlong
    have hdev := env.lt_length_dev 8 fd pos count (by omega)
    omega
  · intro hcount
    exact (env.length_dev_le fd pos count).trans hcount

/-- One round where the buffer is large enough: both calls return, and what they leave
is again such a state. -/
theorem round_eq (env : Env) (amb : Ambient) (hdisk : (io.fdList 4).pfd = -1)
    (hfuel : 0 < amb.fuel) (hsize : io.clusterSize ≤ 4096) (c : ℕ) :
    ∃ io₁ io₂, io.readCluster env amb c = some (env.dev 4 (io.seekPos c) io.clusterSize, io₁) ∧
      io₁.getNextCluster env amb c = some (io.link env c, io₂) ∧
      (env.dev 4 (io.seekPos c) io.clusterSize).length ≤ 4096 ∧
      (io₂.fdList 4).pfd = -1 ∧ io₂.clusterSize ≤ 4096 ∧ io₂.link env = io.link env := by
  obtain ⟨io₁, hread, hseeks₁⟩ := readCluster_eq env amb hdisk hfuel c
  have hdisk₁ := (hseeks₁.pfd 4).trans hdisk
  obtain ⟨io₂, hnext, hseeks₂⟩ := getNextCluster_eq env amb hdisk₁ hfuel c
  have hsize₂ : io₂.clusterSize ≤ 4096 := by
    rwa [clusterSize, hseeks₂.bs, hseeks₁.bs]
  rw [hseeks₁.link] at hnext
  refine ⟨io₁, io₂, hread, hnext, (dev_fits_iff env 4 _ _).mpr hsize, ?_, hsize₂, ?_⟩
  · exact (hseeks₂.pfd 4).trans hdisk₁
  · rw [hseeks₂.link, hseeks₁.link]

theorem loadRounds_eq (env : Env) (amb : Ambient) (hdisk : (io.fdList 4).pfd = -1)
    (hfuel : 0 < amb.fuel) (hsize : io.clusterSize ≤ 4096) (n c : ℕ) :
    ∃ ended, io.loadRounds env amb n c = some (visited (io.link env) EndMark n c, ended) := by
  induction n generalizing io c with
  | zero => exact ⟨false, rfl⟩
  | succ n ih =>
    obtain ⟨io₁, io₂, hread, hnext, hfits, hdisk₂, hsize₂, hlink⟩ :=
      round_eq env amb hdisk hfuel hsize c
    simp only [loadRounds, hread, hnext, Option.bind_eq_bind, Option.bind_some,
      if_neg (not_lt.mpr hfits), visited]
    by_cases hend : EndMark (io.link env c)
    · rw [if_neg (not_lt.mpr hend), if_pos hend]
      exact ⟨true, rfl⟩
    · obtain ⟨ended, hrest⟩ := ih hdisk₂ hsize₂ (io.link env c)
      rw [if_pos (not_le.mp hend), if_neg hend, hrest, hlink]
      exact ⟨ended, rfl⟩

theorem clusterSize_le_of_loadRounds (hdisk : (io.fdList 4).pfd = -1) (hfuel : 0 < amb.fuel)
    {n c : ℕ} {out : List ℕ × Bool} (hrounds : io.loadRounds env amb (n + 1) c = some out) :
    io.clusterSize ≤ 4096 := by
  obtain ⟨io₁, hread, -⟩ := readCluster_eq env amb hdisk hfuel c
  by_contra hbig
  have hlong : 4096 < (env.dev 4 (io.seekPos c) io.clusterSize).length := by
    rw [← not_le, dev_fits_iff]
    exact hbig
  simp only [loadRounds, hread, Option.bind_eq_bind, Option.bind_some, if_pos hlong] at hrounds
  cases hrounds

theorem loadLoop_ends_iff (hdisk : (io.fdList 4).pfd = -1) (hfuel : 0 < amb.fuel)
    (hsize : io.clusterSize ≤ 4096) {segment n offset c : ℕ} {mem : ℕ → UInt8}
    {clustBuf : List UInt8} :
    (∃ out, loadLoop env amb segment n io mem clustBuf offset c = some out) ↔
      EndsWithin (io.link env) EndMark n c := by
  induction n generalizing io mem clustBuf offset c with
  | zero => simp [loadLoop, EndsWithin]
  | succ n ih =>
    obtain ⟨io₁, io₂, hread, hnext, hfits, hdisk₂, hsize₂, hlink⟩ :=
      round_eq env amb hdisk hfuel hsize c
    simp only [loadLoop, hread, hnext, Option.bind_eq_bind, Option.bind_some,
      if_neg (not_lt.mpr hfits), EndsWithin]
    by_cases hend : EndMark (io.link env c)
    · rw [if_neg (not_lt.mpr hend)]
      simp [hend]
    · rw [if_pos (not_le.mp hend), ih hdisk₂ hsize₂, hlink, or_iff_right hend]

def fatEntries (io : Io) : ℕ := io.bs.sectorSize * io.bs.fatSizeSectors * 2 / 3

/-- The loop that loads `file` is over after at most `n` rounds, whatever segment and
offset it is given and whatever memory and `clust_buf` hold. -/
def LoadEnds (env : Env) (amb : Ambient) (io : Io) (file : Fat16Entry) (n : ℕ) : Prop :=
  ∀ segment mem clustBuf offset, ∃ out,
    loadLoop env amb segment n io mem clustBuf offset file.startingCluster = some out

theorem loadEnds_iff (hdisk : (io.fdList 4).pfd = -1) (hfuel : 0 < amb.fuel)
    (hsize : io.clusterSize ≤ 4096) {file : Fat16Entry} {n : ℕ} :
    io.LoadEnds env amb file n ↔ EndsWithin (io.link env) EndMark n file.startingCluster := by
  constructor
  · intro hends
    exact (loadLoop_ends_iff hdisk hfuel hsize).mp (hends 0 (fun _ => 0) [] 0)
  · intro hends segment mem clustBuf offset
    exact (loadLoop_ends_iff hdisk hfuel hsize).mpr hends

/-- A data cluster, read at or above the start of the data section. -/
def DataCluster (io : Io) (c : ℕ) : Prop :=
  2 ≤ c ∧ c < 0x0FF0 ∧ wrap (c + 2 ^ 32 - 2) = c - 2 ∧ io.sPos.dataSectionStart ≤ io.seekPos c

def BadMark (c : ℕ) : Prop := c < 2 ∨ 0x0FF0 ≤ c ∧ c < 0x0FF8

theorem dataCluster_iff (hstart : io.sPos.dataSectionStart < 2 ^ 32) (c : ℕ) :
    io.DataCluster c ↔ (2 ≤ c ∧ c < 0x0FF0) ∧
      io.sPos.dataSectionStart + wrap (io.clusterSize * (c - 2)) < 2 ^ 32 := by
  have hoffset : ∀ d y, d < 2 ^ 32 → (d ≤ wrap (d + y) ↔ d + wrap y < 2 ^ 32) := by
    intro d y hd
    unfold wrap
    omega
  constructor
  · rintro ⟨h2, hc, hwrap, hpos⟩
    rw [seekPos, hwrap, hoffset _ _ hstart] at hpos
    exact ⟨⟨h2, hc⟩, hpos⟩
  · rintro ⟨⟨h2, hc⟩, hpos⟩
    have hwrap := wrap_sub_two h2 (show c < 2 ^ 32 by omega)
    refine ⟨h2, hc, hwrap, ?_⟩
    rw [seekPos, hwrap, hoffset _ _ hstart]
    exact hpos

theorem met_range_iff {link : ℕ → ℕ} {start : ℕ} :
    (∀ c ∈ Met link EndMark start, 2 ≤ c ∧ c < 0x0FF0) ↔
      (2 ≤ start ∧ start < 0x0FF0) ∧ ∀ c ∈ Met link EndMark start, ¬ BadMark (link c) := by
  constructor
  · intro hrange
    refine ⟨hrange start (met_self start), ?_⟩
    rintro c hc (hlow | ⟨hhigh, hlt⟩)
    · have hnext := hrange _ (Met.tail hc (by unfold EndMark; omega))
      omega
    · have hnext := hrange _ (Met.tail hc (not_le.mpr hlt))
      omega
  · rintro ⟨hstart, hlinks⟩ c hc
    induction hc with
    | refl => exact hstart
    | @tail b c hb hnext _ =>
      obtain ⟨rfl, hgo⟩ := hnext
      have hmark := hlinks b hb
      unfold BadMark at hmark
      unfold EndMark at hgo
      omega

end Io

variable {env : Env} {amb : Ambient} {io : Io} {file : Fat16Entry}

def scatteredBooted : Sys := Sys.bootedFrom scattered (by decide +kernel)

theorem reachable_scatteredBooted : Sys.Reachable (.ofVolume scattered) scatteredBooted :=
  Sys.reachable_bootedFrom _ _

theorem startingCluster_scatteredInit : scatteredInit.startingCluster = 2 := by decide +kernel

theorem ends_scattered : EndsWithin (scatteredBooted.kernel.io.link (.ofVolume scattered))
    Io.EndMark scatteredBooted.kernel.io.fatEntries 2 := by
  have hmany : scatteredBooted.kernel.io.fatEntries = 338 + 3 := by decide +kernel
  rw [hmany]
  exact Or.inr (Or.inr (Or.inl (by decide +kernel)))

/-- The cluster of `INIT` is its own successor. -/
def selfLinked : Volume where
  bytes := floppyBytes 1 [0xF0, 0xFF, 0xFF, 0x02, 0x00] (dirEntry (ascii "INIT") 2)
    (List.replicate 512 0x90)
  length_lt := by decide +kernel
  sectorSize_eq := by decide +kernel

def selfLinkedBooted : Sys := Sys.bootedFrom selfLinked (by decide +kernel)

/-- Over any number of rounds of the loop that loads `file`, only data clusters are read,
and the buffer holds each of them. -/
def Io.ReadsData (env : Env) (amb : Ambient) (io : Io) (file : Fat16Entry) : Prop :=
  ∀ n, ∃ clusters ended,
    io.loadRounds env amb n file.startingCluster = some (clusters, ended) ∧
      ∀ c ∈ clusters, io.DataCluster c

theorem Io.readsData_iff_met (hdisk : (io.fdList 4).pfd = -1) (hfuel : 0 < amb.fuel) :
    io.ReadsData env amb file ↔ io.clusterSize ≤ 4096 ∧
      ∀ c ∈ Met (io.link env) Io.EndMark file.startingCluster, io.DataCluster c := by
  constructor
  · intro hall
    obtain ⟨clusters, ended, hfirst, -⟩ := hall 1
    have hsize := clusterSize_le_of_loadRounds hdisk hfuel hfirst
    refine ⟨hsize, ?_⟩
    intro c hc
    obtain ⟨n, hn⟩ := mem_met_iff_visited.mp hc
    obtain ⟨ended, hrounds⟩ := loadRounds_eq env amb hdisk hfuel hsize n file.startingCluster
    obtain ⟨clusters, ended', hrounds', hdata⟩ := hall n
    rw [hrounds] at hrounds'
    cases hrounds'
    exact hdata c hn
  · rintro ⟨hsize, hmet⟩ n
    obtain ⟨ended, hrounds⟩ := loadRounds_eq env amb hdisk hfuel hsize n file.startingCluster
    refine ⟨_, ended, hrounds, ?_⟩
    intro c hc
    exact hmet c (mem_met_iff_visited.mpr ⟨n, hc⟩)

/-- A zero-length `INIT`, whose starting cluster is 0. -/
def emptyFile : Volume where
  bytes := floppyBytes 1 [0xF0, 0xFF, 0xFF]
    ((dirEntry (ascii "INIT") 0).take 28 ++ List.replicate 4 0) (List.replicate 512 0x90)
  length_lt := by decide +kernel
  sectorSize_eq := by decide +kernel

def emptyFileBooted : Sys := Sys.bootedFrom emptyFile (by decide +kernel)

end RML
