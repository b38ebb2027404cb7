import RML.Proofs.Mounted
import RML.Proofs.Sectors
import Mathlib.Data.List.GetD

/-! `load_file_content` along a chain. On a mounted volume the loop reads the
clusters of the chain one after another; what it makes of them in memory depends
on their size alone, since the buffer is copied and stepped over in 4096 bytes. -/

namespace RML

open Bytes

theorem copyLoop_get {segment di j : ℕ} {buffer : List UInt8} {mem : ℕ → UInt8}
    (h : di + buffer.length ≤ 65536) :
    copyLoop segment buffer di mem (segment * 16 + j) =
      if di ≤ j ∧ j < di + buffer.length then buffer.getD (j - di) 0 else mem (segment * 16 + j) := by
  induction buffer generalizing di mem with
  | nil => simp [copyLoop]
  | cons b buffer ih =>
    rw [List.length_cons] at h ⊢
    rw [copyLoop]
    cases buffer with
    | nil =>
      rw [copyLoop, Function.update_apply]
      by_cases hj : j = di
      · simp [hj]
      · rw [if_neg (by omega), if_neg (by simp only [List.length_nil]; omega)]
    | cons b' buffer =>
      rw [List.length_cons] at h
      have hdi : (di + 1) % 65536 = di + 1 := Nat.mod_eq_of_lt (by omega)
      rw [hdi, ih (by rw [List.length_cons]; omega), Function.update_apply]
      by_cases hj : j = di
      · subst hj
        simp
      · by_cases hlt : di + 1 ≤ j
        · have hsub : j - di = j - (di + 1) + 1 := by omega
          rw [if_neg (show ¬ segment * 16 + j = segment * 16 + di by omega), hsub,
            List.getD_cons_succ]
          simp only [List.length_cons, hlt, true_and]
          split_ifs <;> first | rfl | omega
        · rw [if_neg (by omega), if_neg (by omega), if_neg (by omega)]

/-- What the loop makes of the contents of the clusters. -/
def loadedMem (segment : ℕ) : List (List UInt8) → ℕ → List UInt8 → (ℕ → UInt8) → ℕ → UInt8
  | [], _, _, mem => mem
  | b :: bs, offset, clustBuf, mem =>
    let clustBuf := overwrite clustBuf 0 b
    loadedMem segment bs (wrap (offset + 4096)) clustBuf
      (loadToMemory mem segment offset clustBuf 4096)

namespace Mounted

variable {env : Env} {amb : Ambient} {io : Io} {v : Volume} {fuel c : ℕ}

theorem clusterSize_eq (hm : Mounted io v) : io.clusterSize = v.clusterSize := by
  simp only [Io.clusterSize, hm.bs, Volume.clusterSize]
  rw [show v.bs.sectorSize = 512 from v.sectorSize_eq]

theorem seekPos_eq (hm : Mounted io v) (hin : v.InArea c) : io.seekPos c = v.seekPos c := by
  obtain ⟨h2, hdata, htable⟩ := hin
  have hlt := v.length_lt
  have hstart := v.dataSectionStart_le
  have hroot := v.rootStart_le
  have hnowrap : wrap (v.seekPos c) = v.seekPos c := by
    refine Nat.mod_eq_of_lt ?_
    rw [Volume.seekPos]
    omega
  rw [Io.seekPos_eq_wrap h2 (by omega), hm.sPos, hm.clusterSize_eq]
  exact hnowrap

theorem readCluster (hm : Mounted io v) (hd : env.DeliversCluster v c) (hfuel : 0 < amb.fuel)
    (hin : v.InArea c) :
    ∃ io', io.readCluster env amb c = some (v.found c, io') ∧ Mounted io' v := by
  obtain ⟨io', hread, hseeks⟩ := Io.readCluster_eq env amb hm.disk hfuel c
  refine ⟨io', ?_, hm.seeks hseeks⟩
  rw [hread, hm.seekPos_eq hin, hm.clusterSize_eq, hd.cluster]

theorem getNextCluster (hm : Mounted io v) (hd : env.DeliversCluster v c) (hfuel : 0 < amb.fuel)
    (hin : v.InArea c) :
    ∃ io', io.getNextCluster env amb c = some (v.fatEntry c, io') ∧ Mounted io' v := by
  obtain ⟨-, hdata, htable⟩ := hin
  have hlt := v.length_lt
  have hroot := v.rootStart_le
  have hstart := v.dataSectionStart_le
  have hpos : wrap (v.fatStart + Fat12.offset c) = v.fatStart + Fat12.offset c :=
    Nat.mod_eq_of_lt (show v.fatStart + (c + c / 2) < 2 ^ 32 by omega)
  have hentry : io.link env c = v.fatEntry c := by
    rw [Io.link, hm.sPos, hpos, hd.entry]
    rfl
  obtain ⟨io', hnext, hseeks⟩ := Io.getNextCluster_eq env amb hm.disk hfuel c
  refine ⟨io', ?_, hm.seeks hseeks⟩
  rw [hnext, hentry]

end Mounted

theorem Volume.length_found {v : Volume} {c : ℕ} (hin : v.InArea c) :
    (v.found c).length = v.clusterSize := by
  have hdata := hin.2.1
  have hstart := v.dataSectionStart_le
  refine length_slice ?_
  rw [Volume.seekPos]
  omega

namespace Mounted

variable {env : Env} {amb : Ambient} {io : Io} {v : Volume} {fuel c : ℕ}

/-- Along a chain of clusters that fit the buffer, the loop ends with `loadedMem`. -/
theorem loadLoop_eq {segment offset : ℕ} {mem : ℕ → UInt8} {clustBuf : List UInt8}
    {chain : List ℕ} (hchain : v.FatChain c chain) (hd : ∀ c ∈ chain, env.DeliversCluster v c)
    (hsize : v.clusterSize ≤ 4096) (hfuel : 0 < amb.fuel) (hm : Mounted io v)
    (hloop : chain.length ≤ fuel) :
    ∃ io', Io.loadLoop env amb segment fuel io mem clustBuf offset c =
      some (io', loadedMem segment (chain.map v.found) offset clustBuf mem) := by
  induction hchain generalizing io mem clustBuf offset fuel with
  | @last c hin hend =>
    obtain ⟨fuel, rfl⟩ : ∃ n, fuel = n + 1 := ⟨fuel - 1, by simp at hloop; omega⟩
    have hc := hd c List.mem_cons_self
    obtain ⟨io₁, hread, hm₁⟩ := hm.readCluster hc hfuel hin
    obtain ⟨io₂, hnext, hm₂⟩ := hm₁.getNextCluster hc hfuel hin
    refine ⟨io₂, ?_⟩
    simp only [Io.loadLoop, hread, hnext, Option.bind_eq_bind, Option.bind_some,
      Volume.length_found hin, if_neg (Nat.not_lt.mpr hsize), if_neg (Nat.not_lt.mpr hend)]
    rfl
  | @link c chain hin hlink _ ih =>
    rw [List.length_cons] at hloop
    obtain ⟨fuel, rfl⟩ : ∃ n, fuel = n + 1 := ⟨fuel - 1, by omega⟩
    have hc := hd c List.mem_cons_self
    obtain ⟨io₁, hread, hm₁⟩ := hm.readCluster hc hfuel hin
    obtain ⟨io₂, hnext, hm₂⟩ := hm₁.getNextCluster hc hfuel hin
    let clustBuf' := overwrite clustBuf 0 (v.found c)
    let mem' := loadToMemory mem segment offset clustBuf' 4096
    obtain ⟨io', hrest⟩ : ∃ io', Io.loadLoop env amb segment fuel io₂ mem' clustBuf'
        (wrap (offset + 4096)) (v.fatEntry c) = some (io', loadedMem segment
          (chain.map v.found) (wrap (offset + 4096)) clustBuf' mem') :=
      ih (fun c' hc' => hd c' (List.mem_cons_of_mem _ hc')) hm₂ (by omega)
    refine ⟨io', ?_⟩
    simp only [Io.loadLoop, hread, hnext, Option.bind_eq_bind, Option.bind_some,
      Volume.length_found hin, if_neg (Nat.not_lt.mpr hsize), if_pos hlink]
    exact hrest

theorem loadLoop_overrun {segment offset : ℕ} {mem : ℕ → UInt8} {clustBuf : List UInt8}
    (hd : env.DeliversCluster v c) (hsize : 4096 < v.clusterSize) (hfuel : 0 < amb.fuel)
    (hin : v.InArea c) (hm : Mounted io v) :
    Io.loadLoop env amb segment fuel io mem clustBuf offset c = none := by
  cases fuel with
  | zero => rfl
  | succ fuel =>
    obtain ⟨io₁, hread, -⟩ := hm.readCluster hd hfuel hin
    simp only [Io.loadLoop, hread, Option.bind_eq_bind, Option.bind_some,
      Volume.length_found hin, if_pos hsize]

end Mounted

section Image

variable {segment offset cs : ℕ} {clustBuf : List UInt8} {mem : ℕ → UInt8}

theorem loadToMemory_get (hbuf : clustBuf.length = 4096) (hoff : offset % 4096 = 0) (j : ℕ) :
    loadToMemory mem segment offset clustBuf 4096 (segment * 16 + j) =
      if offset % 65536 ≤ j ∧ j < offset % 65536 + 4096 then
        clustBuf.getD (j - offset % 65536) 0
      else mem (segment * 16 + j) := by
  have hwhole : clustBuf.take (2 * (4096 / 2)) = clustBuf := List.take_of_length_le hbuf.le
  have hfit : offset % 65536 + clustBuf.length ≤ 65536 := by omega
  rw [loadToMemory, hwhole, copyLoop_get hfit, hbuf]

theorem loadedMem_whole {bs : List (List UInt8)} (hbs : ∀ b ∈ bs, b.length = 4096)
    (hbuf : clustBuf.length = 4096) (hoff : offset % 4096 = 0)
    (hfit : offset + 4096 * bs.length ≤ 65536) (j : ℕ) :
    loadedMem segment bs offset clustBuf mem (segment * 16 + j) =
      if offset ≤ j ∧ j < offset + 4096 * bs.length then bs.flatten.getD (j - offset) 0
      else mem (segment * 16 + j) := by
  induction bs generalizing offset clustBuf mem with
  | nil =>
    rw [loadedMem, if_neg (by simp only [List.length_nil]; omega)]
  | cons b bs ih =>
    have hsucc : 4096 * (bs.length + 1) = 4096 * bs.length + 4096 := Nat.mul_succ ..
    rw [List.length_cons, hsucc] at hfit ⊢
    have hb : b.length = 4096 := hbs b (List.mem_cons_self ..)
    have hnew : overwrite clustBuf 0 b = b := by
      rw [overwrite_zero, List.drop_eq_nil_of_le (by omega), List.append_nil]
    have hnext : wrap (offset + 4096) = offset + 4096 := Nat.mod_eq_of_lt (by omega)
    have hmod : offset % 65536 = offset := Nat.mod_eq_of_lt (by omega)
    rw [loadedMem, hnew, hnext,
      ih (fun b' h => hbs b' (List.mem_cons_of_mem _ h)) hb (by omega) (by omega),
      loadToMemory_get hb hoff, hmod, List.flatten_cons]
    by_cases hfirst : offset ≤ j ∧ j < offset + 4096
    · have hnot : ¬ (offset + 4096 ≤ j ∧ j < offset + 4096 + 4096 * bs.length) := by omega
      have hin : offset ≤ j ∧ j < offset + (4096 * bs.length + 4096) := ⟨hfirst.1, by omega⟩
      rw [if_neg hnot, if_pos hfirst, if_pos hin, List.getD_append _ _ _ _ (by omega)]
    · rw [if_neg hfirst]
      by_cases hrest : offset + 4096 ≤ j ∧ j < offset + 4096 + 4096 * bs.length
      · have hin : offset ≤ j ∧ j < offset + (4096 * bs.length + 4096) :=
          ⟨by omega, by omega⟩
        rw [if_pos hrest, if_pos hin, List.getD_append_right _ _ _ _ (by omega), hb, Nat.sub_sub]
      · have hnot : ¬ (offset ≤ j ∧ j < offset + (4096 * bs.length + 4096)) := fun h =>
          hrest ⟨Nat.not_lt.mp fun hlt => hfirst ⟨h.1, hlt⟩, by omega⟩
        rw [if_neg hrest, if_neg hnot]

theorem loadedMem_single {b : List UInt8} (hb : b.length ≤ 4096) (hbuf : clustBuf.length = 4096)
    {j : ℕ} (hj : j < b.length) :
    loadedMem segment [b] 0 clustBuf mem (segment * 16 + j) = b.getD j 0 := by
  have hlen : (overwrite clustBuf 0 b).length = 4096 := by
    rw [length_overwrite (by omega), hbuf]
  rw [loadedMem, loadedMem, loadToMemory_get hlen rfl, if_pos (by omega), overwrite_zero,
    List.getD_append _ _ _ _ (by omega), Nat.zero_mod, Nat.sub_zero]

theorem getD_overwrite_zero (clustBuf : List UInt8) {b : List UInt8} (hb : b.length ≤ cs) :
    (overwrite clustBuf 0 b).getD cs 0 = clustBuf.getD cs 0 := by
  rw [overwrite_zero, List.getD_append_right _ _ _ _ hb, List.getD_eq_getElem?_getD,
    List.getElem?_drop, Nat.add_sub_of_le hb, List.getD_eq_getElem?_getD]

/-- Clusters of `cs < 4096` bytes leave the rest of the buffer alone, so the byte
after the first cluster stays what the stack held there, however long the chain. -/
theorem loadedMem_stale {bs : List (List UInt8)} (hbs : ∀ b ∈ bs, b.length = cs) (hcs : cs < 4096)
    (hbuf : clustBuf.length = 4096) (hoff : offset % 4096 = 0)
    (hmem : mem (segment * 16 + cs) = clustBuf.getD cs 0) :
    loadedMem segment bs offset clustBuf mem (segment * 16 + cs) = clustBuf.getD cs 0 := by
  induction bs generalizing offset clustBuf mem with
  | nil => exact hmem
  | cons b bs ih =>
    have hb : b.length = cs := hbs b (List.mem_cons_self ..)
    have hlen : (overwrite clustBuf 0 b).length = 4096 := by
      rw [length_overwrite (by omega), hbuf]
    have hkeep := getD_overwrite_zero clustBuf hb.le
    have hnext : wrap (offset + 4096) % 4096 = 0 := by
      rw [wrap]
      omega
    rw [loadedMem, ih (fun b' h => hbs b' (List.mem_cons_of_mem _ h)) hlen hnext, hkeep]
    rw [loadToMemory_get hlen hoff, hkeep, hmem]
    split_ifs with h
    · have hzero : offset % 65536 = 0 := by omega
      rw [hzero, Nat.sub_zero, hkeep]
    · rfl

theorem loadedMem_second {b : List UInt8} {bs : List (List UInt8)}
    (hbs : ∀ b' ∈ b :: bs, b'.length = cs) (hcs : cs < 4096) (hbuf : clustBuf.length = 4096) :
    loadedMem segment (b :: bs) 0 clustBuf mem (segment * 16 + cs) = clustBuf.getD cs 0 := by
  have hb : b.length = cs := hbs b (List.mem_cons_self ..)
  have hlen : (overwrite clustBuf 0 b).length = 4096 := by
    rw [length_overwrite (by omega), hbuf]
  have hkeep := getD_overwrite_zero clustBuf hb.le
  rw [loadedMem, loadedMem_stale (fun b' h => hbs b' (List.mem_cons_of_mem _ h)) hcs hlen rfl, hkeep]
  rw [loadToMemory_get hlen rfl, if_pos (by omega), Nat.zero_mod, Nat.sub_zero]

end Image

def segmentBytes (mem : ℕ → UInt8) (segment n : ℕ) : List UInt8 :=
  (List.range n).map fun i => mem (segment * 16 + i)

theorem segmentBytes_eq_iff {mem : ℕ → UInt8} {segment : ℕ} (l : List UInt8) :
    segmentBytes mem segment l.length = l ↔
      ∀ i < l.length, mem (segment * 16 + i) = l.getD i 0 := by
  constructor
  · intro h i hi
    have hi' : (segmentBytes mem segment l.length)[i]? = l[i]? := by rw [h]
    simp only [segmentBytes, List.getElem?_map, List.getElem?_range hi, Option.map_some] at hi'
    rw [List.getD_eq_getElem?_getD, ← hi', Option.getD_some]
  · intro h
    apply List.ext_getElem
    · simp [segmentBytes]
    · intro i h1 h2
      simp only [segmentBytes, List.getElem_map, List.getElem_range]
      rw [h i h2, List.getD_eq_getElem _ _ h2]

def Volume.content (v : Volume) (chain : List ℕ) : List UInt8 := (chain.map v.cluster).flatten

theorem Volume.FatChain.inArea {v : Volume} {c : ℕ} {chain : List ℕ} (h : v.FatChain c chain) :
    ∀ c' ∈ chain, v.InArea c' := by
  induction h with
  | last hin _ =>
    intro c' hc'
    rwa [List.mem_singleton.mp hc']
  | link hin _ _ ih =>
    intro c' hc'
    rcases List.mem_cons.mp hc' with rfl | hc'
    · exact hin
    · exact ih c' hc'

theorem Volume.FatChain.length_pos {v : Volume} {c : ℕ} {chain : List ℕ} (h : v.FatChain c chain) :
    0 < chain.length := by
  cases h <;> simp

theorem Volume.length_cluster {v : Volume} {c : ℕ} (h : v.InArea c) :
    (v.cluster c).length = v.clusterSize :=
  length_slice h.2.1

theorem Volume.length_content {v : Volume} {chain : List ℕ} (h : ∀ c ∈ chain, v.InArea c) :
    (v.content chain).length = chain.length * v.clusterSize := by
  induction chain with
  | nil => simp [content]
  | cons c chain ih =>
    have hc := length_cluster (h c (List.mem_cons_self ..))
    have hrest := ih fun c' h' => h c' (List.mem_cons_of_mem _ h')
    rw [content] at hrest ⊢
    rw [List.map_cons, List.flatten_cons, List.length_append, hc, hrest, List.length_cons]
    ring

theorem Ambient.length_fill_nil (amb : Ambient) (n : ℕ) : (amb.fill n []).length = n := by
  simp [fill]

theorem Ambient.getD_fill_nil (amb : Ambient) {n i : ℕ} (h : i < n) :
    (amb.fill n []).getD i 0 = amb.buf i := by
  simp [fill, List.getD_eq_getElem?_getD, h]

/-- `load_file_content(file, segment, 0)` puts the file at the start of the segment,
whatever the stack and the segment held before. -/
def LoadsFile (env : Env) (io : Io) (v : Volume) (file : Fat16Entry) (segment : ℕ)
    (chain : List ℕ) : Prop :=
  ∀ amb mem, chain.length ≤ amb.fuel → ∃ io' mem',
    io.loadFileContent env amb mem file segment 0 = some (io', mem') ∧
    segmentBytes mem' segment (chain.length * v.clusterSize) = v.content chain

/-- The kernel finds the contents of the clusters of a chain: the root directory fills
its sectors, or what stands one sector in front of each cluster is the same. -/
def Volume.Found (v : Volume) (chain : List ℕ) : Prop :=
  16 ∣ v.bs.rootDirEntries ∨ ∀ c ∈ chain,
    slice v.bytes (v.dataStart + v.clusterSize * (c - 2) - 512) v.clusterSize = v.cluster c

def Volume.foundContent (v : Volume) (chain : List ℕ) : List UInt8 := (chain.map v.found).flatten

theorem Volume.found_iff {v : Volume} {chain : List ℕ} :
    v.Found chain ↔ ∀ c ∈ chain, v.found c = v.cluster c := by
  have hstart := v.dataStart_eq
  by_cases hwhole : 16 ∣ v.bs.rootDirEntries
  · rw [if_pos hwhole] at hstart
    constructor
    · intro _ c _
      rw [found, seekPos, cluster, hstart]
    · intro _
      exact Or.inl hwhole
  · rw [if_neg hwhole] at hstart
    have hpos : ∀ c, v.dataStart + v.clusterSize * (c - 2) - 512 = v.seekPos c := by
      intro c
      rw [seekPos]
      omega
    simp only [Found, or_iff_right hwhole, hpos]
    exact Iff.rfl

theorem flatten_map_eq_iff {f g : ℕ → List UInt8} {l : List ℕ} {n : ℕ}
    (hf : ∀ c ∈ l, (f c).length = n) (hg : ∀ c ∈ l, (g c).length = n) :
    (l.map f).flatten = (l.map g).flatten ↔ ∀ c ∈ l, f c = g c := by
  induction l with
  | nil => simp
  | cons c l ih =>
    have hlen : (f c).length = (g c).length :=
      (hf c List.mem_cons_self).trans (hg c List.mem_cons_self).symm
    have hrest := ih (fun c' h => hf c' (List.mem_cons_of_mem _ h))
      fun c' h => hg c' (List.mem_cons_of_mem _ h)
    rw [List.map_cons, List.map_cons, List.flatten_cons, List.flatten_cons, List.forall_mem_cons,
      ← hrest]
    constructor
    · intro heq
      exact List.append_inj heq hlen
    · rintro ⟨hfirst, hothers⟩
      rw [hfirst, hothers]

section Loads

variable {env : Env} {io : Io} {v : Volume} {file : Fat16Entry} {segment : ℕ} {chain : List ℕ}

theorem Volume.foundContent_eq_iff (hin : ∀ c ∈ chain, v.InArea c) :
    v.foundContent chain = v.content chain ↔ v.Found chain := by
  rw [found_iff]
  exact flatten_map_eq_iff (fun c hc => length_found (hin c hc)) fun c hc => length_cluster (hin c hc)

theorem Volume.FatChain.length_clusters {c : ℕ} (h : v.FatChain c chain) :
    ∀ b ∈ chain.map v.found, b.length = v.clusterSize := by
  intro b hb
  obtain ⟨c', hc', rfl⟩ := List.mem_map.mp hb
  exact length_found (h.inArea c' hc')

theorem Volume.FatChain.first_mem {c : ℕ} (h : v.FatChain c chain) : c ∈ chain := by
  cases h <;> exact List.mem_cons_self

theorem Volume.length_foundContent (h : ∀ c ∈ chain, v.InArea c) :
    (v.foundContent chain).length = chain.length * v.clusterSize := by
  induction chain with
  | nil => simp [foundContent]
  | cons c chain ih =>
    have hc := length_found (h c List.mem_cons_self)
    have hrest := ih fun c' h' => h c' (List.mem_cons_of_mem _ h')
    rw [foundContent] at hrest ⊢
    rw [List.map_cons, List.flatten_cons, List.length_append, hc, hrest, List.length_cons]
    ring

theorem Mounted.loadFileContent_eq (hm : Mounted io v)
    (hd : ∀ c ∈ chain, env.DeliversCluster v c)
    (hchain : v.FatChain file.startingCluster chain) (hsize : v.clusterSize ≤ 4096)
    (amb : Ambient) (mem : ℕ → UInt8) (hfuel : chain.length ≤ amb.fuel) :
    ∃ io', io.loadFileContent env amb mem file segment 0 =
      some (io', loadedMem segment (chain.map v.found) 0 (amb.fill 4096 []) mem) :=
  hm.loadLoop_eq hchain hd hsize (hchain.length_pos.trans_le hfuel) hfuel

/-- Clusters of more than eight sectors overrun the buffer. -/
theorem not_loadsFile_of_overrun (hm : Mounted io v) (hd : ∀ c ∈ chain, env.DeliversCluster v c)
    (hchain : v.FatChain file.startingCluster chain) (hbig : 4096 < v.clusterSize) :
    ¬ LoadsFile env io v file segment chain := by
  intro h
  obtain ⟨io', mem', hload, -⟩ := h { calm with fuel := chain.length } (fun _ => 0) le_rfl
  have hstart := hchain.inArea _ hchain.first_mem
  rw [Io.loadFileContent,
    hm.loadLoop_overrun (hd _ hchain.first_mem) hbig hchain.length_pos hstart] at hload
  cases hload

theorem not_loadsFile_of_small {c₁ c₂ : ℕ} {rest : List ℕ} (hm : Mounted io v)
    (hd : ∀ c ∈ c₁ :: c₂ :: rest, env.DeliversCluster v c)
    (hchain : v.FatChain file.startingCluster (c₁ :: c₂ :: rest))
    (h0 : 0 < v.clusterSize) (hsmall : v.clusterSize < 4096) :
    ¬ LoadsFile env io v file segment (c₁ :: c₂ :: rest) := by
  intro h
  have hclusters := hchain.length_clusters
  have hcontent := Volume.length_content hchain.inArea
  have hinside : v.clusterSize < (c₁ :: c₂ :: rest).length * v.clusterSize := by
    rw [List.length_cons, List.length_cons, Nat.succ_mul, Nat.succ_mul]
    omega
  let first := (v.content (c₁ :: c₂ :: rest)).getD v.clusterSize 0
  let amb : Ambient := { calm with fuel := (c₁ :: c₂ :: rest).length, buf := fun _ => first + 1 }
  obtain ⟨io', mem', hload, hbytes⟩ := h amb (fun _ => 0) le_rfl
  obtain ⟨io'', hloaded⟩ : ∃ io', io.loadFileContent env amb (fun _ => 0) file segment 0 =
      some (io', loadedMem segment ((c₁ :: c₂ :: rest).map v.found) 0 (amb.fill 4096 [])
        fun _ => 0) :=
    hm.loadFileContent_eq hd hchain hsmall.le amb _ le_rfl
  rw [hloaded] at hload
  obtain ⟨-, rfl⟩ := Prod.mk.inj (Option.some.inj hload)
  rw [← hcontent, segmentBytes_eq_iff] at hbytes
  have hbyte := hbytes v.clusterSize (by rw [hcontent]; exact hinside)
  rw [List.map_cons, loadedMem_second hclusters hsmall (amb.length_fill_nil 4096),
    amb.getD_fill_nil hsmall] at hbyte
  have hne : first + 1 ≠ first := by
    intro heq
    have hone : (1 : UInt8) = 0 := by
      rwa [UInt8.add_eq_left] at heq
    cases hone
  exact hne hbyte

theorem Mounted.loads_found (hm : Mounted io v) (hd : ∀ c ∈ chain, env.DeliversCluster v c)
    (hchain : v.FatChain file.startingCluster chain)
    (hlen : chain.length * v.clusterSize ≤ 65536)
    (hsize : v.clusterSize = 4096 ∨ chain.length = 1 ∧ v.clusterSize < 4096)
    (amb : Ambient) (mem : ℕ → UInt8) (hfuel : chain.length ≤ amb.fuel) :
    ∃ io' mem', io.loadFileContent env amb mem file segment 0 = some (io', mem') ∧
      segmentBytes mem' segment (chain.length * v.clusterSize) = v.foundContent chain := by
  have hfits : v.clusterSize ≤ 4096 := by
    rcases hsize with h4096 | ⟨-, hlt⟩
    · exact h4096.le
    · exact hlt.le
  have hcontent := Volume.length_foundContent hchain.inArea
  obtain ⟨io', hload⟩ := hm.loadFileContent_eq hd hchain hfits amb mem hfuel
  refine ⟨io', _, hload, ?_⟩
  rw [← hcontent, segmentBytes_eq_iff]
  intro i hi
  rcases hsize with h4096 | ⟨h1, -⟩
  · have hwhole : ∀ b ∈ chain.map v.found, b.length = 4096 := by
      intro b hb
      rw [hchain.length_clusters b hb, h4096]
    rw [h4096] at hlen
    rw [hcontent, h4096] at hi
    have hroom : 0 + 4096 * (chain.map v.found).length ≤ 65536 := by
      rw [List.length_map]
      omega
    rw [loadedMem_whole hwhole (amb.length_fill_nil 4096) rfl hroom, if_pos, Nat.sub_zero]
    · rfl
    · rw [List.length_map]
      omega
  · obtain ⟨c, rfl⟩ := List.length_eq_one_iff.mp h1
    have hc := Volume.length_found (hchain.inArea c List.mem_cons_self)
    have hone : v.foundContent [c] = v.found c := by simp [Volume.foundContent]
    rw [hone] at hi ⊢
    exact loadedMem_single (by omega) (amb.length_fill_nil 4096) hi

theorem loadsFile_empty (hm : Mounted io v) (hd : ∀ c ∈ chain, env.DeliversCluster v c)
    (hchain : v.FatChain file.startingCluster chain) (h0 : v.clusterSize = 0) :
    LoadsFile env io v file segment chain := by
  intro amb mem hfuel
  have hcontent := Volume.length_content hchain.inArea
  obtain ⟨io', hload⟩ := hm.loadFileContent_eq hd hchain (by omega) amb mem hfuel
  refine ⟨io', _, hload, ?_⟩
  rw [← hcontent, segmentBytes_eq_iff]
  intro i hi
  rw [hcontent, h0] at hi
  simp at hi

theorem loadsFile_iff_found (hm : Mounted io v) (hd : ∀ c ∈ chain, env.DeliversCluster v c)
    (hchain : v.FatChain file.startingCluster chain)
    (hlen : chain.length * v.clusterSize ≤ 65536)
    (hsize : v.clusterSize = 4096 ∨ chain.length = 1 ∧ v.clusterSize < 4096) :
    LoadsFile env io v file segment chain ↔ v.Found chain := by
  rw [← Volume.foundContent_eq_iff hchain.inArea]
  constructor
  · intro h
    let amb : Ambient := { calm with fuel := chain.length }
    obtain ⟨io₁, mem₁, hload₁, hbytes₁⟩ := h amb (fun _ => 0) le_rfl
    obtain ⟨io₂, mem₂, hload₂, hbytes₂⟩ :=
      @Mounted.loads_found env io v file segment chain hm hd hchain hlen hsize amb (fun _ => 0) le_rfl
    rw [hload₁] at hload₂
    obtain ⟨-, rfl⟩ := Prod.mk.inj (Option.some.inj hload₂)
    exact hbytes₂.symm.trans hbytes₁
  · intro heq amb mem hfuel
    obtain ⟨io', mem', hload, hbytes⟩ :=
      @Mounted.loads_found env io v file segment chain hm hd hchain hlen hsize amb mem hfuel
    exact ⟨io', mem', hload, hbytes.trans heq⟩

end Loads

/-- The loader's buffer and its stride are 4096 bytes, whatever the volume says, and the
data area starts where whole sectors of entries end: it loads every chain of eight-sector
clusters and every single smaller cluster that it finds there, and no other file of at
least one byte. -/
theorem load_file_content_iff {env : Env} {io : Io} {v : Volume} {file : Fat16Entry}
    {segment : ℕ} {chain : List ℕ} (hm : Mounted io v)
    (hd : ∀ c ∈ chain, env.DeliversCluster v c)
    (hchain : v.FatChain file.startingCluster chain)
    (hlen : chain.length * v.clusterSize ≤ 65536) :
    LoadsFile env io v file segment chain ↔
      v.bs.sectorsPerCluster = 0 ∨
        (v.bs.sectorsPerCluster = 8 ∨ chain.length = 1 ∧ v.bs.sectorsPerCluster < 8) ∧
          v.Found chain := by
  have hsize : v.clusterSize = 512 * v.bs.sectorsPerCluster := rfl
  by_cases h0 : v.bs.sectorsPerCluster = 0
  · simp only [h0, true_or, iff_true]
    exact loadsFile_empty hm hd hchain (by omega)
  rw [or_iff_right h0]
  by_cases hstep : v.bs.sectorsPerCluster = 8 ∨ chain.length = 1 ∧ v.bs.sectorsPerCluster < 8
  · rw [loadsFile_iff_found hm hd hchain hlen (hstep.imp (by omega) (And.imp_right (by omega))),
      and_iff_right hstep]
  · refine iff_of_false ?_ (fun h => hstep h.1)
    by_cases hbig : 8 < v.bs.sectorsPerCluster
    · exact not_loadsFile_of_overrun hm hd hchain (by omega)
    · obtain ⟨c₁, c₂, rest, rfl⟩ : ∃ c₁ c₂ rest, chain = c₁ :: c₂ :: rest := by
        rcases chain with _ | ⟨c₁, _ | ⟨c₂, rest⟩⟩
        · cases hchain
        · exact absurd (Or.inr ⟨rfl, by omega⟩) hstep
        · exact ⟨c₁, c₂, rest, rfl⟩
      exact not_loadsFile_of_small hm hd hchain (by omega) (by omega)

theorem floppy_chain : floppy.FatChain 2 [2] :=
  .last (by decide +kernel) (by decide +kernel)

def floppyInit : Fat16Entry := .ofBytes (slice floppy.bytes floppy.rootStart 32)

theorem floppyInit_chain : floppy.FatChain floppyInit.startingCluster [2] := by
  have hfirst : floppyInit.startingCluster = 2 := by decide +kernel
  rw [hfirst]
  exact floppy_chain

theorem scattered_chain : scattered.FatChain scatteredInit.startingCluster [2, 4, 3] := by
  have hlinks : scatteredInit.startingCluster = 2 ∧ scattered.fatEntry 2 = 4 ∧
      scattered.fatEntry 4 = 3 := by
    decide +kernel
  obtain ⟨hfirst, h2, h4⟩ := hlinks
  rw [hfirst]
  refine .link (by decide +kernel) (by decide +kernel) ?_
  rw [h2]
  refine .link (by decide +kernel) (by decide +kernel) ?_
  rw [h4]
  exact .last (by decide +kernel) (by decide +kernel)

/-- A machine with this floppy, read by the loop over sectors; cluster 3 crosses a track. -/
abbrev scatteredMachine : Bios := .ofDisk scattered.bytes

theorem delivers_scattered : ∀ c ∈ [2, 4, 3], scatteredMachine.env.DeliversCluster scattered c := by
  have hlength : scattered.bytes.length = 512 * 27 := by decide +kernel
  have hplaces : ∀ c ∈ [2, 4, 3], scattered.seekPos c = 512 * (8 * c - 13) ∧
      scattered.clusterSize = 4096 ∧ scattered.fatStart + Fat12.offset c = 512 + Fat12.offset c ∧
        Fat12.offset c ≤ 6 := by
    decide +kernel
  have hstart : ∀ l ∈ [1, 3, 11, 19], (lbaToChs l 2 18).Numbers l 80 2 18 := by
    intro l hl
    rw [numbers_iff]
    revert l
    decide
  intro c hc
  obtain ⟨hseek, hsize, hentry, hoffset⟩ := hplaces c hc
  have hlba : 8 * c - 13 ∈ [1, 3, 11, 19] ∧ 8 * c - 13 ≤ 19 := by
    revert c
    decide
  have hsectors : numSectors 4096 = 8 ∧ numSectors 2 = 1 := by decide
  refine ⟨?_, ?_⟩
  · rw [hseek, hsize, Volume.found, hseek, hsize]
    have hdiv : 512 * (8 * c - 13) / 512 = 8 * c - 13 := by omega
    refine Bios.dev_ofDisk 4 ?_ ?_ ?_ (Or.inl (by omega))
    · rw [hdiv]
      exact hstart _ hlba.1
    · omega
    · omega
  · rw [hentry]
    have hdiv : (512 + Fat12.offset c) / 512 = 1 := by omega
    refine Bios.dev_ofDisk 4 ?_ ?_ ?_ (Or.inr (by omega))
    · rw [hdiv]
      exact hstart 1 (by decide)
    · omega
    · omega

def scatteredMachineBooted : Sys :=
  ⟨(Kernel.startk scatteredMachine.env calm).get (by decide +kernel), []⟩

theorem mounted_scattered : Mounted scatteredMachineBooted.kernel.io scattered := by
  have hstart : (lbaToChs (0 / 512) 2 18).Numbers (0 / 512) 80 2 18 :=
    (numbers_iff _ _).mpr ⟨by decide, by decide⟩
  have hon : 512 * (0 / 512 + numSectors 512) ≤ scattered.bytes.length := by decide +kernel
  have hdev : scatteredMachine.dev 4 0 512 = slice scattered.bytes 0 512 :=
    Bios.dev_ofDisk 4 hstart (by decide) hon (Or.inl rfl)
  have hboot : scatteredMachine.env.DeliversBoot scattered := hdev
  exact .of_reachable hboot (scattered_chain.inArea 2 (by decide))
    ⟨_, [], ⟨calm, _, (Option.some_get _).symm, rfl⟩, .nil _⟩

theorem load_file_content_iff_scattered : LoadsFile scatteredMachine.env
    scatteredMachineBooted.kernel.io scattered scatteredInit 0x2000 [2, 4, 3] :=
  (load_file_content_iff mounted_scattered delivers_scattered scattered_chain
    (by decide +kernel)).mpr (Or.inr ⟨Or.inl (by decide +kernel), Or.inl (by decide +kernel)⟩)

/-- `INIT` in the clusters 2 and 3 of 512 bytes. -/
def twoClusters : Volume where
  bytes := floppyBytes 1 [0xF0, 0xFF, 0xFF, 0x03, 0xF0, 0xFF] (dirEntry (ascii "INIT") 2)
    (List.replicate 1024 0x90)
  length_lt := by decide +kernel
  sectorSize_eq := by decide +kernel

def twoClustersInit : Fat16Entry := .ofBytes (slice twoClusters.bytes twoClusters.rootStart 32)

theorem twoClusters_chain : twoClusters.FatChain twoClustersInit.startingCluster [2, 3] := by
  have hfirst : twoClustersInit.startingCluster = 2 := by decide +kernel
  have hnext : twoClusters.fatEntry 2 = 3 := by decide +kernel
  rw [hfirst]
  refine .link (by decide +kernel) (by decide +kernel) ?_
  rw [hnext]
  exact .last (by decide +kernel) (by decide +kernel)

def twoClustersBooted : Sys :=
  ⟨(Kernel.startk (.ofVolume twoClusters) calm).get (by decide +kernel), []⟩

theorem boot_twoClustersBooted : Sys.Boot (.ofVolume twoClusters) twoClustersBooted :=
  ⟨calm, _, (Option.some_get _).symm, rfl⟩

/-- Byte 512 of the segment is what the stack held, not the first byte of cluster 3. -/
theorem second_cluster_lost : ¬ ∀ (env : Env) (io : Io) (v : Volume) (file : Fat16Entry)
    (segment : ℕ) (chain : List ℕ), Mounted io v → (∀ c ∈ chain, env.DeliversCluster v c) →
    v.FatChain file.startingCluster chain → chain.length * v.clusterSize ≤ 65536 →
    LoadsFile env io v file segment chain := by
  intro h
  have hm : Mounted twoClustersBooted.kernel.io twoClusters :=
    .of_reachable (Env.deliversBoot_ofVolume (by decide +kernel))
      (twoClusters_chain.inArea 2 (by simp)) ⟨_, [], boot_twoClustersBooted, .nil _⟩
  have hd : ∀ c ∈ [2, 3], (Env.ofVolume twoClusters).DeliversCluster twoClusters c :=
    fun c hc => Env.deliversCluster_ofVolume (twoClusters_chain.inArea c hc)
  obtain ⟨io', mem', hload, hbytes⟩ := h _ _ _ twoClustersInit 0x2000 _ hm hd twoClusters_chain (by decide +kernel) calm (fun _ => 0) (by decide)
  have hlost : (twoClustersBooted.kernel.io.loadFileContent (.ofVolume twoClusters) calm
      (fun _ => 0) twoClustersInit 0x2000 0).map (fun r => r.2 (0x2000 * 16 + 512)) = some 0 := by
    decide +kernel
  rw [hload, Option.map_some, Option.some.injEq] at hlost
  have hlength : (twoClusters.content [2, 3]).length = [2, 3].length * twoClusters.clusterSize :=
    Volume.length_content twoClusters_chain.inArea
  rw [← hlength, segmentBytes_eq_iff] at hbytes
  have hbyte := hbytes 512 (by decide +kernel)
  have hwant : (twoClusters.content [2, 3]).getD 512 0 = 0x90 := by decide +kernel
  rw [show mem' (0x2000 * 16 + 512) = 0 from hlost, hwant] at hbyte
  cases hbyte

end RML
