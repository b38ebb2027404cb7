import RML.Proofs.Startup
import RML.Proofs.Processes
import RML.Lib.Fat12
import RML.Lib.Walk

/-! `read_cluster` and `get_next_cluster` for every state whose descriptor 4 is the
floppy: where they seek, what they find there, and the links from cluster to cluster. -/

namespace RML

open Bytes

namespace Io

variable {env : Env} {amb : Ambient} {io io' : Io}

def seekPos (io : Io) (clusterNum : ℕ) : ℕ :=
  wrap (io.sPos.dataSectionStart + io.clusterSize * wrap (clusterNum + 2 ^ 32 - 2))

def link (env : Env) (io : Io) (c : ℕ) : ℕ :=
  Fat12.select c (ofLE (env.dev 4 (wrap (io.sPos.fatSectionStart + Fat12.offset c)) 2))

theorem wrap_sub_two {c : ℕ} (h2 : 2 ≤ c) (hc : c < 2 ^ 32) : wrap (c + 2 ^ 32 - 2) = c - 2 := by
  have hsub : c + 2 ^ 32 - 2 = c - 2 + 2 ^ 32 := by omega
  rw [wrap, hsub, Nat.add_mod_right]
  exact Nat.mod_eq_of_lt (by omega)

theorem seekPos_eq_wrap {c : ℕ} (h2 : 2 ≤ c) (hc : c < 2 ^ 32) :
    io.seekPos c = wrap (io.sPos.dataSectionStart + io.clusterSize * (c - 2)) := by
  rw [seekPos, wrap_sub_two h2 hc]

theorem wrap_wrap (n : ℕ) : wrap (wrap n) = wrap n := Nat.mod_mod _ _

theorem readCluster_eq (env : Env) (amb : Ambient) (hdisk : (io.fdList 4).pfd = -1)
    (hfuel : 0 < amb.fuel) (c : ℕ) :
    ∃ io', io.readCluster env amb c = some (env.dev 4 (io.seekPos c) io.clusterSize, io') ∧
      Seeks 0 io io' := by
  obtain ⟨io', hread, hseeks, -⟩ := read_at env amb hdisk hfuel (io.seekPos c) io.clusterSize
  have hpos : wrap (io.seekPos c) = io.seekPos c := wrap_wrap _
  rw [hpos] at hread
  refine ⟨io', ?_, hseeks⟩
  rw [readCluster, ← seekPos]
  simp only [hread, Option.bind_eq_bind, Option.bind_some]

theorem getNextCluster_eq (env : Env) (amb : Ambient) (hdisk : (io.fdList 4).pfd = -1)
    (hfuel : 0 < amb.fuel) (c : ℕ) :
    ∃ io', io.getNextCluster env amb c = some (io.link env c, io') ∧ Seeks 0 io io' := by
  obtain ⟨io', hread, hseeks, -⟩ := read_at env amb hdisk hfuel
    (wrap (io.sPos.fatSectionStart + wrap (c + c / 2))) 2
  have hpos : wrap (wrap (io.sPos.fatSectionStart + wrap (c + c / 2))) =
      wrap (io.sPos.fatSectionStart + Fat12.offset c) := by
    rw [wrap_wrap]
    exact Nat.add_mod_mod _ _ _
  rw [hpos] at hread
  have hodd : c &&& 0x0001 = c % 2 := Nat.and_one_is_mod c
  have hmask : ∀ w : ℕ, w &&& 0x0FFF = w % 4096 := fun w => Nat.and_two_pow_sub_one_eq_mod w 12
  refine ⟨io', ?_, hseeks⟩
  simp only [getNextCluster, hread, Option.bind_eq_bind, Option.bind_some, hodd, hmask,
    Nat.shiftRight_eq_div_pow, link, Fat12.select]
  rcases Nat.mod_two_eq_zero_or_one c with h | h
  · simp [h]
  · simp [h]

theorem Seeks.link {pid : ℕ} (h : Seeks pid io io') : io'.link env = io.link env := by
  funext c
  rw [Io.link, Io.link, h.sPos]

end Io

/-- The device gives the two bytes of entry `n` of a packed table at `start`. -/
def Env.HasEntry (env : Env) (start : ℕ) (entries : List Fat12.Entry) (n : ℕ) : Prop :=
  env.dev 4 (wrap (start + Fat12.offset n)) 2 = slice (Fat12.pack entries) (Fat12.offset n) 2

theorem Env.HasEntry.link {env : Env} {io : Io} {entries : List Fat12.Entry} {n : ℕ}
    (h : env.HasEntry io.sPos.fatSectionStart entries n) (hn : n < entries.length) :
    io.link env n = entries[n].toNat := by
  rw [Io.link, h]
  exact Fat12.decode_pack hn

/-- `get_next_cluster` finds entry `n` of the table, whatever the others are. -/
theorem get_next_cluster_pack {env : Env} {amb : Ambient} {io : Io} {entries : List Fat12.Entry}
    {n : ℕ} (hdisk : (io.fdList 4).pfd = -1) (hfuel : 0 < amb.fuel) (hn : n < entries.length)
    (htable : env.HasEntry io.sPos.fatSectionStart entries n) :
    (∃ io', io.getNextCluster env amb n = some (entries[n].toNat, io')) ∧
      ∀ env' m e, m ≠ n → Env.HasEntry env' io.sPos.fatSectionStart (entries.set m e) n →
        ∃ io', io.getNextCluster env' amb n = some (entries[n].toNat, io') := by
  constructor
  · obtain ⟨io', hnext, -⟩ := Io.getNextCluster_eq env amb hdisk hfuel n
    exact ⟨io', by rw [hnext, htable.link hn]⟩
  · intro env' m e hne htable'
    obtain ⟨io', hnext, -⟩ := Io.getNextCluster_eq env' amb hdisk hfuel n
    have hn' : n < (entries.set m e).length := by rwa [List.length_set]
    refine ⟨io', ?_⟩
    rw [hnext, htable'.link hn', List.getElem_set_ne hne]

theorem get_next_cluster_pack_floppy :
    ∃ io', Sys.booted.kernel.io.getNextCluster (.ofVolume floppy) calm 1 = some (0xFFF, io') := by
  have htable : Env.HasEntry (.ofVolume floppy) Sys.booted.kernel.io.sPos.fatSectionStart
      [0xFF0, 0xFFF, 0xFFF] 1 := by
    unfold Env.HasEntry
    decide +kernel
  exact (get_next_cluster_pack (Sys.wired_boot Sys.boot_booted).disk (by decide) (by decide)
    htable).1

end RML
