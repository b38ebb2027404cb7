import RML.Proofs.Listing
import RML.Proofs.Mounted
import RML.Proofs.Sizes
import Mathlib.Data.List.TakeWhile

/-! Where a directory ends. An entry whose name starts with a NUL ends it, and
`list_root_files` has a branch for that; but `get_entry_type` takes such an entry for
none of the files first, so that the branch is never reached and the scan goes on. -/

namespace RML

open Bytes

/-- A file that has not been deleted: no VFAT entry and no volume label. -/
def Fat16Entry.isLive (file : Fat16Entry) : Bool :=
  file.filename.getD 0 0 ≠ 0xe5 ∧ file.attributes ≠ 0x0f ∧ file.attributes &&& 0x08 = 0

/-- The first entry of this kind ends the directory. -/
def Fat16Entry.endsDirectory (file : Fat16Entry) : Bool := file.filename.getD 0 0 = 0x00

theorem isFile_eq (file : Fat16Entry) : isFile file = (!file.endsDirectory && file.isLive) := by
  have hvfat : file.attributes = 0x0f → file.attributes &&& 0x08 ≠ 0 := by
    intro h
    rw [h]
    decide
  rw [Bool.eq_iff_iff, isFile, Fat16Entry.endsDirectory, Fat16Entry.isLive, decide_eq_true_iff,
    Bool.and_eq_true, Bool.not_eq_true', decide_eq_false_iff_not, decide_eq_true_iff]
  unfold getEntryType
  have hlabel : (fileAttrib file).volumeLabel = file.attributes &&& 0x08 := rfl
  rw [hlabel]
  generalize file.filename.getD 0 0 = first
  split_ifs with h1 h2 h3 h4
  · simp [h1]
  · simp [h2]
  · simp [h3.2.2.1]
  · simp [h4]
  · have hlabel0 := not_not.mp h4
    have hnoVfat : file.attributes ≠ 0x0f := fun h => hvfat h hlabel0
    simp [h1, h2, hnoVfat, hlabel0]

section Entries

variable (entries : List Fat16Entry)

/-- The files before the end of the directory. -/
def liveFiles : List Fat16Entry :=
  (entries.takeWhile fun file => !file.endsDirectory).filter Fat16Entry.isLive

def staleFiles : List Fat16Entry :=
  (entries.dropWhile fun file => !file.endsDirectory).filter isFile

theorem filter_isFile_eq : entries.filter isFile = liveFiles entries ++ staleFiles entries := by
  have hlive : (entries.takeWhile fun file => !file.endsDirectory).filter isFile =
      liveFiles entries := by
    apply List.filter_congr
    intro file hfile
    rw [isFile_eq, List.mem_takeWhile_imp hfile, Bool.true_and]
  rw [← hlive, staleFiles, ← List.filter_append, List.takeWhile_append_dropWhile]

end Entries

/-- A record with the members of a file, its name and its extension without padding. -/
structure Tells (b : List UInt8) (file : Fat16Entry) : Prop where
  record : FileRecord.ofBytes b =
    { file.record with name := blankTrimmed file.filename, ext := blankTrimmed file.ext }
  stamp : FileStamp.ofBytes b = file.stamp

/-- The blanks in a name and an extension are padding only. -/
def Fat16Entry.Padded (file : Fat16Entry) : Prop :=
  (32 : UInt8) ∉ blankTrimmed file.filename ∧ (32 : UInt8) ∉ blankTrimmed file.ext

instance (file : Fat16Entry) : Decidable file.Padded := by
  unfold Fat16Entry.Padded
  infer_instance

theorem Describes.tells_iff {b : List UInt8} {file : Fat16Entry} (h : Describes b file)
    (hname : (0 : UInt8) ∉ file.filename) (hext : (0 : UInt8) ∉ file.ext) :
    Tells b file ↔ file.Padded := by
  have hrecord : FileRecord.ofBytes b =
      { file.record with name := blankTrimmed file.filename, ext := blankTrimmed file.ext } ↔
      file.Padded := by
    rw [h.record, Fat16Entry.Padded, ← beforeBlank_eq_iff, ← beforeBlank_eq_iff, FileRecord.mk.injEq,
      ← shortText_eq hname, ← shortText_eq hext]
    simp [Fat16Entry.record]
  exact ⟨fun ht => hrecord.mp ht.record, fun hp => ⟨hrecord.mpr hp, h.stamp⟩⟩

/-- `list_root_files` ends and returns as many records as there are files before the end
of the directory, or room; they describe these files in their order, the rest of `buf`
is untouched, and descriptor 5 has not left the entries of the directory. -/
def ListsDirectory (env : Env) (entries : List Fat16Entry) (amb : Ambient) (io : Io)
    (bufSize : ℕ) (buf : List UInt8) : Prop :=
  ∃ filesRead buf' io', io.listRootFiles env amb bufSize buf = some (filesRead, buf', io') ∧
    filesRead = min (bufSize / 28) (liveFiles entries).length ∧
    (∀ j file, j < filesRead → (liveFiles entries)[j]? = some file →
      Tells (slice buf' (28 * j) 28) file) ∧
    buf'.length = buf.length ∧ buf'.drop (28 * filesRead) = buf.drop (28 * filesRead) ∧
    ∃ i ≤ env.bootSector.rootDirEntries, AtEntry env i io'

variable {env : Env} {amb : Ambient} {io : Io} {bufSize : ℕ} {buf : List UInt8}

theorem listRootFiles_lists (h : AtEntry env 0 io) (hnames : env.NamesWithoutNul)
    (hfuel : env.bootSector.rootDirEntries + 2 ≤ amb.fuel) (hbuf : bufSize ≤ buf.length) :
    ∃ buf' io', io.listRootFiles env amb bufSize buf =
        some (min (bufSize / 28) env.files.length, buf', io') ∧ buf'.length = buf.length ∧
      (∀ j file, j < bufSize / 28 → env.files[j]? = some file →
        Describes (slice buf' (28 * j) 28) file) ∧
      buf'.drop (28 * min (bufSize / 28) env.files.length) =
        buf.drop (28 * min (bufSize / 28) env.files.length) ∧
      ∃ i ≤ env.bootSector.rootDirEntries, AtEntry env i io' := by
  obtain ⟨buf', io', hloop, hlen, hrecords, hframe, hend⟩ :=
    @listLoop_lists env amb env.bootSector.rootDirEntries 0 0 (bufSize / 28) amb.fuel io buf h
      (by omega) (Nat.zero_add _) (by omega) (fun _ hj => hnames.rootEntry hj) (by omega)
  simp only [env.filesFrom_zero, Nat.zero_add] at hloop hrecords hframe
  refine ⟨buf', io', hloop, hlen, hrecords, ?_, hend⟩
  have htail := hframe _ buf.length (Or.inr (le_refl _))
  rw [slice, slice, List.take_of_length_le, List.take_of_length_le] at htail
  · exact htail
  · rw [List.length_drop]
    omega
  · rw [List.length_drop, hlen]
    omega

/-- The count is right when no stale file gets a record, and the records are right when the
blanks of the listed names are padding. -/
theorem listsDirectory_iff (h : AtEntry env 0 io) (hnames : env.NamesWithoutNul)
    (hfuel : env.bootSector.rootDirEntries + 2 ≤ amb.fuel) (hbuf : bufSize ≤ buf.length) :
    ListsDirectory env env.rootDir amb io bufSize buf ↔
      min (bufSize / 28) env.files.length = min (bufSize / 28) (liveFiles env.rootDir).length ∧
      ∀ file ∈ (liveFiles env.rootDir).take (bufSize / 28), file.Padded := by
  obtain ⟨buf', io', hlist, hlen, hrecords, htail, hend⟩ :=
    @listRootFiles_lists env amb io bufSize buf h hnames hfuel hbuf
  have hsplit : env.files = liveFiles env.rootDir ++ staleFiles env.rootDir :=
    filter_isFile_eq env.rootDir
  have htells : ∀ j file, j < bufSize / 28 → (liveFiles env.rootDir)[j]? = some file →
      (Tells (slice buf' (28 * j) 28) file ↔ file.Padded) := by
    intro j file hj hget
    have hin : env.files[j]? = some file := by
      rw [hsplit, List.getElem?_append_left (List.getElem?_eq_some_iff.mp hget).1, hget]
    obtain ⟨hname, hext⟩ := hnames file (List.mem_of_getElem? hin)
    exact (hrecords j file hj hin).tells_iff hname hext
  constructor
  · rintro ⟨filesRead, buf₁, io₁, hlist₁, hcount, hlisted, -⟩
    rw [hlist, Option.some.injEq, Prod.mk.injEq, Prod.mk.injEq] at hlist₁
    obtain ⟨hread, rfl, rfl⟩ := hlist₁
    refine ⟨hread.trans hcount, fun file hfile => ?_⟩
    obtain ⟨j, hj⟩ := List.mem_iff_getElem?.mp hfile
    rw [List.getElem?_take] at hj
    split_ifs at hj with hlt
    refine (htells j file hlt hj).mp (hlisted j file ?_ hj)
    rw [hcount]
    exact lt_min hlt (List.getElem?_eq_some_iff.mp hj).1
  · rintro ⟨hsame, hpadded⟩
    rw [hsame] at hlist htail
    refine ⟨_, buf', io', hlist, rfl, ?_, hlen, htail, hend⟩
    intro j file hj hget
    have hlt : j < bufSize / 28 := lt_of_lt_of_le hj (min_le_left _ _)
    refine (htells j file hlt hget).mpr (hpadded file (List.mem_of_getElem? (i := j) ?_))
    rw [List.getElem?_take, if_pos hlt, hget]

def rewound : Io := (Sys.booted.kernel.io.openFd (ascii "/") 0).2.lseek 5 0 0

theorem rewound_atEntry : AtEntry (.ofVolume floppy) 0 rewound := by
  have hreach : Sys.Reachable (.ofVolume floppy) Sys.booted := ⟨_, [], Sys.boot_booted, .nil _⟩
  exact AtEntry.lseek ((Rooted.of_reachable hreach).openFd _ 0)

theorem delivers_floppyRoot :
    (Env.ofVolume floppy).DeliversDir (floppy.bytes.drop floppy.rootStart) :=
  Env.deliversDir_ofVolume (by decide +kernel) (by decide +kernel)

/-- An empty directory, with what is left of an old file behind its end. -/
def endedDirectory : Volume where
  bytes := floppyBytes 1 [0xF0, 0xFF, 0xFF, 0xFF, 0x0F]
    (List.replicate 32 0 ++ dirEntry (ascii "OLD") 2) (List.replicate 512 0x90)
  length_lt := by decide +kernel
  sectorSize_eq := by decide +kernel

end RML
