import RML.Proofs.Directory
import RML.Proofs.Processes
import RML.Proofs.Strings
import Mathlib.Data.List.Basic
import Mathlib.Data.List.DropRight

/-! The two scans of the root directory. `load` reads all entries and searches them;
system call 9 goes through descriptor 5 and writes a record for each file it meets.
Both see the same files under the same names. -/

namespace RML

open Bytes

/-- The members of a `SYSCALL_FILE_ENTRY` that identify a file. -/
structure FileRecord where
  name : List UInt8
  ext : List UInt8
  dir : List UInt8
  readOnly : List UInt8
  size : ℕ

def FileRecord.ofBytes (b : List UInt8) : FileRecord where
  name := cstr (slice b 0 9)
  ext := cstr (slice b 9 4)
  dir := slice b 13 1
  readOnly := slice b 14 1
  size := ofLE (slice b 16 4)

def records (buf : List UInt8) (filesRead : ℕ) : List FileRecord :=
  (List.range filesRead).map fun k => .ofBytes (slice buf (28 * k) 28)

/-- What `extract_file_name` makes of a name or an extension: it ends in front of the first
blank. -/
def shortText (field : List UInt8) : List UInt8 := cstr (trimBlanks field)

/-- A name or an extension without the blanks behind it. -/
def blankTrimmed (field : List UInt8) : List UInt8 := field.rdropWhile fun c => c = 32

def beforeBlank (field : List UInt8) : List UInt8 := field.takeWhile fun c => c ≠ 32

theorem shortText_eq {field : List UInt8} (h : (0 : UInt8) ∉ field) :
    shortText field = beforeBlank field := by
  induction field with
  | nil => rfl
  | cons c field ih =>
    rw [List.mem_cons, not_or] at h
    have hrest : cstr (trimBlanks field) = field.takeWhile fun c => c ≠ 32 := ih h.2
    rw [shortText, beforeBlank, trimBlanks, List.map_cons, cstr_cons, List.takeWhile_cons]
    by_cases hblank : c = 32
    · simp [hblank]
    · rw [if_neg hblank, if_neg (Ne.symm h.1), if_pos (decide_eq_true hblank), ← hrest]
      rfl

/-- The two agree where blanks are padding only. -/
theorem beforeBlank_eq_iff (field : List UInt8) :
    beforeBlank field = blankTrimmed field ↔ (32 : UInt8) ∉ blankTrimmed field := by
  constructor
  · intro heq hmem
    rw [← heq, beforeBlank] at hmem
    have hkept := List.mem_takeWhile_imp hmem
    simp at hkept
  · intro hno
    have hsplit : blankTrimmed field ++ field.rtakeWhile (fun c => c = 32) = field :=
      List.rdropWhile_append_rtakeWhile ..
    have hblanks : (field.rtakeWhile fun c => c = 32).takeWhile (fun c => c ≠ 32) = [] := by
      rw [List.takeWhile_eq_nil_iff]
      intro hpos hfirst
      have hmem := List.getElem_mem hpos
      have hblank := List.mem_rtakeWhile_imp hmem
      rw [decide_eq_true_iff] at hblank hfirst
      exact hfirst hblank
    rw [beforeBlank]
    nth_rewrite 1 [← hsplit]
    rw [List.takeWhile_append_of_pos, hblanks, List.append_nil]
    intro c hc
    exact decide_eq_true fun hblank => hno (hblank ▸ hc)

def Fat16Entry.record (file : Fat16Entry) : FileRecord where
  name := shortText file.filename
  ext := shortText file.ext
  dir := [if (fileAttrib file).subdirectory ≠ 0 then 1 else 0]
  readOnly := [if (fileAttrib file).readOnly ≠ 0 then 1 else 0]
  size := file.fileSize

/-- The members of a `SYSCALL_FILE_ENTRY` that date a file. -/
structure FileStamp where
  day : ℕ
  month : ℕ
  year : ℕ
  hours : ℕ
  minutes : ℕ
  seconds : ℕ

def FileStamp.ofBytes (b : List UInt8) : FileStamp where
  day := ofLE (slice b 20 1)
  month := ofLE (slice b 21 1)
  year := ofLE (slice b 22 2)
  hours := ofLE (slice b 26 1)
  minutes := ofLE (slice b 25 1)
  seconds := ofLE (slice b 24 1)

/-- The date is packed by days, months and years since 1980, the time by pairs of
seconds, minutes and hours. -/
def Fat16Entry.stamp (file : Fat16Entry) : FileStamp where
  day := file.modifyDate % 32
  month := file.modifyDate / 32 % 16
  year := 1980 + file.modifyDate / 512
  hours := file.modifyTime / 2048
  minutes := file.modifyTime / 32 % 64
  seconds := file.modifyTime % 32 * 2

structure Describes (b : List UInt8) (file : Fat16Entry) : Prop where
  record : FileRecord.ofBytes b = file.record
  stamp : FileStamp.ofBytes b = file.stamp

/-- The text fields have their sizes and no NUL, and the size is a word. -/
structure Fat16Entry.Named (file : Fat16Entry) : Prop where
  filename : file.filename.length = 8
  ext : file.ext.length = 3
  filename_ne : (0 : UInt8) ∉ file.filename
  ext_ne : (0 : UInt8) ∉ file.ext
  fileSize : file.fileSize < 256 ^ 4

/-- The date and the time are half words. -/
structure Fat16Entry.Stamped (file : Fat16Entry) : Prop where
  modifyDate : file.modifyDate < 256 ^ 2
  modifyTime : file.modifyTime < 256 ^ 2

theorem extractFileName_eq {file : Fat16Entry} (h : file.Named) :
    extractFileName file = some (shortText file.filename, shortText file.ext) := by
  have hno : ¬ ((0 : UInt8) ∈ file.filename.take 7 ∨ (0 : UInt8) ∈ file.ext.take 2) := by
    rintro (hmem | hmem)
    · exact h.filename_ne (List.mem_of_mem_take hmem)
    · exact h.ext_ne (List.mem_of_mem_take hmem)
  rw [extractFileName_eq_ite h.filename h.ext, if_neg hno]
  rfl

theorem length_shortText_le (field : List UInt8) : (shortText field).length ≤ field.length := by
  have hlen := length_cstr_le (trimBlanks field)
  rwa [trimBlanks, List.length_map] at hlen

def isFile (file : Fat16Entry) : Bool := getEntryType file = .TYPE_FILE

theorem getFile_eq {files : List Fat16Entry} (h : ∀ file ∈ files, isFile file → file.Named)
    (name : List UInt8) :
    getFile files name =
      some ((files.filter isFile).find? fun file => shortText file.filename = name) := by
  induction files with
  | nil => rfl
  | cons file files ih =>
    have hrest := ih fun f hf => h f (List.mem_cons_of_mem file hf)
    rw [getFile]
    by_cases hfile : getEntryType file = .TYPE_FILE
    · have hmark : isFile file = true := decide_eq_true hfile
      have hnamed := h file List.mem_cons_self hmark
      rw [if_pos hfile, extractFileName_eq hnamed, List.filter_cons_of_pos hmark]
      simp only [Option.bind_eq_bind, Option.bind_some, strcmp_eq_zero_iff]
      by_cases hname : shortText file.filename = name
      · rw [if_pos hname, List.find?_cons_of_pos (by simpa using hname)]
      · rw [if_neg hname, List.find?_cons_of_neg (by simpa using hname), hrest]
    · rw [if_neg hfile, List.filter_cons_of_neg (by simpa [isFile] using hfile), hrest]

def recordStores (filesRead : ℕ) (file : Fat16Entry) (name ext : List UInt8) :
    List (ℕ × List UInt8) :=
  let base := 28 * filesRead
  [(base + 13, [if (fileAttrib file).subdirectory ≠ 0 then 1 else 0]),
    (base + 14, [if (fileAttrib file).readOnly ≠ 0 then 1 else 0]),
    (base + 16, toLE 4 file.fileSize),
    (base + 20, [UInt8.ofNat (file.modifyDate &&& 0x001F)]),
    (base + 21, [UInt8.ofNat ((file.modifyDate &&& 0x01E0) >>> 5)]),
    (base + 22, toLE 2 (((file.modifyDate &&& 0xFE00) >>> 9) + 1980)),
    (base + 26, [UInt8.ofNat ((file.modifyTime &&& 0xF800) >>> 11)]),
    (base + 25, [UInt8.ofNat ((file.modifyTime &&& 0x07E0) >>> 5)]),
    (base + 24, [UInt8.ofNat ((file.modifyTime &&& 0x001F) * 2)]),
    (base, name ++ [0]), (base + 9, ext ++ [0])]

theorem putFileEntry_eq (buf : List UInt8) (filesRead : ℕ) (file : Fat16Entry)
    (name ext : List UInt8) :
    putFileEntry buf filesRead file name ext = storeAll (recordStores filesRead file name ext) buf := by
  simp only [putFileEntry, recordStores, storeAll, Option.bind_eq_bind, Option.bind_fun_some]

theorem recordStores_within {filesRead : ℕ} {file : Fat16Entry} {name ext : List UInt8}
    (hname : name.length ≤ 8) (hext : ext.length ≤ 3) :
    ∀ w ∈ recordStores filesRead file name ext,
      28 * filesRead ≤ w.1 ∧ w.1 + w.2.length ≤ 28 * filesRead + 28 := by
  simp only [recordStores, List.forall_mem_cons, List.length_cons, List.length_nil, length_toLE,
    List.length_append, List.not_mem_nil, false_implies, implies_true, and_true]
  omega

theorem recordStores_disjoint {filesRead : ℕ} {file : Fat16Entry} {name ext : List UInt8}
    (hname : name.length ≤ 8) (hext : ext.length ≤ 3) :
    (recordStores filesRead file name ext).Pairwise fun w v =>
      w.1 + w.2.length ≤ v.1 ∨ v.1 + v.2.length ≤ w.1 := by
  simp only [recordStores, List.pairwise_cons, List.forall_mem_cons, List.length_cons,
    List.length_nil, length_toLE, List.length_append, List.not_mem_nil, false_implies,
    implies_true, and_true, List.Pairwise.nil]
  omega

/-- A field of `w` bits under its mask. -/
theorem and_shiftRight {n mask k w : ℕ} (h : mask >>> k = 2 ^ w - 1) :
    (n &&& mask) >>> k = n / 2 ^ k % 2 ^ w := by
  rw [Nat.shiftRight_and_distrib, h, Nat.and_two_pow_sub_one_eq_mod, Nat.shiftRight_eq_div_pow]

theorem ofLE_singleton {n : ℕ} (h : n < 256) : ofLE [UInt8.ofNat n] = n := by
  have htoNat : (UInt8.ofNat n).toNat = n := UInt8.toNat_ofNat_of_lt' h
  rw [ofLE, ofLE, htoNat]
  rfl

/-- A record is written as a whole, and nothing else. -/
theorem putFileEntry_describes {buf : List UInt8} {k : ℕ} {file : Fat16Entry} (hnamed : file.Named)
    (hstamped : file.Stamped) (hroom : 28 * k + 28 ≤ buf.length) :
    ∃ buf', putFileEntry buf k file (shortText file.filename) (shortText file.ext) = some buf' ∧
      buf'.length = buf.length ∧ Describes (slice buf' (28 * k) 28) file ∧
      ∀ p n, p + n ≤ 28 * k ∨ 28 * k + 28 ≤ p → slice buf' p n = slice buf p n := by
  have hname : (shortText file.filename).length ≤ 8 :=
    (length_shortText_le _).trans_eq hnamed.filename
  have hext : (shortText file.ext).length ≤ 3 := (length_shortText_le _).trans_eq hnamed.ext
  have hwithin := @recordStores_within k file _ _ hname hext
  have hdate : file.modifyDate < 65536 := hstamped.modifyDate
  have htime : file.modifyTime < 65536 := hstamped.modifyTime
  obtain ⟨buf', hstores, hlen⟩ := storeAll_eq_some fun w hw =>
    (hwithin w hw).2.trans hroom
  have hwritten := slice_storeAll_written hstores (recordStores_disjoint hname hext)
  simp only [recordStores, List.forall_mem_cons, List.length_cons, List.length_nil, length_toLE,
    List.length_append, Nat.zero_add] at hwritten
  obtain ⟨hdir, hreadOnly, hsize, hday, hmonth, hyear, hhours, hminutes, hseconds, hname', hext', -⟩ :=
    hwritten
  refine ⟨buf', (putFileEntry_eq _ _ _ _ _).trans hstores, hlen, ⟨?_, ?_⟩, ?_⟩
  · simp only [FileRecord.ofBytes, Fat16Entry.record, FileRecord.mk.injEq]
    refine ⟨?_, ?_, ?_, ?_, ?_⟩
    · rw [slice_slice (by decide)]
      exact cstr_slice hname' (zero_not_mem_cstr _) (by omega)
    · rw [slice_slice (by decide)]
      exact cstr_slice hext' (zero_not_mem_cstr _) (by omega)
    · rw [slice_slice (by decide), hdir]
    · rw [slice_slice (by decide), hreadOnly]
    · rw [slice_slice (by decide), hsize, ofLE_toLE_of_lt hnamed.fileSize]
  · have hlow : ∀ n, n &&& 0x001F = n % 32 := fun n => Nat.and_two_pow_sub_one_eq_mod n 5
    simp only [FileStamp.ofBytes, Fat16Entry.stamp, FileStamp.mk.injEq]
    refine ⟨?_, ?_, ?_, ?_, ?_, ?_⟩
    · rw [slice_slice (by decide), hday, hlow, ofLE_singleton (by omega)]
    · rw [slice_slice (by decide), hmonth, and_shiftRight (w := 4) rfl, ofLE_singleton (by omega)]
      rfl
    · rw [slice_slice (by decide), hyear, and_shiftRight (w := 7) rfl, ofLE_toLE_of_lt (by omega)]
      omega
    · rw [slice_slice (by decide), hhours, and_shiftRight (w := 5) rfl, ofLE_singleton (by omega)]
      omega
    · rw [slice_slice (by decide), hminutes, and_shiftRight (w := 6) rfl, ofLE_singleton (by omega)]
      rfl
    · rw [slice_slice (by decide), hseconds, hlow, ofLE_singleton (by omega)]
  · intro p n hp
    refine slice_storeAll_disjoint hstores ?_
    intro w hw
    obtain ⟨hlow, hhigh⟩ := hwithin w hw
    omega

theorem first_of_isFile {file : Fat16Entry} (h : getEntryType file = .TYPE_FILE) :
    file.filename.getD 0 0 ≠ 0xe5 ∧ file.filename.getD 0 0 ≠ 0x00 := by
  unfold getEntryType at h
  split_ifs at h with h1 h2
  exact ⟨h1, h2⟩

def Env.filesFrom (env : Env) (i n : ℕ) : List Fat16Entry :=
  ((List.range' i n).map env.rootEntry).filter isFile

theorem Env.filesFrom_succ (env : Env) (i n : ℕ) : env.filesFrom i (n + 1) =
    if isFile (env.rootEntry i) then env.rootEntry i :: env.filesFrom (i + 1) n
    else env.filesFrom (i + 1) n := by
  rw [filesFrom, List.range'_succ, List.map_cons, List.filter_cons]
  rfl

/-! One round of the loop of `list_root_files`. -/

section Rounds

variable {env : Env} {amb : Ambient} {io io' : Io} {fuel room k : ℕ} {buf buf' : List UInt8}
  {file : Fat16Entry}

theorem listLoop_full (fuel : ℕ) (io : Io) (buf : List UInt8) (k : ℕ) :
    Io.listLoop env amb (fuel + 1) io buf k 0 = some (k, buf, io) := by
  rw [Io.listLoop, if_pos rfl]

theorem listLoop_end (hnext : io.getRootNextFile env amb = some (none, io')) (hroom : room ≠ 0) :
    Io.listLoop env amb (fuel + 1) io buf k room = some (k, buf, io') := by
  rw [Io.listLoop, if_neg hroom, hnext]
  rfl

theorem listLoop_skip (hnext : io.getRootNextFile env amb = some (some file, io'))
    (hroom : room ≠ 0) (hfile : getEntryType file ≠ .TYPE_FILE) :
    Io.listLoop env amb (fuel + 1) io buf k room = Io.listLoop env amb fuel io' buf k room := by
  simp only [Io.listLoop, if_neg hroom, hnext, Option.bind_eq_bind, Option.bind_some, if_pos hfile]

theorem listLoop_file (hnext : io.getRootNextFile env amb = some (some file, io'))
    (hroom : room ≠ 0) (hfile : getEntryType file = .TYPE_FILE) (hnamed : file.Named)
    (hput : putFileEntry buf k file (shortText file.filename) (shortText file.ext) = some buf') :
    Io.listLoop env amb (fuel + 1) io buf k room =
      Io.listLoop env amb fuel io' buf' (k + 1) (room - 1) := by
  obtain ⟨hdeleted, hend⟩ := first_of_isFile hfile
  simp only [Io.listLoop, if_neg hroom, hnext, Option.bind_eq_bind, Option.bind_some, hfile, ne_eq,
    not_true_eq_false, if_false, if_neg hdeleted, if_neg hend, extractFileName_eq hnamed, hput]

end Rounds

/-- The loop of `list_root_files` from entry `i` on writes a record for each file that is
left, as long as there is room, and touches no other byte of its buffer. -/
theorem listLoop_lists {env : Env} {amb : Ambient} {n i k room fuel : ℕ} {io : Io}
    {buf : List UInt8} (h : AtEntry env i io) (hfuel : 2 ≤ amb.fuel)
    (hn : i + n = env.bootSector.rootDirEntries) (hrounds : n + 1 ≤ fuel)
    (hnamed : ∀ j < env.bootSector.rootDirEntries, isFile (env.rootEntry j) →
      (env.rootEntry j).Named ∧ (env.rootEntry j).Stamped)
    (hbuf : 28 * (k + min room (env.filesFrom i n).length) ≤ buf.length) :
    ∃ buf' io', Io.listLoop env amb fuel io buf k room =
        some (k + min room (env.filesFrom i n).length, buf', io') ∧ buf'.length = buf.length ∧
      (∀ j file, j < room → (env.filesFrom i n)[j]? = some file →
        Describes (slice buf' (28 * (k + j)) 28) file) ∧
      (∀ p m, p + m ≤ 28 * k ∨ 28 * (k + min room (env.filesFrom i n).length) ≤ p →
        slice buf' p m = slice buf p m) ∧
      ∃ i' ≤ env.bootSector.rootDirEntries, AtEntry env i' io' := by
  induction n generalizing i k room fuel io buf with
  | zero =>
    obtain ⟨fuel, rfl⟩ : ∃ m, fuel = m + 1 := ⟨fuel - 1, by omega⟩
    obtain ⟨io', hnext, hat⟩ := h.getRootNextFile amb hfuel (by omega)
    rw [if_neg (by omega)] at hnext hat
    have hnone : env.filesFrom i 0 = [] := rfl
    rw [hnone, List.length_nil, Nat.min_zero]
    by_cases hfull : room = 0
    · subst hfull
      exact ⟨buf, io, listLoop_full fuel io buf k, rfl, by simp, by simp, i, by omega, h⟩
    · exact ⟨buf, io', listLoop_end hnext hfull, rfl, by simp, by simp, i, by omega, hat⟩
  | succ n ih =>
    obtain ⟨fuel, rfl⟩ : ∃ m, fuel = m + 1 := ⟨fuel - 1, by omega⟩
    obtain ⟨io₁, hnext, hat⟩ := h.getRootNextFile amb hfuel (by omega)
    have hmore : i < env.bootSector.rootDirEntries := by omega
    rw [if_pos hmore] at hnext hat
    by_cases hfull : room = 0
    · subst hfull
      rw [Nat.zero_min]
      exact ⟨buf, io, listLoop_full fuel io buf k, rfl, by simp, by simp, i, by omega, h⟩
    · rw [env.filesFrom_succ] at hbuf ⊢
      by_cases hfile : getEntryType (env.rootEntry i) = .TYPE_FILE
      · have hmark : isFile (env.rootEntry i) = true := decide_eq_true hfile
        obtain ⟨hentry, hstamped⟩ := hnamed i hmore hmark
        have hcount : k + min room ((env.filesFrom (i + 1) n).length + 1) =
            k + 1 + min (room - 1) (env.filesFrom (i + 1) n).length := by omega
        rw [if_pos hmark, List.length_cons, hcount] at hbuf
        obtain ⟨buf₁, hput, hlen, hdescribes, hothers⟩ :=
          putFileEntry_describes hentry hstamped (show 28 * k + 28 ≤ buf.length by omega)
        obtain ⟨buf', io', hloop, hlen', hrest, hframe, hend⟩ :=
          @ih (i + 1) (k + 1) (room - 1) fuel io₁ buf₁ hat (by omega) (by omega) (by rw [hlen]; omega)
        rw [if_pos hmark, List.length_cons, hcount, listLoop_file hnext hfull hfile hentry hput]
        refine ⟨buf', io', hloop, hlen'.trans hlen, ?_, ?_, hend⟩
        · intro j file hj hget
          cases j with
          | zero =>
            rw [List.getElem?_cons_zero, Option.some.injEq] at hget
            subst hget
            rw [Nat.add_zero, hframe (28 * k) 28 (Or.inl (by omega))]
            exact hdescribes
          | succ j =>
            have hplace : k + (j + 1) = k + 1 + j := by omega
            rw [hplace]
            exact hrest j file (by omega) hget
        · intro p m hp
          rw [hframe p m (by omega), hothers p m (by omega)]
      · have hmark : ¬ isFile (env.rootEntry i) = true := by simpa [isFile] using hfile
        rw [if_neg hmark] at hbuf ⊢
        rw [listLoop_skip hnext hfull hfile]
        exact ih hat (by omega) (by omega) hbuf

theorem records_eq_map {buf : List UInt8} {files : List Fat16Entry}
    (h : ∀ j file, files[j]? = some file → Describes (slice buf (28 * j) 28) file) :
    records buf files.length = files.map Fat16Entry.record := by
  apply List.ext_getElem?
  intro j
  rw [records, List.getElem?_map, List.getElem?_map]
  by_cases hj : j < files.length
  · have hget := List.getElem?_eq_getElem hj
    rw [List.getElem?_range hj, hget, Option.map_some, Option.map_some, (h j _ hget).record]
  · rw [List.getElem?_eq_none (not_lt.mp hj), List.getElem?_eq_none (by rw [List.length_range]; omega)]
    rfl

/-- What system call 9 does before it counts the records: `open`, `lseek` and
`list_root_files`. -/
def Io.listing (env : Env) (amb : Ambient) (io : Io) (bufSize : ℕ) (buf : List UInt8) :
    Option (ℕ × List UInt8 × Io) :=
  (((io.openFd (ascii "/") 0).2).lseek 5 0 0).listRootFiles env amb bufSize buf

namespace Env

variable (env : Env)

/-- The entries that hold a file, in their order. -/
def files : List Fat16Entry := env.rootDir.filter isFile

theorem filesFrom_zero : env.filesFrom 0 env.bootSector.rootDirEntries = env.files := by
  rw [filesFrom, files, rootDir, List.range_eq_range']

/-- No file has a NUL in its name or extension. -/
def NamesWithoutNul : Prop :=
  ∀ file ∈ env.files, (0 : UInt8) ∉ file.filename ∧ (0 : UInt8) ∉ file.ext

theorem rootEntry_named {j : ℕ} (h : (0 : UInt8) ∉ (env.rootEntry j).filename ∧
    (0 : UInt8) ∉ (env.rootEntry j).ext) : (env.rootEntry j).Named := by
  let bytes := env.dev 4 (wrap (env.bootSector.positions.rootDirectoryStart + 32 * j)) 32
  have hbytes : bytes.length = 32 := env.length_dev 4 _ 32 (by decide)
  refine ⟨?_, ?_, h.1, h.2, ?_⟩
  · exact length_slice (by rw [hbytes]; decide)
  · exact length_slice (by rw [hbytes]; decide)
  · have hlt := ofLE_lt (slice bytes 28 4)
    have hlen : (slice bytes 28 4).length = 4 := length_slice (by rw [hbytes])
    rwa [hlen] at hlt

theorem rootEntry_stamped (j : ℕ) : (env.rootEntry j).Stamped := by
  let bytes := env.dev 4 (wrap (env.bootSector.positions.rootDirectoryStart + 32 * j)) 32
  have hbytes : bytes.length = 32 := env.length_dev 4 _ 32 (by decide)
  have hword : ∀ off, off + 2 ≤ 32 → ofLE (slice bytes off 2) < 256 ^ 2 := by
    intro off hoff
    have hlt := ofLE_lt (slice bytes off 2)
    have hlen : (slice bytes off 2).length = 2 := length_slice (by rw [hbytes]; exact hoff)
    rwa [hlen] at hlt
  exact ⟨hword 24 (by decide), hword 22 (by decide)⟩

theorem NamesWithoutNul.rootEntry {env : Env} (h : env.NamesWithoutNul) {j : ℕ}
    (hj : j < env.bootSector.rootDirEntries) (hmark : isFile (env.rootEntry j)) :
    (env.rootEntry j).Named ∧ (env.rootEntry j).Stamped := by
  have hmem : env.rootEntry j ∈ env.rootDir := List.mem_map_of_mem (List.mem_range.mpr hj)
  exact ⟨env.rootEntry_named (h _ (List.mem_filter.mpr ⟨hmem, hmark⟩)), env.rootEntry_stamped j⟩

end Env

theorem floppy_names : (Env.ofVolume floppy).NamesWithoutNul := by
  unfold Env.NamesWithoutNul
  decide +kernel

namespace Sys

variable {env : Env} {amb : Ambient} {m : Sys}

theorem lookup_first (h : Reachable env m) (hentries : env.bootSector.rootDirEntries ≤ 256)
    (hnames : env.NamesWithoutNul) (hfuel : 2 ≤ amb.fuel) (name : List UInt8) :
    ∃ io, Kernel.lookup env amb m.kernel.io name =
      some (env.files.find? fun file => shortText file.filename = name, io) := by
  have hrooted := Rooted.of_reachable h
  obtain ⟨io, hfiles⟩ := hrooted.getRootFiles amb hfuel
  have hnamed : ∀ file ∈ env.rootDir, isFile file → file.Named := by
    intro file hfile hmark
    have hnul := hnames file (List.mem_filter.mpr ⟨hfile, hmark⟩)
    obtain ⟨j, -, rfl⟩ := List.mem_map.mp hfile
    exact env.rootEntry_named hnul
  refine ⟨io, ?_⟩
  rw [Kernel.lookup, hrooted.bs, if_neg (Nat.not_lt.mpr hentries)]
  simp only [hfiles, Option.bind_eq_bind, Option.bind_some, getFile_eq hnamed]
  rfl

theorem listing_records (h : Reachable env m) (hnames : env.NamesWithoutNul)
    (hfuel : env.bootSector.rootDirEntries + 2 ≤ amb.fuel) {bufSize : ℕ} {buf : List UInt8}
    (hroom : env.files.length ≤ bufSize / 28) (hbuf : bufSize ≤ buf.length) :
    ∃ filesRead buf' io, m.kernel.io.listing env amb bufSize buf = some (filesRead, buf', io) ∧
      records buf' filesRead = env.files.map Fat16Entry.record := by
  have hstart := AtEntry.lseek ((Rooted.of_reachable h).openFd (ascii "/") 0)
  obtain ⟨buf', io, hloop, -, hrecords, -⟩ :=
    @listLoop_lists env amb env.bootSector.rootDirEntries 0 0 (bufSize / 28) amb.fuel _ buf hstart
      (by omega) (Nat.zero_add _) (by omega) (fun _ hj => hnames.rootEntry hj) (by omega)
  rw [env.filesFrom_zero, Nat.zero_add, min_eq_right hroom] at hloop
  rw [env.filesFrom_zero] at hrecords
  refine ⟨_, buf', io, hloop, records_eq_map ?_⟩
  intro j file hget
  have hj := (List.getElem?_eq_some_iff.mp hget).1
  have hdescribes := hrecords j file (lt_of_lt_of_le hj hroom) hget
  rwa [Nat.zero_add] at hdescribes

end Sys

end RML
