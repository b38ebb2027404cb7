import RML.Proofs.EndMarker

/-! `get_file` looks for the first entry of a name among all that are files to
`get_entry_type`, subdirectories among them, and takes a name to end in front of its first
blank. The name that it finds is at most the eight characters of a directory entry, which is
all that `register_proc` relies on. -/

namespace RML

open Bytes Transition

/-- A regular file: it is there, and it is no VFAT entry, volume label or subdirectory. -/
def Fat16Entry.isRegular (file : Fat16Entry) : Bool :=
  !file.endsDirectory && file.isLive && file.attributes &&& 0x10 = 0

theorem isRegular_eq (file : Fat16Entry) :
    file.isRegular = (isFile file && file.attributes &&& 0x10 = 0) := by
  rw [isFile_eq, Fat16Entry.isRegular]

/-- `get_file` with its third argument: the return code, and what `*file` holds then. -/
def getFileInto (fileList : List Fat16Entry) (name : List UInt8) (file : Fat16Entry) :
    Option (ℤ × Fat16Entry) := do
  match ← getFile fileList name with
  | some entry => some (0, entry)
  | none => some (-1, file)

def firstRegular (fileList : List Fat16Entry) (name : List UInt8) : Option Fat16Entry :=
  fileList.find? fun file => file.isRegular ∧ blankTrimmed file.filename = name

/-- `get_file` returns 0 with the first regular file of that name in `*file`, and -1 with
`*file` as it was when there is none. -/
def FindsRegular (fileList : List Fat16Entry) (name : List UInt8) : Prop :=
  ∀ file, getFileInto fileList name file = match firstRegular fileList name with
    | some entry => some (0, entry)
    | none => some (-1, file)

/-- An entry that the search can pass or stop at: its extension has no NUL that keeps
`strncpy` from ending; if its name is the one looked for up to a blank, it is no subdirectory
and the name has only padding behind; and so has the whole name of a regular file. -/
def Passable (name : List UInt8) (file : Fat16Entry) : Prop :=
  isFile file → (0 : UInt8) ∉ file.ext.take 2 ∧
    (beforeBlank file.filename = name →
      file.attributes &&& 0x10 = 0 ∧ (32 : UInt8) ∉ blankTrimmed file.filename) ∧
    (file.isRegular → blankTrimmed file.filename = name →
      (32 : UInt8) ∉ blankTrimmed file.filename)

def Searchable (fileList : List Fat16Entry) (name : List UInt8) : Prop :=
  ∀ before file after, fileList = before ++ file :: after →
    (∀ entry ∈ before, ¬ (entry.isRegular ∧ blankTrimmed entry.filename = name)) →
    Passable name file

theorem searchable_nil (name : List UInt8) : Searchable [] name := by
  intro before file after h
  exact absurd h.symm (List.append_ne_nil_of_right_ne_nil _ (List.cons_ne_nil _ _))

theorem searchable_cons (file : Fat16Entry) (fileList : List Fat16Entry) (name : List UInt8) :
    Searchable (file :: fileList) name ↔ Passable name file ∧
      (¬ (file.isRegular ∧ blankTrimmed file.filename = name) → Searchable fileList name) := by
  constructor
  · intro h
    refine ⟨h [] file fileList rfl (by simp), fun hno before entry after heq hbefore => ?_⟩
    refine h (file :: before) entry after (by rw [heq, List.cons_append]) ?_
    rw [List.forall_mem_cons]
    exact ⟨hno, hbefore⟩
  · rintro ⟨hfirst, hrest⟩ before entry after heq hbefore
    cases before with
    | nil =>
      obtain ⟨rfl, -⟩ := List.cons.inj heq
      exact hfirst
    | cons first before =>
      rw [List.cons_append] at heq
      obtain ⟨rfl, htail⟩ := List.cons.inj heq
      rw [List.forall_mem_cons] at hbefore
      exact hrest hbefore.1 before entry after htail hbefore.2

theorem extractFileName_fst {file : Fat16Entry} {name ext : List UInt8}
    (hlen : file.filename.length = 8) (hext : file.ext.length = 3)
    (h : extractFileName file = some (name, ext)) : name = shortText file.filename := by
  rw [extractFileName_eq_ite hlen hext] at h
  split_ifs at h
  exact (Prod.mk.inj (Option.some.inj h)).1.symm

structure Fat16Entry.Searched (file : Fat16Entry) : Prop where
  filename : file.filename.length = 8
  ext : file.ext.length = 3
  filename_ne : isFile file → (0 : UInt8) ∉ file.filename

theorem getFile_cons {file : Fat16Entry} (h : file.Searched) (fileList : List Fat16Entry)
    (name : List UInt8) : getFile (file :: fileList) name =
      if isFile file then
        if (0 : UInt8) ∈ file.ext.take 2 then none
        else if beforeBlank file.filename = name then some (some file) else getFile fileList name
      else getFile fileList name := by
  rw [getFile]
  by_cases hfile : getEntryType file = .TYPE_FILE
  · have hmark : isFile file = true := decide_eq_true hfile
    have hname : (0 : UInt8) ∉ file.filename.take 7 := fun hmem =>
      h.filename_ne hmark (List.mem_of_mem_take hmem)
    rw [if_pos hfile, if_pos hmark, extractFileName_eq_ite h.filename h.ext]
    simp only [or_iff_right hname]
    by_cases hends : (0 : UInt8) ∈ file.ext.take 2
    · rw [if_pos hends, if_pos hends]
      rfl
    · rw [if_neg hends, if_neg hends, ← shortText_eq (h.filename_ne hmark)]
      simp only [Option.bind_eq_bind, Option.bind_some, strcmp_eq_zero_iff]
      rfl
  · have hmark : ¬ isFile file = true := by simpa [isFile] using hfile
    rw [if_neg hfile, if_neg hmark]

theorem firstRegular_cons (file : Fat16Entry) (fileList : List Fat16Entry) (name : List UInt8) :
    firstRegular (file :: fileList) name =
      if file.isRegular ∧ blankTrimmed file.filename = name then some file
      else firstRegular fileList name := by
  rw [firstRegular, List.find?_cons]
  by_cases h : file.isRegular ∧ blankTrimmed file.filename = name
  · rw [decide_eq_true h, if_pos h]
  · rw [decide_eq_false h, if_neg h]
    rfl

theorem of_firstRegular {fileList : List Fat16Entry} {name : List UInt8} {file : Fat16Entry}
    (h : firstRegular fileList name = some file) :
    file.isRegular = true ∧ blankTrimmed file.filename = name := by
  have hfound := List.find?_some h
  rwa [decide_eq_true_iff] at hfound

theorem beforeBlank_of_getFile {fileList : List Fat16Entry} {name : List UInt8} {file : Fat16Entry}
    (hfile : file.Searched) (hmark : isFile file) (h : getFile fileList name = some (some file)) :
    beforeBlank file.filename = name := by
  obtain ⟨-, ext, hextract⟩ := getFile_found h
  rw [extractFileName_fst hfile.filename hfile.ext hextract, shortText_eq (hfile.filename_ne hmark)]

/-- A file whose extension does not keep `strncpy` from ending: the search and its purpose
part at it, or go on behind it together. -/
theorem getFile_eq_cons_iff {file : Fat16Entry} {fileList : List Fat16Entry} {name : List UInt8}
    (hfile : file.Searched) (hmark : isFile file)
    (ih : getFile fileList name = some (firstRegular fileList name) ↔ Searchable fileList name) :
    (if beforeBlank file.filename = name then some (some file) else getFile fileList name) =
        some (if file.isRegular ∧ blankTrimmed file.filename = name then some file
          else firstRegular fileList name) ↔
      ((beforeBlank file.filename = name →
          file.attributes &&& 0x10 = 0 ∧ (32 : UInt8) ∉ blankTrimmed file.filename) ∧
        (file.isRegular → blankTrimmed file.filename = name →
          (32 : UInt8) ∉ blankTrimmed file.filename)) ∧
      (¬ (file.isRegular ∧ blankTrimmed file.filename = name) → Searchable fileList name) := by
  have hregular : file.isRegular = true ↔ file.attributes &&& 0x10 = 0 := by
    rw [isRegular_eq, hmark, Bool.true_and, decide_eq_true_iff]
  have hcut := beforeBlank_eq_iff file.filename
  by_cases hname : beforeBlank file.filename = name
  · rw [if_pos hname]
    by_cases hright : file.isRegular ∧ blankTrimmed file.filename = name
    · have hpadded := hcut.mp (hname.trans hright.2.symm)
      have hplain := hregular.mp hright.1
      rw [if_pos hright]
      exact iff_of_true rfl ⟨⟨fun _ => ⟨hplain, hpadded⟩, fun _ _ => hpadded⟩, absurd hright⟩
    · -- the entry is found, and what should be found is another one
      have hother : some file ≠ firstRegular fileList name := fun heq =>
        hright (of_firstRegular heq.symm)
      have hwrong : ¬ (file.attributes &&& 0x10 = 0 ∧ (32 : UInt8) ∉ blankTrimmed file.filename) := by
        rintro ⟨hplain, hpadded⟩
        exact hright ⟨hregular.mpr hplain, (hcut.mpr hpadded).symm.trans hname⟩
      rw [if_neg hright]
      simp only [hname, true_implies]
      exact iff_of_false (fun heq => hother (Option.some.inj heq)) fun h => hwrong h.1.1
  · rw [if_neg hname]
    by_cases hright : file.isRegular ∧ blankTrimmed file.filename = name
    · -- the entry is passed, and should be found
      rw [if_pos hright]
      refine iff_of_false (fun h => hname (beforeBlank_of_getFile hfile hmark h)) fun h => ?_
      exact hname ((hcut.mpr (h.1.2 hright.1 hright.2)).trans hright.2)
    · rw [if_neg hright, ih]
      have hpass : file.isRegular → blankTrimmed file.filename = name →
          (32 : UInt8) ∉ blankTrimmed file.filename := fun h1 h2 => absurd ⟨h1, h2⟩ hright
      simp only [hname, false_implies, true_and, hright, not_false_eq_true, true_implies]
      exact (and_iff_right hpass).symm

theorem getFile_eq_iff {fileList : List Fat16Entry} (h : ∀ file ∈ fileList, file.Searched)
    (name : List UInt8) :
    getFile fileList name = some (firstRegular fileList name) ↔ Searchable fileList name := by
  induction fileList with
  | nil => exact iff_of_true rfl (searchable_nil name)
  | cons file fileList ih =>
    have hrest := ih fun f hf => h f (List.mem_cons_of_mem file hf)
    have hfile := h file List.mem_cons_self
    rw [getFile_cons hfile, firstRegular_cons, searchable_cons, Passable]
    by_cases hmark : isFile file = true
    · by_cases hhangs : (0 : UInt8) ∈ file.ext.take 2
      · simp [hmark, hhangs]
      · rw [if_pos hmark, if_neg hhangs, getFile_eq_cons_iff hfile hmark hrest]
        simp only [hmark, hhangs, not_false_eq_true, true_and, true_implies]
    · have hregular : ¬ file.isRegular = true := by simp [isRegular_eq, hmark]
      simp [hmark, hregular, hrest]

theorem findsRegular_iff {fileList : List Fat16Entry} {name : List UInt8} (any : Fat16Entry) :
    FindsRegular fileList name ↔ getFile fileList name = some (firstRegular fileList name) := by
  constructor
  · intro h
    have hany := h any
    rw [getFileInto] at hany
    cases hfound : getFile fileList name with
    | none =>
      rw [hfound] at hany
      cases hregular : firstRegular fileList name <;> rw [hregular] at hany <;> cases hany
    | some found =>
      rw [hfound] at hany
      cases found with
      | none =>
        cases hregular : firstRegular fileList name with
        | none => rfl
        | some file =>
          rw [hregular] at hany
          cases hany
      | some found =>
        cases hregular : firstRegular fileList name with
        | none =>
          rw [hregular] at hany
          cases hany
        | some file =>
          rw [hregular] at hany
          cases hany
          rfl
  · intro h file
    rw [getFileInto, h]
    cases firstRegular fileList name <;> rfl

namespace Env

variable (env : Env)

theorem length_rootEntry (j : ℕ) :
    (env.rootEntry j).filename.length = 8 ∧ (env.rootEntry j).ext.length = 3 :=
  Fat16Entry.length_ofBytes (env.length_dev 4 _ 32 (by decide))

end Env

theorem dirEntries_searched {dir : List UInt8} {n : ℕ} (hlen : 32 * n ≤ dir.length)
    (h : ∀ file ∈ (dirEntries dir n).filter isFile, (0 : UInt8) ∉ file.filename) :
    ∀ file ∈ dirEntries dir n, file.Searched := by
  intro file hfile
  obtain ⟨i, hi, rfl⟩ := List.mem_map.mp hfile
  have hin : 32 * i + 32 ≤ dir.length := by
    rw [List.mem_range] at hi
    omega
  obtain ⟨hname, hext⟩ := Fat16Entry.length_ofBytes (length_slice hin)
  exact ⟨hname, hext, fun hmark => h _ (List.mem_filter.mpr ⟨hfile, hmark⟩)⟩

/-- `get_file` finds regular files of the name only exactly when no entry that it looks at on
the way is a subdirectory of that name, has a blank within a name that it takes for this one,
or has an extension on which `strncpy` does not end. -/
theorem get_file_iff {dir : List UInt8} {n : ℕ} (hlen : 32 * n ≤ dir.length)
    (h : ∀ file ∈ (dirEntries dir n).filter isFile, (0 : UInt8) ∉ file.filename)
    (name : List UInt8) :
    FindsRegular (dirEntries dir n) name ↔ Searchable (dirEntries dir n) name :=
  (findsRegular_iff (.ofBytes [])).trans (getFile_eq_iff (dirEntries_searched hlen h) name)

theorem get_file_iff_floppy : FindsRegular floppy.rootDir (ascii "INIT") := by
  refine (get_file_iff (by decide +kernel) (by decide +kernel) _).mpr ?_
  have hpassable : ∀ file ∈ floppy.rootDir, Passable (ascii "INIT") file := by
    unfold Passable
    decide +kernel
  intro before file after heq _
  exact hpassable file (by rw [Volume.rootDir, heq]; simp)

/-- A subdirectory in front of the file of its name. -/
def shadowed : Volume where
  bytes := floppyBytes 1 [0xF0, 0xFF, 0xFF, 0xFF, 0xFF, 0xFF]
    ((dirEntry (ascii "INIT") 2).set 11 0x10 ++ dirEntry (ascii "INIT") 3) (List.replicate 1024 0x90)
  length_lt := by decide +kernel
  sectorSize_eq := by decide +kernel

theorem get_file_subdirectory : ¬ ∀ (dir : List UInt8) (n : ℕ) (name : List UInt8),
    32 * n ≤ dir.length →
    (∀ file ∈ (dirEntries dir n).filter isFile, (0 : UInt8) ∉ file.filename) →
    FindsRegular (dirEntries dir n) name := by
  intro hlaw
  have hfinds : FindsRegular shadowed.rootDir (ascii "INIT") :=
    hlaw _ _ _ (by decide +kernel) (by decide +kernel)
  rw [findsRegular_iff (.ofBytes [])] at hfinds
  have hfirst : (getFile shadowed.rootDir (ascii "INIT")).map
      (fun found => found.map Fat16Entry.startingCluster) = some (some 2) := by decide +kernel
  have hregular : (firstRegular shadowed.rootDir (ascii "INIT")).map
      Fat16Entry.startingCluster = some 3 := by decide +kernel
  rw [hfinds, Option.map_some, hregular] at hfirst
  cases hfirst

end RML
