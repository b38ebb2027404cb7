import RML.Proofs.EndMarker
import RML.Proofs.Format
import RML.Spec.Utils

/-! Texts from the floppy and from the keyboard that are printed as templates: the names
in the rows of `ls`, and the line that the shell found no program for. -/

namespace RML

open Bytes Decimal

/-- The templates are printed one after the other, each without an argument; `out` is
what comes out, and none of them takes anything off the stack. -/
def Prints (ap : List PrintfArg) : List (List UInt8) → List UInt8 → Prop
  | [], out => out = []
  | format :: formats, out => ∃ r rest, printf format ap = some r ∧ r.ap = ap ∧
      Prints ap formats rest ∧ out = r.chunks.flatten ++ rest

theorem flatten_of_printf {text : List UInt8} {ap : List PrintfArg} {r : Printed}
    (h0 : (0 : UInt8) ∉ text) (h : printf text ap = some r) (hap : r.ap = ap) :
    r.chunks.flatten = text.filter (· ≠ 37) :=
  (vfprintfLoop_filter h0 h).2 (by rw [hap])

theorem printf_plain {text : List UInt8} (h0 : (0 : UInt8) ∉ text) (h : (37 : UInt8) ∉ text)
    (ap : List PrintfArg) :
    ∃ r, printf text ap = some r ∧ r.ap = ap ∧ r.chunks.flatten = text := by
  obtain ⟨chunks, hprintf, htext⟩ := vfprintfLoop_formats (formats_plain h0 h) ap (le_refl _)
  exact ⟨_, hprintf, rfl, htext⟩

/-- Texts come out as they are exactly when there is no `%` in them. -/
theorem prints_iff {texts : List (List UInt8)} (h0 : ∀ text ∈ texts, (0 : UInt8) ∉ text)
    (ap : List PrintfArg) : Prints ap texts texts.flatten ↔ (37 : UInt8) ∉ texts.flatten := by
  have hfilter : ∀ out, Prints ap texts out → out = texts.flatten.filter (· ≠ 37) := by
    induction texts with
    | nil => exact fun out hout => hout
    | cons text texts ih =>
      rintro out ⟨r, rest, hprintf, hap, hrest, rfl⟩
      rw [List.flatten_cons, List.filter_append,
        flatten_of_printf (h0 text List.mem_cons_self) hprintf hap,
        ih (fun t ht => h0 t (List.mem_cons_of_mem text ht)) rest hrest]
  constructor
  · intro hprints hpercent
    have hsame := hfilter _ hprints
    rw [eq_comm, List.filter_eq_self] at hsame
    exact absurd (hsame 37 hpercent) (by decide)
  · intro hno
    clear hfilter
    induction texts with
    | nil => rfl
    | cons text texts ih =>
      rw [List.flatten_cons, List.mem_append, not_or] at hno
      obtain ⟨r, hprintf, hap, htext⟩ := printf_plain (h0 text List.mem_cons_self) hno.1 ap
      exact ⟨r, _, hprintf, hap, ih (fun t ht => h0 t (List.mem_cons_of_mem text ht)) hno.2,
        by rw [htext, List.flatten_cons]⟩

/-! The rows of `ls`. -/

theorem cstr_drop {buf s : List UInt8} {off n : ℕ} (h : cstr (slice buf off n) = s)
    (hn : s.length < n) : cstr (buf.drop off) = s := by
  rw [← h]
  apply cstr_eq_of_take (by rwa [h])
  rw [slice, List.take_take, Nat.min_self]

theorem lsName_eq {buf : List UInt8} {i : ℕ} {file : Fat16Entry} (hnamed : file.Named)
    (h : Describes (slice buf (28 * i) 28) file) :
    lsName buf i = [shortText file.filename, ascii ".", shortText file.ext] := by
  have hrecord := h.record
  simp only [FileRecord.ofBytes, Fat16Entry.record, FileRecord.mk.injEq] at hrecord
  obtain ⟨hname, hext, -⟩ := hrecord
  rw [slice_slice (by decide)] at hname hext
  have hnameLen := (length_shortText_le file.filename).trans_eq hnamed.filename
  have hextLen := (length_shortText_le file.ext).trans_eq hnamed.ext
  rw [lsName, entryName, entryExt, cstr_drop hext (by omega), ← Nat.add_zero (28 * i),
    cstr_drop hname (by omega)]

theorem infix_lsName_row {outFormat : UInt32} {buf : List UInt8} {i : ℕ} {row : List (List UInt8)}
    (hformat : outFormat = FILE_OUT_LIST ∨ outFormat = FILE_OUT_WIDE)
    (h : lsRow outFormat buf i = some row) : lsName buf i <:+: row := by
  unfold lsRow at h
  split_ifs at h with hwide hlist
  · cases h
    exact ⟨[], _, rfl⟩
  · simp only [Option.bind_eq_bind, Option.bind_eq_some_iff, Option.some.injEq] at h
    obtain ⟨day, -, hours, -, minutes, -, rfl⟩ := h
    exact ⟨_, [ascii "\r\n"], rfl⟩
  · exact absurd (hformat.resolve_right hwide) hlist

/-- `ls` prints the name columns of each record, in either format. -/
theorem infix_lsName_loop {outFormat : UInt32} {buf : List UInt8} {files i total j : ℕ}
    {texts : List (List UInt8)} (hformat : outFormat = FILE_OUT_LIST ∨ outFormat = FILE_OUT_WIDE)
    (h : lsLoop outFormat buf files i total = some texts) (hle : i ≤ j) (hlt : j < i + files) :
    lsName buf j <:+: texts := by
  induction files generalizing i total texts with
  | zero => omega
  | succ files ih =>
    simp only [lsLoop, Option.bind_eq_bind, Option.bind_eq_some_iff, Option.some.injEq] at h
    obtain ⟨row, hrow, rest, hrest, rfl⟩ := h
    by_cases heq : i = j
    · rw [← heq]
      exact (infix_lsName_row hformat hrow).trans (List.prefix_append _ _).isInfix
    · exact (ih hrest (by omega) (by omega)).trans (List.suffix_append _ _).isInfix

theorem prints_names_iff (file : Fat16Entry) (ap : List PrintfArg) :
    Prints ap [shortText file.filename, ascii ".", shortText file.ext]
        (shortText file.filename ++ ascii "." ++ shortText file.ext) ↔
      (37 : UInt8) ∉ shortText file.filename ∧ (37 : UInt8) ∉ shortText file.ext := by
  have h0 : ∀ text ∈ [shortText file.filename, ascii ".", shortText file.ext],
      (0 : UInt8) ∉ text := by
    simp only [List.forall_mem_cons, List.not_mem_nil, false_implies, implies_true, and_true]
    exact ⟨zero_not_mem_cstr _, by decide, zero_not_mem_cstr _⟩
  have hdot : (37 : UInt8) ∉ ascii "." := by decide
  have hprints := prints_iff h0 ap
  simpa [hdot] using hprints

theorem prints_line_iff {line : List UInt8} {retcode : Int32} (h0 : (0 : UInt8) ∉ line)
    (hcode : retcode ≠ 0) (ap : List PrintfArg) :
    Prints ap (shellSystem line retcode) (line ++ ascii ": command not found") ↔
      (37 : UInt8) ∉ line := by
  have hboth : ∀ text ∈ [line, ascii ": command not found"], (0 : UInt8) ∉ text := by
    simp only [List.forall_mem_cons, List.not_mem_nil, false_implies, implies_true, and_true]
    exact ⟨h0, by decide⟩
  have hrest : (37 : UInt8) ∉ ascii ": command not found" := by decide
  have hprints := prints_iff hboth ap
  rw [shellSystem, if_pos hcode]
  simpa [hrest] using hprints

/-- Whatever `list_root_files` returns, `ls` prints its names as they are exactly when they
have no `%`; and so does the shell with a line that names no program. The first part finds
the columns among what `main` of `ls` prints. -/
theorem printed_verbatim_iff {env : Env} {amb : Ambient} {io io' : Io} {bufSize filesRead : ℕ}
    {buf buf' : List UInt8} (h : AtEntry env 0 io) (hnames : env.NamesWithoutNul)
    (hfuel : env.bootSector.rootDirEntries + 2 ≤ amb.fuel) (hbuf : bufSize ≤ buf.length)
    (hlist : io.listRootFiles env amb bufSize buf = some (filesRead, buf', io'))
    (ap : List PrintfArg) :
    (∀ outFormat texts, outFormat = FILE_OUT_LIST ∨ outFormat = FILE_OUT_WIDE →
      lsMain outFormat buf' filesRead = some texts → ∀ i < filesRead, lsName buf' i <:+: texts) ∧
    (∀ i < filesRead, ∃ file, env.files[i]? = some file ∧
      (Prints ap (lsName buf' i) (shortText file.filename ++ ascii "." ++ shortText file.ext) ↔
        (37 : UInt8) ∉ shortText file.filename ∧ (37 : UInt8) ∉ shortText file.ext)) ∧
    ∀ (line : List UInt8) (retcode : Int32), (0 : UInt8) ∉ line → shellCommand line = .system →
      retcode ≠ 0 →
      (Prints ap (shellSystem line retcode) (line ++ ascii ": command not found") ↔
        (37 : UInt8) ∉ line) := by
  refine ⟨?_, ?_, ?_⟩
  · intro outFormat texts hformat hmain i hi
    exact infix_lsName_loop hformat hmain (Nat.zero_le i) (by rwa [Nat.zero_add])
  · obtain ⟨buf₁, io₁, hlist₁, -, hrecords, -⟩ :=
      @listRootFiles_lists env amb io bufSize buf h hnames hfuel hbuf
    rw [hlist, Option.some.injEq, Prod.mk.injEq, Prod.mk.injEq] at hlist₁
    obtain ⟨rfl, rfl, -⟩ := hlist₁
    intro i hi
    have hlt : i < env.files.length := lt_of_lt_of_le hi (min_le_right _ _)
    have hget := List.getElem?_eq_getElem hlt
    have hmem : env.files[i] ∈ env.files := List.getElem_mem hlt
    have hnamed : env.files[i].Named := by
      obtain ⟨hroot, -⟩ := List.mem_filter.mp hmem
      obtain ⟨j, -, hj⟩ := List.mem_map.mp hroot
      have hnul := hnames _ hmem
      rw [← hj] at hnul ⊢
      exact env.rootEntry_named hnul
    refine ⟨_, hget, ?_⟩
    rw [lsName_eq hnamed (hrecords i _ (lt_of_lt_of_le hi (min_le_left _ _)) hget)]
    exact prints_names_iff _ ap
  · intro line retcode h0 _ hcode
    exact prints_line_iff h0 hcode ap

theorem rewound_lists : ∃ filesRead buf' io', rewound.listRootFiles (.ofVolume floppy) calm 512
    (List.replicate 512 0) = some (filesRead, buf', io') := by
  obtain ⟨buf', io', hlist, -⟩ :=
    @listRootFiles_lists (.ofVolume floppy) calm rewound 512 (List.replicate 512 0) rewound_atEntry
      floppy_names (by decide +kernel) (by rw [List.length_replicate])
  exact ⟨_, buf', io', hlist⟩

theorem printed_verbatim_iff_lss :
    Prints [.int 7] (shellSystem (ascii "lss") 1) (ascii "lss: command not found") := by
  obtain ⟨filesRead, buf', io', hlist⟩ := rewound_lists
  exact ((printed_verbatim_iff rewound_atEntry floppy_names (by decide +kernel)
    (by rw [List.length_replicate]) hlist [.int 7]).2.2 (ascii "lss") 1 (by decide) (by decide)
    (by decide)).mpr (by decide)

/-- Of `50%` the shell prints `50`. -/
theorem printed_percent : ¬ ∀ (env : Env) (amb : Ambient) (io io' : Io) (bufSize filesRead : ℕ)
    (buf buf' : List UInt8) (ap : List PrintfArg), AtEntry env 0 io → env.NamesWithoutNul →
    env.bootSector.rootDirEntries + 2 ≤ amb.fuel → bufSize ≤ buf.length →
    io.listRootFiles env amb bufSize buf = some (filesRead, buf', io') →
    (∀ i < filesRead, ∃ file, env.files[i]? = some file ∧
      Prints ap (lsName buf' i) (shortText file.filename ++ ascii "." ++ shortText file.ext)) ∧
    ∀ (line : List UInt8) (retcode : Int32), (0 : UInt8) ∉ line → shellCommand line = .system →
      retcode ≠ 0 → Prints ap (shellSystem line retcode) (line ++ ascii ": command not found") := by
  intro hlaw
  obtain ⟨filesRead, buf', io', hlist⟩ := rewound_lists
  have hprints := (hlaw _ _ _ _ _ _ _ _ [] rewound_atEntry floppy_names (by decide +kernel)
    (by rw [List.length_replicate]) hlist).2 (ascii "50%") 1 (by decide) (by decide) (by decide)
  rw [prints_line_iff (by decide) (by decide)] at hprints
  exact absurd hprints (by decide)

end RML
