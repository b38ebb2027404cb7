import RML.Proofs.Search
import Mathlib.Data.List.Find

/-! The names in the process table. Nothing checks the length of the string passed to
`run_program`; what reaches `register_proc` has been compared with the name of a
directory entry, up to a blank in it. -/

namespace RML

open Bytes Transition

theorem two_le_of_read {env : Env} {amb : Ambient} {io : Io} {fuel count : ℕ} {r : Io.ReadResult}
    (hpfd : (io.fdList 5).pfd = 4) (h : io.read env amb fuel 5 count 0 = some r) : 2 ≤ fuel := by
  match fuel with
  | 0 => cases h
  | 1 =>
    simp only [Io.read, hpfd] at h
    cases h
  | fuel + 2 => omega

theorem Rooted.getRootFiles_eq {env : Env} {amb : Ambient} {io io' : Io} {files : List Fat16Entry}
    (hr : Rooted env io) (h : io.getRootFiles env amb = some (files, io')) : files = env.rootDir := by
  by_cases hfuel : 2 ≤ amb.fuel
  · obtain ⟨io₁, hfiles⟩ := hr.getRootFiles amb hfuel
    rw [hfiles, Option.some.injEq, Prod.mk.injEq] at h
    exact h.1.symm
  · simp only [Io.getRootFiles, Option.bind_eq_bind, Option.bind_eq_some_iff] at h
    obtain ⟨number, -, h⟩ := h
    have hat := (AtEntry.lseek hr).printk
      (ascii "reading root directory\r\nroot directory entries:" ++ number ++ ascii "\r\n")
    rw [hat.bs] at h
    rw [Env.rootDir]
    cases hentries : env.bootSector.rootDirEntries with
    | zero =>
      rw [hentries] at h
      cases h
      rfl
    | succ n =>
      rw [hentries] at h
      simp only [Io.rootFilesLoop, Option.bind_eq_bind, Option.bind_eq_some_iff] at h
      obtain ⟨_, -, r, hread, -⟩ := h
      exact absurd (two_le_of_read (hat.printk _).pfd hread) hfuel

theorem getFile_some {files : List Fat16Entry} {name : List UInt8} {found : Option Fat16Entry}
    (hlen : ∀ file ∈ files, file.filename.length = 8 ∧ file.ext.length = 3)
    (h : getFile files name = some found) :
    found = (files.filter isFile).find? fun file => shortText file.filename = name := by
  induction files with
  | nil =>
    cases h
    rfl
  | cons file files ih =>
    have hrest := ih fun f hf => hlen f (List.mem_cons_of_mem file hf)
    obtain ⟨hname, hext⟩ := hlen file List.mem_cons_self
    rw [getFile] at h
    by_cases hfile : getEntryType file = .TYPE_FILE
    · rw [if_pos hfile] at h
      simp only [Option.bind_eq_bind, Option.bind_eq_some_iff] at h
      obtain ⟨⟨filename, ext⟩, hextract, h⟩ := h
      obtain rfl := extractFileName_fst hname hext hextract
      have hmark : isFile file = true := decide_eq_true hfile
      rw [List.filter_cons_of_pos hmark]
      simp only [strcmp_eq_zero_iff] at h
      split_ifs at h with hcmp
      · cases h
        rw [List.find?_cons_of_pos (by simpa using hcmp)]
      · rw [List.find?_cons_of_neg (by simpa using hcmp)]
        exact hrest h
    · rw [if_neg hfile] at h
      rw [List.filter_cons_of_neg (by simpa [isFile] using hfile)]
      exact hrest h

theorem Rooted.lookup_files {env : Env} {amb : Ambient} {io io' : Io} {name : List UInt8}
    {found : Option Fat16Entry} (hr : Rooted env io)
    (h : Kernel.lookup env amb io name = some (found, io')) :
    found = env.files.find? fun file => shortText file.filename = name := by
  unfold Kernel.lookup at h
  split_ifs at h
  simp only [Option.bind_eq_bind, Option.bind_eq_some_iff, Option.some.injEq, Prod.mk.injEq] at h
  obtain ⟨⟨files, io₁⟩, hfiles, found', hfound, rfl, -⟩ := h
  obtain rfl := hr.getRootFiles_eq hfiles
  have hlen : ∀ file ∈ env.rootDir, file.filename.length = 8 ∧ file.ext.length = 3 := by
    intro file hmem
    obtain ⟨j, -, rfl⟩ := List.mem_map.mp hmem
    exact env.length_rootEntry j
  exact getFile_some hlen hfound

theorem Rooted.lookup_found {env : Env} {amb : Ambient} {io io' : Io} {name : List UInt8}
    {file : Fat16Entry} (hr : Rooted env io)
    (h : Kernel.lookup env amb io name = some (some file, io')) :
    file ∈ env.rootDir ∧ name = shortText file.filename ∧ name.length ≤ 8 := by
  obtain ⟨files, io₁, hfiles, hmem, ext, hname⟩ := Kernel.lookup_found h
  obtain rfl := hr.getRootFiles_eq hfiles
  have hlen : file.filename.length = 8 ∧ file.ext.length = 3 := by
    obtain ⟨j, -, rfl⟩ := List.mem_map.mp hmem
    exact env.length_rootEntry j
  exact ⟨hmem, extractFileName_fst hlen.1 hlen.2 hname, length_extractFileName_le hname⟩

/-- Every name in the process table is that of a directory entry at the longest. -/
def Sched.NamesFit (s : Sched) : Prop := ∀ i, (s.processes i).name.length ≤ 8

namespace Sched.NamesFit

variable {s s' : Sched}

theorem of_names (h : s.NamesFit) (hsame : ∀ i, (s'.processes i).name = (s.processes i).name) :
    s'.NamesFit := by
  intro i
  rw [hsame]
  exact h i

theorem modify (h : s.NamesFit) (i : ℕ) {f : ProcessDesc → ProcessDesc}
    (hf : (f (s.processes i)).name.length ≤ 8) : (s.modify i f).NamesFit := by
  intro j
  rw [modify_processes]
  split_ifs
  · exact hf
  · exact h j

theorem initProcesses (h : s.NamesFit) : s.initProcesses.NamesFit := by
  refine h.of_names fun i => ?_
  simp only [Sched.initProcesses]
  split_ifs <;> rfl

theorem unregisterProc (h : s.NamesFit) (pid : ℕ) : (s.unregisterProc pid).NamesFit :=
  h.modify _ (h _)

theorem setRunningProc {pid : ℕ} (h : s.NamesFit) (hset : s.setRunningProc pid = some s') :
    s'.NamesFit := by
  unfold Sched.setRunningProc at hset
  split_ifs at hset
  · cases hset
    have hready : (s.modify (s.runningProc - 1) ({ · with state := .READY })).NamesFit :=
      h.modify _ (h _)
    have hrunning : Sched.NamesFit
        { s.modify (s.runningProc - 1) ({ · with state := .READY }) with runningProc := pid } := hready
    exact hrunning.modify _ (hready _)
  · cases hset
    have hrunning : Sched.NamesFit { s with runningProc := pid } := h
    exact hrunning.modify _ (h _)

theorem registerProc {name : List UInt8} {cs ds ss entryPoint ppid size pid : ℕ} (h : s.NamesFit)
    (hname : name.length ≤ 8)
    (hreg : s.registerProc name cs ds ss entryPoint ppid size = some (pid, s')) : s'.NamesFit := by
  obtain ⟨i, -, heq⟩ := Option.map_eq_some_iff.mp hreg
  cases heq
  exact h.modify _ hname

end Sched.NamesFit

theorem namesFit_start {env : Env} {amb : Ambient} {k : Kernel} {currPid : Option ℕ}
    {name : List UInt8} {r : Kernel.RunResult} (hr : Rooted env k.io) (hk : k.sched.NamesFit)
    (h : k.runProgramStart env amb currPid name = some r) :
    (∃ rc k', r = .returned rc k' ∧ k'.sched.NamesFit) ∨
      ∃ f k', r = .started f k' ∧ k'.sched.NamesFit := by
  rcases Kernel.runProgramStart_cases rfl h with
    ⟨io, -, rfl⟩ | ⟨file, io, io', mem, pid, sched, hlook, -, hreg, rfl⟩
  · exact Or.inl ⟨1, _, rfl, hk⟩
  · refine Or.inr ⟨_, _, rfl, ?_⟩
    obtain ⟨-, -, hlen⟩ := hr.lookup_found hlook
    show sched.NamesFit
    rcases hreg with ⟨-, -, hset⟩ | ⟨sched', hsome, hset⟩
    · exact hk.setRunningProc hset
    · exact (hk.registerProc hlen hsome).setRunningProc hset

namespace Sys

variable {env : Env} {m m' : Sys}

theorem namesFit_finish {k k' : Kernel} {pid retcode : ℕ} (hk : k.sched.NamesFit)
    (h : k.finishRun pid retcode = some k') : k'.sched.NamesFit := by
  obtain ⟨sched, hset, rfl⟩ := Kernel.finishRun_cases h
  exact hk.setRunningProc hset

theorem namesFit_step (hr : Rooted env m.kernel.io) (hm : m.kernel.sched.NamesFit) {e : Event}
    (h : Step env m e m') : m'.kernel.sched.NamesFit := by
  obtain ⟨out, hstep⟩ := h
  cases e with
  | init amb =>
    obtain ⟨-, -, ⟨rc, k, hstart, rfl⟩ | ⟨f, k, hstart, rfl⟩⟩ := step_init hstep
    · rcases namesFit_start (k := restarted m.kernel) hr hm.initProcesses hstart with
        ⟨_, _, heq, hk⟩ | ⟨_, _, heq, -⟩
      · cases heq
        exact hk
      · cases heq
    · rcases namesFit_start (k := restarted m.kernel) hr hm.initProcesses hstart with
        ⟨_, _, heq, -⟩ | ⟨_, _, heq, hk⟩
      · cases heq
      · cases heq
        exact hk
  | exit =>
    have hended : ∀ f, (m.kernel.runProgramEnd f).sched.NamesFit := fun f => hm.unregisterProc f.pid
    obtain ⟨f, frames, -, ⟨-, rfl, -⟩ | ⟨pid, k, -, hfin, rfl, -⟩⟩ := step_exit hstep
    · exact hended f
    · exact namesFit_finish (hended f) hfin
  | sys amb service request =>
    have hentered : Rooted env (entered m.kernel request).io := (Rooted.stable env).entered hr
    obtain ⟨-, ⟨-, f, k, hstart, rfl, -⟩ | ⟨-, rc, k, k', hstart, hfin, rfl, -⟩ |
      ⟨-, io, params, -, rfl, -⟩⟩ := step_call hstep
    · rcases namesFit_start (k := named m.kernel request) hentered hm hstart with
        ⟨_, _, heq, hk⟩ | ⟨_, _, heq, hk⟩
      · cases heq
      · cases heq
        exact hk
    · rcases namesFit_start (k := named m.kernel request) hentered hm hstart with
        ⟨_, _, heq, hk⟩ | ⟨_, _, heq, hk⟩
      · cases heq
        exact namesFit_finish hk hfin
      · cases heq
    · exact hm

theorem namesFit_boot (h : Boot env m) : m.kernel.sched.NamesFit := by
  obtain ⟨amb, k, hk, rfl⟩ := h
  simp only [Kernel.startk, Option.bind_eq_bind, Option.bind_eq_some_iff, Option.some.injEq] at hk
  obtain ⟨io, -, rfl⟩ := hk
  exact fun i => Nat.zero_le 8

theorem namesFit_reachable (h : Reachable env m) : m.kernel.sched.NamesFit := by
  obtain ⟨m₀, es, hboot, hrun⟩ := h
  refine (hrun.invariant (fun m => Settled (Rooted env) m ∧ m.kernel.sched.NamesFit) ?_
    ⟨settled_boot hboot (.of_boot hboot), namesFit_boot hboot⟩).2
  rintro m e m' ⟨hsettled, hnames⟩ hstep
  exact ⟨settled_step (Rooted.stable env) m e m' hsettled hstep,
    namesFit_step hsettled.io hnames hstep⟩

end Sys

/-- The first file of a directory that `get_file` takes for one of this name. -/
def firstNamed (entries : List Fat16Entry) (name : List UInt8) : Option Fat16Entry :=
  (entries.filter isFile).find? fun file => beforeBlank file.filename = name

/-- `load` has loaded an entry into `segment` whose name, without the blanks behind it, is
`name`. -/
def LoadedNamed (env : Env) (amb : Ambient) (k : Kernel) (entries : List Fat16Entry)
    (name : List UInt8) (segment : ℕ) : Prop :=
  ∃ file ∈ entries, ∃ io io' mem, Kernel.lookup env amb k.io name = some (some file, io) ∧
    io.loadFileContent env amb k.mem file segment 0 = some (io', mem) ∧
    name = blankTrimmed file.filename

namespace Sys

variable {env : Env} {m : Sys} {dir : List UInt8}

theorem lookup_firstNamed {amb : Ambient} {io io' : Io} {name : List UInt8} {file : Fat16Entry}
    (hr : Rooted env io) (hdir : env.DeliversDir dir)
    (hnames : ∀ file ∈ (dirEntries dir env.bootSector.rootDirEntries).filter isFile,
      (0 : UInt8) ∉ file.filename)
    (h : Kernel.lookup env amb io name = some (some file, io')) :
    firstNamed (dirEntries dir env.bootSector.rootDirEntries) name = some file := by
  have hfound := hr.lookup_files h
  rw [Env.files, hdir.rootDir_eq] at hfound
  rw [firstNamed, hfound]
  refine List.find?_congr fun file hfile => ?_
  rw [shortText_eq (hnames file hfile)]

/-- When `load` has reached `register_proc` for a system call, the string has eight characters
at most, and so have all names that are in the table at any time; it is the name of the entry
that was loaded exactly when that name has no blank in front of another character. -/
theorem registered_name_iff (hdir : env.DeliversDir dir)
    (hnames : ∀ file ∈ (dirEntries dir env.bootSector.rootDirEntries).filter isFile,
      (0 : UInt8) ∉ file.filename) (h : Reachable env m) :
    (∀ amb request r, (named m.kernel request).load env amb (cstr (stoupper request.bytes)) = some r →
      r.retcode = 0 → (cstr (stoupper request.bytes)).length ≤ 8 ∧
        (LoadedNamed env amb (named m.kernel request)
            (dirEntries dir env.bootSector.rootDirEntries) (cstr (stoupper request.bytes)) r.segment ↔
          ∃ file, firstNamed (dirEntries dir env.bootSector.rootDirEntries)
            (cstr (stoupper request.bytes)) = some file ∧
            (32 : UInt8) ∉ blankTrimmed file.filename)) ∧
      ∀ i, (m.kernel.sched.processes i).name.length ≤ 8 := by
  refine ⟨?_, namesFit_reachable h⟩
  intro amb request r hload hret
  have hr : Rooted env (named m.kernel request).io :=
    (Rooted.stable env).entered (Rooted.of_reachable h)
  rcases Kernel.load_cases rfl hload with
    ⟨io, -, rfl⟩ | ⟨file, io, io', mem, hlook, hmem, hreg⟩
  · cases hret
  obtain ⟨hfile, hname, hlen⟩ := hr.lookup_found hlook
  rw [hdir.rootDir_eq] at hfile
  have hsegment : r.segment = (getFreeSeg m.kernel.segArr amb.seg).1 := by
    rcases hreg with ⟨-, rfl⟩ | ⟨pid, sched, -, rfl⟩ <;> rfl
  rw [hsegment]
  have hfirst := lookup_firstNamed hr hdir hnames hlook
  have hcut : beforeBlank file.filename = cstr (stoupper request.bytes) := by
    simpa using List.find?_some hfirst
  refine ⟨hlen, ?_, ?_⟩
  · rintro ⟨file', -, io₁, -, -, hlook', -, htrimmed⟩
    obtain ⟨rfl, -⟩ : file' = file ∧ io₁ = io := by simpa using hlook'.symm.trans hlook
    exact ⟨file', hfirst, (beforeBlank_eq_iff _).mp (hcut.trans htrimmed)⟩
  · rintro ⟨file', hfirst', hpadded⟩
    obtain rfl := Option.some.inj (hfirst.symm.trans hfirst')
    exact ⟨file, hfile, io, io', mem, hlook, hmem,
      hcut.symm.trans ((beforeBlank_eq_iff _).mpr hpadded)⟩

theorem registered_name_iff_init : ∃ r,
    (named oneLive.kernel callInit).load (.ofVolume floppy) calm (ascii "INIT") = some r ∧
      LoadedNamed (.ofVolume floppy) calm (named oneLive.kernel callInit) floppy.rootDir
        (ascii "INIT") r.segment := by
  have hreach : Reachable (.ofVolume floppy) oneLive :=
    ⟨booted, [.init calm], boot_booted, .single step_oneLive⟩
  have hname : cstr (stoupper callInit.bytes) = ascii "INIT" := by decide +kernel
  have hentries : floppy.rootDir =
      dirEntries (floppy.bytes.drop floppy.rootStart) (Env.ofVolume floppy).bootSector.rootDirEntries := by
    decide +kernel
  obtain ⟨r, hload, hret⟩ : ∃ r, (named oneLive.kernel callInit).load (.ofVolume floppy) calm
      (cstr (stoupper callInit.bytes)) = some r ∧ r.retcode = 0 := by
    have hcode : ((named oneLive.kernel callInit).load (.ofVolume floppy) calm
        (cstr (stoupper callInit.bytes))).map Kernel.LoadResult.retcode = some 0 := by decide +kernel
    exact Option.map_eq_some_iff.mp hcode
  have hiff := ((registered_name_iff delivers_floppyRoot (by decide +kernel) hreach).1 calm callInit
    r hload hret).2
  rw [hname] at hload hiff
  rw [hentries]
  exact ⟨r, hload, hiff.mpr ⟨_, (Option.some_get (by decide +kernel)).symm, by decide +kernel⟩⟩

end Sys

/-- `INIT`, and a file whose name has a blank in it. -/
def spaced : Volume where
  bytes := floppyBytes 1 [0xF0, 0xFF, 0xFF, 0xFF, 0xFF, 0xFF]
    (dirEntry (ascii "INIT") 2 ++ dirEntry (ascii "MY FILE") 3) (List.replicate 1024 0x90)
  length_lt := by decide +kernel
  sectorSize_eq := by decide +kernel

namespace Sys

def spacedBooted : Sys :=
  ⟨(Kernel.startk (.ofVolume spaced) calm).get (by decide +kernel), []⟩

def spacedLive : Sys :=
  (exec (.ofVolume spaced) [.init calm] spacedBooted).get (by decide +kernel)

def callMy : SyscallParam := ⟨ascii "my" ++ List.replicate 574 0, by decide +kernel⟩

/-- `my` is registered as `MY`, and the entry that is loaded has the name `MY FILE`. -/
theorem registered_name_cut : ¬ ∀ (env : Env) (dir : List UInt8) (m : Sys), env.DeliversDir dir →
    (∀ file ∈ (dirEntries dir env.bootSector.rootDirEntries).filter isFile,
      (0 : UInt8) ∉ file.filename) → Reachable env m →
    ∀ amb request r, (named m.kernel request).load env amb (cstr (stoupper request.bytes)) = some r →
      r.retcode = 0 → (cstr (stoupper request.bytes)).length ≤ 8 ∧
        LoadedNamed env amb (named m.kernel request)
          (dirEntries dir env.bootSector.rootDirEntries) (cstr (stoupper request.bytes)) r.segment := by
  intro hlaw
  have hdir : (Env.ofVolume spaced).DeliversDir (spaced.bytes.drop spaced.rootStart) :=
    Env.deliversDir_ofVolume (by decide +kernel) (by decide +kernel)
  have hreach : Reachable (.ofVolume spaced) spacedLive :=
    ⟨spacedBooted, [.init calm], ⟨calm, _, (Option.some_get _).symm, rfl⟩,
      .single (step_of_exec (Option.some_get _).symm)⟩
  obtain ⟨r, hload, hret⟩ : ∃ r, (named spacedLive.kernel callMy).load (.ofVolume spaced) calm
      (cstr (stoupper callMy.bytes)) = some r ∧ r.retcode = 0 := by
    have hcode : ((named spacedLive.kernel callMy).load (.ofVolume spaced) calm
        (cstr (stoupper callMy.bytes))).map Kernel.LoadResult.retcode = some 0 := by decide +kernel
    exact Option.map_eq_some_iff.mp hcode
  obtain ⟨-, file, -, io, -, -, hlook, -, hname⟩ :=
    hlaw _ _ _ hdir (by decide +kernel) hreach calm callMy r hload hret
  have hfound : (Kernel.lookup (.ofVolume spaced) calm (named spacedLive.kernel callMy).io
      (cstr (stoupper callMy.bytes))).map (fun found => found.1.map fun file =>
        blankTrimmed file.filename) = some (some (ascii "MY FILE")) := by
    decide +kernel
  rw [hlook, Option.map_some, Option.map_some, Option.some.injEq, Option.some.injEq, ← hname] at hfound
  revert hfound
  decide +kernel

end Sys

end RML
