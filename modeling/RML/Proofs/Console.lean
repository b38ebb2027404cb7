import RML.Proofs.Names
import RML.Proofs.Positions
import RML.Spec.Programs

/-! The console: what each function of the kernel prints, and which keys it takes. Only
`read` takes keys, and it takes as many as it is asked for. -/

namespace RML

open Bytes Decimal Transition

theorem uitoa_small {i : ℕ} (h : i < 1000000) : uitoa i = some (print i) := by
  rw [uitoa_eq (h.trans (by decide)), if_pos ((length_print_le_iff i 5).mpr h)]

theorem uitoa_print {i : ℕ} {l : List UInt8} (hi : i < 10 ^ 10) (h : uitoa i = some l) :
    l = print i := by
  rw [uitoa_eq hi] at h
  split_ifs at h
  exact (Option.some.inj h).symm

namespace Io

variable {env : Env} {amb : Ambient} {io io' io'' : Io} {pid : ℕ} {fd : ℤ} {text text' : List UInt8}

/-- From `io` to `io'` just this was printed, and no key was taken. -/
structure Shows (io : Io) (text : List UInt8) (io' : Io) : Prop where
  screen : io'.screen = io.screen ++ text
  keys : io'.keys = io.keys

theorem Shows.refl (io : Io) : Shows io [] io := ⟨(List.append_nil _).symm, rfl⟩

theorem Shows.trans (h : Shows io text io') (h' : Shows io' text' io'') :
    Shows io (text ++ text') io'' :=
  ⟨by rw [h'.screen, h.screen, List.append_assoc], h'.keys.trans h.keys⟩

theorem Shows.silent (h : Shows io [] io') (h' : Shows io' text io'') : Shows io text io'' :=
  h.trans h'

theorem Shows.quietly (h : Shows io text io') (h' : Shows io' [] io'') : Shows io text io'' := by
  have hall := h.trans h'
  rwa [List.append_nil] at hall

theorem Shows.of_eq (hscreen : io'.screen = io.screen) (hkeys : io'.keys = io.keys) :
    Shows io [] io' :=
  ⟨hscreen.trans (List.append_nil _).symm, hkeys⟩

theorem shows_update (io : Io) (pid : ℕ) (fd : ℤ) (f : FileDescriptor → FileDescriptor) :
    Shows io [] (io.update pid fd f) := by
  unfold update
  split_ifs
  · exact .of_eq rfl rfl
  · exact .of_eq rfl rfl

theorem shows_advance (r : ReadResult) (fd : ℤ) : Shows r.io [] (advance r fd).io :=
  shows_update r.io 0 fd fun d => { d with pos := d.pos + UInt32.ofNat r.bytesRead }

theorem shows_lseek (io : Io) (fd : ℤ) (offset pid : ℕ) : Shows io [] (io.lseek fd offset pid) :=
  shows_update io pid fd _

theorem shows_close (io : Io) (fd : ℤ) (pid : ℕ) : Shows io [] (io.close fd pid) :=
  shows_update io pid fd _

theorem shows_openFd (io : Io) (pathname : List UInt8) (pid : ℕ) :
    Shows io [] (io.openFd pathname pid).2 := by
  unfold openFd
  split_ifs <;> dsimp only <;> first | exact shows_update io pid _ _ | exact .refl io

theorem shows_write (io : Io) (buf : List UInt8) (h : fd = 1 ∨ fd = 2) :
    Shows io buf (io.write fd buf) := by
  rw [write, if_pos h]
  exact ⟨rfl, rfl⟩

theorem shows_write_other (io : Io) (buf : List UInt8) (h : ¬ (fd = 1 ∨ fd = 2)) :
    Shows io [] (io.write fd buf) := by
  rw [write, if_neg h]
  exact .refl io

theorem shows_printk (io : Io) (string : List UInt8) : Shows io string (io.printk string) :=
  shows_write io string (Or.inl rfl)

/-- The descriptors that `read` serves from the keyboard: the console's input, and those
that hang on it. -/
def FromKeyboard (io : Io) (fd : ℤ) : Prop :=
  (io.fdList fd).pfd = -1 ∧ fd = 0 ∨ (io.fdList fd).pfd = 0

/-- `read` of a device prints nothing; from the keyboard it takes the next keys. -/
theorem read_device_console {fuel count : ℕ} {r : ReadResult} (hpfd : (io.fdList fd).pfd = -1)
    (h : io.read env amb fuel fd count pid = some r) :
    (fd ≠ 0 → Shows io [] r.io) ∧
      (fd = 0 → r.io.screen = io.screen ∧ r.io.keys = io.keys + count ∧
        r.bytes = streamed env.key io.keys count) := by
  cases fuel with
  | zero => cases h
  | succ fuel =>
    obtain ⟨r', rfl, ⟨hne, -⟩ | ⟨-, hdev, rfl⟩ | ⟨-, rfl, rfl⟩ | ⟨-, -, hkey, rfl⟩⟩ := read_cases h
    · exact absurd hpfd hne
    · refine ⟨fun _ => .of_eq rfl rfl, fun h0 => ?_⟩
      omega
    · refine ⟨fun h0 => absurd rfl h0, fun _ => ⟨rfl, rfl, ?_⟩⟩
      show (List.range count).map (fun i => env.key (io.keys + i)) = _
      rw [streamed, List.range'_eq_map_range, List.map_map]
      rfl
    · exact ⟨fun _ => .of_eq rfl rfl, fun h0 => absurd h0 hkey⟩

theorem read_console {fuel count : ℕ} {r : ReadResult} (hw : Wired io)
    (h : io.read env amb fuel fd count pid = some r) :
    (¬ FromKeyboard io fd → Shows io [] r.io) ∧
      (FromKeyboard io fd → r.io.screen = io.screen ∧ r.io.keys = io.keys + count ∧
        r.bytes = streamed env.key io.keys count) := by
  by_cases hpfd : (io.fdList fd).pfd = -1
  · obtain ⟨hother, hkey⟩ := read_device_console hpfd h
    refine ⟨fun hnot => hother fun h0 => hnot (Or.inl ⟨hpfd, h0⟩), ?_⟩
    rintro (⟨-, h0⟩ | h0)
    · exact hkey h0
    · rw [hpfd] at h0
      cases h0
  · obtain ⟨fuel', r', hr', rfl, -, hlow, -⟩ := read_layered hw hpfd h
    have hsought := shows_lseek io (io.fdList fd).pfd
      (wrap ((io.fdList fd).pfdOffset + (io.fdList fd).pos.toNat)) pid
    obtain ⟨hother, hkey⟩ := read_device_console hlow hr'
    refine ⟨fun hnot => ?_, ?_⟩
    · exact hsought.trans ((hother fun h0 => hnot (Or.inr h0)).trans (shows_advance r' fd))
    · rintro (⟨hdev, -⟩ | h0)
      · exact absurd hdev hpfd
      · obtain ⟨hscreen, hkeys, hbytes⟩ := hkey h0
        have hend := shows_advance r' fd
        refine ⟨?_, ?_, ?_⟩
        · exact (hend.screen.trans (List.append_nil _)).trans
            (hscreen.trans (hsought.screen.trans (List.append_nil _)))
        · rw [hend.keys, hkeys, hsought.keys]
        · show r'.bytes = _
          rw [hbytes, hsought.keys]

/-! The reads of the file system are from the disk. -/

theorem shows_read_disk {fuel count : ℕ} {r : ReadResult} (hdisk : (io.fdList 4).pfd = -1)
    (h : io.read env amb fuel 4 count pid = some r) : Shows io [] r.io :=
  (read_device_console hdisk h).1 (by decide)

theorem disk_lseek (hdisk : (io.fdList 4).pfd = -1) (offset : ℕ) :
    ((io.lseek 4 offset 0).fdList 4).pfd = -1 := by
  rw [(seeks_lseek io 4 offset 0).pfd, hdisk]

theorem shows_readCluster {clusterNum : ℕ} {bytes : List UInt8} (hdisk : (io.fdList 4).pfd = -1)
    (h : io.readCluster env amb clusterNum = some (bytes, io')) : Shows io [] io' := by
  simp only [readCluster, Option.bind_eq_bind, Option.bind_eq_some_iff, Option.some.injEq] at h
  obtain ⟨r, hr, heq⟩ := h
  cases heq
  exact (shows_lseek io 4 _ 0).trans (shows_read_disk (disk_lseek hdisk _) hr)

theorem shows_getNextCluster {currCluster nextCluster : ℕ} (hdisk : (io.fdList 4).pfd = -1)
    (h : io.getNextCluster env amb currCluster = some (nextCluster, io')) : Shows io [] io' := by
  simp only [getNextCluster, Option.bind_eq_bind, Option.bind_eq_some_iff, Option.some.injEq] at h
  obtain ⟨r, hr, heq⟩ := h
  cases heq
  exact (shows_lseek io 4 _ 0).trans (shows_read_disk (disk_lseek hdisk _) hr)

theorem shows_loadLoop {segment fuel offset currCluster : ℕ} {mem mem' : ℕ → UInt8}
    {clustBuf : List UInt8} (hdisk : (io.fdList 4).pfd = -1)
    (h : loadLoop env amb segment fuel io mem clustBuf offset currCluster = some (io', mem')) :
    Shows io [] io' := by
  induction fuel generalizing io mem clustBuf offset currCluster with
  | zero => simp [loadLoop] at h
  | succ fuel ih =>
    simp only [loadLoop, Option.bind_eq_bind, Option.bind_eq_some_iff] at h
    obtain ⟨⟨bytes, io₁⟩, hread, h⟩ := h
    have hdisk₁ : (io₁.fdList 4).pfd = -1 := ((seeks_readCluster hread).pfd 4).trans hdisk
    split at h
    · simp at h
    · obtain ⟨⟨next, io₂⟩, hnext, h⟩ := Option.bind_eq_some_iff.mp h
      have hdisk₂ : (io₂.fdList 4).pfd = -1 := ((seeks_getNextCluster hnext).pfd 4).trans hdisk₁
      have hboth := (shows_readCluster hdisk hread).trans (shows_getNextCluster hdisk₁ hnext)
      split at h
      · exact hboth.trans (ih hdisk₂ h)
      · cases h
        exact hboth

theorem shows_mount (h : io.mount env amb (ascii "/dev/fdb") = some io') : Shows io [] io' := by
  obtain ⟨io₁, io₂, hboot, hfat, rfl⟩ := mount_cases h
  have hdisk := disk_openFd_fdb io
  have hread : Shows (io.openFd (ascii "/dev/fdb") 0).2 [] io₁ ∧ (io₁.fdList 4).pfd = -1 := by
    simp only [readBootSector, Option.bind_eq_bind, Option.bind_eq_some_iff] at hboot
    obtain ⟨r, hr, hboot⟩ := hboot
    have hsilent := (shows_lseek _ 4 0 0).trans (shows_read_disk (disk_lseek hdisk 0) hr)
    have hstays := ((seeks_lseek _ 4 0 0).trans (seeks_read hr)).pfd 4
    split_ifs at hboot
    obtain rfl := Option.some.inj hboot
    exact ⟨hsilent.trans (.of_eq rfl rfl), hstays.trans hdisk⟩
  simp only [readFat, Option.bind_eq_bind, Option.bind_eq_some_iff] at hfat
  obtain ⟨r, hr, hfat⟩ := hfat
  split_ifs at hfat
  obtain rfl := Option.some.inj hfat
  have hfat := (shows_lseek io₁ 4 _ 0).trans (shows_read_disk (disk_lseek hread.2 _) hr)
  exact (shows_openFd io _ 0).trans (hread.1.trans (hfat.trans (shows_openFd r.io _ 0)))

theorem shows_read_root {fuel count : ℕ} {r : ReadResult} (hr : Rooted env io)
    (h : io.read env amb fuel 5 count 0 = some r) : Shows io [] r.io := by
  cases fuel with
  | zero => cases h
  | succ fuel =>
    obtain ⟨r', rfl, ⟨-, hr'⟩ | ⟨hdev, -⟩ | ⟨hdev, -⟩ | ⟨hdev, -⟩⟩ := read_cases h
    · rw [hr.pfd] at hr'
      have hdisk := shows_read_disk (disk_lseek hr.disk _) hr'
      exact (shows_lseek io 4 _ 0).trans (hdisk.trans (shows_advance r' 5))
    · rw [hr.pfd] at hdev
      cases hdev
    · rw [hr.pfd] at hdev
      cases hdev
    · rw [hr.pfd] at hdev
      cases hdev

theorem shows_getRootNextFile {next : Option Fat16Entry} (hr : Rooted env io)
    (h : io.getRootNextFile env amb = some (next, io')) : Shows io [] io' := by
  have hlook : Shows io [] { io with touched := io.touched ++ [(0, 5)] } := .of_eq rfl rfl
  unfold getRootNextFile at h
  simp only at h
  split at h
  · simp only [Option.bind_eq_bind, Option.bind_eq_some_iff, Option.some.injEq] at h
    obtain ⟨r, hread, heq⟩ := h
    cases heq
    exact hlook.trans (shows_read_root ⟨hr.bs, hr.sPos, hr.disk, hr.pfd, hr.pfdOffset⟩ hread)
  · cases h
    exact hlook

theorem shows_listLoop {fuel filesRead room filesRead' : ℕ} {buf buf' : List UInt8}
    (hr : Rooted env io)
    (h : listLoop env amb fuel io buf filesRead room = some (filesRead', buf', io')) :
    Shows io [] io' := by
  induction fuel generalizing io buf filesRead room with
  | zero => simp [listLoop] at h
  | succ fuel ih =>
    rw [listLoop] at h
    split at h
    · cases h
      exact .refl _
    · simp only [Option.bind_eq_bind, Option.bind_eq_some_iff] at h
      obtain ⟨⟨next, io₁⟩, hnext, h⟩ := h
      have hone := shows_getRootNextFile hr hnext
      have hr₁ : Rooted env io₁ := hr.seeks (seeks_getRootNextFile hnext)
      cases next with
      | none =>
        cases h
        exact hone
      | some file =>
        simp only at h
        split at h
        · exact hone.trans (ih hr₁ h)
        · split at h
          · exact hone.trans (ih hr₁ h)
          · split at h
            · cases h
              exact hone
            · simp only [Option.bind_eq_some_iff] at h
              obtain ⟨⟨name, ext⟩, -, buf₁, -, h⟩ := h
              exact hone.trans (ih hr₁ h)

end Io

namespace Io

variable {env : Env} {amb : Ambient} {io io' : Io}

theorem shows_rootFilesLoop {n i : ℕ} {files : List Fat16Entry} (hr : Rooted env io)
    (hi : i + n ≤ 65536) (h : io.rootFilesLoop env amb n i = some (files, io')) :
    Shows io ((List.range' i n).flatMap entryText) io' := by
  induction n generalizing i io files with
  | zero =>
    cases h
    exact .refl _
  | succ n ih =>
    simp only [rootFilesLoop, Option.bind_eq_bind, Option.bind_eq_some_iff, Option.some.injEq] at h
    obtain ⟨number, hnumber, r, hread, ⟨files', io₁⟩, hrest, heq⟩ := h
    cases heq
    obtain rfl := uitoa_print (by omega) hnumber
    rw [List.range'_succ, List.flatMap_cons]
    have hprinted := shows_printk io (ascii "reading entry number " ++ print i ++ ascii "\r\n")
    have hseeks := seeks_printk io (ascii "reading entry number " ++ print i ++ ascii "\r\n")
    by_cases hmark : i = 223
    · rw [if_pos hmark] at hread
      have hr₁ := (hr.seeks hseeks).seeks (seeks_printk _ (ascii "entry 223\r\n"))
      rw [entryText, if_pos hmark]
      refine Shows.trans (hprinted.trans (shows_printk _ _)) ?_
      exact (shows_read_root hr₁ hread).silent (ih (hr₁.seeks (seeks_read hread)) (by omega) hrest)
    · rw [if_neg hmark] at hread
      have hr₁ := hr.seeks hseeks
      rw [entryText, if_neg hmark, List.append_nil]
      refine hprinted.trans ?_
      exact (shows_read_root hr₁ hread).silent (ih (hr₁.seeks (seeks_read hread)) (by omega) hrest)

theorem shows_getRootFiles {files : List Fat16Entry} (hr : Rooted env io)
    (h : io.getRootFiles env amb = some (files, io')) :
    Shows io (directoryText env.bootSector.rootDirEntries) io' := by
  have hlt := env.rootDirEntries_lt
  simp only [getRootFiles, Option.bind_eq_bind, Option.bind_eq_some_iff] at h
  obtain ⟨number, hnumber, hloop⟩ := h
  have hbs : io.bs = env.bootSector := hr.bs
  rw [hbs] at hnumber
  obtain rfl := uitoa_print (by omega) hnumber
  have hr₁ := (hr.seeks (seeks_lseek io 5 0 0)).seeks (seeks_printk _
    (ascii "reading root directory\r\nroot directory entries:" ++
      print env.bootSector.rootDirEntries ++ ascii "\r\n"))
  rw [hr₁.bs] at hloop
  rw [directoryText, List.range_eq_range']
  refine (shows_lseek io 5 0 0).silent ((shows_printk _ _).trans ?_)
  exact shows_rootFilesLoop hr₁ (by omega) hloop

end Io

namespace Kernel

variable {env : Env} {amb : Ambient}

/-- Looking up a name prints the same text whatever the name. -/
theorem shows_lookup {io io' : Io} {name : List UInt8} {found : Option Fat16Entry}
    (hr : Rooted env io) (h : lookup env amb io name = some (found, io')) :
    io.Shows (directoryText env.bootSector.rootDirEntries) io' := by
  unfold lookup at h
  split at h
  · simp at h
  · simp only [Option.bind_eq_bind, Option.bind_eq_some_iff, Option.some.injEq] at h
    obtain ⟨⟨fileList, io₁⟩, hfiles, found', -, heq⟩ := h
    cases heq
    exact Io.shows_getRootFiles hr hfiles

theorem shows_openStd (io : Io) (pid : ℕ) : io.Shows [] (openStd io pid) :=
  (Io.shows_openFd io _ pid).trans (Io.shows_openFd _ _ pid)

variable {k k' : Kernel} {service : ℕ}

/-- The text of the services that print one. -/
def saying (p : SyscallParam) : ℕ → Option (List UInt8)
  | 0 => some (ascii "system call!\r\n")
  | 4 => some (cstr p.bytes)
  | 5 => some (p.bytes.take 1)
  | _ => none

/-- What a system call other than 7 does, by its service. -/
theorem dispatch_cases (hs : service ≠ 7) (hd : k.dispatch env amb service = some (.reply k')) :
    (∃ text, saying k.params service = some text ∧ k' = { k with io := k.io.write 1 text }) ∨
      (service = 6 ∧ ∃ r p, k.io.read env amb amb.fuel 0 1 0 = some r ∧
        k.params.write 0 r.bytes = some p ∧ k' = { k with io := r.io, params := p }) ∨
      (service = 8 ∧ ∃ io, k.getProcessList = some io ∧ k' = { k with io := io }) ∨
      (service = 15 ∧ ∃ io, time amb.clock k.io = some io ∧ k' = { k with io := io }) ∨
      (∃ call r io p, FileCall.ofParams service k.params = some call ∧
        k.io.exec env amb k.sched.runningProc k.params call = some (r, io) ∧
        r.store k.params = some p ∧ k' = { k with io := io, params := p }) ∨
      (service ∉ [0, 4, 5, 6, 7, 8, 13, 14, 15] ∧ k' = k) := by
  unfold dispatch at hd
  split at hd
  · cases hd
    exact Or.inl ⟨_, rfl, rfl⟩
  · simp at hd
  · cases hd
    exact Or.inl ⟨_, rfl, rfl⟩
  · cases hd
    exact Or.inl ⟨_, rfl, rfl⟩
  · simp only [Option.bind_eq_bind, Option.bind_eq_some_iff, Option.some.injEq] at hd
    obtain ⟨r, hread, p, hp, heq⟩ := hd
    exact Or.inr (Or.inl ⟨rfl, r, p, hread, hp, (Outcome.reply.inj heq).symm⟩)
  · exact absurd rfl hs
  · simp only [Option.bind_eq_bind, Option.bind_eq_some_iff, Option.some.injEq] at hd
    obtain ⟨io, hlist, heq⟩ := hd
    exact Or.inr (Or.inr (Or.inl ⟨rfl, io, hlist, (Outcome.reply.inj heq).symm⟩))
  · simp only [Option.bind_eq_bind, Option.bind_eq_some_iff, Option.some.injEq] at hd
    obtain ⟨io, htime, heq⟩ := hd
    exact Or.inr (Or.inr (Or.inr (Or.inl ⟨rfl, io, htime, (Outcome.reply.inj heq).symm⟩)))
  · next h0 h2 h4 h5 h6 h7 h8 h15 =>
    split at hd
    · next hnone =>
      have h13 : service ≠ 13 := by
        rintro rfl
        cases hnone
      have h14 : service ≠ 14 := by
        rintro rfl
        cases hnone
      refine Or.inr (Or.inr (Or.inr (Or.inr (Or.inr ⟨?_, ?_⟩))))
      · simp only [List.mem_cons, List.not_mem_nil, or_false, not_or]
        exact ⟨h0, h4, h5, h6, h7, h8, h13, h14, h15⟩
      · exact (Outcome.reply.inj (Option.some.inj hd)).symm
    · next call hcall =>
      simp only [Option.bind_eq_bind, Option.bind_eq_some_iff, Option.some.injEq] at hd
      obtain ⟨⟨r, io⟩, hexec, p, hp, heq⟩ := hd
      exact Or.inr (Or.inr (Or.inr (Or.inr (Or.inl
        ⟨call, r, io, p, hcall, hexec, hp, (Outcome.reply.inj heq).symm⟩))))

end Kernel

end RML
