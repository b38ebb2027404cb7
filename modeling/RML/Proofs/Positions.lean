import RML.Proofs.Descent

/-! Whose position a `read` uses. `open` and `lseek` work in the caller's table;
`read` takes the descriptor and its position from the kernel's and moves it there, and a
`read` of a layered descriptor moves the one below it too. -/

namespace RML

open Bytes Transition

/-- The floppy a descriptor of a table reads from, and where its position 0 is there. -/
def source (t : FdTable) (fd : ℤ) : Option (ℤ × ℕ) :=
  if (t fd).pfd = -1 then
    if fd = 3 ∨ fd = 4 then some (fd, 0) else none
  else if (t fd).pfd = 3 ∨ (t fd).pfd = 4 then some ((t fd).pfd, (t fd).pfdOffset)
  else none

theorem source_congr {t t' : FdTable} {fd : ℤ} (hpfd : (t' fd).pfd = (t fd).pfd)
    (hoffset : (t' fd).pfdOffset = (t fd).pfdOffset) : source t' fd = source t fd := by
  rw [source, source, hpfd, hoffset]

/-- The three calls on behalf of a pid, 0 for the kernel. -/
inductive IoCall where
  | open (pathname : List UInt8) (pid : ℕ)
  | lseek (fd : ℤ) (offset : UInt32) (pid : ℕ)
  | read (fd : ℤ) (count : UInt32) (pid : ℕ)

def IoCall.pid : IoCall → ℕ
  | .open _ pid => pid
  | .lseek _ _ pid => pid
  | .read _ _ pid => pid

/-- The caller is the kernel or has a slot, and the descriptor is one that `open` can return. -/
def IoCall.InTable : IoCall → Prop
  | .open _ pid => pid ≤ NUM_PROCESSES
  | .lseek fd _ pid => pid ≤ NUM_PROCESSES ∧ 0 ≤ fd ∧ fd ≤ 5
  | .read fd _ pid => pid ≤ NUM_PROCESSES ∧ 0 ≤ fd ∧ fd ≤ 5

/-- What the calls alone say: the position at which the last `open`, `lseek` or `read` of a
descriptor by a pid has left it, and whether that pid has since read one layered on it. -/
structure Trail where
  pos : ℕ → ℤ → UInt32
  above : ℕ → ℤ → Bool

namespace Trail

def start (io : Io) : Trail := ⟨fun pid fd => (io.table pid fd).pos, fun _ _ => false⟩

def left (t : Trail) (pid : ℕ) (fd : ℤ) (pos : UInt32) : Trail where
  pos q i := if q = pid ∧ i = fd then pos else t.pos q i
  above q i := if q = pid ∧ i = fd then false else t.above q i

def after (io : Io) (t : Trail) : IoCall → Trail
  | .open pathname pid =>
    if (io.openFd pathname pid).1 = -1 then t
    else t.left pid (io.openFd pathname pid).1.toInt 0
  | .lseek fd offset pid => t.left pid fd offset
  | .read fd count pid =>
    { pos := fun q i => if q = pid ∧ i = fd then t.pos q i + count else t.pos q i
      above := fun q i => t.above q i || decide (q = pid ∧ i = (io.fdList fd).pfd) }

/-- No descriptor above the one to be read was read since it was left. -/
def Steady (t : Trail) : IoCall → Prop
  | .open _ _ => True
  | .lseek _ _ _ => True
  | .read fd _ pid => t.above pid fd = false

end Trail

namespace Io

variable {env : Env} {amb : Ambient} {io io' : Io} {t : Trail} {pid q : ℕ} {fd : ℤ}

def call (env : Env) (amb : Ambient) (io : Io) : IoCall → Option (List UInt8 × Io)
  | .open pathname pid => some ([], (io.openFd pathname pid).2)
  | .lseek fd offset pid => some ([], io.lseek fd offset.toNat pid)
  | .read fd count pid => (io.read env amb amb.fuel fd count.toNat pid).map fun r => (r.bytes, r.io)

/-- The tables of the others stay as they are, and a `read` of a descriptor that
the caller has on a floppy delivers the bytes from where the caller has left it and advances
that position, both by the caller's own table. -/
def PerProcess (env : Env) (io : Io) (t : Trail) (c : IoCall) (bytes : List UInt8) (io' : Io) :
    Prop :=
  (∀ q, q ≠ c.pid → io'.table q = io.table q) ∧
    ∀ fd count, c = .read fd count c.pid → ∀ d base, source (io.table c.pid) fd = some (d, base) →
      bytes = env.dev d (wrap (base + (t.pos c.pid fd).toNat)) count.toNat ∧
        (io'.table c.pid fd).pos = t.pos c.pid fd + count

/-- The positions in the tables are where the calls left them, for all descriptors on a floppy
but those that one above was read through since. -/
structure Follows (io : Io) (t : Trail) : Prop where
  wired : io.Wired
  pos : ∀ pid fd, (source (io.table pid) fd).isSome → t.above pid fd = false →
    (io.table pid fd).pos = t.pos pid fd

/-- The kernel reads, or the descriptor is not the console's output and either nothing
is read or neither the kernel nor the caller has it on a floppy. -/
def OwnTable (io : Io) : IoCall → Prop
  | .open _ _ => True
  | .lseek _ _ _ => True
  | .read fd count pid => pid = 0 ∨
    fd ≠ 1 ∧ (count = 0 ∨ source io.fdList fd = none ∧ source (io.table pid) fd = none)

theorem update_table (io : Io) (pid q : ℕ) (fd : ℤ) (f : FileDescriptor → FileDescriptor) :
    (io.update pid fd f).table q =
      if q = pid then Function.update (io.table pid) fd (f (io.table pid fd)) else io.table q := by
  unfold update table
  by_cases hp : pid = 0
  · by_cases hq : q = 0
    · simp [hp, hq]
    · simp [hp, hq]
  · by_cases hq : q = 0
    · simp [hp, hq, Ne.symm hp]
    · have hiff : q - 1 = pid - 1 ↔ q = pid := by omega
      simp [hp, hq, Function.update_apply, hiff]

theorem table_openFd (io : Io) (pathname : List UInt8) (hq : q ≠ pid) :
    (io.openFd pathname pid).2.table q = io.table q := by
  have hupdate : ∀ fd f, (io.update pid fd f).table q = io.table q := by
    intro fd f
    rw [update_table, if_neg hq]
  unfold openFd
  split_ifs <;> first | exact hupdate _ _ | rfl

theorem Seeks.source (h : Seeks pid io io') (q : ℕ) (i : ℤ) :
    source (io'.table q) i = source (io.table q) i := by
  have hentry : ∃ pos, io'.table q i = { io.table q i with pos := pos } := by
    unfold table
    by_cases hq : q = 0
    · rw [if_pos hq, if_pos hq]
      exact h.fdList i
    · rw [if_neg hq, if_neg hq]
      by_cases hpid : q - 1 = pid - 1
      · rw [hpid]
        exact h.own i
      · exact ⟨(io.filesTable (q - 1) i).pos, by rw [h.others _ (Or.inr hpid)]⟩
  obtain ⟨pos, heq⟩ := hentry
  exact source_congr (by rw [heq]) (by rw [heq])

theorem openFd_cases (io : Io) (pathname : List UInt8) (pid : ℕ) :
    (∃ fd f, io.openFd pathname pid = (fd, io.update pid fd.toInt f) ∧ fd ≠ -1 ∧
      ∀ d, (f d).pos = 0) ∨ io.openFd pathname pid = (-1, io) := by
  unfold openFd
  split_ifs
  · exact Or.inl ⟨3, _, rfl, by decide, fun _ => rfl⟩
  · exact Or.inl ⟨0, _, rfl, by decide, fun _ => rfl⟩
  · exact Or.inl ⟨1, _, rfl, by decide, fun _ => rfl⟩
  · exact Or.inl ⟨4, _, rfl, by decide, fun _ => rfl⟩
  · exact Or.inl ⟨5, _, rfl, by decide, fun _ => rfl⟩
  · exact Or.inr rfl

theorem read_direct {fuel count : ℕ} {r : ReadResult} (hpfd : (io.fdList fd).pfd = -1)
    (h : io.read env amb fuel fd count pid = some r) :
    r.io.filesTable = io.filesTable ∧
      r.io.fdList = Function.update io.fdList fd { io.fdList fd with
        pos := (io.fdList fd).pos + UInt32.ofNat r.bytesRead } ∧
      r.bytes.length ≤ count ∧
      ((fd = 3 ∨ fd = 4) → r.bytes = env.dev fd (io.fdList fd).pos.toNat count ∧
        r.bytesRead = count) ∧
      (fd = 0 → r.bytesRead = 0) ∧ (fd = 1 → r.bytesRead = amb.bytesRead) := by
  cases fuel with
  | zero => simp [read] at h
  | succ fuel =>
    obtain ⟨r', rfl, ⟨hne, -⟩ | ⟨-, hdev, rfl⟩ | ⟨-, rfl, rfl⟩ | ⟨-, hdev, hkey, rfl⟩⟩ := read_cases h
    · exact absurd hpfd hne
    · refine ⟨rfl, rfl, env.length_dev_le _ _ _, fun _ => ⟨rfl, rfl⟩, ?_, ?_⟩
      · omega
      · omega
    · exact ⟨rfl, rfl, by simp [advance], by simp, fun _ => rfl, by simp⟩
    · exact ⟨rfl, rfl, Nat.zero_le _, fun h => absurd h hdev, fun h => absurd h hkey, fun _ => rfl⟩

/-- `read` of a layered descriptor: the device below is read for the kernel, after
its position was set in the caller's table. -/
theorem read_layered {fuel count : ℕ} {r : ReadResult} (hw : Wired io)
    (hpfd : (io.fdList fd).pfd ≠ -1) (h : io.read env amb fuel fd count pid = some r) :
    ∃ fuel' r', (io.lseek (io.fdList fd).pfd
        (wrap ((io.fdList fd).pfdOffset + (io.fdList fd).pos.toNat)) pid).read env amb fuel'
          (io.fdList fd).pfd count 0 = some r' ∧ r = advance r' fd ∧
      ((io.fdList fd).pfd = 0 ∨ (io.fdList fd).pfd = 4) ∧
      ((io.lseek (io.fdList fd).pfd
        (wrap ((io.fdList fd).pfdOffset + (io.fdList fd).pos.toNat)) pid).fdList
          (io.fdList fd).pfd).pfd = -1 ∧ fd ≠ (io.fdList fd).pfd := by
  have htarget : (io.fdList fd).pfd = 0 ∨ (io.fdList fd).pfd = 4 := (hw.parent_parent hpfd).1
  have hdevice : (io.fdList (io.fdList fd).pfd).pfd = -1 := (hw.parent_parent hpfd).2
  cases fuel with
  | zero => simp [read] at h
  | succ fuel =>
    obtain ⟨r', rfl, ⟨-, hr'⟩ | ⟨hdir, -⟩ | ⟨hdir, -⟩ | ⟨hdir, -⟩⟩ := read_cases h
    · refine ⟨fuel, r', hr', rfl, htarget, ?_, ?_⟩
      · rw [(seeks_lseek io _ _ pid).pfd, hdevice]
      · intro heq
        rw [← heq] at hdevice
        exact hpfd hdevice
    · exact absurd hdir hpfd
    · exact absurd hdir hpfd
    · exact absurd hdir hpfd

/-! What `read` does to a table of which the kernel is wired. -/

theorem read_length {fuel count : ℕ} {r : ReadResult} (hw : Wired io)
    (h : io.read env amb fuel fd count pid = some r) : r.bytes.length ≤ count := by
  by_cases hpfd : (io.fdList fd).pfd = -1
  · exact (read_direct hpfd h).2.2.1
  · obtain ⟨fuel', r', hr', rfl, -, hlow, -⟩ := read_layered hw hpfd h
    exact (read_direct hlow hr').2.2.1

/-- What `read` returns: the count for a descriptor the kernel has on a floppy,
nothing for the keyboard, garbage for the console's output. -/
theorem read_bytesRead {fuel count : ℕ} {r : ReadResult} (hw : Wired io)
    (h : io.read env amb fuel fd count pid = some r) :
    ((source io.fdList fd).isSome → r.bytesRead = count) ∧
      (source io.fdList fd = none → fd ≠ 1 → r.bytesRead = 0) ∧
      (fd = 1 → r.bytesRead = amb.bytesRead) := by
  by_cases hpfd : (io.fdList fd).pfd = -1
  · obtain ⟨-, -, -, hdev, hkey, hout⟩ := read_direct hpfd h
    rw [source, if_pos hpfd]
    refine ⟨?_, ?_, hout⟩
    · split_ifs with hfd
      · exact fun _ => (hdev hfd).2
      · simp
    · split_ifs with hfd
      · simp
      · intro _ h1
        have hdevices := hw.devices fd hpfd
        exact hkey (by omega)
  · obtain ⟨fuel', r', hr', rfl, htarget, hlow, -⟩ := read_layered hw hpfd h
    obtain ⟨-, -, -, hdev, hkey, -⟩ := read_direct hlow hr'
    have h1 : fd ≠ 1 := by
      rintro rfl
      exact hpfd hw.stdout
    rw [source, if_neg hpfd]
    rcases htarget with h0 | h4
    · refine ⟨?_, fun _ _ => hkey h0, fun h => absurd h h1⟩
      rw [h0]
      simp
    · refine ⟨fun _ => (hdev (Or.inr h4)).2, ?_, fun h => absurd h h1⟩
      rw [h4]
      simp

theorem read_advances {fuel count : ℕ} {r : ReadResult} (hw : Wired io)
    (h : io.read env amb fuel fd count pid = some r) :
    (r.io.fdList fd).pos = (io.fdList fd).pos + UInt32.ofNat r.bytesRead := by
  by_cases hpfd : (io.fdList fd).pfd = -1
  · rw [(read_direct hpfd h).2.1, Function.update_self]
  · obtain ⟨fuel', r', hr', rfl, -, hlow, hne⟩ := read_layered hw hpfd h
    unfold advance
    rw [update_fdList, if_pos ⟨rfl, rfl⟩, (read_direct hlow hr').2.1, Function.update_of_ne hne,
      lseek, update_fdList, if_neg fun h => hne h.2]

theorem read_kernel_table {fuel count : ℕ} {r : ReadResult} (hw : Wired io) (hpid : pid ≠ 0)
    (h0 : r.bytesRead = 0) (h : io.read env amb fuel fd count pid = some r) :
    r.io.fdList = io.fdList := by
  have hstay : ∀ (t : FdTable) i, Function.update t i { t i with
      pos := (t i).pos + UInt32.ofNat 0 } = t := by
    intro t i
    simp
  by_cases hpfd : (io.fdList fd).pfd = -1
  · rw [(read_direct hpfd h).2.1, h0, hstay]
  · obtain ⟨fuel', r', hr', rfl, -, hlow, hne⟩ := read_layered hw hpfd h
    have h0' : r'.bytesRead = 0 := h0
    have hlist : (io.lseek (io.fdList fd).pfd
        (wrap ((io.fdList fd).pfdOffset + (io.fdList fd).pos.toNat)) pid).fdList = io.fdList := by
      funext i
      rw [lseek, update_fdList, if_neg fun h => hpid h.1]
    have hlow' : r'.io.fdList = io.fdList := by
      rw [(read_direct hlow hr').2.1, h0', hstay, hlist]
    unfold advance
    funext i
    rw [update_fdList, hlow', h0']
    split_ifs with hi
    · rw [hi.2]
      simp
    · rfl

theorem read_own_entry {fuel count : ℕ} {r : ReadResult} (hw : Wired io) (hpid : pid ≠ 0)
    (h : io.read env amb fuel fd count pid = some r) : r.io.table pid fd = io.table pid fd := by
  have htable : ∀ io : Io, io.table pid = io.filesTable (pid - 1) := by
    intro io
    rw [table, if_neg hpid]
  rw [htable, htable]
  by_cases hpfd : (io.fdList fd).pfd = -1
  · rw [(read_direct hpfd h).1]
  · obtain ⟨fuel', r', hr', rfl, -, hlow, hne⟩ := read_layered hw hpfd h
    unfold advance
    rw [update_filesTable, if_neg fun h => h.1 rfl, (read_direct hlow hr').1, lseek, update_filesTable,
      if_neg fun h => hne h.2.2]

theorem read_own_others {fuel count : ℕ} {r : ReadResult} {i : ℤ} (hw : Wired io) (hi : i ≠ fd)
    (hbelow : i ≠ (io.fdList fd).pfd) (h : io.read env amb fuel fd count pid = some r) :
    r.io.table pid i = io.table pid i := by
  by_cases hpfd : (io.fdList fd).pfd = -1
  · obtain ⟨hfiles, hlist, -⟩ := read_direct hpfd h
    rw [table, table, hfiles, hlist]
    split_ifs
    · rw [Function.update_of_ne hi]
    · rfl
  · obtain ⟨fuel', r', hr', rfl, -, hlow, -⟩ := read_layered hw hpfd h
    obtain ⟨hfiles, hlist, -⟩ := read_direct hlow hr'
    have hinner : r'.io.table pid i = (io.lseek (io.fdList fd).pfd
        (wrap ((io.fdList fd).pfdOffset + (io.fdList fd).pos.toNat)) pid).table pid i := by
      rw [table, table, hfiles, hlist]
      split_ifs
      · rw [Function.update_of_ne hbelow]
      · rfl
    have hsought : (io.lseek (io.fdList fd).pfd
        (wrap ((io.fdList fd).pfdOffset + (io.fdList fd).pos.toNat)) pid).table pid i =
          io.table pid i := by
      rw [lseek, update_table, if_pos rfl, Function.update_of_ne hbelow]
    rw [advance, update_table]
    split_ifs with h0
    · rw [Function.update_of_ne hi, ← h0, hinner, hsought]
    · rw [hinner, hsought]

theorem read_kernel_bytes {fuel count base : ℕ} {r : ReadResult} {d : ℤ} (hw : Wired io)
    (h : io.read env amb fuel fd count 0 = some r) (hs : source io.fdList fd = some (d, base)) :
    r.bytes = env.dev d (wrap (base + (io.fdList fd).pos.toNat)) count := by
  by_cases hpfd : (io.fdList fd).pfd = -1
  · rw [source, if_pos hpfd] at hs
    split_ifs at hs with hdev
    cases hs
    have hwrap : wrap (0 + (io.fdList fd).pos.toNat) = (io.fdList fd).pos.toNat := by
      rw [Nat.zero_add]
      exact Nat.mod_eq_of_lt (io.fdList fd).pos.toNat_lt
    rw [hwrap]
    exact ((read_direct hpfd h).2.2.2.1 hdev).1
  · obtain ⟨fuel', r', hr', rfl, htarget, hlow, -⟩ := read_layered hw hpfd h
    rw [source, if_neg hpfd] at hs
    split_ifs at hs with hdev
    cases hs
    have hbytes := ((read_direct hlow hr').2.2.2.1 hdev).1
    show r'.bytes = _
    rw [hbytes, lseek, update_fdList, if_pos ⟨rfl, rfl⟩]
    congr 1
    exact UInt32.toNat_ofNat_of_lt' (Nat.mod_lt _ (by decide))

theorem perProcess_read_kernel {fd : ℤ} {count : UInt32} {r : ReadResult} (hf : Follows io t)
    (hsteady : t.above 0 fd = false) (hr : io.read env amb amb.fuel fd count.toNat 0 = some r) :
    PerProcess env io t (.read fd count 0) r.bytes r.io := by
  have hcount : UInt32.ofNat count.toNat = count := UInt32.ofNat_toNat
  refine ⟨?_, ?_⟩
  · intro q (hq : q ≠ 0)
    rw [table, table, if_neg hq, if_neg hq, (seeks_read hr).others _ (Or.inl rfl)]
  · rintro fd' count' heq d base hs
    cases heq
    have hs' : source io.fdList fd = some (d, base) := hs
    have hpos : (io.fdList fd).pos = t.pos 0 fd := hf.pos 0 fd (congrArg Option.isSome hs') hsteady
    refine ⟨?_, ?_⟩
    · rw [read_kernel_bytes hf.wired hr hs', hpos]
      rfl
    · show (r.io.fdList fd).pos = t.pos 0 fd + count
      rw [read_advances hf.wired hr, (read_bytesRead hf.wired hr).1 (by rw [hs']; rfl), hcount, hpos]

/-- Another caller keeps to its table when the read neither moves the kernel's position nor
has to move its own. -/
theorem perProcess_read_quiet {fd : ℤ} {count : UInt32} {pid : ℕ} {r : ReadResult}
    (hf : Follows io t) (hsteady : t.above pid fd = false) (hpid : pid ≠ 0)
    (hreturned : r.bytesRead = 0) (hquiet : count = 0 ∨ source (io.table pid) fd = none)
    (hr : io.read env amb amb.fuel fd count.toNat pid = some r) :
    PerProcess env io t (.read fd count pid) r.bytes r.io := by
  refine ⟨?_, ?_⟩
  · intro q hq
    by_cases hq0 : q = 0
    · subst hq0
      exact read_kernel_table hf.wired hpid hreturned hr
    · rw [table, table, if_neg hq0, if_neg hq0, (seeks_read hr).others _ (Or.inr ?_)]
      have hne : q ≠ pid := hq
      omega
  · rintro fd' count' heq d base hs
    cases heq
    have hs' : source (io.table pid) fd = some (d, base) := hs
    rcases hquiet with rfl | hnone
    · refine ⟨?_, ?_⟩
      · have hlen := read_length hf.wired hr
        have hdev := env.length_dev_le d (wrap (base + (t.pos pid fd).toNat)) 0
        rw [List.length_eq_zero_iff.mp (Nat.le_zero.mp hlen)]
        exact (List.length_eq_zero_iff.mp (Nat.le_zero.mp hdev)).symm
      · show (r.io.table pid fd).pos = t.pos pid fd + 0
        rw [read_own_entry hf.wired hpid hr, UInt32.add_zero]
        exact hf.pos pid fd (by rw [hs']; rfl) hsteady
    · rw [hs'] at hnone
      cases hnone

theorem perProcess_of_ownTable {c : IoCall} {bytes : List UInt8} (hf : Follows io t)
    (hsteady : t.Steady c) (hc : OwnTable io c) (h : io.call env amb c = some (bytes, io')) :
    PerProcess env io t c bytes io' := by
  cases c with
  | «open» pathname pid =>
    have hio : (io.openFd pathname pid).2 = io' := (Prod.mk.inj (Option.some.inj h)).2
    subst hio
    exact ⟨fun q hq => table_openFd io pathname hq, fun fd count heq => nomatch heq⟩
  | lseek fd offset pid =>
    have hio : io.lseek fd offset.toNat pid = io' := (Prod.mk.inj (Option.some.inj h)).2
    subst hio
    refine ⟨fun q (hq : q ≠ pid) => ?_, fun fd count heq => nomatch heq⟩
    rw [lseek, update_table, if_neg hq]
  | read fd count pid =>
    simp only [call, Option.map_eq_some_iff, Prod.mk.injEq] at h
    obtain ⟨r, hr, rfl, rfl⟩ := h
    by_cases hpid : pid = 0
    · subst hpid
      exact perProcess_read_kernel hf hsteady hr
    · obtain ⟨h1, hquiet⟩ := hc.resolve_left hpid
      have hreturned : r.bytesRead = 0 := by
        obtain ⟨hfloppy, hother, -⟩ := read_bytesRead hf.wired hr
        rcases hquiet with rfl | ⟨hnone, -⟩
        · cases hs : source io.fdList fd with
          | none => exact hother hs h1
          | some _ => exact hfloppy (by rw [hs]; rfl)
        · exact hother hnone h1
      exact perProcess_read_quiet hf hsteady hpid hreturned (hquiet.imp id And.right) hr

theorem ownTable_of_perProcess {c : IoCall} (hf : Follows io t) (hsteady : t.Steady c)
    (hlaw : ∀ amb bytes io', io.call env amb c = some (bytes, io') →
      PerProcess env io t c bytes io') : OwnTable io c := by
  cases c with
  | «open» pathname pid => trivial
  | lseek fd offset pid => trivial
  | read fd count pid =>
    by_contra hnot
    simp only [OwnTable, not_or] at hnot
    obtain ⟨hpid, hnot⟩ := hnot
    have hcount : UInt32.ofNat count.toNat = count := UInt32.ofNat_toNat
    -- a `read` whose `bytes_read` happens to start at 1
    let amb : Ambient := ⟨2, fun _ => 0, 0, 0, 1, ⟨0, 0, 0, 0, 0, 0, 0⟩⟩
    obtain ⟨r, hr⟩ : ∃ r, io.read env amb 2 fd count.toNat pid = some r :=
      read_total hf.wired 0 fd count.toNat pid
    obtain ⟨hothers, hown⟩ := hlaw amb r.bytes r.io (by
      simp only [call, Option.map_eq_some_iff]
      exact ⟨r, hr, rfl⟩)
    have hkernel : (r.io.fdList fd).pos = (io.fdList fd).pos :=
      congrArg FileDescriptor.pos (congrFun (hothers 0 (Ne.symm hpid)) fd)
    rw [read_advances hf.wired hr] at hkernel
    obtain ⟨hfloppy, -, hout⟩ := read_bytesRead hf.wired hr
    by_cases h1 : fd = 1
    · rw [hout h1] at hkernel
      simp [amb] at hkernel
    · have hnonzero : count ≠ 0 := fun h0 => hnot ⟨h1, Or.inl h0⟩
      cases hs : source io.fdList fd with
      | some _ =>
        rw [hfloppy (by rw [hs]; rfl), hcount] at hkernel
        simp [hnonzero] at hkernel
      | none =>
        cases hs' : source (io.table pid) fd with
        | none => exact hnot ⟨h1, Or.inr ⟨hs, hs'⟩⟩
        | some dp =>
          obtain ⟨-, hpos⟩ := hown fd count rfl dp.1 dp.2 hs'
          have hpos' : (r.io.table pid fd).pos = t.pos pid fd + count := hpos
          rw [read_own_entry hf.wired hpid hr, hf.pos pid fd (by rw [hs']; rfl) hsteady] at hpos'
          simp [hnonzero] at hpos'

def CallStep (env : Env) (s : Io × Trail) (e : Ambient × IoCall) (s' : Io × Trail) : Prop :=
  e.2.InTable ∧ ∃ bytes, s.1.call env e.1 e.2 = some (bytes, s'.1) ∧ s'.2 = s.2.after s.1 e.2

/-- The calls that keep to their caller's table. -/
def OwnCall (s : Io × Trail) (e : Ambient × IoCall) : Prop := OwnTable s.1 e.2 ∧ s.2.Steady e.2

theorem Follows.left {pos : UInt32} (hf : Follows io t) (hw : Wired io')
    (hown : (io'.table pid fd).pos = pos)
    (hothers : ∀ q i, ¬ (q = pid ∧ i = fd) → io'.table q i = io.table q i) :
    Follows io' (t.left pid fd pos) := by
  refine ⟨hw, fun q i hs habove => ?_⟩
  simp only [Trail.left] at habove ⊢
  by_cases hqi : q = pid ∧ i = fd
  · rw [if_pos hqi, hqi.1, hqi.2, hown]
  · rw [if_neg hqi] at habove
    have hentry := hothers q i hqi
    rw [source_congr (congrArg FileDescriptor.pfd hentry)
      (congrArg FileDescriptor.pfdOffset hentry)] at hs
    rw [if_neg hqi, hentry, hf.pos q i hs habove]

theorem update_table_others (io : Io) {f : FileDescriptor → FileDescriptor} {q : ℕ} {i : ℤ}
    (h : ¬ (q = pid ∧ i = fd)) : (io.update pid fd f).table q i = io.table q i := by
  rw [update_table]
  split_ifs with hq
  · rw [Function.update_of_ne fun hi => h ⟨hq, hi⟩, hq]
  · rfl

theorem update_table_self (io : Io) (f : FileDescriptor → FileDescriptor) :
    (io.update pid fd f).table pid fd = f (io.table pid fd) := by
  rw [update_table, if_pos rfl, Function.update_self]

theorem follows_open (hf : Follows io t) (pathname : List UInt8) (pid : ℕ) :
    Follows (io.openFd pathname pid).2 (t.after io (.open pathname pid)) := by
  have hw := hf.wired.openFd pathname pid
  rcases openFd_cases io pathname pid with ⟨fd, f, heq, hne, hpos⟩ | heq
  · rw [heq] at hw
    rw [Trail.after, heq, if_neg hne]
    exact hf.left hw (by rw [update_table_self, hpos]) fun q i h => update_table_others io h
  · rw [Trail.after, heq, if_pos rfl]
    exact hf

theorem follows_lseek (hf : Follows io t) (fd : ℤ) (offset : UInt32) (pid : ℕ) :
    Follows (io.lseek fd offset.toNat pid) (t.after io (.lseek fd offset pid)) := by
  refine hf.left (hf.wired.seeks (seeks_lseek io fd offset.toNat pid)) ?_
    fun q i h => update_table_others io h
  rw [lseek, update_table_self]
  exact UInt32.ofNat_toNat

theorem follows_read {count : UInt32} {r : ReadResult} (hf : Follows io t)
    (hr : io.read env amb amb.fuel fd count.toNat pid = some r)
    (hown : PerProcess env io t (.read fd count pid) r.bytes r.io) :
    Follows r.io (t.after io (.read fd count pid)) := by
  have hseeks := seeks_read hr
  refine ⟨hf.wired.seeks hseeks, fun q i hs habove => ?_⟩
  rw [hseeks.source] at hs
  simp only [Trail.after, Bool.or_eq_false_iff, decide_eq_false_iff_not] at habove ⊢
  obtain ⟨habove, hbelow⟩ := habove
  by_cases hqi : q = pid ∧ i = fd
  · obtain ⟨rfl, rfl⟩ := hqi
    obtain ⟨⟨d, base⟩, hs⟩ := Option.isSome_iff_exists.mp hs
    rw [if_pos ⟨rfl, rfl⟩]
    exact (hown.2 i count rfl d base hs).2
  · rw [if_neg hqi, ← hf.pos q i hs habove]
    by_cases hq : q = pid
    · subst hq
      rw [read_own_others hf.wired (fun hi => hqi ⟨rfl, hi⟩) (fun hi => hbelow ⟨rfl, hi⟩) hr]
    · rw [hown.1 q hq]

theorem follows_callStep (s : Io × Trail) (e : Ambient × IoCall) (s' : Io × Trail)
    (hf : Follows s.1 s.2) (h : Guarded OwnCall (CallStep env) s e s') : Follows s'.1 s'.2 := by
  obtain ⟨⟨hown, hsteady⟩, -, bytes, hcall, htrail⟩ := h
  obtain ⟨amb, c⟩ := e
  obtain ⟨io', t'⟩ := s'
  subst htrail
  have hper := perProcess_of_ownTable hf hsteady hown hcall
  cases c with
  | «open» pathname pid =>
    have hio : (s.1.openFd pathname pid).2 = io' := (Prod.mk.inj (Option.some.inj hcall)).2
    subst hio
    exact follows_open hf pathname pid
  | lseek fd offset pid =>
    have hio : s.1.lseek fd offset.toNat pid = io' := (Prod.mk.inj (Option.some.inj hcall)).2
    subst hio
    exact follows_lseek hf fd offset pid
  | read fd count pid =>
    simp only [call, Option.map_eq_some_iff, Prod.mk.injEq] at hcall
    obtain ⟨r, hr, rfl, rfl⟩ := hcall
    exact follows_read hf hr hper

theorem table_of_run {s s' : Io × Trail} {es : List (Ambient × IoCall)} {pid : ℕ}
    (hf : Follows s.1 s.2) (h : Run (Guarded OwnCall (CallStep env)) s es s')
    (hes : ∀ e ∈ es, e.2.pid ≠ pid) : s'.1.table pid = s.1.table pid := by
  induction h with
  | nil s => rfl
  | cons hstep _ ih =>
    obtain ⟨⟨hown, hsteady⟩, -, bytes, hcall, -⟩ := id hstep
    rw [ih (follows_callStep _ _ _ hf hstep) fun e he => hes e (List.mem_cons_of_mem _ he)]
    exact (perProcess_of_ownTable hf hsteady hown hcall).1 pid (hes _ List.mem_cons_self).symm

end Io

namespace Sys

variable {env : Env} {m : Sys} {es : List (Ambient × IoCall)} {s : Io × Trail}

theorem follows_run (h0 : Boot env m)
    (h : Run (Guarded Io.OwnCall (Io.CallStep env)) (m.kernel.io, .start m.kernel.io) es s) :
    s.1.Follows s.2 :=
  h.invariant (fun s => s.1.Follows s.2) Io.follows_callStep ⟨wired_boot h0, fun _ _ _ _ => rfl⟩

def openFdb : IoCall := .open (ascii "/dev/fdb") 1

def seekSecond : IoCall := .lseek 4 512 1

def openedFdb : Io × Trail :=
  ((booted.kernel.io.openFd (ascii "/dev/fdb") 1).2,
    (Trail.start booted.kernel.io).after booted.kernel.io openFdb)

def sought : Io × Trail :=
  (openedFdb.1.lseek 4 (512 : UInt32).toNat 1, openedFdb.2.after openedFdb.1 seekSecond)

theorem run_sought : Run (Guarded Io.OwnCall (Io.CallStep (.ofVolume floppy)))
    (booted.kernel.io, .start booted.kernel.io) [(calm, openFdb), (calm, seekSecond)] sought := by
  have hopen : openFdb.InTable := show 1 ≤ NUM_PROCESSES by decide
  have hseek : seekSecond.InTable := ⟨by decide, by decide, by decide⟩
  have hopened : Io.CallStep (.ofVolume floppy) (booted.kernel.io, .start booted.kernel.io)
      (calm, openFdb) openedFdb := ⟨hopen, [], by rw [openedFdb, openFdb, Io.call], by rw [openedFdb]⟩
  have hsought : Io.CallStep (.ofVolume floppy) openedFdb (calm, seekSecond) sought :=
    ⟨hseek, [], by rw [sought, seekSecond, Io.call], by rw [sought]⟩
  exact .cons ⟨⟨trivial, trivial⟩, hopened⟩ (.single ⟨⟨trivial, trivial⟩, hsought⟩)

end Sys

end RML
