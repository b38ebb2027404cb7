import RML.Spec.Strings

/-! `kernel/kernio.c`: descriptors, console and number output. The sector loop of
`read` (lines 189 to 261) is `Env.dev` here; `Spec.Device` models that loop and
plugs it in. -/

namespace RML

open Bytes

/-- What the kernel reads from the hardware. `dev fd pos count` is what `read`
leaves at the start of `buf` for the floppy behind descriptor 3 or 4: all `count`
bytes of a request of at most a sector, possibly fewer of a longer one, but more than
the `512 * n` that are below `count`. The message and the `halt` for a sector that cannot
be read (lines 236 to 239) are left out: no screen of the model shows it. -/
structure Env where
  dev : ℤ → ℕ → ℕ → List UInt8
  length_dev_le : ∀ fd pos count, (dev fd pos count).length ≤ count
  length_dev : ∀ fd pos count, count ≤ 512 → (dev fd pos count).length = count
  lt_length_dev : ∀ n fd pos count, 512 * n < count → 512 * n < (dev fd pos count).length
  key : ℕ → UInt8

structure Clock where
  century : UInt8
  year : UInt8
  month : UInt8
  day : UInt8
  hours : UInt8
  minutes : UInt8
  seconds : UInt8

/-- What one kernel entry meets that its caller does not choose: the contents of
uninitialised locals, the clock, and the rounds its unbounded loops and
recursions are given before the model gives up on them. -/
structure Ambient where
  fuel : ℕ
  buf : ℕ → UInt8
  seg : ℕ
  pid : ℕ
  bytesRead : ℕ
  clock : Clock

def Ambient.fill (amb : Ambient) (n : ℕ) (bs : List UInt8) : List UInt8 :=
  bs.take n ++ (List.range' bs.length (n - bs.length)).map amb.buf

/-- The globals of `kernio.c` and `fs.c`, the `files_table` of every process slot,
and the console. `touched` records the descriptor entries accessed, as table
owner (0 for the kernel) and index; no function reads it. -/
structure Io where
  fdList : FdTable := fun _ => {}
  filesTable : ℕ → FdTable := fun _ _ => {}
  bs : Fat16BootSector := {}
  sPos : SectionPositions := {}
  keys : ℕ := 0
  screen : List UInt8 := []
  touched : List (ℕ × ℤ) := []

namespace Io

def table (io : Io) (pid : ℕ) : FdTable :=
  if pid = 0 then io.fdList else io.filesTable (pid - 1)

def update (io : Io) (pid : ℕ) (fd : ℤ) (f : FileDescriptor → FileDescriptor) : Io :=
  if pid = 0 then
    { io with
      fdList := Function.update io.fdList fd (f (io.fdList fd))
      touched := io.touched ++ [(pid, fd)] }
  else
    { io with
      filesTable := Function.update io.filesTable (pid - 1)
        (Function.update (io.filesTable (pid - 1)) fd (f (io.filesTable (pid - 1) fd)))
      touched := io.touched ++ [(pid, fd)] }

def getRootSize (io : Io) : ℕ :=
  wrap (io.sPos.dataSectionStart + 2 ^ 32 - io.sPos.rootDirectoryStart)

def getRootOffset (io : Io) : ℕ := io.sPos.rootDirectoryStart

/-- `open`; `flags` is ignored by the source and left out. -/
def openFd (io : Io) (pathname : List UInt8) (pid : ℕ) : Int32 × Io :=
  if strcmp pathname (ascii "/dev/fda") = 0 then
    (3, io.update pid 3 fun d => { d with pos := 0, pfd := -1, size := 65535 })
  else if strcmp pathname (ascii "/dev/stdin") = 0 then
    (0, io.update pid 0 fun d => { d with pos := 0, size := 0, pfd := -1, pfdOffset := 0 })
  else if strcmp pathname (ascii "/dev/stdout") = 0 then
    (1, io.update pid 1 fun d => { d with pos := 0, size := 0, pfd := -1, pfdOffset := 0 })
  else if strcmp pathname (ascii "/dev/fdb") = 0 then
    (4, io.update pid 4 fun d => { d with pos := 0, pfd := -1, size := 65535 })
  else if strcmp pathname (ascii "/") = 0 then
    (5, io.update pid 5 fun d =>
      { d with pos := 0, size := io.getRootSize, pfd := 4, pfdOffset := io.getRootOffset })
  else (-1, io)

def close (io : Io) (fd : ℤ) (pid : ℕ) : Io :=
  io.update pid fd fun d =>
    { d with pathname := [], pfd := 0, pfdOffset := 0, pos := 0, size := 0 }

/-- `lseek`; `whence` is ignored by the source and left out. -/
def lseek (io : Io) (fd : ℤ) (offset : ℕ) (pid : ℕ) : Io :=
  io.update pid fd ({ · with pos := UInt32.ofNat offset })

structure ReadResult where
  bytes : List UInt8
  bytesRead : ℕ
  io : Io

/-- `read`. Whatever the pid, the descriptor is looked up in `fd_list`, the
parent is sought in the caller's table and read with pid 0. `none` when the
descent through `pfd` outlasts the fuel. -/
def read (env : Env) (amb : Ambient) : ℕ → Io → ℤ → ℕ → ℕ → Option ReadResult
  | 0, _, _, _, _ => none
  | fuel + 1, io, fd, count, pid => do
    let d := io.fdList fd
    let r ←
      if d.pfd ≠ -1 then
        read env amb fuel (io.lseek d.pfd (wrap (d.pfdOffset + d.pos.toNat)) pid) d.pfd count 0
      else if fd = 3 ∨ fd = 4 then some ⟨env.dev fd d.pos.toNat count, count, io⟩
      else if fd = 0 then
        some ⟨(List.range count).map fun i => env.key (io.keys + i), 0,
          { io with keys := io.keys + count }⟩
      -- no branch of the source sets `bytes_read`
      else some ⟨[], amb.bytesRead, io⟩
    some { r with io := r.io.update 0 fd fun d =>
      { d with pos := d.pos + UInt32.ofNat r.bytesRead } }

/-- `write` of the bytes of `buf`; only descriptors 1 and 2 print them. -/
def write (io : Io) (fd : ℤ) (buf : List UInt8) : Io :=
  if fd = 1 ∨ fd = 2 then { io with screen := io.screen ++ buf } else io

def printk (io : Io) (string : List UInt8) : Io := io.write 1 string

end Io

def uitoaLoop : ℕ → ℕ → List UInt8 → List UInt8
  | 0, _, p => p
  | fuel + 1, i, p =>
    let p := UInt8.ofNat (48 + i % 10) :: p
    if i / 10 = 0 then p else uitoaLoop fuel (i / 10) p

/-- `uitoa`; `none` when the digits run below the start of its static buffer. -/
def uitoa (i : ℕ) : Option (List UInt8) :=
  let p := uitoaLoop 10 i []
  if p.length ≤ 6 then some p else none

/-- `load_to_memory`, one byte at a time: `di` wraps at the end of the segment. -/
def copyLoop (segment : ℕ) : List UInt8 → ℕ → (ℕ → UInt8) → ℕ → UInt8
  | [], _, mem => mem
  | b :: buffer, di, mem =>
    copyLoop segment buffer ((di + 1) % 65536) (Function.update mem (segment * 16 + di) b)

def loadToMemory (mem : ℕ → UInt8) (segment progOffset : ℕ) (buffer : List UInt8) (count : ℕ) :
    ℕ → UInt8 :=
  copyLoop segment (buffer.take (2 * (count / 2))) (progOffset % 65536) mem

end RML
