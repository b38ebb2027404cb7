import RML.Lib.Bytes
import Mathlib.Logic.Function.Basic

/-! Constants and records of the headers. A `char` array is a byte list, an
`unsigned int` or `unsigned long` of the 32-bit build a natural below `2 ^ 32`.
Fields that no modelled function reads or writes are left out. -/

namespace RML

open Bytes

def NUM_SEG : ℕ := 10
def NUM_PROCESSES : ℕ := 9
def NUM_FILES : ℕ := 5
def SYSCALL_DATA_SIZE : ℕ := 512
def SYSCALL_HEADER_SIZE : ℕ := 64
def SYSCALL_BUF_SIZE : ℕ := SYSCALL_DATA_SIZE + SYSCALL_HEADER_SIZE

def wrap (n : ℕ) : ℕ := n % 2 ^ 32

def ascii (s : String) : List UInt8 := s.toList.map fun c => UInt8.ofNat c.toNat

/-- `FileDescriptor`; `pfd = -1` marks a descriptor that is a device itself. -/
structure FileDescriptor where
  pathname : List UInt8 := []
  pos : UInt32 := 0
  size : ℕ := 0
  pfd : ℤ := 0
  pfdOffset : ℕ := 0
  deriving DecidableEq

/-- A descriptor table. `files_table` and `fd_list` have five entries, and only for their
numbers is this the table of the source: an index outside has an entry of its own here, where
C comes upon what lies beside the array. `Io.touched` records every index. -/
abbrev FdTable := ℤ → FileDescriptor

inductive ProcState where
  | READY | WAIT | RUNNING | SLEEP
  deriving DecidableEq

/-- `ProcessDesc` without its `files_table`, which is `Io.filesTable`. -/
structure ProcessDesc where
  pid : ℕ := 0
  name : List UInt8 := []
  ss : ℕ := 0
  ds : ℕ := 0
  cs : ℕ := 0
  ip : ℕ := 0
  ppid : ℕ := 0
  size : ℕ := 0
  state : ProcState := .READY
  deriving DecidableEq

structure MemSeg where
  used : ℕ := 0
  address : ℕ := 0
  deriving DecidableEq

/-- The packed boot sector, with the fields of the parameter block that are read. -/
structure Fat16BootSector where
  sectorSize : ℕ := 0
  sectorsPerCluster : ℕ := 0
  reservedSectors : ℕ := 0
  numberOfFats : ℕ := 0
  rootDirEntries : ℕ := 0
  fatSizeSectors : ℕ := 0
  deriving DecidableEq

def Fat16BootSector.ofBytes (b : List UInt8) : Fat16BootSector where
  sectorSize := ofLE (slice b 11 2)
  sectorsPerCluster := ofLE (slice b 13 1)
  reservedSectors := ofLE (slice b 14 2)
  numberOfFats := ofLE (slice b 16 1)
  rootDirEntries := ofLE (slice b 17 2)
  fatSizeSectors := ofLE (slice b 22 2)

structure Fat16Entry where
  filename : List UInt8
  ext : List UInt8
  attributes : UInt8
  reserved : List UInt8
  modifyTime : ℕ
  modifyDate : ℕ
  startingCluster : ℕ
  fileSize : ℕ
  deriving DecidableEq

def Fat16Entry.ofBytes (b : List UInt8) : Fat16Entry where
  filename := slice b 0 8
  ext := slice b 8 3
  attributes := b.getD 11 0
  reserved := slice b 12 10
  modifyTime := ofLE (slice b 22 2)
  modifyDate := ofLE (slice b 24 2)
  startingCluster := ofLE (slice b 26 2)
  fileSize := ofLE (slice b 28 4)

structure SectionPositions where
  fatSectionStart : ℕ := 0
  dataSectionStart : ℕ := 0
  rootDirectoryStart : ℕ := 0
  deriving DecidableEq

structure FileAttrib where
  readOnly : UInt8
  hidden : UInt8
  systemFile : UInt8
  volumeLabel : UInt8
  subdirectory : UInt8
  archive : UInt8

inductive EntryType where
  | TYPE_VFAT | TYPE_DELETED | TYPE_NONE | TYPE_VOLLABEL | TYPE_FILE
  deriving DecidableEq

/-- `SYSCALL_PARAM`: 512 bytes of data and 64 of metadata. -/
structure SyscallParam where
  bytes : List UInt8
  length_eq : bytes.length = SYSCALL_BUF_SIZE
  deriving DecidableEq

namespace SyscallParam

@[ext] theorem ext {p q : SyscallParam} (h : p.bytes = q.bytes) : p = q := by
  cases p
  cases q
  cases h
  rfl

def zero : SyscallParam := ⟨List.replicate SYSCALL_BUF_SIZE 0, List.length_replicate⟩

def ofBytes (bytes : List UInt8) : Option SyscallParam :=
  if h : bytes.length = SYSCALL_BUF_SIZE then some ⟨bytes, h⟩ else none

def write (p : SyscallParam) (off : ℕ) (bs : List UInt8) : Option SyscallParam :=
  if h : off + bs.length ≤ SYSCALL_BUF_SIZE then
    some ⟨overwrite p.bytes off bs, by rw [length_overwrite (by rw [p.length_eq]; exact h), p.length_eq]⟩
  else none

def int (p : SyscallParam) (off : ℕ) : UInt32 := UInt32.ofNat (ofLE (slice p.bytes off 4))

def setInt (p : SyscallParam) (off : ℕ) (v : UInt32) (h : off + 4 ≤ SYSCALL_BUF_SIZE := by decide) :
    SyscallParam :=
  ⟨overwrite p.bytes off (toLE 4 v.toNat), by
    rw [length_overwrite (by rw [p.length_eq, length_toLE]; exact h), p.length_eq]⟩

/-! `SYSCALL_STREAM_METADATA`: `size`, `fd` and `offset` follow the data. -/

def size (p : SyscallParam) : UInt32 := p.int 512
def fd (p : SyscallParam) : Int32 := (p.int 516).toInt32
def offset (p : SyscallParam) : UInt32 := p.int 520
def setSize (p : SyscallParam) (v : UInt32) : SyscallParam := p.setInt 512 v
def setFd (p : SyscallParam) (v : Int32) : SyscallParam := p.setInt 516 v.toUInt32
def setOffset (p : SyscallParam) (v : UInt32) : SyscallParam := p.setInt 520 v

/-! `SYSCALL_FILE_ENTRY_METADATA`: its one member shares the first metadata word. -/

def setFilesRead (p : SyscallParam) (v : UInt32) : SyscallParam := p.setInt 512 v

end SyscallParam

end RML
