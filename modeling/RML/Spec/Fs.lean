import RML.Spec.Kernio

/-! `fs/msdos/fs.c` and `mount`: the FAT12 volume behind descriptor 4 and the root
directory behind descriptor 5. -/

namespace RML

open Bytes

def fileAttrib (file : Fat16Entry) : FileAttrib where
  readOnly := file.attributes &&& 0x01
  hidden := file.attributes &&& 0x02
  systemFile := file.attributes &&& 0x04
  volumeLabel := file.attributes &&& 0x08
  subdirectory := file.attributes &&& 0x10
  archive := file.attributes &&& 0x20

def getEntryType (entry : Fat16Entry) : EntryType :=
  if entry.filename.getD 0 0 = 0xe5 then .TYPE_DELETED
  else if entry.filename.getD 0 0 = 0x00 then .TYPE_NONE
  else if entry.startingCluster = 0 ∧ entry.reserved.getD 0 0 = 0 ∧ entry.attributes = 0x0f ∧
      entry.filename.getD 0 0 &&& 0x41 = 0x41 then .TYPE_VFAT
  else if (fileAttrib entry).volumeLabel ≠ 0 then .TYPE_VOLLABEL
  else .TYPE_FILE

def trimBlanks (name : List UInt8) : List UInt8 := name.map fun c => if c = 32 then 0 else c

/-- `extract_file_name`: the C strings left in `filename` and `ext`. The copies
run one byte past the field into the next one, which the NUL stored after them
overwrites. -/
def extractFileName (file : Fat16Entry) : Option (List UInt8 × List UInt8) := do
  let filename ← strncpy (file.filename ++ file.ext) 8
  let ext ← strncpy (file.ext ++ [file.attributes]) 3
  some (cstr (trimBlanks (filename.take 8)), cstr (trimBlanks (ext.take 3)))

def getFile : List Fat16Entry → List UInt8 → Option (Option Fat16Entry)
  | [], _ => some none
  | entry :: fileList, name =>
    if getEntryType entry = .TYPE_FILE then do
      let (filename, _) ← extractFileName entry
      if strcmp filename name = 0 then some (some entry) else getFile fileList name
    else getFile fileList name

namespace Io

/-- `read_boot_sector`; `none` when `sector_size` is 0 and the division traps. -/
def readBootSector (env : Env) (amb : Ambient) (io : Io) : Option Io := do
  let r ← (io.lseek 4 0 0).read env amb amb.fuel 4 512 0
  let bs := Fat16BootSector.ofBytes (amb.fill 512 r.bytes)
  if bs.sectorSize = 0 then none else
  let rootSectors := bs.rootDirEntries * 32 / bs.sectorSize
  let fatStart := wrap (bs.sectorSize * bs.reservedSectors)
  let rootStart := wrap (fatStart + bs.sectorSize * bs.fatSizeSectors * bs.numberOfFats)
  some { r.io with
    bs := bs
    sPos := ⟨fatStart, wrap (rootStart + bs.sectorSize * rootSectors), rootStart⟩ }

/-- `read_fat` into the 1024 bytes of `fat_table`; `none` when it overruns them. -/
def readFat (env : Env) (amb : Ambient) (io : Io) : Option Io := do
  let r ← (io.lseek 4 io.sPos.fatSectionStart 0).read env amb amb.fuel 4
    (io.bs.numberOfFats * io.bs.fatSizeSectors) 0
  if 1024 < r.bytes.length then none else some r.io

/-- `mount`; any file name but `/dev/fdb` mounts nothing. -/
def mount (env : Env) (amb : Ambient) (io : Io) (filename : List UInt8) : Option Io :=
  if strcmp filename (ascii "/dev/fdb") = 0 then do
    let io := (io.openFd (ascii "/dev/fdb") 0).2
    let io ← io.readBootSector env amb
    let io ← io.readFat env amb
    some (io.openFd (ascii "/") 0).2
  else some io

def clusterSize (io : Io) : ℕ := io.bs.sectorSize * io.bs.sectorsPerCluster

def readCluster (env : Env) (amb : Ambient) (io : Io) (clusterNum : ℕ) :
    Option (List UInt8 × Io) := do
  let seekPos := wrap (io.sPos.dataSectionStart + io.clusterSize * wrap (clusterNum + 2 ^ 32 - 2))
  let r ← (io.lseek 4 seekPos 0).read env amb amb.fuel 4 io.clusterSize 0
  some (r.bytes, r.io)

/-- `get_next_cluster`: two bytes of the table in the low half of `*next_cluster`. -/
def getNextCluster (env : Env) (amb : Ambient) (io : Io) (currCluster : ℕ) : Option (ℕ × Io) := do
  let clusterEntry := wrap (currCluster + currCluster / 2)
  let r ← (io.lseek 4 (wrap (io.sPos.fatSectionStart + clusterEntry)) 0).read env amb amb.fuel 4 2 0
  let nextCluster := ofLE r.bytes
  some (if currCluster &&& 0x0001 ≠ 0 then nextCluster >>> 4 else nextCluster &&& 0x0FFF, r.io)

/-- The do-while of `load_file_content`. `clustBuf` is the 4096-byte local: a
cluster of another size leaves its tail alone or overruns it, which is `none`. -/
def loadLoop (env : Env) (amb : Ambient) (segment : ℕ) :
    ℕ → Io → (ℕ → UInt8) → List UInt8 → ℕ → ℕ → Option (Io × (ℕ → UInt8))
  | 0, _, _, _, _, _ => none
  | fuel + 1, io, mem, clustBuf, offset, currCluster => do
    let (bytes, io) ← io.readCluster env amb currCluster
    if 4096 < bytes.length then none else
    let clustBuf := overwrite clustBuf 0 bytes
    let mem := loadToMemory mem segment offset clustBuf 4096
    let (nextCluster, io) ← io.getNextCluster env amb currCluster
    if nextCluster < 0x0FF8 then
      loadLoop env amb segment fuel io mem clustBuf (wrap (offset + 4096)) nextCluster
    else some (io, mem)

def loadFileContent (env : Env) (amb : Ambient) (io : Io) (mem : ℕ → UInt8) (file : Fat16Entry)
    (segment offset : ℕ) : Option (Io × (ℕ → UInt8)) :=
  loadLoop env amb segment amb.fuel io mem (amb.fill 4096 []) offset file.startingCluster

def rootFilesLoop (env : Env) (amb : Ambient) : ℕ → ℕ → Io → Option (List Fat16Entry × Io)
  | 0, _, io => some ([], io)
  | n + 1, i, io => do
    let number ← uitoa i
    let io := io.printk (ascii "reading entry number " ++ number ++ ascii "\r\n")
    let io := if i = 223 then io.printk (ascii "entry 223\r\n") else io
    let r ← io.read env amb amb.fuel 5 32 0
    let (files, io) ← rootFilesLoop env amb n (i + 1) r.io
    some (Fat16Entry.ofBytes (amb.fill 32 r.bytes) :: files, io)

def getRootFiles (env : Env) (amb : Ambient) (io : Io) : Option (List Fat16Entry × Io) := do
  let number ← uitoa io.bs.rootDirEntries
  let io := (io.lseek 5 0 0).printk
    (ascii "reading root directory\r\nroot directory entries:" ++ number ++ ascii "\r\n")
  rootFilesLoop env amb io.bs.rootDirEntries 0 io

/-- `get_root_next_file`; an inner `none` is its -1. -/
def getRootNextFile (env : Env) (amb : Ambient) (io : Io) : Option (Option Fat16Entry × Io) :=
  let io := { io with touched := io.touched ++ [(0, 5)] }
  if wrap ((io.fdList 5).pos.toNat + 32) ≤ io.bs.rootDirEntries * 32 then do
    let r ← io.read env amb amb.fuel 5 32 0
    some (some (Fat16Entry.ofBytes (amb.fill 32 r.bytes)), r.io)
  else some (none, io)

end Io

/-- The members of `buf[files_read]` that `list_root_files` sets: the offsets are
those of a `SYSCALL_FILE_ENTRY` of 28 bytes, whose other bytes stay as they are. -/
def putFileEntry (buf : List UInt8) (filesRead : ℕ) (file : Fat16Entry)
    (name ext : List UInt8) : Option (List UInt8) := do
  let base := 28 * filesRead
  let attrib := fileAttrib file
  let b ← store buf (base + 13) [if attrib.subdirectory ≠ 0 then 1 else 0]
  let b ← store b (base + 14) [if attrib.readOnly ≠ 0 then 1 else 0]
  let b ← store b (base + 16) (toLE 4 file.fileSize)
  let b ← store b (base + 20) [UInt8.ofNat (file.modifyDate &&& 0x001F)]
  let b ← store b (base + 21) [UInt8.ofNat ((file.modifyDate &&& 0x01E0) >>> 5)]
  let b ← store b (base + 22) (toLE 2 (((file.modifyDate &&& 0xFE00) >>> 9) + 1980))
  let b ← store b (base + 26) [UInt8.ofNat ((file.modifyTime &&& 0xF800) >>> 11)]
  let b ← store b (base + 25) [UInt8.ofNat ((file.modifyTime &&& 0x07E0) >>> 5)]
  let b ← store b (base + 24) [UInt8.ofNat ((file.modifyTime &&& 0x001F) * 2)]
  let b ← store b base (name ++ [0])
  store b (base + 9) (ext ++ [0])

namespace Io

def listLoop (env : Env) (amb : Ambient) :
    ℕ → Io → List UInt8 → ℕ → ℕ → Option (ℕ × List UInt8 × Io)
  | 0, _, _, _, _ => none
  | fuel + 1, io, buf, filesRead, room =>
    if room = 0 then some (filesRead, buf, io) else do
    let (next, io) ← io.getRootNextFile env amb
    match next with
    | none => some (filesRead, buf, io)
    | some file =>
      if getEntryType file ≠ .TYPE_FILE then listLoop env amb fuel io buf filesRead room
      else if file.filename.getD 0 0 = 0xe5 then listLoop env amb fuel io buf filesRead room
      else if file.filename.getD 0 0 = 0x00 then some (filesRead, buf, io)
      else do
        let (name, ext) ← extractFileName file
        let buf ← putFileEntry buf filesRead file name ext
        listLoop env amb fuel io buf (filesRead + 1) (room - 1)

def listRootFiles (env : Env) (amb : Ambient) (io : Io) (bufSize : ℕ) (buf : List UInt8) :
    Option (ℕ × List UInt8 × Io) :=
  listLoop env amb amb.fuel io buf 0 (bufSize / 28)

end Io

end RML
