import RML.Spec.Stdio

/-! `utils/shell.c` and `utils/ls.c`: the line editor of the shell, and the texts that
the two programs hand to `printf` as templates. -/

namespace RML

open Bytes

/-- `printf` of a template; `ap` is what the stack holds behind it. -/
def printf (format : List UInt8) (ap : List PrintfArg) : Option Printed :=
  vfprintfStream 1 (format.length + 1) format ap

/-- `buf[50]` of `shell`, its index, and what it has echoed. Offsets count from the
start of the buffer and may leave it. -/
structure ShellLine where
  buf : ℤ → UInt8
  i : ℤ
  echo : List UInt8 := []

namespace ShellLine

def size : ℤ := 50

def key (s : ShellLine) (c : UInt8) : ShellLine :=
  if c = 8 ∧ s.i = 0 then s
  else if c = 8 then { s with i := s.i - 1, echo := s.echo ++ [c, 32, c] }
  else { buf := Function.update s.buf s.i c, i := s.i + 1, echo := s.echo ++ [c] }

/-- The inner loop on the keys that are still to come, through Enter; `none` when it
waits for another one. -/
def loop : List UInt8 → ShellLine → Option (ShellLine × List UInt8)
  | [], _ => none
  | c :: keys, s => if c = 13 then some (s, keys) else loop keys (s.key c)

def terminate (s : ShellLine) : ShellLine := { s with buf := Function.update s.buf s.i 0 }

end ShellLine

def shellLine (buf : ℤ → UInt8) (keys : List UInt8) : Option (ShellLine × List UInt8) := do
  let (s, keys) ← ShellLine.loop keys ⟨buf, 0, []⟩
  some (s.terminate, keys)

inductive ShellCommand where
  | syscall | aaa | bbb | ccc | halt | reboot | exit | date | system
  deriving DecidableEq

def shellCommand (buf : List UInt8) : ShellCommand :=
  if strcmp buf (ascii "syscall") = 0 then .syscall
  else if strcmp buf (ascii "aaa") = 0 then .aaa
  else if strcmp buf (ascii "bbb") = 0 then .bbb
  else if strcmp buf (ascii "ccc") = 0 then .ccc
  else if strcmp buf (ascii "halt") = 0 then .halt
  else if strcmp buf (ascii "reboot") = 0 then .reboot
  else if strcmp buf (ascii "exit") = 0 then .exit
  else if strcmp buf (ascii "date") = 0 then .date
  else .system

/-- The last branch: the templates of `printf` after `system(buf)` returned `retcode`. -/
def shellSystem (buf : List UInt8) (retcode : Int32) : List (List UInt8) :=
  if retcode ≠ 0 then [buf, ascii ": command not found"] else []

def ultoa (i : ℕ) : List UInt8 := itoaLoop 10 i []

def itoaChar (c : UInt8) : Option (List UInt8) := itoa c.toInt8.toInt32

def monthText (month : UInt8) : List UInt8 :=
  match month.toNat with
  | 1 => ascii "Jan"
  | 2 => ascii "Feb"
  | 3 => ascii "Mar"
  | 4 => ascii "Apr"
  | 5 => ascii "May"
  | 6 => ascii "Jun"
  | 7 => ascii "Jul"
  | 8 => ascii "Aug"
  | 9 => ascii "Sep"
  | 10 => ascii "Oct"
  | 11 => ascii "Nov"
  | 12 => ascii "Dec"
  | _ => ascii "   "

def FILE_OUT_LIST : UInt32 := 0
def FILE_OUT_WIDE : UInt32 := 1

/-- `curr_entry->name` and `curr_entry->ext` of record `i`. -/
def entryName (buf : List UInt8) (i : ℕ) : List UInt8 := cstr (buf.drop (28 * i))
def entryExt (buf : List UInt8) (i : ℕ) : List UInt8 := cstr (buf.drop (28 * i + 9))

def lsName (buf : List UInt8) (i : ℕ) : List (List UInt8) := [entryName buf i, ascii ".", entryExt buf i]

/-- The templates of a round of `main` in `ls`. Nothing sets `out_format`. -/
def lsRow (outFormat : UInt32) (buf : List UInt8) (i : ℕ) : Option (List (List UInt8)) :=
  let char (off : ℕ) : UInt8 := buf.getD (28 * i + off) 0
  if outFormat = FILE_OUT_WIDE then some (lsName buf i ++ [ascii " ", ascii "   "])
  else if outFormat = FILE_OUT_LIST then do
    let day ← itoaChar (char 20)
    let hours ← itoaChar (char 26)
    let minutes ← itoaChar (char 25)
    let mode := [ascii "r", if char 14 ≠ 0 then ascii "-" else ascii "w", ascii "x"]
    some ([if char 13 ≠ 0 then ascii "d" else ascii "-"] ++ mode ++ mode ++ mode ++
      [ascii " root root ", ultoa (ofLE (slice buf (28 * i + 16) 4)), ascii " ",
        monthText (char 21), ascii " ", day, ascii " ", hours, ascii ":", minutes, ascii " "] ++
      lsName buf i ++ [ascii "\r\n"])
  else some []

def lsLoop (outFormat : UInt32) (buf : List UInt8) : ℕ → ℕ → ℕ → Option (List (List UInt8))
  | 0, _, total => some [ascii "total ", ultoa total, ascii "\r\n"]
  | files + 1, i, total => do
    let row ← lsRow outFormat buf i
    let rest ← lsLoop outFormat buf files (i + 1) (wrap (total + ofLE (slice buf (28 * i + 16) 4)))
    some (row ++ rest)

/-- `main` of `ls` with the records that `list_root_files` has put into `buf`. -/
def lsMain (outFormat : UInt32) (buf : List UInt8) (files : ℕ) : Option (List (List UInt8)) :=
  lsLoop outFormat buf files 0 0

end RML
