import RML.Proofs.Transport
import RML.Spec.Utils
import RML.Lib.ArrayStack
import Mathlib.Data.List.Infix

/-! The line editor of the shell: its buffer is a stack of characters without a bound
check, so that it holds the edited line as long as that fits with its NUL. -/

namespace RML

open ArrayStack Bytes

namespace User

variable {env : Env} {s : User} {amb : Ambient}

theorem getchar_key (hreach : Sys.Reachable env s.sys) (hlive : s.sys.frames ≠ [])
    (hfuel : 1 ≤ amb.fuel) : ∃ s', Call env s (.myread 0 1) s' ∧
      s'.myreadBuf 1 = some [env.key s.sys.kernel.io.keys] ∧
      s'.sys.kernel.io.keys = s.sys.kernel.io.keys + 1 := by
  obtain ⟨fuel, hfuel'⟩ : ∃ n, amb.fuel = n + 1 := ⟨amb.fuel - 1, by omega⟩
  let q := (s.sysparam.setFd 0).setSize 1
  let io := (Sys.entered s.sys.kernel q).io
  have hw : io.Wired := (Sys.settled_reachable hreach).io.congr rfl
  have hcall : FileCall.ofParams 13 q = some (.read 0 1) := by
    rw [FileCall.ofParams, SyscallParam.fd_setSize, SyscallParam.fd_setFd, SyscallParam.size_setSize]
    rfl
  obtain ⟨io', hread, hkeys⟩ : ∃ io', io.read env amb amb.fuel 0 1 s.sys.kernel.sched.runningProc =
      some ⟨[env.key io.keys], 0, io'⟩ ∧ io'.keys = io.keys + 1 := by
    rw [hfuel', Io.read]
    simp only [hw.stdin]
    exact ⟨_, rfl, rfl⟩
  have hexec : io.exec env amb s.sys.kernel.sched.runningProc q (.read 0 1) =
      some (.stored [env.key io.keys], io') := by
    simp only [Io.exec, hread, Option.bind_eq_bind, Option.bind_some]
  have hone : 0 + [env.key io.keys].length ≤ SYSCALL_BUF_SIZE := by
    rw [List.length_singleton]
    decide
  obtain ⟨p, hp, hbytes⟩ := SyscallParam.write_eq_some q hone
  refine ⟨⟨_, p⟩, ⟨q, rfl, .reply (Sys.step_fileCall hlive hcall hexec hp)⟩, ?_, hkeys⟩
  rw [myreadBuf, SyscallParam.memcpyOut, hbytes]
  rfl

end User

/-- What a key makes of the line typed so far. -/
def edit (line : List UInt8) (c : UInt8) : List UInt8 :=
  if c = 8 then line.dropLast else line ++ [c]

def edited (keys : List UInt8) : List UInt8 := keys.foldl edit []

namespace ShellLine

def Inside (s : ShellLine) : Prop := 0 ≤ s.i ∧ s.i < size

/-- One key does to the buffer what it does to the line. -/
theorem holds_key {s : ShellLine} {line : List UInt8} (h : Holds s.buf s.i line) (c : UInt8) :
    Holds (s.key c).buf (s.key c).i (edit line c) := by
  unfold key edit
  by_cases hback : c = 8
  · by_cases hstart : s.i = 0
    · rw [if_pos ⟨hback, hstart⟩, if_pos hback, h.eq_zero_iff.mp hstart]
      rwa [h.eq_zero_iff.mp hstart] at h
    · rw [if_neg fun hand => hstart hand.2, if_pos hback, if_pos hback]
      exact h.pop (mt h.eq_zero_iff.mpr hstart)
  · rw [if_neg fun hand => hback hand.1, if_neg hback, if_neg hback]
    exact h.push c

theorem holds_keys {s : ShellLine} {line : List UInt8} (h : Holds s.buf s.i line)
    (keys : List UInt8) :
    Holds (keys.foldl key s).buf (keys.foldl key s).i (keys.foldl edit line) := by
  induction keys generalizing s line with
  | nil => exact h
  | cons c keys ih => exact ih (holds_key h c)

theorem loop_enter {keys : List UInt8} (h : (13 : UInt8) ∉ keys) (s : ShellLine)
    (rest : List UInt8) : loop (keys ++ 13 :: rest) s = some (keys.foldl key s, rest) := by
  induction keys generalizing s with
  | nil => rfl
  | cons c keys ih =>
    rw [List.mem_cons, not_or] at h
    rw [List.cons_append, loop, if_neg (Ne.symm h.1), ih h.2, List.foldl_cons]

/-- `line` and its NUL are at the start of the buffer. -/
def Reads (s : ShellLine) (line : List UInt8) : Prop :=
  ∀ (k : ℕ) (h : k < (line ++ [0]).length), s.buf k = (line ++ [0])[k]

theorem reads_terminate {s : ShellLine} {line : List UInt8} (h : Holds s.buf s.i line) :
    s.terminate.Reads line := by
  intro k hk
  exact (h.push 0).elems k hk

end ShellLine

/-- The loop on these keys and Enter: the index is in the buffer before the first key and
after every one, and the buffer ends up with the edited line. -/
def EditsLine (buf : ℤ → UInt8) (keys rest : List UInt8) : Prop :=
  (∀ typed, typed <+: keys → (typed.foldl ShellLine.key ⟨buf, 0, []⟩).Inside) ∧
    ∃ s, shellLine buf (keys ++ 13 :: rest) = some (s, rest) ∧ s.Reads (edited keys)

/-- The loop edits its line exactly when the line never has more than 49 characters. -/
theorem shell_line_iff (buf : ℤ → UInt8) {keys : List UInt8} (h : (13 : UInt8) ∉ keys)
    (rest : List UInt8) :
    EditsLine buf keys rest ↔ ∀ typed, typed <+: keys → (edited typed).length ≤ 49 := by
  have hholds : ∀ typed : List UInt8,
      Holds (typed.foldl ShellLine.key ⟨buf, 0, []⟩).buf
        (typed.foldl ShellLine.key ⟨buf, 0, []⟩).i (edited typed) :=
    fun typed => ShellLine.holds_keys (Holds.nil buf) typed
  have hinside : ∀ typed : List UInt8,
      (typed.foldl ShellLine.key ⟨buf, 0, []⟩).Inside ↔ (edited typed).length ≤ 49 := by
    intro typed
    rw [ShellLine.Inside, ShellLine.size, (hholds typed).index]
    omega
  constructor
  · rintro ⟨hindex, -⟩ typed htyped
    exact (hinside typed).mp (hindex typed htyped)
  · intro hfits
    refine ⟨fun typed htyped => (hinside typed).mpr (hfits typed htyped), _, ?_,
      ShellLine.reads_terminate (hholds keys)⟩
    rw [shellLine, ShellLine.loop_enter h]
    rfl

theorem shell_line_iff_ls : EditsLine (fun _ => 0) [108, 120, 8, 115] [] := by
  refine (shell_line_iff _ (by decide) []).mpr ?_
  intro typed htyped
  rw [← List.mem_inits] at htyped
  revert typed
  decide

/-- Fifty characters: the index leaves the buffer, and the NUL is stored behind it. -/
theorem shell_line_overrun :
    ¬ ∀ buf keys rest, (13 : UInt8) ∉ keys → EditsLine buf keys rest := by
  intro h
  obtain ⟨hindex, -⟩ := h (fun _ => 0) (List.replicate 50 97) [] (by decide)
  have hlast := (hindex _ (List.prefix_refl _)).2
  revert hlast
  decide

end RML
