import RML.Lib.Walk
import RML.Proofs.Processes
import RML.Proofs.Startup

/-! The descent of `read` through `pfd`. It ends when following the parents in the kernel's
table does, and whatever the processes ask for, that takes one step at most. -/

namespace RML

open Bytes Transition

def FileCall.fd? : FileCall → Option ℤ
  | .list => none
  | .open _ => none
  | .close fd => some fd
  | .lseek fd _ => some fd
  | .read fd _ => some fd
  | .write fd _ => some fd

/-- A system call, with the process that makes it and the buffer it passes. -/
structure ProcessCall where
  amb : Ambient
  pid : ℕ
  service : ℕ
  request : SyscallParam

namespace Io

variable {env : Env} {amb : Ambient} {io io' : Io} {pid fuel count : ℕ} {fd : ℤ}

def parent (io : Io) (fd : ℤ) : ℤ := (io.fdList fd).pfd

/-- One of the calls 9 to 14, by any process, on one of the descriptors 0 to 5. -/
def ProcessStep (env : Env) (io : Io) (c : ProcessCall) (io' : Io) : Prop :=
  1 ≤ c.pid ∧ c.pid ≤ NUM_PROCESSES ∧ ∃ call r, FileCall.ofParams c.service c.request = some call ∧
    (∀ fd, call.fd? = some fd → 0 ≤ fd ∧ fd ≤ 5) ∧
    ({ io with touched := [] } : Io).exec env c.amb c.pid c.request call = some (r, io')

theorem parent_lseek (io : Io) (fd : ℤ) (offset pid : ℕ) :
    (io.lseek fd offset pid).parent = io.parent :=
  funext fun i => (seeks_lseek io fd offset pid).pfd i

/-- `read` ends with so much fuel exactly when the walk through `pfd` does. -/
theorem read_ends_iff : (∃ r, io.read env amb fuel fd count pid = some r) ↔
    Walk.EndsWithin io.parent (· = -1) fuel fd := by
  induction fuel generalizing io fd pid with
  | zero => simp [read, Walk.EndsWithin]
  | succ fuel ih =>
    rw [Walk.EndsWithin]
    by_cases hpfd : (io.fdList fd).pfd = -1
    · exact iff_of_true (read_device hpfd) (Or.inl hpfd)
    · have hnext : (∃ r, (io.lseek (io.fdList fd).pfd
          (wrap ((io.fdList fd).pfdOffset + (io.fdList fd).pos.toNat)) pid).read env amb fuel
            (io.fdList fd).pfd count 0 = some r) ↔
          Walk.EndsWithin (io.lseek _ _ pid).parent (· = -1) fuel (io.fdList fd).pfd := ih
      rw [parent_lseek] at hnext
      have hgo : io.parent fd ≠ -1 := hpfd
      rw [or_iff_right hgo, parent, ← hnext]
      simp only [read, ne_eq, hpfd, not_false_eq_true, if_true, Option.bind_eq_bind,
        Option.bind_eq_some_iff, Option.some.injEq]
      constructor
      · rintro ⟨r, r', hr', -⟩
        exact ⟨r', hr'⟩
      · rintro ⟨r', hr'⟩
        exact ⟨_, r', hr', rfl⟩

theorem read_of_le {r : ReadResult} {fuel' : ℕ} (h : io.read env amb fuel fd count pid = some r)
    (hle : fuel ≤ fuel') : io.read env amb fuel' fd count pid = some r := by
  induction fuel generalizing fuel' io fd pid r with
  | zero => cases h
  | succ fuel ih =>
    obtain ⟨fuel', rfl⟩ : ∃ n, fuel' = n + 1 := ⟨fuel' - 1, by omega⟩
    rw [read] at h ⊢
    by_cases hpfd : (io.fdList fd).pfd = -1
    · simp only [hpfd, ne_eq, not_true_eq_false, if_false] at h ⊢
      exact h
    · simp only [hpfd, ne_eq, not_false_eq_true, if_true, Option.bind_eq_bind,
        Option.bind_eq_some_iff] at h ⊢
      obtain ⟨r', hr', heq⟩ := h
      exact ⟨r', ih hr' (Nat.le_of_succ_le_succ hle), heq⟩

theorem Wired.parent_parent (hw : Wired io) (h : io.parent fd ≠ -1) :
    (io.parent fd = 0 ∨ io.parent fd = 4) ∧ io.parent (io.parent fd) = -1 := by
  rcases (hw.targets fd).resolve_left h with h0 | h4
  · exact ⟨Or.inl h0, (congrArg io.parent h0).trans hw.stdin⟩
  · exact ⟨Or.inr h4, (congrArg io.parent h4).trans hw.disk⟩

theorem Wired.endsWithin (hw : Wired io) (fd : ℤ) :
    Walk.EndsWithin io.parent (· = -1) 2 fd := by
  by_cases h : io.parent fd = -1
  · exact Or.inl h
  · exact Or.inr (Or.inl (hw.parent_parent h).2)

theorem read_total (hw : Wired io) (fuel : ℕ) (fd : ℤ) (count pid : ℕ) :
    ∃ r, io.read env amb (fuel + 2) fd count pid = some r := by
  obtain ⟨r, hr⟩ : ∃ r, io.read env amb 2 fd count pid = some r :=
    read_ends_iff.mpr (hw.endsWithin fd)
  exact ⟨r, read_of_le hr (Nat.le_add_left 2 fuel)⟩

theorem Stable.processStep {P : Io → Prop} (hP : Stable P) (io : Io) (c : ProcessCall) (io' : Io)
    (hio : P io) (h : ProcessStep env io c io') : P io' := by
  obtain ⟨hpid, -, call, r, -, -, hexec⟩ := h
  exact (hP.forCaller (Nat.one_le_iff_ne_zero.mp hpid)).exec (hP.entered hio) hexec

end Io

namespace Sys

variable {env : Env} {m : Sys} {cs : List ProcessCall} {io : Io} {fd : ℤ}

/-- From what any run of the system has left, through calls of any processes, the walk up
from a descriptor of the kernel is over after one step, and `read` returns. -/
theorem descent_ends (hreach : Reachable env m)
    (hrun : Run (Io.ProcessStep env) m.kernel.io cs io) (h0 : 0 ≤ fd) (h5 : fd ≤ 5) :
    (∃ k ≤ 1, io.parent (io.parent^[k] fd) = -1 ∧
      ∀ j ≤ k, 0 ≤ io.parent^[j] fd ∧ io.parent^[j] fd ≤ 5) ∧
    ∀ amb count pid, ∃ r, ∀ fuel, 2 ≤ fuel → io.read env amb fuel fd count pid = some r := by
  have hw : io.Wired :=
    hrun.invariant Io.Wired Io.stable_wired.processStep (settled_reachable hreach).io
  constructor
  · by_cases h : io.parent fd = -1
    · refine ⟨0, Nat.zero_le 1, h, fun j hj => ?_⟩
      obtain rfl := Nat.le_zero.mp hj
      exact ⟨h0, h5⟩
    · obtain ⟨htarget, hdevice⟩ := hw.parent_parent h
      refine ⟨1, le_rfl, hdevice, fun j hj => ?_⟩
      cases j with
      | zero => exact ⟨h0, h5⟩
      | succ j =>
        obtain rfl : j = 0 := by omega
        rw [Function.iterate_one]
        omega
  · intro amb count pid
    obtain ⟨r, hr⟩ : ∃ r, io.read env amb 2 fd count pid = some r := Io.read_total hw 0 fd count pid
    exact ⟨r, fun fuel hfuel => Io.read_of_le hr hfuel⟩

def closeStdin : ProcessCall := ⟨calm, 1, 11, SyscallParam.zero⟩

theorem descent_ends_closeStdin : ∃ io, Run (Io.ProcessStep (.ofVolume floppy)) booted.kernel.io
    [closeStdin] io ∧ ∃ r, ∀ fuel, 2 ≤ fuel → io.read (.ofVolume floppy) calm fuel 0 1 1 = some r := by
  have hcall : FileCall.ofParams 11 .zero = some (.close 0) := by decide +kernel
  have hrange : ∀ fd, (FileCall.close 0).fd? = some fd → 0 ≤ fd ∧ fd ≤ 5 := by
    rintro _ ⟨⟩
    decide
  have hrun : Run (Io.ProcessStep (.ofVolume floppy)) booted.kernel.io [closeStdin]
      (({ booted.kernel.io with touched := [] } : Io).close 0 1) :=
    .single ⟨by decide, by decide, _, .nothing, hcall, hrange, rfl⟩
  exact ⟨_, hrun,
    (descent_ends ⟨booted, [], boot_booted, .nil _⟩ hrun (by decide) (by decide)).2 calm 1 1⟩

end Sys

end RML
