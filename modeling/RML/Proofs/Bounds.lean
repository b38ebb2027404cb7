import RML.Proofs.Startup
import RML.Proofs.Processes

/-! Which entries of the descriptor tables the calls 9 to 14 touch. The tables have
five; `open` gives the root directory the sixth, and no call checks an `fd`. -/

namespace RML

open Bytes Transition

/-- Accesses within the five entries of the kernel's table and of the caller's. -/
def InTables (pid : ℕ) (touched : List (ℕ × ℤ)) : Prop :=
  ∀ x ∈ touched, (x.1 = 0 ∨ x.1 = pid) ∧ 0 ≤ x.2 ∧ x.2 < NUM_FILES

/-- The root directory is not opened, and a descriptor that is used is one of the five. -/
def FileCall.InRange : FileCall → Prop
  | .list => False
  | .open pathname => pathname ≠ ascii "/"
  | .close fd => 0 ≤ fd ∧ fd < NUM_FILES
  | .lseek fd _ => 0 ≤ fd ∧ fd < NUM_FILES
  | .read fd _ => 0 ≤ fd ∧ fd < NUM_FILES
  | .write _ _ => True

namespace Io

variable {env : Env} {amb : Ambient} {io io' : Io} {pid : ℕ} {fd : ℤ}

theorem read_touched {fuel count : ℕ} {r : ReadResult} (hw : Wired io)
    (h : io.read env amb fuel fd count pid = some r) :
    (0, fd) ∈ r.io.touched ∧ ∀ x ∈ r.io.touched,
      x ∈ io.touched ∨ (x.1 = 0 ∨ x.1 = pid) ∧ (x.2 = fd ∨ x.2 = 0 ∨ x.2 = 4) := by
  induction fuel generalizing io fd pid r with
  | zero => simp [read] at h
  | succ fuel ih =>
    obtain ⟨r', rfl, hcases⟩ := read_cases h
    have hinner : ∀ x ∈ r'.io.touched,
        x ∈ io.touched ∨ (x.1 = 0 ∨ x.1 = pid) ∧ (x.2 = fd ∨ x.2 = 0 ∨ x.2 = 4) := by
      rcases hcases with ⟨hne, hr'⟩ | ⟨-, -, rfl⟩ | ⟨-, -, rfl⟩ | ⟨-, -, -, rfl⟩
      · have htarget : (io.fdList fd).pfd = 0 ∨ (io.fdList fd).pfd = 4 :=
          (hw.targets fd).resolve_left hne
        intro x hx
        rcases (ih (hw.seeks (seeks_lseek io _ _ pid)) hr').2 x hx with hold | ⟨hown, hfd⟩
        · rw [lseek, update_touched, List.mem_append, List.mem_singleton] at hold
          rcases hold with hold | rfl
          · exact Or.inl hold
          · exact Or.inr ⟨Or.inr rfl, Or.inr htarget⟩
        · refine Or.inr ⟨Or.inl (hown.elim id id), Or.inr ?_⟩
          rcases hfd with hfd | hfd
          · rwa [hfd]
          · exact hfd
      · exact fun x hx => Or.inl hx
      · exact fun x hx => Or.inl hx
      · exact fun x hx => Or.inl hx
    simp only [advance, update_touched, List.mem_append, List.mem_singleton]
    refine ⟨Or.inr trivial, ?_⟩
    rintro x (hx | rfl)
    · exact hinner x hx
    · exact Or.inr ⟨Or.inl rfl, Or.inl rfl⟩

theorem inTables_update (h0 : io.touched = []) (fd : ℤ) (f : FileDescriptor → FileDescriptor) :
    InTables pid (io.update pid fd f).touched ↔ 0 ≤ fd ∧ fd < NUM_FILES := by
  simp [InTables, h0]

theorem others_update (io : Io) (fd : ℤ) (f : FileDescriptor → FileDescriptor) {q : ℕ}
    (hq : pid = 0 ∨ q ≠ pid - 1) : (io.update pid fd f).filesTable q = io.filesTable q := by
  funext i
  rw [update_filesTable, if_neg]
  rintro ⟨hp, heq, -⟩
  exact hq.elim hp fun hne => hne heq

theorem inTables_openFd (h0 : io.touched = []) (pathname : List UInt8) :
    InTables pid (io.openFd pathname pid).2.touched ↔ pathname ≠ ascii "/" := by
  unfold openFd
  simp only [strcmp_eq_zero_iff]
  split_ifs with h1 h2 h3 h4 h5
  all_goals simp only [inTables_update h0]
  · rw [h1]
    decide
  · rw [h2]
    decide
  · rw [h3]
    decide
  · rw [h4]
    decide
  · simp [h5, NUM_FILES]
  · simp [InTables, h0, h5]

theorem others_openFd (io : Io) (pathname : List UInt8) {q : ℕ} (hq : pid = 0 ∨ q ≠ pid - 1) :
    (io.openFd pathname pid).2.filesTable q = io.filesTable q := by
  unfold openFd
  split_ifs <;> first | exact others_update io _ _ hq | rfl

theorem write_untouched (io : Io) (fd : ℤ) (buf : List UInt8) :
    (io.write fd buf).touched = io.touched ∧ (io.write fd buf).filesTable = io.filesTable := by
  unfold write
  split_ifs <;> exact ⟨rfl, rfl⟩

theorem read_inTables_iff {fuel count : ℕ} {r : ReadResult} (hw : Wired io)
    (h0 : io.touched = []) (h : io.read env amb fuel fd count pid = some r) :
    (InTables pid r.io.touched ∧ ∀ q, q ≠ pid - 1 → r.io.filesTable q = io.filesTable q) ↔
      0 ≤ fd ∧ fd < NUM_FILES := by
  obtain ⟨hown, hall⟩ := read_touched hw h
  constructor
  · rintro ⟨htables, -⟩
    exact (htables _ hown).2
  · intro hfd
    refine ⟨?_, fun q hq => (seeks_read h).others q (Or.inr hq)⟩
    intro x hx
    rcases hall x hx with hold | ⟨howner, hindex⟩
    · rw [h0] at hold
      simp at hold
    · refine ⟨howner, ?_⟩
      rcases hindex with heq | heq | heq
      · rwa [heq]
      · rw [heq]
        decide
      · rw [heq]
        decide

theorem list_touched {p : SyscallParam} {r : FileReply}
    (h : io.exec env amb pid p .list = some (r, io')) : (0, 5) ∈ io'.touched := by
  simp only [Io.exec, Option.bind_eq_bind, Option.bind_eq_some_iff, Option.some.injEq] at h
  obtain ⟨⟨filesRead, buf, io₁⟩, hlist, p', -, heq⟩ := h
  cases heq
  have hopened : (0, (5 : ℤ)) ∈ (io.openFd (ascii "/") 0).2.touched := by
    simp [openFd_root]
  have hseek := (seeks_lseek (io.openFd (ascii "/") 0).2 5 0 0).trans (seeks_listLoop hlist)
  exact hseek.touched.subset hopened

theorem exec_inTables_iff {p : SyscallParam} {call : FileCall} {r : FileReply} (hw : Wired io)
    (h0 : io.touched = []) (h : io.exec env amb pid p call = some (r, io')) :
    (InTables pid io'.touched ∧ ∀ q, q ≠ pid - 1 → io'.filesTable q = io.filesTable q) ↔
      call.InRange := by
  have hone : ∀ (fd : ℤ) f, (InTables pid (io.update pid fd f).touched ∧
      ∀ q, q ≠ pid - 1 → (io.update pid fd f).filesTable q = io.filesTable q) ↔
        0 ≤ fd ∧ fd < NUM_FILES := by
    intro fd f
    rw [inTables_update h0]
    exact and_iff_left fun q hq => others_update io fd f (Or.inr hq)
  cases call with
  | list =>
    simp only [FileCall.InRange, iff_false, not_and]
    intro htables
    have hfive := (htables _ (list_touched h)).2.2
    simp [NUM_FILES] at hfive
  | «open» pathname =>
    have hio : (io.openFd pathname pid).2 = io' := (Prod.mk.inj (Option.some.inj h)).2
    subst hio
    rw [inTables_openFd h0]
    exact and_iff_left fun q hq => others_openFd io pathname (Or.inr hq)
  | close fd =>
    cases h
    exact hone fd _
  | lseek fd offset =>
    cases h
    exact hone fd _
  | read fd count =>
    simp only [Io.exec, Option.bind_eq_bind, Option.bind_eq_some_iff, Option.some.injEq] at h
    obtain ⟨r', hr', heq⟩ := h
    cases heq
    exact read_inTables_iff hw h0 hr'
  | write fd count =>
    simp only [Io.exec] at h
    split at h
    · simp at h
    · cases h
      simp only [FileCall.InRange, iff_true]
      rw [(write_untouched io fd _).1, (write_untouched io fd _).2, h0]
      exact ⟨by simp [InTables], fun q _ => rfl⟩

end Io

namespace Sys

variable {env : Env} {m : Sys} {amb : Ambient} {request : SyscallParam} {call : FileCall}
  {r : FileReply} {io' : Io}

/-- In every reachable state, a call of the running process stays in the tables and
out of the other processes exactly when it does not open the root directory and
its descriptor, if it uses one, is one of the five. -/
theorem descriptor_bounds_iff (hreach : Reachable env m)
    (h : (entered m.kernel request).io.exec env amb m.kernel.sched.runningProc request call =
      some (r, io')) :
    (InTables m.kernel.sched.runningProc io'.touched ∧
        ∀ q, q ≠ m.kernel.sched.runningProc - 1 →
          io'.filesTable q = m.kernel.io.filesTable q) ↔
      call.InRange := by
  have hw : (entered m.kernel request).io.Wired := (settled_reachable hreach).io.congr rfl
  have hiff := Io.exec_inTables_iff hw rfl h
  exact hiff

theorem reachable_oneLive : Reachable (.ofVolume floppy) oneLive :=
  ⟨booted, _, boot_booted, .single step_oneLive⟩

def openRoot : SyscallParam := ⟨ascii "/" ++ List.replicate 575 0, by decide +kernel⟩

theorem exec_openRoot : ∃ r io', FileCall.ofParams 10 openRoot = some (.open (ascii "/")) ∧
    (entered oneLive.kernel openRoot).io.exec (.ofVolume floppy) calm
      oneLive.kernel.sched.runningProc openRoot (.open (ascii "/")) = some (r, io') :=
  ⟨_, _, by decide +kernel, rfl⟩

theorem descriptor_bounds_iff_openRoot : ∃ io' : Io,
    ¬ (InTables oneLive.kernel.sched.runningProc io'.touched ∧
      ∀ q, q ≠ oneLive.kernel.sched.runningProc - 1 →
        io'.filesTable q = oneLive.kernel.io.filesTable q) := by
  obtain ⟨r, io', -, hexec⟩ := exec_openRoot
  exact ⟨io', fun hlaw => (descriptor_bounds_iff reachable_oneLive hexec).mp hlaw rfl⟩

theorem descriptor_out_of_bounds : ¬ ∀ env m amb service request call r io', Reachable env m →
    m.frames ≠ [] → FileCall.ofParams service request = some call →
    (entered m.kernel request).io.exec env amb m.kernel.sched.runningProc request call =
      some (r, io') →
    InTables m.kernel.sched.runningProc io'.touched := by
  intro hlaw
  obtain ⟨r, io', hcall, hexec⟩ := exec_openRoot
  have htables := hlaw (.ofVolume floppy) oneLive calm 10 openRoot _ r io' reachable_oneLive
    (by decide +kernel) hcall hexec
  have hio : ((entered oneLive.kernel openRoot).io.openFd (ascii "/")
      oneLive.kernel.sched.runningProc).2 = io' := (Prod.mk.inj (Option.some.inj hexec)).2
  rw [← hio, Io.inTables_openFd rfl] at htables
  exact htables rfl

end Sys

end RML
