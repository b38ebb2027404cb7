import RML.Proofs.Console
import RML.Proofs.Slots

/-! Who gets the keys. `read` looks every descriptor up in the kernel's table, which no
process changes: there all descriptors but the console's output, the second floppy and its
directory come from the keyboard, whatever the process has opened. -/

namespace RML

open Bytes Transition

namespace Io

variable {env : Env} {amb : Ambient} {io io' : Io} {pid : ℕ} {fd : ℤ}

/-- What the kernel's own descriptors hang on. -/
def kernelPfd (fd : ℤ) : ℤ := if fd = 0 ∨ fd = 1 ∨ fd = 4 then -1 else if fd = 5 then 4 else 0

/-- The kernel's table is as `startk` has laid it out, but for positions. -/
def Laid (io : Io) : Prop := ∀ fd, (io.fdList fd).pfd = kernelPfd fd

theorem Laid.seeks (hl : Laid io) (h : Seeks pid io io') : Laid io' :=
  fun fd => (h.pfd fd).trans (hl fd)

theorem Laid.congr (hl : Laid io) (h : io'.fdList = io.fdList) : Laid io' := by
  intro fd
  rw [h]
  exact hl fd

theorem Laid.update (hl : Laid io) (fd : ℤ) {f : FileDescriptor → FileDescriptor}
    (hf : pid = 0 → (f (io.fdList fd)).pfd = kernelPfd fd) : Laid (io.update pid fd f) := by
  intro i
  rw [update_fdList]
  split_ifs with h
  · rw [h.2]
    exact hf h.1
  · exact hl i

theorem laid_stableFor (hpid : pid ≠ 0) : StableFor pid Laid where
  kernel hl h := hl.seeks h
  seeks hl h := hl.seeks h
  openRoot hl := by
    rw [openFd_root]
    dsimp only
    apply hl.update
    intro _
    rfl
  openFd pathname hl := by
    unfold Io.openFd
    split_ifs <;> first | exact hl.update _ fun h => absurd h hpid | exact hl
  close fd hl := hl.congr (close_fdList _ fd hpid)

theorem Laid.wired (hl : Laid io) : Wired io := by
  refine ⟨?_, ?_, hl 0, hl 1, hl 4⟩
  · intro fd
    rw [hl, kernelPfd]
    split_ifs <;> simp
  · intro fd h
    rw [hl, kernelPfd] at h
    split_ifs at h with hdev
    · omega

theorem Laid.fromKeyboard_iff (hl : Laid io) (fd : ℤ) :
    FromKeyboard io fd ↔ fd ≠ 1 ∧ fd ≠ 4 ∧ fd ≠ 5 := by
  have hpfd := hl fd
  rw [kernelPfd] at hpfd
  rw [FromKeyboard]
  split_ifs at hpfd with hdev h5
  · omega
  · omega
  · omega

theorem Laid.read {fuel count : ℕ} {r : ReadResult} (hl : Laid io)
    (h : io.read env amb fuel fd count pid = some r) :
    if fd ≠ 1 ∧ fd ≠ 4 ∧ fd ≠ 5 then
      r.io.keys = io.keys + count ∧ r.bytes = streamed env.key io.keys count
    else r.io.keys = io.keys := by
  obtain ⟨hother, hkey⟩ := read_console hl.wired h
  split_ifs with hfrom
  · exact (hkey ((hl.fromKeyboard_iff fd).mpr hfrom)).2
  · exact (hother (mt (hl.fromKeyboard_iff fd).mp hfrom)).keys

end Io

/-- What a service hands over of the keyboard, out of its reply: of the descriptors of a
table, 0, 2 and 3 come from there. -/
def typed : Event × Option SyscallParam → List UInt8
  | (.sys _ 6 _, some reply) => reply.bytes.take 1
  | (.sys _ 13 request, some reply) =>
    if request.fd.toInt ≠ 1 ∧ request.fd.toInt ≠ 4 ∧ request.fd.toInt ≠ 5 then
      reply.bytes.take request.size.toNat
    else []
  | _ => []

namespace Kernel

variable {env : Env} {amb : Ambient} {k k' : Kernel} {service : ℕ}

theorem keys_processListLoop {n i : ℕ} {io io' : Io} (h : processListLoop k n i io = some io') :
    io'.keys = io.keys := by
  induction n generalizing i io with
  | zero =>
    cases h
    rfl
  | succ n ih =>
    simp only [processListLoop, Option.bind_eq_bind] at h
    split at h
    · exact ih h
    · simp only [Option.bind_eq_some_iff] at h
      obtain ⟨pid, -, ppid, -, cs, -, size, -, hrest⟩ := h
      exact (ih hrest).trans (Io.shows_printk io _).keys

theorem keys_time {c : Clock} {io io' : Io} (h : time c io = some io') : io'.keys = io.keys := by
  simp only [time, Option.bind_eq_bind, Option.bind_eq_some_iff, Option.some.injEq] at h
  obtain ⟨_, -, _, -, _, -, _, -, _, -, _, -, rfl⟩ := h
  exact (Io.shows_printk _ _).keys

theorem keys_start {currPid : Option ℕ} {name : List UInt8} {r : RunResult} (hl : k.io.Laid)
    (hr : Rooted env k.io) (h : k.runProgramStart env amb currPid name = some r) :
    (∃ rc k', r = .returned rc k' ∧ k'.io.Laid ∧ k'.io.keys = k.io.keys) ∨
      ∃ f k', r = .started f k' ∧ k'.io.Laid ∧ k'.io.keys = k.io.keys := by
  rcases runProgramStart_cases rfl h with ⟨io, hlook, rfl⟩ |
    ⟨file, io, io', mem, pid, sched, hlook, hload, hreg, rfl⟩
  · exact Or.inl ⟨1, _, rfl, hl.seeks (seeks_lookup hlook), (shows_lookup hr hlook).keys⟩
  · have hpos : 1 ≤ pid := by
      rcases hreg with ⟨-, -, hset⟩ | ⟨sched', -, hset⟩
      · exact (Sched.setRunningProc_pids hset).1
      · exact (Sched.setRunningProc_pids hset).1
    have hown := Io.laid_stableFor (Nat.one_le_iff_ne_zero.mp hpos)
    have hlooked := shows_lookup hr hlook
    have hdisk : (io.fdList 4).pfd = -1 := (hr.seeks (seeks_lookup hlook)).disk
    have hloaded := hlooked.quietly (Io.shows_loadLoop hdisk hload)
    have hlaid : io'.Laid := (hl.seeks (seeks_lookup hlook)).seeks (Io.seeks_loadLoop hload)
    exact Or.inr ⟨_, _, rfl, hown.openFd _ (hown.openFd _ hlaid),
      (hloaded.quietly (shows_openStd io' pid)).keys⟩

end Kernel

theorem SyscallParam.take_write {p q : SyscallParam} {bs : List UInt8} (h : p.write 0 bs = some q) :
    q.bytes.take bs.length = bs := by
  simp only [SyscallParam.write] at h
  split_ifs at h
  obtain rfl := Option.some.inj h
  exact (take_overwrite_zero (le_refl _)).trans List.take_length

namespace Io

variable {env : Env} {amb : Ambient} {io io' : Io} {pid : ℕ}

theorem Laid.exec {p : SyscallParam} {call : FileCall} {r : FileReply} (hl : Laid io)
    (hr : Rooted env io) (h : io.exec env amb pid p call = some (r, io')) :
    (io'.keys = io.keys ∧ ∀ fd count, call = .read fd count → ¬ (fd ≠ 1 ∧ fd ≠ 4 ∧ fd ≠ 5)) ∨
      ∃ fd count, call = .read fd count ∧ (fd ≠ 1 ∧ fd ≠ 4 ∧ fd ≠ 5) ∧
        io'.keys = io.keys + count ∧ r = .stored (streamed env.key io.keys count) := by
  cases call with
  | list =>
    simp only [Io.exec, Option.bind_eq_bind, Option.bind_eq_some_iff, Option.some.injEq] at h
    obtain ⟨⟨filesRead, buf, io₁⟩, hlist, p', -, heq⟩ := h
    cases heq
    have hopened := (shows_openFd io (ascii "/") 0).trans (shows_lseek _ 5 0 0)
    have hroot := (hr.openFd (ascii "/") 0).seeks (seeks_lseek _ 5 0 0)
    exact Or.inl ⟨(hopened.trans (shows_listLoop hroot hlist)).keys, by simp⟩
  | «open» pathname =>
    cases h
    exact Or.inl ⟨(shows_openFd io pathname pid).keys, by simp⟩
  | close fd =>
    cases h
    exact Or.inl ⟨(shows_close io fd pid).keys, by simp⟩
  | lseek fd offset =>
    cases h
    exact Or.inl ⟨(shows_lseek io fd offset pid).keys, by simp⟩
  | read fd count =>
    simp only [Io.exec, Option.bind_eq_bind, Option.bind_eq_some_iff, Option.some.injEq] at h
    obtain ⟨r', hread, heq⟩ := h
    cases heq
    have htaken := hl.read hread
    split_ifs at htaken with hfrom
    · exact Or.inr ⟨fd, count, rfl, hfrom, htaken.1, by rw [htaken.2]⟩
    · refine Or.inl ⟨htaken, ?_⟩
      rintro fd' count' heq
      cases heq
      exact hfrom
  | write fd count =>
    simp only [Io.exec] at h
    split at h
    · simp at h
    · cases h
      by_cases hfd : fd = 1 ∨ fd = 2
      · exact Or.inl ⟨(shows_write io _ hfd).keys, by simp⟩
      · exact Or.inl ⟨(shows_write_other io _ hfd).keys, by simp⟩

end Io

theorem Kernel.keys_dispatch {env : Env} {amb : Ambient} {k k' : Kernel} {service : ℕ}
    (hl : k.io.Laid) (hr : Rooted env k.io) (hs : service ≠ 7)
    (hd : k.dispatch env amb service = some (.reply k')) :
    ∃ n, k'.io.keys = k.io.keys + n ∧
      typed (.sys amb service k.params, some k'.params) = streamed env.key k.io.keys n := by
  rcases dispatch_cases hs hd with ⟨text, htext, rfl⟩ | ⟨rfl, r, p, hread, hp, rfl⟩ |
    ⟨rfl, io, hrows, rfl⟩ | ⟨rfl, io, htime, rfl⟩ | ⟨call, r, io, p, hcall, hexec, hp, rfl⟩ |
    ⟨hother, rfl⟩
  · refine ⟨0, (Io.shows_write k.io text (Or.inl rfl)).keys, ?_⟩
    unfold saying at htext
    split at htext <;> cases htext <;> rfl
  · have htaken := hl.read hread
    rw [if_pos (by decide)] at htaken
    refine ⟨1, htaken.1, ?_⟩
    have hstored := SyscallParam.take_write hp
    rw [htaken.2] at hstored
    exact hstored
  · rw [getProcessList] at hrows
    exact ⟨0, (keys_processListLoop hrows).trans (Io.shows_printk _ _).keys, rfl⟩
  · exact ⟨0, keys_time htime, rfl⟩
  · rcases hl.exec hr hexec with ⟨hkeys, hnone⟩ | ⟨fd, count, rfl, hfrom, hkeys, rfl⟩
    · refine ⟨0, hkeys, ?_⟩
      unfold FileCall.ofParams at hcall
      split at hcall <;> cases hcall <;> first | rfl | exact if_neg (hnone _ _ rfl)
    · refine ⟨count, hkeys, ?_⟩
      have hstored := SyscallParam.take_write hp
      rw [streamed, List.length_map, List.length_range'] at hstored
      unfold FileCall.ofParams at hcall
      split at hcall <;> cases hcall
      exact (if_pos hfrom).trans hstored
  · refine ⟨0, rfl, ?_⟩
    unfold typed
    split
    · next heq =>
      cases heq
      exact absurd (by decide) hother
    · next heq =>
      cases heq
      exact absurd (by decide) hother
    · rfl

namespace Sys

variable {env : Env} {m₀ m m' : Sys}

/-- One step, and the buffer it copies back. -/
def Reply (env : Env) (m : Sys) (e : Event × Option SyscallParam) (m' : Sys) : Prop :=
  m.step env e.1 = some (m', e.2)

/-- The kernel reads by its own table, and knows its floppy. -/
structure Reading (env : Env) (m : Sys) : Prop where
  laid : m.kernel.io.Laid
  settled : Settled (Rooted env) m

theorem laid_boot (h : Boot env m) : m.kernel.io.Laid := by
  have hw := wired_boot h
  have hroot := Rooted.of_boot h
  obtain ⟨-, io₁, io₂, hseeks, hkept, hio⟩ := boot_io h
  intro i
  by_cases hused : i = 0 ∨ i = 1 ∨ i = 4 ∨ i = 5
  · rcases hused with rfl | rfl | rfl | rfl
    · exact hw.stdin
    · exact hw.stdout
    · exact hw.disk
    · exact hroot.pfd
  · obtain ⟨h0, h1, h4, h5⟩ : i ≠ 0 ∧ i ≠ 1 ∧ i ≠ 4 ∧ i ≠ 5 := by simpa only [not_or] using hused
    have hupdate : ∀ (io : Io) fd f, i ≠ fd → (io.update 0 fd f).fdList i = io.fdList i := by
      intro io fd f hne
      rw [Io.update_fdList, if_neg fun h => hne h.2]
    have hmounting : (mounting.fdList i).pfd = 0 := by
      rw [mounting, Io.openFd_fdb, hupdate _ _ _ h4, (Io.seeks_printk _ _).pfd, Io.openFd_stdout,
        hupdate _ _ _ h1]
    have hread : (io₂.fdList i).pfd = 0 := (hkept.pfd i).trans ((hseeks.pfd i).trans hmounting)
    rw [hio, Io.openFd_stdin, hupdate _ _ _ h0, Io.openFd_root, hupdate _ _ _ h5, hread, Io.kernelPfd,
      if_neg (by omega), if_neg h5]

theorem reading_step (m : Sys) (e : Event × Option SyscallParam) (m' : Sys) (hm : Reading env m)
    (h : Reply env m e m') : Reading env m' ∧ ∃ n, m'.kernel.io.keys = m.kernel.io.keys + n ∧
      typed e = streamed env.key m.kernel.io.keys n := by
  obtain ⟨e, out⟩ := e
  have hsettled := settled_step (Rooted.stable env) m e m' hm.settled ⟨out, h⟩
  have hentered : ∀ request, (entered m.kernel request).io.Laid := fun _ => hm.laid.congr rfl
  have hrooted : ∀ request, Rooted env (entered m.kernel request).io :=
    fun _ => (Rooted.stable env).entered hm.settled.io
  cases e with
  | init amb =>
    obtain ⟨-, rfl, ⟨rc, k, hstart, rfl⟩ | ⟨f, k, hstart, rfl⟩⟩ := step_init h
    · rcases Kernel.keys_start (k := restarted m.kernel) hm.laid hm.settled.io hstart with
        ⟨_, _, heq, hlaid, hkeys⟩ | ⟨_, _, heq, -⟩
      · cases heq
        exact ⟨⟨hlaid, hsettled⟩, 0, hkeys, rfl⟩
      · nomatch heq
    · rcases Kernel.keys_start (k := restarted m.kernel) hm.laid hm.settled.io hstart with
        ⟨_, _, heq, -⟩ | ⟨_, _, heq, hlaid, hkeys⟩
      · nomatch heq
      · cases heq
        exact ⟨⟨hlaid, hsettled⟩, 0, hkeys, rfl⟩
  | exit =>
    obtain ⟨f, frames, -, ⟨-, rfl, -⟩ | ⟨pid, k, -, hfin, rfl, -⟩⟩ := step_exit h
    · exact ⟨⟨hm.laid, hsettled⟩, 0, rfl, rfl⟩
    · have hsame := (Kernel.finishRun_running hfin).1
      exact ⟨⟨by rw [hsame]; exact hm.laid, hsettled⟩, 0, by rw [hsame]; rfl, rfl⟩
  | sys amb service request =>
    obtain ⟨hne, ⟨rfl, f, k, hstart, rfl, rfl⟩ | ⟨rfl, rc, k, k', hstart, hfin, rfl, rfl⟩ |
      ⟨hs, io, params, hd, rfl, rfl⟩⟩ := step_call h
    · rcases Kernel.keys_start (k := named m.kernel request) (hentered request) (hrooted request)
        hstart with ⟨_, _, heq, -⟩ | ⟨_, _, heq, hlaid, hkeys⟩
      · nomatch heq
      · cases heq
        exact ⟨⟨hlaid, hsettled⟩, 0, hkeys, rfl⟩
    · have hsame := (Kernel.finishRun_running hfin).1
      rcases Kernel.keys_start (k := named m.kernel request) (hentered request) (hrooted request)
        hstart with ⟨_, _, heq, hlaid, hkeys⟩ | ⟨_, _, heq, -⟩
      · cases heq
        exact ⟨⟨by rw [hsame]; exact hlaid, hsettled⟩, 0, by rw [hsame]; exact hkeys, rfl⟩
      · nomatch heq
    · have hpid : (entered m.kernel request).sched.runningProc ≠ 0 :=
        Nat.one_le_iff_ne_zero.mp (hm.settled.running hne)
      obtain ⟨k', heq, hlaid⟩ := Kernel.stable_dispatch (Io.laid_stableFor hpid)
        (hentered request) hs hd
      obtain rfl := Kernel.Outcome.reply.inj heq
      exact ⟨⟨hlaid, hsettled⟩, Kernel.keys_dispatch (hentered request) (hrooted request) hs hd⟩

end Sys

end RML
