import RML.Proofs.ProcessList
import RML.Proofs.Slots
import RML.Proofs.Transport

/-! The kernel against the machine of `Spec.Programs`: one system call, far return or turn
of `startk` is one action of it, and so is every run. -/

namespace RML

open Bytes Transition

namespace Io

variable {env : Env} {amb : Ambient} {io io' : Io} {pid : ℕ}

def printed (p : SyscallParam) : FileCall → List UInt8
  | .write fd count => if fd = 1 ∨ fd = 2 then p.bytes.take count else []
  | _ => []

theorem exec_screen {p : SyscallParam} {call : FileCall} {r : FileReply} (hw : Wired io)
    (hr : Rooted env io) (h : io.exec env amb pid p call = some (r, io')) :
    io'.screen = io.screen ++ printed p call := by
  cases call with
  | list =>
    simp only [Io.exec, Option.bind_eq_bind, Option.bind_eq_some_iff, Option.some.injEq] at h
    obtain ⟨⟨filesRead, buf, io₁⟩, hlist, p', -, heq⟩ := h
    cases heq
    have hopened := (shows_openFd io (ascii "/") 0).trans (shows_lseek _ 5 0 0)
    have hroot := (hr.openFd (ascii "/") 0).seeks (seeks_lseek _ 5 0 0)
    exact (hopened.trans (shows_listLoop hroot hlist)).screen
  | «open» pathname =>
    cases h
    exact (shows_openFd io pathname pid).screen
  | close fd =>
    cases h
    exact (shows_close io fd pid).screen
  | lseek fd offset =>
    cases h
    exact (shows_lseek io fd offset pid).screen
  | read fd count =>
    simp only [Io.exec, Option.bind_eq_bind, Option.bind_eq_some_iff, Option.some.injEq] at h
    obtain ⟨r', hr', heq⟩ := h
    cases heq
    obtain ⟨hother, hkey⟩ := read_console hw hr'
    by_cases hfrom : FromKeyboard io fd
    · exact (hkey hfrom).1.trans (List.append_nil _).symm
    · exact (hother hfrom).screen
  | write fd count =>
    simp only [Io.exec] at h
    split at h
    · simp at h
    · cases h
      by_cases hfd : fd = 1 ∨ fd = 2
      · rw [printed, if_pos hfd]
        exact (shows_write io _ hfd).screen
      · rw [printed, if_neg hfd]
        exact (shows_write_other io _ hfd).screen

end Io

theorem act_fileCall {amb : Ambient} {service : ℕ} {request : SyscallParam} {call : FileCall}
    (h : FileCall.ofParams service request = some call) (ps : List Program) (dir : Directory)
    (hne : ps ≠ []) : Program.machine dir ps (Event.sys amb service request).act =
      some (ps, Io.printed request call) := by
  obtain ⟨p, ps, rfl⟩ := List.exists_cons_of_ne_nil hne
  unfold FileCall.ofParams at h
  split at h <;> cases h <;> try rfl
  simp only [Event.act, Io.printed]
  split_ifs <;> rfl

/-- Every other service but 7 prints what the machine prints. -/
theorem Stacked.dispatch {env : Env} {amb : Ambient} {m : Sys} {ps : List Program} {service : ℕ}
    {request : SyscallParam} {k' : Kernel} (h : Stacked env m ps) (hne : ps ≠ [])
    (hw : m.kernel.io.Wired) (hs : service ≠ 7)
    (hd : (Sys.entered m.kernel request).dispatch env amb service = some (.reply k')) :
    ∃ out, Program.machine env.directory ps (Event.sys amb service request).act = some (ps, out) ∧
      k'.io.screen = m.kernel.io.screen ++ out := by
  have hw' : (Sys.entered m.kernel request).io.Wired := Io.stable_wired.entered hw
  have hr' : Rooted env (Sys.entered m.kernel request).io := (Rooted.stable env).entered h.rooted
  have hlist := h.getProcessList (k := Sys.entered m.kernel request) hne rfl
  obtain ⟨p, ps, rfl⟩ := List.exists_cons_of_ne_nil hne
  rcases Kernel.dispatch_cases hs hd with ⟨text, htext, rfl⟩ | ⟨rfl, r, q, hread, -, rfl⟩ |
    ⟨rfl, io, hrows, rfl⟩ | ⟨rfl, io, htime, rfl⟩ | ⟨call, r, io, q, hcall, hexec, -, rfl⟩ |
    ⟨hother, rfl⟩
  · refine ⟨text, ?_, (Io.shows_write _ _ (Or.inl rfl)).screen⟩
    unfold Kernel.saying at htext
    split at htext <;> cases htext <;> rfl
  · have hfrom : Io.FromKeyboard (Sys.entered m.kernel request).io 0 := Or.inl ⟨hw'.stdin, rfl⟩
    exact ⟨[], rfl, ((Io.read_console hw' hread).2 hfrom).1.trans (List.append_nil _).symm⟩
  · rw [hlist] at hrows
    split_ifs at hrows with hsmall
    cases hrows
    exact ⟨_, if_pos hsmall, (Io.shows_printk _ _).screen⟩
  · rw [Kernel.time_eq] at htime
    cases htime
    exact ⟨_, rfl, (Io.shows_printk _ _).screen⟩
  · have hscreen := Io.exec_screen hw' hr' hexec
    exact ⟨_, act_fileCall hcall (p :: ps) env.directory hne, hscreen⟩
  · have hquiet : (Event.sys amb service request).act = .quiet := by
      simp only [Event.act]
      split <;> first | rfl | exact absurd (by decide) hother
    rw [hquiet]
    exact ⟨[], rfl, (List.append_nil _).symm⟩

namespace Stacked

variable {env : Env} {amb : Ambient} {m m' : Sys} {ps : List Program} {out : Option SyscallParam}

theorem eq_nil_iff (h : Stacked env m ps) : ps = [] ↔ m.frames = [] := by
  rw [h.frames_eq, framesOf_eq_nil_iff, List.length_eq_zero_iff]

theorem running_eq (h : Stacked env m ps) (hne : ps ≠ []) :
    m.kernel.sched.runningProc = ps.length := by
  rw [(h.running (mt h.eq_nil_iff.mpr hne)).1, h.frames_eq, length_framesOf]

theorem of_keeps_nil {k : Kernel} (h : Keeps env k []) : Stacked env ⟨k, []⟩ [] :=
  ⟨⟨h.toHeld, fun hne => absurd rfl hne⟩, rfl, trivial, by simp, h.rooted⟩

theorem restarted (h : Stacked env m []) : Keeps env (Sys.restarted m.kernel) [] := by
  refine ⟨⟨trivial, ?_, ?_, ?_⟩, trivial, by simp, h.rooted⟩
  · intro i _ hi9
    simp only [Sys.restarted, Sched.initProcesses, if_pos hi9]
  · intro i hi
    simp [framesOf] at hi
  · have hseg := h.seg
    rwa [h.frames_eq] at hseg

theorem named (h : Stacked env m ps) (request : SyscallParam) :
    Keeps env (Sys.named m.kernel request) ps :=
  h.keeps.congr rfl rfl ((Rooted.stable env).entered h.rooted)

theorem init_step (h : Stacked env m ps) (hstep : m.step env (.init amb) = some (m', out)) :
    ∃ ps' text, Program.machine env.directory ps .boot = some (ps', text) ∧ Stacked env m' ps' ∧
      m'.kernel.io.screen = m.kernel.io.screen ++ text := by
  obtain ⟨hnil, -, hrun⟩ := Sys.step_init hstep
  obtain rfl := h.eq_nil_iff.mpr hnil
  have hkeeps := h.restarted
  rcases hrun with ⟨rc, k, hstart, rfl⟩ | ⟨f, k, hstart, rfl⟩
  · rcases hkeeps.start (by decide) rfl hstart with
      ⟨hfind, k', heq, hafter, -, hshows⟩ | ⟨size, k', -, heq, -⟩
    · obtain ⟨-, rfl⟩ := Kernel.RunResult.returned.inj heq
      refine ⟨[], _, ?_, of_keeps_nil hafter, hshows.screen⟩
      simp only [Program.machine, Program.start, hfind]
      rfl
    · nomatch heq
  · rcases hkeeps.start (by decide) rfl hstart with
      ⟨-, k', heq, -⟩ | ⟨size, k', hfind, heq, hstacked, hshows⟩
    · nomatch heq
    · obtain ⟨rfl, rfl⟩ := Kernel.RunResult.started.inj heq
      refine ⟨[⟨ascii "INIT", size⟩], _, ?_, hstacked, hshows.screen⟩
      simp only [Program.machine, Program.start, hfind]
      rfl

theorem exit_step (h : Stacked env m ps) (hstep : m.step env .exit = some (m', out)) :
    ∃ ps' text, Program.machine env.directory ps .stop = some (ps', text) ∧ Stacked env m' ps' ∧
      m'.kernel.io.screen = m.kernel.io.screen ++ text := by
  obtain ⟨f, frames, hframes, hret⟩ := Sys.step_exit hstep
  cases ps with
  | nil =>
    rw [h.frames_eq] at hframes
    cases hframes
  | cons p ps =>
    rw [h.frames_eq, List.length_cons, framesOf] at hframes
    obtain ⟨rfl, rfl⟩ := List.cons.inj hframes
    have hafter : Keeps env (m.kernel.runProgramEnd (frameAt ps.length)) ps := h.keeps.stop
    refine ⟨ps, [], rfl, ?_⟩
    cases ps with
    | nil =>
      rcases hret with ⟨-, rfl, -⟩ | ⟨pid, k, hsome, -⟩
      · exact ⟨of_keeps_nil hafter, (List.append_nil _).symm⟩
      · cases hsome
    | cons q ps =>
      rcases hret with ⟨hnone, -⟩ | ⟨pid, k, hsome, hfin, rfl, -⟩
      · cases hnone
      · cases hsome
        refine ⟨hafter.finish hfin, ?_⟩
        rw [(Kernel.finishRun_running hfin).1, List.append_nil]
        rfl

theorem sys_step {service : ℕ} {request : SyscallParam} (h : Stacked env m ps)
    (hw : m.kernel.io.Wired) (hroom : service = 7 → ps.length < 8)
    (hstep : m.step env (.sys amb service request) = some (m', out)) :
    ∃ ps' text, Program.machine env.directory ps (Event.sys amb service request).act =
        some (ps', text) ∧ Stacked env m' ps' ∧
      m'.kernel.io.screen = m.kernel.io.screen ++ text := by
  obtain ⟨hne, hcall⟩ := Sys.step_call hstep
  have hne' : ps ≠ [] := mt h.eq_nil_iff.mp hne
  have hcur : ∀ name, (Sys.named m.kernel request).runProgramStart env amb
        (some m.kernel.sched.runningProc) name =
      (Sys.named m.kernel request).runProgramStart env amb
        (if ps.length = 0 then none else some ps.length) name := by
    intro name
    rw [h.running_eq hne', if_neg (mt List.length_eq_zero_iff.mp hne')]
  have hnamed := h.named request
  rcases hcall with ⟨rfl, f, k, hstart, rfl, -⟩ | ⟨rfl, rc, k, k', hstart, hfin, rfl, -⟩ |
    ⟨hs, io, params, hd, rfl, -⟩
  · rw [hcur] at hstart
    rcases hnamed.start (hroom rfl) (h.running_eq hne') hstart with
      ⟨-, k', heq, -⟩ | ⟨size, k', hfind, heq, hstacked, hshows⟩
    · nomatch heq
    · obtain ⟨rfl, rfl⟩ := Kernel.RunResult.started.inj heq
      refine ⟨_, _, ?_, by rw [h.frames_eq]; exact hstacked, hshows.screen⟩
      obtain ⟨p, ps, rfl⟩ := List.exists_cons_of_ne_nil hne'
      simp only [Event.act, Program.machine, Program.start, hfind]
      rfl
  · rw [hcur] at hstart
    rcases hnamed.start (hroom rfl) (h.running_eq hne') hstart with
      ⟨hfind, k₁, heq, hafter, -, hshows⟩ | ⟨size, k₁, -, heq, -⟩
    · obtain ⟨rfl, rfl⟩ := Kernel.RunResult.returned.inj heq
      obtain ⟨p, ps, rfl⟩ := List.exists_cons_of_ne_nil hne'
      rw [h.running_eq hne'] at hfin
      refine ⟨p :: ps, directoryText env.bootSector.rootDirEntries, ?_,
        by rw [h.frames_eq]; exact hafter.finish hfin, ?_⟩
      · simp only [Event.act, Program.machine, Program.start, hfind]
        rfl
      · rw [(Kernel.finishRun_running hfin).1]
        exact hshows.screen
    · nomatch heq
  · obtain ⟨text, hact, hscreen⟩ := h.dispatch hne' hw hs hd
    refine ⟨ps, text, hact, ⟨Chain.congr h.toChain rfl rfl, h.frames_eq, h.resident, h.small, ?_⟩,
      hscreen⟩
    have hpid : (Sys.entered m.kernel request).sched.runningProc ≠ 0 := by
      have hrun : (Sys.entered m.kernel request).sched.runningProc = ps.length := h.running_eq hne'
      rw [hrun]
      exact mt List.length_eq_zero_iff.mp hne'
    obtain ⟨k', heq, hio⟩ := Kernel.stable_dispatch ((Rooted.stable env).forCaller hpid)
      (h.named request).rooted hs hd
    obtain rfl := Kernel.Outcome.reply.inj heq
    exact hio

end Stacked

namespace Sys

variable {env : Env} {m₀ m : Sys} {es : List Event}

/-- The kernel does what the machine does, as long as `run_program` meets fewer than eight
programs. -/
theorem simulates_programs (env : Env) : Simulates (Guarded Roomy (Step env))
    (Program.machine env.directory) Event.act (fun m => m.kernel.io.screen)
    (fun m ps => Stacked env m ps ∧ Settled Io.Wired m) := by
  rintro m e m' ps ⟨hstacked, hsettled⟩ ⟨hroom, out, hstep⟩
  have hsettled' := settled_step Io.stable_wired m e m' hsettled ⟨out, hstep⟩
  have hmatched : ∃ ps' text, Program.machine env.directory ps e.act = some (ps', text) ∧
      Stacked env m' ps' ∧ m'.kernel.io.screen = m.kernel.io.screen ++ text := by
    cases e with
    | init amb => exact hstacked.init_step hstep
    | exit => exact hstacked.exit_step hstep
    | sys amb service request =>
      refine hstacked.sys_step hsettled.io (fun hs => ?_) hstep
      have hfew := hroom hs
      rwa [hstacked.frames_eq, length_framesOf] at hfew
  obtain ⟨ps', text, hact, hafter, hscreen⟩ := hmatched
  exact ⟨ps', text, hact, ⟨hafter, hsettled'⟩, hscreen⟩

/-- The kernel's bookkeeping when the programs `ps` live, the running one first: the frames,
the segments in use, and the whole process table are a function of them. -/
structure Represents (m : Sys) (ps : List Program) : Prop where
  frames : m.frames = framesOf ps.length
  segArr : ∀ i < NUM_SEG, m.kernel.segArr i = ⟨if i < ps.length + 2 then 1 else 0, 0x1000 * i⟩
  slots : ∀ i p, ps.reverse[i]? = some p → m.kernel.sched.processes i =
    p.slot i (if i + 1 = ps.length then .RUNNING else .READY)
  free : ∀ i, ps.length ≤ i → i < NUM_PROCESSES → (m.kernel.sched.processes i).pid = 0
  running : ps ≠ [] → m.kernel.sched.runningProc = ps.length

theorem represents_of_stacked {ps : List Program} (h : Stacked env m ps) : Represents m ps := by
  have hlen : m.frames.length = ps.length := by rw [h.frames_eq, length_framesOf]
  refine ⟨h.frames_eq, ?_, ?_, fun i hi => h.free i (hlen.trans_le hi), h.running_eq⟩
  · intro i hi
    have hused : i < 2 ∨ 0x1000 * i ∈ (framesOf ps.length).map Frame.segment ↔
        i < ps.length + 2 := by
      rw [mem_segmentsOf]
      constructor
      · rintro (h2 | ⟨j, hj, heq⟩)
        · omega
        · simp only [segmentAt] at heq
          omega
      · intro hlt
        rcases Nat.lt_or_ge i 2 with h2 | h2
        · exact Or.inl h2
        · exact Or.inr ⟨i - 2, by omega, by simp only [segmentAt]; omega⟩
    rw [h.seg, h.frames_eq, ownedBy, if_pos hi]
    simp only [hused]
  · intro i p hp
    have hi : i < ps.length := by
      have hlt := (List.getElem?_eq_some_iff.mp hp).1
      rwa [List.length_reverse] at hlt
    rw [h.resident.slot hp]
    congr 1
    split_ifs with hlast
    · have hne : m.frames ≠ [] := by
        rw [← List.length_pos_iff]
        omega
      rw [← (h.running hne).2, hlen, ← hlast, Nat.add_sub_cancel]
    · exact h.ready i (by omega)

theorem stacked_boot (h : Boot env m) : Stacked env m [] := by
  have hchain := chain_boot h
  have hrooted := Rooted.of_boot h
  obtain ⟨amb, k, -, rfl⟩ := h
  exact ⟨hchain, rfl, trivial, by simp, hrooted⟩

theorem screen_boot (h : Boot env m) :
    m.kernel.io.screen = ascii "starting kernel...\r\n" := by
  obtain ⟨amb, k, hk, rfl⟩ := h
  simp only [Kernel.startk, Option.bind_eq_bind, Option.bind_eq_some_iff, Option.some.injEq] at hk
  obtain ⟨io, hmount, rfl⟩ := hk
  have hstarted := (Io.shows_openFd {} (ascii "/dev/stdout") 0).silent
    (Io.shows_printk _ (ascii "starting kernel...\r\n"))
  have hall := (hstarted.quietly (Io.shows_mount hmount)).quietly
    (Io.shows_openFd io (ascii "/dev/stdin") 0)
  exact hall.screen

theorem stacked_run (h0 : Boot env m₀) (h : Run (Guarded Roomy (Step env)) m₀ es m) :
    ∃ ps, Stacked env m ps := by
  obtain ⟨ps, text, -, ⟨hstacked, -⟩, -⟩ := (simulates_programs env).run h
    ⟨stacked_boot h0, settled_boot h0 (wired_boot h0)⟩
  exact ⟨ps, hstacked⟩

/-- The clock can always be asked for: whatever bytes the chip has, none of the six numbers
overruns the buffer of `uitoa`. A date is shown as it is, in decimal, unpadded. -/
theorem clock_shown (hlive : m.frames ≠ []) (amb : Ambient) (request : SyscallParam) :
    ∃ m', (∀ m'', Step env m (.sys amb 15 request) m'' ↔ m'' = m') ∧ m'.frames = m.frames ∧
      m.kernel.io.screen <+: m'.kernel.io.screen ∧
      ∀ t : Moment, t.Valid → amb.clock = t.clock →
        m'.kernel.io.screen = m.kernel.io.screen ++ t.text := by
  have hdispatch : (entered m.kernel request).dispatch env amb 15 = some (.reply
      { entered m.kernel request with
        io := (entered m.kernel request).io.printk (clockText amb.clock) }) := by
    simp only [Kernel.dispatch, Kernel.time_eq, Option.bind_eq_bind, Option.bind_some]
  have hshown := Io.shows_printk (entered m.kernel request).io (clockText amb.clock)
  refine ⟨⟨{ entered m.kernel request with
    io := (entered m.kernel request).io.printk (clockText amb.clock) }, m.frames⟩, ?_, rfl, ?_, ?_⟩
  · intro m''
    constructor
    · rintro ⟨out, hstep⟩
      exact (Prod.mk.inj (Option.some.inj (hstep.symm.trans (step_of_reply hlive hdispatch)))).1
    · rintro rfl
      exact ⟨_, step_of_reply hlive hdispatch⟩
  · exact ⟨_, hshown.screen.symm⟩
  · intro t ht heq
    rw [← Moment.clockText_clock ht, ← heq]
    exact hshown.screen

def midnight : Moment := ⟨2018, 12, 31, 23, 59, 59⟩

theorem clock_shown_midnight : ∃ m', Step (.ofVolume floppy) oneLive
    (.sys { calm with clock := midnight.clock } 15 .zero) m' ∧
      m'.kernel.io.screen = oneLive.kernel.io.screen ++ ascii "2018/12/31 23:59:59\r\n" := by
  have hlive : oneLive.frames ≠ [] := by
    rw [frames_oneLive]
    exact List.cons_ne_nil _ _
  obtain ⟨m', hiff, -, -, htext⟩ := @clock_shown (.ofVolume floppy) oneLive hlive
    { calm with clock := midnight.clock } .zero
  refine ⟨m', (hiff m').mpr rfl, ?_⟩
  rw [htext midnight ⟨by decide, by decide, by decide, by decide, by decide, by decide⟩ rfl]
  congr 1
  decide +kernel

end Sys

end RML
