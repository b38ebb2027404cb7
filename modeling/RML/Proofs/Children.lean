import RML.Proofs.UserCalls
import RML.Proofs.Reply

/-! `run_program` from the side of its caller: the name is refused, or the program runs,
with whatever it calls in its turn, and the caller goes on where it was. -/

namespace RML

open Bytes Transition

theorem SyscallParam.getD_setInt_zero (p : SyscallParam) (v : UInt32) :
    (p.setInt 0 v retcode_fits).bytes.getD 0 0 = UInt8.ofNat v.toNat := by
  have hlen : 0 + (toLE 4 v.toNat).length ≤ p.bytes.length := by
    rw [length_toLE, p.length_eq]
    decide
  rw [List.getD_eq_getElem?_getD]
  show ((overwrite p.bytes 0 (toLE 4 v.toNat))[0]?).getD 0 = _
  rw [getElem?_overwrite hlen, length_toLE, if_pos (by decide)]
  rfl

namespace Sys

variable {env : Env} {m m' : Sys} {es : List Event}

/-- A run that never drops below the programs `ps` leaves them where they are, and is one of
the machine. -/
theorem run_above {ps qs : List Program}
    (h : Run (Above (Guarded Roomy (Step env)) Sys.frames ps.length) m es m')
    (hm : Stacked env m (qs ++ ps)) (hs : Settled Io.Wired m) :
    ∃ qs' text, (Program.machine env.directory).exec (es.map Event.act) (qs ++ ps) =
        some (qs' ++ ps, text) ∧ Stacked env m' (qs' ++ ps) ∧
      m'.kernel.io.screen = m.kernel.io.screen ++ text := by
  induction h generalizing qs with
  | nil m => exact ⟨qs, [], rfl, hm, (List.append_nil _).symm⟩
  | @cons m e m₁ es m' hstep _ ih =>
    obtain ⟨hstep, habove⟩ := hstep
    obtain ⟨ps₁, text, hact, ⟨hm₁, hs₁⟩, hscreen⟩ := simulates_programs env m e m₁ _ ⟨hm, hs⟩ hstep
    rw [hm₁.frames_eq, length_framesOf] at habove
    obtain ⟨qs₁, rfl⟩ : ∃ qs₁, ps₁ = qs₁ ++ ps := by
      rcases Program.machine_cases hact with rfl | ⟨p, hpop⟩ | ⟨p, rfl⟩
      · exact ⟨qs, rfl⟩
      · cases qs with
        | nil =>
          rw [List.nil_append] at hpop
          rw [hpop, List.length_cons] at habove
          omega
        | cons q qs => exact ⟨qs, (List.cons.inj hpop).2.symm⟩
      · exact ⟨p :: qs, rfl⟩
    obtain ⟨qs₂, texts, hexec, hm₂, hscreen₂⟩ := ih hm₁ hs₁
    refine ⟨qs₂, text ++ texts, Machine.exec_cons hact hexec, hm₂, ?_⟩
    exact hscreen₂.trans ((congrArg (· ++ texts) hscreen).trans (List.append_assoc _ _ _))

theorem keys_le {R : Sys → Event → Sys → Prop} (hR : ∀ m e m', R m e m' → Step env m e m')
    (h : Run R m es m') (hm : Reading env m) :
    Reading env m' ∧ m.kernel.io.keys ≤ m'.kernel.io.keys := by
  refine h.invariant (fun m' => Reading env m' ∧ m.kernel.io.keys ≤ m'.kernel.io.keys) ?_
    ⟨hm, le_refl _⟩
  rintro m₁ e m₂ ⟨hm₁, hle⟩ hstep
  obtain ⟨out, hstep⟩ := hR _ _ _ hstep
  obtain ⟨hm₂, n, hkeys, -⟩ := reading_step m₁ (e, out) m₂ hm₁ hstep
  exact ⟨hm₂, by omega⟩

end Sys

namespace User

variable {env : Env} {s s' : User} {ps : List Program} {string : SyscallParam}

def programName (string : SyscallParam) : List UInt8 := cstr (stoupper string.bytes)

/-- What comes of `run_program`. -/
def Ran (env : Env) (ps : List Program) (name : List UInt8) (s s' : User) : Prop :=
  (env.directory.find name = none ∧ s'.runProgramCode = 1 ∧
      Goes env ps s s' (directoryText env.directory.entries) 0) ∨
    ∃ size acts text n, env.directory.find name = some size ∧
      (Program.machine env.directory).exec (acts ++ [.stop]) (⟨name, size⟩ :: ps) = some (ps, text) ∧
      s'.runProgramCode = 0 ∧
      Goes env ps s s' (directoryText env.directory.entries ++ text) n

theorem Ready.ran_at_once {amb : Ambient} {m : Sys} {out : SyscallParam} (h : Ready env ps s)
    (hfew : ps.length < 8)
    (hstep : s.sys.step env (.sys amb 7 s.sysparam) = some (m, some out)) :
    Ran env ps (programName s.sysparam) s ⟨m, out⟩ := by
  obtain ⟨ps', text, n, hact, hlen, hgoes, hkeys⟩ := h.step (fun _ => hfew) hstep
  obtain rfl : n = 0 := streamed_eq_nil_iff.mp hkeys.symm
  obtain ⟨p, ps, rfl⟩ := List.exists_cons_of_ne_nil h.live
  obtain ⟨rfl, rfl⟩ := Prod.mk.inj (Option.some.inj hact)
  have hfind : env.directory.find (programName s.sysparam) = none := by
    cases hcase : env.directory.find (programName s.sysparam) with
    | none => rfl
    | some size =>
      rw [programName] at hcase
      simp only [hcase, List.length_cons] at hlen
      omega
  refine Or.inl ⟨hfind, ?_, ?_⟩
  · obtain ⟨-, ⟨-, f, k, -, -, hout⟩ | ⟨-, rc, k, k', hstart, hfin, -, hout⟩ | ⟨hs, -⟩⟩ :=
      Sys.step_call hstep
    · cases hout
    · obtain rfl := Option.some.inj hout
      obtain ⟨sched, -, rfl⟩ := Kernel.finishRun_cases hfin
      rcases Kernel.runProgramStart_cases rfl hstart with ⟨io, -, heq⟩ | ⟨_, _, _, _, _, _, -, -, -, heq⟩
      · obtain ⟨rfl, -⟩ := Kernel.RunResult.returned.inj heq
        show (UInt8.toInt8 ((SyscallParam.setInt _ 0 1 retcode_fits).bytes.getD 0 0)).toInt32 = 1
        rw [SyscallParam.getD_setInt_zero]
        rfl
      · nomatch heq
    · exact absurd rfl hs
  · rw [programName] at hfind
    simpa only [hfind] using hgoes

theorem Ready.ran_later {amb : Ambient} {es : List Event} {m₁ m₂ m : Sys} {out : SyscallParam}
    (h : Ready env ps s)
    (hcall : Guarded Sys.Orderly (Sys.Step env) s.sys (.sys amb 7 s.sysparam) m₁)
    (hpush : m₁.frames.length = s.sys.frames.length + 1)
    (hrun : Run (Above (Guarded Sys.Orderly (Sys.Step env)) Sys.frames m₁.frames.length) m₁ es m₂)
    (hexit : m₂.step env .exit = some (m, some out))
    (hback : m.frames.length = s.sys.frames.length) :
    Ran env ps (programName s.sysparam) s ⟨m, out⟩ := by
  have hreading := Sys.reading_reachable h.reachable
  have hsettled : Sys.Settled Io.Wired s.sys := Sys.settled_reachable h.reachable
  have hdepth : s.sys.frames.length = ps.length := by rw [h.stacked.frames_eq, length_framesOf]
  obtain ⟨ps₁, text₁, hact, ⟨hm₁, hsettled₁⟩, hscreen₁⟩ :=
    Sys.simulates_programs env _ _ _ ps ⟨h.stacked, hsettled⟩ ⟨hcall.1.1, hcall.2⟩
  obtain ⟨size, hfind⟩ : ∃ size, env.directory.find (programName s.sysparam) = some size := by
    cases hcase : env.directory.find (programName s.sysparam) with
    | some size => exact ⟨size, rfl⟩
    | none =>
      obtain ⟨p, ps, rfl⟩ := List.exists_cons_of_ne_nil h.live
      obtain ⟨rfl, -⟩ := Prod.mk.inj (Option.some.inj hact)
      rw [programName] at hcase
      rw [hm₁.frames_eq, length_framesOf, hdepth] at hpush
      simp only [hcase, List.length_cons] at hpush
      omega
  have htext₁ : text₁ = directoryText env.directory.entries := by
    obtain ⟨p, ps, rfl⟩ := List.exists_cons_of_ne_nil h.live
    exact (Prod.mk.inj (Option.some.inj hact)).2.symm
  obtain rfl : ps₁ = ⟨programName s.sysparam, size⟩ :: ps := Program.machine_called hact rfl hfind
  -- the program and what it calls
  rw [hpush, hdepth] at hrun
  have hroomy : Run (Above (Guarded Sys.Roomy (Sys.Step env)) Sys.frames (ps.length + 1)) m₁ es m₂ :=
    hrun.mono fun _ _ _ hst => ⟨⟨hst.1.1.1, hst.1.2⟩, hst.2⟩
  obtain ⟨qs, text, hexec, hm₂, hscreen₂⟩ :=
    @Sys.run_above env m₁ m₂ es (_ :: ps) [] hroomy hm₁ hsettled₁
  obtain ⟨ps', text', hstop, hm, hscreen⟩ := hm₂.exit_step hexit
  obtain ⟨rfl, rfl⟩ : ps' = ps ∧ text' = [] := by
    have hlen : ps'.length = ps.length := by
      rw [← hdepth, ← hback, hm.frames_eq, length_framesOf]
    cases qs with
    | nil =>
      obtain ⟨rfl, rfl⟩ := Prod.mk.inj (Option.some.inj hstop)
      exact ⟨rfl, rfl⟩
    | cons q qs =>
      have hrest : qs ++ ⟨programName s.sysparam, size⟩ :: ps = ps' :=
        (Prod.mk.inj (Option.some.inj hstop)).1
      rw [← hrest, List.length_append, List.length_cons] at hlen
      omega
  have hall : Run (Sys.Step env) s.sys (.sys amb 7 s.sysparam :: (es ++ [.exit])) m :=
    .cons hcall.2 ((hrun.mono fun _ _ _ hst => hst.1.2).snoc ⟨_, hexit⟩)
  obtain ⟨-, hle⟩ := Sys.keys_le (fun _ _ _ hst => hst) hall hreading
  obtain ⟨m₀, es₀, h0, hrun₀⟩ := h.reachable
  refine Or.inr ⟨size, es.map Event.act, text ++ [], m.kernel.io.keys - s.keys, hfind, ?_, ?_,
    ⟨h.live, ⟨m₀, _, h0, hrun₀.append hall⟩, hm⟩, ?_, ?_⟩
  · exact Machine.exec_append hexec (Machine.exec_cons hstop rfl)
  · obtain rfl := Sys.step_exit_params hexit
    show (UInt8.toInt8 ((SyscallParam.setInt _ 0 0 retcode_fits).bytes.getD 0 0)).toInt32 = 0
    rw [SyscallParam.getD_setInt_zero]
    rfl
  · show m.kernel.io.screen = s.sys.kernel.io.screen ++ _
    have hstarted : m₁.kernel.io.screen = s.sys.kernel.io.screen ++ text₁ := hscreen₁
    rw [hscreen, hscreen₂, hstarted, htext₁, List.append_assoc, List.append_assoc]
  · show m.kernel.io.keys = s.sys.kernel.io.keys + (m.kernel.io.keys - s.sys.kernel.io.keys)
    omega

theorem Ready.runProgram (h : Ready env ps s) (hcall : OrderlyCall env s (.runProgram string) s') :
    Ran env ps (programName string) s s' := by
  obtain ⟨sysparam, hrequest, hsyscall⟩ := hcall
  obtain rfl := Option.some.inj hrequest
  have hready : Ready env ps { s with sysparam := string } := ⟨h.live, h.reachable, h.stacked⟩
  have hdepth : s.sys.frames.length = ps.length := by rw [h.stacked.frames_eq, length_framesOf]
  have hran : Ran env ps (programName string) { s with sysparam := string } s' := by
    cases hsyscall with
    | reply horderly hstep => exact hready.ran_at_once (hdepth.symm.trans_lt (horderly.1 rfl)) hstep
    | answer hstep hpush hrun hexit hback =>
      exact hready.ran_later hstep hpush hrun hexit hback
  rcases hran with ⟨hfind, hcode, hgoes⟩ | ⟨size, acts, text, n, hfind, hexec, hcode, hgoes⟩
  · exact Or.inl ⟨hfind, hcode, hgoes.ready, hgoes.screen, hgoes.keys⟩
  · exact Or.inr ⟨size, acts, text, n, hfind, hexec, hcode, hgoes.ready, hgoes.screen, hgoes.keys⟩

theorem Ready.exists_refused (h : Ready env ps s) (hfew : ps.length < 8)
    (hentries : env.bootSector.rootDirEntries ≤ 256) (hnames : env.NamesWithoutNul)
    (hnul : (0 : UInt8) ∈ string.bytes)
    (hfind : env.directory.find (programName string) = none) :
    ∃ s', OrderlyCall env s (.runProgram string) s' := by
  have hdepth : s.sys.frames.length = ps.length := by rw [h.stacked.frames_eq, length_framesOf]
  let amb : Ambient := { calm with fuel := 2 }
  obtain ⟨m, reply, hstep, -⟩ : ∃ m reply, s.sys.step env (.sys amb 7 string) =
      some (m, some reply) ∧ _ :=
    Sys.missing_step h.stacked h.live hfew hentries hnames (le_refl _)
      (Option.map_eq_none_iff.mp hfind)
  have horderly : Sys.Orderly s.sys (.sys amb 7 string) :=
    ⟨fun _ => hdepth.trans_lt hfew, fun hs => absurd hs (by decide), fun hs => absurd hs (by decide),
      fun _ => hnul⟩
  exact ⟨⟨m, reply⟩, string, rfl, .reply horderly hstep⟩

end User

end RML
