import RML.Proofs.Columns
import RML.Proofs.Images
import RML.Proofs.Keyboard
import RML.Proofs.Shell

/-! What a program sees of its calls: the text that each of them shows, the keys that it
takes, and that the program goes on among the same programs as before. -/

namespace RML

open Bytes Decimal Transition

theorem Sys.reading_reachable {env : Env} {m : Sys} (h : Reachable env m) : Reading env m := by
  obtain ⟨m₀, es, h0, hrun⟩ := h
  refine hrun.invariant (Reading env) ?_ ⟨laid_boot h0, settled_boot h0 (Rooted.of_boot h0)⟩
  rintro m e m' hm ⟨out, hstep⟩
  exact (reading_step m (e, out) m' hm hstep).1

def Act.shown : Act → Option (List UInt8)
  | .print text => some text
  | .clock c => some (clockText c)
  | .quiet => some []
  | _ => none

theorem Program.machine_shown {dir : Directory} {ps : List Program} {a : Act} {text : List UInt8}
    (hne : ps ≠ []) (h : a.shown = some text) : machine dir ps a = some (ps, text) := by
  obtain ⟨p, ps, rfl⟩ := List.exists_cons_of_ne_nil hne
  cases a <;> cases h <;> rfl

namespace User

/-- A process of the stack `ps` runs. -/
structure Ready (env : Env) (ps : List Program) (s : User) : Prop where
  live : ps ≠ []
  reachable : Sys.Reachable env s.sys
  stacked : Stacked env s.sys ps

def screen (s : User) : List UInt8 := s.sys.kernel.io.screen

def keys (s : User) : ℕ := s.sys.kernel.io.keys

/-- `syscall` comes back, no program was called on top of eight, and no call left the
tables and the buffer. -/
inductive OrderlySyscall (env : Env) (service : ℕ) : User → User → Prop
  | reply {s : User} {amb : Ambient} {m : Sys} {out : SyscallParam} :
      Sys.Orderly s.sys (.sys amb service s.sysparam) →
      s.sys.step env (.sys amb service s.sysparam) = some (m, some out) →
      OrderlySyscall env service s ⟨m, out⟩
  | answer {s : User} {amb : Ambient} {es : List Event} {m₁ m₂ m : Sys} {out : SyscallParam} :
      Guarded Sys.Orderly (Sys.Step env) s.sys (.sys amb service s.sysparam) m₁ →
      m₁.frames.length = s.sys.frames.length + 1 →
      Run (Above (Guarded Sys.Orderly (Sys.Step env)) Sys.frames m₁.frames.length) m₁ es m₂ →
      m₂.step env .exit = some (m, some out) → m.frames.length = s.sys.frames.length →
      OrderlySyscall env service s ⟨m, out⟩

def OrderlyCall (env : Env) (s : User) (c : UserCall) (s' : User) : Prop :=
  ∃ sysparam, c.request s.sysparam = some sysparam ∧
    OrderlySyscall env c.service { s with sysparam := sysparam } s'

variable {env : Env} {s s' s'' : User} {c : UserCall} {ps : List Program}

theorem OrderlyCall.call (h : OrderlyCall env s c s') : Call env s c s' := by
  obtain ⟨sysparam, hrequest, hsyscall⟩ := h
  refine ⟨sysparam, hrequest, ?_⟩
  cases hsyscall with
  | reply _ hstep => exact .reply hstep
  | answer hcall hpush hrun hexit hlen =>
    have hrun' := hrun.mono fun s e t h => (⟨h.1.2, h.2⟩ : Above (Sys.Step env) Sys.frames _ s e t)
    exact .answer ⟨_, _, hcall.2, hpush, hrun', hexit, hlen⟩

theorem step_of_syscall {service : ℕ} (hs : service ≠ 7) (h : Syscall env service s s') :
    ∃ amb, s.sys.step env (.sys amb service s.sysparam) = some (s'.sys, some s'.sysparam) := by
  cases h with
  | reply hstep => exact ⟨_, hstep⟩
  | answer hanswer =>
    obtain ⟨m₁, m₂, ⟨out, hcall⟩, hpush, -⟩ := hanswer
    obtain ⟨-, ⟨rfl, -⟩ | ⟨rfl, -⟩ | ⟨-, io, params, -, rfl, -⟩⟩ := Sys.step_call hcall
    · exact absurd rfl hs
    · exact absurd rfl hs
    · exact absurd hpush (Nat.lt_succ_self _).ne

theorem inBounds_of_service {amb : Ambient} {service : ℕ} {sysparam : SyscallParam}
    (h : service ∉ [4, 7, 10, 11, 12, 13]) : (Event.sys amb service sysparam).InBounds := by
  simp only [List.mem_cons, List.not_mem_nil, or_false, not_or] at h
  obtain ⟨h4, h7, h10, h11, h12, h13⟩ := h
  exact ⟨fun hs => absurd hs (not_or.mpr ⟨h11, not_or.mpr ⟨h12, h13⟩⟩), fun hs => absurd hs h10,
    fun hs => absurd hs (not_or.mpr ⟨h4, not_or.mpr ⟨h7, h10⟩⟩)⟩

theorem OrderlyCall.of_call (hc : c.service ≠ 7)
    (hin : ∀ amb sysparam, c.request s.sysparam = some sysparam →
      (Event.sys amb c.service sysparam).InBounds)
    (h : Call env s c s') : OrderlyCall env s c s' := by
  obtain ⟨sysparam, hrequest, hsyscall⟩ := h
  obtain ⟨amb, hstep⟩ := step_of_syscall hc hsyscall
  exact ⟨sysparam, hrequest,
    .reply ⟨fun heq => absurd heq hc, hin amb sysparam hrequest⟩ hstep⟩

/-- From `s` to `s'` the process has shown `text` and taken `n` keys. -/
structure Goes (env : Env) (ps : List Program) (s s' : User) (text : List UInt8) (n : ℕ) :
    Prop where
  ready : Ready env ps s'
  screen : s'.screen = s.screen ++ text
  keys : s'.keys = s.keys + n

theorem Goes.refl (h : Ready env ps s) : Goes env ps s s [] 0 :=
  ⟨h, (List.append_nil _).symm, rfl⟩

theorem Goes.trans {text text' : List UInt8} {n n' : ℕ} (h : Goes env ps s s' text n)
    (h' : Goes env ps s' s'' text' n') : Goes env ps s s'' (text ++ text') (n + n') :=
  ⟨h'.ready, by rw [h'.screen, h.screen, List.append_assoc],
    by rw [h'.keys, h.keys, Nat.add_assoc]⟩

theorem Ready.frames_ne (h : Ready env ps s) : s.sys.frames ≠ [] :=
  mt h.stacked.eq_nil_iff.mpr h.live

theorem Ready.step {service : ℕ} {amb : Ambient} {m : Sys} {out : SyscallParam}
    (h : Ready env ps s) (hroom : service = 7 → ps.length < 8)
    (hstep : s.sys.step env (.sys amb service s.sysparam) = some (m, some out)) :
    ∃ ps' text n, Program.machine env.directory ps (Event.sys amb service s.sysparam).act =
        some (ps', text) ∧ ps'.length = ps.length ∧ Goes env ps' s ⟨m, out⟩ text n ∧
      typed (.sys amb service s.sysparam, some out) = streamed env.key s.keys n := by
  have hreading := Sys.reading_reachable h.reachable
  obtain ⟨ps', text, hact, hstacked, hscreen⟩ :=
    h.stacked.sys_step hreading.laid.wired hroom hstep
  obtain ⟨-, n, hkeys, htyped⟩ := Sys.reading_step s.sys (_, some out) m hreading hstep
  have hframes : m.frames = s.sys.frames :=
    (syscall_frames (.reply hstep : Syscall env service s ⟨m, out⟩)).2
  have hlen : ps'.length = ps.length := by
    rw [← length_framesOf ps'.length, ← hstacked.frames_eq, hframes, h.stacked.frames_eq,
      length_framesOf]
  have hlive : ps' ≠ [] := by
    rw [← List.length_pos_iff, hlen, List.length_pos_iff]
    exact h.live
  obtain ⟨m₀, es, h0, hrun⟩ := h.reachable
  exact ⟨ps', text, n, hact, hlen,
    ⟨⟨hlive, ⟨m₀, _, h0, hrun.snoc ⟨_, hstep⟩⟩, hstacked⟩, hscreen, hkeys⟩, htyped⟩

theorem Ready.called (h : Ready env ps s) (hc : c.service ≠ 7) (hcall : Call env s c s') :
    ∃ sysparam amb n, c.request s.sysparam = some sysparam ∧
      typed (.sys amb c.service sysparam, some s'.sysparam) = streamed env.key s.keys n ∧
      ∀ text, (Event.sys amb c.service sysparam).act.shown = some text →
        Goes env ps s s' text n := by
  obtain ⟨sysparam, hrequest, hsyscall⟩ := hcall
  obtain ⟨amb, hstep⟩ := step_of_syscall hc hsyscall
  have hready : Ready env ps { s with sysparam := sysparam } := ⟨h.live, h.reachable, h.stacked⟩
  obtain ⟨ps', text, n, hact, -, hgoes, htyped⟩ :=
    Ready.step hready (fun heq => absurd heq hc) hstep
  refine ⟨sysparam, amb, n, hrequest, htyped, fun text' hshown => ?_⟩
  obtain ⟨rfl, rfl⟩ := Prod.mk.inj (Option.some.inj (hact.symm.trans
    (Program.machine_shown h.live hshown)))
  exact ⟨hgoes.ready, hgoes.screen, hgoes.keys⟩

theorem streamed_eq_nil_iff {stream : ℕ → UInt8} {n m : ℕ} : streamed stream n m = [] ↔ m = 0 := by
  rw [streamed, List.map_eq_nil_iff, List.range'_eq_nil_iff]

theorem Ready.shown (h : Ready env ps s) (hc : c.service ≠ 7) (hcall : Call env s c s')
    (htyped : ∀ amb sysparam out, typed (.sys amb c.service sysparam, some out) = []) :
    ∃ sysparam amb, c.request s.sysparam = some sysparam ∧
      ∀ text, (Event.sys amb c.service sysparam).act.shown = some text →
        Goes env ps s s' text 0 := by
  obtain ⟨sysparam, amb, n, hrequest, hkeys, hgoes⟩ := Ready.called h hc hcall
  rw [htyped, eq_comm, streamed_eq_nil_iff] at hkeys
  subst hkeys
  exact ⟨sysparam, amb, hrequest, hgoes⟩

theorem Ready.mywrite {chunk : List UInt8} {count : UInt32} (h : Ready env ps s)
    (hlen : chunk.length = count.toNat) (hfit : count.toNat ≤ SYSCALL_DATA_SIZE)
    (hcall : Call env s (.mywrite 1 chunk count) s') : Goes env ps s s' chunk 0 := by
  obtain ⟨sysparam, amb, hrequest, hgoes⟩ := Ready.shown (c := .mywrite 1 chunk count) h
    (show 14 ≠ 7 by decide) hcall fun _ _ _ => rfl
  obtain ⟨q, hq, hargs, -, htake, -⟩ :=
    @writesThrough_of_le env s amb 1 chunk count h.frames_ne hlen hfit
  obtain rfl := Option.some.inj (hq.symm.trans hrequest)
  obtain ⟨hfd, hcount⟩ := FileCall.write.inj (Option.some.inj hargs)
  apply hgoes
  have hone : q.fd.toInt = 1 := hfd
  show Act.shown (if q.fd.toInt = 1 ∨ q.fd.toInt = 2 then
    .print (q.bytes.take q.size.toNat) else .quiet) = some chunk
  rw [if_pos (Or.inl hone), hcount, htake]
  rfl

theorem Ready.exists_mywrite {chunk : List UInt8} {count : UInt32} (h : Ready env ps s)
    (hlen : chunk.length = count.toNat) (hfit : count.toNat ≤ SYSCALL_DATA_SIZE) :
    ∃ s', OrderlyCall env s (.mywrite 1 chunk count) s' := by
  obtain ⟨s', hcall, -⟩ := call_of_writesThrough
    (@writesThrough_of_le env s calm 1 chunk count h.frames_ne hlen hfit)
  exact ⟨s', .of_call (show 14 ≠ 7 by decide)
    (fun _ _ _ => inBounds_of_service (show 14 ∉ [4, 7, 10, 11, 12, 13] by decide)) hcall⟩

theorem Ready.getchar (h : Ready env ps s) (hcall : Call env s (.myread 0 1) s') :
    Goes env ps s s' [] 1 ∧ s'.myreadBuf 1 = some [env.key s.keys] := by
  obtain ⟨sysparam, amb, n, hrequest, hkeys, hgoes⟩ :=
    Ready.called (c := .myread 0 1) h (show 13 ≠ 7 by decide) hcall
  have hsent : (s.sysparam.setFd 0).setSize 1 = sysparam := Option.some.inj hrequest
  have hfd : sysparam.fd.toInt = 0 := by
    rw [← hsent, SyscallParam.fd_setSize, SyscallParam.fd_setFd]
    rfl
  have hsize : sysparam.size.toNat = 1 := by
    rw [← hsent, SyscallParam.size_setSize]
    rfl
  have htaken : s'.sysparam.bytes.take 1 = streamed env.key s.keys n := by
    rw [← hkeys]
    show _ = if sysparam.fd.toInt ≠ 1 ∧ sysparam.fd.toInt ≠ 4 ∧ sysparam.fd.toInt ≠ 5 then
      s'.sysparam.bytes.take sysparam.size.toNat else []
    rw [hfd, hsize, if_pos (by decide)]
  obtain rfl : n = 1 := by
    have hlen := congrArg List.length htaken
    rw [List.length_take, s'.sysparam.length_eq, streamed, List.length_map,
      List.length_range'] at hlen
    exact hlen.symm
  refine ⟨hgoes [] rfl, ?_⟩
  rw [myreadBuf, SyscallParam.memcpyOut, if_neg (by decide)]
  exact congrArg some htaken

theorem Ready.exists_getchar (h : Ready env ps s) : ∃ s', OrderlyCall env s (.myread 0 1) s' := by
  obtain ⟨s', hcall, -⟩ := @getchar_key env s { calm with fuel := 1 } h.reachable h.frames_ne
    (le_refl 1)
  refine ⟨s', .of_call (show 13 ≠ 7 by decide) (fun _ sysparam hrequest => ?_) hcall⟩
  obtain rfl : (s.sysparam.setFd 0).setSize 1 = sysparam := Option.some.inj hrequest
  have hfd : ((s.sysparam.setFd 0).setSize 1).fd.toInt = 0 := by
    rw [SyscallParam.fd_setSize, SyscallParam.fd_setFd]
    rfl
  refine ⟨fun _ => ?_, fun hs => absurd hs (by decide), fun hs => absurd hs (by decide)⟩
  rw [hfd]
  decide

theorem Ready.exists_call {a : Ambient} {k : Kernel} (h : Ready env ps s)
    (hc : c.service ∉ [4, 7, 10, 11, 12, 13])
    (hrequest : c.request s.sysparam = some s.sysparam)
    (hd : (Sys.entered s.sys.kernel s.sysparam).dispatch env a c.service = some (.reply k)) :
    ∃ s', OrderlyCall env s c s' := by
  have hservice : c.service ≠ 7 := fun heq => hc (by rw [heq]; decide)
  exact ⟨_, s.sysparam, hrequest, .reply ⟨fun heq => absurd heq hservice, inBounds_of_service hc⟩
    (Sys.step_of_reply (m := s.sys) h.frames_ne hd)⟩

theorem Ready.callInt (h : Ready env ps s) (hcall : Call env s .callInt s') :
    Goes env ps s s' (ascii "system call!\r\n") 0 := by
  obtain ⟨_, _, -, hgoes⟩ := Ready.shown (c := .callInt) h (show 0 ≠ 7 by decide) hcall
    fun _ _ _ => rfl
  exact hgoes _ rfl

theorem Ready.halt (h : Ready env ps s) (hcall : Call env s .halt s') : Goes env ps s s' [] 0 := by
  obtain ⟨_, _, -, hgoes⟩ := Ready.shown (c := .halt) h (show 1 ≠ 7 by decide) hcall
    fun _ _ _ => rfl
  exact hgoes _ rfl

theorem not_reboot : ¬ Call env s .reboot s' := by
  rintro ⟨sysparam, -, hsyscall⟩
  obtain ⟨amb, hstep⟩ := step_of_syscall (show 2 ≠ 7 by decide) hsyscall
  obtain ⟨-, ⟨h7, -⟩ | ⟨h7, -⟩ | ⟨-, io, params, hd, -⟩⟩ := Sys.step_call hstep
  · cases h7
  · cases h7
  · cases hd

theorem Ready.time (h : Ready env ps s) (hcall : Call env s .time s') :
    ∃ c, Goes env ps s s' (clockText c) 0 := by
  obtain ⟨_, amb, -, hgoes⟩ := Ready.shown (c := .time) h (show 15 ≠ 7 by decide) hcall
    fun _ _ _ => rfl
  exact ⟨amb.clock, hgoes _ rfl⟩

theorem Ready.exists_time (h : Ready env ps s) (c : Clock) :
    ∃ s', OrderlyCall env s .time s' ∧ Goes env ps s s' (clockText c) 0 := by
  let amb : Ambient := { calm with clock := c }
  have hd : (Sys.entered s.sys.kernel s.sysparam).dispatch env amb 15 = some (.reply
      { Sys.entered s.sys.kernel s.sysparam with
        io := (Sys.entered s.sys.kernel s.sysparam).io.printk (clockText c) }) := by
    simp only [Kernel.dispatch, Kernel.time_eq, Option.bind_eq_bind, Option.bind_some]
    rfl
  have hstep := Sys.step_of_reply (m := s.sys) h.frames_ne hd
  obtain ⟨ps', text, n, hact, -, hgoes, hkeys⟩ := h.step (fun heq => by cases heq) hstep
  obtain rfl : n = 0 := streamed_eq_nil_iff.mp hkeys.symm
  have hshown : Program.machine env.directory ps (Event.sys amb 15 s.sysparam).act =
      some (ps, clockText c) := Program.machine_shown h.live rfl
  obtain ⟨rfl, rfl⟩ := Prod.mk.inj (Option.some.inj (hact.symm.trans hshown))
  have horderly : Sys.Orderly s.sys (.sys amb 15 s.sysparam) :=
    ⟨fun heq => absurd heq (by decide), inBounds_of_service (by decide)⟩
  exact ⟨_, ⟨s.sysparam, rfl, .reply horderly hstep⟩, hgoes⟩

/-! `vfprintf` hands over short chunks: characters, and numbers of at most six. -/

theorem chunks_short {template : List UInt8} {fuel i : ℕ} {ap : List PrintfArg} {r : Printed}
    (h : vfprintfLoop template fuel i ap = some r) : ∀ chunk ∈ r.chunks, chunk.length ≤ 6 := by
  induction fuel generalizing i ap r with
  | zero => cases h
  | succ fuel ih =>
    have hrest : ∀ {i : ℕ} {ap : List PrintfArg} {l : List (List UInt8)},
        (∀ chunk ∈ l, chunk.length ≤ 6) →
        (vfprintfLoop template fuel i ap).bind
          (fun r => some { r with chunks := l ++ r.chunks }) = some r →
        ∀ chunk ∈ r.chunks, chunk.length ≤ 6 := by
      intro i ap l hl hbind chunk hmem
      obtain ⟨r', hr', heq⟩ := Option.bind_eq_some_iff.mp hbind
      cases heq
      rcases List.mem_append.mp hmem with hin | hin
      · exact hl chunk hin
      · exact ih hr' chunk hin
    simp only [vfprintfLoop, Option.bind_eq_bind, Option.bind_eq_some_iff] at h
    obtain ⟨c, -, h⟩ := h
    split_ifs at h with h0 hlit
    · cases h
      simp
    · exact hrest (l := [[c]]) (by simp) h
    · obtain ⟨d, -, h⟩ := Option.bind_eq_some_iff.mp h
      split_ifs at h with hs hd
      · split at h
        · exact hrest (by simp) h
        · cases h
      · split at h
        · obtain ⟨strnum, hitoa, h⟩ := Option.bind_eq_some_iff.mp h
          have hsix : strnum.length ≤ 6 := by
            simp only [itoa, Option.ite_none_right_eq_some, Option.some.injEq] at hitoa
            obtain ⟨hle, rfl⟩ := hitoa
            exact hle
          exact hrest (l := [strnum]) (by simpa using hsix) h
        · cases h
      · exact ih h

theorem printf_short {format : List UInt8} {ap : List PrintfArg} {r : Printed}
    (h : printf format ap = some r) : ∀ chunk ∈ r.chunks, chunk.length ≤ 6 := by
  rw [printf, vfprintfStream, if_pos rfl] at h
  exact chunks_short h

def writes (chunks : List (List UInt8)) : List UserCall :=
  chunks.map fun chunk => .mywrite 1 chunk (UInt32.ofNat chunk.length)

theorem length_chunk {chunk : List UInt8} (h : chunk.length ≤ 6) :
    chunk.length = (UInt32.ofNat chunk.length).toNat :=
  (UInt32.toNat_ofNat_of_lt' (h.trans_lt (by decide))).symm

theorem chunk_fits {chunk : List UInt8} (h : chunk.length ≤ 6) :
    (UInt32.ofNat chunk.length).toNat ≤ SYSCALL_DATA_SIZE := by
  rw [← length_chunk h]
  exact h.trans (by decide)

theorem Ready.writes {chunks : List (List UInt8)} (h : Ready env ps s)
    (hshort : ∀ chunk ∈ chunks, chunk.length ≤ 6)
    (hrun : Run (OrderlyCall env) s (writes chunks) s') : Goes env ps s s' chunks.flatten 0 := by
  induction chunks generalizing s with
  | nil =>
    cases hrun
    exact .refl h
  | cons chunk chunks ih =>
    cases hrun with
    | cons hcall hrest =>
      have hone := hshort chunk List.mem_cons_self
      have hfirst := h.mywrite (length_chunk hone) (chunk_fits hone) hcall.call
      exact hfirst.trans
        (ih hfirst.ready (fun c hc => hshort c (List.mem_cons_of_mem chunk hc)) hrest)

theorem Ready.exists_writes {chunks : List (List UInt8)} (h : Ready env ps s)
    (hshort : ∀ chunk ∈ chunks, chunk.length ≤ 6) :
    ∃ s', Run (OrderlyCall env) s (User.writes chunks) s' := by
  induction chunks generalizing s with
  | nil => exact ⟨s, .nil s⟩
  | cons chunk chunks ih =>
    have hone := hshort chunk List.mem_cons_self
    obtain ⟨s₁, hcall⟩ := h.exists_mywrite (length_chunk hone) (chunk_fits hone)
    have hfirst := h.mywrite (length_chunk hone) (chunk_fits hone) hcall.call
    obtain ⟨s', hrun⟩ := ih hfirst.ready fun c hc => hshort c (List.mem_cons_of_mem chunk hc)
    exact ⟨s', .cons hcall hrun⟩

/-- `printf` of the template shows `text`, with something behind it on the stack. -/
def Formatted (template text : List UInt8) : Prop :=
  ∃ ap r, printf template ap = some r ∧ text = r.chunks.flatten

/-- A template with neither a NUL nor a `%` is shown as it is. -/
theorem formatted_plain {template text : List UInt8} (h0 : (0 : UInt8) ∉ template)
    (h : (37 : UInt8) ∉ template) : Formatted template text ↔ text = template := by
  constructor
  · rintro ⟨ap, r, hprintf, rfl⟩
    obtain ⟨r', hprintf', -, htext⟩ := printf_plain h0 h ap
    obtain rfl := Option.some.inj (hprintf.symm.trans hprintf')
    exact htext
  · rintro rfl
    obtain ⟨r, hprintf, -, htext⟩ := printf_plain h0 h []
    exact ⟨[], r, hprintf, htext.symm⟩

end User

end RML
