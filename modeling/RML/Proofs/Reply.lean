import RML.Proofs.Processes
import RML.Spec.UserIo

/-! What comes back from system call 7. The kernel has one `params`, and `intr`
fills it at every entry: what the caller sent is still there at the exit of the
program it started only when no system call came in between. -/

namespace RML

open Bytes Transition

theorem SyscallParam.length_upper (p : SyscallParam) :
    (stoupper p.bytes).length = SYSCALL_BUF_SIZE := by
  rw [length_stoupper, p.length_eq]

theorem retcode_fits : 0 + 4 ≤ SYSCALL_BUF_SIZE := by decide

def SyscallParam.upper (p : SyscallParam) : SyscallParam := ⟨stoupper p.bytes, p.length_upper⟩

/-- The reply that carries nothing but the name and the result. -/
def SyscallParam.answer (request : SyscallParam) (retcode : ℕ) : SyscallParam :=
  request.upper.setInt 0 (UInt32.ofNat retcode) retcode_fits

theorem getElem?_stoupper {l : List UInt8} {i : ℕ} (h : (cstr l).length ≤ i) :
    (stoupper l)[i]? = l[i]? := by
  rw [stoupper, List.getElem?_append_right (by simpa using h), List.length_map, List.getElem?_drop]
  congr 1
  omega

theorem getElem?_answer {request : SyscallParam} {retcode i : ℕ}
    (hname : (cstr request.bytes).length ≤ i) (hi : 4 ≤ i) :
    (request.answer retcode).bytes[i]? = request.bytes[i]? := by
  have hlen : 0 + (toLE 4 (UInt32.ofNat retcode).toNat).length ≤ (stoupper request.bytes).length := by
    rw [length_toLE, length_stoupper, request.length_eq]
    decide
  show (overwrite (stoupper request.bytes) 0 _)[i]? = _
  rw [getElem?_overwrite hlen, length_toLE, if_neg (by omega), getElem?_stoupper hname]

namespace Kernel

variable {env : Env} {amb : Ambient} {k : Kernel} {currPid : Option ℕ} {name : List UInt8}

theorem lookup_name {io io' : Io} {file : Fat16Entry}
    (h : lookup env amb io name = some (some file, io')) : name.length ≤ 8 := by
  obtain ⟨_, _, -, -, ext, hname⟩ := lookup_found h
  exact length_extractFileName_le hname

/-- `run_program` up to the far call neither reads nor writes `params`. -/
theorem runProgramStart_params {f : Frame} {k' : Kernel} (p : SyscallParam)
    (h : k.runProgramStart env amb currPid name = some (.started f k')) :
    k'.params = k.params ∧
      ({ k with params := p } : Kernel).runProgramStart env amb currPid name =
        some (.started f { k' with params := p }) := by
  obtain ⟨seg, segArr, hseg⟩ : ∃ seg segArr, getFreeSeg k.segArr amb.seg = (seg, segArr) :=
    ⟨_, _, rfl⟩
  rcases runProgramStart_cases hseg h with ⟨io, -, heq⟩ |
    ⟨file, io, io', mem, pid, sched, hlook, hload, hreg, heq⟩
  · cases heq
  · cases heq
    refine ⟨rfl, ?_⟩
    rcases hreg with ⟨hnone, rfl, hset⟩ | ⟨sched', hsome, hset⟩
    · simp [runProgramStart, load, hseg, hlook, hload, hnone, hset, loaded, openStd]
    · simp [runProgramStart, load, hseg, hlook, hload, hsome, hset, loaded, openStd]

theorem returned_params {k' : Kernel} {retcode : ℕ}
    (h : k.runProgramStart env amb currPid name = some (.returned retcode k')) :
    k'.params = k.params := by
  rcases runProgramStart_cases rfl h with ⟨io, -, heq⟩ |
    ⟨file, io, io', mem, pid, sched, -, -, -, heq⟩
  · cases heq
    rfl
  · cases heq

end Kernel

namespace Sys

variable {env : Env} {m m₁ : Sys} {amb : Ambient} {request : SyscallParam} {es : List Event}
  {out : SyscallParam}

/-- The answer to `run_program`, after the program it started made the steps `es`. -/
def Answered (env : Env) (m : Sys) (amb : Ambient) (request : SyscallParam) (es : List Event)
    (out : SyscallParam) : Prop :=
  ∃ m', m.Answers env amb 7 request es m' out

theorem step_seven_started (h : Step env m (.sys amb 7 request) m₁)
    (hlen : m₁.frames.length = m.frames.length + 1) :
    m.frames ≠ [] ∧ ∃ f k, m₁ = ⟨k, f :: m.frames⟩ ∧
      (named m.kernel request).runProgramStart env amb (some m.kernel.sched.runningProc)
        (cstr (stoupper request.bytes)) = some (.started f k) := by
  obtain ⟨out, hstep⟩ := h
  obtain ⟨hne, ⟨-, f, k, hrun, rfl, -⟩ | ⟨-, rc, k, k', -, -, rfl, -⟩ |
    ⟨hs, -⟩⟩ := step_call hstep
  · exact ⟨hne, f, k, rfl, hrun⟩
  · simp at hlen
  · exact absurd rfl hs

theorem step_seven_of_started {f : Frame} {k : Kernel} (hne : m.frames ≠ [])
    (h : (named m.kernel request).runProgramStart env amb (some m.kernel.sched.runningProc)
      (cstr (stoupper request.bytes)) = some (.started f k)) :
    Step env m (.sys amb 7 request) ⟨k, f :: m.frames⟩ := by
  obtain ⟨g, gs, hframes⟩ := List.exists_cons_of_ne_nil hne
  have hd : (entered m.kernel request).dispatch env amb 7 = some (.started f k) := by
    simp only [Kernel.dispatch, Option.bind_eq_bind]
    exact (congrArg (Option.bind · _) h).trans rfl
  refine ⟨none, ?_⟩
  simp only [step, hframes]
  exact (congrArg (Option.bind · _) hd).trans rfl

theorem step_exit_params {m₂ m₃ : Sys} (h : m₂.step env .exit = some (m₃, some out)) :
    out = m₂.kernel.params.setInt 0 (UInt32.ofNat 0) := by
  obtain ⟨f, frames, -, ⟨-, -, heq⟩ | ⟨pid, k, -, hfin, -, heq⟩⟩ := step_exit h
  · cases heq
  · cases heq
    obtain ⟨sched, -, rfl⟩ := Kernel.finishRun_cases hfin
    rfl

/-- The first thing a program can do is a system call, and its request replaces
whatever `params` held. -/
theorem run_forgets_params {k : Kernel} {f : Frame} {fs : List Frame} {m₂ : Sys}
    (h : Run (Above (Step env) Sys.frames (fs.length + 1)) ⟨k, f :: fs⟩ es m₂) (hne : es ≠ [])
    (p : SyscallParam) :
    Run (Above (Step env) Sys.frames (fs.length + 1)) ⟨{ k with params := p }, f :: fs⟩ es m₂ := by
  cases h with
  | nil => exact absurd rfl hne
  | @cons _ e m₁ es _ hstep hrest =>
    obtain ⟨⟨out, hstep⟩, hle⟩ := hstep
    refine .cons ⟨⟨out, ?_⟩, hle⟩ hrest
    cases e with
    | init amb =>
      obtain ⟨hnil, -⟩ := step_init hstep
      cases hnil
    | exit =>
      obtain ⟨g, gs, heq, ⟨-, rfl, -⟩ | ⟨pid, k', -, -, rfl, -⟩⟩ := step_exit hstep
      · cases heq
        simp at hle
      · cases heq
        simp at hle
    | sys amb service request => exact hstep

def runRequested (env : Env) (m : Sys) (amb : Ambient) (request : SyscallParam) :
    Option Kernel.RunResult :=
  (named m.kernel request).runProgramStart env amb (some m.kernel.sched.runningProc)
    (cstr (stoupper request.bytes))

theorem answered_at_once {m' : Sys} {reply : SyscallParam}
    (h : m.step env (.sys amb 7 request) = some (m', some reply)) :
    ∃ retcode k, runRequested env m amb request = some (.returned retcode k) ∧
      reply = request.answer retcode := by
  obtain ⟨-, ⟨-, f, k, -, -, heq⟩ | ⟨-, retcode, k, k', hrun, hfin, -, heq⟩ |
    ⟨hs, -⟩⟩ := step_call h
  · cases heq
  · cases heq
    obtain ⟨sched, -, rfl⟩ := Kernel.finishRun_cases hfin
    refine ⟨retcode, k, hrun, ?_⟩
    simp only [Kernel.returned_params hrun]
    rfl
  · exact absurd rfl hs

theorem answered_without_calls (h : Answered env m amb request [] out) : out = request.answer 0 := by
  obtain ⟨m₃, m₁, m₂, hcall, hlen, hrun, hexit, -⟩ := h
  cases hrun
  obtain ⟨-, f, k, rfl, hstart⟩ := step_seven_started hcall hlen
  obtain ⟨hparams, -⟩ := Kernel.runProgramStart_params SyscallParam.zero hstart
  rw [step_exit_params hexit, hparams]
  rfl

/-- A child that makes a system call hides what its caller sent: another request
for the same program comes back as the same buffer. -/
theorem answered_with_calls (h : Answered env m amb request es out) (hne : es ≠ [])
    (request' : SyscallParam) (hname : cstr request'.bytes = cstr request.bytes) :
    Answered env m amb request' es out := by
  obtain ⟨m₃, m₁, m₂, hcall, hlen, hrun, hexit, hret⟩ := h
  obtain ⟨hlive, f, k, rfl, hstart⟩ := step_seven_started hcall hlen
  obtain ⟨-, hstart'⟩ := Kernel.runProgramStart_params request'.upper hstart
  rw [cstr_stoupper, ← hname, ← cstr_stoupper] at hstart'
  exact ⟨m₃, _, m₂, step_seven_of_started hlive hstart', rfl,
    run_forgets_params hrun hne request'.upper, hexit, hret⟩

theorem answered_name (h : Answered env m amb request es out) : (cstr request.bytes).length ≤ 8 := by
  obtain ⟨m₃, m₁, m₂, hcall, hlen, -⟩ := h
  obtain ⟨-, f, k, -, hstart⟩ := step_seven_started hcall hlen
  rcases Kernel.runProgramStart_cases rfl hstart with ⟨io, -, heq⟩ |
    ⟨file, io, io', mem, pid, sched, hlook, -⟩
  · cases heq
  · simpa [cstr_stoupper] using Kernel.lookup_name hlook

def otherRequest (request : SyscallParam) : SyscallParam :=
  ⟨overwrite request.bytes 575 [request.bytes.getD 575 0 + 1], by
    rw [length_overwrite (by rw [request.length_eq, List.length_singleton]; decide),
      request.length_eq]⟩

theorem otherRequest_name (hname : (cstr request.bytes).length ≤ 8) :
    cstr (otherRequest request).bytes = cstr request.bytes :=
  cstr_eq_of_take (Nat.lt_succ_of_le hname)
    (take_overwrite_of_le (by decide) (by rw [request.length_eq]; decide))

theorem otherRequest_last : (otherRequest request).bytes[575]? ≠ request.bytes[575]? := by
  have hlen : 575 < request.bytes.length := by
    rw [request.length_eq]
    decide
  rw [otherRequest,
    getElem?_overwrite (by rw [request.length_eq, List.length_singleton]; decide)]
  simp [List.getElem?_eq_getElem hlen]

theorem answered_iff (h : Answered env m amb request es out) :
    (∀ request' reply, cstr request'.bytes = cstr request.bytes →
      Answered env m amb request' es reply → reply = request'.answer 0) ↔ es = [] := by
  constructor
  · intro hlaw
    by_contra hne
    have hname := answered_name h
    have hother := otherRequest_name hname
    have h1 := hlaw request out rfl h
    have h2 := hlaw (otherRequest request) out hother (answered_with_calls h hne _ hother)
    have hlast : (request.answer 0).bytes[575]? = ((otherRequest request).answer 0).bytes[575]? := by
      rw [← h1, ← h2]
    rw [getElem?_answer (by omega) (by decide),
      getElem?_answer (by rw [hother]; omega) (by decide)] at hlast
    exact otherRequest_last hlast.symm
  · rintro rfl request' reply - hanswered
    exact answered_without_calls hanswered

/-- The reply to `run_program`: an immediate one holds the upper-cased name and the code
that `run_program` returned, and is the request otherwise; one that comes after the program
ran does so, whatever was sent with the name, exactly when the program made no system call. -/
theorem reply_without_child_iff (env : Env) (m : Sys) (amb : Ambient) (request : SyscallParam) :
    (∀ m' reply, m.step env (.sys amb 7 request) = some (m', some reply) →
        ∃ retcode k, runRequested env m amb request = some (.returned retcode k) ∧
          reply = request.answer retcode) ∧
      ∀ es out, Answered env m amb request es out →
        ((∀ request' reply, cstr request'.bytes = cstr request.bytes →
          Answered env m amb request' es reply → reply = request'.answer 0) ↔ es = []) :=
  ⟨fun _ _ hstep => answered_at_once hstep, fun _ _ h => answered_iff h⟩

def speak : SyscallParam :=
  ⟨ascii "hello" ++ List.replicate 571 0, by decide +kernel⟩

def spoken : Sys :=
  (exec (.ofVolume floppy) [.sys calm 4 speak] twoLive).get (by decide +kernel)

theorem frames_spoken : spoken.frames = twoLive.frames := by
  rw [frames_twoLive]
  decide +kernel

theorem answered_spoken : ∃ out,
    Answered (.ofVolume floppy) oneLive calm callInit [.sys calm 4 speak] out ∧
      out = spoken.kernel.params.setInt 0 (UInt32.ofNat 0) := by
  have hlen : twoLive.frames.length = oneLive.frames.length + 1 := by decide +kernel
  have hstep : Step (.ofVolume floppy) twoLive (.sys calm 4 speak) spoken :=
    step_of_exec (Option.some_get _).symm
  have hreply : (spoken.step (.ofVolume floppy) .exit).bind (·.2) ≠ none := by decide +kernel
  obtain ⟨out, hout⟩ := Option.ne_none_iff_exists'.mp hreply
  obtain ⟨⟨m₃, out'⟩, hexit, rfl⟩ := Option.bind_eq_some_iff.mp hout
  refine ⟨out, ⟨m₃, twoLive, spoken, step_twoLive, hlen, ?_, hexit, ?_⟩, step_exit_params hexit⟩
  · exact .single ⟨hstep, by rw [frames_spoken]⟩
  · obtain ⟨f, frames, hframes, ⟨-, rfl, -⟩ | ⟨pid, k, -, -, rfl, -⟩⟩ := step_exit hexit
    all_goals
      rw [frames_spoken] at hframes
      rw [hframes, List.length_cons] at hlen
      show frames.length = _
      omega

theorem reply_without_child_iff_spoken :
    (∃ m' retcode, oneLive.step (.ofVolume floppy) (.sys calm 7 speak) =
      some (m', some (speak.answer retcode))) ∧
    ¬ ∀ request reply, cstr request.bytes = cstr callInit.bytes →
      Answered (.ofVolume floppy) oneLive calm request [.sys calm 4 speak] reply →
        reply = request.answer 0 := by
  constructor
  · have hreply : (oneLive.step (.ofVolume floppy) (.sys calm 7 speak)).bind (·.2) ≠ none := by
      decide +kernel
    obtain ⟨reply, hout⟩ := Option.ne_none_iff_exists'.mp hreply
    obtain ⟨⟨m', out⟩, hstep, rfl⟩ := Option.bind_eq_some_iff.mp hout
    obtain ⟨retcode, k, -, hanswer⟩ :=
      (reply_without_child_iff (.ofVolume floppy) oneLive calm speak).1 m' reply hstep
    exact ⟨m', retcode, hanswer ▸ hstep⟩
  · obtain ⟨out, h, -⟩ := answered_spoken
    rw [(reply_without_child_iff (.ofVolume floppy) oneLive calm callInit).2 _ out h]
    exact List.cons_ne_nil _ _

/-- The caller of a program that printed `hello` finds the last letter of it behind the
result. -/
theorem reply_carries_child : ¬ ∀ env m amb request es out, Reachable env m →
    Answered env m amb request es out → out = request.answer 0 := by
  intro hlaw
  obtain ⟨out, h, hout⟩ := answered_spoken
  have hreach : Reachable (.ofVolume floppy) oneLive :=
    ⟨booted, _, boot_booted, .single step_oneLive⟩
  have heq := hlaw (.ofVolume floppy) oneLive calm callInit _ out hreach h
  rw [hout] at heq
  have hne : spoken.kernel.params.setInt 0 (UInt32.ofNat 0) ≠ callInit.answer 0 := by
    decide +kernel
  exact hne heq

end Sys

end RML
