import RML.Proofs.Positions
import RML.Proofs.Bounds
import RML.Spec.UserIo

/-! What gets through `sysparam`: a pathname with whatever an earlier call left
behind it, and data as far as they fit before the metadata. -/

namespace RML

open Bytes Transition

theorem memcpyLen_eq {n : UInt32} (h : n.toNat < 2 ^ 31) : memcpyLen n = n.toNat := by
  have hint : n.toInt32.toInt = (n.toNat : ℤ) := by
    rw [← Int32.toInt_toBitVec, BitVec.toInt_eq_toNat_of_lt]
    · rfl
    · show 2 * n.toNat < 2 ^ 32
      omega
  rw [memcpyLen, hint, Int.toNat_natCast]

namespace SyscallParam

variable {p q : SyscallParam} {off o : ℕ} {v : UInt32} {bs : List UInt8}

theorem write_eq_some (p : SyscallParam) (h : off + bs.length ≤ SYSCALL_BUF_SIZE) :
    ∃ q, p.write off bs = some q ∧ q.bytes = overwrite p.bytes off bs :=
  ⟨_, dif_pos h, rfl⟩

theorem bytes_of_write (h : p.write off bs = some q) :
    off + bs.length ≤ p.bytes.length ∧ q.bytes = overwrite p.bytes off bs := by
  rw [p.length_eq]
  unfold write at h
  split at h
  · next hle =>
    cases h
    exact ⟨hle, rfl⟩
  · cases h

theorem int_setInt (h : off + 4 ≤ SYSCALL_BUF_SIZE) : (p.setInt off v h).int off = v := by
  have hlen : off + (toLE 4 v.toNat).length ≤ p.bytes.length := by
    rw [length_toLE, p.length_eq]
    exact h
  have hslice := slice_overwrite_self hlen
  rw [length_toLE] at hslice
  have hlt : v.toNat < 256 ^ 4 := v.toNat_lt
  rw [int, setInt, hslice, ofLE_toLE_of_lt hlt, UInt32.ofNat_toNat]

theorem int_setInt_of_disjoint (h : off + 4 ≤ SYSCALL_BUF_SIZE) (hd : o + 4 ≤ off ∨ off + 4 ≤ o) :
    (p.setInt off v h).int o = p.int o := by
  have hlen : off + (toLE 4 v.toNat).length ≤ p.bytes.length := by
    rw [length_toLE, p.length_eq]
    exact h
  rw [int, setInt, slice_overwrite_disjoint hlen (by rwa [length_toLE]), int]

theorem int_write (h : p.write 0 bs = some q) (ho : bs.length ≤ o) : q.int o = p.int o := by
  obtain ⟨hlen, hbytes⟩ := bytes_of_write h
  rw [int, hbytes, slice_overwrite_disjoint hlen (Or.inr (by omega)), int]

@[simp] theorem fd_setFd (p : SyscallParam) (fd : Int32) : (p.setFd fd).fd = fd := by
  rw [SyscallParam.fd, setFd, int_setInt]
  rfl

@[simp] theorem size_setSize (p : SyscallParam) (v : UInt32) : (p.setSize v).size = v :=
  int_setInt _

@[simp] theorem fd_setSize (p : SyscallParam) (v : UInt32) : (p.setSize v).fd = p.fd := by
  rw [SyscallParam.fd, setSize, int_setInt_of_disjoint _ (Or.inr (by decide)), SyscallParam.fd]

theorem memcpy_eq_some {src : List UInt8} {n : UInt32} (hsrc : src.length = n.toNat)
    (hn : n.toNat ≤ SYSCALL_BUF_SIZE) :
    ∃ q, p.memcpy src n = some q ∧ p.write 0 src = some q ∧ q.bytes = overwrite p.bytes 0 src := by
  have hsmall : n.toNat < 2 ^ 31 := lt_of_le_of_lt hn (by decide)
  obtain ⟨q, hq, hbytes⟩ := write_eq_some p (show 0 + src.length ≤ SYSCALL_BUF_SIZE by omega)
  refine ⟨q, ?_, hq, hbytes⟩
  rw [memcpy, memcpyLen_eq hsmall, if_neg (by omega), ← hsrc, List.take_length, hq]

end SyscallParam

namespace Sys

variable {env : Env} {m : Sys} {amb : Ambient} {request : SyscallParam} {service : ℕ}

theorem step_of_reply {k : Kernel} (hlive : m.frames ≠ [])
    (hd : (entered m.kernel request).dispatch env amb service = some (.reply k)) :
    m.step env (.sys amb service request) = some (⟨k, m.frames⟩, some k.params) := by
  obtain ⟨f, frames, hframes⟩ := List.exists_cons_of_ne_nil hlive
  rw [entered] at hd
  simp only [step, hframes, Option.bind_eq_bind, hd, Option.bind_some]

theorem dispatch_fileCall {k : Kernel} {call : FileCall} {r : FileReply} {io : Io}
    {p : SyscallParam} (hcall : FileCall.ofParams service k.params = some call)
    (hexec : k.io.exec env amb k.sched.runningProc k.params call = some (r, io))
    (hstore : r.store k.params = some p) :
    k.dispatch env amb service = some (.reply { k with io := io, params := p }) := by
  unfold Kernel.dispatch
  split
  · cases hcall
  · cases hcall
  · cases hcall
  · cases hcall
  · cases hcall
  · cases hcall
  · cases hcall
  · cases hcall
  · simp only [hcall, hexec, hstore, Option.bind_eq_bind, Option.bind_some]

theorem step_fileCall {call : FileCall} {r : FileReply} {io : Io} {p : SyscallParam}
    (hlive : m.frames ≠ []) (hcall : FileCall.ofParams service request = some call)
    (hexec : (entered m.kernel request).io.exec env amb m.kernel.sched.runningProc request call =
      some (r, io))
    (hstore : r.store request = some p) :
    m.step env (.sys amb service request) =
      some (⟨{ entered m.kernel request with io := io, params := p }, m.frames⟩, some p) :=
  step_of_reply hlive (dispatch_fileCall (k := entered m.kernel request) hcall hexec hstore)

end Sys

def descriptor (pathname : List UInt8) : Int32 := (({} : Io).openFd pathname 0).1

theorem Io.openFd_fst (io : Io) (pathname : List UInt8) (pid : ℕ) :
    (io.openFd pathname pid).1 = descriptor pathname := by
  unfold descriptor openFd
  split_ifs <;> rfl

namespace User

variable {env : Env} {s s' : User} {pathname : List UInt8}

theorem syscall_frames {service : ℕ} (h : Syscall env service s s') :
    s.sys.frames ≠ [] ∧ s'.sys.frames = s.sys.frames := by
  cases h with
  | reply hstep =>
    obtain ⟨hne, ⟨f, k, -, -, hout⟩ | ⟨k, -, rfl, -⟩⟩ := Sys.step_sys hstep
    · cases hout
    · exact ⟨hne, rfl⟩
  | answer hanswer =>
    obtain ⟨m₁, m₂, hcall, hpush, hrun, hexit, hlen⟩ := hanswer
    refine ⟨(Sys.step_sys hcall.choose_spec).1, ?_⟩
    exact Returns.same_stack Sys.nested ⟨_, m₁, _, m₂, _, hcall, hpush, hrun, ⟨_, hexit⟩, hlen⟩

theorem call_frames {c : UserCall} (h : Call env s c s') : s'.sys.frames = s.sys.frames := by
  obtain ⟨_, -, hcall⟩ := h
  exact (syscall_frames hcall).2

theorem libStep_frames {c : LibCall} (h : LibStep env s c s') : s'.sys.frames = s.sys.frames := by
  cases h with
  | call hcall => exact call_frames hcall
  | listRootFiles hopen _ hprint hlist =>
    rw [(syscall_frames hlist).2, ← call_frames hopen]
    exact hprint.same (·.sys.frames) fun _ _ _ => call_frames

/-- `myopen(pathname)` makes the kernel open `pathname`, and returns its descriptor. -/
def OpensPath (env : Env) (s : User) (pathname : List UInt8) : Prop :=
  ∃ sysparam, (UserCall.myopen pathname).request s.sysparam = some sysparam ∧
    FileCall.ofParams (UserCall.myopen pathname).service sysparam = some (.open pathname) ∧
    ∀ amb, ∃ s' : User, s.sys.step env (.sys amb (UserCall.myopen pathname).service sysparam) =
      some (s'.sys, some s'.sysparam) ∧ s'.myopenFd = descriptor pathname

theorem request_myopen (p : SyscallParam) (hlen : pathname.length < SYSCALL_DATA_SIZE)
    (hnul : (0 : UInt8) ∉ pathname) :
    ∃ q, (UserCall.myopen pathname).request p = some q ∧
      cstr q.bytes = pathname ++ cstr (p.bytes.drop pathname.length) := by
  have hdata : SYSCALL_DATA_SIZE = 512 := rfl
  have hbuf : SYSCALL_BUF_SIZE = 576 := rfl
  have hn : (UInt32.ofNat pathname.length).toNat = pathname.length :=
    UInt32.toNat_ofNat_of_lt' (lt_trans hlen (by decide))
  obtain ⟨q, hq, -, hbytes⟩ := SyscallParam.memcpy_eq_some (p := p) hn.symm (by omega)
  refine ⟨q, hq, ?_⟩
  rw [hbytes, overwrite_zero, cstr_append hnul]

/-- Whatever a process called before, `myopen` opens the pathname it is given exactly
when `sysparam` happens to hold a NUL behind the place it is copied to. -/
theorem path_transport_iff {s₀ : User} {calls : List LibCall} (hlive : s₀.sys.frames ≠ [])
    (h : Run (LibStep env) s₀ calls s) (hnul : (0 : UInt8) ∉ pathname)
    (hlen : pathname.length < SYSCALL_DATA_SIZE) :
    OpensPath env s pathname ↔ s.sysparam.bytes[pathname.length]? = some 0 := by
  have hframes : s.sys.frames = s₀.sys.frames := h.same (·.sys.frames) fun _ _ _ => libStep_frames
  have hlive' : s.sys.frames ≠ [] := by rwa [hframes]
  have hinside : pathname.length < s.sysparam.bytes.length := by
    rw [s.sysparam.length_eq]
    exact lt_trans hlen (by decide)
  obtain ⟨q, hq, hcstr⟩ := request_myopen s.sysparam hlen hnul
  have hiff : cstr q.bytes = pathname ↔ s.sysparam.bytes[pathname.length]? = some 0 := by
    rw [hcstr, List.append_right_eq_self, cstr_eq_nil_iff, List.getElem?_drop, Nat.add_zero]
    constructor
    · rintro (hnil | hzero)
      · rw [List.drop_eq_nil_iff] at hnil
        omega
      · exact hzero
    · exact Or.inr
  rw [← hiff]
  constructor
  · rintro ⟨q', hq', hcall, -⟩
    rw [hq, Option.some.injEq] at hq'
    subst hq'
    exact FileCall.open.inj (Option.some.inj hcall)
  · intro hpath
    refine ⟨q, hq, congrArg (some ∘ FileCall.open) hpath, fun amb => ?_⟩
    let io := (Sys.entered s.sys.kernel q).io
    let pid := s.sys.kernel.sched.runningProc
    have hexec : io.exec env amb pid q (.open pathname) =
        some (.opened (io.openFd pathname pid).1, (io.openFd pathname pid).2) := rfl
    have hstore : (FileReply.opened (io.openFd pathname pid).1).store q =
        some (q.setFd (io.openFd pathname pid).1) := rfl
    refine ⟨⟨_, _⟩, Sys.step_fileCall hlive' (congrArg (some ∘ FileCall.open) hpath) hexec hstore, ?_⟩
    rw [myopenFd, SyscallParam.fd_setFd, Io.openFd_fst]

/-- `mywrite` makes the kernel write `buf` on `fd`; both sides stay within the data. -/
def WritesThrough (env : Env) (s : User) (amb : Ambient) (fd : Int32) (buf : List UInt8)
    (count : UInt32) : Prop :=
  ∃ sysparam, (UserCall.mywrite fd buf count).request s.sysparam = some sysparam ∧
    FileCall.ofParams (UserCall.mywrite fd buf count).service sysparam =
      some (.write fd.toInt count.toNat) ∧
    s.sys.step env (.sys amb (UserCall.mywrite fd buf count).service sysparam) =
      some (⟨{ Sys.entered s.sys.kernel sysparam with
          io := (Sys.entered s.sys.kernel sysparam).io.write fd.toInt buf }, s.sys.frames⟩,
        some sysparam) ∧
    sysparam.bytes.take count.toNat = buf ∧
    memcpyLen count ≤ SYSCALL_DATA_SIZE ∧ writeLen fd.toInt count.toNat ≤ SYSCALL_DATA_SIZE

/-- `myread` makes the kernel read `count` bytes from `fd` and hands its caller the
bytes that the kernel's `read` stored; both sides stay within the data. -/
def ReadsThrough (env : Env) (s : User) (amb : Ambient) (fd : Int32) (count : UInt32) : Prop :=
  ∃ sysparam r, ∃ s' : User,
    (UserCall.myread fd count).request s.sysparam = some sysparam ∧
    FileCall.ofParams (UserCall.myread fd count).service sysparam =
      some (.read fd.toInt count.toNat) ∧
    (Sys.entered s.sys.kernel sysparam).io.read env amb amb.fuel fd.toInt count.toNat
      s.sys.kernel.sched.runningProc = some r ∧
    s.sys.step env (.sys amb (UserCall.myread fd count).service sysparam) =
      some (s'.sys, some s'.sysparam) ∧
    s'.myreadBuf count = some r.bytes ∧ r.bytes.length = count.toNat ∧
    memcpyLen count ≤ SYSCALL_DATA_SIZE ∧ r.bytes.length ≤ SYSCALL_DATA_SIZE

variable {amb : Ambient} {fd : Int32} {buf : List UInt8} {count : UInt32}

theorem writesThrough_of_le (hlive : s.sys.frames ≠ []) (hbuf : buf.length = count.toNat)
    (hcount : count.toNat ≤ SYSCALL_DATA_SIZE) : WritesThrough env s amb fd buf count := by
  have hdata : SYSCALL_DATA_SIZE = 512 := rfl
  have hsize : SYSCALL_BUF_SIZE = 576 := rfl
  let header := (s.sysparam.setFd fd).setSize count
  obtain ⟨q, hq, hwrite, hbytes⟩ :=
    SyscallParam.memcpy_eq_some (p := header) hbuf (by omega)
  -- the data end before the metadata begin
  have hfd : q.fd = fd := by
    rw [SyscallParam.fd, SyscallParam.int_write hwrite (by omega), ← SyscallParam.fd,
      SyscallParam.fd_setSize, SyscallParam.fd_setFd]
  have hcountq : q.size = count := by
    rw [SyscallParam.size, SyscallParam.int_write hwrite (by omega), ← SyscallParam.size,
      SyscallParam.size_setSize]
  have hcall : FileCall.ofParams 14 q = some (.write fd.toInt count.toNat) := by
    rw [FileCall.ofParams, hfd, hcountq]
  have htake : q.bytes.take count.toNat = buf := by
    rw [hbytes, take_overwrite_zero hbuf.ge, ← hbuf, List.take_length]
  have hexec : (Sys.entered s.sys.kernel q).io.exec env amb s.sys.kernel.sched.runningProc q
      (.write fd.toInt count.toNat) =
        some (.nothing, (Sys.entered s.sys.kernel q).io.write fd.toInt buf) := by
    rw [Io.exec, if_neg fun hbig => absurd hbig.2 (by omega), htake]
  refine ⟨q, hq, hcall, Sys.step_fileCall hlive hcall hexec rfl, htake, ?_, ?_⟩
  · rw [memcpyLen_eq (by omega)]
    exact hcount
  · rw [writeLen]
    split_ifs
    · exact hcount
    · exact Nat.zero_le _

theorem call_of_writesThrough (h : WritesThrough env s amb fd buf count) :
    ∃ s', Call env s (.mywrite fd buf count) s' ∧
      (UserCall.mywrite fd buf count).request s.sysparam = some s'.sysparam := by
  obtain ⟨q, hq, -, hstep, -⟩ := h
  exact ⟨⟨_, q⟩, ⟨q, hq, .reply hstep⟩, hq⟩

theorem le_of_writesThrough (hbuf : buf.length = count.toNat)
    (h : WritesThrough env s amb fd buf count) : count.toNat ≤ SYSCALL_DATA_SIZE := by
  obtain ⟨q, -, -, -, htake, hlen, -⟩ := h
  have hfit : count.toNat ≤ SYSCALL_BUF_SIZE := by
    rw [← hbuf, ← htake, ← q.length_eq]
    exact List.length_take_le' _ _
  rwa [memcpyLen_eq (lt_of_le_of_lt hfit (by decide))] at hlen

end User

/-- A read of at most a sector fills the request, but for the console's output, which
has nothing to read. -/
theorem Io.read_fills {env : Env} {amb : Ambient} {io : Io} {fuel count pid : ℕ} {fd : ℤ}
    {r : ReadResult} (hw : io.Wired) (hcount : count ≤ 512)
    (h : io.read env amb fuel fd count pid = some r) :
    (fd ≠ 1 → r.bytes.length = count) ∧ (fd = 1 → r.bytes = []) := by
  have hdevice : ∀ {fuel : ℕ} {io : Io} {fd : ℤ} {pid : ℕ} {r : ReadResult},
      (io.fdList fd).pfd = -1 → io.read env amb fuel fd count pid = some r →
      ((fd = 0 ∨ fd = 3 ∨ fd = 4) → r.bytes.length = count) ∧ (fd = 1 → r.bytes = []) := by
    intro fuel io fd pid r hpfd h
    cases fuel with
    | zero => cases h
    | succ fuel =>
      obtain ⟨r', rfl, ⟨hne, -⟩ | ⟨-, hdev, rfl⟩ | ⟨-, rfl, rfl⟩ | ⟨-, hdev, hkey, rfl⟩⟩ :=
        read_cases h
      · exact absurd hpfd hne
      · exact ⟨fun _ => env.length_dev _ _ _ hcount, fun h1 => by omega⟩
      · exact ⟨fun _ => by simp [advance], fun h1 => by omega⟩
      · exact ⟨fun h034 => by omega, fun _ => rfl⟩
  by_cases hpfd : (io.fdList fd).pfd = -1
  · have hdevices := hw.devices fd hpfd
    obtain ⟨hfull, hnone⟩ := hdevice hpfd h
    exact ⟨fun h1 => hfull (by omega), hnone⟩
  · obtain ⟨fuel', r', hr', rfl, htarget, hlow, -⟩ := read_layered hw hpfd h
    refine ⟨fun _ => (hdevice hlow hr').1 (by omega), ?_⟩
    rintro rfl
    exact absurd hw.stdout hpfd

namespace User

variable {env : Env} {s s' : User} {amb : Ambient} {fd : Int32} {count : UInt32}

theorem readsThrough_of_le (hreach : Sys.Reachable env s.sys) (hlive : s.sys.frames ≠ [])
    (hfuel : 2 ≤ amb.fuel) (hcount : count.toNat ≤ SYSCALL_DATA_SIZE)
    (hfd : fd.toInt ≠ 1 ∨ count = 0) : ReadsThrough env s amb fd count := by
  have hdata : SYSCALL_DATA_SIZE = 512 := rfl
  have hsize : SYSCALL_BUF_SIZE = 576 := rfl
  let q := (s.sysparam.setFd fd).setSize count
  have hw : (Sys.entered s.sys.kernel q).io.Wired := (Sys.settled_reachable hreach).io.congr rfl
  have hcall : FileCall.ofParams 13 q = some (.read fd.toInt count.toNat) := by
    rw [FileCall.ofParams, SyscallParam.fd_setSize, SyscallParam.fd_setFd, SyscallParam.size_setSize]
  obtain ⟨fuel, hfuel'⟩ : ∃ n, amb.fuel = n + 2 := ⟨amb.fuel - 2, by omega⟩
  obtain ⟨r, hr⟩ : ∃ r, (Sys.entered s.sys.kernel q).io.read env amb amb.fuel fd.toInt count.toNat
      s.sys.kernel.sched.runningProc = some r := by
    rw [hfuel']
    exact Io.read_total hw fuel _ _ _
  have hlen : r.bytes.length = count.toNat := by
    rcases hfd with h1 | rfl
    · exact (Io.read_fills hw hcount hr).1 h1
    · exact Nat.le_zero.mp (Io.read_length hw hr)
  obtain ⟨p, hp, hbytes⟩ := SyscallParam.write_eq_some q
    (show 0 + r.bytes.length ≤ SYSCALL_BUF_SIZE by omega)
  have hexec : (Sys.entered s.sys.kernel q).io.exec env amb s.sys.kernel.sched.runningProc q
      (.read fd.toInt count.toNat) = some (.stored r.bytes, r.io) := by
    simp only [Io.exec, hr, Option.bind_eq_bind, Option.bind_some]
  have hcopied : memcpyLen count = count.toNat := memcpyLen_eq (by omega)
  refine ⟨q, r, ⟨_, p⟩, rfl, hcall, hr, Sys.step_fileCall hlive hcall hexec hp, ?_, hlen, ?_, ?_⟩
  · rw [myreadBuf, SyscallParam.memcpyOut, hcopied, if_neg (by omega), hbytes,
      take_overwrite_zero hlen.ge, ← hlen, List.take_length]
  · rw [hcopied]
    exact hcount
  · rw [hlen]
    exact hcount

theorem le_of_readsThrough (hreach : Sys.Reachable env s.sys)
    (h : ReadsThrough env s amb fd count) :
    count.toNat ≤ SYSCALL_DATA_SIZE ∧ (fd.toInt ≠ 1 ∨ count = 0) := by
  obtain ⟨q, r, s', -, -, hr, -, -, hlen, -, hle⟩ := h
  have hcount : count.toNat ≤ SYSCALL_DATA_SIZE := by rwa [hlen] at hle
  refine ⟨hcount, or_iff_not_imp_left.mpr fun h1 => ?_⟩
  have hw : (Sys.entered s.sys.kernel q).io.Wired := (Sys.settled_reachable hreach).io.congr rfl
  have hnone := (Io.read_fills hw hcount hr).2 (not_not.mp h1)
  rw [hnone, List.length_nil] at hlen
  exact UInt32.toNat_inj.mp hlen.symm

/-- `mywrite` transports what fits the 512 bytes of data, to any descriptor, and `myread`
so much from one of the five of the kernel's table, but from the console's output nothing;
more does not get through. -/
theorem data_transport_iff (hreach : Sys.Reachable env s.sys) (hlive : s.sys.frames ≠ [])
    (hfuel : 2 ≤ amb.fuel) (fd : Int32) (count : UInt32) :
    (∀ buf : List UInt8, buf.length = count.toNat →
        (WritesThrough env s amb fd buf count ↔ count.toNat ≤ SYSCALL_DATA_SIZE)) ∧
      (0 ≤ fd.toInt → fd.toInt < NUM_FILES →
        (ReadsThrough env s amb fd count ↔
          count.toNat ≤ SYSCALL_DATA_SIZE ∧ (fd.toInt ≠ 1 ∨ count = 0))) := by
  constructor
  · intro buf hbuf
    exact ⟨le_of_writesThrough hbuf, writesThrough_of_le hlive hbuf⟩
  · intro _ _
    exact ⟨le_of_readsThrough hreach, fun h => readsThrough_of_le hreach hlive hfuel h.1 h.2⟩

def fresh : User := ⟨Sys.oneLive, .zero⟩

theorem fresh_live : fresh.sys.frames ≠ [] := by
  show Sys.oneLive.frames ≠ []
  decide +kernel

theorem reachable_fresh : Sys.Reachable (.ofVolume floppy) fresh.sys := by
  dsimp only [fresh]
  exact Sys.reachable_oneLive

theorem data_transport_iff_fresh :
    WritesThrough (.ofVolume floppy) fresh calm 1 (ascii "hello") 5 ∧
      ReadsThrough (.ofVolume floppy) fresh calm 4 512 :=
  ⟨((data_transport_iff reachable_fresh fresh_live (by decide +kernel) 1 5).1 (ascii "hello")
      (by decide +kernel)).mpr (by decide +kernel),
    ((data_transport_iff reachable_fresh fresh_live (by decide +kernel) 4 512).2 (by decide)
      (by decide)).mpr (by decide)⟩

/-- The size member itself is overwritten by the 513th byte on. -/
theorem size_overwritten : ¬ ∀ env s amb fd buf count, Sys.Reachable env s.sys →
    s.sys.frames ≠ [] → 2 ≤ amb.fuel → buf.length = count.toNat →
    WritesThrough env s amb fd buf count := by
  intro hlaw
  obtain ⟨q, hq, hcall, -⟩ := hlaw (.ofVolume floppy) fresh calm 1 (List.replicate 516 65) 516
    reachable_fresh fresh_live (by decide +kernel) (by decide +kernel)
  have hother : ((UserCall.mywrite 1 (List.replicate 516 65) 516).request .zero).bind
      (FileCall.ofParams 14) = some (.write 1 0x41414141) := by
    decide +kernel
  have hsame : ((UserCall.mywrite 1 (List.replicate 516 65) 516).request .zero).bind
      (FileCall.ofParams 14) = some (.write 1 516) := by
    rw [show SyscallParam.zero = fresh.sysparam from rfl, hq]
    exact hcall
  rw [hother] at hsame
  exact absurd hsame (by decide +kernel)

def hello : UserCall := .mywrite 1 (ascii "hello") 5

theorem run_hello : ∃ s, Run (LibStep (.ofVolume floppy)) fresh [.call hello] s ∧
    hello.request .zero = some s.sysparam := by
  have hthrough : WritesThrough (.ofVolume floppy) fresh calm 1 (ascii "hello") 5 :=
    writesThrough_of_le fresh_live (by decide +kernel) (by decide +kernel)
  obtain ⟨s, hcall, hrequest⟩ := call_of_writesThrough hthrough
  exact ⟨s, .single (.call hcall), hrequest⟩

theorem path_transport_iff_hello : ∃ s, Run (LibStep (.ofVolume floppy)) fresh [.call hello] s ∧
    OpensPath (.ofVolume floppy) s (ascii "/dev/fda") := by
  obtain ⟨s, hrun, hrequest⟩ := run_hello
  refine ⟨s, hrun, (path_transport_iff fresh_live hrun (by decide +kernel) (by decide +kernel)).mpr ?_⟩
  have hzero : (hello.request .zero).bind (·.bytes[8]?) = some 0 := by decide +kernel
  rw [hrequest] at hzero
  exact hzero

/-- After `hello`, `/` is opened as `/ello`. -/
theorem path_keeps_tail : ¬ ∀ env s₀ calls s pathname, Sys.Reachable env s₀.sys →
    s₀.sys.frames ≠ [] → Run (LibStep env) s₀ calls s → (0 : UInt8) ∉ pathname →
    pathname.length < SYSCALL_DATA_SIZE → OpensPath env s pathname := by
  intro hlaw
  obtain ⟨s, hrun, hrequest⟩ := run_hello
  obtain ⟨q, hq, hcall, -⟩ := hlaw (.ofVolume floppy) fresh _ s (ascii "/") reachable_fresh
    fresh_live hrun (by decide +kernel) (by decide +kernel)
  have hother : (hello.request .zero).bind (fun p =>
      ((UserCall.myopen (ascii "/")).request p).bind (FileCall.ofParams 10)) =
        some (.open (ascii "/ello")) := by
    decide +kernel
  rw [hrequest] at hother
  have hsame : ((UserCall.myopen (ascii "/")).request s.sysparam).bind (FileCall.ofParams 10) =
      some (.open (ascii "/")) := by
    rw [hq]
    exact hcall
  rw [show ((UserCall.myopen (ascii "/")).request s.sysparam).bind (FileCall.ofParams 10) = _ from
    hother] at hsame
  exact absurd hsame (by decide +kernel)

end User

end RML
