import RML.Proofs.Session

/-! Sessions with the shell that take place: whatever lines are typed, as long as they fit
the buffer and name no program, the shell gets to its end, and answers them in any way that
a session allows. -/

namespace RML

open ArrayStack Bytes Transition While

namespace Shell

variable {env : Env} {ps : List Program} {s : Shell}

theorem may_printf {format : Shell → List UInt8} {text : List UInt8}
    (h : User.Ready env ps s.user) (hf : User.Formatted (format s) text) :
    May (printf (library env) format) s (onward fun t => Moved env ps s t text 0) := by
  obtain ⟨ap, r, hprintf, rfl⟩ := hf
  have hshort := User.printf_short hprintf
  obtain ⟨u, hrun⟩ := h.exists_writes hshort
  exact May.act ⟨ap, r, u, hprintf, hrun, rfl⟩ ⟨rfl, u, h.writes hshort hrun, rfl⟩

theorem may_prints {text : List UInt8} (h : User.Ready env ps s.user) (h0 : (0 : UInt8) ∉ text)
    (hpercent : (37 : UInt8) ∉ text) :
    May (printf (library env) fun _ => text) s (onward fun t => Moved env ps s t text 0) :=
  may_printf h ((User.formatted_plain h0 hpercent).mpr rfl)

theorem may_putchar {c : Shell → UInt8} (h : User.Ready env ps s.user) :
    May (putchar (library env) c) s (onward fun t => Moved env ps s t [c s] 0) := by
  obtain ⟨u, hcall⟩ := @User.Ready.exists_mywrite env s.user ps [c s] 1 h rfl (by decide)
  exact May.act ⟨u, hcall, rfl⟩ ⟨rfl, u, h.mywrite rfl (by decide) hcall.call, rfl⟩

theorem exists_getchar (h : User.Ready env ps s.user) : ∃ u,
    Getchar (library env) s (env.key s.user.keys) { s with user := u } ∧
      User.Goes env ps s.user u [] 1 := by
  obtain ⟨u, hcall⟩ := h.exists_getchar
  obtain ⟨hgoes, hbuf⟩ := h.getchar hcall.call
  exact ⟨u, ⟨u, hcall, hbuf, rfl⟩, hgoes⟩

theorem may_calls {c : UserCall} {u : User} (hcall : User.OrderlyCall env s.user c u)
    {K : Shell → Prop} (h : K { s with user := u }) :
    May (calls (library env) c) s (onward K) :=
  May.act ⟨u, hcall, rfl⟩ ⟨rfl, h⟩

theorem may_press {u : Shell} {line : List UInt8} {Q : Way → Shell → Prop}
    (h : User.Ready env ps u.user) (hholds : Holds u.buf u.i line)
    (hfits : (edit line u.input).length ≤ 50) :
    May (press (library env)) u (around (fun v => v.astray = u.astray ∧
      Holds v.buf v.i (edit line u.input) ∧
      User.Goes env ps u.user v.user (echo line u.input) 0) Q) := by
  apply May.block_cons
  by_cases hback : u.input = 8
  · by_cases hzero : u.i = 0
    · have hnil : line = [] := hholds.eq_zero_iff.mp hzero
      refine May.ite_true ⟨(decide_eq_true ⟨hback, hzero⟩).symm, rfl⟩ (May.cont ⟨rfl, ?_, ?_⟩)
      · rw [hback, hnil]
        rwa [hnil] at hholds
      · rw [hback, hnil]
        exact .refl h
    · have hne : line ≠ [] := mt hholds.eq_zero_iff.mpr hzero
      refine May.ite_false ⟨(decide_eq_false fun hand => hzero hand.2).symm, rfl⟩ (May.skip ?_)
      apply May.block_cons
      refine May.ite_true ⟨(decide_eq_true hback).symm, rfl⟩ ?_
      apply May.block_assign
      refine May.block_then (may_putchar h) ?_
      rintro _ ⟨u₁, h₁, rfl⟩
      refine May.block_then (may_putchar h₁.ready) ?_
      rintro _ ⟨u₂, h₂, rfl⟩
      refine May.block_then (may_putchar h₂.ready) ?_
      rintro _ ⟨u₃, h₃, rfl⟩
      refine May.block_nil (May.block_nil ⟨rfl, ?_, ?_⟩)
      · rw [hback]
        exact hholds.pop hne
      · have hall := h₁.trans (h₂.trans h₃)
        dsimp only at hall
        rw [hback] at hall ⊢
        rw [echo, if_pos rfl, if_neg hne]
        exact hall
  · refine May.ite_false ⟨(decide_eq_false fun hand => hback hand.1).symm, rfl⟩ (May.skip ?_)
    apply May.block_cons
    refine May.ite_false ⟨(decide_eq_false hback).symm, rfl⟩ ?_
    rw [edit, if_neg hback, List.length_append, List.length_singleton] at hfits
    have hindex := hholds.index
    refine May.block_then (may_putchar h) ?_
    rintro _ ⟨u₁, h₁, rfl⟩
    have hin : u.i < ShellLine.size := by
      rw [ShellLine.size]
      omega
    apply May.block_assign
    dsimp only
    rw [stored_eq _ (by omega) hin]
    apply May.block_assign
    refine May.block_nil (May.block_nil ⟨rfl, ?_, ?_⟩)
    · rw [edit, if_neg hback]
      exact hholds.push u.input
    · rw [echo, if_neg hback]
      exact h₁

theorem may_readLine {keys line : List UInt8} (h : User.Ready env ps s.user)
    (hholds : Holds s.buf s.i line) (hstream : streamed env.key s.user.keys keys.length = keys)
    (henter : (13 : UInt8) ∉ keys)
    (hfits : ∀ typed, typed <+: keys → (typed.foldl edit line).length ≤ 50)
    (hlast : env.key (s.user.keys + keys.length) = 13) :
    May (readLine (library env)) s (onward fun t => t.astray = s.astray ∧
      Holds t.buf t.i (keys.foldl edit line) ∧
      User.Goes env ps s.user t.user (echoed line keys) (keys.length + 1)) := by
  induction keys generalizing s line with
  | nil =>
    obtain ⟨u, hget, hgoes⟩ := exists_getchar h
    refine May.loop_stop ⟨_, _, hget, ?_, rfl⟩ ⟨rfl, rfl, hholds, hgoes⟩
    rw [List.length_nil, Nat.add_zero] at hlast
    rw [hlast]
    rfl
  | cons c keys ih =>
    obtain ⟨u, hget, hgoes⟩ := exists_getchar h
    rw [List.length_cons, streamed, List.range'_succ, List.map_cons, List.cons.injEq] at hstream
    obtain ⟨hc, hrest⟩ := hstream
    rw [List.mem_cons, not_or] at henter
    rw [hc] at hget
    have hone := hfits [c] (List.prefix_append [c] keys)
    refine May.loop_round ⟨c, _, hget, (decide_eq_true (Ne.symm henter.1)).symm, rfl⟩
      ((may_press (u := { s with user := u, input := c }) (Q := fun _ _ => False) hgoes.ready hholds
        hone).mono ?_)
    rintro w v hv
    have hkeys : ∀ v : Shell, v.astray = s.astray ∧ Holds v.buf v.i (edit line c) ∧
        User.Goes env ps u v.user (echo line c) 0 →
        May (readLine (library env)) v (onward fun t => t.astray = s.astray ∧
          Holds t.buf t.i (keys.foldl edit (edit line c)) ∧
          User.Goes env ps s.user t.user (echoed line (c :: keys)) ((c :: keys).length + 1)) := by
      rintro v ⟨hastray, hv, hshown⟩
      have hcount : v.user.keys = s.user.keys + 1 := hshown.keys.trans hgoes.keys
      refine (ih hshown.ready hv ?_ henter.2 ?_ ?_).mono ?_
      · rw [hcount]
        exact hrest
      · intro typed htyped
        exact hfits (c :: typed) (List.cons_prefix_cons.mpr ⟨rfl, htyped⟩)
      · rw [hcount, Nat.add_assoc, Nat.add_comm 1]
        exact hlast
      · rintro w t ⟨rfl, hsame, hheld, ht⟩
        have hall := hgoes.trans (hshown.trans ht)
        rw [Nat.zero_add, Nat.add_comm 1] at hall
        exact ⟨rfl, hsame.trans hastray, hheld, hall⟩
    cases w with
    | brk => exact hv.elim
    | next => exact hkeys v hv
    | cont => exact hkeys v hv

theorem may_takeKey {l : List UInt8} {Q : Way → Shell → Prop} (h : User.Ready env ps s.user)
    (hholds : Holds s.buf s.j l) (hj : s.j < 10) :
    May (takeKey (library env)) s (around (fun t => t.astray = s.astray ∧ t.j = s.j + 1 ∧
      Holds t.buf t.j (l ++ [env.key s.user.keys]) ∧
      User.Goes env ps s.user t.user [env.key s.user.keys] 1) Q) := by
  obtain ⟨u, hget, hgoes⟩ := exists_getchar h
  have hindex := hholds.index
  refine May.block_then (K := (· = { s with
    user := u, buf := Function.update s.buf s.j (env.key s.user.keys) }))
    (May.act ⟨_, _, hget, (stored_eq _ ?_ ?_).symm⟩ ⟨rfl, rfl⟩) ?_
  · omega
  · rw [ShellLine.size]
    omega
  · rintro _ rfl
    refine May.block_then (may_putchar hgoes.ready) ?_
    rintro _ ⟨u₁, h₁, rfl⟩
    apply May.block_assign
    refine May.block_nil ⟨rfl, rfl, hholds.push _, ?_⟩
    have hall := hgoes.trans h₁
    dsimp only at hall
    rwa [Function.update_self] at hall

theorem may_takeKeys {n : ℕ} {l : List UInt8} (h : User.Ready env ps s.user)
    (hholds : Holds s.buf s.j l) (hj : s.j + n = 10) :
    May (.loop (test fun s => decide (s.j < 10)) (takeKey (library env))) s
      (onward fun t => t.astray = s.astray ∧ t.j = 10 ∧
        Holds t.buf t.j (l ++ streamed env.key s.user.keys n) ∧
        User.Goes env ps s.user t.user (streamed env.key s.user.keys n) n) := by
  induction n generalizing s l with
  | zero =>
    have hten : s.j = 10 := by simpa using hj
    refine May.loop_stop ⟨(decide_eq_false (by omega)).symm, rfl⟩ ⟨rfl, rfl, hten, ?_, .refl h⟩
    rw [streamed, List.range'_zero, List.map_nil, List.append_nil]
    exact hholds
  | succ n ih =>
    have hlt : s.j < 10 := by
      push_cast at hj
      omega
    have hnext : streamed env.key s.user.keys (n + 1) =
        [env.key s.user.keys] ++ streamed env.key (s.user.keys + 1) n := by
      rw [Nat.add_comm n, ← streamed_append]
      rfl
    refine May.loop_round ⟨(decide_eq_true hlt).symm, rfl⟩
      ((may_takeKey (Q := fun _ _ => False) h hholds hlt).mono ?_)
    have hrest : ∀ t : Shell, t.astray = s.astray ∧ t.j = s.j + 1 ∧
        Holds t.buf t.j (l ++ [env.key s.user.keys]) ∧
        User.Goes env ps s.user t.user [env.key s.user.keys] 1 →
        May (.loop (test fun s => decide (s.j < 10)) (takeKey (library env))) t
          (onward fun t => t.astray = s.astray ∧ t.j = 10 ∧
            Holds t.buf t.j (l ++ streamed env.key s.user.keys (n + 1)) ∧
            User.Goes env ps s.user t.user (streamed env.key s.user.keys (n + 1)) (n + 1)) := by
      rintro t ⟨hastray, htj, hheld, ht⟩
      refine (ih ht.ready hheld ?_).mono ?_
      · rw [htj]
        push_cast at hj
        omega
      · rintro w v ⟨rfl, hsame, hten, hv, hgoes⟩
        rw [ht.keys] at hv hgoes
        rw [List.append_assoc] at hv
        rw [hnext, Nat.add_comm n]
        exact ⟨rfl, hsame.trans hastray, hten, hv, ht.trans hgoes⟩
    intro w t ht
    cases w with
    | brk => exact ht.elim
    | next => exact hrest t ht
    | cont => exact hrest t ht

theorem may_tenKeys {text : List UInt8} (h : User.Ready env ps s.user)
    (hf : User.Formatted (cstr (streamed env.key s.user.keys 10)) text) :
    May (tenKeys (library env)) s (onward fun t => t.astray = s.astray ∧ User.Goes env ps s.user t.user
      (streamed env.key s.user.keys 10 ++ (ascii "\r\n" ++ text)) 10) := by
  apply May.block_assign
  refine May.block_then (may_takeKeys (n := 10) h (.nil s.buf) rfl) ?_
  rintro u ⟨hastray, hj, hholds, hgoes⟩
  have hstored := hholds.push 0
  rw [hj, List.nil_append] at hstored
  apply May.block_assign
  rw [stored_eq 0 (by decide) (show (10 : ℤ) < ShellLine.size by decide)]
  refine May.block_then (may_prints hgoes.ready (by decide) (by decide)) ?_
  rintro _ ⟨u₁, h₁, rfl⟩
  have hline := line_eq (s := { u with user := u₁, buf := Function.update u.buf 10 0 }) hstored
    (by rw [streamed, List.length_map, List.length_range']; decide)
  rw [← hline] at hf
  refine May.block_then (may_printf h₁.ready hf) ?_
  rintro _ ⟨u₂, h₂, rfl⟩
  exact May.block_nil ⟨rfl, hastray, hgoes.trans (h₁.trans h₂)⟩

/-- The bytes that `run_program` copies from `buf` on, with zeros behind it. -/
theorem exists_string (s : Shell) : ∃ string : SyscallParam,
    ∀ k < ShellLine.size.toNat, string.bytes[k]? = some (s.buf k) := by
  refine ⟨⟨(List.range ShellLine.size.toNat).map (fun k : ℕ => s.buf k) ++
    List.replicate (SYSCALL_BUF_SIZE - ShellLine.size.toNat) 0, ?_⟩, fun k hk => ?_⟩
  · rw [List.length_append, List.length_map, List.length_range, List.length_replicate]
    decide
  · rw [List.getElem?_append_left (by simpa using hk), List.getElem?_map,
      List.getElem?_range hk]
    rfl

theorem nul_of_string {string : SyscallParam} (hlen : s.line.length < ShellLine.size.toNat)
    (h : ∀ k < ShellLine.size.toNat, string.bytes[k]? = some (s.buf k)) :
    (0 : UInt8) ∈ string.bytes := by
  by_contra hnone
  have hbuf : (0 : UInt8) ∉ (List.range ShellLine.size.toNat).map fun k : ℕ => s.buf k := by
    intro hzero
    obtain ⟨k, hk, hkz⟩ := List.mem_map.mp hzero
    exact hnone (hkz ▸ List.mem_of_getElem? (h k (List.mem_range.mp hk)))
  rw [line, cstr_of_not_mem hbuf, List.length_map, List.length_range] at hlen
  exact hlen.false

/-- Each branch answers in every way that it should. -/
theorem may_command {qs : List Program} {c : ShellCommand} {text : List UInt8} {n : ℕ} (h : User.Ready env ps s.user)
    (hfew : ps.length < 8) (hentries : env.bootSector.rootDirEntries ≤ 256)
    (hnames : env.NamesWithoutNul) (hlen : s.line.length < ShellLine.size.toNat)
    (hanswer : Answer env.directory qs env.key s.user.keys c s.line text n)
    (hmissing : c = .system → env.directory.find (s.line.map toupper) = none) :
    May (command (library env) c) s
      (onward fun t => t.astray = s.astray ∧ User.Goes env ps s.user t.user text n) := by
  cases hanswer with
  | syscall =>
    obtain ⟨u, hcall⟩ := h.exists_call (a := calm) (c := .callInt) (by decide) rfl rfl
    exact may_calls hcall ⟨rfl, h.callInt hcall.call⟩
  | aaa =>
    refine (may_prints h (by decide) (by decide)).mono ?_
    rintro w _ ⟨rfl, u, hu, rfl⟩
    exact ⟨rfl, rfl, hu⟩
  | bbb =>
    refine (may_putchar h).mono ?_
    rintro w _ ⟨rfl, u, hu, rfl⟩
    exact ⟨rfl, rfl, hu⟩
  | ccc _ hf => exact may_tenKeys h hf
  | halt =>
    obtain ⟨u, hcall⟩ := h.exists_call (a := calm) (c := .halt) (by decide) rfl rfl
    exact may_calls hcall ⟨rfl, h.halt hcall.call⟩
  | date _ c =>
    obtain ⟨u, hcall, hgoes⟩ := h.exists_time c
    exact may_calls hcall ⟨rfl, hgoes⟩
  | ran hfind _ =>
    rw [hmissing rfl] at hfind
    cases hfind
  | @refused _ text hfind hf =>
    obtain ⟨string, hstring⟩ := exists_string s
    rw [← programName_eq hlen hstring] at hfind
    obtain ⟨u, hcall⟩ := h.exists_refused hfew hentries hnames (nul_of_string hlen hstring) hfind
    rcases h.runProgram hcall with ⟨-, hone, hu⟩ | ⟨size, acts, text, n, hsome, -⟩
    · refine May.ite_true ⟨string, u, hstring, hcall, ?_, rfl⟩ ?_
      · rw [hone]
        rfl
      · refine May.block_then (may_printf hu.ready hf) ?_
        rintro _ ⟨u₁, h₁, rfl⟩
        refine May.block_then (may_prints h₁.ready (by decide) (by decide)) ?_
        rintro _ ⟨u₂, h₂, rfl⟩
        exact May.block_nil ⟨rfl, rfl, hu.trans (h₁.trans h₂)⟩
    · rw [hfind] at hsome
      cases hsome

theorem may_round {keys : List UInt8} {Q : Way → Shell → Prop} (h : User.Ready env ps s.user)
    (hentered : Entered env.key s.user.keys keys)
    (hbranch : ∀ t : Shell, t.astray = s.astray → t.line = typedLine keys →
      User.Goes env ps s.user t.user (promptText keys) (keys.length + 1) →
      May (command (library env) (shellCommand (typedLine keys))) t
        (behind (fun u => May (Cmd.block []) u Q) Q)) :
    May (round (library env)) s Q := by
  refine May.block_then (may_prints h (by decide) (by decide)) ?_
  rintro _ ⟨u₁, h₁, rfl⟩
  refine May.block_then (may_prints h₁.ready (by decide) (by decide)) ?_
  rintro _ ⟨u₂, h₂, rfl⟩
  apply May.block_assign
  have hkeys : u₂.keys = s.user.keys := h₂.keys.trans h₁.keys
  have hread := may_readLine (s := { s with user := u₂, i := 0 }) h₂.ready (.nil s.buf)
    (by rw [hkeys]; exact hentered.stream) hentered.enter hentered.fits
    (by rw [hkeys]; exact hentered.last)
  refine May.block_then hread ?_
  rintro t ⟨hastray, hholds, hgoes⟩
  refine May.block_then (may_prints hgoes.ready (by decide) (by decide)) ?_
  rintro _ ⟨u₃, h₃, rfl⟩
  have hindex : t.i = (edited keys).length := hholds.index
  have hroom := hentered.room
  have hin : t.i < ShellLine.size := by
    rw [ShellLine.size]
    omega
  apply May.block_assign
  dsimp only
  rw [stored_eq 0 (by omega) hin]
  have hline := line_eq (s := { t with user := u₃, buf := Function.update t.buf t.i 0 })
    (hholds.push 0) hroom
  apply May.block_cons
  apply May.elseIf
  rw [chosen_eq, hline]
  refine hbranch _ hastray hline ?_
  have hall := h₁.trans (h₂.trans (hgoes.trans h₃))
  rw [Nat.zero_add, Nat.zero_add, Nat.add_zero] at hall
  rw [promptText, List.append_assoc]
  exact hall

def NoProgram (dir : Directory) (line : List UInt8) : Prop :=
  shellCommand line = .system → dir.find (line.map toupper) = none

theorem may_shell {qs : List Program} {k k' : ℕ} {lines : List (List UInt8 × List UInt8)} {text : List UInt8}
    (h : User.Ready env ps s.user) (hk : s.user.keys = k) (hfew : ps.length < 8)
    (hentries : env.bootSector.rootDirEntries ≤ 256) (hnames : env.NamesWithoutNul)
    (hsession : Session env.directory qs env.key k lines text k')
    (hlines : ∀ l ∈ lines, NoProgram env.directory l.1) :
    May (shell (library env)) s (onward fun t => t.astray = s.astray ∧
      t.user.screen = s.user.screen ++ text ∧ t.user.keys = k' ∧ User.Ready env ps t.user) := by
  obtain ⟨k₁, keys, hrun, hentered, hexit, rfl, rfl⟩ := hsession
  induction hrun generalizing s with
  | nil k =>
    rw [← hk] at hentered
    refine May.loop_round ⟨rfl, rfl⟩ (may_round h hentered fun t hastray hline ht => ?_)
    rw [hexit]
    exact May.brk ⟨rfl, hastray, ht.screen, ht.keys.trans (by rw [hk]), ht.ready⟩
  | @cons k label k₁ lines k₂ hline hrun ih =>
    obtain ⟨typed, out, n, hentered', rfl, hanswer, rfl⟩ := hline
    have hmissing := hlines _ List.mem_cons_self
    rw [← hk] at hentered' hanswer
    refine May.loop_round ⟨rfl, rfl⟩ (may_round h hentered' fun t hastray hline ht => ?_)
    rw [← ht.keys, ← hline] at hanswer
    rw [← hline]
    have hcommand := may_command ht.ready hfew hentries hnames
      (by rw [hline]; exact hentered'.short) hanswer (by rw [hline]; exact hmissing)
    refine hcommand.mono ?_
    rintro w u ⟨rfl, hkept, hu⟩
    have hgoes := ht.trans hu
    refine May.block_nil ((ih hgoes.ready (hgoes.keys.trans ?_)
      (fun l hl => hlines l (List.mem_cons_of_mem _ hl)) hentered).mono ?_)
    · rw [hk]
      omega
    · rintro w v ⟨rfl, hsame, hscreen, hkeys, hready⟩
      refine ⟨rfl, hsame.trans (hkept.trans hastray), ?_, hkeys, hready⟩
      rw [hscreen, hgoes.screen, shownBy_cons]
      simp only [List.append_assoc]

end Shell

/-- The small floppy, and someone who types `ls` and `exit`. -/
def typist : Env := { Env.ofVolume floppy with key := fun i => (ascii "ls\rexit\r").getD i 13 }

namespace Sys

def typistBooted : Sys := ⟨(Kernel.startk typist calm).get (by decide +kernel), []⟩

theorem boot_typistBooted : Boot typist typistBooted := ⟨calm, _, (Option.some_get _).symm, rfl⟩

def typistLive : Sys := (exec typist [.init calm] typistBooted).get (by decide +kernel)

theorem run_typistLive : Run (Guarded Orderly (Step typist)) typistBooted [.init calm] typistLive :=
  .single ⟨⟨trivial, trivial⟩, step_of_exec (Option.some_get _).symm⟩

theorem frames_typistLive : typistLive.frames = framesOf 1 := by
  decide +kernel

theorem keys_typistLive : typistLive.kernel.io.keys = 0 := by
  decide +kernel

end Sys

def atPrompt : Shell := ⟨⟨Sys.typistLive, .zero⟩, fun _ => 0, 0, 0, 0, false⟩

theorem atPrompt_keys : atPrompt.user.keys = 0 := by
  rw [atPrompt, User.keys, Sys.keys_typistLive]

theorem run_atPrompt : Run (Guarded Sys.Orderly (Sys.Step typist)) Sys.typistBooted [.init calm]
    atPrompt.user.sys := by
  dsimp only [atPrompt]
  exact Sys.run_typistLive

theorem frames_atPrompt : atPrompt.user.sys.frames = framesOf 1 := by
  dsimp only [atPrompt]
  exact Sys.frames_typistLive

def lsText : List UInt8 :=
  promptText (ascii "ls") ++ (directoryText 16 ++ (ascii "ls" ++ ascii ": command not found"))

theorem entries_typist : typist.bootSector.rootDirEntries ≤ 256 := by
  decide +kernel

theorem names_typist : typist.NamesWithoutNul := floppy_names

theorem lines_typist : ∀ l ∈ [(ascii "ls", lsText)], Shell.NoProgram typist.directory l.1 := by
  intro l hl _
  rw [List.mem_singleton] at hl
  rw [hl]
  decide +kernel

theorem session_typist (ps : List Program) : Session typist.directory ps typist.key 0
    [(ascii "ls", lsText)] (lsText ++ promptText (ascii "exit")) 8 := by
  have hfits : ∀ keys ∈ [ascii "ls", ascii "exit"], ∀ typed, typed <+: keys →
      (edited typed).length ≤ 50 := by
    intro keys hkeys typed htyped
    rw [← List.mem_inits] at htyped
    revert keys typed
    decide +kernel
  have hls : Entered typist.key 0 (ascii "ls") :=
    ⟨⟨by decide +kernel, by decide +kernel, hfits _ (by simp)⟩, by decide +kernel, by decide +kernel⟩
  have hexit : Entered typist.key 3 (ascii "exit") :=
    ⟨⟨by decide +kernel, by decide +kernel, hfits _ (by simp)⟩, by decide +kernel, by decide +kernel⟩
  refine ⟨3, ascii "exit", .single ⟨ascii "ls", _, 0, hls, rfl, ?_, rfl⟩, hexit, by decide +kernel, ?_, rfl⟩
  · exact .refused (by decide +kernel) ((User.formatted_plain (by decide) (by decide)).mpr rfl)
  · rw [shownBy_cons]
    simp only [shownBy, List.map_nil, List.flatten_nil, List.append_nil]

namespace Sys

variable {env : Env} {m₀ : Sys} {es : List Event}

end Sys

end RML
