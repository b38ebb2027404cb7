import RML.Proofs.Children
import RML.Spec.Shell

/-! A session with the shell: lines are typed, each of them is echoed and answered, until
one says `exit`. What is on the screen afterwards, and how many keys were taken, is what
the lines say. -/

namespace RML

open ArrayStack Bytes Transition While

def echo (line : List UInt8) (c : UInt8) : List UInt8 :=
  if c = 8 then if line = [] then [] else [8, 32, 8] else [c]

def echoed : List UInt8 → List UInt8 → List UInt8
  | _, [] => []
  | line, c :: keys => echo line c ++ echoed (edit line c) keys

theorem echoed_append (line keys keys' : List UInt8) :
    echoed line (keys ++ keys') = echoed line keys ++ echoed (keys.foldl edit line) keys' := by
  induction keys generalizing line with
  | nil => rfl
  | cons c keys ih =>
    rw [List.cons_append, echoed, ih, echoed, List.append_assoc]
    rfl

theorem edited_concat (keys : List UInt8) (c : UInt8) :
    edited (keys ++ [c]) = edit (edited keys) c := by
  rw [edited, List.foldl_append]
  rfl

/-- The keys typed from the `k`th on are `keys`, and none of them overruns the buffer. -/
structure Typing (key : ℕ → UInt8) (k : ℕ) (keys : List UInt8) : Prop where
  stream : streamed key k keys.length = keys
  enter : (13 : UInt8) ∉ keys
  fits : ∀ typed, typed <+: keys → (edited typed).length ≤ 50

/-- They are a whole line, with Enter behind it and room for its NUL. -/
structure Entered (key : ℕ → UInt8) (k : ℕ) (keys : List UInt8) : Prop
    extends Typing key k keys where
  last : key (k + keys.length) = 13
  room : (edited keys).length ≤ 49

def typedLine (keys : List UInt8) : List UInt8 := cstr (edited keys)

theorem Entered.short {key : ℕ → UInt8} {k : ℕ} {keys : List UInt8} (h : Entered key k keys) :
    (typedLine keys).length < ShellLine.size.toNat :=
  (length_cstr_le _).trans_lt (Nat.lt_succ_of_le h.room)

def promptText (keys : List UInt8) : List UInt8 :=
  ascii "\r\n# " ++ echoed [] keys ++ ascii "\r\n"

/-- What may come of a line while the programs `ps` live: what is shown, and how many keys
are taken from the `k`th on. A started program may print anything and take any number of
keys, in any way that the machine stops in the end. -/
inductive Answer (dir : Directory) (ps : List Program) (key : ℕ → UInt8) (k : ℕ) :
    ShellCommand → List UInt8 → List UInt8 → ℕ → Prop
  | syscall (line : List UInt8) : Answer dir ps key k .syscall line (ascii "system call!\r\n") 0
  | aaa (line : List UInt8) : Answer dir ps key k .aaa line (ascii "Hello kernel!") 0
  | bbb (line : List UInt8) : Answer dir ps key k .bbb line (ascii "S") 0
  | ccc (line : List UInt8) {text : List UInt8} :
      User.Formatted (cstr (streamed key k 10)) text →
      Answer dir ps key k .ccc line (streamed key k 10 ++ (ascii "\r\n" ++ text)) 10
  | halt (line : List UInt8) : Answer dir ps key k .halt line [] 0
  | date (line : List UInt8) (c : Clock) : Answer dir ps key k .date line (clockText c) 0
  | refused {line text : List UInt8} : dir.find (line.map toupper) = none →
      User.Formatted line text →
      Answer dir ps key k .system line
        (directoryText dir.entries ++ (text ++ ascii ": command not found")) 0
  | ran {line text : List UInt8} {size n : ℕ} {acts : List Act} :
      dir.find (line.map toupper) = some size →
      (Program.machine dir).exec (acts ++ [.stop]) (⟨line.map toupper, size⟩ :: ps) =
        some (ps, text) →
      Answer dir ps key k .system line (directoryText dir.entries ++ text) n

/-- A line and its answer: its label is the string that was typed and all that is shown. -/
def SessionLine (dir : Directory) (ps : List Program) (key : ℕ → UInt8) (k : ℕ)
    (label : List UInt8 × List UInt8) (k' : ℕ) : Prop :=
  ∃ keys text n, Entered key k keys ∧ label = (typedLine keys, promptText keys ++ text) ∧
    Answer dir ps key (k + (keys.length + 1)) (shellCommand (typedLine keys)) (typedLine keys)
      text n ∧
    k' = k + (keys.length + 1) + n

def shownBy (lines : List (List UInt8 × List UInt8)) : List UInt8 := (lines.map Prod.snd).flatten

theorem shownBy_cons (label : List UInt8 × List UInt8) (lines : List (List UInt8 × List UInt8)) :
    shownBy (label :: lines) = label.2 ++ shownBy lines := rfl

/-- From the `k`th key to the `k'`th: the lines, and a last one that says `exit`. -/
def Session (dir : Directory) (ps : List Program) (key : ℕ → UInt8) (k : ℕ)
    (lines : List (List UInt8 × List UInt8)) (text : List UInt8) (k' : ℕ) : Prop :=
  ∃ k₁ keys, Run (SessionLine dir ps key) k lines k₁ ∧ Entered key k₁ keys ∧
    shellCommand (typedLine keys) = .exit ∧ text = shownBy lines ++ promptText keys ∧
    k' = k₁ + (keys.length + 1)

namespace Shell

variable {env : Env} {ps : List Program} {s t : Shell}

/-- `t` is `s` but for its process, which has shown `text` and taken `n` keys. -/
def Moved (env : Env) (ps : List Program) (s t : Shell) (text : List UInt8) (n : ℕ) : Prop :=
  ∃ u, User.Goes env ps s.user u text n ∧ t = { s with user := u }

/-- The functions of the library, without a program called on top of eight. -/
abbrev library (env : Env) : User → UserCall → User → Prop := User.OrderlyCall env

theorem leads_printf {format : Shell → List UInt8} (h : User.Ready env ps s.user) :
    Leads (printf (library env) format) s
      (onward fun t => ∃ text, User.Formatted (format s) text ∧ Moved env ps s t text 0) := by
  apply Leads.act
  rintro t ⟨ap, r, u, hprintf, hrun, rfl⟩
  exact ⟨rfl, _, ⟨ap, r, hprintf, rfl⟩, u, h.writes (User.printf_short hprintf) hrun, rfl⟩

theorem leads_prints {text : List UInt8} (h : User.Ready env ps s.user)
    (h0 : (0 : UInt8) ∉ text) (hpercent : (37 : UInt8) ∉ text) :
    Leads (printf (library env) fun _ => text) s (onward fun t => Moved env ps s t text 0) := by
  refine (leads_printf h).mono ?_
  rintro w t ⟨rfl, text', hformatted, hmoved⟩
  obtain rfl := (User.formatted_plain h0 hpercent).mp hformatted
  exact ⟨rfl, hmoved⟩

theorem leads_putchar {c : Shell → UInt8} (h : User.Ready env ps s.user) :
    Leads (putchar (library env) c) s (onward fun t => Moved env ps s t [c s] 0) := by
  apply Leads.act
  rintro t ⟨u, hcall, rfl⟩
  exact ⟨rfl, u, h.mywrite rfl (by decide) hcall.call, rfl⟩

theorem getchar_moved {c : UInt8} (h : User.Ready env ps s.user)
    (hget : Getchar (library env) s c t) :
    Moved env ps s t [] 1 ∧ c = env.key s.user.keys := by
  obtain ⟨u, hcall, hbuf, rfl⟩ := hget
  obtain ⟨hgoes, hkey⟩ := h.getchar hcall.call
  rw [hbuf, Option.some.injEq, List.cons.injEq] at hkey
  exact ⟨⟨u, hgoes, rfl⟩, hkey.1⟩

theorem stored_eq {i : ℤ} (c : UInt8) (h0 : 0 ≤ i) (h : i < ShellLine.size) :
    s.stored i c = { s with buf := Function.update s.buf i c } := if_pos ⟨h0, h⟩

theorem stored_astray {i : ℤ} {c : UInt8} (h : s.astray = true) : (s.stored i c).astray = true := by
  unfold stored
  split_ifs
  · exact h
  · rfl

theorem getchar_astray {call : User → UserCall → User → Prop} {c : UInt8}
    (hget : Getchar call s c t) (h : s.astray = true) : t.astray = true := by
  obtain ⟨u, -, -, rfl⟩ := hget
  exact h

/-! A store past `buf` stays on record. -/

section Astray

variable (call : User → UserCall → User → Prop)

theorem preserves_calls (c : UserCall) : Preserves (fun s => s.astray = true) (calls call c) := by
  rintro s t ⟨u, -, rfl⟩ h
  exact h

theorem preserves_printf (format : Shell → List UInt8) :
    Preserves (fun s => s.astray = true) (printf call format) := by
  rintro s t ⟨ap, r, u, -, -, rfl⟩ h
  exact h

theorem preserves_putchar (c : Shell → UInt8) :
    Preserves (fun s => s.astray = true) (putchar call c) := by
  rintro s t ⟨u, -, rfl⟩ h
  exact h

theorem preserves_store (i : Shell → ℤ) (c : Shell → UInt8) :
    Preserves (fun s => s.astray = true) (store i c) := by
  rintro s t rfl h
  exact stored_astray h

theorem preserves_test (p : Shell → Bool) :
    ∀ s v t, test p s v t → s.astray = true → t.astray = true := by
  rintro s v t ⟨-, rfl⟩ h
  exact h

theorem preserves_typesOn : ∀ s v t, typesOn call s v t → s.astray = true → t.astray = true := by
  rintro s v t ⟨c, s₁, hget, -, rfl⟩ h
  have hgot : s₁.astray = true := getchar_astray hget h
  exact hgot

theorem preserves_system : ∀ s v t, system call s v t → s.astray = true → t.astray = true := by
  rintro s v t ⟨string, u, -, -, -, rfl⟩ h
  exact h

theorem preserves_assign {f : Shell → Shell} (hf : ∀ s, (f s).astray = s.astray) :
    Preserves (fun s => s.astray = true) (.assign f) := by
  rintro s t rfl h
  exact (hf s).trans h

theorem preserves_press : Preserves (fun s => s.astray = true) (press call) := by
  simp only [press, preserves_block, Preserves, List.forall_mem_cons, List.not_mem_nil,
    false_implies, implies_true, and_true]
  refine ⟨preserves_test _, preserves_test _, ⟨?_, ?_, ?_, ?_⟩, ?_, ?_, ?_⟩
  · exact preserves_assign fun _ => rfl
  · exact preserves_putchar call _
  · exact preserves_putchar call _
  · exact preserves_putchar call _
  · exact preserves_putchar call _
  · exact preserves_store _ _
  · exact preserves_assign fun _ => rfl

theorem preserves_readLine : Preserves (fun s => s.astray = true) (readLine call) :=
  ⟨preserves_typesOn call, preserves_press call⟩

theorem preserves_takeKey : Preserves (fun s => s.astray = true) (takeKey call) := by
  simp only [takeKey, preserves_block, List.forall_mem_cons, List.not_mem_nil, false_implies,
    implies_true, and_true]
  refine ⟨?_, preserves_putchar call _, preserves_assign fun _ => rfl⟩
  rintro s t ⟨c, s₁, hget, rfl⟩ h
  exact stored_astray (getchar_astray hget h)

theorem preserves_tenKeys : Preserves (fun s => s.astray = true) (tenKeys call) := by
  simp only [tenKeys, preserves_block, List.forall_mem_cons, List.not_mem_nil, false_implies,
    implies_true, and_true]
  exact ⟨preserves_assign fun _ => rfl, ⟨preserves_test _, preserves_takeKey call⟩,
    preserves_store _ _, preserves_printf call _, preserves_printf call _⟩

theorem preserves_command (c : ShellCommand) :
    Preserves (fun s => s.astray = true) (command call c) := by
  cases c with
  | syscall | halt | reboot | date => exact preserves_calls call _
  | aaa => exact preserves_printf call _
  | bbb => exact preserves_putchar call _
  | ccc => exact preserves_tenKeys call
  | exit => trivial
  | system =>
    refine ⟨preserves_system call, preserves_block.mpr ?_, trivial⟩
    simp only [List.forall_mem_cons, List.not_mem_nil, false_implies, implies_true, and_true]
    exact ⟨preserves_printf call _, preserves_printf call _⟩

theorem preserves_answer : ∀ cmd ∈ [printf call fun _ => ascii "\r\n", store (fun s => s.i) fun _ => 0,
    .elseIf (branches call) (command call .system)],
    Preserves (fun s => s.astray = true) cmd := by
  simp only [List.forall_mem_cons, List.not_mem_nil, false_implies, implies_true, and_true]
  refine ⟨preserves_printf call _, preserves_store _ _, preserves_elseIf.mpr ⟨?_, ?_⟩⟩
  · simp only [branches, named, List.forall_mem_cons, List.not_mem_nil, false_implies,
      implies_true, and_true, preserves_command]
  · exact preserves_command call _

theorem preserves_round : Preserves (fun s => s.astray = true) (round call) :=
  preserves_block.mpr <| List.forall_mem_cons.mpr ⟨preserves_printf call _,
    List.forall_mem_cons.mpr ⟨preserves_printf call _,
      List.forall_mem_cons.mpr ⟨preserves_assign fun _ => rfl,
        List.forall_mem_cons.mpr ⟨preserves_readLine call, preserves_answer call⟩⟩⟩⟩

end Astray

/-- Keys were typed into the line that starts in `s`. -/
structure Typed (env : Env) (ps : List Program) (s : Shell) (keys : List UInt8) (t : Shell) :
    Prop where
  typing : Typing env.key s.user.keys keys
  holds : Holds t.buf t.i (edited keys)
  goes : User.Goes env ps s.user t.user (echoed [] keys) keys.length

theorem Typed.start (h : User.Ready env ps s.user) (hi : s.i = 0) : Typed env ps s [] s := by
  refine ⟨⟨rfl, List.not_mem_nil, ?_⟩, ?_, .refl h⟩
  · intro typed htyped
    rw [List.prefix_nil.mp htyped]
    exact Nat.zero_le _
  · rw [hi]
    exact .nil s.buf

theorem Typed.press {keys : List UInt8} {c : UInt8} {t' : Shell} (h : Typed env ps s keys t)
    (hc : c = env.key t.user.keys) (henter : c ≠ 13)
    (hfits : (edit (edited keys) c).length ≤ 50)
    (hholds : Holds t'.buf t'.i (edit (edited keys) c))
    (hgoes : User.Goes env ps t.user t'.user (echo (edited keys) c) 1) :
    Typed env ps s (keys ++ [c]) t' := by
  refine ⟨⟨?_, ?_, ?_⟩, ?_, ?_⟩
  · rw [List.length_append, ← streamed_append, h.typing.stream, hc, h.goes.keys]
    rfl
  · rw [List.mem_append, List.mem_singleton, not_or]
    exact ⟨h.typing.enter, henter.symm⟩
  · intro typed htyped
    rcases List.prefix_concat_iff.mp htyped with rfl | hin
    · rwa [edited_concat]
    · exact h.typing.fits typed hin
  · rwa [edited_concat]
  · rw [echoed_append, List.length_append]
    have hone : echoed (keys.foldl edit []) [c] = echo (edited keys) c := List.append_nil _
    rw [hone]
    exact h.goes.trans hgoes

/-- A round of the inner loop does one key, or stores past the buffer. -/
theorem leads_press {keys : List UInt8} {u : Shell} {Q : Way → Shell → Prop}
    (ht : Typed env ps s keys t) (hgoes : User.Goes env ps t.user u.user [] 1)
    (hholds : Holds u.buf u.i (edited keys)) (hkey : u.input = env.key t.user.keys)
    (henter : u.input ≠ 13) :
    Leads (press (library env)) u
      (around (fun v => v.astray = true ∨ ∃ keys, Typed env ps s keys v) Q) := by
  have hfits : (edited keys).length ≤ 50 := ht.typing.fits keys (List.prefix_refl keys)
  apply Leads.block_cons
  apply Leads.ite_test
  · intro hstart
    obtain ⟨hback, hzero⟩ := of_decide_eq_true hstart
    have hnil : edited keys = [] := hholds.eq_zero_iff.mp hzero
    apply Leads.cont
    rw [hback] at hkey
    refine Or.inr ⟨keys ++ [8], ht.press hkey (by decide) ?_ ?_ ?_⟩
    · rw [hnil]
      exact Nat.zero_le _
    · rw [hnil] at hholds ⊢
      exact hholds
    · rw [hnil]
      exact hgoes
  · intro hnot
    apply Leads.skip
    apply Leads.block_cons
    apply Leads.ite_test
    · intro heq
      have hback : u.input = 8 := of_decide_eq_true heq
      have hne : edited keys ≠ [] := fun hnil =>
        of_decide_eq_false hnot ⟨hback, hholds.eq_zero_iff.mpr hnil⟩
      apply Leads.block_assign
      refine Leads.block_then (leads_putchar hgoes.ready) ?_
      rintro _ ⟨u₁, h₁, rfl⟩
      refine Leads.block_then (leads_putchar h₁.ready) ?_
      rintro _ ⟨u₂, h₂, rfl⟩
      refine Leads.block_then (leads_putchar h₂.ready) ?_
      rintro _ ⟨u₃, h₃, rfl⟩
      refine Leads.block_nil (Leads.block_nil
        (Or.inr ⟨keys ++ [8], ht.press (hback ▸ hkey) (by decide) ?_ ?_ ?_⟩))
      · exact (List.dropLast_prefix _).length_le.trans hfits
      · exact hholds.pop hne
      · rw [echo, if_pos rfl, if_neg hne]
        have hall := hgoes.trans (h₁.trans (h₂.trans h₃))
        rwa [hback] at hall
    · intro heq
      have hback : u.input ≠ 8 := of_decide_eq_false heq
      refine Leads.block_then (leads_putchar hgoes.ready) ?_
      rintro _ ⟨u₁, h₁, rfl⟩
      have hindex := hholds.index
      apply Leads.block_assign
      apply Leads.block_assign
      apply Leads.block_nil
      apply Leads.block_nil
      by_cases hin : u.i < ShellLine.size
      swap
      · left
        show (stored { u with user := u₁ } u.i u.input).astray = true
        rw [stored, if_neg (fun h => hin h.2)]
      right
      dsimp only
      rw [stored_eq _ (by omega) hin]
      refine ⟨keys ++ [u.input], ht.press hkey henter ?_ ?_ ?_⟩
      · rw [edit, if_neg hback, List.length_append, List.length_singleton]
        rw [ShellLine.size] at hin
        omega
      · rw [edit, if_neg hback]
        exact hholds.push u.input
      · rw [echo, if_neg hback]
        exact hgoes.trans h₁

theorem leads_readLine (h : User.Ready env ps s.user) (hi : s.i = 0) :
    Leads (readLine (library env)) s (onward fun t => t.astray = true ∨ ∃ keys,
      Typing env.key s.user.keys keys ∧ env.key (s.user.keys + keys.length) = 13 ∧
      Holds t.buf t.i (edited keys) ∧
      User.Goes env ps s.user t.user (echoed [] keys) (keys.length + 1)) := by
  refine Leads.loop (fun t => t.astray = true ∨ ∃ keys, Typed env ps s keys t)
    (Or.inr ⟨[], .start h hi⟩) ?_ ?_
  · rintro t u (ht | ⟨keys, ht⟩) hcond
    · exact ⟨rfl, Or.inl (preserves_typesOn _ _ _ _ hcond ht)⟩
    obtain ⟨c, t₁, hget, hfalse, rfl⟩ := hcond
    obtain ⟨⟨u, hgoes, rfl⟩, hkey⟩ := getchar_moved ht.goes.ready hget
    have henter : c = 13 := not_not.mp (of_decide_eq_false hfalse.symm)
    have hall := ht.goes.trans hgoes
    rw [List.append_nil] at hall
    rw [hkey, ht.goes.keys] at henter
    exact ⟨rfl, Or.inr ⟨keys, ht.typing, henter, ht.holds, hall⟩⟩
  · rintro t u (ht | ⟨keys, ht⟩) hcond
    · have hu := preserves_typesOn _ _ _ _ hcond ht
      exact .preserved (preserves_press _) hu fun w v hv => around_of (Or.inl hv) ⟨rfl, Or.inl hv⟩
    obtain ⟨c, t₁, hget, htrue, rfl⟩ := hcond
    obtain ⟨⟨u, hgoes, rfl⟩, hkey⟩ := getchar_moved ht.goes.ready hget
    exact leads_press ht hgoes ht.holds hkey (of_decide_eq_true htrue.symm)

theorem line_eq {l : List UInt8} {i : ℤ} (h : Holds s.buf i (l ++ [0])) (hlen : l.length ≤ 49) :
    s.line = cstr l := by
  have hnul : cstr (l ++ [0]) = cstr l := by
    by_cases hmem : (0 : UInt8) ∈ l
    · have hshort : (cstr l).length < l.length := by
        refine lt_of_le_of_ne (length_cstr_le l) fun heq => zero_not_mem_cstr l ?_
        have hwhole : cstr l <+: l := List.takeWhile_prefix _
        rw [hwhole.eq_of_length heq]
        exact hmem
      exact cstr_eq_of_take hshort (by rw [List.take_left, List.take_length])
    · rw [cstr_append hmem, cstr_of_not_mem hmem]
      exact List.append_nil l
  rw [← hnul, line]
  refine cstr_eq_of_take (n := l.length + 1) ?_ ?_
  · rw [hnul]
    exact Nat.lt_succ_of_le (length_cstr_le l)
  · rw [List.take_of_length_le (l := l ++ [0]) (by simp), ← List.map_take, List.take_range]
    apply List.ext_getElem
    · simp [ShellLine.size]
      omega
    · intro k hk hk'
      rw [List.getElem_map, List.getElem_range]
      exact h.elems k hk'

theorem programName_eq {string : SyscallParam} (hlen : s.line.length < ShellLine.size.toNat)
    (h : ∀ k < ShellLine.size.toNat, string.bytes[k]? = some (s.buf k)) :
    User.programName string = s.line.map toupper := by
  rw [User.programName, cstr_stoupper]
  congr 1
  refine cstr_eq_of_take hlen (List.ext_getElem? fun k => ?_)
  rw [List.getElem?_take, List.getElem?_take]
  split_ifs with hk
  · rw [h k hk, List.getElem?_map, List.getElem?_range hk]
    rfl
  · rfl

/-- How a command comes out. -/
def Answered (env : Env) (ps : List Program) (s : Shell) (c : ShellCommand) (w : Way) (t : Shell) :
    Prop :=
  (w = .brk ∧ c = .exit ∧ t.user = s.user) ∨
    (w = .next ∧ ∃ text n, Answer env.directory ps env.key s.user.keys c s.line text n ∧
      User.Goes env ps s.user t.user text n)

theorem leads_takeKey {m : ℕ} {Q : Way → Shell → Prop} (hm : m < 10) (hj : t.j = m)
    (hholds : Holds t.buf t.j (streamed env.key s.user.keys m))
    (hgoes : User.Goes env ps s.user t.user (streamed env.key s.user.keys m) m) :
    Leads (takeKey (library env)) t (around (fun u => u.j = (m + 1 : ℕ) ∧
      Holds u.buf u.j (streamed env.key s.user.keys (m + 1)) ∧
      User.Goes env ps s.user u.user (streamed env.key s.user.keys (m + 1)) (m + 1)) Q) := by
  have hnext : streamed env.key s.user.keys (m + 1) =
      streamed env.key s.user.keys m ++ [env.key t.user.keys] := by
    rw [← streamed_append, hgoes.keys]
    rfl
  refine Leads.block_then (K := fun u => Moved env ps
    { t with buf := Function.update t.buf t.j (env.key t.user.keys) } u [] 1)
    (Leads.act ?_) ?_
  · rintro u ⟨c, s₁, hget, rfl⟩
    obtain ⟨⟨u, hu, rfl⟩, rfl⟩ := getchar_moved hgoes.ready hget
    refine ⟨rfl, u, hu, stored_eq _ ?_ ?_⟩
    · rw [hj]
      exact Int.natCast_nonneg m
    · rw [hj, ShellLine.size]
      omega
  · rintro _ ⟨u, hu, rfl⟩
    refine Leads.block_then (leads_putchar hu.ready) ?_
    rintro _ ⟨u₁, hu₁, rfl⟩
    apply Leads.block_assign
    refine Leads.block_nil ⟨?_, ?_, ?_⟩
    · show t.j + 1 = _
      rw [hj]
      rfl
    · rw [hnext]
      exact hholds.push _
    · have hshown : Function.update t.buf t.j (env.key t.user.keys) t.j = env.key t.user.keys :=
        Function.update_self _ _ _
      rw [hnext]
      dsimp only at hu₁
      rw [hshown] at hu₁
      exact hgoes.trans (hu.trans hu₁)

theorem leads_tenKeys (h : User.Ready env ps s.user) :
    Leads (tenKeys (library env)) s (Answered env ps s .ccc) := by
  apply Leads.block_assign
  refine Leads.block_then (K := fun u => u.j = (10 : ℕ) ∧
    Holds u.buf u.j (streamed env.key s.user.keys 10) ∧
    User.Goes env ps s.user u.user (streamed env.key s.user.keys 10) 10) ?_ ?_
  · refine Leads.loop (fun u => ∃ m ≤ 10, u.j = (m : ℕ) ∧
      Holds u.buf u.j (streamed env.key s.user.keys m) ∧
      User.Goes env ps s.user u.user (streamed env.key s.user.keys m) m)
      ⟨0, Nat.zero_le _, rfl, .nil s.buf, .refl h⟩ ?_ ?_
    · rintro u t ⟨m, hm, hj, hrest⟩ ⟨hstop, rfl⟩
      have hten : ¬ t.j < 10 := of_decide_eq_false hstop.symm
      obtain rfl : m = 10 := by omega
      exact ⟨rfl, hj, hrest⟩
    · rintro u t ⟨m, hm, hj, hholds, hgoes⟩ ⟨hgo, rfl⟩
      have hlt : t.j < 10 := of_decide_eq_true hgo.symm
      refine (leads_takeKey (Q := fun _ _ => False) (by omega) hj hholds hgoes).mono ?_
      intro w v hv
      cases w with
      | brk => exact hv.elim
      | next => exact ⟨m + 1, by omega, hv⟩
      | cont => exact ⟨m + 1, by omega, hv⟩
  · rintro u ⟨hj, hholds, hgoes⟩
    apply Leads.block_assign
    rw [stored_eq 0 (by decide) (show (10 : ℤ) < ShellLine.size by decide)]
    have hstored := hholds.push 0
    rw [hj] at hstored
    refine Leads.block_then (leads_prints hgoes.ready (by decide) (by decide)) ?_
    rintro _ ⟨u₁, hu₁, rfl⟩
    refine Leads.block_then (leads_printf hu₁.ready) ?_
    rintro _ ⟨text, htext, u₂, hu₂, rfl⟩
    have hline := line_eq (s := { u with user := u₁, buf := Function.update u.buf 10 0 }) hstored
      (by rw [streamed, List.length_map, List.length_range']; decide)
    rw [hline] at htext
    exact Leads.block_nil (Or.inr ⟨rfl, _, _, .ccc _ htext, hgoes.trans (hu₁.trans hu₂)⟩)

theorem leads_command (h : User.Ready env ps s.user)
    (hlen : s.line.length < ShellLine.size.toNat) (c : ShellCommand) :
    Leads (command (library env) c) s (Answered env ps s c) := by
  cases c with
  | syscall =>
    apply Leads.act
    rintro _ ⟨u, hcall, rfl⟩
    exact Or.inr ⟨rfl, _, _, .syscall _, h.callInt hcall.call⟩
  | aaa =>
    refine (leads_prints h (by decide) (by decide)).mono ?_
    rintro w _ ⟨rfl, u, hu, rfl⟩
    exact Or.inr ⟨rfl, _, _, .aaa _, hu⟩
  | bbb =>
    refine (leads_putchar h).mono ?_
    rintro w _ ⟨rfl, u, hu, rfl⟩
    exact Or.inr ⟨rfl, _, _, .bbb _, hu⟩
  | ccc => exact leads_tenKeys h
  | halt =>
    apply Leads.act
    rintro _ ⟨u, hcall, rfl⟩
    exact Or.inr ⟨rfl, _, _, .halt _, h.halt hcall.call⟩
  | reboot =>
    apply Leads.act
    rintro _ ⟨u, hcall, -⟩
    exact absurd hcall.call User.not_reboot
  | exit => exact Leads.brk (Or.inl ⟨rfl, rfl, rfl⟩)
  | date =>
    apply Leads.act
    rintro _ ⟨u, hcall, rfl⟩
    obtain ⟨c, hgoes⟩ := h.time hcall.call
    exact Or.inr ⟨rfl, _, _, .date _ c, hgoes⟩
  | system =>
    apply Leads.ite
    · rintro _ ⟨string, u, hstring, hcall, hcode, rfl⟩
      rcases h.runProgram hcall with ⟨hfind, -, hu⟩ | ⟨size, acts, text, n, -, -, hzero, -⟩
      · rw [programName_eq hlen hstring] at hfind
        refine Leads.block_then (leads_printf hu.ready) ?_
        rintro _ ⟨text, htext, u₁, hu₁, rfl⟩
        refine Leads.block_then (leads_prints hu₁.ready (by decide) (by decide)) ?_
        rintro _ ⟨u₂, hu₂, rfl⟩
        exact Leads.block_nil
          (Or.inr ⟨rfl, _, _, .refused hfind htext, hu.trans (hu₁.trans hu₂)⟩)
      · exact absurd hzero (of_decide_eq_true hcode.symm)
    · rintro _ ⟨string, u, hstring, hcall, hcode, rfl⟩
      rcases h.runProgram hcall with ⟨-, hone, -⟩ | ⟨size, acts, text, n, hfind, hexec, -, hu⟩
      · rw [hone] at hcode
        cases hcode
      · rw [programName_eq hlen hstring] at hfind hexec
        exact Leads.skip (Or.inr ⟨rfl, _, _, .ran hfind hexec, hu⟩)

theorem chosen_eq (call : User → UserCall → User → Prop) (s : Shell) :
    chosen (branches call) (command call .system) s = command call (shellCommand s.line) := by
  simp only [branches, chosen, named, shellCommand, decide_eq_true_eq]
  split_ifs <;> rfl

/-- How a round of the outer loop comes out. -/
def Round (env : Env) (ps : List Program) (s : Shell) (w : Way) (t : Shell) : Prop :=
  (w = .brk ∧ ∃ keys, Entered env.key s.user.keys keys ∧ shellCommand (typedLine keys) = .exit ∧
      User.Goes env ps s.user t.user (promptText keys) (keys.length + 1)) ∨
    (w = .next ∧ ∃ label n,
      SessionLine env.directory ps env.key s.user.keys label (s.user.keys + n) ∧
      User.Goes env ps s.user t.user label.2 n)

theorem leads_round (h : User.Ready env ps s.user) :
    Leads (round (library env)) s (fun w t => t.astray = true ∨ Round env ps s w t) := by
  refine Leads.block_then (leads_prints h (by decide) (by decide)) ?_
  rintro _ ⟨u₁, h₁, rfl⟩
  refine Leads.block_then (leads_prints h₁.ready (by decide) (by decide)) ?_
  rintro _ ⟨u₂, h₂, rfl⟩
  apply Leads.block_assign
  refine Leads.block_or (leads_readLine h₂.ready rfl) (preserves_answer _) (fun w t ht => Or.inl ht) ?_
  rintro t ⟨keys, htyping, hlast, hholds, hread⟩
  refine Leads.block_then (leads_prints hread.ready (by decide) (by decide)) ?_
  rintro _ ⟨u₃, h₃, rfl⟩
  apply Leads.block_assign
  have hindex := hholds.index
  by_cases hlt : t.i < ShellLine.size
  swap
  · have hleft : (stored { t with user := u₃ } t.i 0).astray = true := by
      rw [stored, if_neg (fun h => hlt h.2)]
    exact .preserved (preserves_block.mpr fun d hd => preserves_answer _ d
      (List.mem_cons_of_mem _ (List.mem_cons_of_mem _ hd))) hleft fun w v hv => Or.inl hv
  dsimp only
  rw [stored_eq 0 (by omega) hlt]
  have hprompt : User.Goes env ps s.user u₃ (promptText keys) (keys.length + 1) := by
    have hall := h₁.trans (h₂.trans (hread.trans h₃))
    rw [Nat.zero_add, Nat.zero_add, Nat.add_zero] at hall
    rw [promptText, List.append_assoc]
    exact hall
  have hkeys : u₂.keys = s.user.keys := h₂.keys.trans h₁.keys
  simp only [hkeys] at htyping hlast
  have hroom : (edited keys).length ≤ 49 := by
    rw [ShellLine.size] at hlt
    omega
  have hentered : Entered env.key s.user.keys keys := ⟨htyping, hlast, hroom⟩
  have hline := line_eq (s := { t with user := u₃, buf := Function.update t.buf t.i 0 })
    (hholds.push 0) hroom
  apply Leads.block_cons
  apply Leads.elseIf
  rw [chosen_eq, hline]
  have hshort := hentered.short
  refine (leads_command hprompt.ready (by rwa [hline]) _).mono ?_
  rintro w v (⟨rfl, hexit, hsame⟩ | ⟨rfl, text, n, hanswer, hgoes⟩)
  · refine Or.inr (Or.inl ⟨rfl, keys, hentered, hexit, ?_⟩)
    rw [hsame]
    exact hprompt
  · refine Leads.block_nil (Or.inr (Or.inr ⟨rfl, (typedLine keys, promptText keys ++ text), _,
      ⟨keys, text, n, hentered, rfl, ?_, (Nat.add_assoc _ _ _).symm⟩, hprompt.trans hgoes⟩))
    rwa [hline, hprompt.keys] at hanswer

/-- What the outer loop has done so far, and what it does in the end. -/
theorem leads_shell (h : User.Ready env ps s.user) :
    Leads (shell (library env)) s (onward fun t => t.astray = true ∨ ∃ lines text n,
      Session env.directory ps env.key s.user.keys lines text (s.user.keys + n) ∧
      User.Goes env ps s.user t.user text n) := by
  refine Leads.loop (fun t => t.astray = true ∨ ∃ lines n,
    Run (SessionLine env.directory ps env.key) s.user.keys lines (s.user.keys + n) ∧
    User.Goes env ps s.user t.user (shownBy lines) n) (Or.inr ⟨[], 0, .nil _, .refl h⟩) ?_ ?_
  · rintro t u - ⟨hstop, -⟩
    cases hstop
  · rintro t u (ht | ⟨lines, n, hrun, hgoes⟩) ⟨-, rfl⟩
    · exact .preserved (preserves_round _) ht fun w v hv => around_of (Or.inl hv) ⟨rfl, Or.inl hv⟩
    refine (leads_round hgoes.ready).mono ?_
    rintro w v (hv | ⟨rfl, keys, hentered, hexit, hprompt⟩ | ⟨rfl, label, n', hline, hnext⟩)
    · exact around_of (Or.inl hv) ⟨rfl, Or.inl hv⟩
    · rw [hgoes.keys] at hentered
      exact ⟨rfl, Or.inr ⟨lines, _, _, ⟨_, keys, hrun, hentered, hexit, rfl,
        (Nat.add_assoc _ _ _).symm⟩, hgoes.trans hprompt⟩⟩
    · rw [hgoes.keys] at hline
      refine Or.inr ⟨lines ++ [label], n + n', ?_, ?_⟩
      · rw [← Nat.add_assoc]
        exact hrun.snoc hline
      · rw [shownBy, List.map_append, List.flatten_append]
        exact hgoes.trans (by simpa using hnext)

end Shell

end RML
