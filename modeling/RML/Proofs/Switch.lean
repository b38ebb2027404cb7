import RML.Spec.Dispatch
import RML.Lib.Transition

/-! The switch discipline. Beside the machine runs a stack of what is open, each
entry with what it was opened with; `Saved` says where the machine keeps these
values, and every closing step finds them there. -/

namespace RML.Dispatch

open Words Transition

/-- What is open: a program with the kernel stack its `farcall` stored, or a system
call with the registers it came with; both with `suserp` as it was before. -/
inductive Opened where
  | program (ss sp suserp : Word)
  | call (ss sp ds si suserp : Word)

def calls : List Opened → ℕ
  | [] => 0
  | .program _ _ _ :: g => calls g
  | .call _ _ _ _ _ :: g => calls g + 1

def InProgram : List Opened → Prop
  | .program _ _ _ :: _ => True
  | _ => False

/-- Well nested, at most nine calls open, and room on the kernel stack for what is pushed. -/
def Allowed (c : Cpu) (g : List Opened) : Switch → Prop
  | .farcall sp _ _ =>
    ¬ InProgram g ∧ 20 ≤ sp.toNat ∧ ∀ entry ∈ c.entered.head?, sp.toNat + 2 ≤ entry.toNat
  | .int80 _ _ _ _ _ => InProgram g ∧ calls g < 9 ∧ 10 ≤ c.spbak.toNat
  | .sysexit _ => g ≠ [] ∧ ¬ InProgram g
  | .farret => InProgram g

def opened (c c' : Cpu) (g : List Opened) : Switch → List Opened
  | .farcall _ _ _ => .program c'.ssbak c'.spbak c.suserp :: g
  | .int80 ss sp ds si _ => .call ss sp ds si c.suserp :: g
  | .sysexit _ => g.tail
  | .farret => g.tail

/-- A step of the machine and of the stack beside it. -/
def Disciplined (im : Image) (s : Cpu × List Opened) (e : Switch) (s' : Cpu × List Opened) : Prop :=
  Allowed s.1 s.2 e ∧ (∃ seen, step im s.1 e = some (s'.1, seen)) ∧
    s'.2 = opened s.1 s'.1 s.2 e

/-- Where the values of the open entries are kept, given the entry pointers of the
active C functions and `suserp`. `kss` is the segment of the kernel stack. -/
def Saved (c : Cpu) (kss : Word) : List Word → Word → List Opened → Prop
  | [_], u, [] => u = 0
  | entry :: entered, u, .program ss sp suserp :: g =>
    ss = kss ∧ suserp = u ∧ sp.toNat + 22 ≤ entry.toNat ∧ ¬ InProgram g ∧
      Saved c kss (entry :: entered) u g
  | entry :: entered, u, .call ss sp ds si suserp :: .program pss psp pu :: g =>
    psp.toNat = entry.toNat + 10 ∧ load c.mem kss (entry + 6) = ds ∧
      load c.mem kss (entry + 8) = si ∧ u.toNat = suserp.toNat + 2 ∧
      c.ssuser u = ss ∧ c.spuser u = sp ∧ Saved c kss entered suserp (.program pss psp pu :: g)
  | _, _, _ => False

/-- The stack in use by the kernel, or kept for it while a program runs. -/
def KernelStack (c : Cpu) (kss : Word) : List Opened → Prop
  | .program ss sp _ :: _ => c.ssbak = ss ∧ c.spbak = sp
  | _ => c.ss = kss

structure Inv (kss : Word) (s : Cpu × List Opened) : Prop where
  saved : Saved s.1 kss s.1.entered s.1.suserp s.2
  kernelStack : KernelStack s.1 kss s.2

theorem Saved.suserp {c : Cpu} {kss u : Word} {entered : List Word} {g : List Opened}
    (h : Saved c kss entered u g) : u.toNat = 2 * calls g := by
  fun_induction Saved c kss entered u g with
  | case1 _ u => simp [h, calls]
  | case2 entry entered u ss sp suserp g ih => exact ih h.2.2.2.2
  | case3 entry entered u ss sp ds si suserp pss psp pu g ih =>
    obtain ⟨-, -, -, hu, -, -, hrest⟩ := h
    rw [hu, ih hrest]
    simp only [calls]
    omega
  | case4 => exact absurd h id

/-- The kept values are above the innermost C function's stack and below `suserp`. -/
theorem Saved.frame {c c' : Cpu} {kss u : Word} {entered : List Word} {g : List Opened}
    (h : Saved c kss entered u g)
    (hmem : ∀ entry ∈ entered.head?, SameAbove kss (entry.toNat + 6) c.mem c'.mem)
    (hss : ∀ v : Word, v.toNat ≤ u.toNat → c'.ssuser v = c.ssuser v)
    (hsp : ∀ v : Word, v.toNat ≤ u.toNat → c'.spuser v = c.spuser v) :
    Saved c' kss entered u g := by
  fun_induction Saved c kss entered u g with
  | case1 _ u => exact h
  | case2 entry entered u ss sp suserp g ih =>
    obtain ⟨h1, h2, h3, h4, hrest⟩ := h
    rw [Saved]
    exact ⟨h1, h2, h3, h4, ih hrest hmem hss hsp⟩
  | case3 entry entered u ss sp ds si suserp pss psp pu g ih =>
    obtain ⟨h1, h2, h3, hu, h5, h6, hrest⟩ := h
    have hsame := hmem entry rfl
    have hlt := psp.isLt
    rw [Saved]
    refine ⟨h1, ?_, ?_, hu, ?_, ?_, ih hrest ?_ ?_ ?_⟩
    · rw [hsame.load (by bv_omega) (by bv_omega), h2]
    · rw [hsame.load (by bv_omega) (by bv_omega), h3]
    · rw [hss u le_rfl, h5]
    · rw [hsp u le_rfl, h6]
    · intro entry' hentry'
      cases entered with
      | nil => simp at hentry'
      | cons outer rest =>
        cases hentry'
        rw [Saved] at hrest
        exact hsame.mono (by omega)
    · exact fun v hv => hss v (by omega)
    · exact fun v hv => hsp v (by omega)
  | case4 => exact absurd h id

/-! What the routines do, each said once. -/

namespace Cpu

variable {c : Cpu} {w : Word}

theorem foldl_push (ws : List Word) (h : 2 * ws.length ≤ c.sp.toNat) :
    ∃ sp mem, ws.foldl push c = { c with sp := sp, mem := mem } ∧
      sp.toNat = c.sp.toNat - 2 * ws.length ∧ SameAbove c.ss c.sp.toNat c.mem mem ∧
      ∀ (i : ℕ) (hi : i < ws.length) (a : Word), a.toNat + 2 * (i + 1) = c.sp.toNat →
        load mem c.ss a = ws[i] := by
  induction ws generalizing c with
  | nil => exact ⟨c.sp, c.mem, rfl, rfl, SameAbove.refl _ _ _, fun i hi => absurd hi (by simp)⟩
  | cons w ws ih =>
    rw [List.length_cons] at h
    have hpush : (c.push w).sp.toNat = c.sp.toNat - 2 := by
      simp only [push]
      bv_omega
    obtain ⟨sp, mem, heq, hsp, hmem, hwords⟩ := ih (c := c.push w) (by omega)
    refine ⟨sp, mem, heq, by rw [List.length_cons]; omega, ?_, ?_⟩
    · have hstore : SameAbove c.ss c.sp.toNat c.mem (c.push w).mem := by
        have hlt := c.sp.isLt
        exact sameAbove_store (by bv_omega) (by omega)
      exact hstore.trans (hmem.mono (by omega))
    · intro i hi a ha
      cases i with
      | zero =>
        obtain rfl : a = (c.push w).sp := BitVec.eq_of_toNat_eq (by omega)
        have hkept : load mem c.ss (c.push w).sp = load (c.push w).mem c.ss (c.push w).sp :=
          hmem.load le_rfl (by omega)
        rw [hkept]
        exact load_store
      | succ i => exact hwords i (Nat.lt_of_succ_lt_succ hi) a (by omega)

theorem farcall_eq (r : Regs) (h : 20 ≤ c.sp.toNat) :
    ∃ ss sp spbak mem, c.farcall r =
        { c with ss := ss, sp := sp, spbak := spbak, ssbak := c.ss, mem := mem } ∧
      spbak.toNat = c.sp.toNat - 20 ∧ SameAbove c.ss c.sp.toNat c.mem mem := by
  obtain ⟨sp, mem, heq, hsp, hmem, -⟩ := foldl_push (c := c)
    [r.bp, r.flags, r.ax, r.bx, r.cx, r.dx, r.es, c.ds, r.si, r.di] h
  refine ⟨load mem c.ss (c.sp + 4), 0xFFFE - 4, sp, mem, ?_, hsp, hmem⟩
  simp only [farcall, heq]

def atEntry (c : Cpu) (im : Image) (entry : Word) (mem : Memory) : Cpu :=
  { c with
    ss := c.ssbak
    sp := entry
    ds := im.cs
    dsuser := c.ds
    suserp := c.suserp + 2
    ssuser := Function.update c.ssuser (c.suserp + 2) c.ss
    spuser := Function.update c.spuser (c.suserp + 2) c.sp
    mem := mem
    entered := entry :: c.entered }

/-- The entry of a system call: its registers are in the tables and on the kernel
stack, five words below `spbak`. -/
theorem intr_eq (im : Image) (si dx : Word) (hu : c.suserp.toNat + 2 < userStackBytes)
    (hroom : 10 ≤ c.spbak.toNat) :
    ∃ entry mem, c.intr im si dx = some (c.atEntry im entry mem) ∧
      c.spbak.toNat = entry.toNat + 10 ∧ load mem c.ssbak (entry + 6) = c.ds ∧
      load mem c.ssbak (entry + 8) = si ∧ SameAbove c.ssbak c.spbak.toNat c.mem mem := by
  have hlt := c.spbak.isLt
  have hbx : ¬ userStackBytes ≤ (c.suserp + 2).toNat := by
    simp only [userStackBytes] at hu ⊢
    bv_omega
  -- the machine on the kernel's stack, before its five words are pushed
  let kernel : Cpu := { c with
    ss := c.ssbak
    sp := c.spbak
    ds := im.cs
    dsuser := c.ds
    suserp := c.suserp + 2
    ssuser := Function.update c.ssuser (c.suserp + 2) c.ss
    spuser := Function.update c.spuser (c.suserp + 2) c.sp }
  let words := [si + bufBytes - bufBytes, c.ds, im.params, dx, im.back]
  obtain ⟨entry, mem, hpush, hentry, hmem, hwords⟩ := foldl_push (c := kernel) words hroom
  have hpos : entry.toNat = c.spbak.toNat - 10 := hentry
  refine ⟨entry, mem, ?_, by omega, ?_, ?_, hmem⟩
  · have hintr : c.intr im si dx = some { words.foldl push kernel with
        entered := (words.foldl push kernel).sp :: c.entered } := if_neg hbx
    rw [hintr, hpush]
    rfl
  · have hplace : (entry + 6).toNat + 2 * (1 + 1) = c.spbak.toNat := by bv_omega
    exact hwords 1 (Nat.lt_add_left 3 (Nat.lt_succ_self 1)) (entry + 6) hplace
  · have hplace : (entry + 8).toNat + 2 * (0 + 1) = c.spbak.toNat := by bv_omega
    have hfirst : load mem c.ssbak (entry + 8) = si + bufBytes - bufBytes :=
      hwords 0 (Nat.succ_pos 4) (entry + 8) hplace
    rw [hfirst]
    exact BitVec.add_sub_cancel _ _

def atExit (c : Cpu) : Cpu :=
  { c with
    ssbak := c.ss
    spbak := c.sp + 8
    ss := c.ssuser c.suserp
    sp := c.spuser c.suserp
    suserp := c.suserp - 2
    ds := load c.mem c.ss (c.sp + 4) }

theorem sysexit_eq (hu : c.suserp.toNat < userStackBytes) :
    c.sysexit =
      some ((load c.mem c.ss (c.sp + 4), load c.mem c.ss (c.sp + 6)), c.atExit) := by
  have h4 : c.sp + 4 = c.sp + 2 + 2 := by bv_omega
  have h6 : c.sp + 6 = c.sp + 2 + 2 + 2 := by bv_omega
  have h8 : c.sp + 8 = c.sp + 2 + 2 + 2 + 2 := by bv_omega
  unfold atExit
  rw [h4, h6, h8]
  unfold sysexit pop
  exact if_neg (Nat.not_le.mpr hu)

theorem sameAbove_scribble (c : Cpu) (entry : Word) (junk : Memory) :
    SameAbove c.ss (entry.toNat + 6) c.mem (c.scribble entry junk).mem := by
  intro o ho
  simp only [scribble, ho, and_self, if_true]

end Cpu

variable {im : Image} {kss : Word} {c c' : Cpu} {g g' : List Opened}

theorem Saved.entered {u : Word} {entered : List Word} (h : Saved c kss entered u g) :
    ∃ entry rest, entered = entry :: rest := by
  cases entered with
  | nil => cases g <;> simp [Saved] at h
  | cons entry rest => exact ⟨entry, rest, rfl⟩

theorem Saved.call_cases {u : Word} {entered : List Word} (h : Saved c kss entered u g)
    (hg : g ≠ []) (hkernel : ¬ InProgram g) : ∃ ss sp ds si suserp pss psp pu g',
      g = .call ss sp ds si suserp :: .program pss psp pu :: g' := by
  match g, h, hg, hkernel with
  | .program _ _ _ :: _, _, _, hkernel => exact absurd trivial hkernel
  | [.call _ _ _ _ _], h, _, _ => simp [Saved] at h
  | .call _ _ _ _ _ :: .call _ _ _ _ _ :: _, h, _, _ => simp [Saved] at h
  | .call ss sp ds si suserp :: .program pss psp pu :: g', _, _, _ =>
    exact ⟨ss, sp, ds, si, suserp, pss, psp, pu, g', rfl⟩

theorem kernelStack_iff (hkernel : ¬ InProgram g) : KernelStack c kss g ↔ c.ss = kss := by
  match g, hkernel with
  | [], _ => rfl
  | .call _ _ _ _ _ :: _, _ => rfl
  | .program _ _ _ :: _, hkernel => exact absurd trivial hkernel

theorem step_farcall (im : Image) {sp : Word} {junk : Memory} {r : Regs} (hi : Inv kss (c, g))
    (ha : Allowed c g (.farcall sp junk r)) :
    ∃ c', step im c (.farcall sp junk r) = some (c', .nothing) ∧
      Inv kss (c', .program c'.ssbak c'.spbak c.suserp :: g) := by
  obtain ⟨hsaved, hstack⟩ := hi
  obtain ⟨hkernel, hroom, hbelow⟩ := ha
  obtain ⟨entry, rest, hentered : c.entered = entry :: rest⟩ := hsaved.entered
  rw [hentered] at hbelow
  have hle : sp.toNat + 2 ≤ entry.toNat := hbelow entry rfl
  have hss : c.ss = kss := (kernelStack_iff hkernel).mp hstack
  obtain ⟨ss', sp', spbak, mem, heq, hspbak, hmem⟩ :=
    Cpu.farcall_eq (c := { c.scribble entry junk with sp := sp }) r hroom
  refine ⟨{ c.scribble entry junk with sp := sp }.farcall r, by simp only [step, hentered], ?_⟩
  · rw [heq]
    refine ⟨?_, rfl, rfl⟩
    simp only [hentered, Cpu.scribble] at hspbak hsaved ⊢
    rw [Saved]
    refine ⟨hss, rfl, by omega, hkernel, hsaved.frame ?_ (fun _ _ => rfl) (fun _ _ => rfl)⟩
    intro entry' hentry'
    cases hentry'
    rw [← hss]
    exact (Cpu.sameAbove_scribble c entry junk).trans (hmem.mono (by simp only; omega))

theorem step_int80 (im : Image) {ss sp ds si dx : Word} (hi : Inv kss (c, g))
    (ha : Allowed c g (.int80 ss sp ds si dx)) :
    ∃ c', step im c (.int80 ss sp ds si dx) = some (c', .nothing) ∧
      Inv kss (c', .call ss sp ds si c.suserp :: g) := by
  obtain ⟨hsaved, hstack⟩ := hi
  obtain ⟨hprogram, hcalls, hroom⟩ := ha
  have hu := hsaved.suserp
  match g, hsaved, hstack, hprogram, hcalls, hu with
  | .program pss psp pu :: g, hsaved, ⟨hssbak, hspbak⟩, _, hcalls, hu =>
    simp only at hu hssbak hspbak hsaved hcalls
    obtain ⟨entry, mem, heq, hentry, hds, hsi, hmem⟩ :=
      Cpu.intr_eq (c := { c with ss := ss, sp := sp, ds := ds }) im si dx
        (by simp only [userStackBytes]; omega) hroom
    simp only at hentry hds hsi hmem
    refine ⟨{ c with ss := ss, sp := sp, ds := ds }.atEntry im entry mem, ?_, ?_⟩
    · simp only [step, heq]
      rfl
    obtain ⟨outer, rest, hentered⟩ := hsaved.entered
    have hpss : pss = kss := by
      rw [hentered, Saved] at hsaved
      exact hsaved.1
    rw [hssbak, hpss] at hds hsi hmem
    rw [hspbak] at hentry hmem
    refine ⟨?_, hssbak.trans hpss⟩
    show Saved _ kss (entry :: c.entered) (c.suserp + 2) _
    rw [Saved]
    have hnext : (c.suserp + 2).toNat = c.suserp.toNat + 2 := by bv_omega
    refine ⟨hentry, hds, hsi, hnext, Function.update_self _ _ _, Function.update_self _ _ _,
      hsaved.frame ?_ ?_ ?_⟩
    · intro entry' hentry'
      rw [hentered] at hentry' hsaved
      cases hentry'
      rw [Saved] at hsaved
      exact hmem.mono (by omega)
    · intro v hv
      exact Function.update_of_ne (by bv_omega) _ _
    · intro v hv
      exact Function.update_of_ne (by bv_omega) _ _

theorem step_sysexit (im : Image) (junk : Memory) (hi : Inv kss (c, g)) (hcalls : calls g ≤ 9)
    (ha : Allowed c g (.sysexit junk)) :
    ∃ ss sp ds si suserp, ∃ c', g.head? = some (.call ss sp ds si suserp) ∧
      step im c (.sysexit junk) = some (c', .exited ds si ss sp) ∧
      c'.ss = ss ∧ c'.sp = sp ∧ c'.ds = ds ∧ c'.suserp = suserp ∧ Inv kss (c', g.tail) := by
  obtain ⟨hsaved, hstack⟩ := hi
  simp only at hsaved
  obtain ⟨ss, sp, ds, si, suserp, pss, psp, pu, g', rfl⟩ := hsaved.call_cases ha.1 ha.2
  have hss : c.ss = kss := (kernelStack_iff ha.2).mp hstack
  have hu := hsaved.suserp
  obtain ⟨entry, rest, hentered⟩ := hsaved.entered
  rw [hentered, Saved] at hsaved
  obtain ⟨hpsp, hds, hsi, hnext, hssuser, hspuser, hrest⟩ := hsaved
  have hlt := psp.isLt
  have hsame := Cpu.sameAbove_scribble c entry junk
  have hreg4 : entry + 2 + 4 = entry + 6 := by bv_omega
  have hreg6 : entry + 2 + 6 = entry + 8 := by bv_omega
  have hreg8 : entry + 2 + 8 = psp := by bv_omega
  have hprev : c.suserp - 2 = suserp := by bv_omega
  -- the machine when `dispatch` has returned
  let b : Cpu := { c.scribble entry junk with sp := entry + 2, entered := rest }
  have hds' : load b.mem b.ss (b.sp + 4) = ds := by
    rw [← hds, ← hss]
    show load (c.scribble entry junk).mem c.ss (entry + 2 + 4) = _
    rw [hreg4, hsame.load (by bv_omega) (by bv_omega)]
  have hsi' : load b.mem b.ss (b.sp + 6) = si := by
    rw [← hsi, ← hss]
    show load (c.scribble entry junk).mem c.ss (entry + 2 + 6) = _
    rw [hreg6, hsame.load (by bv_omega) (by bv_omega)]
  have heq : b.sysexit = some ((ds, si), b.atExit) := by
    rw [Cpu.sysexit_eq (c := b) (by show c.suserp.toNat < 20; omega), hds', hsi']
  refine ⟨ss, sp, ds, si, suserp, b.atExit, rfl, ?_, hssuser, hspuser, hds', hprev, ?_, ?_⟩
  · simp only [step, hentered]
    show (b.sysexit.bind fun r => some (r.2, Seen.exited r.1.1 r.1.2 r.2.ss r.2.sp)) = _
    rw [heq, ← hssuser, ← hspuser]
    rfl
  · show Saved b.atExit kss rest (c.suserp - 2) _
    rw [hprev]
    refine hrest.frame ?_ (fun _ _ => rfl) (fun _ _ => rfl)
    intro entry' hentry'
    cases rest with
    | nil => simp at hentry'
    | cons outer rest =>
      cases hentry'
      rw [Saved] at hrest
      rw [← hss]
      exact hsame.mono (by omega)
  · refine ⟨?_, hreg8⟩
    obtain ⟨outer, rest', rfl⟩ := hrest.entered
    rw [Saved] at hrest
    exact hss.trans hrest.1.symm

theorem step_farret (im : Image) (hi : Inv kss (c, g)) (ha : Allowed c g .farret) :
    ∃ ss sp suserp, ∃ c', g.head? = some (.program ss sp suserp) ∧
      step im c .farret = some (c', .resumed ss sp) ∧ c'.suserp = suserp ∧
      Inv kss (c', g.tail) := by
  obtain ⟨hsaved, hstack⟩ := hi
  match g, hsaved, hstack, ha with
  | .program pss psp pu :: g', hsaved, ⟨hssbak, hspbak⟩, _ =>
    simp only at hsaved hssbak hspbak
    obtain ⟨entry, rest, hentered⟩ := hsaved.entered
    rw [hentered, Saved] at hsaved
    obtain ⟨hpss, hpu, hroom, hkernel, hrest⟩ := hsaved
    refine ⟨pss, psp, pu, (c.farret im).2, rfl, ?_, hpu.symm, ?_, ?_⟩
    · rw [← hssbak, ← hspbak]
      rfl
    · show Saved (c.farret im).2 kss c.entered c.suserp g'
      rw [hentered]
      exact hrest.frame (fun _ _ => SameAbove.refl _ _ _) (fun _ _ => rfl) (fun _ _ => rfl)
    · exact (kernelStack_iff hkernel).mpr (hssbak.trans hpss)

/-- `suserp` is 0 and one C function, `startk`, is active. -/
def Fresh (c : Cpu) : Prop := c.suserp = 0 ∧ ∃ entry, c.entered = [entry]

theorem inv_step (s : Cpu × List Opened) (e : Switch) (s' : Cpu × List Opened)
    (hs : Inv kss s ∧ calls s.2 ≤ 9) (h : Disciplined im s e s') : Inv kss s' ∧ calls s'.2 ≤ 9 := by
  obtain ⟨c, g⟩ := s
  obtain ⟨c', g'⟩ := s'
  obtain ⟨hi, hcalls⟩ := hs
  obtain ⟨ha, ⟨seen, hstep⟩, hg⟩ := h
  change g' = opened c c' g e at hg
  subst hg
  cases e with
  | farcall sp junk r =>
    obtain ⟨c₁, heq, hinv⟩ := step_farcall im hi ha
    rw [heq] at hstep
    cases hstep
    exact ⟨hinv, hcalls⟩
  | int80 ss sp ds si dx =>
    obtain ⟨c₁, heq, hinv⟩ := step_int80 im hi ha
    rw [heq] at hstep
    cases hstep
    exact ⟨hinv, ha.2.1⟩
  | sysexit junk =>
    obtain ⟨ss, sp, ds, si, suserp, c₁, hhead, heq, -, -, -, -, hinv⟩ :=
      step_sysexit im _ hi hcalls ha
    rw [heq] at hstep
    cases hstep
    refine ⟨hinv, ?_⟩
    obtain ⟨g', rfl⟩ : ∃ g', g = .call ss sp ds si suserp :: g' := List.head?_eq_some_iff.mp hhead
    exact (Nat.le_succ _).trans hcalls
  | farret =>
    obtain ⟨ss, sp, suserp, c₁, hhead, heq, -, hinv⟩ := step_farret im hi ha
    rw [heq] at hstep
    cases hstep
    refine ⟨hinv, ?_⟩
    obtain ⟨g', rfl⟩ : ∃ g', g = .program ss sp suserp :: g' := List.head?_eq_some_iff.mp hhead
    exact hcalls

theorem inv_run {c₀ : Cpu} {es : List Switch} (h0 : Fresh c₀)
    (h : Run (Disciplined im) (c₀, []) es (c, g)) : Inv c₀.ss (c, g) ∧ calls g ≤ 9 := by
  refine h.invariant (fun s => Inv c₀.ss s ∧ calls s.2 ≤ 9) inv_step ?_
  obtain ⟨hu, entry, hentered⟩ := h0
  refine ⟨⟨?_, rfl⟩, Nat.zero_le _⟩
  show Saved c₀ c₀.ss c₀.entered c₀.suserp []
  rw [hentered, Saved]
  exact hu

def image : Image := ⟨0x1000, 0x5000, 0x0100⟩

def startkRuns : Cpu where
  ss := 0x1000
  sp := 0xFFFE
  ds := 0x1000
  spbak := 0
  ssbak := 0
  spuser _ := 0
  ssuser _ := 0
  suserp := 0
  dsuser := 0
  mem _ _ := 0
  entered := [0xFFFE]

def farcallAt (sp : Word) : Switch := .farcall sp (fun _ _ => 0) ⟨0, 0, 0, 0, 0, 0, 0, 0, 0⟩

/-- `startk` starts a program, which makes a system call on its stack at `0x2000:0xFF00`. -/
def firstCall : List Switch := [farcallAt 0xFF80, .int80 0x2000 0xFF00 0x2000 0x0400 10]

/-- The call starts a program at `0x3000`, which makes a call, gets its reply and ends. -/
def nested : List Switch :=
  [farcallAt 0xFF40, .int80 0x3000 0xFE00 0x3000 0x0400 10, .sysexit fun _ _ => 7, .farret]

def initRuns : Cpu := ((step image startkRuns firstCall[0]).get rfl).1

def firstCallRuns : Cpu := ((step image initRuns firstCall[1]).get rfl).1

def secondRuns : Cpu := ((step image firstCallRuns nested[0]).get rfl).1

def secondCallRuns : Cpu := ((step image secondRuns nested[1]).get rfl).1

def secondGoesOn : Cpu := ((step image secondCallRuns nested[2]).get rfl).1

def firstCallGoesOn : Cpu := ((step image secondGoesOn nested[3]).get rfl).1

def firstOpened : List Opened :=
  [.call 0x2000 0xFF00 0x2000 0x0400 0, .program 0x1000 0xFF6C 0]

theorem run_firstCall :
    Run (Disciplined image) (startkRuns, []) firstCall (firstCallRuns, firstOpened) := by
  have hallowed : Allowed startkRuns [] firstCall[0] :=
    ⟨id, by decide, by simp [startkRuns]⟩
  refine .cons (t := (initRuns, [.program 0x1000 0xFF6C 0])) ⟨hallowed, ⟨.nothing, rfl⟩, rfl⟩ ?_
  exact .single ⟨⟨trivial, by decide, by decide⟩, ⟨.nothing, rfl⟩, rfl⟩

theorem run_nested :
    Run (Disciplined image) (firstCallRuns, firstOpened) nested (firstCallGoesOn, firstOpened) := by
  have hroom : ∀ entry ∈ firstCallRuns.entered.head?, (0xFF40 : Word).toNat + 2 ≤ entry.toNat := by
    rintro _ ⟨⟩
    decide
  refine .cons (t := (secondRuns, .program 0x1000 0xFF2C 2 :: firstOpened))
    ⟨⟨id, by decide, hroom⟩, ⟨_, rfl⟩, rfl⟩ ?_
  refine .cons (t := (secondCallRuns, .call 0x3000 0xFE00 0x3000 0x0400 2 ::
    .program 0x1000 0xFF2C 2 :: firstOpened)) ⟨⟨trivial, by decide, by decide⟩, ⟨_, rfl⟩, rfl⟩ ?_
  refine .cons (t := (secondGoesOn, .program 0x1000 0xFF2C 2 :: firstOpened))
    ⟨⟨List.cons_ne_nil _ _, id⟩, ⟨_, rfl⟩, rfl⟩ ?_
  exact .single ⟨trivial, ⟨_, rfl⟩, rfl⟩

end RML.Dispatch
