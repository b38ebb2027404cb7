import RML.Lib.Transition

/-! Structured commands over a state: sequences, branches and loops that can be left. The
elementary commands are relations, so that they may be undefined in a state or have several
outcomes. `Leads` says what every run of a command ends in, `May` what some run does. -/

namespace While

variable {σ : Type*}

/-- How a command is left. -/
inductive Way where
  | next
  | brk
  | cont
  deriving DecidableEq

/-- A condition has a truth value and may change the state. -/
abbrev Cond (σ : Type*) := σ → Bool → σ → Prop

/-- A condition that changes nothing. -/
def test (p : σ → Bool) : Cond σ := fun s v t => v = p s ∧ t = s

inductive Cmd (σ : Type*) where
  | skip
  | act (R : σ → σ → Prop)
  | seq (c d : Cmd σ)
  | ite (b : Cond σ) (c d : Cmd σ)
  | loop (b : Cond σ) (c : Cmd σ)
  | brk
  | cont

namespace Cmd

def assign (f : σ → σ) : Cmd σ := .act fun s t => t = f s

def block : List (Cmd σ) → Cmd σ
  | [] => .skip
  | c :: cs => .seq c (block cs)

/-- `if`, `else if` and so on, with what is done when no case applies. -/
def elseIf : List ((σ → Bool) × Cmd σ) → Cmd σ → Cmd σ
  | [], d => d
  | (p, c) :: cases, d => .ite (test p) c (elseIf cases d)

end Cmd

open Cmd

/-- A run of a command, and how it is left. -/
inductive Exec : Cmd σ → σ → Way → σ → Prop
  | skip (s : σ) : Exec .skip s .next s
  | act {R : σ → σ → Prop} {s t : σ} : R s t → Exec (.act R) s .next t
  | seqNext {c d : Cmd σ} {s t u : σ} {w : Way} :
      Exec c s .next t → Exec d t w u → Exec (.seq c d) s w u
  | seqLeave {c d : Cmd σ} {s t : σ} {w : Way} : Exec c s w t → w ≠ .next → Exec (.seq c d) s w t
  | iteTrue {b : Cond σ} {c d : Cmd σ} {s t u : σ} {w : Way} :
      b s true t → Exec c t w u → Exec (.ite b c d) s w u
  | iteFalse {b : Cond σ} {c d : Cmd σ} {s t u : σ} {w : Way} :
      b s false t → Exec d t w u → Exec (.ite b c d) s w u
  | loopStop {b : Cond σ} {c : Cmd σ} {s t : σ} : b s false t → Exec (.loop b c) s .next t
  | loopBreak {b : Cond σ} {c : Cmd σ} {s t u : σ} :
      b s true t → Exec c t .brk u → Exec (.loop b c) s .next u
  | loopRound {b : Cond σ} {c : Cmd σ} {s t u v : σ} {w w' : Way} :
      b s true t → Exec c t w u → w ≠ .brk → Exec (.loop b c) u w' v → Exec (.loop b c) s w' v
  | brk (s : σ) : Exec .brk s .brk s
  | cont (s : σ) : Exec .cont s .cont s

/-- No step of the command ends `P`. -/
def Preserves (P : σ → Prop) : Cmd σ → Prop
  | .act R => ∀ s t, R s t → P s → P t
  | .seq c d => Preserves P c ∧ Preserves P d
  | .ite b c d => (∀ s v t, b s v t → P s → P t) ∧ Preserves P c ∧ Preserves P d
  | .loop b c => (∀ s v t, b s v t → P s → P t) ∧ Preserves P c
  | .skip | .brk | .cont => True

theorem Preserves.exec {P : σ → Prop} {c : Cmd σ} {s t : σ} {w : Way} (hc : Preserves P c)
    (h : Exec c s w t) (hs : P s) : P t := by
  induction h with
  | skip | brk | cont => exact hs
  | act hR => exact hc _ _ hR hs
  | seqNext _ _ ihc ihd => exact ihd hc.2 (ihc hc.1 hs)
  | seqLeave _ _ ihc => exact ihc hc.1 hs
  | iteTrue hb _ ih => exact ih hc.2.1 (hc.1 _ _ _ hb hs)
  | iteFalse hb _ ih => exact ih hc.2.2 (hc.1 _ _ _ hb hs)
  | loopStop hb => exact hc.1 _ _ _ hb hs
  | loopBreak hb _ ih => exact ih hc.2 (hc.1 _ _ _ hb hs)
  | loopRound hb _ _ _ ihc ihl => exact ihl hc (ihc hc.2 (hc.1 _ _ _ hb hs))

theorem preserves_block {P : σ → Prop} {cs : List (Cmd σ)} :
    Preserves P (block cs) ↔ ∀ c ∈ cs, Preserves P c := by
  induction cs with
  | nil => simp [block, Preserves]
  | cons c cs ih => simp only [block, Preserves, ih, List.forall_mem_cons]

theorem preserves_elseIf {P : σ → Prop} {cases : List ((σ → Bool) × Cmd σ)} {d : Cmd σ} :
    Preserves P (elseIf cases d) ↔ (∀ pc ∈ cases, Preserves P pc.2) ∧ Preserves P d := by
  have htest : ∀ p : σ → Bool, ∀ s v t, test p s v t → P s → P t := by
    rintro p s v t ⟨-, rfl⟩ hs
    exact hs
  induction cases with
  | nil => simp [elseIf]
  | cons pc cases ih =>
    simp only [elseIf, Preserves, ih, List.forall_mem_cons, and_assoc]
    exact and_iff_right (htest pc.1)

/-! What is left to be shown when the way a command is left is known. -/

/-- Behind a command: `K` where it goes on, and `Q` where it is left. -/
def behind (K : σ → Prop) (Q : Way → σ → Prop) : Way → σ → Prop
  | .next => K
  | w => Q w

/-- After a round of a loop: `K` before the next one, `Q` where the loop is left. -/
def around (K : σ → Prop) (Q : Way → σ → Prop) : Way → σ → Prop
  | .brk => Q .next
  | _ => K

theorem behind_of_ne {K : σ → Prop} {Q : Way → σ → Prop} {w : Way} {t : σ} (h : w ≠ .next) :
    behind K Q w t ↔ Q w t := by
  cases w with
  | next => exact absurd rfl h
  | brk => rfl
  | cont => rfl

theorem around_of_ne {K : σ → Prop} {Q : Way → σ → Prop} {w : Way} {t : σ} (h : w ≠ .brk) :
    around K Q w t ↔ K t := by
  cases w with
  | next => rfl
  | brk => exact absurd rfl h
  | cont => rfl

theorem around_of {K : σ → Prop} {Q : Way → σ → Prop} {w : Way} {t : σ} (hK : K t)
    (hQ : Q .next t) : around K Q w t := by
  cases w with
  | next => exact hK
  | brk => exact hQ
  | cont => exact hK

/-- Only `K` is left: the command goes on. -/
def onward (K : σ → Prop) (w : Way) (t : σ) : Prop := w = .next ∧ K t

/-- Wherever a run of `c` from `s` ends, it ends in `Q`. -/
def Leads (c : Cmd σ) (s : σ) (Q : Way → σ → Prop) : Prop := ∀ w t, Exec c s w t → Q w t

/-- Some run of `c` from `s` ends in `Q`. -/
def May (c : Cmd σ) (s : σ) (Q : Way → σ → Prop) : Prop := ∃ w t, Exec c s w t ∧ Q w t

variable {c d : Cmd σ} {cs : List (Cmd σ)} {b : Cond σ} {R : σ → σ → Prop} {s : σ}
  {Q P : Way → σ → Prop} {K : σ → Prop}

namespace Leads

theorem mono (h : Leads c s P) (hPQ : ∀ w t, P w t → Q w t) : Leads c s Q :=
  fun w t hexec => hPQ w t (h w t hexec)

theorem skip (h : Q .next s) : Leads .skip s Q := by
  intro w t hexec
  cases hexec
  exact h

theorem brk (h : Q .brk s) : Leads .brk s Q := by
  intro w t hexec
  cases hexec
  exact h

theorem cont (h : Q .cont s) : Leads .cont s Q := by
  intro w t hexec
  cases hexec
  exact h

theorem act (h : ∀ t, R s t → Q .next t) : Leads (.act R) s Q := by
  intro w t hexec
  cases hexec with
  | act hR => exact h t hR

theorem assign {f : σ → σ} (h : Q .next (f s)) : Leads (.assign f) s Q := by
  apply act
  rintro t rfl
  exact h

theorem seq (h : Leads c s (behind (fun t => Leads d t Q) Q)) : Leads (.seq c d) s Q := by
  intro w u hexec
  cases hexec with
  | seqNext hc hd => exact h _ _ hc _ _ hd
  | seqLeave hc hw => exact (behind_of_ne hw).mp (h _ _ hc)

theorem ite (htrue : ∀ t, b s true t → Leads c t Q) (hfalse : ∀ t, b s false t → Leads d t Q) :
    Leads (.ite b c d) s Q := by
  intro w u hexec
  cases hexec with
  | iteTrue hb hc => exact htrue _ hb _ _ hc
  | iteFalse hb hd => exact hfalse _ hb _ _ hd

theorem block_nil (h : Q .next s) : Leads (block []) s Q := skip h

theorem block_cons (h : Leads c s (behind (fun t => Leads (block cs) t Q) Q)) :
    Leads (block (c :: cs)) s Q := seq h

theorem block_then (h : Leads c s (onward K)) (hK : ∀ t, K t → Leads (block cs) t Q) :
    Leads (block (c :: cs)) s Q := by
  apply block_cons
  refine h.mono ?_
  rintro w t ⟨rfl, ht⟩
  exact hK t ht

theorem preserved {p : σ → Prop} (hc : Preserves p c) (hs : p s) (hp : ∀ w t, p t → Q w t) :
    Leads c s Q :=
  fun w t hexec => hp w t (hc.exec hexec hs)

/-- What may have come about in a command is preserved by the others. -/
theorem block_or {p : σ → Prop} (h : Leads c s (onward fun t => p t ∨ K t))
    (hcs : ∀ d ∈ cs, Preserves p d) (hp : ∀ w t, p t → Q w t)
    (hK : ∀ t, K t → Leads (block cs) t Q) : Leads (block (c :: cs)) s Q := by
  refine block_then h ?_
  rintro t (ht | ht)
  · exact preserved (preserves_block.mpr hcs) ht hp
  · exact hK t ht

theorem block_assign {f : σ → σ} (h : Leads (block cs) (f s) Q) :
    Leads (block (.assign f :: cs)) s Q :=
  block_cons (assign h)

theorem ite_test {p : σ → Bool} (htrue : p s = true → Leads c s Q)
    (hfalse : p s = false → Leads d s Q) : Leads (.ite (test p) c d) s Q := by
  apply ite
  · rintro t ⟨hp, rfl⟩
    exact htrue hp.symm
  · rintro t ⟨hp, rfl⟩
    exact hfalse hp.symm

/-- The induction over the rounds of a loop. -/
theorem loop (I : σ → Prop) (hs : I s)
    (hstop : ∀ s t, I s → b s false t → Q .next t)
    (hround : ∀ s t, I s → b s true t → Leads c t (around I Q)) : Leads (.loop b c) s Q := by
  intro w t hexec
  generalize hl : Cmd.loop b c = l at hexec
  induction hexec with
  | loopStop hb =>
    cases hl
    exact hstop _ _ hs hb
  | loopBreak hb hc =>
    cases hl
    exact hround _ _ hs hb _ _ hc
  | loopRound hb hc hw _ _ ih =>
    cases hl
    exact ih ((around_of_ne hw).mp (hround _ _ hs hb _ _ hc)) rfl
  | _ => cases hl

end Leads

namespace May

theorem mono (h : May c s P) (hPQ : ∀ w t, P w t → Q w t) : May c s Q := by
  obtain ⟨w, t, hexec, hP⟩ := h
  exact ⟨w, t, hexec, hPQ w t hP⟩

theorem skip (h : Q .next s) : May .skip s Q := ⟨_, _, .skip s, h⟩

theorem brk (h : Q .brk s) : May .brk s Q := ⟨_, _, .brk s, h⟩

theorem cont (h : Q .cont s) : May .cont s Q := ⟨_, _, .cont s, h⟩

theorem act {t : σ} (hR : R s t) (h : Q .next t) : May (.act R) s Q := ⟨_, t, .act hR, h⟩

theorem assign {f : σ → σ} (h : Q .next (f s)) : May (.assign f) s Q := act rfl h

theorem seq (h : May c s (behind (fun t => May d t Q) Q)) : May (.seq c d) s Q := by
  obtain ⟨w, t, hc, hmay⟩ := h
  by_cases hw : w = .next
  · subst hw
    obtain ⟨w', u, hd, hQ⟩ := hmay
    exact ⟨w', u, .seqNext hc hd, hQ⟩
  · exact ⟨w, t, .seqLeave hc hw, (behind_of_ne hw).mp hmay⟩

theorem ite_true {t : σ} (hb : b s true t) (h : May c t Q) : May (.ite b c d) s Q := by
  obtain ⟨w, u, hc, hQ⟩ := h
  exact ⟨w, u, .iteTrue hb hc, hQ⟩

theorem ite_false {t : σ} (hb : b s false t) (h : May d t Q) : May (.ite b c d) s Q := by
  obtain ⟨w, u, hd, hQ⟩ := h
  exact ⟨w, u, .iteFalse hb hd, hQ⟩

theorem block_nil (h : Q .next s) : May (block []) s Q := skip h

theorem block_cons (h : May c s (behind (fun t => May (block cs) t Q) Q)) :
    May (block (c :: cs)) s Q := seq h

theorem block_then (h : May c s (onward K)) (hK : ∀ t, K t → May (block cs) t Q) :
    May (block (c :: cs)) s Q := by
  apply block_cons
  refine h.mono ?_
  rintro w t ⟨rfl, ht⟩
  exact hK t ht

theorem block_assign {f : σ → σ} (h : May (block cs) (f s) Q) :
    May (block (.assign f :: cs)) s Q :=
  block_cons (assign h)

theorem loop_stop {t : σ} (hb : b s false t) (h : Q .next t) : May (.loop b c) s Q :=
  ⟨_, t, .loopStop hb, h⟩

theorem loop_round {t : σ} (hb : b s true t)
    (h : May c t (around (fun u => May (.loop b c) u Q) Q)) : May (.loop b c) s Q := by
  obtain ⟨w, u, hc, hmay⟩ := h
  by_cases hw : w = .brk
  · subst hw
    exact ⟨_, u, .loopBreak hb hc, hmay⟩
  · obtain ⟨w', v, hl, hQ⟩ := (around_of_ne hw).mp hmay
    exact ⟨w', v, .loopRound hb hc hw hl, hQ⟩

end May

/-- The branch of a chain of `else if` that is taken. -/
def chosen (cases : List ((σ → Bool) × Cmd σ)) (d : Cmd σ) (s : σ) : Cmd σ :=
  match cases with
  | [] => d
  | (p, c) :: cases => if p s then c else chosen cases d s

theorem exec_elseIf {cases : List ((σ → Bool) × Cmd σ)} {w : Way} {t : σ} :
    Exec (elseIf cases d) s w t ↔ Exec (chosen cases d s) s w t := by
  induction cases with
  | nil => rfl
  | cons pc cases ih =>
    obtain ⟨p, c⟩ := pc
    rw [chosen]
    split_ifs with hp
    · constructor
      · intro hexec
        cases hexec with
        | iteTrue hb hc =>
          obtain ⟨-, rfl⟩ := hb
          exact hc
        | iteFalse hb _ => exact absurd (hb.1.trans hp) (by decide)
      · exact .iteTrue ⟨hp.symm, rfl⟩
    · constructor
      · intro hexec
        cases hexec with
        | iteTrue hb _ => exact absurd hb.1.symm hp
        | iteFalse hb hd =>
          obtain ⟨-, rfl⟩ := hb
          exact ih.mp hd
      · intro hexec
        exact .iteFalse ⟨by simpa using hp, rfl⟩ (ih.mpr hexec)

theorem Leads.elseIf {cases : List ((σ → Bool) × Cmd σ)} (h : Leads (chosen cases d s) s Q) :
    Leads (elseIf cases d) s Q :=
  fun w t hexec => h w t (exec_elseIf.mp hexec)

theorem May.elseIf {cases : List ((σ → Bool) × Cmd σ)} (h : May (chosen cases d s) s Q) :
    May (elseIf cases d) s Q := by
  obtain ⟨w, t, hexec, hQ⟩ := h
  exact ⟨w, t, exec_elseIf.mpr hexec, hQ⟩

end While
