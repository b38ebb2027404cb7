import Mathlib.Data.List.Infix
import Mathlib.Tactic.Basic

/-! Runs of a labelled transition relation, invariants along them, and runs that
work above a fixed depth of a stack. Nothing here is about a particular system:
`R s e t` is one step from `s` to `t` under the label `e`. -/

namespace Transition

variable {σ ε φ : Type*}

/-- Finite runs, first step first. -/
inductive Run (R : σ → ε → σ → Prop) : σ → List ε → σ → Prop
  | nil (s : σ) : Run R s [] s
  | cons {s : σ} {e : ε} {t : σ} {es : List ε} {u : σ} : R s e t → Run R t es u → Run R s (e :: es) u

theorem Run.single {R : σ → ε → σ → Prop} {s t : σ} {e : ε} (h : R s e t) : Run R s [e] t :=
  .cons h (.nil t)

theorem Run.append {R : σ → ε → σ → Prop} {s t u : σ} {es fs : List ε} (h : Run R s es t)
    (h' : Run R t fs u) : Run R s (es ++ fs) u := by
  induction h with
  | nil s => exact h'
  | cons hstep _ ih => exact .cons hstep (ih h')

theorem Run.snoc {R : σ → ε → σ → Prop} {s t u : σ} {es : List ε} {e : ε} (h : Run R s es t)
    (hstep : R t e u) : Run R s (es ++ [e]) u :=
  h.append (.single hstep)

/-- What every step preserves, every run preserves. -/
theorem Run.invariant {R : σ → ε → σ → Prop} (I : σ → Prop)
    (hstep : ∀ s e t, I s → R s e t → I t) {s t : σ} {es : List ε} (h : Run R s es t)
    (hs : I s) : I t := by
  induction h with
  | nil s => exact hs
  | cons hst _ ih => exact ih (hstep _ _ _ hs hst)

theorem Run.same {R : σ → ε → σ → Prop} {α : Type*} (f : σ → α)
    (hstep : ∀ s e t, R s e t → f t = f s) {s t : σ} {es : List ε} (h : Run R s es t) :
    f t = f s :=
  h.invariant (fun u => f u = f s) (fun _ _ _ hu hst => (hstep _ _ _ hst).trans hu) rfl

theorem Run.mono {R Q : σ → ε → σ → Prop} (hRQ : ∀ s e t, R s e t → Q s e t) {s t : σ}
    {es : List ε} (h : Run R s es t) : Run Q s es t := by
  induction h with
  | nil s => exact .nil s
  | cons hst _ ih => exact .cons (hRQ _ _ _ hst) ih

/-- The steps of `R` that meet a condition on the state before and the label. -/
def Guarded (G : σ → ε → Prop) (R : σ → ε → σ → Prop) (s : σ) (e : ε) (t : σ) : Prop :=
  G s e ∧ R s e t

/-! Each state of a nested system holds a stack; a step leaves it alone, pushes
one frame or pops one. -/

def Nested (R : σ → ε → σ → Prop) (stack : σ → List φ) : Prop :=
  ∀ s e t, R s e t → stack t = stack s ∨ (∃ f, stack t = f :: stack s) ∨ ∃ f, stack s = f :: stack t

theorem Nested.guarded {R : σ → ε → σ → Prop} {stack : σ → List φ} (hn : Nested R stack)
    (G : σ → ε → Prop) : Nested (Guarded G R) stack :=
  fun s e t h => hn s e t h.2

/-- The steps that end with at least `n` frames on the stack. -/
def Above (R : σ → ε → σ → Prop) (stack : σ → List φ) (n : ℕ) (s : σ) (e : ε) (t : σ) : Prop :=
  R s e t ∧ n ≤ (stack t).length

theorem Run.base_suffix {R : σ → ε → σ → Prop} {stack : σ → List φ} (hn : Nested R stack)
    {base : List φ} {s t : σ} {es : List ε} (h : Run (Above R stack base.length) s es t)
    (hs : base <:+ stack s) : base <:+ stack t := by
  refine h.invariant (fun u => base <:+ stack u) ?_ hs
  rintro u e v hu ⟨hst, hlen⟩
  rcases hn u e v hst with heq | ⟨f, hpush⟩ | ⟨f, hpop⟩
  · rwa [heq]
  · rw [hpush]
    exact hu.trans (List.suffix_cons f _)
  · rw [hpop] at hu
    rcases List.suffix_cons_iff.mp hu with heq | hsuf
    · rw [heq, List.length_cons] at hlen
      omega
    · exact hsuf

/-- `R` calls and returns between `s` and `t`: a step pushes one frame, a run
stays above it, and a step pops it again. -/
def Returns (R : σ → ε → σ → Prop) (stack : σ → List φ) (s t : σ) : Prop :=
  ∃ e u es v e', R s e u ∧ (stack u).length = (stack s).length + 1 ∧
    Run (Above R stack (stack u).length) u es v ∧ R v e' t ∧ (stack t).length = (stack s).length

theorem stack_of_push {R : σ → ε → σ → Prop} {stack : σ → List φ} (hn : Nested R stack)
    {s t : σ} {e : ε} (h : R s e t) (hlen : (stack t).length = (stack s).length + 1) :
    ∃ f, stack t = f :: stack s := by
  rcases hn s e t h with heq | hpush | ⟨f, hpop⟩
  · rw [heq] at hlen
    omega
  · exact hpush
  · rw [hpop, List.length_cons] at hlen
    omega

theorem Returns.same_stack {R : σ → ε → σ → Prop} {stack : σ → List φ} (hn : Nested R stack)
    {s t : σ} (h : Returns R stack s t) : stack t = stack s := by
  obtain ⟨e, u, es, v, e', hcall, hu, hrun, hret, ht⟩ := h
  obtain ⟨f, hf⟩ := stack_of_push hn hcall hu
  have hsuf : stack u <:+ stack v := hrun.base_suffix hn (List.suffix_refl _)
  rcases hn v e' t hret with heq | ⟨g, hpush⟩ | ⟨g, hpop⟩
  · have hle := hsuf.length_le
    rw [← heq] at hle
    omega
  · have hle := hsuf.length_le
    have hlen := congrArg List.length hpush
    rw [List.length_cons] at hlen
    omega
  · have hlen := congrArg List.length hpop
    rw [List.length_cons] at hlen
    have hvu : stack u = stack v := hsuf.eq_of_length (by omega)
    rw [hf, hpop] at hvu
    exact (List.cons.inj hvu).2.symm

theorem Returns.run {R : σ → ε → σ → Prop} {stack : σ → List φ} {s t : σ}
    (h : Returns R stack s t) : ∃ es, Run R s es t := by
  obtain ⟨e, u, es, v, e', hcall, -, hrun, hret, -⟩ := h
  exact ⟨e :: (es ++ [e']), .cons hcall ((hrun.mono fun _ _ _ hst => hst.1).snoc hret)⟩

end Transition
