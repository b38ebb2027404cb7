import RML.Lib.Transition
import Mathlib.Data.List.Range

/-! Runs of a transition relation against what they are meant to do: a machine that
prints at every step, whose runs they follow, and a stream whose elements they take one
after the other. -/

namespace Transition

variable {σ ε τ δ ω : Type*}

/-- What an action makes of a state, and what it prints; `none` where it cannot be taken. -/
abbrev Machine (τ δ ω : Type*) := τ → δ → Option (τ × List ω)

namespace Machine

def exec (M : Machine τ δ ω) : List δ → τ → Option (τ × List ω)
  | [], t => some (t, [])
  | d :: ds, t => do
    let (t, out) ← M t d
    let (t, rest) ← exec M ds t
    some (t, out ++ rest)

theorem exec_cons {M : Machine τ δ ω} {d : δ} {ds : List δ} {t t₁ t₂ : τ} {out rest : List ω}
    (hstep : M t d = some (t₁, out)) (hrest : exec M ds t₁ = some (t₂, rest)) :
    exec M (d :: ds) t = some (t₂, out ++ rest) := by
  simp only [exec, hstep, hrest, Option.bind_eq_bind, Option.bind_some]

theorem exec_append {M : Machine τ δ ω} {ds es : List δ} {t t₁ t₂ : τ} {out rest : List ω}
    (h : exec M ds t = some (t₁, out)) (hrest : exec M es t₁ = some (t₂, rest)) :
    exec M (ds ++ es) t = some (t₂, out ++ rest) := by
  induction ds generalizing t out with
  | nil =>
    cases h
    exact hrest
  | cons d ds ih =>
    simp only [exec, Option.bind_eq_bind, Option.bind_eq_some_iff, Option.some.injEq] at h
    obtain ⟨⟨t', text⟩, hstep, ⟨t'', texts⟩, hexec, heq⟩ := h
    obtain ⟨rfl, rfl⟩ := Prod.mk.inj heq
    rw [List.append_assoc]
    exact exec_cons hstep (ih hexec)

end Machine

/-- Every step of `R` from a state that stands for `t` is an action of `M` at `t`, and adds
to what is shown just what that action prints. -/
def Simulates (R : σ → ε → σ → Prop) (M : Machine τ δ ω) (act : ε → δ) (shown : σ → List ω)
    (sim : σ → τ → Prop) : Prop :=
  ∀ s e s' t, sim s t → R s e s' →
    ∃ t' out, M t (act e) = some (t', out) ∧ sim s' t' ∧ shown s' = shown s ++ out

/-- So every run of `R` is one of `M`. -/
theorem Simulates.run {R : σ → ε → σ → Prop} {M : Machine τ δ ω} {act : ε → δ}
    {shown : σ → List ω} {sim : σ → τ → Prop} (hsim : Simulates R M act shown sim) {s s' : σ}
    {es : List ε} {t : τ} (h : Run R s es s') (hs : sim s t) :
    ∃ t' out, M.exec (es.map act) t = some (t', out) ∧ sim s' t' ∧ shown s' = shown s ++ out := by
  induction h generalizing t with
  | nil s => exact ⟨t, [], rfl, hs, (List.append_nil _).symm⟩
  | cons hst _ ih =>
    obtain ⟨t₁, out, hact, hs₁, hshown⟩ := hsim _ _ _ _ hs hst
    obtain ⟨t₂, rest, hexec, hs₂, hrest⟩ := ih hs₁
    refine ⟨t₂, out ++ rest, Machine.exec_cons hact hexec, hs₂, ?_⟩
    rw [hrest, hshown, List.append_assoc]

def streamed (stream : ℕ → ω) (n m : ℕ) : List ω := (List.range' n m).map stream

theorem streamed_append (stream : ℕ → ω) (n m k : ℕ) :
    streamed stream n m ++ streamed stream (n + m) k = streamed stream n (m + k) := by
  rw [streamed, streamed, streamed, ← List.map_append, List.range'_append_1]

/-- Where every step takes the next elements of a stream, as many as it counts on, a run
takes them all, in order and once. -/
theorem Run.takes {R : σ → ε → σ → Prop} (I : σ → Prop) {count : σ → ℕ} {taken : ε → List ω}
    {stream : ℕ → ω}
    (hstep : ∀ s e s', I s → R s e s' →
      I s' ∧ ∃ n, count s' = count s + n ∧ taken e = streamed stream (count s) n)
    {s s' : σ} {es : List ε} (h : Run R s es s') (hs : I s) :
    ∃ n, count s' = count s + n ∧ es.flatMap taken = streamed stream (count s) n := by
  induction h with
  | nil s => exact ⟨0, rfl, rfl⟩
  | cons hst _ ih =>
    obtain ⟨hs₁, n, hcount, htaken⟩ := hstep _ _ _ hs hst
    obtain ⟨m, hcount', htaken'⟩ := ih hs₁
    refine ⟨n + m, by omega, ?_⟩
    rw [List.flatMap_cons, htaken, htaken', hcount, streamed_append]

end Transition
