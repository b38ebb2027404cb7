import RML.Proofs.Numerals

/-! `vfprintf` from template to output. -/

namespace RML

open Decimal

theorem vfprintfLoop_append (pre template : List UInt8) (fuel i : ℕ) (ap : List PrintfArg) :
    vfprintfLoop (pre ++ template) fuel (pre.length + i) ap =
      (vfprintfLoop template fuel i ap).map fun r => { r with i := pre.length + r.i } := by
  induction fuel generalizing i ap with
  | zero => rfl
  | succ fuel ih =>
    have hread : ∀ k, (pre ++ template ++ [0])[pre.length + k]? = (template ++ [0])[k]? := by
      intro k
      rw [List.append_assoc, List.getElem?_append_right (Nat.le_add_right _ _), Nat.add_sub_cancel_left]
    simp only [vfprintfLoop, Nat.add_assoc, hread, ih, Option.bind_eq_bind]
    cases hc : (template ++ [0])[i]? with
    | none => rfl
    | some c =>
      simp only [Option.bind_some]
      split_ifs with h0 hlit
      · rfl
      · cases vfprintfLoop template fuel (i + 1) ap <;> rfl
      · cases hd : (template ++ [0])[i + 1]? with
        | none => rfl
        | some d =>
          simp only [Option.bind_some]
          split_ifs with hs hint
          · rcases ap with _ | ⟨s | v, ap⟩
            · rfl
            · dsimp only
              cases vfprintfLoop template fuel (i + 2) ap <;> rfl
            · rfl
          · rcases ap with _ | ⟨s | v, ap⟩
            · rfl
            · rfl
            · dsimp only
              cases itoa v with
              | none => rfl
              | some strnum => cases vfprintfLoop template fuel (i + 2) ap <;> rfl
          · rfl

theorem vfprintfLoop_lit {c : UInt8} (h0 : c ≠ 0) (hlit : c ≠ 37) (template : List UInt8)
    (fuel : ℕ) (ap : List PrintfArg) :
    vfprintfLoop (c :: template) (fuel + 1) 0 ap =
      (vfprintfLoop template fuel 0 ap).map fun r => ⟨[c] :: r.chunks, 1 + r.i, r.ap⟩ := by
  have hrest := vfprintfLoop_append [c] template fuel 0 ap
  rw [List.singleton_append, List.length_singleton, Nat.add_zero] at hrest
  simp only [vfprintfLoop, List.cons_append, List.getElem?_cons_zero, Option.bind_eq_bind,
    Option.bind_some, if_neg h0, if_pos hlit, Nat.zero_add, hrest]
  cases vfprintfLoop template fuel 0 ap <;> rfl

theorem vfprintfLoop_str (template : List UInt8) (fuel : ℕ) (s : List UInt8) (ap : List PrintfArg) :
    vfprintfLoop (37 :: 115 :: template) (fuel + 1) 0 (.str s :: ap) =
      (vfprintfLoop template fuel 0 ap).map fun r => ⟨s.map ([·]) ++ r.chunks, 2 + r.i, r.ap⟩ := by
  have hrest := vfprintfLoop_append [37, 115] template fuel 0 ap
  rw [List.cons_append, List.singleton_append] at hrest
  show ((vfprintfLoop (37 :: 115 :: template) fuel 2 ap).bind fun r => _) = _
  rw [show vfprintfLoop (37 :: 115 :: template) fuel 2 ap = _ from hrest]
  cases vfprintfLoop template fuel 0 ap <;> rfl

theorem vfprintfLoop_int {i : Int32} {strnum : List UInt8} (hi : itoa i = some strnum)
    (template : List UInt8) (fuel : ℕ) (ap : List PrintfArg) :
    vfprintfLoop (37 :: 100 :: template) (fuel + 1) 0 (.int i :: ap) =
      (vfprintfLoop template fuel 0 ap).map fun r => ⟨strnum :: r.chunks, 2 + r.i, r.ap⟩ := by
  have hrest := vfprintfLoop_append [37, 100] template fuel 0 ap
  rw [List.cons_append, List.singleton_append] at hrest
  show ((itoa i).bind fun strnum => (vfprintfLoop (37 :: 100 :: template) fuel 2 ap).bind fun r => _) = _
  rw [show vfprintfLoop (37 :: 100 :: template) fuel 2 ap = _ from hrest, hi]
  cases vfprintfLoop template fuel 0 ap <;> rfl

theorem vfprintfLoop_skip {template : List UInt8} (hs : template.head? ≠ some 115)
    (hint : template.head? ≠ some 100) (fuel : ℕ) (ap : List PrintfArg) :
    vfprintfLoop (37 :: template) (fuel + 1) 0 ap =
      (vfprintfLoop template fuel 0 ap).map fun r => { r with i := 1 + r.i } := by
  have hrest := vfprintfLoop_append [37] template fuel 0 ap
  rw [List.singleton_append, List.length_singleton, Nat.add_zero] at hrest
  rw [← hrest]
  cases template with
  | nil => rfl
  | cons d template =>
    rw [List.head?_cons, ne_eq, Option.some.injEq] at hs hint
    show (if d = 115 then _ else if d = 100 then _ else vfprintfLoop (37 :: d :: template) fuel 1 ap) = _
    rw [if_neg hs, if_neg hint]

/-- What a template makes of its arguments, directive by directive. A `%` is followed by
`s` or `d`, but for a single one at the end; each directive has an argument of its kind. -/
inductive Formats : List UInt8 → List PrintfArg → List UInt8 → Prop
  | nil : Formats [] [] []
  | percent : Formats [37] [] []
  | lit {c : UInt8} {template text : List UInt8} {ap : List PrintfArg} : c ≠ 0 → c ≠ 37 →
      Formats template ap text → Formats (c :: template) ap (c :: text)
  | str {s template text : List UInt8} {ap : List PrintfArg} : (0 : UInt8) ∉ s →
      Formats template ap text → Formats (37 :: 115 :: template) (.str s :: ap) (s ++ text)
  | int {i : Int32} {numeral template text : List UInt8} {ap : List PrintfArg} :
      SignedNumeral numeral i.toInt → numeral.length ≤ 6 → Formats template ap text →
      Formats (37 :: 100 :: template) (.int i :: ap) (numeral ++ text)

theorem flatten_map_singleton (s : List UInt8) : (s.map ([·])).flatten = s := by
  induction s with
  | nil => rfl
  | cons c s ih => rw [List.map_cons, List.flatten_cons, ih, List.singleton_append]

theorem vfprintfLoop_formats {template text : List UInt8} {ap : List PrintfArg}
    (h : Formats template ap text) (rest : List PrintfArg) {fuel : ℕ}
    (hfuel : template.length + 1 ≤ fuel) :
    ∃ chunks, vfprintfLoop template fuel 0 (ap ++ rest) = some ⟨chunks, template.length, rest⟩ ∧
      chunks.flatten = text := by
  induction h generalizing fuel with
  | nil =>
    obtain ⟨fuel, rfl⟩ : ∃ n, fuel = n + 1 := ⟨fuel - 1, by simp at hfuel; omega⟩
    exact ⟨[], rfl, rfl⟩
  | percent =>
    obtain ⟨fuel, rfl⟩ : ∃ n, fuel = n + 2 := ⟨fuel - 2, by simp at hfuel; omega⟩
    exact ⟨[], rfl, rfl⟩
  | @lit c template text ap h0 hlit _ ih =>
    rw [List.length_cons] at hfuel
    obtain ⟨fuel, rfl⟩ : ∃ n, fuel = n + 1 := ⟨fuel - 1, by omega⟩
    obtain ⟨chunks, hloop, htext⟩ := @ih fuel (by omega)
    refine ⟨[c] :: chunks, ?_, ?_⟩
    · rw [vfprintfLoop_lit h0 hlit, hloop, Option.map_some, List.length_cons, Nat.add_comm]
    · rw [List.flatten_cons, htext, List.singleton_append]
  | @str s template text ap _ _ ih =>
    rw [List.length_cons, List.length_cons] at hfuel
    obtain ⟨fuel, rfl⟩ : ∃ n, fuel = n + 1 := ⟨fuel - 1, by omega⟩
    obtain ⟨chunks, hloop, htext⟩ := @ih fuel (by omega)
    refine ⟨s.map ([·]) ++ chunks, ?_, ?_⟩
    · rw [List.cons_append, vfprintfLoop_str, hloop, Option.map_some, List.length_cons,
        List.length_cons, Nat.add_comm]
    · rw [List.flatten_append, flatten_map_singleton, htext]
  | @int i numeral template text ap hnumeral hlen _ ih =>
    rw [List.length_cons, List.length_cons] at hfuel
    obtain ⟨fuel, rfl⟩ : ∃ n, fuel = n + 1 := ⟨fuel - 1, by omega⟩
    obtain ⟨chunks, hloop, htext⟩ := @ih fuel (by omega)
    have hitoa : itoa i = some numeral := by
      rw [itoa_eq, ← hnumeral.eq_printInt, if_pos hlen]
    refine ⟨numeral :: chunks, ?_, ?_⟩
    · rw [List.cons_append, vfprintfLoop_int hitoa, hloop, Option.map_some, List.length_cons,
        List.length_cons, Nat.add_comm]
    · rw [List.flatten_cons, htext]

/-- Formatted output: on descriptor 1 the text is printed, each argument is taken once,
and the length of the template is returned. What is said of `vfprintf`, which the library's
other functions print with, holds of this loop by `vfprintf_eq`. -/
theorem vfprintf_formats {template text : List UInt8} {ap : List PrintfArg}
    (h : Formats template ap text) (rest : List PrintfArg) :
    ∃ chunks, vfprintfStream 1 (template.length + 1) template (ap ++ rest) =
        some ⟨chunks, template.length, rest⟩ ∧ chunks.flatten = text :=
  vfprintfLoop_formats h rest (le_refl _)

theorem vfprintf_formats_pair : ∃ chunks,
    vfprintfStream 1 7 (ascii "%s=%d%") [.str (ascii "n"), .int (-42), .int 7] =
      some ⟨chunks, 6, [.int 7]⟩ ∧ chunks.flatten = ascii "n=-42" := by
  have hnumeral : SignedNumeral [45, 52, 50] (Int32.toInt (-42)) := by
    rw [SignedNumeral, if_neg (by decide)]
    exact ⟨[52, 50], rfl, by decide, by simp, by decide, by decide⟩
  have htail : Formats [61, 37, 100, 37] [.int (-42)] (61 :: ([45, 52, 50] ++ [])) :=
    .lit (by decide) (by decide) (.int hnumeral (by decide) .percent)
  have h : Formats (ascii "%s=%d%") [.str (ascii "n"), .int (-42)] (ascii "n=-42") :=
    .str (by decide) htail
  exact vfprintf_formats h [.int 7]

/-- What the two definitions of `vfprintf` hand to `mywrite` is the same. -/
theorem vfprintf_eq {template : List UInt8} (h0 : (0 : UInt8) ∉ template) {fuel : ℕ}
    (hfuel : template.length + 1 ≤ fuel) (ap : List PrintfArg) :
    vfprintf template ap = (vfprintfLoop template fuel 0 ap).map Printed.chunks := by
  obtain ⟨fuel, rfl⟩ : ∃ n, fuel = n + 1 := ⟨fuel - 1, by omega⟩
  fun_induction vfprintf template ap generalizing fuel with
  | case1 ap => rfl
  | case2 c template ap hlit ih =>
    rw [List.mem_cons, not_or] at h0
    rw [List.length_cons] at hfuel
    obtain ⟨fuel, rfl⟩ : ∃ n, fuel = n + 1 := ⟨fuel - 1, by omega⟩
    rw [vfprintfLoop_lit (Ne.symm h0.1) hlit, ih h0.2 fuel (by omega)]
    cases vfprintfLoop template (fuel + 1) 0 ap <;> rfl
  | case3 c hpercent template s ap ih =>
    obtain rfl := not_not.mp hpercent
    rw [List.mem_cons, List.mem_cons, not_or, not_or] at h0
    rw [List.length_cons, List.length_cons] at hfuel
    obtain ⟨fuel, rfl⟩ : ∃ n, fuel = n + 1 := ⟨fuel - 1, by omega⟩
    rw [vfprintfLoop_str, ih h0.2.2 fuel (by omega)]
    cases vfprintfLoop template (fuel + 1) 0 ap <;> rfl
  | case4 c hpercent template i ap ih =>
    obtain rfl := not_not.mp hpercent
    rw [List.mem_cons, List.mem_cons, not_or, not_or] at h0
    rw [List.length_cons, List.length_cons] at hfuel
    obtain ⟨fuel, rfl⟩ : ∃ n, fuel = n + 1 := ⟨fuel - 1, by omega⟩
    cases hitoa : itoa i with
    | none =>
      have hstuck : vfprintfLoop (37 :: 100 :: template) (fuel + 1 + 1) 0 (.int i :: ap) =
          (itoa i).bind fun _ => _ := rfl
      rw [hstuck, hitoa]
      rfl
    | some strnum =>
      rw [vfprintfLoop_int hitoa, ih h0.2.2 fuel (by omega)]
      cases vfprintfLoop template (fuel + 1) 0 ap <;> rfl
  | case5 c ap hpercent template hno =>
    obtain rfl := not_not.mp hpercent
    rcases ap with _ | ⟨s | i, ap⟩
    · rfl
    · exact (hno s ap rfl).elim
    · rfl
  | case6 c ap hpercent template hno =>
    obtain rfl := not_not.mp hpercent
    rcases ap with _ | ⟨s | i, ap⟩
    · rfl
    · rfl
    · exact (hno i ap rfl).elim
  | case7 c hpercent template ap _ _ hs hint ih =>
    obtain rfl := not_not.mp hpercent
    rw [List.mem_cons, not_or] at h0
    rw [List.length_cons] at hfuel
    obtain ⟨fuel, rfl⟩ : ∃ n, fuel = n + 1 := ⟨fuel - 1, by omega⟩
    have hs' : template.head? ≠ some 115 := fun h => (List.head?_eq_some_iff.mp h).elim hs
    have hint' : template.head? ≠ some 100 := fun h => (List.head?_eq_some_iff.mp h).elim hint
    rw [vfprintfLoop_skip hs' hint', ih h0.2 fuel (by omega)]
    cases vfprintfLoop template (fuel + 1) 0 ap <;> rfl

/-! A text used as a template. -/

theorem formats_plain {text : List UInt8} (h0 : (0 : UInt8) ∉ text) (h : (37 : UInt8) ∉ text) :
    Formats text [] text := by
  induction text with
  | nil => exact .nil
  | cons c text ih =>
    rw [List.mem_cons, not_or] at h0 h
    exact .lit (Ne.symm h0.1) (Ne.symm h.1) (ih h0.2 h.2)

theorem vfprintfLoop_cases {c : UInt8} {text : List UInt8} {fuel : ℕ} {ap : List PrintfArg}
    {r : Printed} (h0 : c ≠ 0) (h : vfprintfLoop (c :: text) (fuel + 1) 0 ap = some r) :
    (c ≠ 37 ∧ ∃ r', vfprintfLoop text fuel 0 ap = some r' ∧ r.ap = r'.ap ∧
        r.chunks = [c] :: r'.chunks) ∨
      (c = 37 ∧ ∃ r', vfprintfLoop text fuel 0 ap = some r' ∧ r.ap = r'.ap ∧
        r.chunks = r'.chunks) ∨
      ∃ d text' arg ap' r', text = d :: text' ∧ ap = arg :: ap' ∧
        vfprintfLoop text' fuel 0 ap' = some r' ∧ r.ap = r'.ap := by
  by_cases hlit : c = 37
  · subst hlit
    by_cases hs : text.head? = some 115
    · obtain ⟨text', rfl⟩ := List.head?_eq_some_iff.mp hs
      rcases ap with _ | ⟨s | i, ap⟩
      · cases h
      · rw [vfprintfLoop_str, Option.map_eq_some_iff] at h
        obtain ⟨r', hrest, rfl⟩ := h
        exact Or.inr (Or.inr ⟨_, _, _, _, r', rfl, rfl, hrest, rfl⟩)
      · cases h
    · by_cases hint : text.head? = some 100
      · obtain ⟨text', rfl⟩ := List.head?_eq_some_iff.mp hint
        rcases ap with _ | ⟨s | i, ap⟩
        · cases h
        · cases h
        · obtain ⟨strnum, hitoa, -⟩ := Option.bind_eq_some_iff.mp h
          rw [vfprintfLoop_int hitoa, Option.map_eq_some_iff] at h
          obtain ⟨r', hrest, rfl⟩ := h
          exact Or.inr (Or.inr ⟨_, _, _, _, r', rfl, rfl, hrest, rfl⟩)
      · rw [vfprintfLoop_skip hs hint, Option.map_eq_some_iff] at h
        obtain ⟨r', hrest, rfl⟩ := h
        exact Or.inr (Or.inl ⟨rfl, r', hrest, rfl, rfl⟩)
  · rw [vfprintfLoop_lit h0 hlit, Option.map_eq_some_iff] at h
    obtain ⟨r', hrest, rfl⟩ := h
    exact Or.inl ⟨hlit, r', hrest, rfl, rfl⟩

/-- When no argument has been taken, the output is the template without its `%`s. -/
theorem vfprintfLoop_filter {fuel : ℕ} {text : List UInt8} {ap : List PrintfArg} {r : Printed}
    (h0 : (0 : UInt8) ∉ text) (h : vfprintfLoop text fuel 0 ap = some r) :
    r.ap.length ≤ ap.length ∧
      (r.ap.length = ap.length → r.chunks.flatten = text.filter (· ≠ 37)) := by
  induction fuel generalizing text ap r with
  | zero => cases h
  | succ fuel ih =>
    cases text with
    | nil =>
      cases h
      exact ⟨le_refl _, fun _ => rfl⟩
    | cons c text =>
      rw [List.mem_cons, not_or] at h0
      obtain ⟨hlit, r', hrest, hap, hchunks⟩ | ⟨rfl, r', hrest, hap, hchunks⟩ |
        ⟨d, text', arg, ap', r', rfl, rfl, hrest, hap⟩ := vfprintfLoop_cases (Ne.symm h0.1) h
      · obtain ⟨hle, htext⟩ := ih h0.2 hrest
        rw [hap, hchunks]
        refine ⟨hle, fun heq => ?_⟩
        rw [List.flatten_cons, htext heq, List.filter_cons_of_pos (by simpa using hlit),
          List.singleton_append]
      · obtain ⟨hle, htext⟩ := ih h0.2 hrest
        rw [hap, hchunks]
        refine ⟨hle, fun heq => ?_⟩
        rw [htext heq, List.filter_cons_of_neg (by decide)]
      · -- the argument that was taken is missing afterwards
        have hle := (ih (fun hmem => h0.2 (List.mem_cons_of_mem d hmem)) hrest).1
        rw [hap, List.length_cons]
        exact ⟨by omega, fun heq => by omega⟩

end RML
