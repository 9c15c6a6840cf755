import Mathlib.Logic.Function.Basic

/-! Runs of a fallible step function: a run is `List.foldlM` over the list of calls and stops at
    the first call that fails. An invariant, or a simulation of the run by a total step function on
    abstract states, is proved for one call and carried over to runs here. -/

namespace Kucg.Lib

variable {σ τ α ε : Type}

theorem ok_of_bind {x : Except ε σ} {f : σ → Except ε τ} {t : τ} (h : (x >>= f) = .ok t) :
    ∃ s, x = .ok s ∧ f s = .ok t := by
  cases x with
  | error e => exact absurd h (by simp [bind, Except.bind])
  | ok s => exact ⟨s, rfl, h⟩

/-- If every successful call keeps `R` between concrete and abstract state, so does a run. -/
theorem foldlM_simulation (astep : τ → α → τ) {step : σ → α → Except ε σ} {R : σ → τ → Prop}
    (hstep : ∀ s t a s', R s t → step s a = .ok s' → R s' (astep t a)) :
    ∀ (l : List α) (s : σ) (t : τ) (s' : σ), R s t → l.foldlM step s = .ok s' →
      R s' (l.foldl astep t)
  | [], s, t, s', hR, h => by
    obtain rfl : s = s' := Except.ok.inj h
    exact hR
  | a :: l, s, t, s', hR, h => by
    rw [List.foldlM_cons] at h
    obtain ⟨s₁, h₁, h⟩ := ok_of_bind h
    exact foldlM_simulation astep hstep l s₁ (astep t a) s' (hstep s t a s₁ hR h₁) h

/-- An invariant of every successful call is an invariant of runs. -/
theorem foldlM_invariant {step : σ → α → Except ε σ} {I : σ → Prop}
    (hstep : ∀ s a s', I s → step s a = .ok s' → I s') (l : List α) (s s' : σ) (hI : I s)
    (h : l.foldlM step s = .ok s') : I s' :=
  foldlM_simulation (R := fun s _ => I s) (fun _ _ => ()) (fun s _ a s' => hstep s a s') l s () s'
    hI h

/-! ### Runs that stay good

    Each step either meets a condition on the state before it and keeps an invariant, or leads to a
    state that is not good. Then a run has good states only exactly if all its steps meet the
    condition. -/

section Good

variable {step : σ → α → Option σ} {Inv Good : σ → Prop} {Fine : σ → α → Prop}

/-- From a state with the invariant, by what each step does. -/
theorem keeps_iff_fineRun (Keeps FineRun : σ → List α → Prop) (hgood : ∀ s, Inv s → Good s)
    (hnil : ∀ s, Keeps s [] ↔ FineRun s [])
    (hkeeps : ∀ s a l, Keeps s (a :: l) ↔ ∃ s', step s a = some s' ∧ Good s' ∧ Keeps s' l)
    (hrun : ∀ s a l, FineRun s (a :: l) ↔
      Fine s a ∧ ∀ s', step s a = some s' → FineRun s' l)
    (hcases : ∀ s, Inv s → ∀ a, (Fine s a ∧ ∃ s', step s a = some s' ∧ Inv s') ∨
      (¬Fine s a ∧ ∀ s', step s a = some s' → ¬Good s')) :
    ∀ (l : List α) (s : σ), Inv s → (Keeps s l ↔ FineRun s l)
  | [], s, _ => hnil s
  | a :: l, s, h => by
    rw [hkeeps, hrun]
    rcases hcases s h a with ⟨hfine, s', hstep, hinv⟩ | ⟨hfine, hbad⟩
    · have ih := keeps_iff_fineRun Keeps FineRun hgood hnil hkeeps hrun hcases l s' hinv
      constructor
      · rintro ⟨t, ht, -, hrest⟩
        obtain rfl := Option.some.inj (hstep.symm.trans ht)
        refine ⟨hfine, fun t ht => ?_⟩
        obtain rfl := Option.some.inj (hstep.symm.trans ht)
        exact ih.mp hrest
      · rintro ⟨-, hrest⟩
        exact ⟨s', hstep, hgood s' hinv, ih.mpr (hrest s' hstep)⟩
    · constructor
      · rintro ⟨t, ht, hgood', -⟩
        exact absurd hgood' (hbad t ht)
      · rintro ⟨hfine', -⟩
        exact absurd hfine' hfine

end Good

end Kucg.Lib
