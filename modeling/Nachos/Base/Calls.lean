/-
# Calls with results

An object is a partial function `call : σ → ℓ → Option (σ × ο)` from a state
and a call to the next state and a result; a call whose precondition does not
hold has none. `run` is the states and results of a list of calls. Where each
call that an abstract object allows is one of the concrete object, with the
same result and related states after it, so is each run (`run_refines`). Where
this holds in both directions, for the calls that meet a condition, two objects
give the same results in every run whose calls meet it (`run_alike`); and where
each such call has a result in both, so has each run (`run_agree`). What one
call keeps, a run keeps (`run_keeps`).

Key definitions: `Calls.run`, `Calls.Meets`.
Key theorems: `Calls.run_refines`, `Calls.run_alike`, `Calls.run_agree`, `Calls.run_keeps`.
-/
import Mathlib

namespace Calls

variable {σ τ ℓ ο : Type}

/-- The state after the calls `ls`, and their results. -/
def run (call : σ → ℓ → Option (σ × ο)) : σ → List ℓ → Option (σ × List ο)
  | s, [] => some (s, [])
  | s, l :: ls => do
    let (s, o) ← call s l
    let (s, os) ← run call s ls
    some (s, o :: os)

/-- **Refinement**: runs of the abstract object are runs of the concrete one. -/
theorem run_refines {call : σ → ℓ → Option (σ × ο)} {call' : τ → ℓ → Option (τ × ο)}
    {R : σ → τ → Prop} (hcall : ∀ s t l t' o, R s t → call' t l = some (t', o) →
      ∃ s', call s l = some (s', o) ∧ R s' t') (ls : List ℓ)
    {s : σ} {t t' : τ} {os : List ο} (hR : R s t) (h : run call' t ls = some (t', os)) :
    ∃ s', run call s ls = some (s', os) ∧ R s' t' := by
  induction ls generalizing s t os with
  | nil =>
    simp only [run, Option.some.injEq, Prod.mk.injEq] at h
    obtain ⟨rfl, rfl⟩ := h
    exact ⟨s, rfl, hR⟩
  | cons l ls ih =>
    obtain ⟨⟨t1, o⟩, h1, h2⟩ := Option.bind_eq_some_iff.mp h
    obtain ⟨⟨t2, os'⟩, h3, h4⟩ := Option.bind_eq_some_iff.mp h2
    obtain ⟨rfl, rfl⟩ : t2 = t' ∧ o :: os' = os := by simpa using h4
    obtain ⟨s1, hs1, hR1⟩ := hcall s t l t1 o hR h1
    obtain ⟨s2, hs2, hR2⟩ := ih hR1 h3
    refine ⟨s2, ?_, hR2⟩
    simp only [run, hs1, hs2, Option.bind_eq_bind, Option.bind_some]

theorem run_cons {call : σ → ℓ → Option (σ × ο)} {s s' s'' : σ} {l : ℓ} {ls : List ℓ} {o : ο}
    {os : List ο} (hcall : call s l = some (s', o)) (hrun : run call s' ls = some (s'', os)) :
    run call s (l :: ls) = some (s'', o :: os) := by
  simp only [run, hcall, hrun, Option.bind_eq_bind, Option.bind_some]

/-- **Agreement**: two objects that both answer every call that meets `C`, alike,
answer every run of such calls alike. -/
theorem run_agree {call : σ → ℓ → Option (σ × ο)} {call' : τ → ℓ → Option (τ × ο)}
    {R : σ → τ → Prop} {C : ℓ → Prop} (hcall : ∀ s t l, R s t → C l →
      ∃ s' t' o, call s l = some (s', o) ∧ call' t l = some (t', o) ∧ R s' t') (ls : List ℓ)
    {s : σ} {t : τ} (hR : R s t) (hC : ∀ l ∈ ls, C l) :
    ∃ s' t' os, run call s ls = some (s', os) ∧ run call' t ls = some (t', os) ∧ R s' t' := by
  induction ls generalizing s t with
  | nil => exact ⟨s, t, [], rfl, rfl, hR⟩
  | cons l ls ih =>
    obtain ⟨s1, t1, o, hs1, ht1, hR1⟩ := hcall s t l hR (hC l List.mem_cons_self)
    obtain ⟨s2, t2, os, hs2, ht2, hR2⟩ := ih hR1 fun l' hl' => hC l' (List.mem_cons_of_mem _ hl')
    exact ⟨s2, t2, o :: os, run_cons hs1 hs2, run_cons ht1 ht2, hR2⟩

/-- **Invariance**: what every call that meets `C` keeps is there after a run of
such calls. -/
theorem run_keeps {call : σ → ℓ → Option (σ × ο)} {I : σ → Prop} {C : ℓ → Prop}
    (hcall : ∀ s l s' o, I s → C l → call s l = some (s', o) → I s') (ls : List ℓ) {s s' : σ}
    {os : List ο} (hI : I s) (hC : ∀ l ∈ ls, C l) (h : run call s ls = some (s', os)) : I s' := by
  induction ls generalizing s os with
  | nil =>
    simp only [run, Option.some.injEq, Prod.mk.injEq] at h
    exact h.1 ▸ hI
  | cons l ls ih =>
    obtain ⟨⟨s1, o⟩, h1, h2⟩ := Option.bind_eq_some_iff.mp h
    obtain ⟨⟨s2, os'⟩, h3, h4⟩ := Option.bind_eq_some_iff.mp h2
    obtain ⟨rfl, -⟩ : s2 = s' ∧ o :: os' = os := by simpa using h4
    exact ih (hcall s l s1 o hI (hC l List.mem_cons_self) h1)
      (fun l' hl' => hC l' (List.mem_cons_of_mem _ hl')) h3

/-- Each of the calls meets `C` in the state in which it is made. -/
def Meets (C : σ → ℓ → Prop) (call : σ → ℓ → Option (σ × ο)) : σ → List ℓ → Prop
  | _, [] => True
  | s, l :: ls => C s l ∧ ∀ s' o, call s l = some (s', o) → Meets C call s' ls

theorem Meets.cons {C : σ → ℓ → Prop} {call : σ → ℓ → Option (σ × ο)} {s s' : σ} {l : ℓ} {o : ο}
    {ls : List ℓ} (hl : C s l) (hcall : call s l = some (s', o)) (hrest : Meets C call s' ls) :
    Meets C call s (l :: ls) := by
  refine ⟨hl, fun s₁ o₁ h => ?_⟩
  rw [hcall] at h
  cases h
  exact hrest

/-- Related states with the same results; or neither has any. -/
abbrev Alike {α : Type} (R : σ → τ → Prop) : Option (σ × α) → Option (τ × α) → Prop :=
  Option.Rel fun x y => x.2 = y.2 ∧ R x.1 y.1

/-- **Simulation in both directions.** -/
theorem run_alike {call : σ → ℓ → Option (σ × ο)} {call' : τ → ℓ → Option (τ × ο)}
    {R : σ → τ → Prop} {C : σ → ℓ → Prop}
    (hcall : ∀ s t l, R s t → C s l → Alike R (call s l) (call' t l)) (ls : List ℓ) {s : σ} {t : τ}
    (hR : R s t) (hC : Meets C call s ls) : Alike R (run call s ls) (run call' t ls) := by
  induction ls generalizing s t with
  | nil => exact .some ⟨rfl, hR⟩
  | cons l ls ih =>
    obtain ⟨hl, hrest⟩ := hC
    have hfirst := hcall s t l hR hl
    unfold run
    cases h : call s l with
    | none =>
      rw [h] at hfirst
      generalize call' t l = b at hfirst
      cases hfirst
      exact .none
    | some x =>
      obtain ⟨s', o⟩ := x
      rw [h] at hfirst
      generalize call' t l = b at hfirst
      cases hfirst with
      | @some _ y hy =>
        obtain ⟨t', o'⟩ := y
        obtain ⟨rfl, hR'⟩ := hy
        have hruns := ih hR' (hrest s' o h)
        simp only [Option.bind_eq_bind, Option.bind_some]
        generalize run call s' ls = c at hruns ⊢
        generalize run call' t' ls = d at hruns ⊢
        cases hruns with
        | none => exact .none
        | some hz => exact .some ⟨congrArg (o :: ·) hz.1, hz.2⟩

end Calls
