/-
# Programs that share a state

Threads run commands over variables of their own and make calls on a state that
all of them share. A call is one atomic step; it may block, and then the thread
tries it again later. A thread keeps the commands it has still to run, so a
system of threads is a step function whose labels are the threads.

A thread is proved correct on its own, under a contract: what the other threads
may do to the shared state between two of its steps (`rely`), what it may do
itself (`guar`), what is known of it while it is blocked (`waits`) and when it
has ended (`ends`). `Spec Γ P c Q` is total: from `P` the command `c` comes to
its end in `Q`, without a fault, after finitely many steps of its own. Where the
guarantee of each thread is within the rely of all the others, the specifications
hold in every interleaving (`ok_run`), no run is infinite (`acc_step`), and a
system that cannot move consists of threads that have ended or wait (`stuck`).

Key definitions: `Cmd`, `next`, `Conf`, `step`, `Contract`, `Ok`, `Spec`.
Key theorems: `Spec.call`, `Spec.seq`, `Spec.ite`, `Spec.while`, `ok_run`,
`inv_run`, `acc_step`, `stuck`.
-/
import Mathlib
import Nachos.Base.Runs

namespace Programs

variable {σ S : Type}

/-- What a step gives. -/
inductive Outcome (α : Type)
  | next (a : α)
  | blocked
  | fault
  deriving DecidableEq

/-- The same step, with something made of what it gives. -/
def Outcome.map {α β : Type} (f : α → β) : Outcome α → Outcome β
  | .next a => .next (f a)
  | .blocked => .blocked
  | .fault => .fault

/-- What is given, if anything is. -/
def Outcome.toOption {α : Type} : Outcome α → Option α
  | .next a => some a
  | .blocked => none
  | .fault => none

/-- Commands over the variables `σ` of a thread and a shared state `S`. An
assignment or a condition without a value is undefined behaviour. -/
inductive Cmd (σ S : Type)
  | skip
  | assign (f : σ → Option σ)
  | call (a : σ → S → Outcome (σ × S))
  | seq (c d : Cmd σ S)
  | ite (b : σ → Option Bool) (c d : Cmd σ S)
  | while (b : σ → Option Bool) (c : Cmd σ S)

/-- Commands one after the other. -/
def Cmd.block (cs : List (Cmd σ S)) : Cmd σ S := cs.foldr .seq .skip

/-- One step of the commands `k`; with none left a thread stays where it is. -/
def next : List (Cmd σ S) → σ → S → Outcome (List (Cmd σ S) × σ × S)
  | [], _, _ => .blocked
  | .skip :: k, l, s => .next (k, l, s)
  | .assign f :: k, l, s =>
    match f l with
    | none => .fault
    | some l' => .next (k, l', s)
  | .call a :: k, l, s =>
    match a l s with
    | .next (l', s') => .next (k, l', s')
    | .blocked => .blocked
    | .fault => .fault
  | .seq c d :: k, l, s => .next (c :: d :: k, l, s)
  | .ite b c d :: k, l, s =>
    match b l with
    | none => .fault
    | some v => .next ((if v then c else d) :: k, l, s)
  | .while b c :: k, l, s =>
    match b l with
    | none => .fault
    | some v => .next (if v then c :: .while b c :: k else k, l, s)

/-! ### One thread among others -/

/-- What a thread relies on, guarantees, and leaves when it waits or has ended. -/
structure Contract (σ S : Type) where
  rely : S → S → Prop
  guar : S → S → Prop
  waits : σ → S → Prop
  ends : σ → S → Prop
  rely_refl : ∀ s, rely s s
  rely_trans : ∀ s s' s'', rely s s' → rely s' s'' → rely s s''
  guar_refl : ∀ s, guar s s

/-- The commands `k` run to their end under the contract, whatever the others do. -/
inductive Ok (Γ : Contract σ S) : List (Cmd σ S) → σ → S → Prop
  | ended {l : σ} {s : S} (h : ∀ s', Γ.rely s s' → Γ.ends l s') : Ok Γ [] l s
  | runs {k : List (Cmd σ S)} {l : σ} {s : S} (hk : k ≠ [])
      (hfault : ∀ s', Γ.rely s s' → next k l s' ≠ .fault)
      (hwaits : ∀ s', Γ.rely s s' → next k l s' = .blocked → Γ.waits l s')
      (hguar : ∀ s' t, Γ.rely s s' → next k l s' = .next t → Γ.guar s' t.2.2)
      (hnext : ∀ s' t, Γ.rely s s' → next k l s' = .next t → Ok Γ t.1 t.2.1 t.2.2) : Ok Γ k l s

/-- What the others keep. -/
def Stable (Γ : Contract σ S) (P : σ → S → Prop) : Prop := ∀ l s s', P l s → Γ.rely s s' → P l s'

/-- From `P` the command comes to its end, in `Q`: what is well from there on is
well from here. -/
def Spec (Γ : Contract σ S) (P : σ → S → Prop) (c : Cmd σ S) (Q : σ → S → Prop) : Prop :=
  ∀ k, (∀ l s, Q l s → Ok Γ k l s) → ∀ l s, P l s → Ok Γ (c :: k) l s

section Rules

variable {Γ : Contract σ S} {P P' Q Q' M : σ → S → Prop} {c d : Cmd σ S} {k : List (Cmd σ S)}
  {l : σ} {s s' : S}

/-- What the others have done since does not matter. -/
theorem Ok.rely (h : Ok Γ k l s) (hr : Γ.rely s s') : Ok Γ k l s' := by
  cases h with
  | ended h => exact .ended fun s'' h' => h s'' (Γ.rely_trans _ _ _ hr h')
  | runs hk hfault hwaits hguar hnext =>
    exact .runs hk (fun s'' h' => hfault s'' (Γ.rely_trans _ _ _ hr h'))
      (fun s'' h' => hwaits s'' (Γ.rely_trans _ _ _ hr h'))
      (fun s'' t h' => hguar s'' t (Γ.rely_trans _ _ _ hr h')) fun s'' t h' => hnext s'' t
        (Γ.rely_trans _ _ _ hr h')

/-- A step that is of the thread alone. -/
theorem Ok.silent {k' : List (Cmd σ S)} {l' : σ} (hk : k ≠ [])
    (hstep : ∀ s', next k l s' = .next (k', l', s')) (h : ∀ s', Γ.rely s s' → Ok Γ k' l' s') :
    Ok Γ k l s := by
  refine .runs hk (fun s' _ => ?_) (fun s' _ hb => ?_) (fun s' t _ ht => ?_) fun s' t hr ht => ?_
  · simp [hstep]
  · rw [hstep] at hb
    cases hb
  · rw [hstep] at ht
    cases ht
    exact Γ.guar_refl s'
  · rw [hstep] at ht
    cases ht
    exact h s' hr

theorem Stable.and (hP : Stable Γ P) (hQ : Stable Γ Q) : Stable Γ fun l s => P l s ∧ Q l s :=
  fun l s s' h hr => ⟨hP l s s' h.1 hr, hQ l s s' h.2 hr⟩

/-- What is of the thread's own variables. -/
theorem Stable.own (p : σ → Prop) : Stable Γ fun l _ => p l := fun _ _ _ h _ => h

theorem Spec.conseq (h : Spec Γ P c Q) (hP : ∀ l s, P' l s → P l s) (hQ : ∀ l s, Q l s → Q' l s) :
    Spec Γ P' c Q' :=
  fun k hk l s hp => h k (fun l s hq => hk l s (hQ l s hq)) l s (hP l s hp)

/-- It is enough to treat one state at a time. -/
theorem Spec.of_forall {α : Sort*} {P : α → σ → S → Prop} (h : ∀ x, Spec Γ (P x) c Q) :
    Spec Γ (fun l s => ∃ x, P x l s) c Q :=
  fun k hk l s ⟨x, hx⟩ => h x k hk l s hx

theorem Spec.skip (hP : Stable Γ P) : Spec Γ P .skip P :=
  fun _ hk l s hp => .silent (List.cons_ne_nil _ _) (fun _ => rfl) fun s' hr =>
    hk l s' (hP l s s' hp hr)

theorem Spec.assign {f : σ → Option σ} (hP : Stable Γ P)
    (h : ∀ l s, P l s → ∃ l', f l = some l' ∧ Q l' s) :
    Spec Γ P (.assign f) Q := by
  intro k hk l s hp
  obtain ⟨l', hf, -⟩ := h l s hp
  refine .silent (List.cons_ne_nil _ _)
    (fun s' => show next (.assign f :: k) l s' = .next (k, l', s') from ?_) fun s' hr => ?_
  · simp only [next, hf]
  · obtain ⟨l'', hf', hq⟩ := h l s' (hP l s s' hp hr)
    rw [hf, Option.some.injEq] at hf'
    exact hk l' s' (hf' ▸ hq)

/-- A call: what it does is within the guarantee, and where it blocks the thread
may wait. -/
theorem Spec.call {a : σ → S → Outcome (σ × S)} (hP : Stable Γ P)
    (h : ∀ l s, P l s → match a l s with
      | .next (l', s') => Γ.guar s s' ∧ Q l' s'
      | .blocked => Γ.waits l s
      | .fault => False) : Spec Γ P (.call a) Q := by
  intro k hk l s hp
  -- the four things to show, in any state the others may have made
  have hat : ∀ s', Γ.rely s s' → next (.call a :: k) l s' ≠ .fault ∧
      (next (.call a :: k) l s' = .blocked → Γ.waits l s') ∧
      ∀ t, next (.call a :: k) l s' = .next t → Γ.guar s' t.2.2 ∧ Ok Γ t.1 t.2.1 t.2.2 := by
    intro s' hr
    have hs := h l s' (hP l s s' hp hr)
    rcases ha : a l s' with ⟨l', s''⟩ | _ | _ <;> rw [ha] at hs <;> simp only [next, ha]
    · refine ⟨by simp, by simp, fun t ht => ?_⟩
      cases ht
      exact ⟨hs.1, hk l' s'' hs.2⟩
    · exact ⟨by simp, fun _ => hs, by simp⟩
    · exact False.elim hs
  exact .runs (List.cons_ne_nil _ _) (fun s' hr => (hat s' hr).1) (fun s' hr => (hat s' hr).2.1)
    (fun s' t hr ht => ((hat s' hr).2.2 t ht).1) fun s' t hr ht => ((hat s' hr).2.2 t ht).2

theorem Spec.seq (hc : Spec Γ P c M) (hd : Spec Γ M d Q) (hP : Stable Γ P) :
    Spec Γ P (.seq c d) Q :=
  fun k hk l s hp => .silent (List.cons_ne_nil _ _) (fun _ => rfl) fun s' hr =>
    hc (d :: k) (fun l s hm => hd k hk l s hm) l s' (hP l s s' hp hr)

theorem Spec.ite {b : σ → Option Bool} (hP : Stable Γ P) (hb : ∀ l s, P l s → b l ≠ none)
    (hc : Spec Γ (fun l s => P l s ∧ b l = some true) c Q)
    (hd : Spec Γ (fun l s => P l s ∧ b l = some false) d Q) :
    Spec Γ P (.ite b c d) Q := by
  intro k hk l s hp
  obtain ⟨v, hv⟩ := Option.ne_none_iff_exists'.mp (hb l s hp)
  have hstep : ∀ s', next (.ite b c d :: k) l s' = .next ((if v then c else d) :: k, l, s') :=
    fun s' => by simp only [next, hv]
  refine .silent (List.cons_ne_nil _ _) hstep fun s' hr => ?_
  cases v with
  | true => exact hc k hk l s' ⟨hP l s s' hp hr, hv⟩
  | false => exact hd k hk l s' ⟨hP l s s' hp hr, hv⟩

/-- **The loop**, with a variant: each pass makes the bound smaller. -/
theorem Spec.while {b : σ → Option Bool} {I : ℕ → σ → S → Prop} (hI : ∀ n, Stable Γ (I n))
    (hb : ∀ n l s, I n l s → b l ≠ none)
    (hbody : ∀ n, Spec Γ (fun l s => I n l s ∧ b l = some true) c fun l s => ∃ m < n, I m l s)
    (hexit : ∀ n l s, I n l s → b l = some false → Q l s) :
    Spec Γ (fun l s => ∃ n, I n l s) (.while b c) Q := by
  rintro k hk l s ⟨n, hn⟩
  induction n using Nat.strong_induction_on generalizing l s with
  | _ n ih =>
    obtain ⟨v, hv⟩ := Option.ne_none_iff_exists'.mp (hb n l s hn)
    have hstep : ∀ s', next (.while b c :: k) l s' =
        .next (if v then c :: .while b c :: k else k, l, s') := fun s' => by
      simp only [next, hv]
    refine .silent (List.cons_ne_nil _ _) hstep fun s' hr => ?_
    have hn' := hI n l s s' hn hr
    cases v with
    | true =>
      exact hbody n (.while b c :: k) (fun l s ⟨m, hm, hin⟩ => ih m hm l s hin) l s' ⟨hn', hv⟩
    | false => exact hk l s' (hexit n l s' hn' hv)

/-- A program that ends as its contract says. -/
theorem Spec.ok (h : Spec Γ P c Γ.ends) (hends : Stable Γ Γ.ends) (hp : P l s) : Ok Γ [c] l s :=
  h [] (fun l s hq => .ended fun s' hr => hends l s s' hq hr) l s hp

theorem Spec.nil (hP : Stable Γ P) : Spec Γ P (Cmd.block []) P := .skip hP

theorem Spec.cons {cs : List (Cmd σ S)} (hP : Stable Γ P) (hc : Spec Γ P c M)
    (hcs : Spec Γ M (Cmd.block cs) Q) :
    Spec Γ P (Cmd.block (c :: cs)) Q := .seq hc hcs hP

/-- One step of the thread, from any state the others may have made. -/
def Own (Γ : Contract σ S) (t' t : List (Cmd σ S) × σ × S) : Prop :=
  ∃ s', Γ.rely t.2.2 s' ∧ next t.1 t.2.1 s' = .next t'

/-- The thread's own steps come to an end. -/
theorem Ok.acc (h : Ok Γ k l s) : Acc (Own Γ) (k, l, s) := by
  induction h with
  | ended h =>
    refine .intro _ fun t ht => ?_
    obtain ⟨s', -, hn⟩ := ht
    cases hn
  | runs hk hfault hwaits hguar hnext ih =>
    refine .intro _ fun t ht => ?_
    obtain ⟨s', hr, hn⟩ := ht
    exact ih s' t hr hn

end Rules

/-! ### The system -/

/-- The threads, each with the commands left and its variables, and the state
they share. -/
structure Conf {ι : Type} (σ : ι → Type) (S : Type) where
  thread : ∀ i, List (Cmd (σ i) S) × σ i
  shared : S

section System

variable {ι : Type} {σ : ι → Type} {Γ : ∀ i, Contract (σ i) S} {c c' : Conf σ S} {i : ι}

/-- The thread runs into undefined behaviour. -/
def Faults (c : Conf σ S) (i : ι) : Prop := next (c.thread i).1 (c.thread i).2 c.shared = .fault

/-- All threads are under way as their contracts say. -/
def AllOk (Γ : ∀ i, Contract (σ i) S) (c : Conf σ S) : Prop :=
  ∀ i, Ok (Γ i) (c.thread i).1 (c.thread i).2 c.shared

/-- What one thread guarantees, the others rely on. -/
def Compatible (Γ : ∀ i, Contract (σ i) S) : Prop :=
  ∀ i j, i ≠ j → ∀ s s', (Γ i).guar s s' → (Γ j).rely s s'

theorem AllOk.not_faults (h : AllOk Γ c) (i : ι) : ¬ Faults c i := by
  unfold Faults
  have hi := h i
  generalize (c.thread i).1 = k at hi
  cases hi with
  | ended hends => simp [next]
  | runs hne hfault hwaits hguar hnext => exact hfault _ ((Γ i).rely_refl _)

variable [DecidableEq ι]

/-- A step of thread `i`. -/
def step (c : Conf σ S) (i : ι) : Option (Conf σ S) :=
  match next (c.thread i).1 (c.thread i).2 c.shared with
  | .next (k, l, s) => some ⟨Function.update c.thread i (k, l), s⟩
  | .blocked => none
  | .fault => none

theorem step_eq_some (h : step c i = some c') :
    ∃ k l s, next (c.thread i).1 (c.thread i).2 c.shared = .next (k, l, s) ∧
    c' = ⟨Function.update c.thread i (k, l), s⟩ := by
  unfold step at h
  rcases hn : next (c.thread i).1 (c.thread i).2 c.shared with ⟨k, l, s⟩ | _ | _ <;> rw [hn] at h
  · simp only [Option.some.injEq] at h
    exact ⟨k, l, s, rfl, h.symm⟩
  · cases h
  · cases h

/-- The shared state after a step is one that the thread guarantees, and the
thread has made a step of its own. -/
theorem AllOk.own (h : AllOk Γ c) (hs : step c i = some c') : (Γ i).guar c.shared c'.shared ∧
    next (c.thread i).1 (c.thread i).2 c.shared =
      .next ((c'.thread i).1, (c'.thread i).2, c'.shared) ∧
    (∀ j ≠ i, c'.thread j = c.thread j) ∧ Ok (Γ i) (c'.thread i).1 (c'.thread i).2 c'.shared := by
  obtain ⟨k, l, s, hn, rfl⟩ := step_eq_some hs
  have hi := h i
  generalize (c.thread i).1 = ks at hn hi ⊢
  cases hi with
  | ended hends => cases hn
  | runs hne hfault hwaits hguar hnext =>
    simp only [Function.update_self]
    exact ⟨hguar _ _ ((Γ i).rely_refl _) hn, hn, fun j hj => Function.update_of_ne hj _ _,
      hnext _ _ ((Γ i).rely_refl _) hn⟩

theorem AllOk.step (hΓ : Compatible Γ) (h : AllOk Γ c) (hs : Programs.step c i = some c') :
    AllOk Γ c' := by
  obtain ⟨hguar, -, hothers, hi⟩ := h.own hs
  intro j
  by_cases hj : j = i
  · subst hj
    exact hi
  · rw [hothers j hj]
    exact (h j).rely (hΓ i j (Ne.symm hj) _ _ hguar)

/-- **Every interleaving** keeps to the contracts. -/
theorem ok_run (hΓ : Compatible Γ) {c₀ : Conf σ S} (h₀ : AllOk Γ c₀)
    (h : Runs.Reach step (· = c₀) Runs.anyStep c) : AllOk Γ c := by
  refine h.inv (AllOk Γ) ?_ ?_
  · rintro _ rfl
    exact h₀
  · exact fun _ _ _ _ hok _ hs => hok.step hΓ hs

/-- What every thread keeps in its guarantee holds in every state. -/
theorem inv_run {J : S → Prop} (hΓ : Compatible Γ) (hJ : ∀ i s s', (Γ i).guar s s' → J s → J s')
    {c₀ : Conf σ S} (h₀ : AllOk Γ c₀) (hJ₀ : J c₀.shared)
    (h : Runs.Reach step (· = c₀) Runs.anyStep c) : J c.shared := by
  refine (h.inv (fun c => AllOk Γ c ∧ J c.shared) ?_ ?_).2
  · rintro _ rfl
    exact ⟨h₀, hJ₀⟩
  · exact fun _ _ _ _ hc _ hs => ⟨hc.1.step hΓ hs, hJ _ _ _ (hc.1.own hs).1 hc.2⟩

/-- **A system that cannot move**: its threads have ended, or wait. -/
theorem stuck (h : AllOk Γ c) (i : ι) (hs : step c i = none) :
    (c.thread i).1 = [] ∧ (Γ i).ends (c.thread i).2 c.shared ∨ (c.thread i).1 ≠ [] ∧
    (Γ i).waits (c.thread i).2 c.shared := by
  have hf := h.not_faults i
  have hi := h i
  unfold Faults at hf
  unfold step at hs
  generalize (c.thread i).1 = k at hi hf hs
  cases hi with
  | ended hends => exact Or.inl ⟨rfl, hends _ ((Γ i).rely_refl _)⟩
  | runs hne hfault hwaits hguar hnext =>
    refine Or.inr ⟨hne, hwaits _ ((Γ i).rely_refl _) ?_⟩
    rcases hn : next k (c.thread i).2 c.shared with ⟨k', l', s'⟩ | _ | _
    · rw [hn] at hs
      cases hs
    · rfl
    · exact absurd hn hf

/-! ### No run is infinite

Each thread is seen as it was after its last step. A step of the system is then
a step of one of them, and the others stay. -/

/-- A thread's own steps, from where they come to an end. -/
theorem wellFounded_own {σ : Type} (Γ : Contract σ S) :
    WellFounded fun t' t : List (Cmd σ S) × σ × S => Acc (Own Γ) t ∧ Own Γ t' t := by
  refine ⟨fun t => .intro _ fun t' ht => ?_⟩
  have hacc := ht.1.inv ht.2
  clear ht
  induction hacc with
  | intro t' _ ih => exact .intro _ fun t'' ht => ih t'' ht.2

/-- The thread as it was after its last step; the others have since done what it
relies on. -/
structure Seen (Γ : ∀ i, Contract (σ i) S) (c : Conf σ S) (v : ∀ i, List (Cmd (σ i) S) × σ i × S) :
    Prop where
  commands : ∀ i, (v i).1 = (c.thread i).1
  vars : ∀ i, (v i).2.1 = (c.thread i).2
  rely : ∀ i, (Γ i).rely (v i).2.2 c.shared
  acc : ∀ i, Acc (Own (Γ i)) (v i)

/-- **Every run ends.** -/
theorem acc_step [Finite ι] (hΓ : Compatible Γ) (h : AllOk Γ c) :
    Acc (fun c' c => ∃ i, step c i = some c') c := by
  have hwf := Pi.Lex.wellFounded (WellOrderingRel (α := ι)) fun i => wellFounded_own (Γ i)
  have hseen : Seen Γ c fun i => ((c.thread i).1, (c.thread i).2, c.shared) :=
    ⟨fun _ => rfl, fun _ => rfl, fun i => (Γ i).rely_refl _, fun i => (h i).acc⟩
  generalize (fun i => ((c.thread i).1, (c.thread i).2, c.shared)) = v at hseen
  induction v using hwf.induction generalizing c with
  | _ v ih =>
    refine .intro _ fun c' ⟨i, hs⟩ => ?_
    obtain ⟨hguar, hn, hothers, hi⟩ := h.own hs
    refine ih (Function.update v i ((c'.thread i).1, (c'.thread i).2, c'.shared))
      ?_ (h.step hΓ hs) ?_
    · refine ⟨i, fun j hj => Function.update_of_ne ?_ _ _, hseen.acc i, ?_⟩
      · rintro rfl
        exact irrefl _ hj
      · rw [Function.update_self]
        refine ⟨c.shared, hseen.rely i, ?_⟩
        rw [hseen.commands, hseen.vars, hn]
    · refine ⟨fun j => ?_, fun j => ?_, fun j => ?_, fun j => ?_⟩ <;> by_cases hj : j = i
      · rw [hj, Function.update_self]
      · rw [Function.update_of_ne hj, hothers j hj]
        exact hseen.commands j
      · rw [hj, Function.update_self]
      · rw [Function.update_of_ne hj, hothers j hj]
        exact hseen.vars j
      · rw [hj, Function.update_self]
        exact (Γ i).rely_refl _
      · rw [Function.update_of_ne hj]
        exact (Γ j).rely_trans _ _ _ (hseen.rely j) (hΓ i j (Ne.symm hj) _ _ hguar)
      · rw [hj, Function.update_self]
        exact hi.acc
      · rw [Function.update_of_ne hj]
        exact hseen.acc j

end System

end Programs
