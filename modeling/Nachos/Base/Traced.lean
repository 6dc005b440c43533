/-
# Runs with a trace

A computation that returns or stops, and on the way notes what it does. The
trace is kept also where the computation stops, so a statement about all that
was done covers the runs that go wrong.

A value of `Traced` is the result with the whole trace. One computation after
another appends the traces (`bind_ok`), unless the first stops (`bind_error`);
what was noted stays noted (`log_bind`), and a predicate of every entry is
proved part by part (`forall_log_bind`). Without the traces it is the same
computation (`result_bind`, `result_foldlM`).

Key definitions: `Traced`, `Traced.lift`, `Traced.note`, `Traced.stop`.
Key theorems: `Traced.bind_ok`, `Traced.bind_error`, `Traced.log_bind`,
`Traced.forall_log_bind`, `Traced.result_foldlM`.
-/
import Mathlib

/-- How a computation ends, and what it noted. -/
structure Traced (ε κ α : Type) where
  result : Except ε α
  log : List κ

namespace Traced

variable {ε κ α β : Type}

/-- One computation after another. -/
def andThen (x : Traced ε κ α) (f : α → Traced ε κ β) : Traced ε κ β :=
  match x.result with
  | .ok a => ⟨(f a).result, x.log ++ (f a).log⟩
  | .error e => ⟨.error e, x.log⟩

instance : Monad (Traced ε κ) where
  pure a := ⟨.ok a, []⟩
  bind := andThen

/-- A computation that notes nothing. -/
def lift (x : Except ε α) : Traced ε κ α := ⟨x, []⟩

/-- One entry. -/
def note (k : κ) : Traced ε κ Unit := ⟨.ok (), [k]⟩

/-- The computation ends here. -/
def stop (e : ε) : Traced ε κ α := ⟨.error e, []⟩

theorem pure_eq (a : α) : (pure a : Traced ε κ α) = ⟨.ok a, []⟩ := rfl

theorem bind_ok (a : α) (l : List κ) (f : α → Traced ε κ β) :
    (⟨.ok a, l⟩ : Traced ε κ α) >>= f = ⟨(f a).result, l ++ (f a).log⟩ := rfl

theorem bind_error (e : ε) (l : List κ) (f : α → Traced ε κ β) :
    (⟨.error e, l⟩ : Traced ε κ α) >>= f = ⟨.error e, l⟩ := rfl

theorem bind_assoc_eq {γ : Type} (x : Traced ε κ α) (f : α → Traced ε κ β) (g : β → Traced ε κ γ) :
    x >>= f >>= g = x >>= fun a => f a >>= g := by
  obtain ⟨_ | a, l⟩ := x
  · rfl
  · rw [bind_ok, bind_ok]
    obtain ⟨_ | b, l'⟩ := f a
    · rfl
    · rw [bind_ok, bind_ok, List.append_assoc]

instance : LawfulMonad (Traced ε κ) :=
  LawfulMonad.mk' _
    (fun x => by
      obtain ⟨_ | a, l⟩ := x
      · rfl
      · exact congrArg (Traced.mk (.ok a)) (List.append_nil l))
    (fun _ _ => rfl) bind_assoc_eq

theorem lift_ok (a : α) : (lift (.ok a) : Traced ε κ α) = pure a := rfl

theorem lift_error (e : ε) : (lift (.error e) : Traced ε κ α) = stop e := rfl

theorem stop_bind (e : ε) (f : α → Traced ε κ β) : stop e >>= f = stop e := rfl

/-- A note, and what comes after it. -/
theorem note_bind (k : κ) (f : Unit → Traced ε κ β) :
    note k >>= f = ⟨(f ()).result, k :: (f ()).log⟩ := rfl

/-- The result without the trace. -/
theorem result_bind (x : Traced ε κ α) (f : α → Traced ε κ β) :
    (x >>= f).result = x.result >>= fun a => (f a).result := by
  obtain ⟨_ | a, l⟩ := x <;> rfl

/-- A loop of traced rounds ends as the loop of the rounds. -/
theorem result_foldlM (f : β → α → Traced ε κ β) (g : β → α → Except ε β)
    (hfg : ∀ b a, (f b a).result = g b a) (l : List α) (b : β) :
    (l.foldlM f b).result = l.foldlM g b := by
  induction l generalizing b with
  | nil => rfl
  | cons a l ih =>
    rw [List.foldlM_cons, List.foldlM_cons, result_bind, hfg]
    exact congrArg _ (funext ih)

/-- What was noted before stays noted. -/
theorem log_bind {x : Traced ε κ α} {f : α → Traced ε κ β} {k : κ} (h : k ∈ x.log) :
    k ∈ (x >>= f).log := by
  obtain ⟨_ | a, l⟩ := x
  · exact h
  · rw [bind_ok]
    exact List.mem_append_left _ h

/-- Every entry of two computations. -/
theorem forall_log_bind {P : κ → Prop} (x : Traced ε κ α) (f : α → Traced ε κ β) :
    (∀ k ∈ (x >>= f).log, P k) ↔ (∀ k ∈ x.log, P k) ∧ ∀ a, x.result = .ok a →
    ∀ k ∈ (f a).log, P k := by
  obtain ⟨e | a, l⟩ := x
  · rw [bind_error]
    simp
  · rw [bind_ok]
    simp [or_imp, forall_and]

end Traced
