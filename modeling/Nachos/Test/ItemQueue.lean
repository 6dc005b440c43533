/-
# The producer and the consumer are a bounded FIFO queue

What the two programs print is a run of a queue: `Produce:` lines append the
next item, `Consume:` lines take the first one. While no program is at the file
it holds that queue, and the counts of the lines bound its length (`Inv`).

The contract of a program says what it leaves to the other one (`Leaves`): what
it holds of the semaphores and the lines it has printed change by its own steps
only, and the file is changed by the program that is inside.

Key definitions: `replay`, `Encodes`, `Inv`, `Leaves`, `contract`, `Inside`, `Outside`.
Key theorems: `spec_enter`, `spec_leave`, `spec_line`, `spec_passes`.
-/
import Mathlib
import Nachos.Base.Runs
import Nachos.Base.Programs
import Nachos.Userprog.FileStore
import Nachos.Test.Programs

namespace Nachos

open Bytes (Byte)
open Programs (Cmd Outcome Contract Spec Stable Conf)

namespace Items

/-! ### The queue -/

/-- What a program prints in a pass of its loop. -/
inductive Line
  | produced (item : Byte)
  | consumed (item : Byte)

def Line.text : Line → List Byte
  | .produced item => produceText ++ [item] ++ [newline]
  | .consumed item => consumeText ++ [item] ++ [newline]

def screen (ls : List Line) : List Byte := ls.flatMap Line.text

/-- The items produced, in order. -/
def made (ls : List Line) : List Byte := ls.filterMap fun
  | .produced item => some item
  | .consumed _ => none

/-- The items consumed, in order. -/
def used (ls : List Line) : List Byte := ls.filterMap fun
  | .produced _ => none
  | .consumed item => some item

/-- The item that is produced next: the digit after the last one in the queue. -/
def nextItem (q : List Byte) : Byte := q.getLast?.elim char0 fun last => succItem last.toInt

/-- The queue after a line. -/
def Line.apply (q : List Byte) : Line → Option (List Byte)
  | .produced item => if item = nextItem q then some (q ++ [item]) else none
  | .consumed item => if q.head? = some item then some q.tail else none

/-- The queue after lines that a FIFO queue allows. -/
def replay (q : List Byte) (ls : List Line) : Option (List Byte) := ls.foldlM Line.apply q

/-- Items are digits. -/
def Digits (q : List Byte) : Prop := ∀ b ∈ q, isItem b = true

instance (q : List Byte) : Decidable (Digits q) :=
  inferInstanceAs (Decidable (∀ b ∈ q, isItem b = true))

/-- `items.txt` holds the queue. It may be missing or empty as long as the queue is. -/
def Encodes (file : Option (List Byte)) (q : List Byte) : Prop :=
  file = some (q ++ [charE]) ∨ q = [] ∧ (file = none ∨ file = some [])

variable {q q' q₀ : List Byte} {ls : List Line} {b x : Byte}

theorem isItem_ne (h : isItem b = true) : b ≠ 0 ∧ b ≠ charE ∧ b ≠ 80 ∧ b ≠ 67 := by
  revert b
  decide

theorem isItem_succItem (h : isItem b = true) : isItem (succItem b.toInt) = true := by
  revert b
  decide

theorem isItem_nextItem (hq : Digits q) : isItem (nextItem q) = true := by
  unfold nextItem
  cases hl : q.getLast? with
  | none => decide
  | some last => exact isItem_succItem (hq last (List.mem_of_getLast? hl))

theorem replay_append (ls : List Line) (l : Line) :
    replay q (ls ++ [l]) = (replay q ls).bind fun q => l.apply q := by
  unfold replay
  rw [List.foldlM_append]
  cases ls.foldlM Line.apply q with
  | none => rfl
  | some q => simp

theorem replay_cons (l : Line) (ls : List Line) :
    replay q (l :: ls) = (l.apply q).bind fun q => replay q ls := by
  unfold replay
  rw [List.foldlM_cons]
  rfl

/-- What one line does to a queue. -/
theorem Line.apply_cases {l : Line} (h : l.apply q = some q') :
    (l = .produced (nextItem q) ∧ q' = q ++ [nextItem q]) ∨ ∃ x, l = .consumed x ∧ q = x :: q' := by
  cases l with
  | produced item =>
    simp only [Line.apply] at h
    split_ifs at h with hitem
    exact Or.inl ⟨hitem ▸ rfl, hitem ▸ (Option.some.inj h).symm⟩
  | consumed item =>
    simp only [Line.apply] at h
    split_ifs at h with hhead
    cases q with
    | nil => cases hhead
    | cons y q =>
      cases hhead
      exact Or.inr ⟨item, rfl, by rw [← Option.some.inj h]; rfl⟩

/-- **First in, first out.** -/
theorem used_append_of_replay (h : replay q₀ ls = some q) : used ls ++ q = q₀ ++ made ls := by
  induction ls generalizing q₀ with
  | nil =>
    cases h
    exact (List.append_nil _).symm
  | cons l ls ih =>
    rw [replay_cons] at h
    obtain ⟨q₁, h₁, h₂⟩ := Option.bind_eq_some_iff.mp h
    have hrest := ih h₂
    rcases Line.apply_cases h₁ with ⟨rfl, rfl⟩ | ⟨x, rfl, rfl⟩
    · calc used (.produced (nextItem q₀) :: ls) ++ q = used ls ++ q := rfl
        _ = q₀ ++ [nextItem q₀] ++ made ls := hrest
        _ = q₀ ++ made (.produced (nextItem q₀) :: ls) := List.append_assoc _ _ _
    · calc used (.consumed x :: ls) ++ q = x :: (used ls ++ q) := rfl
        _ = x :: q₁ ++ made (.consumed x :: ls) := by rw [hrest]; rfl

theorem length_of_replay (h : replay q₀ ls = some q) :
    (used ls).length + q.length = q₀.length + (made ls).length := by
  simpa only [List.length_append] using congrArg List.length (used_append_of_replay h)

/-- Only digits come into the queue. -/
theorem digits_of_replay (hq : Digits q₀) (h : replay q₀ ls = some q) :
    Digits q ∧ Digits (made ls) ∧ Digits (used ls) := by
  have hmade : Digits (made ls) := by
    induction ls generalizing q₀ with
    | nil => exact fun b hb => by cases hb
    | cons l ls ih =>
      rw [replay_cons] at h
      obtain ⟨q₁, h₁, h₂⟩ := Option.bind_eq_some_iff.mp h
      rcases Line.apply_cases h₁ with ⟨rfl, rfl⟩ | ⟨x, rfl, rfl⟩
      · have hnew := isItem_nextItem hq
        have hq₁ : Digits (q₀ ++ [nextItem q₀]) := by
          intro b hb
          rcases List.mem_append.mp hb with hb | hb
          · exact hq b hb
          · rw [List.mem_singleton.mp hb]
            exact hnew
        intro b hb
        rcases List.mem_cons.mp (show b ∈ nextItem q₀ :: made ls from hb) with rfl | hb
        · exact hnew
        · exact ih hq₁ h₂ b hb
      · exact ih (fun b hb => hq b (List.mem_cons_of_mem _ hb)) h₂
  have hall : ∀ b ∈ used ls ++ q, isItem b = true := by
    intro b hb
    rw [used_append_of_replay h] at hb
    rcases List.mem_append.mp hb with hb | hb
    · exact hq b hb
    · exact hmade b hb
  exact ⟨fun b hb => hall b (List.mem_append_right _ hb), hmade,
    fun b hb => hall b (List.mem_append_left _ hb)⟩

theorem count_text (hb : isItem b = true) :
    ((Line.produced b).text.count 80 = 1 ∧ (Line.produced b).text.count 67 = 0) ∧
      (Line.consumed b).text.count 80 = 0 ∧ (Line.consumed b).text.count 67 = 1 := by
  revert b
  decide

/-- The first letters of the lines count them. -/
theorem count_screen (hm : Digits (made ls)) (hu : Digits (used ls)) :
    (screen ls).count 80 = (made ls).length ∧ (screen ls).count 67 = (used ls).length := by
  induction ls with
  | nil => exact ⟨rfl, rfl⟩
  | cons l ls ih =>
    have hscreen : screen (l :: ls) = l.text ++ screen ls := rfl
    rw [hscreen, List.count_append, List.count_append]
    cases l with
    | produced item =>
      obtain ⟨⟨h80, h67⟩, -⟩ := count_text (hm item (List.mem_cons_self ..))
      obtain ⟨hp, hc⟩ := ih (fun b hb => hm b (List.mem_cons_of_mem _ hb)) hu
      rw [h80, h67, hp, hc, Nat.add_comm, Nat.zero_add]
      exact ⟨rfl, rfl⟩
    | consumed item =>
      obtain ⟨-, h80, h67⟩ := count_text (hu item (List.mem_cons_self ..))
      obtain ⟨hp, hc⟩ := ih hm fun b hb => hu b (List.mem_cons_of_mem _ hb)
      rw [h80, h67, hp, hc, Nat.zero_add, Nat.add_comm]
      exact ⟨rfl, rfl⟩

/-! ### What the programs keep to -/

namespace Party

def other : Party → Party
  | .producer => .consumer
  | .consumer => .producer

/-- The first letter of what the program prints. -/
def letter : Party → Byte
  | .producer => 80
  | .consumer => 67

/-- The semaphore that a pass of the loop waits for. -/
def takes : Party → List Byte
  | .producer => full
  | .consumer => empty

/-- The semaphore that a pass of the loop signals. -/
def gives : Party → List Byte
  | .producer => empty
  | .consumer => full

/-- What it prints before an item. -/
def text : Party → List Byte
  | .producer => produceText
  | .consumer => consumeText

def line : Party → Byte → Line
  | .producer => .produced
  | .consumer => .consumed

/-- The value that `takes` was created with. -/
def tokens : Party → ℕ
  | .producer => 10
  | .consumer => 0

/-- The passes of the loop. -/
def passes : Party → ℕ
  | .producer => maxItemsProduce
  | .consumer => maxItemConsume

theorem takes_other (p : Party) : p.other.takes = p.gives := by cases p <;> rfl

theorem gives_other (p : Party) : p.other.gives = p.takes := by cases p <;> rfl

theorem other_other (p : Party) : p.other.other = p := by cases p <;> rfl

theorem other_ne (p : Party) : p.other ≠ p := by cases p <;> decide

theorem eq_other {p p' : Party} (h : p' ≠ p) : p' = p.other := by
  cases p <;> cases p' <;> first | rfl | exact absurd rfl h

theorem names (p : Party) :
    p.takes ≠ accessItem ∧ p.gives ≠ accessItem ∧ p.takes ≠ p.gives := by cases p <;> decide

end Party

/-- The queue is in the file, and what was printed is a run of it. -/
structure Settled (q₀ : List Byte) (files : FileStore) (console : List Byte) : Prop where
  run : ∃ ls q, console = screen ls ∧ replay q₀ ls = some q ∧ Encodes (files.dir itemsTxt) q
  closed : files.handles = ∅

/-- The invariant: the values of the semaphores are what is not held, a program
has printed as many lines as it has taken and given, and while no program has the
file the queue is settled. -/
structure Inv (q₀ : List Byte) (s : World) : Prop where
  access : ∀ p : Party, s.sems accessItem =
    some (1 - s.held p accessItem - s.held p.other accessItem)
  tokens : ∀ p : Party, s.sems p.takes = some (p.tokens - s.held p p.takes - s.held p.other p.takes)
  inside : ∀ p, 0 ≤ s.held p accessItem
  one : ∀ p : Party, s.held p accessItem + s.held p.other accessItem ≤ 1
  enough : ∀ p : Party, s.held p p.takes + s.held p.other p.takes ≤ p.tokens
  lines : ∀ p : Party, -s.held p p.gives ≤ s.console.count p.letter ∧
    s.console.count p.letter ≤ s.held p p.takes
  settled : (∀ p, s.held p accessItem = 0) → Settled q₀ s.files s.console

/-- What the other program leaves to `p`: what `p` holds, what `p` has printed,
and everything while `p` has the file. -/
structure Leaves (q₀ : List Byte) (p : Party) (s s' : World) : Prop where
  inv : Inv q₀ s → Inv q₀ s'
  held : s'.held p = s.held p
  count : s'.console.count p.letter = s.console.count p.letter
  alone : Inv q₀ s → s.held p accessItem = 1 → s'.files = s.files ∧ s'.console = s.console

/-- `p` is not at the file; it has taken `t` and given `g`, and printed `c` lines. -/
structure Outside (q₀ : List Byte) (p : Party) (t g c : ℕ) (s : World) : Prop where
  inv : Inv q₀ s
  out : s.held p accessItem = 0
  taken : s.held p p.takes = t
  given : s.held p p.gives = -(g : ℤ)
  printed : s.console.count p.letter = c

/-- What is known of a program that is blocked. -/
def Waiting (q₀ : List Byte) (p : Party) (s : World) : Prop :=
  (∃ n c, Outside q₀ p n n c s ∧ n < p.passes ∧ s.sems p.takes = some 0) ∨
    ∃ t g c, Outside q₀ p t g c s ∧ s.sems accessItem = some 0

/-- A program among the two. -/
def contract (σ : Type) (q₀ : List Byte) (p : Party) : Contract σ World where
  rely := Leaves q₀ p
  guar := Leaves q₀ p.other
  waits _ := Waiting q₀ p
  ends _ := Outside q₀ p p.passes p.passes p.passes
  rely_refl _ := ⟨id, rfl, rfl, fun _ _ => ⟨rfl, rfl⟩⟩
  rely_trans s s' s'' h h' := by
    refine ⟨h'.inv ∘ h.inv, h'.held.trans h.held, h'.count.trans h.count, fun hI ha => ?_⟩
    obtain ⟨hf, hc⟩ := h.alone hI ha
    obtain ⟨hf', hc'⟩ := h'.alone (h.inv hI) (by rw [h.held]; exact ha)
    exact ⟨hf'.trans hf, hc'.trans hc⟩
  guar_refl _ := ⟨id, rfl, rfl, fun _ _ => ⟨rfl, rfl⟩⟩

/-- `p` has the file, in its pass `n`. -/
structure Inside {σ : Type} (q₀ : List Byte) (p : Party) (n : ℕ)
    (F : σ → FileStore → List Byte → Prop) (l : σ) (s : World) : Prop where
  inv : Inv q₀ s
  has : s.held p accessItem = 1
  taken : s.held p p.takes = n + 1
  given : s.held p p.gives = -(n : ℤ)
  holds : F l s.files s.console

section Rules

variable {σ : Type} {p : Party} {n t g c : ℕ} {s s' : World} {name : List Byte}
  {F F' : σ → FileStore → List Byte → Prop}

theorem Outside.leaves (h : Outside q₀ p t g c s) (hl : Leaves q₀ p s s') : Outside q₀ p t g c s' :=
  ⟨hl.inv h.inv, by rw [hl.held]; exact h.out, by rw [hl.held]; exact h.taken, by
    rw [hl.held]; exact h.given, by
    rw [hl.count]
    exact h.printed⟩

theorem stable_outside (P : σ → Prop) :
    Stable (contract σ q₀ p) fun l s => P l ∧ Outside q₀ p t g c s :=
  fun _ _ _ h hr => ⟨h.1, h.2.leaves hr⟩

theorem stable_inside (F : σ → FileStore → List Byte → Prop) :
    Stable (contract σ q₀ p) (Inside q₀ p n F) := by
  intro l s s' h hr
  obtain ⟨hf, hc⟩ := hr.alone h.inv h.has
  have hheld := hr.held
  refine ⟨hr.inv h.inv, ?_, ?_, ?_, ?_⟩
  · rw [hheld]
    exact h.has
  · rw [hheld]
    exact h.taken
  · rw [hheld]
    exact h.given
  · rw [hf, hc]
    exact h.holds

/-! The semaphores -/

theorem held_setSem (s : World) (p p' : Party) (name x : List Byte) (v d : ℤ) :
    (s.setSem p name v d).held p' x = if p' = p ∧ x = name then s.held p' x + d
      else s.held p' x := by
  unfold World.setSem
  by_cases hp : p' = p
  · subst hp
    by_cases hx : x = name
    · simp [hx]
    · simp [hx]
  · simp [hp]

/-- What both hold of a semaphore changes by `d`. -/
theorem held_setSem_sum (s : World) (p p' : Party) (name x : List Byte) (v d : ℤ) :
    (s.setSem p name v d).held p' x + (s.setSem p name v d).held p'.other x =
      s.held p' x + s.held p'.other x + if x = name then d else 0 := by
  rw [held_setSem, held_setSem]
  by_cases hx : x = name
  · by_cases hp : p' = p
    · rw [if_pos ⟨hp, hx⟩, if_neg fun h => p'.other_ne (h.1.trans hp.symm), if_pos hx]
      omega
    · have hother : p'.other = p := by
        rw [Party.eq_other hp, Party.other_other]
      rw [if_neg fun h => hp h.1, if_pos ⟨hother, hx⟩, if_pos hx]
      omega
  · rw [if_neg fun h => hx h.2, if_neg fun h => hx h.2, if_neg hx]
    omega

theorem sems_setSem (s : World) (p : Party) (name x : List Byte) (v d : ℤ) :
    (s.setSem p name v d).sems x = if x = name then some v else s.sems x :=
  Function.update_apply _ _ _ _

/-- A semaphore with the value `v` has gone down by `d`. -/
theorem Inv.setSem (hI : Inv q₀ s) {v d : ℤ} (hv : s.sems name = some v) (hd : d ≤ v)
    (hin : name = accessItem → 0 ≤ s.held p accessItem + d)
    (hlines : -(s.setSem p name (v - d) d).held p p.gives ≤ s.console.count p.letter ∧
      s.console.count p.letter ≤ (s.setSem p name (v - d) d).held p p.takes)
    (hset : (∀ p', (s.setSem p name (v - d) d).held p' accessItem = 0) →
      Settled q₀ s.files s.console) :
    Inv q₀ (s.setSem p name (v - d) d) := by
  have hsum := held_setSem_sum s p
  refine ⟨fun p' => ?_, fun p' => ?_, fun p' => ?_, fun p' => ?_, fun p' => ?_, fun p' => ?_, hset⟩
  · have hs := hsum p' name accessItem (v - d) d
    have ha := hI.access p'
    rw [sems_setSem]
    by_cases hn : accessItem = name
    · rw [← hn, ha, Option.some.injEq] at hv
      rw [if_pos hn, Option.some.injEq]
      rw [if_pos hn] at hs
      omega
    · rw [if_neg hn, ha, Option.some.injEq]
      rw [if_neg hn] at hs
      omega
  · have hs := hsum p' name p'.takes (v - d) d
    have ht := hI.tokens p'
    rw [sems_setSem]
    by_cases hn : p'.takes = name
    · rw [← hn, ht, Option.some.injEq] at hv
      rw [if_pos hn, Option.some.injEq]
      rw [if_pos hn] at hs
      omega
    · rw [if_neg hn, ht, Option.some.injEq]
      rw [if_neg hn] at hs
      omega
  · rw [held_setSem]
    split_ifs with h
    · rw [h.1]
      exact hin h.2.symm
    · exact hI.inside p'
  · have hs := hsum p' name accessItem (v - d) d
    have ha := hI.access p'
    have ho := hI.one p'
    by_cases hn : accessItem = name
    · rw [← hn, ha, Option.some.injEq] at hv
      rw [if_pos hn] at hs
      omega
    · rw [if_neg hn] at hs
      omega
  · have hs := hsum p' name p'.takes (v - d) d
    have ht := hI.tokens p'
    have he := hI.enough p'
    by_cases hn : p'.takes = name
    · rw [← hn, ht, Option.some.injEq] at hv
      rw [if_pos hn] at hs
      omega
    · rw [if_neg hn] at hs
      omega
  · by_cases hp : p' = p
    · rw [hp]
      exact hlines
    · rw [held_setSem, held_setSem, if_neg fun h => hp h.1, if_neg fun h => hp h.1]
      exact hI.lines p'

/-- The other program sees a change of the semaphores only. -/
theorem leaves_setSem {v d : ℤ} (hI : Inv q₀ (s.setSem p name v d)) :
    Leaves q₀ p.other s (s.setSem p name v d) := by
  refine ⟨fun _ => hI, ?_, rfl, fun _ _ => ⟨rfl, rfl⟩⟩
  exact Function.update_of_ne p.other_ne _ _

/-- The queue as a program finds it when it gets the file, with room for a line of its own. -/
def Entered (q₀ : List Byte) (p : Party) (n : ℕ) (fs : FileStore) (console : List Byte) : Prop :=
  Settled q₀ fs console ∧ console.count p.letter = n ∧
    n + 1 ≤ console.count p.other.letter + p.tokens ∧
    console.count p.other.letter ≤ n + p.other.tokens

theorem spec_wait_takes {P : σ → Prop} (hP : ∀ l, P l → n < p.passes) :
    Spec (contract σ q₀ p) (fun l s => P l ∧ Outside q₀ p n n n s)
    (sysWait p p.takes) fun l s => P l ∧ Outside q₀ p (n + 1) n n s := by
  refine Spec.call (stable_outside P) fun l s ⟨hl, ho⟩ => ?_
  have hv := ho.inv.tokens p
  have he := ho.inv.enough p
  have hlines := ho.inv.lines p
  obtain ⟨hta, hga, htg⟩ := p.names
  unfold World.wait
  rw [hv]
  simp only
  split_ifs with h0
  · exact Or.inl ⟨n, n, ho, hP l hl, h0 ▸ hv⟩
  · have hI : Inv q₀
        (s.setSem p p.takes (p.tokens - s.held p p.takes - s.held p.other p.takes - 1) 1) := by
      refine ho.inv.setSem hv (by omega) (fun h => absurd h hta) ?_ fun h =>
        ho.inv.settled fun p' => ?_
      · rw [held_setSem, held_setSem, if_neg fun h => htg h.2.symm, if_pos ⟨rfl, rfl⟩]
        omega
      · have := h p'
        rwa [held_setSem, if_neg fun h => hta h.2.symm] at this
    refine ⟨leaves_setSem hI, hl, hI, ?_, ?_, ?_, ho.printed⟩
    · rw [held_setSem, if_neg fun h => hta h.2.symm]
      exact ho.out
    · rw [held_setSem, if_pos ⟨rfl, rfl⟩, ho.taken]
      rfl
    · rw [held_setSem, if_neg fun h => htg h.2.symm]
      exact ho.given

theorem spec_wait_access (P : σ → Prop) :
    Spec (contract σ q₀ p) (fun l s => P l ∧ Outside q₀ p (n + 1) n n s) (sysWait p accessItem)
      (Inside q₀ p n fun l fs console => P l ∧ Entered q₀ p n fs console) := by
  refine Spec.call (stable_outside P) fun l s ⟨hl, ho⟩ => ?_
  have hv := ho.inv.access p
  have hout := ho.out
  obtain ⟨hta, hga, htg⟩ := p.names
  unfold World.wait
  rw [hv]
  simp only
  split_ifs with h0
  · exact Or.inr ⟨n + 1, n, n, ho, h0 ▸ hv⟩
  · have hother := ho.inv.inside p.other
    have hone := ho.inv.one p
    have hsettled : Settled q₀ s.files s.console := by
      refine ho.inv.settled fun p' => ?_
      by_cases hp : p' = p
      · exact hp ▸ hout
      · rw [Party.eq_other hp]
        omega
    have hI : Inv q₀
        (s.setSem p accessItem (1 - s.held p accessItem - s.held p.other accessItem - 1) 1) := by
      refine ho.inv.setSem hv (by omega) (fun _ => by omega) ?_ fun _ => hsettled
      rw [held_setSem, held_setSem, if_neg fun h => hga h.2, if_neg fun h => hta h.2]
      exact ho.inv.lines p
    refine ⟨leaves_setSem hI, hI, ?_, ?_, ?_, hl, hsettled, ho.printed, ?_, ?_⟩
    · rw [held_setSem, if_pos ⟨rfl, rfl⟩, hout]
      rfl
    · rw [held_setSem, if_neg fun h => hta h.2, ho.taken]
      rfl
    · rw [held_setSem, if_neg fun h => hga h.2]
      exact ho.given
    · have henough := ho.inv.enough p
      have hlines := (ho.inv.lines p.other).1
      rw [Party.gives_other] at hlines
      have htaken := ho.taken
      simp only [World.setSem]
      omega
    · have henough := ho.inv.enough p.other
      have hlines := (ho.inv.lines p.other).2
      rw [Party.takes_other, Party.other_other] at henough
      rw [Party.takes_other] at hlines
      have hgiven := ho.given
      simp only [World.setSem]
      omega

theorem spec_signal_access (P : σ → Prop) :
    Spec (contract σ q₀ p)
      (Inside q₀ p n fun l fs console => P l ∧ Settled q₀ fs console ∧
        console.count p.letter = n + 1) (sysSignal p accessItem)
      fun l s => P l ∧ Outside q₀ p (n + 1) n (n + 1) s := by
  refine Spec.call (stable_inside _) fun l s h => ?_
  obtain ⟨hl, hsettled, hcount⟩ := h.holds
  have hv := h.inv.access p
  have hhas := h.has
  obtain ⟨hta, hga, htg⟩ := p.names
  unfold World.signal
  rw [hv]
  simp only
  have hI : Inv q₀
      (s.setSem p accessItem (1 - s.held p accessItem - s.held p.other accessItem + 1) (-1)) := by
    rw [← sub_neg_eq_add]
    have hone := h.inv.one p
    refine h.inv.setSem hv (by omega) (fun _ => by omega) ?_ fun _ => hsettled
    rw [held_setSem, held_setSem, if_neg fun h => hga h.2, if_neg fun h => hta h.2]
    exact h.inv.lines p
  refine ⟨leaves_setSem hI, hl, hI, ?_, ?_, ?_, hcount⟩
  · rw [held_setSem, if_pos ⟨rfl, rfl⟩, hhas]
    rfl
  · rw [held_setSem, if_neg fun h => hta h.2, h.taken]
    rfl
  · rw [held_setSem, if_neg fun h => hga h.2]
    exact h.given

theorem spec_signal_gives (P : σ → Prop) :
    Spec (contract σ q₀ p) (fun l s => P l ∧ Outside q₀ p (n + 1) n (n + 1) s) (sysSignal p p.gives)
      fun l s => P l ∧ Outside q₀ p (n + 1) (n + 1) (n + 1) s := by
  refine Spec.call (stable_outside P) fun l s ⟨hl, ho⟩ => ?_
  have hv := ho.inv.tokens p.other
  rw [Party.takes_other, Party.other_other] at hv
  have henough := ho.inv.enough p.other
  rw [Party.takes_other, Party.other_other] at henough
  obtain ⟨hta, hga, htg⟩ := p.names
  unfold World.signal
  rw [hv]
  simp only
  have hI : Inv q₀ (s.setSem p p.gives
      (p.other.tokens - s.held p.other p.gives - s.held p p.gives + 1) (-1)) := by
    rw [← sub_neg_eq_add]
    refine ho.inv.setSem hv (by omega) (fun h => absurd h hga) ?_ fun h =>
      ho.inv.settled fun p' => ?_
    · rw [held_setSem, held_setSem, if_pos ⟨rfl, rfl⟩, if_neg fun h => htg h.2, ho.given,
        ho.taken, ho.printed]
      omega
    · have := h p'
      rwa [held_setSem, if_neg fun h => hga h.2.symm] at this
  refine ⟨leaves_setSem hI, hl, hI, ?_, ?_, ?_, ho.printed⟩
  · rw [held_setSem, if_neg fun h => hga h.2.symm]
    exact ho.out
  · rw [held_setSem, if_neg fun h => htg h.2]
    exact ho.taken
  · rw [held_setSem, if_pos ⟨rfl, rfl⟩, ho.given]
    push_cast
    ring

/-! The file and the console -/

theorem spec_io {a : σ → FileStore → List Byte → Outcome (σ × FileStore × List Byte)}
    (h : ∀ l fs console, n ≤ console.count p.letter → console.count p.letter ≤ n + 1 →
      F l fs console →
      ∃ l' fs' console', a l fs console = .next (l', fs', console') ∧
        console'.count p.other.letter = console.count p.other.letter ∧
        n ≤ console'.count p.letter ∧ console'.count p.letter ≤ n + 1 ∧ F' l' fs' console') :
    Spec (contract σ q₀ p) (Inside q₀ p n F) (io a) (Inside q₀ p n F') := by
  refine Spec.call (stable_inside F) fun l s hin => ?_
  have hlines := hin.inv.lines p
  have htaken := hin.taken
  have hgiven := hin.given
  obtain ⟨l', fs', console', ha, hother, hge, hle, hF⟩ :=
    h l s.files s.console (by omega) (by omega) hin.holds
  rw [ha]
  have hhas := hin.has
  have hI : Inv q₀ { s with files := fs', console := console' } := by
    refine ⟨hin.inv.access, hin.inv.tokens, hin.inv.inside, hin.inv.one, hin.inv.enough,
      fun p' => ?_, fun h0 => ?_⟩
    · by_cases hp : p' = p
      · subst hp
        simp only
        omega
      · rw [Party.eq_other hp]
        simp only [hother]
        exact hin.inv.lines p.other
    · have := h0 p
      simp only at this
      omega
  refine ⟨⟨fun _ => hI, rfl, hother, fun _ h1 => ?_⟩, hI, hhas, htaken, hgiven, hF⟩
  -- the other program does not have the file
  have hone := hin.inv.one p
  omega

/-- `G`, with `console` on the screen. -/
def At (console : List Byte) (G : σ → FileStore → Prop) : σ → FileStore → List Byte → Prop :=
  fun l fs con => G l fs ∧ con = console

variable {G G' : σ → FileStore → Prop} {console : List Byte} {Q : σ → World → Prop}

theorem Inside.imp {l : σ} (h : Inside q₀ p n F l s) (hF : ∀ l fs con, F l fs con → F' l fs con) :
    Inside q₀ p n F' l s :=
  ⟨h.inv, h.has, h.taken, h.given, hF _ _ _ h.holds⟩

theorem Inside.at {l : σ} (h : Inside q₀ p n (At console G) l s) (hG : ∀ l fs, G l fs → G' l fs) :
    Inside q₀ p n (At console G') l s := h.imp fun l fs _ hF => ⟨hG l fs hF.1, hF.2⟩

theorem spec_files {a : σ → FileStore → List Byte → Outcome (σ × FileStore × List Byte)}
    (h : ∀ l fs, G l fs → ∃ l' fs', a l fs console = .next (l', fs', console) ∧ G' l' fs') :
    Spec (contract σ q₀ p) (Inside q₀ p n (At console G)) (io a)
    (Inside q₀ p n (At console G')) := by
  refine spec_io fun l fs con hge hle ⟨hG, hcon⟩ => ?_
  obtain ⟨l', fs', ha, hG'⟩ := h l fs hG
  subst hcon
  exact ⟨l', fs', con, ha, rfl, hge, hle, hG', rfl⟩

theorem spec_assign {f : σ → Option σ} (h : ∀ l fs, G l fs → ∃ l', f l = some l' ∧ G' l' fs) :
    Spec (contract σ q₀ p) (Inside q₀ p n (At console G)) (.assign f)
    (Inside q₀ p n (At console G')) := by
  refine Spec.assign (stable_inside _) fun l s hin => ?_
  obtain ⟨l', hl, hG⟩ := h l _ hin.holds.1
  exact ⟨l', hl, hin.inv, hin.has, hin.taken, hin.given, hG, hin.holds.2⟩

theorem spec_exists {α : Sort*} {F : α → σ → FileStore → List Byte → Prop} {c : Cmd σ World}
    (h : ∀ x, Spec (contract σ q₀ p) (Inside q₀ p n (F x)) c Q) :
    Spec (contract σ q₀ p) (Inside q₀ p n fun l fs con => ∃ x, F x l fs con) c Q := by
  refine (Spec.of_forall h).conseq (fun l s hin => ?_) fun _ _ hq => hq
  obtain ⟨x, hx⟩ := hin.holds
  exact ⟨x, hin.inv, hin.has, hin.taken, hin.given, hx⟩

theorem spec_ite {b : σ → Option Bool} {c d : Cmd σ World} (hb : ∀ l fs, G l fs → b l ≠ none)
    (hc : Spec (contract σ q₀ p) (Inside q₀ p n (At console fun l fs => G l fs ∧ b l = some true))
      c Q)
    (hd : Spec (contract σ q₀ p) (Inside q₀ p n (At console fun l fs => G l fs ∧ b l = some false))
      d Q) :
    Spec (contract σ q₀ p) (Inside q₀ p n (At console G)) (.ite b c d) Q := by
  refine Spec.ite (stable_inside _) (fun l s hin => hb l _ hin.holds.1) ?_ ?_
  · exact hc.conseq (fun l s ⟨hin, hv⟩ =>
      ⟨hin.inv, hin.has, hin.taken, hin.given, ⟨hin.holds.1, hv⟩, hin.holds.2⟩) fun _ _ hq => hq
  · exact hd.conseq (fun l s ⟨hin, hv⟩ =>
      ⟨hin.inv, hin.has, hin.taken, hin.given, ⟨hin.holds.1, hv⟩, hin.holds.2⟩) fun _ _ hq => hq

theorem spec_while {b : σ → Option Bool} {c : Cmd σ World} {I : ℕ → σ → FileStore → Prop}
    (hb : ∀ m l fs, I m l fs → b l ≠ none) (hbody : ∀ m, Spec (contract σ q₀ p)
      (Inside q₀ p n (At console fun l fs => I m l fs ∧ b l = some true)) c
      (Inside q₀ p n (At console fun l fs => ∃ k < m, I k l fs)))
    (hexit : ∀ m l fs, I m l fs → b l = some false → G l fs) :
    Spec (contract σ q₀ p) (Inside q₀ p n (At console fun l fs => ∃ m, I m l fs)) (.while b c)
    (Inside q₀ p n (At console G)) := by
  have hloop : Spec (contract σ q₀ p) (fun l s => ∃ m, Inside q₀ p n (At console (I m)) l s)
      (.while b c)
      (Inside q₀ p n (At console G)) := by
    refine Spec.while (fun m => stable_inside _) (fun m l s hin => hb m l _ hin.holds.1)
      (fun m => ?_) fun m l s hin hv => ?_
    · refine (hbody m).conseq (fun l s ⟨hin, hv⟩ => ?_) fun l s hin => ?_
      · exact ⟨hin.inv, hin.has, hin.taken, hin.given, ⟨hin.holds.1, hv⟩, hin.holds.2⟩
      · obtain ⟨⟨k, hk, hI⟩, hcon⟩ := hin.holds
        exact ⟨k, hk, hin.inv, hin.has, hin.taken, hin.given, hI, hcon⟩
    · exact ⟨hin.inv, hin.has, hin.taken, hin.given, hexit m l _ hin.holds.1 hv, hin.holds.2⟩
  refine hloop.conseq (fun l s hin => ?_) fun _ _ hq => hq
  obtain ⟨⟨m, hI⟩, hcon⟩ := hin.holds
  exact ⟨m, hin.inv, hin.has, hin.taken, hin.given, hI, hcon⟩

theorem spec_putChar {c : σ → Byte} (hc : ∀ l fs, G l fs → c l = b) (h0 : b ≠ 0)
    (hother : b ≠ p.other.letter) (hcount : (console ++ [b]).count p.letter ≤ n + 1) :
    Spec (contract σ q₀ p) (Inside q₀ p n (At console G)) (putChar c)
    (Inside q₀ p n (At (console ++ [b]) G)) := by
  refine spec_io fun l fs con hge _ ⟨hG, hcon⟩ => ?_
  refine ⟨l, fs, con ++ [b], ?_, ?_, ?_, ?_, hG, by rw [hcon]⟩
  · rw [hc l fs hG, FileDescriptor.cstr_of_ne (by simpa using h0)]
  · rw [List.count_append, List.count_singleton, if_neg (by simpa using hother), Nat.add_zero]
  · rw [List.count_append]
    omega
  · rw [hcon]
    exact hcount

theorem spec_print (text : List Byte) (htext : ∀ b ∈ text, b ≠ 0 ∧ b ≠ p.other.letter)
    (hcount : (console ++ text).count p.letter ≤ n + 1) :
    Spec (contract σ q₀ p) (Inside q₀ p n (At console G)) (print text)
    (Inside q₀ p n (At (console ++ text) G)) := by
  induction text generalizing console with
  | nil =>
    rw [List.append_nil]
    exact Spec.nil (stable_inside _)
  | cons b text ih =>
    obtain ⟨h0, hother⟩ := htext b (List.mem_cons_self ..)
    have happend : console ++ b :: text = console ++ [b] ++ text := by simp
    have hfirst : (console ++ [b]).count p.letter ≤ n + 1 := by
      rw [happend, List.count_append] at hcount
      omega
    rw [happend] at hcount ⊢
    exact Spec.cons (stable_inside _) (spec_putChar (fun _ _ _ => rfl) h0 hother hfirst)
      (ih (fun b hb => htext b (List.mem_cons_of_mem _ hb)) hcount)

/-- A line of the program. -/
theorem spec_line {c : σ → Byte} (hc : ∀ l fs, G l fs → c l = x) (hx : isItem x = true)
    (hmine : (screen ls).count p.letter = n) {cs : List (Cmd σ World)} (h : Spec (contract σ q₀ p)
      (Inside q₀ p n (At (screen (ls ++ [p.line x])) G)) (Cmd.block cs) Q) :
    Spec (contract σ q₀ p) (Inside q₀ p n (At (screen ls) G))
    (Cmd.block (print p.text :: putChar c :: print [newline] :: cs)) Q := by
  have htext : (∀ b ∈ p.text, b ≠ 0 ∧ b ≠ p.other.letter) ∧ p.text.count p.letter = 1 ∧
      newline ≠ p.letter ∧
      ∀ b ∈ [newline], b ≠ 0 ∧ b ≠ p.other.letter := by cases p <;> decide
  obtain ⟨hother, hone, hnl, hlast⟩ := htext
  obtain ⟨h0, -, h80, h67⟩ := isItem_ne hx
  have hne : x ≠ p.letter ∧ x ≠ p.other.letter := by
    cases p <;> exact ⟨by assumption, by assumption⟩
  have hline : screen (ls ++ [p.line x]) = screen ls ++ p.text ++ [x] ++ [newline] := by
    cases p <;> simp [screen, Party.line, Party.text, Line.text]
  rw [hline] at h
  have h₁ : (screen ls ++ p.text).count p.letter = n + 1 := by rw [List.count_append, hmine, hone]
  have h₂ : (screen ls ++ p.text ++ [x]).count p.letter = n + 1 := by
    rw [List.count_append, h₁, List.count_singleton, if_neg (by simpa using hne.1)]
  have h₃ : (screen ls ++ p.text ++ [x] ++ [newline]).count p.letter = n + 1 := by
    rw [List.count_append, h₂, List.count_singleton, if_neg (by simpa using hnl)]
  exact Spec.cons (stable_inside _) (spec_print p.text hother h₁.le) (Spec.cons (stable_inside _)
    (spec_putChar hc h0 hne.2 h₂.le)
    (Spec.cons (stable_inside _) (spec_print [newline] hlast h₃.le) h))

/-! Opening `items.txt`, and replacing it -/

/-- The content of `items.txt` while the queue is `q`. -/
def Holds (q ct : List Byte) : Prop := ct = q ++ [charE] ∨ q = [] ∧ ct = []

/-- `items.txt` is open at `off`; or it is missing. -/
def Reading (id : ℤ) (fs : FileStore) (ct : List Byte) (off : ℕ) : Prop :=
  id = -1 ∧ fs.handles = ∅ ∧ ct = [] ∨ ∃ w, fs.Opened id itemsTxt ct off w

theorem open_reading {fs : FileStore} {type fd : ℤ} (ht : type = 0 ∨ type = 1) (hs : fs.handles = ∅)
    (hE : Encodes (fs.dir itemsTxt) q) (hfd : 2 ≤ fd) :
    ∃ ct, Holds q ct ∧ Reading (fs.open_ itemsTxt type fd).2
      (fs.open_ itemsTxt type fd).1 ct 0 := by
  have hthere : ∀ ct, fs.dir itemsTxt = some ct →
      Reading (fs.open_ itemsTxt type fd).2 (fs.open_ itemsTxt type fd).1 ct 0 := by
    intro ct hdir
    obtain ⟨hr, hopen⟩ := FileStore.open_first ht (show itemsTxt ≠ [] by decide) hs hdir hfd
    rw [hr]
    exact Or.inr ⟨_, hopen⟩
  rcases hE with hdir | ⟨hq, hdir | hdir⟩
  · exact ⟨_, Or.inl rfl, hthere _ hdir⟩
  · rw [FileStore.open_missing ht hdir]
    exact ⟨[], Or.inr ⟨hq, rfl⟩, Or.inl ⟨rfl, hs, rfl⟩⟩
  · exact ⟨[], Or.inr ⟨hq, rfl⟩, hthere _ hdir⟩

/-- Closing it, open or not. -/
theorem close_reading {id : ℤ} {fs : FileStore} {ct : List Byte} {off : ℕ}
    (h : Reading id fs ct off) :
    ∃ r, fs.close id = ({ fs with handles := ∅ }, r) := by
  rcases h with ⟨rfl, hs, -⟩ | ⟨w, hopen⟩
  · refine ⟨-1, ?_⟩
    unfold FileStore.close
    rw [hs, if_pos (AList.lookup_empty _), ← hs]
  · exact ⟨0, hopen.close⟩

variable {newFd : FileStore → ℤ} {id : σ → ℤ} {set : σ → ℤ → σ} {P : σ → Prop}

theorem spec_openItems (hnew : ∀ fs, 2 ≤ newFd fs) (hid : ∀ l r, id (set l r) = r)
    (hP : ∀ l r, P l → P (set l r)) {type : ℤ} (ht : type = 0 ∨ type = 1) :
    Spec (contract σ q₀ p)
    (Inside q₀ p n (At console fun l fs => P l ∧ fs.handles = ∅ ∧ Encodes (fs.dir itemsTxt) q))
    (openItems newFd type set)
    (Inside q₀ p n (At console fun l fs => P l ∧ ∃ ct, Holds q ct ∧ Reading (id l) fs ct 0)) := by
  unfold openItems onFiles
  refine spec_files fun l fs ⟨hl, hs, hE⟩ => ?_
  obtain ⟨ct, hct, hr⟩ := open_reading ht hs hE (hnew fs)
  refine ⟨set l (fs.open_ itemsTxt type (newFd fs)).2, (fs.open_ itemsTxt type (newFd fs)).1, rfl,
    hP l _ hl, ct, hct, ?_⟩
  rw [hid]
  exact hr

/-- `items.txt` is empty and open for writing afterwards. -/
theorem spec_replaceItems (hnew : ∀ fs, 2 ≤ newFd fs) (hid : ∀ l r, id (set l r) = r)
    (hP : ∀ l r, P l → P (set l r)) {cs : List (Cmd σ World)}
    (h : Spec (contract σ q₀ p) (Inside q₀ p n
      (At console fun l fs => P l ∧ fs.Opened (id l) itemsTxt [] 0 true)) (Cmd.block cs) Q) :
    Spec (contract σ q₀ p)
    (Inside q₀ p n (At console fun l fs => P l ∧ ∃ ct off, Reading (id l) fs ct off))
    (Cmd.block (replaceItems newFd id set ++ cs)) Q := by
  have hclose : Spec (contract σ q₀ p)
      (Inside q₀ p n (At console fun l fs => P l ∧ ∃ ct off, Reading (id l) fs ct off))
      (onFiles (fun l fs => .next (fs.close (id l))) fun l _ => l)
      (Inside q₀ p n (At console fun l fs => P l ∧ fs.handles = ∅)) := by
    refine spec_files fun l fs ⟨hl, ct, off, hreading⟩ => ?_
    obtain ⟨r, hr⟩ := close_reading hreading
    exact ⟨l, { fs with handles := ∅ }, by simp only [Outcome.map, hr], hl, rfl⟩
  have hremove : Spec (contract σ q₀ p)
      (Inside q₀ p n (At console fun l fs => P l ∧ fs.handles = ∅))
      (onFiles (fun _ fs => .next (fs.remove itemsTxt)) fun l _ => l)
      (Inside q₀ p n (At console fun l fs => P l ∧ fs.handles = ∅)) := by
    refine spec_files fun l fs ⟨hl, hs⟩ => ?_
    obtain ⟨r, hr⟩ : ∃ r, fs.remove itemsTxt =
        ({ fs with dir := Function.update fs.dir itemsTxt none }, r) :=
      FileStore.remove_closed hs
    exact ⟨l, { fs with dir := Function.update fs.dir itemsTxt none },
      by simp only [Outcome.map, hr], hl, hs⟩
  have hcreate : Spec (contract σ q₀ p)
      (Inside q₀ p n (At console fun l fs => P l ∧ fs.handles = ∅))
      (onFiles (fun _ fs => .next (fs.create itemsTxt)) fun l _ => l)
      (Inside q₀ p n
        (At console fun l fs => P l ∧ fs.handles = ∅ ∧ fs.dir itemsTxt = some [])) := by
    refine spec_files fun l fs ⟨hl, hs⟩ => ?_
    refine ⟨l, { fs with dir := Function.update fs.dir itemsTxt (some []) }, rfl, hl, hs, ?_⟩
    exact Function.update_self itemsTxt (some []) fs.dir
  have hopen : Spec (contract σ q₀ p)
      (Inside q₀ p n (At console fun l fs => P l ∧ fs.handles = ∅ ∧ fs.dir itemsTxt = some []))
      (openItems newFd readWriteFile set)
      (Inside q₀ p n (At console fun l fs => P l ∧ fs.Opened (id l) itemsTxt [] 0 true)) := by
    unfold openItems onFiles
    refine spec_files fun l fs ⟨hl, hs, hdir⟩ => ?_
    have hrw : readWriteFile = 0 ∨ readWriteFile = 1 := Or.inl rfl
    obtain ⟨hr, hopened⟩ :=
      FileStore.open_first hrw (show itemsTxt ≠ [] by decide) hs hdir (hnew fs)
    refine ⟨set l (newFd fs), (fs.open_ itemsTxt readWriteFile (newFd fs)).1, ?_, hP l _ hl, ?_⟩
    · simp only [Outcome.map, hr]
    · rw [hid]
      exact hopened
  exact Spec.cons (stable_inside _) hclose
    (Spec.cons (stable_inside _) hremove
      (Spec.cons (stable_inside _) hcreate (Spec.cons (stable_inside _) hopen h)))

theorem spec_write {buffer : σ → List Byte} {bytes : List Byte}
    (hbuffer : ∀ l, P l → buffer l = bytes) (hne : ∀ b ∈ bytes, b ≠ 0) :
    Spec (contract σ q₀ p)
    (Inside q₀ p n (At console fun l fs => P l ∧ fs.Opened (id l) itemsTxt [] 0 true))
    (onFiles (fun l fs => fs.write (buffer l) (id l)) fun l _ => l) (Inside q₀ p n
      (At console fun l fs => P l ∧ ∃ off, fs.Opened (id l) itemsTxt bytes off true)) := by
  refine spec_files fun l fs ⟨hl, hopen⟩ => ?_
  obtain ⟨fs', hw, hopen'⟩ := hopen.write hne
  refine ⟨l, fs', ?_, hl, _, hopen'⟩
  simp only [hbuffer l hl, hw, Outcome.map]

theorem spec_close {bytes : List Byte} :
    Spec (contract σ q₀ p)
    (Inside q₀ p n (At console fun l fs => P l ∧ ∃ off, fs.Opened (id l) itemsTxt bytes off true))
    (onFiles (fun l fs => .next (fs.close (id l))) fun l _ => l) (Inside q₀ p n
      (At console fun l fs => P l ∧ fs.handles = ∅ ∧ fs.dir itemsTxt = some bytes)) := by
  refine spec_files fun l fs ⟨hl, off, hopen⟩ => ?_
  exact ⟨l, { fs with handles := ∅ }, by simp only [Outcome.map, hopen.close], hl, rfl, hopen.dir⟩

/-! The ends of a pass -/

/-- The lines so far and the queue, as `p` finds them in its pass `n`. -/
structure Found (q₀ : List Byte) (p : Party) (n : ℕ) (ls : List Line) (q : List Byte) : Prop where
  run : replay q₀ ls = some q
  digits : Digits q
  mine : (screen ls).count p.letter = n
  le : q.length ≤ q₀.length + 10
  room : p = .producer → q.length < q₀.length + 10
  item : p = .consumer → q ≠ []

theorem Settled.found {fs : FileStore} {con : List Byte} (hq₀ : Digits q₀)
    (h : Entered q₀ p n fs con) :
    ∃ ls q, Found q₀ p n ls q ∧ con = screen ls ∧ fs.handles = ∅ ∧ Encodes (fs.dir itemsTxt) q := by
  obtain ⟨⟨⟨ls, q, rfl, hrun, hE⟩, hs⟩, hmine, hmore, hless⟩ := h
  obtain ⟨hdig, hmade, hused⟩ := digits_of_replay hq₀ hrun
  obtain ⟨h80, h67⟩ := count_screen hmade hused
  have hlen := length_of_replay hrun
  refine ⟨ls, q, ⟨hrun, hdig, hmine, ?_, ?_, ?_⟩, rfl, hs, hE⟩
  · cases p <;> simp only [Party.letter, Party.other, Party.tokens] at hmine hmore hless <;> omega
  · rintro rfl
    simp only [Party.letter, Party.other, Party.tokens] at hmine hmore
    omega
  · rintro rfl hnil
    simp only [Party.letter, Party.other, Party.tokens] at hmine hmore
    rw [hnil, List.length_nil] at hlen
    omega

/-- Getting the file. -/
theorem spec_enter (hq₀ : Digits q₀) {cs : List (Cmd σ World)} (hn : ∀ l, P l → n < p.passes)
    (h : ∀ ls q, Found q₀ p n ls q → Spec (contract σ q₀ p)
      (Inside q₀ p n (At (screen ls) fun l fs => P l ∧ fs.handles = ∅ ∧
        Encodes (fs.dir itemsTxt) q)) (Cmd.block cs) Q) :
    Spec (contract σ q₀ p) (fun l s => P l ∧ Outside q₀ p n n n s)
    (Cmd.block (sysWait p p.takes :: sysWait p accessItem :: cs)) Q := by
  refine Spec.cons (stable_outside P) (spec_wait_takes hn)
    (Spec.cons (stable_outside P) (spec_wait_access P) ?_)
  have hfound := spec_exists fun ls => spec_exists fun q => spec_exists (h ls q)
  refine hfound.conseq (fun l s hin => hin.imp fun l fs con ⟨hl, hentered⟩ => ?_) fun _ _ hq => hq
  obtain ⟨ls, q, hf, hcon, hs, hE⟩ := Settled.found hq₀ hentered
  exact ⟨ls, q, hf, ⟨hl, hs, hE⟩, hcon⟩

/-- Giving it back. -/
theorem spec_leave {line : Line} (hrun : replay q₀ ls = some q)
    (hmine : (screen ls).count p.letter = n) (happly : line.apply q = some q')
    (hline : line.text.count p.letter = 1) :
    Spec (contract σ q₀ p)
      (Inside q₀ p n (At (screen (ls ++ [line])) fun l fs => P l ∧ fs.handles = ∅ ∧
        fs.dir itemsTxt = some (q' ++ [charE])))
      (Cmd.block [sysSignal p accessItem, sysSignal p p.gives]) fun l s => P l ∧
      Outside q₀ p (n + 1) (n + 1) (n + 1) s := by
  have hend : Stable (contract σ q₀ p) fun l s => P l ∧ Outside q₀ p (n + 1) (n + 1) (n + 1) s :=
    stable_outside P
  have hleft := Spec.cons (stable_inside _) (spec_signal_access P)
    (Spec.cons (stable_outside P) (spec_signal_gives P)
    (Spec.nil hend))
  refine hleft.conseq (fun l s hin => hin.imp fun l fs con ⟨⟨hl, hs, hdir⟩, hcon⟩ => ?_)
    fun _ _ hq => hq
  refine ⟨hl, ⟨⟨ls ++ [line], q', hcon, ?_, Or.inl hdir⟩, hs⟩, ?_⟩
  · rw [replay_append, hrun]
    exact happly
  · rw [hcon]
    simp only [screen, List.flatMap_append, List.flatMap_singleton, List.count_append, hline]
    rw [← hmine]
    rfl

/-- The loop of a program, where a pass is as it should be. -/
theorem spec_passes {P : ℕ → σ → Prop} {num : σ → ℕ} {c : Cmd σ World}
    (hP : ∀ n l, P n l → num l = n)
    (hpass : ∀ n < p.passes, Spec (contract σ q₀ p) (fun l s => P n l ∧ Outside q₀ p n n n s) c
      fun l s => P (n + 1) l ∧ Outside q₀ p (n + 1) (n + 1) (n + 1) s) :
    Spec (contract σ q₀ p) (fun l s => P 0 l ∧ Outside q₀ p 0 0 0 s)
    (.while (fun l => some (num l < p.passes)) c) (contract σ q₀ p).ends := by
  -- with `m` passes to go
  have hloop : Spec (contract σ q₀ p)
      (fun l s => ∃ m, (P (p.passes - m) l ∧ m ≤ p.passes) ∧
        Outside q₀ p (p.passes - m) (p.passes - m) (p.passes - m) s)
      (.while (fun l => some (num l < p.passes)) c) (contract σ q₀ p).ends := by
    refine Spec.while (fun m => stable_outside _) (fun _ _ _ _ => Option.some_ne_none _)
      (fun m => ?_) ?_
    · rcases Nat.eq_zero_or_pos m with rfl | hm
      · -- no pass is left
        rintro k - l s ⟨⟨⟨hl, -⟩, -⟩, hv⟩
        simp only [Option.some.injEq, decide_eq_true_eq] at hv
        have hnum := hP _ l hl
        omega
      · rcases le_or_gt m p.passes with hle | hgt
        · have hnext : p.passes - (m - 1) = p.passes - m + 1 := by omega
          refine (hpass (p.passes - m) (by omega)).conseq (fun l s ⟨⟨⟨hl, _⟩, ho⟩, _⟩ => ⟨hl, ho⟩)
            fun l s ⟨hl, ho⟩ => ?_
          refine ⟨m - 1, by omega, ?_⟩
          rw [hnext]
          exact ⟨⟨hl, by omega⟩, ho⟩
        · rintro k - l s ⟨⟨⟨-, hle⟩, -⟩, -⟩
          omega
    · rintro m l s ⟨⟨hl, hm⟩, ho⟩ hv
      simp only [Option.some.injEq, decide_eq_false_iff_not] at hv
      have hnum := hP _ l hl
      have h0 : p.passes - m = p.passes := by omega
      rw [h0] at ho
      exact ho
  refine hloop.conseq (fun l s ⟨hl, ho⟩ => ⟨p.passes, ?_⟩) fun _ _ hq => hq
  rw [Nat.sub_self]
  exact ⟨⟨hl, le_rfl⟩, ho⟩

end Rules

end Items

end Nachos
