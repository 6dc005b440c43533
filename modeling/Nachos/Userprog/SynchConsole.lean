/-
# The console (`machine/console.cc`, `userprog/synchconsole.cc`)

`ConsoleInput` polls its file with an interrupt. A character that has arrived
is kept in `incoming` until `GetChar` takes it and starts the polling again;
`EOF`, which is the character 255, stands there for no character.
`SynchConsoleInput` is the device, the lock and the semaphore, for any number
of threads; each interrupt says whether `PollFile` has found the file ready.

* `Stage`: while no character 255 was taken, either the file is polled, or a
  character is buffered, or its end was reached.
* `input_lossless`: no character is lost and the polling goes on while there is
  input, for exactly the inputs with no character 255 before the last one.
  After such a character nobody starts the polling again.

`SynchConsoleOutput` has the shape of `SynchDevice`: `output_in_order`.

Key definitions: `SynchConsoleInput.callBack`, `SynchConsoleInput.getChar`,
`SynchConsoleInput.step`, `SynchConsoleInput.Lossless`.
Key theorems: `SynchConsoleInput.stage_turn`, `SynchConsoleInput.input_lossless`,
`ConsoleOutput.output_in_order`.
-/
import Mathlib
import Nachos.Base.Bytes
import Nachos.Threads.SynchDevice

namespace Nachos
namespace SynchConsoleInput

/-- Where a thread is. -/
inductive Pc
  | out
  /-- in `GetChar`, in the `Acquire` or the `P` -/
  | call
  /-- past the `P` -/
  | passed
  /-- before `Release`, with the character taken -/
  | got (ch : Bytes.Byte)
  deriving DecidableEq

end SynchConsoleInput

/-- `class ConsoleInput` and `class SynchConsoleInput`, the threads, and the
history. -/
structure SynchConsoleInput where
  /-- `lock`; there is no condition -/
  mon : Monitor
  waitFor : Semaphore
  /-- the character buffered, or `EOF` -/
  incoming : Bytes.Byte
  /-- the read interrupts that are scheduled -/
  scheduled : ℕ
  /-- what is left to read in the file -/
  rest : List Bytes.Byte
  pc : Tid → SynchConsoleInput.Pc
  /-- an `ASSERT` has failed -/
  aborted : Bool
  /-- a read has met the end of the file -/
  atEnd : Bool
  /-- the characters read from the file that no `GetChar` has taken yet -/
  buffered : List Bytes.Byte
  /-- the characters taken, and those of the calls that have returned, in order -/
  taken : List Bytes.Byte
  returned : List Bytes.Byte

namespace SynchConsoleInput

/-! ### The code -/

/-- `EOF`, as a character. -/
def eof : Bytes.Byte := 255

/-- `c == EOF` for a signed `char` and the `int` -1. -/
def isEOF (c : Bytes.Byte) : Bool := c.toInt = -1

/-- `ConsoleInput::CallBack`, with `SynchConsoleInput::CallBack`; `ready` is what
`PollFile` says, and a read of a ready file with nothing left meets its end. -/
def callBack (s : SynchConsoleInput) (ready : Bool) : SynchConsoleInput :=
  if ready then
    match s.rest with
    | [] =>
      { s with
        aborted := s.aborted || !isEOF s.incoming
        scheduled := s.scheduled - 1
        atEnd := true
        waitFor := s.waitFor.v.1 }
    | c :: rest =>
      { s with
        aborted := s.aborted || !isEOF s.incoming
        scheduled := s.scheduled - 1
        rest := rest
        incoming := c
        buffered := s.buffered ++ [c]
        waitFor := s.waitFor.v.1 }
  else { s with aborted := s.aborted || !isEOF s.incoming, scheduled := s.scheduled - 1 + 1 }

/-- `ConsoleInput::GetChar`, by thread `t`. -/
def getChar (s : SynchConsoleInput) (t : Tid) : SynchConsoleInput :=
  { s with
    scheduled := if isEOF s.incoming then s.scheduled else s.scheduled + 1
    incoming := eof
    buffered := []
    taken := s.taken ++ [s.incoming]
    pc := Function.update s.pc t (.got s.incoming) }

/-- One pass of the loop of `waitFor->P()`, with the `ASSERT` of
`List::Append`. -/
def waitForP (s : SynchConsoleInput) (t : Tid) : SynchConsoleInput :=
  if (s.waitFor.pTest t).2 then
    { s with waitFor := (s.waitFor.pTest t).1, pc := Function.update s.pc t .passed }
  else { s with
    waitFor := (s.waitFor.pTest t).1, aborted := s.aborted || decide (t ∈ s.waitFor.queue) }

/-- A call of `SynchConsoleInput::GetChar`, `run` for a thread in one, and the
read interrupts. -/
inductive Label
  | getChar (t : Tid)
  | run (t : Tid)
  | interrupt (ready : Bool)
  deriving DecidableEq

def runStep (s : SynchConsoleInput) (t : Tid) : Option SynchConsoleInput :=
  match s.pc t with
  | .out => none
  | .call =>
    if s.mon.pc t = .inside then if t ∈ s.waitFor.queue then none else some (s.waitForP t)
    else (s.mon.step (.run t)).map fun m => { s with mon := m }
  | .passed => some (s.getChar t)
  | .got ch =>
    (s.mon.step (.release t)).map fun m =>
      { s with mon := m, pc := Function.update s.pc t .out, returned := s.returned ++ [ch] }

def step (s : SynchConsoleInput) : Label → Option SynchConsoleInput
  | .getChar t =>
    if s.pc t = .out then
      (s.mon.step (.acquire t)).map fun m => { s with mon := m, pc := Function.update s.pc t .call }
    else none
  | .run t => s.runStep t
  | .interrupt ready => if s.scheduled = 0 then none else some (s.callBack ready)

/-- A new console on a file with the characters `input`. -/
def initial (input : List Bytes.Byte) : SynchConsoleInput where
  mon := Monitor.initial
  waitFor := Semaphore.new 0
  incoming := eof
  scheduled := 1
  rest := input
  pc := fun _ => .out
  aborted := false
  atEnd := false
  buffered := []
  taken := []
  returned := []

/-- The states of the runs on the characters `input`. -/
abbrev Reach (input : List Bytes.Byte) : SynchConsoleInput → Prop :=
  Runs.Reach step (· = initial input) Runs.anyStep

/-- Before the end of the file the calls have returned the characters of the
input in order, and those not returned are in a call's hands, buffered or still
in the file; no `ASSERT` fails; and while there is input and no character is
buffered, the file is polled, and nobody sleeps while one is. -/
structure Lossless (input : List Bytes.Byte) (s : SynchConsoleInput) : Prop where
  order : s.atEnd = false → s.returned <+: s.taken ∧ input = s.taken ++ s.buffered ++ s.rest
  aborted : s.aborted = false ∧ s.mon.aborted = false
  polled : s.rest ≠ [] → s.buffered = [] → 0 < s.scheduled
  awake : s.buffered ≠ [] → s.waitFor.queue = []

/-! ### What a step does -/

variable {input : List Bytes.Byte} {s s' : SynchConsoleInput} {t u : Tid} {l : Label}

theorem isEOF_iff (c : Bytes.Byte) : isEOF c = true ↔ c = eof := by
  have heof : eof.toInt = -1 := rfl
  rw [isEOF, decide_eq_true_eq, ← heof, BitVec.toInt_inj]

theorem isEOF_eof : isEOF eof = true := rfl

theorem isEOF_of_ne {c : Bytes.Byte} (h : c ≠ eof) : isEOF c = false := by
  rw [← Bool.not_eq_true, isEOF_iff]
  exact h

/-- What a step does: of a thread, or of the device (`none`). -/
inductive Turn (s : SynchConsoleInput) : Option Tid → SynchConsoleInput → Prop
  | call (t : Tid) (hpc : s.pc t = .out) : Turn s (some t)
      { s with mon := s.mon.lockP t .acquired .acquiring, pc := Function.update s.pc t .call }
  | inner (t : Tid) (m : Monitor) (hpc : s.pc t = .call) (hm : s.mon.pc t ≠ .inside)
      (hs : s.mon.runStep t = some m) : Turn s (some t) { s with mon := m }
  | pass (t : Tid) (hpc : s.pc t = .call) (hm : s.mon.pc t = .inside) (hv : s.waitFor.value ≠ 0) :
      Turn s (some t)
      { s with
        waitFor := { s.waitFor with value := s.waitFor.value - 1 }
        pc := Function.update s.pc t .passed }
  | asleep (t : Tid) (hpc : s.pc t = .call) (hm : s.mon.pc t = .inside) (hq : t ∉ s.waitFor.queue)
      (hv : s.waitFor.value = 0) : Turn s (some t) { s with waitFor := ⟨0, s.waitFor.queue ++ [t]⟩ }
  | take (t : Tid) (hpc : s.pc t = .passed) : Turn s (some t) (s.getChar t)
  | leave (t : Tid) (ch : Bytes.Byte) (hpc : s.pc t = .got ch) : Turn s (some t)
      { s with
        mon := s.mon.release t .out
        pc := Function.update s.pc t .out
        returned := s.returned ++ [ch] }
  | interrupt (ready : Bool) (hk : s.scheduled ≠ 0) : Turn s none (s.callBack ready)

/-- The thread of a label. -/
def Label.thread : Label → Option Tid
  | .getChar t => some t
  | .run t => some t
  | .interrupt _ => none

/-- Where the place of a thread in its call allows it to be in the monitor. -/
def Fits : Pc → Monitor.Pc → Prop
  | .out, p => p = .out
  | .call, p => p = .acquiring ∨ p = .acquired ∨ p = .inside
  | .passed, p => p = .inside
  | .got _, p => p = .inside

theorem fits_out {k : Pc} {p : Monitor.Pc} (hf : Fits k p) (hk : k = .out) : p = .out := by
  subst hk
  exact hf

theorem turn_run (hf : Fits (s.pc t) (s.mon.pc t)) (hs : s.runStep t = some s') :
    Turn s (some t) s' := by
  unfold runStep at hs
  cases hpc : s.pc t with
  | out =>
    rw [hpc] at hs
    cases hs
  | call =>
    simp only [hpc] at hs
    by_cases hm : s.mon.pc t = .inside
    · rw [if_pos hm] at hs
      split_ifs at hs with hq
      cases hs
      unfold waitForP Semaphore.pTest
      by_cases hv : s.waitFor.value = 0
      · simp only [hv, ↓reduceIte, Bool.false_eq_true, hq, decide_false, Bool.or_false]
        exact Turn.asleep t hpc hm hq hv
      · simp only [hv, ↓reduceIte]
        exact Turn.pass t hpc hm hv
    · rw [if_neg hm] at hs
      obtain ⟨m, hm', rfl⟩ := Option.map_eq_some_iff.mp hs
      exact Turn.inner t m hpc hm hm'
  | passed =>
    simp only [hpc, Option.some.injEq] at hs
    exact hs ▸ Turn.take t hpc
  | got ch =>
    have hm : s.mon.pc t = .inside := by
      rw [hpc] at hf
      exact hf
    have hrel : s.mon.step (.release t) = some (s.mon.release t .out) := if_pos (Or.inr hm)
    simp only [hpc, hrel, Option.map_some, Option.some.injEq] at hs
    exact hs ▸ Turn.leave t ch hpc

theorem step_cases (hf : ∀ t, Fits (s.pc t) (s.mon.pc t)) (hs : s.step l = some s') :
    Turn s l.thread s' := by
  cases l with
  | getChar t =>
    simp only [step] at hs
    split_ifs at hs with hpc
    have hout : s.mon.pc t = .out := fits_out (hf t) hpc
    have hacq : s.mon.step (.acquire t) = some (s.mon.lockP t .acquired .acquiring) := if_pos hout
    simp only [hacq, Option.map_some, Option.some.injEq] at hs
    exact hs ▸ Turn.call t hpc
  | run t => exact turn_run (hf t) hs
  | interrupt ready =>
    simp only [step] at hs
    split_ifs at hs with hk
    exact Option.some.inj hs ▸ Turn.interrupt ready hk

/-! ### The lock -/

/-- Past the `P` and before the `Release`. -/
def Pc.past : Pc → Bool
  | .out | .call => false
  | .passed | .got _ => true

theorem fits_past {k : Pc} {p : Monitor.Pc} (hf : Fits k p) (hk : k.past = true) : p = .inside := by
  cases k with
  | out | call => cases hk
  | passed | got => exact hf

/-- What the turn is for the lock: nothing, or one of its steps, made with
discipline. -/
theorem Turn.monitor {o : Option Tid} (hf : ∀ t, Fits (s.pc t) (s.mon.pc t)) (ht : Turn s o s') :
    s'.mon = s.mon ∨ ∃ l, some l.thread = o ∧ Monitor.Disciplined s.mon l ∧
    s.mon.step l = some s'.mon := by
  cases ht with
  | call t hpc =>
    have hout : s.mon.pc t = .out := fits_out (hf t) hpc
    exact Or.inr ⟨.acquire t, rfl, trivial, if_pos hout⟩
  | inner t m hpc hm hs => exact Or.inr ⟨.run t, rfl, trivial, hs⟩
  | leave t ch hpc =>
    have hm : s.mon.pc t = .inside := fits_past (hf t) (by rw [hpc]; rfl)
    exact Or.inr ⟨.release t, rfl, hm, if_pos (Or.inr hm)⟩
  | pass | asleep | take => exact Or.inl rfl
  | interrupt ready hk =>
    refine Or.inl ?_
    unfold callBack
    split_ifs
    · split <;> rfl
    · rfl

theorem Turn.other_mon {o : Option Tid} (hf : ∀ t, Fits (s.pc t) (s.mon.pc t)) (ht : Turn s o s')
    (hu : o ≠ some u) :
    s'.mon.pc u = s.mon.pc u := by
  rcases ht.monitor hf with h | ⟨l, hl, hd, hs⟩
  · rw [h]
  · refine Monitor.turn_other (Monitor.step_cases hd hs) fun he => hu ?_
    rw [he, hl]

theorem callBack_pc (s : SynchConsoleInput) (ready : Bool) : (s.callBack ready).pc = s.pc := by
  unfold callBack
  split_ifs
  · split <;> rfl
  · rfl

theorem Turn.other {o : Option Tid} (ht : Turn s o s') (hu : o ≠ some u) : s'.pc u = s.pc u := by
  have hne : ∀ t, some t ≠ some u → u ≠ t := fun t h he => h (by rw [he])
  cases ht with
  | inner | asleep => rfl
  | call t | pass t | take t | leave t => exact Function.update_of_ne (hne t hu) _ _
  | interrupt ready => rw [callBack_pc]

theorem fits_turn {o : Option Tid} (hf : ∀ t, Fits (s.pc t) (s.mon.pc t))
    (ht : Turn s o s') (u : Tid) :
    Fits (s'.pc u) (s'.mon.pc u) := by
  by_cases hu : o = some u
  · cases ht with
    | call t hpc =>
      cases hu
      simp only [Function.update_self]
      exact Monitor.lockP_entering s.mon u
    | inner t m hpc hm hs =>
      cases hu
      have hfu := hf u
      simp only [hpc] at hfu ⊢
      exact Monitor.run_entering hfu hm hs
    | pass t hpc hm hv =>
      cases hu
      simp only [Function.update_self]
      exact hm
    | asleep t hpc hm hq hv => exact hf u
    | take t hpc =>
      cases hu
      simp only [getChar, Function.update_self]
      exact fits_past (hf u) (by rw [hpc]; rfl)
    | leave t ch hpc =>
      cases hu
      simp only [Function.update_self]
      exact Function.update_self _ _ _
    | interrupt ready hk => cases hu
  · rw [ht.other hu, ht.other_mon hf hu]
    exact hf u

theorem fits_reach (hr : Reach input s) (t : Tid) : Fits (s.pc t) (s.mon.pc t) := by
  refine hr.inv (fun s => ∀ t, Fits (s.pc t) (s.mon.pc t)) ?_ (fun s l s' _ hf _ hs => ?_) t
  · intro s hs t
    rw [hs]
    exact rfl
  · exact fits_turn hf (step_cases hf hs)

/-- The lock is used with discipline. -/
theorem monitor_reach (hr : Reach input s) : Monitor.Reach s.mon := by
  refine hr.map SynchConsoleInput.mon (fun s hs => by rw [hs]; rfl) fun s l s' hr _ hs => ?_
  have hf := fits_reach hr
  rcases (step_cases hf hs).monitor hf with h | ⟨l', -, hd', hs'⟩
  · exact Or.inl h
  · exact Or.inr ⟨l', hd', hs'⟩

/-- One thread at most has the lock. -/
theorem inside_unique (hr : Reach input s) (ht : s.mon.pc t = .inside) (hu : s.mon.pc u = .inside) :
    t = u :=
  (Monitor.inv_reach (monitor_reach hr)).lock.excl t u (by rw [ht]; rfl) (by rw [hu]; rfl)

/-! ### The stages of a character -/

/-- Nobody is in the queue of the semaphore but perhaps the thread with the
lock. -/
def AtP (s : SynchConsoleInput) : Prop :=
  s.waitFor.queue = [] ∨ ∃ t, s.waitFor.queue = [t] ∧ s.pc t = .call ∧ s.mon.pc t = .inside

/-- Where the next character is. -/
inductive Stage (s : SynchConsoleInput) : Prop
  /-- not read yet: the file is polled -/
  | polling (hno : ∀ t, s.pc t ≠ .passed) (hsch : s.scheduled = 1) (hv : s.waitFor.value = 0)
      (hq : AtP s) (hin : s.incoming = eof) (hbuf : s.buffered = [])
  /-- read, and no call is past its `P` -/
  | buffered (c : Bytes.Byte) (hno : ∀ t, s.pc t ≠ .passed) (hsch : s.scheduled = 0)
      (hsem : s.waitFor = ⟨1, []⟩)
      (hin : s.incoming = c) (hbuf : s.buffered = [c])
  /-- read, and thread `t` is about to take it -/
  | passed (t : Tid) (c : Bytes.Byte) (hpc : s.pc t = .passed) (hsch : s.scheduled = 0)
      (hsem : s.waitFor = ⟨0, []⟩)
      (hin : s.incoming = c) (hbuf : s.buffered = [c])
  /-- there is none, and nobody polls any more -/
  | ended (hrest : s.rest = []) (hsch : s.scheduled = 0) (hin : s.incoming = eof)
      (hbuf : s.buffered = [])
      (hend : s.atEnd = true ∨ s.waitFor.value = 0 ∧ ∀ t, s.pc t ≠ .passed)

/-- The stage is read from the device, the semaphore, the thread past the `P`
and the one in the queue. -/
theorem Stage.frame (h : Stage s) (hpc : ∀ u, s'.pc u = .passed ↔ s.pc u = .passed)
    (hq : ∀ u, s.pc u = .call → s.mon.pc u = .inside → s'.pc u = .call ∧ s'.mon.pc u = .inside)
    (hsem : s'.waitFor = s.waitFor) (hin : s'.incoming = s.incoming)
    (hsch : s'.scheduled = s.scheduled) (hrest : s'.rest = s.rest) (hend : s'.atEnd = s.atEnd)
    (hbuf : s'.buffered = s.buffered) : Stage s' := by
  have hnone : (∀ t, s.pc t ≠ .passed) → ∀ t, s'.pc t ≠ .passed := fun h t ht => h t ((hpc t).mp ht)
  have hatP : AtP s → AtP s' := fun h => by
    unfold AtP
    rw [hsem]
    exact h.imp_right fun ⟨t, h1, h2, h3⟩ => ⟨t, h1, hq t h2 h3⟩
  cases h with
  | polling h1 h2 h3 h4 h5 h6 =>
    exact Stage.polling (hnone h1) (hsch.trans h2) (hsem ▸ h3) (hatP h4) (hin.trans h5)
      (hbuf.trans h6)
  | buffered c h1 h2 h3 h4 h5 =>
    exact Stage.buffered c (hnone h1) (hsch.trans h2) (hsem.trans h3) (hin.trans h4) (hbuf.trans h5)
  | passed t c h1 h2 h3 h4 h5 =>
    exact Stage.passed t c ((hpc t).mpr h1) (hsch.trans h2) (hsem.trans h3) (hin.trans h4)
      (hbuf.trans h5)
  | ended h1 h2 h3 h4 h5 =>
    refine Stage.ended (hrest.trans h1) (hsch.trans h2) (hin.trans h3) (hbuf.trans h4) ?_
    rw [hend, hsem]
    exact h5.imp_right fun h => ⟨h.1, hnone h.2⟩

/-- A character is taken. Only after the character 255 is the polling not
started again. -/
theorem stage_take (h : Stage s) (hpc : s.pc t = .passed) (hx : ∀ u, s.pc u = .passed → u = t)
    (hgood : ∀ c, s.buffered = [c] → s.rest ≠ [] → c ≠ eof) : Stage (s.getChar t) := by
  have hnone : ∀ u, (s.getChar t).pc u ≠ .passed := fun u hu => by
    by_cases hut : u = t
    · rw [hut] at hu
      simp [getChar] at hu
    · simp only [getChar, Function.update_of_ne hut] at hu
      exact hut (hx u hu)
  cases h with
  | polling h1 => exact absurd hpc (h1 t)
  | buffered c h1 => exact absurd hpc (h1 t)
  | passed u c h1 hsch hsem hin hbuf =>
    by_cases hc : c = eof
    · have hrest : s.rest = [] := by
        by_contra hne
        exact hgood c hbuf hne hc
      refine Stage.ended hrest ?_ rfl rfl (Or.inr ⟨by simp [getChar, hsem], hnone⟩)
      simp [getChar, hin, hc, isEOF_eof, hsch]
    · refine Stage.polling hnone ?_ (by simp [getChar, hsem]) (Or.inl (by simp [getChar, hsem]))
        rfl rfl
      simp [getChar, hin, isEOF_of_ne hc, hsch]
  | ended hrest hsch hin hbuf hend =>
    refine Stage.ended hrest ?_ rfl rfl (Or.inl (hend.resolve_right fun h => h.2 t hpc))
    simp [getChar, hin, isEOF_eof, hsch]

/-- The interrupt: of the stages only `polling` has one to come. -/
theorem stage_interrupt (h : Stage s) (hk : s.scheduled ≠ 0) (ready : Bool) :
    Stage (s.callBack ready) := by
  cases h with
  | polling hno hsch hv hq hin hbuf =>
    have hqueue : s.waitFor.queue.tail = [] := by
      rcases hq with hq | ⟨t, hq, -⟩ <;> rw [hq] <;> rfl
    unfold callBack
    split_ifs with hr
    · split
      · rename_i hrest
        exact Stage.ended hrest (by simp [hsch]) hin hbuf (Or.inl rfl)
      · rename_i c rest hrest
        refine Stage.buffered c hno (by simp [hsch]) ?_ rfl (by simp [hbuf])
        simp [Semaphore.v, hv, hqueue]
    · exact Stage.polling hno (by simp [hsch]) hv hq hin hbuf
  | buffered c hno hsch => exact absurd hsch hk
  | passed t c hpc hsch => exact absurd hsch hk
  | ended hrest hsch => exact absurd hsch hk

/-- The thread with the lock passes the `P` or joins the queue. -/
theorem stage_pass (h : Stage s) (hv : s.waitFor.value ≠ 0) :
    Stage
      { s with
        waitFor := { s.waitFor with value := s.waitFor.value - 1 }
        pc := Function.update s.pc t .passed } := by
  cases h with
  | polling hno hsch hv0 => exact absurd hv0 hv
  | buffered c hno hsch hsem hin hbuf =>
    refine Stage.passed t c (Function.update_self _ _ _) hsch ?_ hin hbuf
    simp [hsem]
  | passed u c hpc hsch hsem =>
    rw [hsem] at hv
    exact absurd rfl hv
  | ended hrest hsch hin hbuf hend =>
    exact Stage.ended hrest hsch hin hbuf (Or.inl (hend.resolve_right fun h => hv h.1))

theorem stage_asleep (h : Stage s) (hpc : s.pc t = .call) (hm : s.mon.pc t = .inside)
    (hq : t ∉ s.waitFor.queue) (hv : s.waitFor.value = 0) (hx : ∀ u, s.mon.pc u = .inside → u = t)
    (hf : ∀ t, Fits (s.pc t) (s.mon.pc t)) :
    Stage { s with waitFor := ⟨0, s.waitFor.queue ++ [t]⟩ } := by
  cases h with
  | polling hno hsch _ hatP hin hbuf =>
    have hempty : s.waitFor.queue = [] := by
      rcases hatP with he | ⟨u, he, -, hu⟩
      · exact he
      · rw [he, hx u hu] at hq
        exact absurd (List.mem_singleton_self t) hq
    exact Stage.polling hno hsch rfl (Or.inr ⟨t, by simp [hempty], hpc, hm⟩) hin hbuf
  | buffered c hno hsch hsem =>
    rw [hsem] at hv
    cases hv
  | passed u c hpu =>
    have hut : u = t := hx u (fits_past (hf u) (by rw [hpu]; rfl))
    rw [hut, hpc] at hpu
    cases hpu
  | ended hrest hsch hin hbuf hend =>
    exact Stage.ended hrest hsch hin hbuf (hend.imp_right fun h => ⟨rfl, h.2⟩)

theorem stage_turn {o : Option Tid} (h : Stage s) (hf : ∀ t, Fits (s.pc t) (s.mon.pc t))
    (hx : ∀ t u, s.mon.pc t = .inside → s.mon.pc u = .inside → t = u)
    (hgood : ∀ c, s.buffered = [c] → s.rest ≠ [] → c ≠ eof) (ht : Turn s o s') : Stage s' := by
  -- a step of a thread that has not the lock does not move the one that has
  have hother : ∀ t, o = some t → s.mon.pc t ≠ .inside → ∀ u, s.pc u = .call →
      s.mon.pc u = .inside →
      s'.pc u = .call ∧ s'.mon.pc u = .inside := fun t ho hm u hu1 hu2 => by
    have hne : o ≠ some u := fun he => by
      rw [Option.some.inj (ho.symm.trans he)] at hm
      exact hm hu2
    rw [ht.other hne, ht.other_mon hf hne]
    exact ⟨hu1, hu2⟩
  cases ht with
  | call t hpc =>
    have hm : s.mon.pc t ≠ .inside := by
      have := hf t
      rw [hpc] at this
      rw [show s.mon.pc t = .out from this]
      decide
    refine h.frame (fun u => ?_) (hother t rfl hm) rfl rfl rfl rfl rfl rfl
    by_cases hu : u = t
    · simp [hu, hpc]
    · simp [Function.update_of_ne hu]
  | inner t m hpc hm hs =>
    exact h.frame (fun _ => Iff.rfl) (hother t rfl hm) rfl rfl rfl rfl rfl rfl
  | pass t hpc hm hv => exact stage_pass h hv
  | asleep t hpc hm hq hv => exact stage_asleep h hpc hm hq hv (fun u hu => hx u t hu hm) hf
  | take t hpc =>
    have hm : s.mon.pc t = .inside := fits_past (hf t) (by rw [hpc]; rfl)
    exact stage_take h hpc (fun u hu => hx u t (fits_past (hf u) (by rw [hu]; rfl)) hm) hgood
  | leave t ch hpc =>
    have hm : s.mon.pc t = .inside := fits_past (hf t) (by rw [hpc]; rfl)
    refine h.frame (fun u => ?_) (fun u hu1 hu2 => ?_) rfl rfl rfl rfl rfl rfl
    · by_cases hu : u = t
      · simp [hu, hpc]
      · simp [Function.update_of_ne hu]
    · have hut : u = t := hx u t hu2 hm
      rw [hut, hpc] at hu1
      cases hu1
  | interrupt ready hk => exact stage_interrupt h hk ready

/-! ### Every run -/

/-- The character of the call that is before its `Release`. -/
def InHand (s : SynchConsoleInput) : Prop :=
  (∃ t ch, s.pc t = .got ch ∧ s.taken = s.returned ++ [ch]) ∨ (∀ t ch, s.pc t ≠ .got ch) ∧
    s.taken = s.returned

/-- What every step keeps. -/
structure Inv (input : List Bytes.Byte) (s : SynchConsoleInput) : Prop where
  stage : Stage s
  order : s.atEnd = false → input = s.taken ++ s.buffered ++ s.rest
  ends : s.atEnd = true → s.rest = []
  hand : InHand s
  aborted : s.aborted = false

theorem inv_initial (input : List Bytes.Byte) : Inv input (initial input) where
  stage := Stage.polling (fun _ h => by cases h) rfl rfl (Or.inl rfl) rfl rfl
  order _ := by simp [initial]
  ends h := by cases h
  hand := Or.inr ⟨fun t ch h => (by cases h), rfl⟩
  aborted := rfl

/-- A character that is not the last of the input is not 255. -/
theorem Inv.good (h : Inv input s) (hgood : ∀ b ∈ input.dropLast, b ≠ eof) (c : Bytes.Byte)
    (hbuf : s.buffered = [c]) (hrest : s.rest ≠ []) : c ≠ eof := by
  have hend : s.atEnd = false := by
    by_contra hne
    exact hrest (h.ends (by simpa using hne))
  refine hgood c ?_
  rw [h.order hend, hbuf, List.dropLast_append_of_ne_nil hrest]
  simp

/-- Nobody is between `GetChar` of the device and the `Release` when the thread
with the lock is not. -/
theorem InHand.none (h : InHand s) (hpc : ∀ ch, s.pc t ≠ .got ch)
    (hx : ∀ u, (s.pc u).past = true → u = t) :
    (∀ u ch, s.pc u ≠ .got ch) ∧ s.taken = s.returned := by
  refine h.resolve_left ?_
  rintro ⟨u, ch, hu, -⟩
  have hut := hx u (by rw [hu]; rfl)
  rw [hut] at hu
  exact hpc ch hu

theorem InHand.frame (h : InHand s) (hpc : ∀ u ch, s'.pc u = .got ch ↔ s.pc u = .got ch)
    (ht : s'.taken = s.taken) (hr : s'.returned = s.returned) : InHand s' := by
  unfold InHand
  rw [ht, hr]
  refine h.imp (fun ⟨t, ch, h1, h2⟩ => ⟨t, ch, (hpc t ch).mpr h1, h2⟩) fun ⟨h1, h2⟩ =>
    ⟨fun t ch h => ?_, h2⟩
  exact h1 t ch ((hpc t ch).mp h)

theorem inv_take (h : Inv input s) (hst : Stage (s.getChar t)) (hpc : s.pc t = .passed)
    (hx : ∀ u, (s.pc u).past = true → u = t) : Inv input (s.getChar t) := by
  have hnone := h.hand.none (fun ch he => by rw [hpc] at he; cases he) hx
  refine
    { stage := hst
      order := fun hend => ?_
      ends := h.ends
      hand := Or.inl ⟨t, s.incoming, Function.update_self _ _ _, ?_⟩
      aborted := h.aborted }
  · have horder := h.order hend
    cases h.stage with
    | polling h1 => exact absurd hpc (h1 t)
    | buffered c h1 => exact absurd hpc (h1 t)
    | passed u c h1 hsch hsem hin hbuf =>
      rw [hbuf] at horder
      simpa [getChar, hin] using horder
    | ended hrest hsch hin hbuf he =>
      have hend' : s.atEnd = false := hend
      rcases he with he | he
      · rw [hend'] at he
        cases he
      · exact absurd hpc (he.2 t)
  · simp only [getChar]
    rw [hnone.2]

theorem inv_leave (h : Inv input s) {ch : Bytes.Byte} (hpc : s.pc t = .got ch)
    (hx : ∀ u, (s.pc u).past = true → u = t) (hst : Stage s') (hs : s' = { s with
      mon := s.mon.release t .out
      pc := Function.update s.pc t .out
      returned := s.returned ++ [ch] }) : Inv input s' := by
  subst hs
  refine
    { stage := hst, order := h.order, ends := h.ends, hand := Or.inr ⟨fun u ch' hu => ?_, ?_⟩,
      aborted := h.aborted }
  · by_cases hut : u = t
    · rw [hut] at hu
      simp at hu
    · simp only [Function.update_of_ne hut] at hu
      exact hut (hx u (by rw [hu]; rfl))
  · rcases h.hand with ⟨u, ch', hu, ht⟩ | ⟨hno, -⟩
    · have hut := hx u (by rw [hu]; rfl)
      rw [hut, hpc] at hu
      cases hu
      exact ht
    · exact absurd hpc (hno t ch)

theorem inv_interrupt (h : Inv input s) (hk : s.scheduled ≠ 0) (ready : Bool)
    (hst : Stage (s.callBack ready)) :
    Inv input (s.callBack ready) := by
  have hstage : s.incoming = eof ∧ s.buffered = [] := by
    cases h.stage with
    | polling _ _ _ _ hin hbuf => exact ⟨hin, hbuf⟩
    | buffered _ _ hsch | passed _ _ _ hsch | ended _ hsch => exact absurd hsch hk
  obtain ⟨hin, hbuf⟩ := hstage
  refine { stage := hst, order := ?_, ends := ?_, hand := ?_, aborted := ?_ }
  · unfold callBack
    split_ifs
    · split
      · intro he
        cases he
      · rename_i c rest hrest
        intro he
        have := h.order he
        rw [hbuf, hrest] at this
        simpa [hbuf] using this
    · exact h.order
  · unfold callBack
    split_ifs
    · split
      · rename_i hrest
        exact fun _ => hrest
      · rename_i c rest hrest
        intro he
        have := h.ends he
        rw [hrest] at this
        cases this
    · exact h.ends
  · refine h.hand.frame (fun u ch => by rw [callBack_pc]) ?_ ?_
    · unfold callBack
      split_ifs
      · split <;> rfl
      · rfl
    · unfold callBack
      split_ifs
      · split <;> rfl
      · rfl
  · have hassert : (s.aborted || !isEOF s.incoming) = false := by
      rw [hin, h.aborted]
      rfl
    unfold callBack
    split_ifs
    · split <;> exact hassert
    · exact hassert

theorem inv_turn {o : Option Tid} (hgood : ∀ b ∈ input.dropLast, b ≠ eof) (h : Inv input s)
    (hf : ∀ t, Fits (s.pc t) (s.mon.pc t))
    (hx : ∀ t u, s.mon.pc t = .inside → s.mon.pc u = .inside → t = u) (ht : Turn s o s') :
    Inv input s' := by
  have hst := stage_turn h.stage hf hx (h.good hgood) ht
  have hown : ∀ t, (s.pc t).past = true → ∀ u, (s.pc u).past = true → u = t := fun t ht u hu =>
    hx u t (fits_past (hf u) hu) (fits_past (hf t) ht)
  cases ht with
  | call t hpc =>
    refine { h with
      stage := hst, hand := h.hand.frame (fun u ch => Runs.update_eq_iff ?_ ?_) rfl rfl }
    · rw [hpc]
      simp
    · simp
  | inner t m hpc hm hs =>
    exact { h with stage := hst, hand := h.hand.frame (fun _ _ => Iff.rfl) rfl rfl }
  | pass t hpc hm hv =>
    refine { h with
      stage := hst, hand := h.hand.frame (fun u ch => Runs.update_eq_iff ?_ ?_) rfl rfl }
    · rw [hpc]
      simp
    · simp
  | asleep t hpc hm hq hv =>
    exact { h with stage := hst, hand := h.hand.frame (fun _ _ => Iff.rfl) rfl rfl }
  | take t hpc => exact inv_take h hst hpc (hown t (by rw [hpc]; rfl))
  | leave t ch hpc => exact inv_leave h hpc (hown t (by rw [hpc]; rfl)) hst rfl
  | interrupt ready hk => exact inv_interrupt h hk ready hst

theorem inv_reach (hgood : ∀ b ∈ input.dropLast, b ≠ eof) (hr : Reach input s) : Inv input s := by
  refine hr.inv (Inv input) ?_ fun s l s' hr h _ hs => ?_
  · intro s hs
    rw [hs]
    exact inv_initial input
  · have hf := fits_reach hr
    exact inv_turn hgood h hf (fun t u => inside_unique hr) (step_cases hf hs)

theorem Inv.lossless (h : Inv input s) (hm : s.mon.aborted = false) : Lossless input s := by
  refine { order := fun hend => ⟨?_, h.order hend⟩, aborted := ⟨h.aborted, hm⟩,
           polled := fun hrest hbuf => ?_, awake := fun hbuf => ?_ }
  · rcases h.hand with ⟨t, ch, -, ht⟩ | ⟨-, ht⟩
    · exact ⟨_, ht.symm⟩
    · exact ht ▸ List.prefix_rfl
  · cases h.stage with
    | polling _ hsch => omega
    | buffered c _ _ _ _ hbuf' | passed _ c _ _ _ _ hbuf' =>
      rw [hbuf] at hbuf'
      cases hbuf'
    | ended hrest' => exact absurd hrest' hrest
  · cases h.stage with
    | polling _ _ _ _ _ hbuf' | ended _ _ _ hbuf' => exact absurd hbuf' hbuf
    | buffered _ _ _ hsem | passed _ _ _ _ hsem => rw [hsem]

/-! ### The character 255 -/

/-- The calls of one thread have read the characters `done`, and `rest` is left. -/
def quiet (done rest : List Bytes.Byte) : SynchConsoleInput :=
  { initial rest with taken := done, returned := done }

/-- The steps of a call of `GetChar` by thread 1 that meets an interrupt, up to
its `Release`. -/
def oneCall : List Label := [.getChar 1, .run 1, .interrupt true, .run 1, .run 1]

/-- Where they end: the polling goes on unless the character was 255. -/
def afterCall (done rest : List Bytes.Byte) (c : Bytes.Byte) : SynchConsoleInput :=
  { quiet done rest with
    mon := (Monitor.initial.lockP 1 .acquired .acquiring).setHolder 1
    pc := Function.update (fun _ => .out) 1 (.got c)
    scheduled := if isEOF c then 0 else 1
    taken := done ++ [c] }

theorem exec_oneCall (done rest : List Bytes.Byte) (c : Bytes.Byte) :
    Runs.exec step (quiet done (c :: rest)) oneCall = some (afterCall done rest c) := by
  simp [Runs.exec, oneCall, step, runStep, quiet, initial, Monitor.step, Monitor.initial,
    Monitor.runStep, Monitor.lockP, Monitor.setPc, Monitor.setHolder, Semaphore.new,
    Semaphore.pTest, Semaphore.v, callBack, waitForP, getChar, afterCall, isEOF_eof]

theorem step_release (done rest : List Bytes.Byte) {c : Bytes.Byte} (hc : c ≠ eof) :
    (afterCall done rest c).step (.run 1) = some (quiet (done ++ [c]) rest) := by
  simp [step, runStep, afterCall, quiet, initial, Monitor.step, Monitor.initial, Monitor.lockP,
    Monitor.setPc, Monitor.setHolder, Monitor.release, Monitor.assert, Semaphore.new,
    Semaphore.pTest, Semaphore.v, isEOF_of_ne hc]

/-- One thread can read on as long as there is no character 255. -/
theorem reach_quiet (done rest : List Bytes.Byte) (h : ∀ b ∈ done, b ≠ eof) :
    Reach (done ++ rest) (quiet done rest) := by
  induction done using List.reverseRecOn generalizing rest with
  | nil => exact Runs.Reach.init rfl
  | append_singleton done c ih =>
    have hr := ih (c :: rest) fun b hb => h b (List.mem_append_left _ hb)
    have hcall := hr.exec oneCall (Runs.along_any _ _) (exec_oneCall done rest c)
    rw [List.append_assoc, List.singleton_append]
    exact Runs.Reach.step (.run 1) hcall trivial (step_release done rest (h c (by simp)))

/-- **Console input is lossless for the inputs without a character 255 before
the last one, and for no others.** -/
theorem input_lossless (input : List Bytes.Byte) :
    (∀ s, Reach input s → Lossless input s) ↔ ∀ b ∈ input.dropLast, b ≠ eof := by
  constructor
  · intro h b hb he
    subst he
    -- up to the first such character one thread reads alone
    obtain ⟨done, post, hsplit, hdone⟩ := List.eq_append_cons_of_mem hb
    have hne : input ≠ [] := fun hnil => by
      rw [hnil] at hb
      cases hb
    set rest := post ++ [input.getLast hne] with hrest
    have hinput : input = done ++ eof :: rest := by
      rw [hrest, ← List.cons_append, ← List.append_assoc, ← hsplit, List.dropLast_append_getLast]
    have hr := reach_quiet done (eof :: rest) fun b hb he => hdone (he ▸ hb)
    rw [← hinput] at hr
    have hbad := h _ (hr.exec oneCall (Runs.along_any _ _) (exec_oneCall done rest eof))
    have := hbad.polled (by simp [afterCall, quiet, initial, hrest]) rfl
    simp [afterCall, isEOF_eof] at this
  · intro hgood s hr
    exact (inv_reach hgood hr).lossless (Monitor.inv_reach (monitor_reach hr)).aborted

/-- With the input 255, 65 the character 65 is never read. -/
theorem input_lossless_stuck : ∃ s, Reach [255, 65] s ∧ ¬ Lossless [255, 65] s := by
  obtain ⟨s, hs, ht⟩ :=
    Runs.Reach.of_exec step (· = initial [255, 65]) rfl oneCall (Runs.along_any _ _)
    (fun s => s.rest = [65] ∧ s.buffered = [] ∧ s.scheduled = 0) (by decide)
  simp only [decide_eq_true_eq] at ht
  obtain ⟨hrest, hbuf, hsch⟩ := ht
  refine ⟨s, hs, fun h => ?_⟩
  have := h.polled (by rw [hrest]; simp) hbuf
  omega

end SynchConsoleInput

/-- `class ConsoleOutput`: the host file and the flag. -/
structure ConsoleOutput where
  writeFileNo : List Bytes.Byte
  putBusy : Bool

namespace ConsoleOutput

/-- `ConsoleOutput::PutChar` and `ConsoleOutput::CallBack`. -/
def device : Device ConsoleOutput Bytes.Byte Unit where
  ok x _ := !x.putBusy
  request x ch := ({ writeFileNo := x.writeFileNo ++ [ch], putBusy := true }, ())
  callBack x := { x with putBusy := false }

def new : ConsoleOutput := ⟨[], false⟩

theorem after_new (rs : List Bytes.Byte) : device.after new rs = ⟨rs, false⟩ := by
  induction rs using List.reverseRecOn with
  | nil => rfl
  | append_singleton rs r ih =>
    rw [device.after_concat, ih]
    rfl

/-- `SynchConsoleOutput::PutChar` by any number of threads: no `ASSERT` fails,
and the display shows the characters whose `PutChar` was made, in that order. -/
theorem output_in_order {s : SynchDevice ConsoleOutput Bytes.Byte Unit}
    (hr : SynchDevice.Reach device new (fun _ => True) s) :
    SynchDevice.Synchronous device new s ∧ s.dev.writeFileNo = s.issued.map Prod.fst := by
  have hok : ∀ rs r, (∀ r' ∈ rs, True) → True →
      device.ok (device.after new rs) r = true := fun rs r _ _ => by
    rw [after_new]
    rfl
  refine ⟨SynchDevice.synchronous hok hr, ?_⟩
  cases SynchDevice.stage_reach hr with
  | idle _ _ hdev | ready _ _ _ _ _ _ _ hdev | done _ _ _ _ _ _ _ hdev => rw [hdev.2, after_new]
  | busy t k r a pre hpc hlast hk hv hq hsch hdev =>
    rw [hdev, hlast, after_new]
    simp [device]

end ConsoleOutput
end Nachos
