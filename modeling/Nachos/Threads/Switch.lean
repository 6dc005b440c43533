/-
# The context switch (`threads/switch.S`, `Thread::StackAllocate`)

`SWITCH` saves the registers of the old thread in its object and loads those of
the new one, on an x86. It jumps with `ret`, to the word at the top of the new
thread's stack; the `PC` it has saved goes to the place of its own argument.
`StackAllocate` prepares the object and the stack of a new thread so that the
first `SWITCH` to it goes to `ThreadRoot`.

The threads run any code of their own between the switches. What they must leave
alone are the object and the stack of a thread that is not running; `new` and
`delete` may give any other memory away.

Key definitions: `Switch.SWITCH`, `Switch.ThreadRoot`, `Switch.stackAllocate`, `Switch.step`,
`Switch.Allowed`, `Switch.Inv`.
Key theorems: `Switch.steps_SWITCH`, `Switch.switch_resumes`, `Switch.fork_calls`.
-/
import Mathlib
import Nachos.Base.Runs
import Nachos.Base.X86
import Nachos.Threads.Semaphore

namespace Nachos

open X86 (Word Reg Instr State Code Aligned)

namespace Switch

/-! ### The code -/

/-- `_ESP`, `_EAX`, …: where a register is saved in the thread object. -/
def offset : Reg → Word
  | .esp => 0
  | .eax => 4
  | .ebx => 8
  | .ecx => 12
  | .edx => 16
  | .ebp => 20
  | .esi => 24
  | .edi => 28

/-- `_PC`. -/
def pcOffset : Word := 32

/-- `movl r,_R(%eax)`. -/
def saveReg (r : Reg) : Instr := .store r (.based (offset r) .eax)

/-- `movl _R(%eax),r`. -/
def loadReg (r : Reg) : Instr := .load (.based (offset r) .eax) r

/-- `SWITCH`, to where it has saved the old thread; `eaxSave` is the variable `_eax_save`. -/
def saveOld (eaxSave : Word) : List Instr :=
  [.store .eax (.abs eaxSave), .load (.based 4 .esp) .eax,
    saveReg .ebx, saveReg .ecx, saveReg .edx, saveReg .esi, saveReg .edi, saveReg .ebp,
    saveReg .esp, .load (.abs eaxSave) .ebx, .store .ebx (.based (offset .eax) .eax),
    .load (.based 0 .esp) .ebx, .store .ebx (.based pcOffset .eax), .load (.based 8 .esp) .eax]

/-- `SWITCH` with the new thread's object in `eax`. -/
def loadNew (eaxSave : Word) : List Instr :=
  [.load (.based (offset .eax) .eax) .ebx, .store .ebx (.abs eaxSave),
    loadReg .ebx, loadReg .ecx, loadReg .edx, loadReg .esi, loadReg .edi, loadReg .ebp,
    loadReg .esp, .load (.based pcOffset .eax) .eax, .store .eax (.based 4 .esp),
    .load (.abs eaxSave) .eax]

def SWITCH (eaxSave : Word) : List Instr := saveOld eaxSave ++ loadNew eaxSave ++ [.ret]

/-- `StartupPC` is `ecx`, `InitialPC` is `esi`, `InitialArg` is `edx` and `WhenDonePC` is `edi`. -/
def ThreadRoot : List Instr :=
  [.push .ebp, .move .esp .ebp, .push .edx, .call .ecx, .call .esi, .call .edi, .move .ebp .esp,
    .pop .ebp, .ret]

variable {eaxSave o : Word} {s s' : State}

theorem aligned_offset (h : Aligned o) (r : Reg) : Aligned (o + offset r) :=
  h.add (by cases r <;> decide)

theorem aligned_pcOffset (h : Aligned o) : Aligned (o + pcOffset) := h.add (by decide)

theorem offset_injective : Function.Injective offset := by
  intro r r' h
  cases r <;> cases r' <;> first | rfl | exact absurd h (by decide)

theorem offset_ne_pcOffset (o : Word) (r : Reg) : o + offset r ≠ o + pcOffset := by
  intro h
  rw [BitVec.add_right_inj] at h
  cases r <;> exact absurd h (by decide)

/-! ### What `SWITCH` does -/

/-- A word that is no part of the object at `o` that `SWITCH` uses. -/
structure Beside (o a : Word) : Prop where
  reg : ∀ r, a ≠ o + offset r
  pc : a ≠ o + pcOffset

/-- `s'` is behind `saveOld` from `s`, the old thread's object is at `o`. -/
structure Saved (eaxSave o : Word) (s s' : State) : Prop where
  regs : ∀ r, s'.mem (o + offset r) = s.reg r
  pc : s'.mem (o + pcOffset) = s.mem (s.reg .esp)
  other : ∀ a, Beside o a → a ≠ eaxSave → s'.mem a = s.mem a
  eax : s'.reg .eax = s.mem (s.reg .esp + 8)

theorem effects_saveOld (ho : s.mem (s.reg .esp + 4) = o) (ha : Aligned o)
    (hesp : Aligned (s.reg .esp)) (hv : Aligned eaxSave) (hsave : Beside o eaxSave)
    (hstack : ∀ k ∈ ([0, 4, 8] : List Word), s.reg .esp + k ≠ eaxSave ∧ Beside o (s.reg .esp + k)) :
    ∃ s', X86.effects (saveOld eaxSave) s = some s' ∧ Saved eaxSave o s s' := by
  obtain ⟨h0, h0r, h0p⟩ := hstack 0 (by simp)
  obtain ⟨h4, -⟩ := hstack 4 (by simp)
  obtain ⟨h8, h8r, h8p⟩ := hstack 8 (by simp)
  have hreg := aligned_offset ha
  have hpc := aligned_pcOffset ha
  have ha0 : Aligned (s.reg .esp + 0) := hesp.add (by decide)
  have ha4 : Aligned (s.reg .esp + 4) := hesp.add (by decide)
  have ha8 : Aligned (s.reg .esp + 8) := hesp.add (by decide)
  refine ⟨_, by
    simp only [saveOld, saveReg, X86.effects_nil, X86.effects_store, X86.effects_load,
      X86.effects_store_abs, X86.effects_load_abs, State.setReg, hv, ha0, ha4, ha8, hreg, hpc,
      Function.update_self, ne_eq, reduceCtorEq, not_false_eq_true, Function.update_of_ne, h4, ho,
      h0, h8, h0r, h8r, h8p, hsave.reg]
    rfl, ?_⟩
  refine { regs := fun r => ?_, pc := ?_, other := fun a hb hne => ?_, eax := rfl }
  · have hne := offset_ne_pcOffset o r
    cases r <;> simp [offset_injective.eq_iff, hne]
  · simp
  · simp only [Function.update_of_ne, ne_eq, hb.reg, hb.pc, hne, not_false_eq_true]

/-- `s'` is behind `loadNew` from `s`, the new thread's object is at `o`. -/
structure Loaded (eaxSave o : Word) (s s' : State) : Prop where
  regs : ∀ r, s'.reg r = s.mem (o + offset r)
  arg : s'.mem (s.mem (o + offset .esp) + 4) = s.mem (o + pcOffset)
  other : ∀ a, a ≠ s.mem (o + offset .esp) + 4 → a ≠ eaxSave → s'.mem a = s.mem a

theorem effects_loadNew (ho : s.reg .eax = o) (ha : Aligned o)
    (hesp : Aligned (s.mem (o + offset .esp))) (hv : Aligned eaxSave) (hsave : Beside o eaxSave)
    (harg : s.mem (o + offset .esp) + 4 ≠ eaxSave) :
    ∃ s', X86.effects (loadNew eaxSave) s = some s' ∧ Loaded eaxSave o s s' := by
  have hreg := aligned_offset ha
  have hpc := aligned_pcOffset ha
  have ha4 : Aligned (s.mem (o + offset .esp) + 4) := hesp.add (by decide)
  have hne : ∀ r, o + offset r ≠ eaxSave := fun r => (hsave.reg r).symm
  have hnepc : o + pcOffset ≠ eaxSave := hsave.pc.symm
  refine ⟨_, by
    simp only [loadNew, loadReg, X86.effects_nil, X86.effects_store, X86.effects_load,
      X86.effects_store_abs, X86.effects_load_abs, State.setReg, hv, ho, ha4, hreg, hpc,
      Function.update_self, ne_eq, reduceCtorEq, not_false_eq_true, Function.update_of_ne, hne,
      hnepc, harg.symm]
    rfl, ?_⟩
  refine { regs := fun r => ?_, arg := ?_, other := fun a h4 hs => ?_ }
  · cases r <;> simp
  · simp
  · simp only [Function.update_of_ne, ne_eq, h4, hs, not_false_eq_true]

/-- `s'` is behind `SWITCH`, and `u` is where it had saved the old thread. The new
thread's object is at `o`. -/
structure Switched (eaxSave o : Word) (u s' : State) : Prop where
  pc : s'.pc = u.mem (u.mem (o + offset .esp))
  esp : s'.reg .esp = u.mem (o + offset .esp) + 4
  regs : ∀ r, r ≠ .esp → s'.reg r = u.mem (o + offset r)
  arg : s'.mem (u.mem (o + offset .esp) + 4) = u.mem (o + pcOffset)
  other : ∀ a, a ≠ u.mem (o + offset .esp) + 4 → a ≠ eaxSave → s'.mem a = u.mem a

theorem ne_add_four (a : Word) : a ≠ a + 4 := by
  intro h
  have := congrArg BitVec.toNat h
  rw [BitVec.toNat_add] at this
  have hlt := a.isLt
  simp only [BitVec.ofNat_eq_ofNat, BitVec.toNat_ofNat] at this
  omega

/-- `SWITCH` from the thread whose object is at `o` to the one whose object is at `o'`. -/
theorem steps_SWITCH {code : Code} {b o' : Word} (hp : X86.Placed code s.pc (SWITCH eaxSave) b)
    (ho : s.mem (s.reg .esp + 4) = o) (ho' : s.mem (s.reg .esp + 8) = o') (ha : Aligned o)
    (ha' : Aligned o') (hesp : Aligned (s.reg .esp)) (hv : Aligned eaxSave)
    (hsave : Beside o eaxSave) (hsave' : Beside o' eaxSave)
    (hstack : ∀ k ∈ ([0, 4, 8] : List Word), s.reg .esp + k ≠ eaxSave ∧ Beside o (s.reg .esp + k))
    (hnew : ∀ u, Saved eaxSave o s u → Aligned (u.mem (o' + offset .esp)) ∧
      u.mem (o' + offset .esp) ≠ eaxSave ∧
      u.mem (o' + offset .esp) + 4 ≠ eaxSave) :
    ∃ u s', X86.steps code (SWITCH eaxSave).length s = some s' ∧ Saved eaxSave o s u ∧
    Switched eaxSave o' u s' := by
  obtain ⟨u, hu, hsaved⟩ := effects_saveOld ho ha hesp hv hsave hstack
  obtain ⟨hae, he, he4⟩ := hnew u hsaved
  obtain ⟨w, hw, hl⟩ := effects_loadNew (hsaved.eax.trans ho') ha' hae hv hsave' he4
  obtain ⟨c, hmoves, next, hret, -⟩ := hp.append
  have heffects : X86.effects (saveOld eaxSave ++ loadNew eaxSave) s = some w := by
    rw [X86.effects_append, hu]
    exact hw
  have htop : (w.goto c).reg .esp = u.mem (o' + offset .esp) := hl.regs .esp
  have hgo := X86.step_ret (s := w.goto c) hret (htop ▸ hae)
  -- the word at the top of the stack is not the one that was written
  have hpc : w.mem (u.mem (o' + offset .esp)) = u.mem (u.mem (o' + offset .esp)) :=
    hl.other _ (ne_add_four _) he
  have hall := X86.steps_trans (X86.steps_effects hmoves heffects) (X86.steps_one hgo)
  have hlen : (SWITCH eaxSave).length = (saveOld eaxSave ++ loadNew eaxSave).length + 1 :=
    List.length_append
  rw [← hlen] at hall
  refine ⟨u, _, hall, hsaved, ?_⟩
  refine { pc := ?_, esp := ?_, regs := fun r hr => ?_, arg := hl.arg, other := hl.other }
  · rw [← hpc, ← htop]
    rfl
  · rw [← htop, State.goto_reg, State.setReg_reg]
  · exact (State.setReg_of_ne _ hr _).trans (hl.regs r)

/-! ### The threads -/

/-- The program: its code, its variables and where the thread objects are. -/
structure Image where
  code : Code
  switch : Word
  threadRoot : Word
  threadBegin : Word
  threadFinish : Word
  eaxSave : Word
  object : Tid → Word
  placed_switch : ∃ b, X86.Placed code switch (SWITCH eaxSave) b
  placed_threadRoot : ∃ b, X86.Placed code threadRoot ThreadRoot b
  aligned_eaxSave : Aligned eaxSave

/-- What a word of memory is in. -/
inductive Owner
  | object (t : Tid)
  | stack (t : Tid)
  | eaxSave
  | other
  deriving DecidableEq

/-- A thread that is not running: the processor as it was when the thread called
`SWITCH`, or as `StackAllocate` wants it; the function and the argument of a thread
that has not run yet. -/
structure Context where
  state : State
  forked : Option (Word × Word)

structure Threads where
  machine : State
  currentThread : Tid
  owner : Word → Owner
  context : Tid → Option Context

/-- `StackSize`, in words. -/
def stackSize : ℕ := 8 * 1024

/-- `STACK_FENCEPOST`. -/
def stackFencepost : Word := 0xdedbeef

/-- `&machineState[i]` of the thread object at `o`, for the indices of `switch.h`. -/
def machineState (o : Word) (i : ℕ) : Word := o + 4 + BitVec.ofNat 32 (4 * i)

def pcState : ℕ := 32 / 4 - 1
def initialPCState : ℕ := 24 / 4 - 1
def initialArgState : ℕ := 16 / 4 - 1
def whenDonePCState : ℕ := 28 / 4 - 1
def startupPCState : ℕ := 12 / 4 - 1

/-- `stack[i]`. -/
def stackWord (stack : Word) (i : ℕ) : Word := stack + BitVec.ofNat 32 (4 * i)

/-- `Thread::StackAllocate` with the array it has got, as far as memory goes. -/
def stackAllocate (I : Image) (mem : Word → Word) (t : Tid) (stack func arg : Word) : Word → Word :=
  let o := I.object t
  -- stackTop = stack + StackSize - 4; *(--stackTop) = ThreadRoot
  let stackTop := stackWord stack (stackSize - 4 - 1)
  let mem := Function.update mem o stackTop
  let mem := Function.update mem stackTop I.threadRoot
  let mem := Function.update mem stack stackFencepost
  let mem := Function.update mem (machineState o pcState) I.threadRoot
  let mem := Function.update mem (machineState o startupPCState) I.threadBegin
  let mem := Function.update mem (machineState o initialPCState) func
  let mem := Function.update mem (machineState o initialArgState) arg
  Function.update mem (machineState o whenDonePCState) I.threadFinish

/-- What can happen. -/
inductive Label
  /-- the current thread runs code of its own -/
  | own (machine : State)
  /-- memory is allocated or freed -/
  | memory (owner : Word → Owner)
  /-- `StackAllocate`, called by `Fork` -/
  | fork (t : Tid) (stack func arg : Word)
  /-- a thread that is not running is deleted -/
  | delete (t : Tid)
  /-- `SWITCH` is executed to its `ret` -/
  | switch (t : Tid)

def step (I : Image) (s : Threads) : Label → Option Threads
  | .own machine => some { s with machine := machine }
  | .memory owner => some { s with owner := owner }
  | .fork t stack func arg =>
    let mem := stackAllocate I s.machine.mem t stack func arg
    some { s with
      machine := { s.machine with mem := mem }
      context := Function.update s.context t
        (some ⟨⟨fun r => mem (I.object t + offset r), mem, I.switch⟩, some (func, arg)⟩) }
  | .delete t => some { s with context := Function.update s.context t none }
  | .switch t => (X86.steps I.code (SWITCH I.eaxSave).length s.machine).map fun machine =>
    { s with
      machine := machine
      currentThread := t
      context := Function.update
        (Function.update s.context s.currentThread (some ⟨s.machine, none⟩)) t none }

variable {I : Image}

/-- The object of `t` is where it has to be. -/
structure Allocated (I : Image) (owner : Word → Owner) (t : Tid) : Prop where
  aligned : Aligned (I.object t)
  reg : ∀ r, owner (I.object t + offset r) = .object t
  pc : owner (I.object t + pcOffset) = .object t

/-- `SWITCH(currentThread, t)` is called: the arguments and the return address are
on the current thread's stack. -/
structure Calls (I : Image) (s : Threads) (t : Tid) : Prop where
  pc : s.machine.pc = I.switch
  aligned : Aligned (s.machine.reg .esp)
  own : ∀ k ∈ ([0, 4, 8] : List Word), s.owner (s.machine.reg .esp + k) = .stack s.currentThread
  old : s.machine.mem (s.machine.reg .esp + 4) = I.object s.currentThread
  new : s.machine.mem (s.machine.reg .esp + 8) = I.object t

/-- What the code around `SWITCH` does: it leaves the object and the stack of a
thread that is not running alone, and does not free them. -/
def Allowed (I : Image) (s : Threads) : Label → Prop
  | .own machine =>
    ∀ a t, s.context t ≠ none → s.owner a = .object t ∨ s.owner a = .stack t →
    machine.mem a = s.machine.mem a
  | .memory owner => owner I.eaxSave = .eaxSave ∧ ∀ a t, s.context t ≠ none →
    (owner a = .object t ↔ s.owner a = .object t) ∧ (owner a = .stack t ↔ s.owner a = .stack t)
  | .fork t stack _ _ =>
    t ≠ s.currentThread ∧ s.context t = none ∧ Allocated I s.owner t ∧ Aligned stack ∧
    ∀ i < stackSize, s.owner (stackWord stack i) = .stack t
  | .delete _ => True
  | .switch t =>
    (t = s.currentThread ∨ s.context t ≠ none) ∧ Allocated I s.owner s.currentThread ∧ Calls I s t

/-- One thread runs, no other has a context. -/
structure Initial (I : Image) (s : Threads) : Prop where
  eaxSave : s.owner I.eaxSave = .eaxSave
  context : ∀ t, s.context t = none

/-- The states of all schedules. -/
abbrev Reach (I : Image) : Threads → Prop := Runs.Reach (step I) (Initial I) (Allowed I)

/-! ### What is kept -/

/-- The object and the stack of a thread that is not running hold its context. -/
structure Kept (I : Image) (owner : Word → Owner) (mem : Word → Word) (t : Tid) (c : State) :
    Prop where
  allocated : Allocated I owner t
  regs : ∀ r, mem (I.object t + offset r) = c.reg r
  pc : mem (I.object t + pcOffset) = c.mem (c.reg .esp)
  stack : ∀ a, owner a = .stack t → mem a = c.mem a
  aligned : Aligned (c.reg .esp)
  top : owner (c.reg .esp) = .stack t ∧ owner (c.reg .esp + 4) = .stack t

/-- The registers of a thread that has not run yet are those `ThreadRoot` expects. -/
structure Fresh (I : Image) (func arg : Word) (s : State) : Prop where
  ret : s.mem (s.reg .esp) = I.threadRoot
  startup : s.reg .ecx = I.threadBegin
  func : s.reg .esi = func
  arg : s.reg .edx = arg
  whenDone : s.reg .edi = I.threadFinish

structure Inv (I : Image) (s : Threads) : Prop where
  current : s.context s.currentThread = none
  eaxSave : s.owner I.eaxSave = .eaxSave
  kept : ∀ t c, s.context t = some c → Kept I s.owner s.machine.mem t c.state
  fresh : ∀ t c func arg, s.context t = some c → c.forked = some (func, arg) →
    Fresh I func arg c.state

variable {s s' : Threads} {owner : Word → Owner} {mem mem' : Word → Word} {t : Tid} {c u : State}

theorem Allocated.beside (h : Allocated I owner t) {a : Word} (ha : owner a ≠ .object t) :
    Beside (I.object t) a where
  reg r := fun he => ha (he ▸ h.reg r)
  pc := fun he => ha (he ▸ h.pc)

/-- The words that hold a context stay as they are. -/
theorem Kept.congr (h : Kept I owner mem t c)
    (hmem : ∀ a, owner a = .object t ∨ owner a = .stack t → mem' a = mem a) :
    Kept I owner mem' t c where
  allocated := h.allocated
  regs r := (hmem _ (Or.inl (h.allocated.reg r))).trans (h.regs r)
  pc := (hmem _ (Or.inl h.allocated.pc)).trans h.pc
  stack a ha := (hmem a (Or.inr ha)).trans (h.stack a ha)
  aligned := h.aligned
  top := h.top

/-- They stay where they are. -/
theorem Kept.moved {owner' : Word → Owner} (h : Kept I owner mem t c)
    (ho : ∀ a, (owner' a = .object t ↔ owner a = .object t) ∧
      (owner' a = .stack t ↔ owner a = .stack t)) :
    Kept I owner' mem t c where
  allocated :=
    { aligned := h.allocated.aligned
      reg := fun r => (ho _).1.mpr (h.allocated.reg r)
      pc := (ho _).1.mpr h.allocated.pc }
  regs := h.regs
  pc := h.pc
  stack a ha := h.stack a ((ho a).2.mp ha)
  aligned := h.aligned
  top := ⟨(ho _).2.mpr h.top.1, (ho _).2.mpr h.top.2⟩

/-! ### A new thread -/

theorem machineState_eq (o : Word) :
    machineState o pcState = o + pcOffset ∧ machineState o startupPCState = o + offset .ecx ∧
    machineState o initialPCState = o + offset .esi ∧
    machineState o initialArgState = o + offset .edx ∧
    machineState o whenDonePCState = o + offset .edi := by
  simp only [machineState, BitVec.add_assoc]
  exact ⟨rfl, rfl, rfl, rfl, rfl⟩

theorem stackWord_add_four (stack : Word) (i : ℕ) :
    stackWord stack i + 4 = stackWord stack (i + 1) := by
  rw [stackWord, stackWord, BitVec.add_assoc, Nat.mul_add, BitVec.ofNat_add]
  rfl

theorem aligned_stackWord {stack : Word} (h : Aligned stack) (i : ℕ) :
    Aligned (stackWord stack i) := by
  refine h.add ?_
  unfold Aligned
  rw [BitVec.toNat_ofNat]
  omega

section StackAllocate

variable {stack func arg : Word}

theorem stackAllocate_other (ho : Allocated I owner t)
    (hstack : ∀ i < stackSize, owner (stackWord stack i) = .stack t) {a : Word}
    (ha : owner a ≠ .object t) (ha' : owner a ≠ .stack t) :
    stackAllocate I mem t stack func arg a = mem a := by
  obtain ⟨hpc, hstart, hinit, harg, hdone⟩ := machineState_eq (I.object t)
  have hb := ho.beside ha
  have hobj : a ≠ I.object t := by simpa [offset] using hb.reg .esp
  have htop : a ≠ stackWord stack (stackSize - 4 - 1) := fun he => ha' (he ▸ hstack _ (by decide))
  have hbase : a ≠ stack := fun he => ha' (he ▸ by simpa [stackWord] using hstack 0 (by decide))
  simp only [stackAllocate, hpc, hstart, hinit, harg, hdone, Function.update_of_ne, ne_eq, hb.pc,
    hb.reg, hobj, htop, hbase, not_false_eq_true]

/-- The new thread's context. -/
theorem kept_stackAllocate (ho : Allocated I owner t) (ha : Aligned stack)
    (hstack : ∀ i < stackSize, owner (stackWord stack i) = .stack t) :
    let mem' := stackAllocate I mem t stack func arg
    let state : State := ⟨fun r => mem' (I.object t + offset r), mem', I.switch⟩
    Kept I owner mem' t state ∧ Fresh I func arg state := by
  intro mem' state
  obtain ⟨hpc, hstart, hinit, harg, hdone⟩ := machineState_eq (I.object t)
  have htop : owner (stackWord stack (stackSize - 4 - 1)) = .stack t := hstack _ (by decide)
  have hbase : owner stack = .stack t := by simpa [stackWord] using hstack 0 (by decide)
  have hbt := ho.beside (a := stackWord stack (stackSize - 4 - 1)) (by rw [htop]; simp)
  have hbb := ho.beside (a := stack) (by rw [hbase]; simp)
  have hobj : I.object t = I.object t + offset .esp := by simp [offset]
  have hne := offset_ne_pcOffset (I.object t)
  have hbase_ne : stackWord stack (stackSize - 4 - 1) ≠ stack := by
    unfold stackWord
    simp [stackSize]
  -- the writes, the last one first
  have hmem : ∀ a, mem' a = if a = I.object t + offset .edi then I.threadFinish
      else if a = I.object t + offset .edx then arg else
      if a = I.object t + offset .esi then func else if a = I.object t + offset .ecx then
        I.threadBegin else
      if a = I.object t + pcOffset then I.threadRoot else if a = stack then stackFencepost else
      if a = stackWord stack (stackSize - 4 - 1) then I.threadRoot else
      if a = I.object t + offset .esp then stackWord stack (stackSize - 4 - 1) else mem a := by
    intro a
    simp only [mem', stackAllocate, hpc, hstart, hinit, harg, hdone, Function.update_apply, ← hobj]
  have hesp : mem' (I.object t + offset .esp) = stackWord stack (stackSize - 4 - 1) := by
    simp [hmem, offset_injective.eq_iff, hne, (hbb.reg .esp).symm, (hbt.reg .esp).symm]
  have hret : mem' (stackWord stack (stackSize - 4 - 1)) = I.threadRoot := by
    simp [hmem, hbt.reg, hbt.pc, hbase_ne]
  have hroot : mem' (I.object t + pcOffset) = I.threadRoot := by simp [hmem, fun r => (hne r).symm]
  refine ⟨?_, ?_⟩
  · refine
      { allocated := ho, regs := fun _ => rfl, pc := ?_, stack := fun _ _ => rfl, aligned := ?_,
        top := ?_ }
    · exact hroot.trans ((congrArg mem' hesp).trans hret).symm
    · have hal := aligned_stackWord ha (stackSize - 4 - 1)
      rwa [← hesp] at hal
    · refine ⟨(congrArg owner hesp).trans htop, ?_⟩
      rw [show state.reg .esp = _ from hesp, stackWord_add_four]
      exact hstack _ (by decide)
  · refine
      { ret := (congrArg mem' hesp).trans hret, startup := ?_, func := ?_, arg := ?_,
        whenDone := ?_ }
    · simp [state, hmem, offset_injective.eq_iff]
    · simp [state, hmem, offset_injective.eq_iff]
    · simp [state, hmem, offset_injective.eq_iff]
    · simp [state, hmem]

end StackAllocate

/-! ### A switch -/

/-- Thread `t` goes on in `m` as it was in `c`, and the return address has gone over
the argument of its `SWITCH`. -/
structure Resumes (owner : Word → Owner) (t : Tid) (c m : State) : Prop where
  pc : m.pc = c.mem (c.reg .esp)
  esp : m.reg .esp = c.reg .esp + 4
  regs : ∀ r, r ≠ .esp → m.reg r = c.reg r
  stack : ∀ a, owner a = .stack t → a ≠ c.reg .esp + 4 → m.mem a = c.mem a
  arg : m.mem (c.reg .esp + 4) = c.mem (c.reg .esp)

/-- The state a thread is switched to in: its context, or the call of `SWITCH` that
switches to the thread that makes it. -/
def target (s : Threads) (t : Tid) : State :=
  match s.context t with
  | some c => c.state
  | none => s.machine

/-- The thread that is left has its context in its object. -/
theorem kept_current (hI : Inv I s) (ha : Allocated I s.owner s.currentThread) (hc : Calls I s t)
    (hs : Saved I.eaxSave (I.object s.currentThread) s.machine u) :
    Kept I s.owner u.mem s.currentThread s.machine where
  allocated := ha
  regs := hs.regs
  pc := hs.pc
  stack a hown := by
    refine hs.other a (ha.beside (by rw [hown]; simp)) fun he => ?_
    rw [he, hI.eaxSave] at hown
    cases hown
  aligned := hc.aligned
  top := ⟨by simpa using hc.own 0 (by simp), hc.own 4 (by simp)⟩

/-- So has the thread that is switched to. -/
theorem kept_target (hI : Inv I s) (hready : t = s.currentThread ∨ s.context t ≠ none)
    (ha : Allocated I s.owner s.currentThread) (hc : Calls I s t)
    (hs : Saved I.eaxSave (I.object s.currentThread) s.machine u) :
    Kept I s.owner u.mem t (target s t) := by
  unfold target
  cases ht : s.context t with
  | none =>
    obtain rfl : t = s.currentThread := hready.resolve_right fun h => h ht
    exact kept_current hI ha hc hs
  | some c =>
    have hne : t ≠ s.currentThread := by
      rintro rfl
      rw [hI.current] at ht
      cases ht
    refine (hI.kept t c ht).congr fun a hown => hs.other a (ha.beside ?_) fun he => ?_
    · rcases hown with hown | hown <;> simp [hown, hne]
    · rw [he, hI.eaxSave] at hown
      simp at hown

/-- A switch is executed to its end, and the thread it goes to goes on. -/
theorem machine_switch (hI : Inv I s) (h : Allowed I s (.switch t)) :
    ∃ m, X86.steps I.code (SWITCH I.eaxSave).length s.machine = some m ∧
    Resumes s.owner t (target s t) m ∧
      (t ≠ s.currentThread → Kept I s.owner m.mem s.currentThread s.machine) ∧
      ∀ a, s.owner a ≠ .object s.currentThread → s.owner a ≠ .eaxSave → s.owner a ≠ .stack t →
      m.mem a = s.machine.mem a := by
  obtain ⟨hready, ha, hc⟩ := h
  obtain ⟨b, hp⟩ := I.placed_switch
  have hsave : ∀ {a x}, s.owner a = x → x ≠ .eaxSave → a ≠ I.eaxSave := by
    intro a x hown hx he
    rw [he, hI.eaxSave] at hown
    exact hx hown.symm
  have hobj : Allocated I s.owner t := by
    rcases hready with rfl | hsome
    · exact ha
    · obtain ⟨c, hc⟩ := Option.ne_none_iff_exists'.mp hsome
      exact (hI.kept t c hc).allocated
  have hbeside : ∀ {v}, Allocated I s.owner v → Beside (I.object v) I.eaxSave :=
    fun hv => hv.beside (by rw [hI.eaxSave]; simp)
  obtain ⟨u, m, hsteps, hsaved, hsw⟩ :=
    steps_SWITCH (hc.pc ▸ hp) hc.old hc.new ha.aligned hobj.aligned hc.aligned
    I.aligned_eaxSave (hbeside ha) (hbeside hobj)
    (fun k hk => ⟨hsave (hc.own k hk) (by simp), ha.beside (by rw [hc.own k hk]; simp)⟩)
    fun u hu => by
      have hk := kept_target hI hready ha hc hu
      rw [hk.regs]
      exact ⟨hk.aligned, hsave hk.top.1 (by simp), hsave hk.top.2 (by simp)⟩
  have hk := kept_target hI hready ha hc hsaved
  have hother : ∀ a, a ≠ (target s t).reg .esp + 4 → a ≠ I.eaxSave → m.mem a = u.mem a := by
    intro a h4 hv
    exact hsw.other a (by rwa [hk.regs]) hv
  refine ⟨m, hsteps, ?_, fun hne => ?_, fun a hob hv hst => ?_⟩
  · refine
      { pc := ?_, esp := ?_, regs := fun r hr => (hsw.regs r hr).trans (hk.regs r),
        stack := fun a hown h4 => ?_, arg := ?_ }
    · rw [hsw.pc, hk.regs]
      exact hk.stack _ hk.top.1
    · rw [hsw.esp, hk.regs]
    · exact (hother a h4 (hsave hown (by simp))).trans (hk.stack a hown)
    · rw [← hk.pc, ← hsw.arg, hk.regs]
  · refine (kept_current hI ha hc hsaved).congr fun a hown => hother a (fun he => ?_) ?_
    · rw [he, hk.top.2] at hown
      simp [hne] at hown
    · rcases hown with hown | hown <;> exact hsave hown (by simp)
  · refine (hother a (fun he => hst (he ▸ hk.top.2)) fun he => hv (he ▸ hI.eaxSave)).trans ?_
    exact hsaved.other a (ha.beside hob) fun he => hv (he ▸ hI.eaxSave)

/-! ### Every run -/

theorem inv_initial (h : Initial I s) : Inv I s where
  current := h.context _
  eaxSave := h.eaxSave
  kept t c hc := by
    rw [h.context] at hc
    cases hc
  fresh t c func arg hc := by
    rw [h.context] at hc
    cases hc

/-- A context is the new one or was there before. -/
theorem of_context {context : Tid → Option Context} {x : Option Context} {v : Tid} {c : Context}
    (h : Function.update context t x v = some c) :
    v = t ∧ x = some c ∨ v ≠ t ∧ context v = some c := by
  by_cases hv : v = t
  · rw [hv, Function.update_self] at h
    exact Or.inl ⟨hv, h⟩
  · rw [Function.update_of_ne hv] at h
    exact Or.inr ⟨hv, h⟩

theorem inv_fork (hI : Inv I s) {stack func arg : Word} (h : Allowed I s (.fork t stack func arg))
    (hs : step I s (.fork t stack func arg) = some s') : Inv I s' := by
  obtain ⟨hne, hnone, ho, ha, hstack⟩ := h
  cases hs
  obtain ⟨hk, hf⟩ := kept_stackAllocate (I := I) ho ha hstack
  refine
    { current := ?_, eaxSave := hI.eaxSave, kept := fun v c hc => ?_,
      fresh := fun v c f x hc hfork => ?_ }
  · exact (Function.update_of_ne hne.symm ..).trans hI.current
  · rcases of_context hc with ⟨rfl, hc⟩ | ⟨hv, hc⟩
    · cases hc
      exact hk
    · refine (hI.kept v c hc).congr fun a hown => stackAllocate_other ho hstack ?_ ?_ <;>
        rcases hown with hown | hown <;> simp [hown, hv]
  · rcases of_context hc with ⟨rfl, hc⟩ | ⟨-, hc⟩
    · cases hc
      cases hfork
      exact hf
    · exact hI.fresh v c f x hc hfork

theorem inv_switch (hI : Inv I s) (h : Allowed I s (.switch t))
    (hs : step I s (.switch t) = some s') : Inv I s' := by
  obtain ⟨m, hm, -, hcur, hother⟩ := machine_switch hI h
  rw [step, hm] at hs
  cases hs
  have hctx : ∀ {v c}, Function.update
      (Function.update s.context s.currentThread (some ⟨s.machine, none⟩)) t none v = some c →
      v ≠ t ∧ (v = s.currentThread ∧ c = ⟨s.machine, none⟩ ∨ v ≠ s.currentThread ∧
        s.context v = some c) := by
    intro v c hc
    rcases of_context hc with ⟨-, hc⟩ | ⟨hv, hc⟩
    · cases hc
    · exact ⟨hv, (of_context hc).imp_left fun ⟨hvc, hc⟩ => ⟨hvc, (Option.some.inj hc).symm⟩⟩
  refine
    { current := Function.update_self .., eaxSave := hI.eaxSave, kept := fun v c hc => ?_,
      fresh := fun v c f x hc hfork => ?_ }
  · obtain ⟨hv, ⟨rfl, rfl⟩ | ⟨hvc, hc⟩⟩ := hctx hc
    · exact hcur fun he => hv he.symm
    · refine (hI.kept v c hc).congr fun a hown => hother a ?_ ?_ ?_ <;>
        rcases hown with hown | hown <;> simp [hown, hv, hvc]
  · obtain ⟨-, ⟨-, rfl⟩ | ⟨-, hc⟩⟩ := hctx hc
    · cases hfork
    · exact hI.fresh v c f x hc hfork

theorem inv_step (hI : Inv I s) {l : Label} (h : Allowed I s l) (hs : step I s l = some s') :
    Inv I s' := by
  cases l with
  | own machine =>
    cases hs
    refine
      { current := hI.current, eaxSave := hI.eaxSave, kept := fun t c hc => ?_, fresh := hI.fresh }
    exact (hI.kept t c hc).congr fun a => h a t (by rw [hc]; simp)
  | memory owner =>
    cases hs
    refine { current := hI.current, eaxSave := h.1, kept := fun t c hc => ?_, fresh := hI.fresh }
    exact (hI.kept t c hc).moved fun a => h.2 a t (by rw [hc]; simp)
  | fork t stack func arg => exact inv_fork hI h hs
  | delete t =>
    cases hs
    have hold : ∀ {v c}, Function.update s.context t none v = some c → s.context v = some c := by
      intro v c hc
      rcases of_context hc with ⟨-, hc⟩ | ⟨-, hc⟩
      · cases hc
      · exact hc
    refine { current := Option.eq_none_iff_forall_ne_some.mpr fun c hc => ?_, eaxSave := hI.eaxSave,
             kept := fun v c hc => hI.kept v c (hold hc), fresh :=
               fun v c f x hc => hI.fresh v c f x (hold hc) }
    have hcur := hold hc
    rw [hI.current] at hcur
    cases hcur
  | switch t => exact inv_switch hI h hs

theorem inv_reach (hr : Reach I s) : Inv I s :=
  hr.inv (Inv I) (fun _ h => inv_initial h) fun _ _ _ _ hI h hs => inv_step hI h hs

/-- **A thread goes on as it stopped.** In every run, a `SWITCH` is executed without
a fault, and the thread it goes to has the registers it called its own `SWITCH`
with, goes to the return address of that call, and finds its stack as it left it,
but for the argument `SWITCH` writes over. What no thread has to itself is as it was. -/
theorem switch_resumes (hr : Reach I s) (h : Allowed I s (.switch t)) :
    ∃ s', step I s (.switch t) = some s' ∧
      s'.currentThread = t ∧ Resumes s.owner t (target s t) s'.machine ∧
      ∀ a, s.owner a = .other → s'.machine.mem a = s.machine.mem a := by
  obtain ⟨m, hm, hres, -, hother⟩ := machine_switch (inv_reach hr) h
  refine ⟨_, by rw [step, hm]; rfl, rfl, hres, fun a ha => hother a ?_ ?_ ?_⟩ <;> simp [ha]

/-! ### The start of a thread -/

/-- A function called in `s` returns in `m`, by the conventions of C: to its return
address, with the registers of its caller. -/
structure Returns (s m : State) : Prop where
  pc : m.pc = s.mem (s.reg .esp)
  esp : m.reg .esp = s.reg .esp + 4
  saved : ∀ r ∈ ([.ebx, .esi, .edi, .ebp] : List Reg), m.reg r = s.reg r

/-- From `m`, `ThreadRoot` calls `ThreadBegin`, then `func` with the argument `arg`,
then `ThreadFinish`. The argument waits in the frame of `ThreadRoot`, which
`ThreadBegin` leaves alone. -/
def RunsThread (I : Image) (func arg : Word) (m : State) : Prop :=
  ∃ m₁, X86.steps I.code 4 m = some m₁ ∧ m₁.pc = I.threadBegin ∧
    ∀ m₂, Returns m₁ m₂ → m₂.mem (m₁.reg .esp + 4) = m₁.mem (m₁.reg .esp + 4) →
      ∃ m₃, X86.steps I.code 1 m₂ = some m₃ ∧ m₃.pc = func ∧ m₃.mem (m₃.reg .esp + 4) = arg ∧
        ∀ m₄, Returns m₃ m₄ → ∃ m₅, X86.steps I.code 1 m₄ = some m₅ ∧ m₅.pc = I.threadFinish

theorem sub_add_four (a : Word) : a - 4 + 4 = a := by simp

/-- `ThreadRoot`, entered with its registers. -/
theorem runsThread {m : State} {func arg : Word} (hpc : m.pc = I.threadRoot)
    (ha : Aligned (m.reg .esp)) (hstartup : m.reg .ecx = I.threadBegin) (hfunc : m.reg .esi = func)
    (harg : m.reg .edx = arg) (hdone : m.reg .edi = I.threadFinish) : RunsThread I func arg m := by
  obtain ⟨b, hp⟩ := I.placed_threadRoot
  rw [← hpc] at hp
  have hp' : X86.Placed I.code m.pc
      ([.push .ebp, .move .esp .ebp, .push .edx] ++
        [.call .ecx, .call .esi, .call .edi, .move .ebp .esp, .pop .ebp, .ret]) b := hp
  obtain ⟨a, hframe, b₁, hcall₁, b₂, hcall₂, b₃, hcall₃, -⟩ := hp'.append
  have ha4 : Aligned (m.reg .esp - 4) := ha.sub (by decide)
  have ha8 : Aligned (m.reg .esp - 4 - 4) := ha4.sub (by decide)
  obtain ⟨w, hw, hesp, hreg, hmem⟩ : ∃ w, X86.effects [.push .ebp, .move .esp .ebp, .push .edx]
      m = some w ∧
      w.reg .esp = m.reg .esp - 4 - 4 ∧ (∀ r ∈ ([.ecx, .esi, .edi] : List Reg), w.reg r = m.reg r) ∧
      w.mem (m.reg .esp - 4 - 4) = arg := by
    refine ⟨_, by
      simp only [X86.effects_nil, X86.effects_move, X86.effects_push, State.setReg, ha4, ha8,
        Function.update_self, ne_eq, reduceCtorEq, not_false_eq_true, Function.update_of_ne]
      rfl, ?_⟩
    simp [harg]
  obtain ⟨m₁, hm₁, h₁⟩ := X86.step_call (s := w.goto a) hcall₁ (hesp ▸ ha8)
  have hesp₁ : m₁.reg .esp + 4 = m.reg .esp - 4 - 4 := by
    rw [h₁.esp, sub_add_four]
    exact hesp
  have hwait : m₁.mem (m₁.reg .esp + 4) = arg := by
    rw [h₁.other _ (ne_add_four _).symm, hesp₁]
    exact hmem
  refine ⟨m₁, X86.steps_trans (X86.steps_effects hframe hw) (X86.steps_one hm₁),
    h₁.pc.trans ((hreg .ecx (by simp)).trans hstartup), fun m₂ h₂ hkept => ?_⟩
  -- behind `ThreadBegin` the stack is as it was before the call
  have hesp₂ : m₂.reg .esp = m.reg .esp - 4 - 4 := h₂.esp.trans hesp₁
  obtain ⟨m₃, hm₃, h₃⟩ :=
    X86.step_call (s := m₂) ((congrArg I.code (h₂.pc.trans h₁.ret)).trans hcall₂) (hesp₂ ▸ ha8)
  have hregs₃ : ∀ r ∈ ([.esi, .edi] : List Reg), m₂.reg r = m.reg r := by
    intro r hr
    have hne : r ≠ .esp := by
      rintro rfl
      simp at hr
    rw [h₂.saved r (by simp at hr ⊢; tauto), h₁.regs r hne]
    exact hreg r (by simp at hr ⊢; tauto)
  refine ⟨m₃, X86.steps_one hm₃, h₃.pc.trans ((hregs₃ .esi (by simp)).trans hfunc), ?_,
    fun m₄ h₄ => ?_⟩
  · rw [h₃.other _ (ne_add_four _).symm, h₃.esp, sub_add_four, h₂.esp, hkept]
    exact hwait
  · have hesp₄ : m₄.reg .esp = m₂.reg .esp := by rw [h₄.esp, h₃.esp, sub_add_four]
    obtain ⟨m₅, hm₅, h₅⟩ :=
      X86.step_call (s := m₄) ((congrArg I.code (h₄.pc.trans h₃.ret)).trans hcall₃)
      (hesp₄ ▸ hesp₂ ▸ ha8)
    refine ⟨m₅, X86.steps_one hm₅, h₅.pc.trans ?_⟩
    rw [h₄.saved .edi (by simp), h₃.regs .edi (by simp), hregs₃ .edi (by simp)]
    exact hdone

/-- **A forked thread runs its function.** In every run, the first `SWITCH` to a
thread that was forked with `func` and `arg` goes to `ThreadRoot`, which calls
`ThreadBegin`, `func(arg)` and `ThreadFinish`. -/
theorem fork_calls (hr : Reach I s) {func arg : Word} {c : Context} (hc : s.context t = some c)
    (hfork : c.forked = some (func, arg)) (h : Allowed I s (.switch t)) :
    ∃ s', step I s (.switch t) = some s' ∧ s'.machine.pc = I.threadRoot ∧
      RunsThread I func arg s'.machine := by
  obtain ⟨s', hs, -, hres, -⟩ := switch_resumes hr h
  have hI := inv_reach hr
  have htarget : target s t = c.state := by rw [target, hc]
  rw [htarget] at hres
  have hf := hI.fresh t c func arg hc hfork
  have hpc : s'.machine.pc = I.threadRoot := hres.pc.trans hf.ret
  refine ⟨s', hs, hpc, runsThread hpc ?_ ?_ ?_ ?_ ?_⟩
  · rw [hres.esp]
    exact (hI.kept t c hc).aligned.add (by decide)
  · rw [hres.regs .ecx (by simp), hf.startup]
  · rw [hres.regs .esi (by simp), hf.func]
  · rw [hres.regs .edx (by simp), hf.arg]
  · rw [hres.regs .edi (by simp), hf.whenDone]

/-! ### A program with two threads -/

/-- `SWITCH` from 0 on and `ThreadRoot` from 32 on. -/
def sampleCode : Code := fun a =>
  (if a.toNat < 32 then (SWITCH 0x3000)[a.toNat]? else ThreadRoot[a.toNat - 32]?).map fun i =>
    (i, a + 1)

def sampleImage : Image where
  code := sampleCode
  switch := 0
  threadRoot := 32
  threadBegin := 0x1000
  threadFinish := 0x1100
  eaxSave := 0x3000
  object t := 0x4000 + BitVec.ofNat 32 (0x100 * t)
  placed_switch := ⟨_, by
    repeat refine ⟨_, rfl, ?_⟩
    exact rfl⟩
  placed_threadRoot := ⟨_, by
    repeat refine ⟨_, rfl, ?_⟩
    exact rfl⟩
  aligned_eaxSave := by decide

def sampleOwner (a : Word) : Owner :=
  if a.toNat = 0x3000 then .eaxSave
  else if a.toNat / 0x100 = 0x40 then .object 0
  else if a.toNat / 0x100 = 0x41 then .object 1
  else if a.toNat / 0x8000 = 2 then .stack 0
  else if a.toNat / 0x8000 = 4 then .stack 1
  else .other

/-- Thread 0 has put the arguments of `SWITCH(0, 1)` on its stack. -/
def sampleThreads : Threads where
  machine :=
    { reg := Function.update (fun _ => 0) .esp 0x10100
      mem := fun a => if a = 0x10104 then 0x4000 else if a = 0x10108 then 0x4100 else 0
      pc := 0 }
  currentThread := 0
  owner := sampleOwner
  context _ := none

theorem sampleOwner_stack {i : ℕ} (h : i < stackSize) :
    sampleOwner (stackWord 0x20000 i) = .stack 1 := by
  have hlt : i < 8192 := h
  have htoNat : (stackWord 0x20000 i).toNat = 0x20000 + 4 * i := by
    rw [stackWord, BitVec.toNat_add, BitVec.toNat_ofNat]
    simp only [BitVec.ofNat_eq_ofNat, BitVec.toNat_ofNat]
    omega
  unfold sampleOwner
  rw [htoNat, if_neg (by omega), if_neg (by omega), if_neg (by omega), if_neg (by omega),
    if_pos (by omega)]

/-- Thread 1, forked with the function at `0x500` and the argument 7. -/
theorem sample_forked :
    ∃ s c, Reach sampleImage s ∧ s.context 1 = some c ∧ c.forked = some (0x500, 7) ∧
    Allowed sampleImage s (.switch 1) := by
  have hown : Allocated sampleImage sampleOwner 1 :=
    ⟨by decide, fun r => by cases r <;> decide, by decide⟩
  have hallowed : Allowed sampleImage sampleThreads (.fork 1 0x20000 0x500 7) :=
    ⟨by decide, rfl, hown, by decide, fun i hi => sampleOwner_stack hi⟩
  have hargs : ∀ k ∈ ([0, 4, 8] : List Word), sampleOwner (sampleThreads.machine.reg .esp + k) =
      .stack 0 := by
    simp only [List.forall_mem_cons]
    exact ⟨by decide, by decide, by decide, fun _ h => absurd h List.not_mem_nil⟩
  have hother : ∀ k ∈ ([0, 4, 8] : List Word), stackAllocate sampleImage sampleThreads.machine.mem 1
      0x20000 0x500 7
      (sampleThreads.machine.reg .esp + k) = sampleThreads.machine.mem
        (sampleThreads.machine.reg .esp + k) := fun k hk =>
    stackAllocate_other hown (fun i hi => sampleOwner_stack hi) (by rw [hargs k hk]; decide)
      (by rw [hargs k hk]; decide)
  refine ⟨_, ⟨_, some (0x500, 7)⟩, .step (.fork 1 0x20000 0x500 7) (.init ⟨by decide, fun _ => rfl⟩)
    hallowed rfl, rfl, rfl, Or.inr (Option.some_ne_none _),
    ⟨by decide, fun r => by cases r <;> decide, by decide⟩, ?_⟩
  exact
    { pc := rfl, aligned := by decide, own := hargs, old := hother 4 (by simp),
      new := hother 8 (by simp) }

/-- Switching to it. -/
theorem switch_resumes_sample :
    ∃ s s', Reach sampleImage s ∧ step sampleImage s (.switch 1) = some s' ∧ s'.currentThread = 1 ∧
    Resumes s.owner 1 (target s 1) s'.machine := by
  obtain ⟨s, c, hr, -, -, h⟩ := sample_forked
  obtain ⟨s', hs, hcur, hres, -⟩ := switch_resumes hr h
  exact ⟨s, s', hr, hs, hcur, hres⟩

theorem fork_calls_sample : ∃ s s', Reach sampleImage s ∧ step sampleImage s (.switch 1) = some s' ∧
    s'.machine.pc = 32 ∧ RunsThread sampleImage 0x500 7 s'.machine := by
  obtain ⟨s, c, hr, hc, hfork, h⟩ := sample_forked
  obtain ⟨s', hs, hpc, hrun⟩ := fork_calls hr hc hfork h
  exact ⟨s, s', hr, hs, hpc, hrun⟩

end Switch
end Nachos
