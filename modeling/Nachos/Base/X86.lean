/-
# Moving words on a 32-bit x86

The general registers, a word at each address, and the instructions that move
words: `movl`, `pushl`, `popl`, `call` and `ret`. An access is one of an aligned
word; any other has no result. `Code` gives the instruction at an address and the
address behind it, so that how long an instruction is does not matter.

Instructions that do not jump have an effect (`effects`), and where they lie one
behind the other the processor executes them in turn (`steps_effects`).

Key definitions: `X86.Instr`, `X86.State`, `X86.step`, `X86.effects`, `X86.Placed`, `X86.Called`.
Key theorems: `X86.steps_add`, `X86.steps_effects`, `X86.step_ret`, `X86.step_call`.
-/
import Mathlib

namespace X86

abbrev Word := BitVec 32

inductive Reg
  | eax
  | ebx
  | ecx
  | edx
  | ebp
  | esi
  | edi
  | esp
  deriving DecidableEq

/-- An operand in memory: `disp(base)`, or a variable. -/
inductive Operand
  | based (disp : Word) (base : Reg)
  | abs (a : Word)

/-- Operands stand in the order of the assembler, the source first. -/
inductive Instr
  | load (m : Operand) (dst : Reg)
  | store (src : Reg) (m : Operand)
  | move (src dst : Reg)
  | push (src : Reg)
  | pop (dst : Reg)
  /-- `call *target` -/
  | call (target : Reg)
  | ret

structure State where
  reg : Reg → Word
  mem : Word → Word
  pc : Word

def Aligned (a : Word) : Prop := a.toNat % 4 = 0

instance (a : Word) : Decidable (Aligned a) := inferInstanceAs (Decidable (a.toNat % 4 = 0))

theorem Aligned.add {a b : Word} (ha : Aligned a) (hb : Aligned b) : Aligned (a + b) := by
  unfold Aligned at *
  rw [BitVec.toNat_add]
  omega

theorem Aligned.sub {a b : Word} (ha : Aligned a) (hb : Aligned b) : Aligned (a - b) := by
  unfold Aligned at *
  rw [BitVec.toNat_sub]
  omega

namespace State

def goto (s : State) (a : Word) : State := { s with pc := a }

def setReg (s : State) (r : Reg) (w : Word) : State := { s with reg := Function.update s.reg r w }

def read (s : State) (a : Word) : Option Word := if Aligned a then some (s.mem a) else none

def write (s : State) (a w : Word) : Option State :=
  if Aligned a then some { s with mem := Function.update s.mem a w } else none

def address (s : State) : Operand → Word
  | .based disp base => s.reg base + disp
  | .abs a => a

@[simp] theorem goto_reg (s : State) (a : Word) : (s.goto a).reg = s.reg := rfl
@[simp] theorem goto_mem (s : State) (a : Word) : (s.goto a).mem = s.mem := rfl
@[simp] theorem goto_pc (s : State) (a : Word) : (s.goto a).pc = a := rfl
@[simp] theorem goto_goto (s : State) (a b : Word) : (s.goto a).goto b = s.goto b := rfl
@[simp] theorem goto_self (s : State) : s.goto s.pc = s := rfl
@[simp] theorem setReg_mem (s : State) (r : Reg) (w : Word) : (s.setReg r w).mem = s.mem := rfl
@[simp] theorem setReg_reg (s : State) (r : Reg) (w : Word) : (s.setReg r w).reg r = w :=
  Function.update_self ..
@[simp] theorem setReg_pc (s : State) (r : Reg) (w : Word) : (s.setReg r w).pc = s.pc := rfl

theorem setReg_of_ne (s : State) {r r' : Reg} (h : r' ≠ r) (w : Word) :
    (s.setReg r w).reg r' = s.reg r' :=
  Function.update_of_ne h ..

theorem read_eq (s : State) {a : Word} (h : Aligned a) : s.read a = some (s.mem a) := if_pos h

theorem write_eq (s : State) {a : Word} (h : Aligned a) (w : Word) :
    s.write a w = some { s with mem := Function.update s.mem a w } := if_pos h

/-- Put a word on the stack. -/
def pushWord (s : State) (w : Word) : Option State :=
  (s.setReg .esp (s.reg .esp - 4)).write (s.reg .esp - 4) w

end State

/-- What an instruction that does not jump does. -/
def effect (s : State) : Instr → Option State
  | .load m dst => (s.read (s.address m)).map (s.setReg dst)
  | .store src m => s.write (s.address m) (s.reg src)
  | .move src dst => some (s.setReg dst (s.reg src))
  | .push src => s.pushWord (s.reg src)
  | .pop dst => (s.read (s.reg .esp)).map fun w => (s.setReg .esp (s.reg .esp + 4)).setReg dst w
  | .call _ => none
  | .ret => none

def effects : List Instr → State → Option State
  | [], s => some s
  | i :: is, s => (effect s i).bind (effects is)

/-- One instruction; the one behind it is at `next`. -/
def exec (next : Word) (s : State) : Instr → Option State
  | .call target => (s.pushWord next).map fun s' => s'.goto (s.reg target)
  | .ret => (s.read (s.reg .esp)).map fun w => (s.setReg .esp (s.reg .esp + 4)).goto w
  | i => (effect s i).map fun s' => s'.goto next

/-- The instruction at an address, and the address behind it. -/
abbrev Code := Word → Option (Instr × Word)

def step (code : Code) (s : State) : Option State := (code s.pc).bind fun i => exec i.2 s i.1

def steps (code : Code) : ℕ → State → Option State
  | 0, s => some s
  | n + 1, s => (step code s).bind (steps code n)

/-- The instructions lie from `a` to `b`. -/
def Placed (code : Code) : Word → List Instr → Word → Prop
  | a, [], b => a = b
  | a, i :: is, b => ∃ next, code a = some (i, next) ∧ Placed code next is b

variable {code : Code} {s s' s'' : State} {a b c : Word} {i : Instr} {is js : List Instr}

/-! ### Effects -/

theorem effects_append (is js : List Instr) (s : State) :
    effects (is ++ js) s = (effects is s).bind (effects js) := by
  induction is generalizing s with
  | nil => rfl
  | cons i is ih =>
    simp only [List.cons_append, effects, Option.bind_assoc]
    exact Option.bind_congr fun s' _ => ih s'

@[simp] theorem effects_nil (s : State) : effects [] s = some s := rfl

theorem effects_load {disp : Word} {base dst : Reg} (h : Aligned (s.reg base + disp)) :
    effects (.load (.based disp base) dst :: is) s = effects is
      (s.setReg dst (s.mem (s.reg base + disp))) := by
  rw [effects, effect, State.address, State.read_eq _ h]
  rfl

theorem effects_store {disp : Word} {src base : Reg} (h : Aligned (s.reg base + disp)) :
    effects (.store src (.based disp base) :: is) s =
      effects is { s with mem := Function.update s.mem (s.reg base + disp) (s.reg src) } := by
  rw [effects, effect, State.address, State.write_eq _ h]
  rfl

theorem effects_load_abs {dst : Reg} (h : Aligned a) :
    effects (.load (.abs a) dst :: is) s = effects is (s.setReg dst (s.mem a)) := by
  rw [effects, effect, State.address, State.read_eq _ h]
  rfl

theorem effects_store_abs {src : Reg} (h : Aligned a) :
    effects (.store src (.abs a) :: is) s = effects is
      { s with mem := Function.update s.mem a (s.reg src) } := by
  rw [effects, effect, State.address, State.write_eq _ h]
  rfl

theorem effects_move {src dst : Reg} :
    effects (.move src dst :: is) s = effects is (s.setReg dst (s.reg src)) := rfl

theorem effects_push {src : Reg} (h : Aligned (s.reg .esp - 4)) :
    effects (.push src :: is) s = effects is { s with
      reg := Function.update s.reg .esp (s.reg .esp - 4)
      mem := Function.update s.mem (s.reg .esp - 4) (s.reg src) } := by
  rw [effects, effect, State.pushWord, State.write_eq _ h]
  rfl

/-- The registers and the memory decide the effect. -/
theorem effect_goto (h : effect s i = some s') (a : Word) :
    effect (s.goto a) i = some (s'.goto a) := by
  cases i with
  | load m dst =>
    obtain ⟨w, hw, rfl⟩ := Option.map_eq_some_iff.mp h
    exact Option.map_eq_some_iff.mpr ⟨w, by cases m <;> exact hw, rfl⟩
  | store src m =>
    have hal : Aligned (s.address m) := by
      by_contra hal
      rw [effect, State.write, if_neg hal] at h
      cases h
    rw [effect, State.write_eq _ hal] at h
    cases h
    have heq : (s.goto a).address m = s.address m := by cases m <;> rfl
    rw [effect, heq, State.write_eq _ hal]
    rfl
  | move src dst =>
    cases h
    rfl
  | push src =>
    unfold effect State.pushWord State.write at h ⊢
    split_ifs at h with hal
    cases h
    exact if_pos hal
  | pop dst =>
    obtain ⟨w, hw, rfl⟩ := Option.map_eq_some_iff.mp h
    exact Option.map_eq_some_iff.mpr ⟨w, hw, rfl⟩
  | call target => cases h
  | ret => cases h

theorem effects_goto (h : effects is s = some s') (a : Word) :
    effects is (s.goto a) = some (s'.goto a) := by
  induction is generalizing s with
  | nil =>
    cases h
    rfl
  | cons i is ih =>
    obtain ⟨t, ht, hrest⟩ := Option.bind_eq_some_iff.mp h
    exact Option.bind_eq_some_iff.mpr ⟨_, effect_goto ht a, ih hrest⟩

theorem exec_of_effect (h : effect s i = some s') (next : Word) :
    exec next s i = some (s'.goto next) := by
  cases i with
  | call target => cases h
  | ret => cases h
  | _ => exact congrArg (Option.map fun s' => s'.goto next) h

/-! ### Steps -/

theorem steps_add (m n : ℕ) (s : State) :
    steps code (m + n) s = (steps code m s).bind (steps code n) := by
  induction m generalizing s with
  | zero =>
    rw [Nat.zero_add]
    rfl
  | succ m ih =>
    rw [Nat.succ_add]
    simp only [steps, Option.bind_assoc]
    exact Option.bind_congr fun s' _ => ih s'

theorem steps_trans {m n : ℕ} (h : steps code m s = some s') (h' : steps code n s' = some s'') :
    steps code (m + n) s = some s'' := by
  rw [steps_add, h]
  exact h'

theorem steps_one (h : step code s = some s') : steps code 1 s = some s' := by
  rw [steps, h]
  rfl

theorem Placed.append (h : Placed code a (is ++ js) c) :
    ∃ b, Placed code a is b ∧ Placed code b js c := by
  induction is generalizing a with
  | nil => exact ⟨a, rfl, h⟩
  | cons i is ih =>
    obtain ⟨next, hi, h⟩ := h
    obtain ⟨b, his, hjs⟩ := ih h
    exact ⟨b, ⟨next, hi, his⟩, hjs⟩

/-- Instructions without a jump are executed in turn. -/
theorem steps_effects (hp : Placed code s.pc is b) (h : effects is s = some s') :
    steps code is.length s = some (s'.goto b) := by
  induction is generalizing s s' with
  | nil =>
    cases h
    cases hp
    rfl
  | cons i is ih =>
    obtain ⟨next, hi, hp⟩ := hp
    obtain ⟨t, ht, hrest⟩ := Option.bind_eq_some_iff.mp h
    have hstep : step code s = some (t.goto next) := by
      rw [step, hi, Option.bind_some]
      exact exec_of_effect ht next
    simp only [List.length_cons, steps, hstep, Option.bind_some]
    have hgo := ih hp (effects_goto hrest next)
    rwa [State.goto_goto] at hgo

/-- A word at the top of the stack is where `ret` goes to. -/
theorem step_ret {next : Word} (hc : code s.pc = some (.ret, next)) (hal : Aligned (s.reg .esp)) :
    step code s = some ((s.setReg .esp (s.reg .esp + 4)).goto (s.mem (s.reg .esp))) := by
  rw [step, hc, Option.bind_some, exec, State.read_eq _ hal]
  rfl

/-- A function has been called: the return address is at the top of the stack. -/
structure Called (s s' : State) (target next : Word) : Prop where
  pc : s'.pc = target
  esp : s'.reg .esp = s.reg .esp - 4
  regs : ∀ r, r ≠ .esp → s'.reg r = s.reg r
  ret : s'.mem (s'.reg .esp) = next
  other : ∀ a, a ≠ s'.reg .esp → s'.mem a = s.mem a

theorem step_call {next : Word} {r : Reg} (hc : code s.pc = some (.call r, next))
    (hal : Aligned (s.reg .esp)) :
    ∃ s', step code s = some s' ∧ Called s s' (s.reg r) next := by
  have h4 : Aligned (s.reg .esp - 4) := hal.sub (by decide)
  refine ⟨_, by
    rw [step, hc, Option.bind_some, exec, State.pushWord, State.write_eq _ h4]
    rfl, ?_⟩
  have hesp : (s.setReg .esp (s.reg .esp - 4)).reg .esp = s.reg .esp - 4 := State.setReg_reg ..
  refine
    { pc := rfl, esp := hesp, regs := fun r hr => State.setReg_of_ne _ hr _, ret := ?_,
      other := fun a ha => ?_ }
  · exact (congrArg (Function.update s.mem (s.reg .esp - 4) next) hesp).trans
      (Function.update_self ..)
  · exact Function.update_of_ne (fun he => ha (he.trans hesp.symm)) ..

end X86
