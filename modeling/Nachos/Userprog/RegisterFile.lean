/-
# The register file

`DelayedLoad` assigns `registers[registers[LoadReg]]`, and nothing in it looks
whether `LoadReg` holds the number of a general register. That it always does
is an invariant of every schedule (`RegSys`): an instruction ends by naming
the target of its own load (`oneInstruction_ends`), a trap and an interrupt
by naming R0, `InitRegisters` clears the register, and a context switch saves
and restores what was there. The registers of a thread that has no address
space yet are garbage, and are not restored.

The same write makes R0 zero again, which the arms with `rd` or `rt` 0 assign.

Key definitions: `RegSys.Executes`, `RegSys.Settled`, `IndirectWrite`.
Key theorems: `RegSys.settled_step`, `RegSys.register_file`.
-/
import Mathlib
import Nachos.Machine.Arithmetic
import Nachos.Userprog.Preemption

namespace Nachos

/-! ### The indirect write -/

/-- `registers[registers[LoadReg]] = registers[LoadValueReg]` is in bounds,
and assigns none of PC, NextPC, Hi, Lo, `LoadReg` and the others that are no
general registers. -/
structure IndirectWrite (r : Registers) : Prop where
  inBounds : (r loadReg).toNat < numTotalRegs
  keeps : ∀ x : Fin numTotalRegs, numGPRegs ≤ x.val →
    writeIndexed r (r loadReg) (r loadValueReg) x = r x

theorem indirectWrite_of_lt {r : Registers} (h : (r loadReg).toNat < numGPRegs) :
    IndirectWrite r := by
  have hlt : (r loadReg).toNat < numTotalRegs := h.trans (by decide)
  refine ⟨hlt, fun x hx => ?_⟩
  rw [writeIndexed, dif_pos hlt]
  refine Function.update_of_ne (fun hc => ?_) _ _
  rw [hc] at hx
  exact absurd h (not_lt.mpr hx)

theorem regular_exceptionReturn {which : ExceptionType} {type result : BitVec 32} {r r' : Registers}
    (hr : Regular r) (h : exceptionReturn which type result r = some r') : Regular r' := by
  unfold exceptionReturn at h
  split at h
  · cases h
    exact hr
  · split at h
    · cases h
    · -- `WriteRegister(2, result)`, and the program counters
      cases h
      exact ⟨hr.1, hr.2⟩
    · cases h
      exact hr
  · cases h

namespace RegSys

variable {s s' : RegSys} {th : UserThread}

/-- The instructions of the run are those of the machine, whatever the memory
and the page table are. -/
def Executes (s : RegSys) (l : Label) : Prop :=
  ∀ r, l = .user r → ∃ mem pt m', oneInstruction ⟨s.registers, mem, pt⟩ = .done m' ∧
    r = m'.registers

/-- The machine's registers are regular, and so are those that a context
switch may restore. -/
structure Settled (s : RegSys) : Prop where
  machine : Regular s.registers
  saved : ∀ t th, t ≠ s.current → s.threads t = some th → th.space.isSome → Regular th.userRegisters

theorem settled_initial : Settled initial := by
  refine ⟨⟨rfl, by decide⟩, fun t th ht hth => ?_⟩
  have hnone : initial.threads t = none := if_neg ht
  rw [hnone] at hth
  cases hth

/-- The current thread stays. -/
theorem Settled.stay (h : Settled s) {r : Registers} (hr : Regular r) (o : Option UserThread) :
    Settled { s.setThread s.current o with registers := r } := by
  refine ⟨hr, fun t th ht hth => h.saved t th ht ?_⟩
  have hne : t ≠ s.current := ht
  simp only [setThread] at hth
  rwa [Function.update_of_ne hne] at hth

/-- What `RestoreUserState` leaves, if anything. -/
theorem Settled.restore (h : Settled s) {t : Tid} {th : UserThread} (ht : t ≠ s.current)
    (hth : s.threads t = some th) : Regular (s.restoreUserState th) := by
  unfold restoreUserState
  split_ifs with hs
  · exact h.saved t th ht hth hs
  · exact h.machine

/-- Another thread is switched in, and `o` is left of the old one. -/
theorem Settled.switched (h : Settled s) {t : Tid} {th : UserThread} (ht : t ≠ s.current)
    (hth : s.threads t = some th) {o : Option UserThread}
    (ho : ∀ th1, o = some th1 → th1.space.isSome → Regular th1.userRegisters) :
    Settled { s.setThread s.current o with registers := s.restoreUserState th, current := t } := by
  refine ⟨h.restore ht hth, fun u th1 hu hth1 hs => ?_⟩
  simp only [setThread, Function.update_apply] at hth1
  split_ifs at hth1 with hc
  · exact ho th1 hth1 hs
  · exact h.saved u th1 hc hth1 hs

theorem Settled.fork (h : Settled s) (userRegisters : Registers) :
    Settled { s.setThread s.next (some ⟨userRegisters, none, .starting⟩) with
      next := s.next + 1 } := by
  refine ⟨h.machine, fun t th ht hth hs => ?_⟩
  simp only [setThread, Function.update_apply] at hth
  split_ifs at hth with hc
  · cases hth
    cases hs
  · exact h.saved t th ht hth hs

/-- `SaveUserState` saves what the machine holds. -/
theorem Settled.save (h : Settled s) {th1 : UserThread} (h1 : some (s.saveUserState th) = some th1)
    (hs : th1.space.isSome) : Regular th1.userRegisters := by
  cases h1
  unfold saveUserState at hs ⊢
  split_ifs at hs ⊢ with hspace
  · exact h.machine
  · exact absurd hs hspace

/-- Every step leaves regular registers. -/
theorem settled_step {l : Label} (h : Settled s) (hl : Executes s l) (hs : s.step l = some s') :
    Settled s' := by
  obtain ⟨th, hth, hs⟩ := Option.bind_eq_some_iff.mp hs
  cases l with
  | user r =>
    simp only [stepOf] at hs
    split at hs
    · cases hs
      obtain ⟨mem, pt, m', hstep, rfl⟩ := hl r rfl
      obtain ⟨raw, pt', -, hends⟩ := oneInstruction_ends hstep
      exact ⟨hends.regular h.machine.2, h.saved⟩
    · cases hs
  | trap which badVAddr =>
    simp only [stepOf] at hs
    split at hs
    · cases hs
      have hb : Regular (writeRegister s.registers badVAddrReg badVAddr) := h.machine
      exact h.stay (regular_delayedLoad hb.2 (by decide)) _
    · cases hs
  | tick =>
    cases hs
    exact ⟨regular_delayedLoad h.machine.2 (by decide), h.saved⟩
  | fork userRegisters =>
    cases hs
    exact h.fork userRegisters
  | execute numPages =>
    simp only [stepOf] at hs
    split at hs
    · cases hs
      exact h.stay (TimeShare.regular_initRegisters numPages) _
    · cases hs
  | switch t =>
    simp only [stepOf] at hs
    split_ifs at hs with hne
    obtain ⟨th', ht, rfl⟩ := Option.map_eq_some_iff.mp hs
    exact h.switched hne ht fun th1 h1 hspace => h.save h1 hspace
  | finish t =>
    simp only [stepOf] at hs
    split_ifs at hs with hne
    obtain ⟨th', ht, rfl⟩ := Option.map_eq_some_iff.mp hs
    refine h.switched hne ht fun th1 h1 => ?_
    cases h1
  | ret result =>
    simp only [stepOf] at hs
    split at hs
    · obtain ⟨r, hr, rfl⟩ := Option.map_eq_some_iff.mp hs
      exact h.stay (regular_exceptionReturn h.machine hr) _
    · cases hs

theorem settled_reach (h : Runs.Reach step (· = initial) Executes s) : Settled s := by
  refine h.inv Settled ?_ fun _ _ _ _ hI hl hs => settled_step hI hl hs
  rintro s0 rfl
  exact settled_initial

/-- **The register file.** In every state of every run R0 is zero and `LoadReg`
names a general register, so each of the calls of `DelayedLoad` writes where it
should. -/
theorem register_file (h : Runs.Reach step (· = initial) Executes s) :
    s.registers 0 = 0 ∧ (s.registers loadReg).toNat < numGPRegs ∧
      -- `CheckIfDue`
      IndirectWrite s.registers ∧
      -- `RaiseException`
      (∀ badVAddr, IndirectWrite (writeRegister s.registers badVAddrReg badVAddr)) ∧
      -- the end of an instruction
      ∀ i ws pcAfter, operate i s.registers = .assign ws pcAfter →
        IndirectWrite (assignAll s.registers ws) := by
  obtain ⟨hr, -⟩ := settled_reach h
  refine ⟨hr.1, hr.2, indirectWrite_of_lt hr.2, fun badVAddr => indirectWrite_of_lt hr.2,
    fun i ws pcAfter hop => ?_⟩
  refine indirectWrite_of_lt ?_
  rw [assignAll_high (operate_assigned hop) (by decide)]
  exact hr.2

/-- A program that starts with `addiu r0,r0,5`. -/
theorem register_file_r0 :
    ∃ s, Runs.Reach step (· = initial) Executes s ∧ s.registers pcReg = 4 ∧ s.registers 0 = 0 := by
  have hf := Machine.fetches_ofWord 0x24000005 (r := initRegisters 1) rfl
  have hstores := hf.stores (x := 0) (v := 5) rfl
  have h0 : Runs.Reach step (· = initial) Executes initial := .init rfl
  have h1 := h0.step (.execute 1) (fun r hr => by cases hr) rfl
  have h2 := h1.step (.user _) (fun r hr => ⟨_, _, _, hstores.executed, by cases hr; rfl⟩) rfl
  exact ⟨_, h2, rfl, (register_file h2).1⟩

end RegSys

end Nachos
