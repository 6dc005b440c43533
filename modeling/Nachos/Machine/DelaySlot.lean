/-
# The load delay slot

A load reaches its register one instruction late: `LoadReg` and
`LoadValueReg` hold it meanwhile, and an interrupt applies it early
(`Machine::DelayedLoad(0, 0)`). So the same program can be in the same place
with its load pending or applied. `InSync r a` is this: `r` and `a` are the
same registers once their loads are applied, and `r` has either applied its
load or has the load of `a` pending.

An instruction that neither reads nor writes the target of the pending load
does the same to both (`Machine.Sync.oneInstruction`). The merging loads
`LWL` and `LWR` take the value on its way, so their target may be the
pending one. Under its own page table an instruction changes only its own
pages (`oneInstruction_outside`).

Key definitions: `Instruction.reads`, `Instruction.writes`, `hazard`, `InSync`, `Machine.Sync`,
`Machine.run`.
Key theorems: `operate_congr`, `Machine.Sync.retire`, `Machine.Sync.oneInstruction`,
`oneInstruction_ends`, `oneInstruction_outside`.
-/
import Mathlib
import Nachos.Machine.MipsSim

namespace Nachos

open Bytes (Byte Store)

/-! ### What an instruction touches -/

/-- The general registers an instruction reads. What `LWL` and `LWR` merge
into is not counted. -/
def Instruction.reads (i : Instruction) : List (Fin 32) :=
  match i.opCode with
  | .add | .addu | .and | .beq | .bne | .div | .divu | .mult | .multu | .nor | .or | .sb
  | .sh | .sllv | .slt | .sltu | .srav | .srlv | .sub | .subu | .sw | .swl | .swr | .xor =>
    [i.rs, i.rt]
  | .addi | .addiu | .andi | .bgez | .bgezal | .bgtz | .blez | .bltz | .bltzal | .jalr | .jr
  | .lb | .lbu | .lh | .lhu | .lw | .lwl | .lwr | .mthi | .mtlo | .ori | .slti | .sltiu
  | .xori => [i.rs]
  | .sll | .sra | .srl => [i.rt]
  | .j | .jal | .lui | .mfhi | .mflo | .rfe | .syscall | .unimp | .res => []

/-- The general registers an instruction assigns; a load assigns none. -/
def Instruction.writes (i : Instruction) : List (Fin 32) :=
  match i.opCode with
  | .add | .addu | .and | .jalr | .mfhi | .mflo | .nor | .or | .sll | .sllv | .slt | .sltu
  | .sra | .srav | .srl | .srlv | .sub | .subu | .xor => [i.rd]
  | .addi | .addiu | .andi | .lui | .ori | .slti | .sltiu | .xori => [i.rt]
  | .bgezal | .bltzal | .jal => [r31]
  | .beq | .bgez | .bgtz | .blez | .bltz | .bne | .div | .divu | .j | .jr | .lb | .lbu | .lh
  | .lhu | .lw | .lwl | .lwr | .mthi | .mtlo | .mult | .multu | .rfe | .sb | .sh | .sw | .swl
  | .swr | .syscall | .unimp | .res => []

/-- The instruction reads or writes the target of the pending load. -/
def hazard (i : Instruction) (r : Registers) : Bool :=
  (i.reads ++ i.writes).any fun x => x ≠ 0 ∧ r loadReg = regNum x

variable {i : Instruction} {r a : Registers} {x : Fin numTotalRegs}

/-- The actions are the same, or two loads that are discarded. -/
def Action.Same (A B : Action) : Prop :=
  A = B ∨ ∃ addr w f g, A = .load addr w 0 f ∧ B = .load addr w 0 g

/-- An arm depends only on the registers that it reads, the program counter,
Hi and Lo, and for a merging load on what it merges into. -/
theorem operate_congr (hreads : ∀ x ∈ i.reads, r (gpr x) = a (gpr x))
    (hpc : r nextPCReg = a nextPCReg) (hhi : r hiReg = a hiReg) (hlo : r loReg = a loReg)
    (hmerge : i.rt ≠ 0 → mergeInto r i.rt = mergeInto a i.rt) :
    (operate i r).Same (operate i a) := by
  obtain ⟨op, rs, rt, rd, extra⟩ := i
  simp only [Instruction.reads] at hreads
  cases op
  case lwl | lwr =>
    simp only [List.mem_singleton, forall_eq] at hreads
    simp only [operate, hreads]
    rcases eq_or_ne rt 0 with rfl | h0
    · exact Or.inr ⟨_, _, _, _, rfl, rfl⟩
    · rw [hmerge h0]
      exact Or.inl rfl
  all_goals
    left
    simp only [List.mem_cons, List.not_mem_nil, or_false, forall_eq_or_imp, forall_eq] at hreads
    simp only [operate, writeRegister, Function.update_apply, hreads, hpc, hhi, hlo]

/-- An arm assigns the registers it writes, Hi and Lo, and no other. -/
theorem operate_assigned {ws : List (Fin numTotalRegs × BitVec 32)} {pcAfter : BitVec 32}
    (h : operate i r = .assign ws pcAfter) :
    ∀ p ∈ ws, (∃ x ∈ i.writes, p.1 = gpr x) ∨ p.1 = hiReg ∨ p.1 = loReg := by
  obtain ⟨op, rs, rt, rd, extra⟩ := i
  simp only [Instruction.writes]
  cases op <;> simp only [operate] at h <;> (try split_ifs at h) <;> cases h <;> simp

/-! ### Registers with a load pending -/

/-- R0 is zero and the pending load names a general register. -/
def Regular (r : Registers) : Prop := r 0 = 0 ∧ (r loadReg).toNat < 32

/-- The registers once the pending load is applied. -/
def flush (r : Registers) : Registers := delayedLoad r 0 0

/-- `DelayedLoad`, register by register. -/
theorem delayedLoad_apply (h : (r loadReg).toNat < 32) (n v : BitVec 32) (x : Fin numTotalRegs) :
    delayedLoad r n v x =
      if x = 0 then 0 else if x = loadValueReg then v else if x = loadReg then n
      else if x.val = (r loadReg).toNat then r loadValueReg else r x := by
  have hlt : (r loadReg).toNat < numTotalRegs := h.trans (by decide)
  simp only [delayedLoad, writeIndexed, dif_pos hlt, writeRegister, Function.update_apply,
    Fin.ext_iff]

theorem regular_delayedLoad (h : (r loadReg).toNat < 32) {n v : BitVec 32} (hn : n.toNat < 32) :
    Regular (delayedLoad r n v) := by
  constructor
  · rw [delayedLoad_apply h, if_pos rfl]
  · rw [delayedLoad_apply h, if_neg (by decide), if_neg (by decide), if_pos rfl]
    exact hn

/-- Nothing is pending after a flush, so a second one changes nothing. -/
theorem flush_flush (h : (r loadReg).toNat < 32) : flush (flush r) = flush r := by
  funext x
  have hr : flush r loadReg = 0 := by simp [flush, delayedLoad_apply h, loadReg, loadValueReg]
  have hv : flush r loadValueReg = 0 := by simp [flush, delayedLoad_apply h, loadValueReg]
  have h0 : flush r 0 = 0 := by simp [flush, delayedLoad_apply h]
  unfold flush at hr hv h0 ⊢
  rw [delayedLoad_apply (by rw [hr]; decide), hr, hv]
  split_ifs with h1 h2 h3 h4
  · rw [h1, h0]
  · rw [h2, hv]
  · rw [h3, hr]
  · exact absurd (Fin.ext (by simpa using h4)) h1
  · rfl

/-- A register outside the general ones and the pending load is not flushed. -/
theorem flush_high (h : Regular r) (hx : 32 ≤ x.val) (h1 : x ≠ loadReg) (h2 : x ≠ loadValueReg) :
    flush r x = r x := by
  have h0 : x ≠ 0 := by
    rintro rfl
    exact absurd hx (by decide)
  have hl : x.val ≠ (r loadReg).toNat := by
    have := h.2
    omega
  unfold flush
  rw [delayedLoad_apply h.2, if_neg h0, if_neg h2, if_neg h1, if_neg hl]

/-- `r` and `a` are the same registers, `r` with its load applied or with that
of `a` pending. -/
structure InSync (r a : Registers) : Prop where
  left : Regular r
  right : Regular a
  flushed : flush r = flush a
  pending : r loadReg = 0 ∨ r loadReg = a loadReg

theorem InSync.refl (h : Regular r) : InSync r r := ⟨h, h, rfl, Or.inr rfl⟩

/-- An interrupt applies the pending load. -/
theorem InSync.flush (h : InSync r a) : InSync (flush r) a := by
  refine ⟨regular_delayedLoad h.left.2 (by decide), h.right, ?_, Or.inl ?_⟩
  · rw [flush_flush h.left.2, h.flushed]
  · simp [Nachos.flush, delayedLoad_apply h.left.2, loadReg, loadValueReg]

/-- Not the target of the pending load of `a`, nor of `r`. -/
theorem InSync.not_pending (h : InSync r a) (h0 : x ≠ 0) (ha : x.val ≠ (a loadReg).toNat) :
    x.val ≠ (r loadReg).toNat := by
  rcases h.pending with hp | hp
  · rw [hp]
    exact fun hc => h0 (Fin.ext (by simpa using hc))
  · rwa [hp]

/-- A register that is not the target of the pending load is the same in both. -/
theorem InSync.read (h : InSync r a) (h1 : x ≠ loadReg) (h2 : x ≠ loadValueReg)
    (h3 : x = 0 ∨ x.val ≠ (a loadReg).toNat) : r x = a x := by
  by_cases h0 : x = 0
  · rw [h0, h.left.1, h.right.1]
  · have hx : x.val ≠ (a loadReg).toNat := h3.resolve_left h0
    have hr : x.val ≠ (r loadReg).toNat := h.not_pending h0 hx
    have hf := congrFun h.flushed x
    unfold Nachos.flush at hf
    rw [delayedLoad_apply h.left.2, delayedLoad_apply h.right.2] at hf
    rwa [if_neg h0, if_neg h0, if_neg h2, if_neg h2, if_neg h1, if_neg h1, if_neg hr,
      if_neg hx] at hf

/-- The registers outside the general ones are the same in both. -/
theorem InSync.high (h : InSync r a) (hx : 32 ≤ x.val) (h1 : x ≠ loadReg) (h2 : x ≠ loadValueReg) :
    r x = a x := by
  rw [← flush_high h.left hx h1 h2, h.flushed, flush_high h.right hx h1 h2]

theorem gpr_ne {x : Fin 32} {y : Fin numTotalRegs} (hy : 32 ≤ y.val) : gpr x ≠ y := by
  intro h
  have : x.val = y.val := congrArg Fin.val h
  omega

theorem regNum_toNat (x : Fin 32) : (regNum x).toNat = x.val := by
  have := x.isLt
  simp only [regNum, BitVec.toNat_ofNat]
  omega

/-- What a merging load merges into is the value of `rt` once the pending load
is applied. -/
theorem mergeInto_eq (h : Regular r) {rt : Fin 32} (h0 : rt ≠ 0) :
    mergeInto r rt = flush r (gpr rt) := by
  have hne : gpr rt ≠ 0 := by
    intro hc
    have hv : (gpr rt).val = 0 := congrArg Fin.val hc
    exact h0 (Fin.ext hv)
  unfold mergeInto flush
  rw [delayedLoad_apply h.2, if_neg hne, if_neg (gpr_ne (by decide)), if_neg (gpr_ne (by decide))]
  by_cases hl : r loadReg = regNum rt
  · rw [if_pos hl, if_pos]
    rw [hl, regNum_toNat]
    rfl
  · rw [if_neg hl, if_neg]
    intro hc
    refine hl (BitVec.eq_of_toNat_eq ?_)
    rw [regNum_toNat, ← hc]
    rfl

/-- Without a hazard a register that is read or written is not the target of
the pending load. -/
theorem not_target_of_hazard (hz : hazard i a = false) {x : Fin 32} (hx : x ∈ i.reads ++ i.writes) :
    gpr x = 0 ∨ (gpr x).val ≠ (a loadReg).toNat := by
  have hc := List.any_eq_false.mp hz x hx
  by_cases h0 : x = 0
  · exact Or.inl (by rw [h0]; rfl)
  · right
    intro hl
    refine hc ?_
    simp only [ne_eq, decide_eq_true_eq]
    exact ⟨h0, BitVec.eq_of_toNat_eq (by rw [regNum_toNat, ← hl]; rfl)⟩

/-- Without a hazard an arm does the same in both. -/
theorem InSync.operate (h : InSync r a) (hz : hazard i a = false) :
    (operate i r).Same (operate i a) := by
  have hx : ∀ x ∈ i.reads, r (gpr x) = a (gpr x) := by
    intro x hx
    exact h.read (gpr_ne (by decide)) (gpr_ne (by decide))
      (not_target_of_hazard hz (List.mem_append_left _ hx))
  refine operate_congr hx (h.high (by decide) (by decide) (by decide))
    (h.high (by decide) (by decide) (by decide))
    (h.high (by decide) (by decide) (by decide)) fun h0 => ?_
  rw [mergeInto_eq h.left h0, mergeInto_eq h.right h0, h.flushed]

/-! ### The end of an instruction -/

theorem assignAll_keep {ws : List (Fin numTotalRegs × BitVec 32)} (r : Registers)
    (h : ∀ p ∈ ws, p.1 ≠ x) :
    assignAll r ws x = r x := by
  induction ws generalizing r with
  | nil => rfl
  | cons p ws ih =>
    rw [List.forall_mem_cons] at h
    calc assignAll r (p :: ws) x = assignAll (writeRegister r p.1 p.2) ws x := rfl
      _ = writeRegister r p.1 p.2 x := ih _ h.2
      _ = r x := Function.update_of_ne h.1.symm _ _

theorem assignAll_assigned {ws : List (Fin numTotalRegs × BitVec 32)} (r a : Registers)
    (h : ∃ p ∈ ws, p.1 = x) :
    assignAll r ws x = assignAll a ws x := by
  induction ws generalizing r a with
  | nil => simp at h
  | cons p ws ih =>
    change assignAll (writeRegister r p.1 p.2) ws x = assignAll (writeRegister a p.1 p.2) ws x
    by_cases hl : ∃ q ∈ ws, q.1 = x
    · exact ih _ _ hl
    -- the head is the last assignment to `x`
    · have hk : ∀ q ∈ ws, q.1 ≠ x := fun q hq hc => hl ⟨q, hq, hc⟩
      have hp : p.1 = x := by
        rcases h with ⟨q, hq, hqx⟩
        rcases List.mem_cons.mp hq with rfl | hq
        · exact hqx
        · exact absurd hqx (hk q hq)
      rw [assignAll_keep _ hk, assignAll_keep _ hk, hp]
      simp [writeRegister]

theorem advance_apply (r : Registers) (pc : BitVec 32) (x : Fin numTotalRegs) :
    advance r pc x = if x = nextPCReg then pc else if x = pcReg then r nextPCReg
      else if x = prevPCReg then r pcReg else r x := by
  simp only [advance, writeRegister, Function.update_apply]
  rfl

theorem flush_advance (h : Regular r) (pc : BitVec 32) :
    flush (advance r pc) = advance (flush r) pc := by
  have hl : advance r pc loadReg = r loadReg := rfl
  have hv : advance r pc loadValueReg = r loadValueReg := rfl
  have hadv : Regular (advance r pc) := ⟨h.1, h.2⟩
  funext x
  by_cases hx : x = nextPCReg ∨ x = pcReg ∨ x = prevPCReg
  · -- the program counters are not flushed
    have hpc : flush (advance r pc) x = advance r pc x := by
      rcases hx with rfl | rfl | rfl <;> exact flush_high hadv (by decide) (by decide) (by decide)
    rw [hpc, advance_apply, advance_apply, flush_high h (by decide) (by decide) (by decide),
      flush_high h (by decide) (by decide) (by decide)]
    rcases hx with rfl | rfl | rfl <;> rfl
  · obtain ⟨h1, h2, h3⟩ : x ≠ nextPCReg ∧ x ≠ pcReg ∧ x ≠ prevPCReg := by
      simpa only [not_or] using hx
    have hkeep : ∀ r : Registers, advance r pc x = r x := by
      intro r
      rw [advance_apply, if_neg h1, if_neg h2, if_neg h3]
    rw [hkeep]
    unfold flush
    rw [delayedLoad_apply hadv.2, delayedLoad_apply h.2, hl, hv, hkeep]

theorem InSync.advance (h : InSync r a) (pc : BitVec 32) :
    InSync (advance r pc) (advance a pc) := by
  refine ⟨h.left, h.right, ?_, h.pending⟩
  rw [flush_advance h.left, flush_advance h.right, h.flushed]

@[simp] theorem delayedLoad_loadReg (r : Registers) (n v : BitVec 32) :
    delayedLoad r n v loadReg = n := by
  simp [delayedLoad, writeRegister, loadReg, loadValueReg]

@[simp] theorem delayedLoad_loadValueReg (r : Registers) (n v : BitVec 32) :
    delayedLoad r n v loadValueReg = v := by
  simp [delayedLoad, writeRegister, loadValueReg]

/-- Registers that differ at most in the value of a load that is discarded are
in sync. -/
theorem InSync.of_eq (hr : Regular r) (ha : Regular a) (h : ∀ x, x ≠ loadValueReg → r x = a x)
    (hv : a loadReg = 0 ∨ r loadValueReg = a loadValueReg) : InSync r a := by
  have hl : r loadReg = a loadReg := h loadReg (by decide)
  refine ⟨hr, ha, funext fun x => ?_, Or.inr hl⟩
  unfold Nachos.flush
  rw [delayedLoad_apply hr.2, delayedLoad_apply ha.2, hl]
  split_ifs with h0 h1 h2 h3
  · rfl
  · rfl
  · rfl
  · refine hv.resolve_left fun hz => h0 (Fin.ext ?_)
    rw [h3, hz]
    rfl
  · exact h x h1

/-- The assignments of an instruction are to registers that are not the target
of the pending load: once the load is applied they leave the same. -/
theorem InSync.assigned (h : InSync r a) {ws : List (Fin numTotalRegs × BitVec 32)}
    (hws : ∀ p ∈ ws, p.1.val < 34 ∧ (p.1 = 0 ∨ p.1.val ≠ (a loadReg).toNat)) {n v v' : BitVec 32}
    (hn : n.toNat < 32) (hv : n = 0 ∨ v = v') :
    InSync (delayedLoad (assignAll r ws) n v) (delayedLoad (assignAll a ws) n v') := by
  have hhigh : ∀ (r : Registers) (y : Fin numTotalRegs), 34 ≤ y.val → assignAll r ws y = r y := by
    intro r y hy
    refine assignAll_keep r fun p hp hc => ?_
    have := (hws p hp).1
    rw [hc] at this
    omega
  have hl : ∀ r : Registers, assignAll r ws loadReg = r loadReg := fun r => hhigh r _ (by decide)
  have hlv : ∀ r : Registers, assignAll r ws loadValueReg = r loadValueReg :=
    fun r => hhigh r _ (by decide)
  have hr32 : (assignAll r ws loadReg).toNat < 32 := (hl r).symm ▸ h.left.2
  have ha32 : (assignAll a ws loadReg).toNat < 32 := (hl a).symm ▸ h.right.2
  refine .of_eq (regular_delayedLoad hr32 hn) (regular_delayedLoad ha32 hn) (fun x hx => ?_)
    (by simpa using hv)
  rw [delayedLoad_apply hr32, delayedLoad_apply ha32, hl, hl, hlv, hlv, if_neg hx, if_neg hx]
  by_cases h0 : x = 0
  · rw [if_pos h0, if_pos h0]
  by_cases h1 : x = loadReg
  · rw [if_neg h0, if_neg h0, if_pos h1, if_pos h1]
  rw [if_neg h0, if_neg h0, if_neg h1, if_neg h1]
  by_cases hw : ∃ p ∈ ws, p.1 = x
  · -- assigned: the target of neither load
    obtain ⟨p, hp, hpx⟩ := hw
    have hna : x.val ≠ (a loadReg).toNat := by
      have := (hws p hp).2
      rw [hpx] at this
      exact this.resolve_left h0
    rw [if_neg hna, if_neg (h.not_pending h0 hna)]
    exact assignAll_assigned r a ⟨p, hp, hpx⟩
  · -- kept: what a flush leaves
    have hk : ∀ p ∈ ws, p.1 ≠ x := fun p hp hc => hw ⟨p, hp, hc⟩
    have hf := congrFun h.flushed x
    unfold Nachos.flush at hf
    rw [delayedLoad_apply h.left.2, delayedLoad_apply h.right.2] at hf
    rw [if_neg h0, if_neg h0, if_neg hx, if_neg hx, if_neg h1, if_neg h1] at hf
    rw [assignAll_keep r hk, assignAll_keep a hk, hf]

/-! ### One instruction on two machines -/

/-- The next instruction reads or writes the target of the pending load. -/
def Machine.hazard (m : Machine) : Bool :=
  match readMem m.mainMemory m.pageTable (m.registers pcReg) .word with
  | .error _ => false
  | .ok (raw, _) => Nachos.hazard (decode raw) m.registers

/-- The machine after one instruction that neither traps nor crashes. -/
def Machine.next (m : Machine) : Option Machine :=
  match oneInstruction m with
  | .done m' => some m'
  | _ => none

/-- `k` instructions with nothing in between. -/
def Machine.run (m : Machine) : ℕ → Option Machine
  | 0 => some m
  | k + 1 => (m.run k).bind Machine.next

/-- The first `k` instructions keep off the targets of pending loads. -/
def Machine.NoHazard (m : Machine) (k : ℕ) : Prop :=
  ∀ j < k, ∀ a, m.run j = some a → a.hazard = false

variable {m m' n : Machine} {ws : List (Fin numTotalRegs × BitVec 32)} {pc k v v' : BitVec 32}

theorem Machine.next_eq : m.next = some m' ↔ oneInstruction m = .done m' := by
  unfold Machine.next
  split <;> simp_all

/-- The machines are the same to the program: its registers, its page table,
and the memory in its pages. -/
structure Machine.Sync (m n : Machine) : Prop where
  registers : InSync m.registers n.registers
  pageTable : m.pageTable = n.pageTable
  memory : ∀ x, InPages n.pageTable x → m.mainMemory x = n.mainMemory x

theorem Machine.Sync.access (h : m.Sync n) {pt : PageTable} {mem mem' : Store}
    (hmap : pt.map (·.physicalPage) = n.pageTable.map (·.physicalPage))
    (hmem : ∀ x, m.mainMemory x = n.mainMemory x → mem x = mem' x) :
    ({ m with mainMemory := mem, pageTable := pt } : Machine).Sync
      { n with mainMemory := mem', pageTable := pt } :=
  ⟨h.registers, rfl, fun x hx => hmem x (h.memory x ((inPages_of_map hmap).mp hx))⟩

/-- The registers that an instruction may assign while the load of `a` is
pending. -/
def Assignable (a : Registers) (ws : List (Fin numTotalRegs × BitVec 32)) : Prop :=
  ∀ p ∈ ws, p.1.val < 34 ∧ (p.1 = 0 ∨ p.1.val ≠ (a loadReg).toNat)

theorem assignable_nil (a : Registers) : Assignable a [] := by
  intro p hp
  cases hp

theorem Machine.Sync.retire (h : m.Sync n) (hws : Assignable n.registers ws) (hk : k.toNat < 32)
    (hv : k = 0 ∨ v = v') (hm : retire m ws pc k v = .done m') :
    ∃ n', Nachos.retire n ws pc k v' = .done n' ∧ m'.Sync n' := by
  cases hm
  exact ⟨_, rfl, (h.registers.assigned hws hk hv).advance pc, h.pageTable, h.memory⟩

theorem Machine.Sync.nextPC (h : m.Sync n) : m.registers nextPCReg = n.registers nextPCReg :=
  h.registers.high (by decide) (by decide) (by decide)

theorem Machine.Sync.readMem (h : m.Sync n) (hb : Bounded n.pageTable) (addr : BitVec 32)
    (w : Width) :
    readMem m.mainMemory m.pageTable addr w = Nachos.readMem n.mainMemory n.pageTable addr w := by
  rw [h.pageTable]
  exact readMem_congr hb h.memory

theorem Machine.Sync.load (h : m.Sync n) (hb : Bounded n.pageTable) {addr : BitVec 32} {w : Width}
    {rt : Fin 32} {f g : BitVec 32 → BitVec 32} (hfg : rt = 0 ∨ f = g)
    (hm : perform m (.load addr w rt f) = .done m') :
    ∃ n', perform n (.load addr w rt g) = .done n' ∧ m'.Sync n' := by
  simp only [perform, h.readMem hb, h.nextPC] at hm ⊢
  cases hr : Nachos.readMem n.mainMemory n.pageTable addr w with
  | error which => rw [hr] at hm; cases hm
  | ok o =>
    obtain ⟨value, pt⟩ := o
    rw [hr] at hm
    refine (h.access (readMem_map hr) fun x hx => hx).retire (assignable_nil _) ?_ ?_ hm
    · rw [regNum_toNat]
      exact rt.isLt
    · exact hfg.imp (fun h0 => by rw [h0]; rfl) (fun hf => by rw [hf])

theorem Machine.Sync.store (h : m.Sync n) {addr : BitVec 32} {w : Width} {value : BitVec 32}
    (hm : perform m (.store addr w value) = .done m') :
    ∃ n', perform n (.store addr w value) = .done n' ∧ m'.Sync n' := by
  simp only [perform, h.pageTable, h.nextPC] at hm ⊢
  cases hw : writeMem m.mainMemory n.pageTable addr w value with
  | error which => rw [hw] at hm; cases hm
  | ok o =>
    obtain ⟨mem, pt⟩ := o
    rw [hw] at hm
    obtain ⟨mem', hw', hmem⟩ := writeMem_congr n.mainMemory hw
    rw [hw']
    exact (h.access (writeMem_map hw) hmem).retire (assignable_nil _) (by decide) (Or.inl rfl) hm

theorem Machine.Sync.update (h : m.Sync n) (hb : Bounded n.pageTable) {addr : BitVec 32}
    {merge : BitVec 32 → BitVec 32} (hm : perform m (.update addr merge) = .done m') :
    ∃ n', perform n (.update addr merge) = .done n' ∧ m'.Sync n' := by
  simp only [perform, h.readMem hb, h.nextPC] at hm ⊢
  cases hr : Nachos.readMem n.mainMemory n.pageTable addr .word with
  | error which => rw [hr] at hm; cases hm
  | ok o =>
    obtain ⟨value, pt⟩ := o
    rw [hr] at hm
    simp only at hm ⊢
    cases hw : writeMem m.mainMemory pt addr .word (merge value) with
    | error which => rw [hw] at hm; cases hm
    | ok o =>
      obtain ⟨mem, pt'⟩ := o
      rw [hw] at hm
      obtain ⟨mem', hw', hmem⟩ := writeMem_congr n.mainMemory hw
      rw [hw']
      exact (h.access ((writeMem_map hw).trans (readMem_map hr)) hmem).retire
        (assignable_nil _) (by decide)
        (Or.inl rfl) hm

/-- The same action on two machines in sync. -/
theorem Machine.Sync.perform (h : m.Sync n) (hb : Bounded n.pageTable) {A B : Action}
    (hAB : A.Same B) (hws : ∀ ws pc, B = .assign ws pc → Assignable n.registers ws)
    (hm : perform m A = .done m') :
    ∃ n', Nachos.perform n B = .done n' ∧ m'.Sync n' := by
  rcases hAB with rfl | ⟨addr, w, f, g, rfl, rfl⟩
  · cases A with
    | assign ws pc => exact h.retire (hws ws pc rfl) (by decide) (Or.inl rfl) hm
    | load addr w rt f => exact h.load hb (Or.inr rfl) hm
    | store addr w value => exact h.store hm
    | update addr merge => exact h.update hb hm
    | raise which badVAddr => cases hm
    | crash => cases hm
  · exact h.load hb (Or.inl rfl) hm

/-- Without a hazard an instruction assigns no target of a pending load. -/
theorem assignable_operate (ha : Regular a) (hz : Nachos.hazard i a = false)
    (h : operate i a = .assign ws pc) : Assignable a ws := by
  have hl := ha.2
  intro p hp
  rcases operate_assigned h p hp with ⟨x, hx, hpx⟩ | hpx | hpx
  · rw [hpx]
    exact ⟨x.isLt.trans (by decide), not_target_of_hazard hz (List.mem_append_right _ hx)⟩
  · rw [hpx]
    exact ⟨by decide, Or.inr (Nat.ne_of_gt hl)⟩
  · rw [hpx]
    exact ⟨by decide, Or.inr (Nat.ne_of_gt (hl.trans (by decide)))⟩

/-- **The delay slot.** Where the pending load is not touched, an instruction
takes two machines in sync to two machines in sync. -/
theorem Machine.Sync.oneInstruction (h : m.Sync n) (hb : Bounded n.pageTable)
    (hz : n.hazard = false) (hm : oneInstruction m = .done m') :
    ∃ n', Nachos.oneInstruction n = .done n' ∧ m'.Sync n' := by
  have hpc : m.registers pcReg = n.registers pcReg :=
    h.registers.high (by decide) (by decide) (by decide)
  unfold Nachos.oneInstruction at hm ⊢
  unfold Machine.hazard at hz
  rw [hpc, h.readMem hb] at hm
  cases hr : Nachos.readMem n.mainMemory n.pageTable (n.registers pcReg) .word with
  | error which => rw [hr] at hm; cases hm
  | ok o =>
    obtain ⟨raw, pt⟩ := o
    rw [hr] at hm hz
    have hacc := h.access (readMem_map hr) fun x hx => hx
    exact hacc.perform (bounded_of_map (readMem_map hr) hb) (h.registers.operate hz)
      (fun ws pc hA => assignable_operate h.registers.right hz hA) hm

/-! ### What an instruction does to the registers -/

/-- An instruction that ends has assigned registers that it writes, Hi or Lo;
then the pending load is applied and the next one, if any, names a general
register. -/
def Ends (i : Instruction) (r r' : Registers) : Prop :=
  ∃ ws pc n v, r' = Nachos.advance (delayedLoad (assignAll r ws) n v) pc ∧ n.toNat < 32 ∧
    ∀ p ∈ ws, (∃ x ∈ i.writes, p.1 = gpr x) ∨ p.1 = hiReg ∨ p.1 = loReg

theorem ends_retire {i : Instruction}
    (hws : ∀ p ∈ ws, (∃ x ∈ i.writes, p.1 = gpr x) ∨ p.1 = hiReg ∨ p.1 = loReg) (hk : k.toNat < 32)
    (h : retire m ws pc k v = .done m') : Ends i m.registers m'.registers := by
  cases h
  exact ⟨ws, pc, k, v, rfl, hk, hws⟩

theorem perform_ends {i : Instruction} (h : perform m (operate i m.registers) = .done m') :
    Ends i m.registers m'.registers := by
  have hnone : ∀ p ∈ ([] : List (Fin numTotalRegs × BitVec 32)),
      (∃ x ∈ i.writes, p.1 = gpr x) ∨ p.1 = hiReg ∨ p.1 = loReg := by
    intro p hp
    cases hp
  cases hop : operate i m.registers with
  | assign ws pc =>
    rw [hop] at h
    exact ends_retire (operate_assigned hop) (by decide) h
  | load addr w rt f =>
    rw [hop] at h
    simp only [perform] at h
    split at h
    · cases h
    · have hrt : (regNum rt).toNat < 32 := (regNum_toNat rt).symm ▸ rt.isLt
      have hends := ends_retire hnone hrt h
      exact hends
  | store addr w value =>
    rw [hop] at h
    simp only [perform] at h
    split at h
    · cases h
    · have hends := ends_retire hnone (by decide) h
      exact hends
  | update addr merge =>
    rw [hop] at h
    simp only [perform] at h
    split at h
    · cases h
    · split at h
      · cases h
      · have hends := ends_retire hnone (by decide) h
        exact hends
  | raise which badVAddr => rw [hop] at h; cases h
  | crash => rw [hop] at h; cases h

theorem oneInstruction_ends (h : oneInstruction m = .done m') :
    ∃ raw pt, readMem m.mainMemory m.pageTable (m.registers pcReg) .word = .ok (raw, pt) ∧
      Ends (decode raw) m.registers m'.registers := by
  unfold Nachos.oneInstruction at h
  split at h
  · cases h
  · rename_i raw pt hr
    exact ⟨raw, pt, hr, perform_ends (m := { m with pageTable := pt }) h⟩

variable {r r' : Registers} {i : Instruction}

/-- No arm assigns a register above Hi and Lo. -/
theorem assignAll_high (hws : ∀ p ∈ ws, (∃ x ∈ i.writes, p.1 = gpr x) ∨ p.1 = hiReg ∨ p.1 = loReg)
    {x : Fin numTotalRegs} (hx : 34 ≤ x.val) : assignAll r ws x = r x := by
  refine assignAll_keep r fun p hp hc => ?_
  rw [← hc] at hx
  rcases hws p hp with ⟨y, -, hy⟩ | hy | hy
  · rw [hy] at hx
    exact absurd hx (not_le.mpr (y.isLt.trans (by decide)))
  · rw [hy] at hx
    exact absurd hx (by decide)
  · rw [hy] at hx
    exact absurd hx (by decide)

theorem Ends.regular (h : Ends i r r') (hr : (r loadReg).toNat < 32) : Regular r' := by
  obtain ⟨ws, pc, n, v, rfl, hn, hws⟩ := h
  have hl : (assignAll r ws loadReg).toNat < 32 := by rwa [assignAll_high hws (by decide)]
  have hreg : Regular (delayedLoad (assignAll r ws) n v) := regular_delayedLoad hl hn
  exact ⟨hreg.1, hreg.2⟩

theorem advance_gpr (r : Registers) (pc : BitVec 32) (x : Fin 32) :
    Nachos.advance r pc (gpr x) = r (gpr x) := by
  rw [advance_apply, if_neg (gpr_ne (by decide)), if_neg (gpr_ne (by decide)),
    if_neg (gpr_ne (by decide))]

/-- A general register that is not written holds what it does once the pending
load is applied. -/
theorem Ends.keeps (h : Ends i r r') (hr : Regular r) {x : Fin 32} (hx : x ∉ i.writes) :
    r' (gpr x) = flush r (gpr x) := by
  obtain ⟨ws, pc, n, v, rfl, hn, hws⟩ := h
  have hl : assignAll r ws loadReg = r loadReg := assignAll_high hws (by decide)
  have hv : assignAll r ws loadValueReg = r loadValueReg := assignAll_high hws (by decide)
  have hk : assignAll r ws (gpr x) = r (gpr x) := by
    refine assignAll_keep r fun p hp hc => ?_
    rcases hws p hp with ⟨y, hy, hpy⟩ | hpy | hpy
    · have hyx : gpr y = gpr x := hpy.symm.trans hc
      have hval : (gpr y).val = (gpr x).val := congrArg Fin.val hyx
      have heq : y = x := Fin.ext hval
      exact hx (heq ▸ hy)
    · exact gpr_ne (by decide) (hc.symm.trans hpy)
    · exact gpr_ne (by decide) (hc.symm.trans hpy)
  rw [advance_gpr, flush, delayedLoad_apply (hl ▸ hr.2), delayedLoad_apply hr.2, hl, hv, hk,
    if_neg (gpr_ne (y := loadValueReg) (by decide)), if_neg (gpr_ne (y := loadReg) (by decide)),
    if_neg (gpr_ne (y := loadValueReg) (by decide)), if_neg (gpr_ne (y := loadReg) (by decide))]

/-! ### What an instruction leaves alone -/

/-- `m'` differs from `m` only in the pages of `m`, which are those of `m'`. -/
def Machine.Outside (m m' : Machine) : Prop :=
  (∀ x, ¬ InPages m.pageTable x → m'.mainMemory x = m.mainMemory x) ∧
    m'.pageTable.map (·.physicalPage) = m.pageTable.map (·.physicalPage)

theorem perform_outside (hb : Bounded m.pageTable) {A : Action} (h : perform m A = .done m') :
    m.Outside m' := by
  cases A with
  | assign ws pc => cases h; exact ⟨fun x _ => rfl, rfl⟩
  | load addr w rt f =>
    simp only [perform] at h
    split at h
    · cases h
    · rename_i value pt hr
      cases h
      exact ⟨fun x _ => rfl, readMem_map hr⟩
  | store addr w value =>
    simp only [perform] at h
    split at h
    · cases h
    · rename_i mem pt hw
      cases h
      exact writeMem_outside hb hw
  | update addr merge =>
    simp only [perform] at h
    split at h
    · cases h
    · rename_i value pt hr
      split at h
      · cases h
      · rename_i mem pt' hw
        cases h
        obtain ⟨hout, hmap⟩ := writeMem_outside (bounded_of_map (readMem_map hr) hb) hw
        refine ⟨fun x hx => hout x ?_, hmap.trans (readMem_map hr)⟩
        rwa [inPages_of_map (readMem_map hr)]
  | raise which badVAddr => cases h
  | crash => cases h

/-- An instruction changes only the pages of its own table. -/
theorem oneInstruction_outside (hb : Bounded m.pageTable) (h : oneInstruction m = .done m') :
    m.Outside m' := by
  unfold Nachos.oneInstruction at h
  split at h
  · cases h
  · rename_i raw pt hr
    obtain ⟨hout, hmap⟩ := perform_outside (bounded_of_map (readMem_map hr) hb) h
    refine ⟨fun x hx => hout x ?_, hmap.trans (readMem_map hr)⟩
    rwa [inPages_of_map (readMem_map hr)]

end Nachos
