/-
# Where a program is loaded makes no difference to it

`AddrSpace::Load` takes whatever pages of main memory are free, so the same
program is at other places when other programs were loaded before it. A program
gets at its memory by virtual addresses only: its own accesses translate
(`Machine::ReadMem`, `Machine::WriteMem`), and so do the kernel's for it
(`User2System`, `System2User`). Two machines are `Alike` for a program if it has
the same registers, as many pages, and the same byte at every virtual address,
wherever the pages are. Every instruction and every copy of the kernel takes
machines that are alike to machines that are alike, or raises the same exception
on both (`Machine.Alike.oneInstruction`, `Machine.Alike.event`).

* `placement_invisible`: an executable that is loaded into two kernels, with any
  pages free and any others in memory, runs in both alike, whatever other
  programs do to their pages meanwhile.

Key definitions: `Both`, `UserMem.Alike`, `Machine.Alike`, `Step.Alike`, `Machine.event`.
Key theorems: `byte_write`, `Machine.Alike.oneInstruction`, `Machine.Alike.event`,
`placement_invisible`.
-/
import Mathlib
import Nachos.Base.Runs
import Nachos.Machine.DelaySlot
import Nachos.Machine.VirtualMemory
import Nachos.Userprog.AddrSpace
import Nachos.Userprog.Exception
import Nachos.Userprog.UserMemory

namespace Nachos

open Bytes (Byte Store)

variable {pt pt' : PageTable} {mem mem' : Store} {a : BitVec 32} {w : Width}
  {u u' : UserMem} {v : ℕ}

/-! ### An access in an address space -/

/-- An access that is aligned to its size and starts in the space. -/
def AccessFits (pt : PageTable) (a : BitVec 32) (w : Width) : Prop :=
  a.toNat % w.size = 0 ∧ a.toNat < pt.length * pageSize

instance (pt : PageTable) (a : BitVec 32) (w : Width) : Decidable (AccessFits pt a w) :=
  inferInstanceAs (Decidable (_ ∧ _))

/-- It ends in the page where it starts. -/
theorem AccessFits.room (h : AccessFits pt a w) :
    a.toNat % pageSize + w.size ≤ pageSize ∧ a.toNat + w.size ≤ pt.length * pageSize := by
  obtain ⟨hal, hlt⟩ := h
  unfold pageSize at *
  cases w <;> simp only [Width.size] at hal ⊢ <;> omega

/-- An access that fits translates. -/
theorem UserSpace.translate_of_fits (hs : UserSpace pt) (h : AccessFits pt a w) (wr : Bool) :
    ∃ pt', translate pt a w wr = .ok (place pt a.toNat, pt') ∧
    pt'.map TranslationEntry.core = pt.map TranslationEntry.core := by
  obtain ⟨e, he, hmem, hp⟩ := entry_of_lt h.2
  obtain ⟨h1, h2, h3, h4⟩ := hs.pages e hmem
  refine ⟨_, translate_iff.mpr ⟨h.1, e, he, h1, ?_, ?_, ?_, rfl⟩, map_set_of_eq he rfl⟩
  · intro hro
    rw [h2] at hro
    cases hro
  · rwa [emod_of_bounded h3 h4]
  · rw [emod_of_bounded h3 h4, hp]

/-- Any other is an address error. -/
theorem translate_of_not_fits (h : ¬ AccessFits pt a w) (wr : Bool) :
    translate pt a w wr = .error .addressErrorException := by
  unfold translate
  by_cases hal : (w = .word ∧ a &&& 3 ≠ 0) ∨ (w = .half ∧ a &&& 1 ≠ 0)
  · rw [if_pos hal]
  · have hout : pt.length ≤ a.toNat / pageSize := by
      by_contra hlt
      exact h ⟨aligned_iff.mp hal, (Nat.div_lt_iff_lt_mul (by decide)).mp (Nat.not_le.mp hlt)⟩
    rw [if_neg hal]
    simp only [List.getElem?_eq_none hout]

/-- The bytes of a page follow each other. -/
theorem place_add {k : ℕ} (hk : v % pageSize + k < pageSize) :
    place pt (v + k) = place pt v + k := by
  have hdiv : (v + k) / pageSize = v / pageSize := by
    unfold pageSize at *
    omega
  have hmod : (v + k) % pageSize = v % pageSize + k := by
    unfold pageSize at *
    omega
  unfold place
  rw [hdiv, hmod]
  push_cast
  ring

/-- **A write, byte by byte of the space.** -/
theorem byte_write (hs : UserSpace pt) (h : AccessFits pt a w) (mem : Store) {l : List Byte}
    (hl : l.length = w.size) (v : ℕ) :
    UserMem.byte ⟨Bytes.write mem (place pt a.toNat) l, pt⟩ v =
      if a.toNat ≤ v ∧ v < a.toNat + w.size then l.getD (v - a.toNat) 0
      else UserMem.byte ⟨mem, pt⟩ v := by
  obtain ⟨hroom, hend⟩ := h.room
  by_cases hv : v < pt.length * pageSize
  · have hbyte : ∀ mem : Store, UserMem.byte ⟨mem, pt⟩ v = mem (place pt v) :=
      fun mem => byte_eq (u := ⟨mem, pt⟩) hv
    rw [hbyte, hbyte]
    split_ifs with hin
    · obtain ⟨k, rfl⟩ := Nat.exists_eq_add_of_le hin.1
      rw [place_add (by omega), Bytes.write_inside (by omega) (by rw [hl]; omega)]
      congr 1
      omega
    · apply Bytes.write_outside
      by_contra hc
      rw [hl] at hc
      -- a byte of the access is at the same place, so it is that one
      obtain ⟨k, hk⟩ := Int.eq_ofNat_of_zero_le (show 0 ≤ place pt v - place pt a.toNat by omega)
      have hkw : k < w.size := by omega
      have hplace : place pt (a.toNat + k) = place pt v := by
        rw [place_add (by omega)]
        omega
      have heq := hs.place_inj (by omega) hv hplace
      omega
  · rw [byte_of_size_le (u := ⟨_, pt⟩) (Nat.not_lt.mp hv), byte_of_size_le (u := ⟨mem, pt⟩)
      (Nat.not_lt.mp hv), if_neg (by omega)]

/-- A value is read from its bytes, wherever they are. -/
theorem fetch_moved {p p' : ℤ} (h : ∀ k : ℕ, k < w.size → mem (p + k) = mem' (p' + k)) :
    fetch mem p w = fetch mem' p' w := by
  have hshift : ∀ (mem : Store) (p : ℤ), fetch mem p w = fetch (fun x => mem (p + x)) 0 w := by
    intro mem p
    cases w <;> simp [fetch]
  rw [hshift mem, hshift mem']
  refine fetch_congr fun k hk => ?_
  rw [zero_add]
  exact h k hk

/-! ### Memories that are alike -/

/-- Both fail with the same error, or both give a result, and these are related. -/
def Both {ε α β : Type} (R : α → β → Prop) (x : Except ε α) (y : Except ε β) : Prop :=
  (∃ e, x = .error e ∧ y = .error e) ∨ ∃ a b, x = .ok a ∧ y = .ok b ∧ R a b

theorem Both.ok {ε α β : Type} {R : α → β → Prop} {a : α} {b : β} (h : R a b) :
    Both R (.ok a : Except ε α) (.ok b) :=
  Or.inr ⟨a, b, rfl, rfl, h⟩

theorem Both.error {ε α β : Type} {R : α → β → Prop} (e : ε) :
    Both R (.error e : Except ε α) (.error e) :=
  Or.inl ⟨e, rfl, rfl⟩

theorem Both.map {ε α β γ δ : Type} {R : α → β → Prop} {S : γ → δ → Prop} {f : α → γ} {g : β → δ}
    {x : Except ε α} {y : Except ε β}
    (h : Both R x y) (hfg : ∀ a b, R a b → S (f a) (g b)) : Both S (x.map f) (y.map g) := by
  rcases h with ⟨e, rfl, rfl⟩ | ⟨a, b, rfl, rfl, hab⟩
  · exact .error e
  · exact .ok (hfg a b hab)

/-- The same byte at every virtual address, in as many pages. -/
structure UserMem.Alike (u u' : UserMem) : Prop where
  left : UserSpace u.pageTable
  right : UserSpace u'.pageTable
  length : u.pageTable.length = u'.pageTable.length
  byte : ∀ v, u.byte v = u'.byte v

namespace UserMem.Alike

theorem refl (h : UserSpace u.pageTable) : u.Alike u := ⟨h, h, rfl, fun _ => rfl⟩

theorem symm (h : u.Alike u') : u'.Alike u :=
  ⟨h.right, h.left, h.length.symm, fun v => (h.byte v).symm⟩

theorem trans {u'' : UserMem} (h : u.Alike u') (h' : u'.Alike u'') : u.Alike u'' :=
  ⟨h.left, h'.right, h.length.trans h'.length, fun v => (h.byte v).trans (h'.byte v)⟩

theorem fits (h : u.Alike u') : AccessFits u.pageTable a w ↔ AccessFits u'.pageTable a w := by
  unfold AccessFits
  rw [h.length]

/-- The use and dirty bits make no difference. -/
theorem congr (h : u.Alike u')
    (hpt : pt.map TranslationEntry.core = u.pageTable.map TranslationEntry.core)
    (hpt' : pt'.map TranslationEntry.core = u'.pageTable.map TranslationEntry.core) :
    UserMem.Alike ⟨u.mem, pt⟩ ⟨u'.mem, pt'⟩ where
  left := h.left.congr hpt
  right := h.right.congr hpt'
  length := (length_congr hpt).trans (h.length.trans (length_congr hpt').symm)
  byte v := (byte_congr hpt v).trans ((h.byte v).trans (byte_congr hpt' v).symm)

/-- **A read** gives the same value, or the same exception. -/
theorem readMem (h : u.Alike u') (a : BitVec 32) (w : Width) :
    Both (fun r r' => r.1 = r'.1 ∧ UserMem.Alike ⟨u.mem, r.2⟩ ⟨u'.mem, r'.2⟩)
      (Nachos.readMem u.mem u.pageTable a w) (Nachos.readMem u'.mem u'.pageTable a w) := by
  unfold Nachos.readMem
  by_cases hf : AccessFits u.pageTable a w
  · obtain ⟨hroom, hend⟩ := hf.room
    obtain ⟨pt, ht, hcore⟩ := h.left.translate_of_fits hf false
    obtain ⟨pt', ht', hcore'⟩ := h.right.translate_of_fits (h.fits.mp hf) false
    rw [ht, ht']
    refine .ok ⟨fetch_moved fun k hk => ?_, h.congr hcore hcore'⟩
    have hu : a.toNat + k < u.size := by
      unfold UserMem.size
      omega
    have hu' : a.toNat + k < u'.size := by
      unfold UserMem.size at hu ⊢
      rwa [← h.length]
    calc u.mem (place u.pageTable a.toNat + k) = u.byte (a.toNat + k) := by
          rw [byte_eq hu, place_add (by omega)]
      _ = u'.byte (a.toNat + k) := h.byte _
      _ = u'.mem (place u'.pageTable a.toNat + k) := by rw [byte_eq hu', place_add (by omega)]
  · rw [translate_of_not_fits hf, translate_of_not_fits (h.fits.not.mp hf)]
    exact .error _

/-- **A write** changes both alike, or raises the same exception. -/
theorem writeMem (h : u.Alike u') (a : BitVec 32) (w : Width) (value : BitVec 32) :
    Both (fun r r' => UserMem.Alike ⟨r.1, r.2⟩ ⟨r'.1, r'.2⟩)
      (Nachos.writeMem u.mem u.pageTable a w value)
      (Nachos.writeMem u'.mem u'.pageTable a w value) := by
  unfold Nachos.writeMem
  by_cases hf : AccessFits u.pageTable a w
  · have hf' := h.fits.mp hf
    obtain ⟨pt, ht, hcore⟩ := h.left.translate_of_fits hf true
    obtain ⟨pt', ht', hcore'⟩ := h.right.translate_of_fits hf' true
    have hwritten : UserMem.Alike
        ⟨Bytes.write u.mem (place u.pageTable a.toNat) (encode value w), u.pageTable⟩
        ⟨Bytes.write u'.mem (place u'.pageTable a.toNat) (encode value w), u'.pageTable⟩ := by
      refine ⟨h.left, h.right, h.length, fun v => ?_⟩
      rw [byte_write h.left hf _ (length_encode _ _), byte_write h.right hf' _ (length_encode _ _)]
      split_ifs
      · rfl
      · exact h.byte v
    rw [ht, ht']
    exact .ok (hwritten.congr hcore hcore')
  · rw [translate_of_not_fits hf, translate_of_not_fits (h.fits.not.mp hf)]
    exact .error _

/-- The loop of `User2System` gets the same bytes. -/
theorem copyIn (h : u.Alike u') (a : BitVec 32) (n : ℕ) :
    Both (fun r r' => r.1 = r'.1 ∧ UserMem.Alike ⟨u.mem, r.2⟩ ⟨u'.mem, r'.2⟩)
      (Nachos.copyIn u.mem u.pageTable a n) (Nachos.copyIn u'.mem u'.pageTable a n) := by
  induction n generalizing u u' a with
  | zero => exact .ok ⟨rfl, h⟩
  | succ n ih =>
    unfold Nachos.copyIn
    rcases h.readMem a .byte with
      ⟨e, hr, hr'⟩ | ⟨⟨oneChar, pt⟩, ⟨oneChar', pt'⟩, hr, hr', hchar, h1⟩
    · rw [hr, hr']
      exact .error SysStop.halt
    · obtain rfl : oneChar = oneChar' := hchar
      rw [hr, hr']
      by_cases h0 : oneChar = 0
      · simp only [if_pos h0]
        exact .ok ⟨rfl, h1⟩
      · simp only [if_neg h0]
        exact (ih h1 (a + 1)).map fun r r' hr => ⟨congrArg (oneChar.setWidth 8 :: ·) hr.1, hr.2⟩

/-- The loop of `System2User`. -/
theorem copyOut (h : u.Alike u') (a : BitVec 32) (l : List Byte) :
    Both (fun r r' => r.1.Alike r'.1) (Nachos.copyOut u a l) (Nachos.copyOut u' a l) := by
  induction l generalizing u u' a with
  | nil => exact .ok h
  | cons oneChar rest ih =>
    unfold Nachos.copyOut
    rcases h.writeMem a .byte (oneChar.signExtend 32) with ⟨e, hw, hw'⟩ | ⟨r, r', hw, hw', h1⟩
    · rw [hw, hw']
      exact .error SysStop.halt
    · rw [hw, hw']
      by_cases h0 : oneChar = 0
      · simp only [if_pos h0]
        exact .ok h1
      · simp only [if_neg h0]
        exact (ih h1 (a + 1)).map fun r r' hr => hr

/-- **`User2System`** gives the kernel the same buffer. -/
theorem user2System (h : u.Alike u') (a : BitVec 32) (limit : ℤ) :
    Both (fun r r' => r.1 = r'.1 ∧ r.2.Alike r'.2) (Nachos.user2System u a limit)
    (Nachos.user2System u' a limit) := by
  unfold Nachos.user2System
  split_ifs
  · exact .error _
  · exact (h.copyIn a limit.toNat).map fun r r' hr => ⟨by rw [hr.1], hr.2⟩

/-- **`System2User`** leaves the user the same bytes. -/
theorem system2User (h : u.Alike u') (a : BitVec 32) (len : ℤ) (buffer : List Byte) :
    Both (fun r r' => r.1.Alike r'.1) (Nachos.system2User u a len buffer)
    (Nachos.system2User u' a len buffer) := by
  unfold Nachos.system2User
  split_ifs
  · exact .ok h
  · exact .ok h
  · exact h.copyOut a _

end UserMem.Alike

/-! ### One instruction -/

/-- The memory of the program. -/
def Machine.user (m : Machine) : UserMem := ⟨m.mainMemory, m.pageTable⟩

/-- The machines are the same to the program, wherever its pages are. -/
structure Machine.Alike (m n : Machine) : Prop where
  registers : m.registers = n.registers
  user : m.user.Alike n.user

/-- Two instructions end the same way. -/
inductive Step.Alike : Step → Step → Prop
  | done {m n : Machine} (h : m.Alike n) : Alike (.done m) (.done n)
  | exception (which : ExceptionType) (badVAddr : BitVec 32) {m n : Machine} (h : m.Alike n) :
      Alike (.exception which badVAddr m) (.exception which badVAddr n)
  | crash : Alike .crash .crash

namespace Machine.Alike

variable {m m' n n' : Machine}

theorem refl (h : UserSpace m.pageTable) : m.Alike m := ⟨rfl, .refl h⟩

theorem symm (h : m.Alike n) : n.Alike m := ⟨h.registers.symm, h.user.symm⟩

theorem trans (h : m.Alike n) (h' : n.Alike n') : m.Alike n' :=
  ⟨h.registers.trans h'.registers, h.user.trans h'.user⟩

theorem readMem (h : m.Alike n) (addr : BitVec 32) (w : Width) :
    Both (fun r r' => r.1 = r'.1 ∧ ∀ regs, (Machine.mk regs m.mainMemory r.2).Alike
      ⟨regs, n.mainMemory, r'.2⟩)
      (Nachos.readMem m.mainMemory m.pageTable addr w)
      (Nachos.readMem n.mainMemory n.pageTable addr w) := by
  rcases h.user.readMem addr w with herror | ⟨r, r', hr, hr', hvalue, halike⟩
  · exact Or.inl herror
  · exact Or.inr ⟨r, r', hr, hr', hvalue, fun _ => ⟨rfl, halike⟩⟩

theorem writeMem (h : m.Alike n) (addr : BitVec 32) (w : Width) (value : BitVec 32) :
    Both (fun r r' => ∀ regs, (Machine.mk regs r.1 r.2).Alike ⟨regs, r'.1, r'.2⟩)
      (Nachos.writeMem m.mainMemory m.pageTable addr w value)
      (Nachos.writeMem n.mainMemory n.pageTable addr w value) := by
  rcases h.user.writeMem addr w value with herror | ⟨r, r', hr, hr', halike⟩
  · exact Or.inl herror
  · exact Or.inr ⟨r, r', hr, hr', fun _ => ⟨rfl, halike⟩⟩

theorem retire (h : m.Alike n) (ws : List (Fin numTotalRegs × BitVec 32)) (pc k v : BitVec 32) :
    (retire m ws pc k v).Alike (Nachos.retire n ws pc k v) := by
  have hregs :
      ∀ r : Registers, ({ m with registers := r } : Machine).Alike { n with registers := r } :=
    fun _ => ⟨rfl, h.user⟩
  unfold Nachos.retire
  rw [h.registers]
  exact .done (hregs _)

/-- The same action on both. -/
theorem perform (h : m.Alike n) (A : Action) : (perform m A).Alike (Nachos.perform n A) := by
  cases A with
  | assign ws pc => exact h.retire ws pc 0 0
  | load addr w rt convert =>
    simp only [Nachos.perform, h.registers]
    rcases h.readMem addr w with ⟨e, hr, hr'⟩ | ⟨⟨value, pt⟩, ⟨value', pt'⟩, hr, hr', hvalue, h1⟩
    · rw [hr, hr']
      exact .exception e addr h
    · obtain rfl : value = value' := hvalue
      rw [hr, hr']
      exact (h1 n.registers).retire [] (n.registers nextPCReg + 4) (regNum rt) (convert value)
  | store addr w value =>
    simp only [Nachos.perform, h.registers]
    rcases h.writeMem addr w value with ⟨e, hw, hw'⟩ | ⟨r, r', hw, hw', h1⟩
    · rw [hw, hw']
      exact .exception e addr h
    · rw [hw, hw']
      exact (h1 n.registers).retire [] (n.registers nextPCReg + 4) 0 0
  | update addr merge =>
    simp only [Nachos.perform, h.registers]
    rcases h.readMem addr .word with
      ⟨e, hr, hr'⟩ | ⟨⟨value, pt⟩, ⟨value', pt'⟩, hr, hr', hvalue, h1⟩
    · rw [hr, hr']
      exact .exception e addr h
    · obtain rfl : value = value' := hvalue
      rw [hr, hr']
      -- the write, on the tables that the read has left
      rcases (h1 n.registers).writeMem addr .word (merge value) with
        ⟨e, hw, hw'⟩ | ⟨r, r', hw, hw', h2⟩
      · simp only at hw hw' ⊢
        rw [hw, hw']
        exact .exception e addr (h1 n.registers)
      · simp only at hw hw' ⊢
        rw [hw, hw']
        exact (h2 n.registers).retire [] (n.registers nextPCReg + 4) 0 0
  | raise which badVAddr => exact .exception which badVAddr h
  | crash => exact .crash

/-- **An instruction** does the same on both. -/
theorem oneInstruction (h : m.Alike n) : (oneInstruction m).Alike (Nachos.oneInstruction n) := by
  unfold Nachos.oneInstruction
  rw [h.registers]
  rcases h.readMem (n.registers pcReg) .word with
    ⟨e, hr, hr'⟩ | ⟨⟨raw, pt⟩, ⟨raw', pt'⟩, hr, hr', hraw, h1⟩
  · rw [hr, hr']
    exact .exception e _ h
  · obtain rfl : raw = raw' := hraw
    rw [hr, hr']
    exact (h1 n.registers).perform _

end Machine.Alike

/-! ### Runs -/

/-- What happens to a program. The kernel copies and writes registers for its
system calls, and other programs run. -/
inductive Machine.Event
  | oneInstruction
  /-- `Interrupt::CheckIfDue` with something due: `DelayedLoad(0, 0)` -/
  | interrupt
  /-- `Machine::WriteRegister`, of any number of registers -/
  | writeRegister (registers : Registers)
  | user2System (virtAddr : BitVec 32) (limit : ℤ)
  | system2User (virtAddr : BitVec 32) (len : ℤ) (buffer : List Byte)
  /-- others have left main memory so -/
  | others (mainMemory : Store)

namespace Machine

/-- An event of the program's own. -/
def Event.own : Event → Bool
  | .others _ => false
  | _ => true

def event (m : Machine) : Event → Option Machine
  | .oneInstruction => m.next
  | .interrupt => some { m with registers := delayedLoad m.registers 0 0 }
  | .writeRegister registers => some { m with registers := registers }
  | .user2System virtAddr limit =>
    (Nachos.user2System m.user virtAddr limit).toOption.map fun r =>
      ⟨m.registers, r.2.mem, r.2.pageTable⟩
  | .system2User virtAddr len buffer =>
    (Nachos.system2User m.user virtAddr len buffer).toOption.map fun r =>
      ⟨m.registers, r.1.mem, r.1.pageTable⟩
  | .others mainMemory => some { m with mainMemory := mainMemory }

/-- The others keep off the pages of the program. -/
def Apart (m : Machine) : Event → Prop
  | .others mainMemory => ∀ x, InPages m.pageTable x → mainMemory x = m.mainMemory x
  | _ => True

/-- The machine when `AddrSpace::Execute` has started the program. -/
def start (sp : AddrSpace) (mem : Store) : Machine :=
  ⟨initRegisters sp.pageTable.length, mem, sp.pageTable⟩

variable {m m' n : Machine} {l : Event} {ls ls' : List Event}

/-- **An event of the program's own** happens on both alike. -/
theorem Alike.event (h : m.Alike n) (hl : l.own = true) (hm : m.event l = some m') :
    ∃ n', n.event l = some n' ∧ m'.Alike n' := by
  cases l with
  | oneInstruction =>
    have hone := h.oneInstruction
    rw [Machine.next_eq.mp hm] at hone
    generalize hn : Nachos.oneInstruction n = s at hone
    cases hone with
    | done h' => exact ⟨_, Machine.next_eq.mpr hn, h'⟩
  | interrupt =>
    cases hm
    exact ⟨_, rfl, by rw [h.registers], h.user⟩
  | writeRegister registers =>
    cases hm
    exact ⟨_, rfl, rfl, h.user⟩
  | user2System virtAddr limit =>
    rcases h.user.user2System virtAddr limit with ⟨e, hu, hu'⟩ | ⟨r, r', hu, hu', -, h1⟩
    · simp only [Machine.event, hu, Except.toOption] at hm
      cases hm
    · simp only [Machine.event, hu, Except.toOption] at hm
      cases hm
      exact ⟨⟨n.registers, r'.2.mem,
        r'.2.pageTable⟩, by simp only [Machine.event, hu', Except.toOption]; rfl, h.registers, h1⟩
  | system2User virtAddr len buffer =>
    rcases h.user.system2User virtAddr len buffer with ⟨e, hu, hu'⟩ | ⟨r, r', hu, hu', h1⟩
    · simp only [Machine.event, hu, Except.toOption] at hm
      cases hm
    · simp only [Machine.event, hu, Except.toOption] at hm
      cases hm
      exact ⟨⟨n.registers, r'.1.mem,
        r'.1.pageTable⟩, by simp only [Machine.event, hu', Except.toOption]; rfl, h.registers, h1⟩
  | others mainMemory => cases hl

/-- What the others do is nothing to the program. -/
theorem Alike.others (h : m.Alike n) (hl : l.own = false) (hok : m.Apart l) :
    ∃ m', m.event l = some m' ∧ m'.Alike n := by
  cases l with
  | others mainMemory =>
    have hbyte : ∀ v, UserMem.byte ⟨mainMemory, m.pageTable⟩ v = m.user.byte v := by
      intro v
      by_cases hv : v < m.pageTable.length * pageSize
      · obtain ⟨e, -, hmem, hp⟩ := entry_of_lt hv
        rw [byte_eq (u := ⟨mainMemory, m.pageTable⟩) hv, byte_eq (u := m.user) hv]
        exact hok _ ⟨e, hmem, hp ▸ onPage_offset (Nat.mod_lt _ (by decide))⟩
      · have hv : m.pageTable.length * pageSize ≤ v := Nat.not_lt.mp hv
        rw [byte_of_size_le (u := ⟨mainMemory, m.pageTable⟩) hv, byte_of_size_le (u := m.user) hv]
    exact ⟨_, rfl, h.registers, h.user.left, h.user.right, h.user.length,
      fun v => (hbyte v).trans (h.user.byte v)⟩
  | oneInstruction | interrupt | writeRegister | user2System | system2User => cases hl

/-- **A run among others** is its own part on any machine that is alike. -/
theorem Alike.exec (ls : List Event) (h : m.Alike n) (hok : Runs.Along Machine.event Apart m ls)
    (he : Runs.exec Machine.event m ls = some m') :
    ∃ n', Runs.exec Machine.event n (ls.filter Event.own) = some n' ∧ m'.Alike n' := by
  induction ls generalizing m n with
  | nil =>
    cases he
    exact ⟨n, rfl, h⟩
  | cons l ls ih =>
    obtain ⟨m1, h1, h2⟩ := Option.bind_eq_some_iff.mp he
    by_cases hl : l.own = true
    · obtain ⟨n1, hn1, ha⟩ := h.event hl h1
      obtain ⟨n', hn', ha'⟩ := ih ha (hok.2 m1 h1) h2
      refine ⟨n', ?_, ha'⟩
      rw [List.filter_cons_of_pos hl]
      simp only [Runs.exec, hn1, Option.bind_some, hn']
    · obtain ⟨m2, hm2, ha⟩ := h.others (Bool.not_eq_true _ ▸ hl) hok.1
      obtain rfl : m1 = m2 := Option.some.inj (h1.symm.trans hm2)
      obtain ⟨n', hn', ha'⟩ := ih ha (hok.2 m1 h1) h2
      refine ⟨n', ?_, ha'⟩
      rw [List.filter_cons_of_neg hl]
      exact hn'

/-- And the other way: the own part, among others. -/
theorem Alike.exec_among (ls : List Event) (h : m.Alike n)
    (hok : Runs.Along Machine.event Apart m ls) {n' : Machine}
    (he : Runs.exec Machine.event n (ls.filter Event.own) = some n') :
    ∃ m', Runs.exec Machine.event m ls = some m' ∧ m'.Alike n' := by
  induction ls generalizing m n with
  | nil =>
    cases he
    exact ⟨m, rfl, h⟩
  | cons l ls ih =>
    by_cases hl : l.own = true
    · rw [List.filter_cons_of_pos hl] at he
      obtain ⟨n1, h1, h2⟩ := Option.bind_eq_some_iff.mp he
      obtain ⟨m1, hm1, ha⟩ := h.symm.event hl h1
      obtain ⟨m', hm', ha'⟩ := ih ha.symm (hok.2 m1 hm1) h2
      exact ⟨m', by simp only [Runs.exec, hm1, Option.bind_some, hm'], ha'⟩
    · rw [List.filter_cons_of_neg hl] at he
      obtain ⟨m1, hm1, ha⟩ := h.others (Bool.not_eq_true _ ▸ hl) hok.1
      obtain ⟨m', hm', ha'⟩ := ih ha (hok.2 m1 hm1) he
      exact ⟨m', by simp only [Runs.exec, hm1, Option.bind_some, hm'], ha'⟩

end Machine

/-! ### Two loads -/

variable {file : List Byte} {stack stack' : ℕ → Byte} {bm bm' bm1 bm1' : Bitmap}
  {mem1 mem1' : Store} {sp sp' : AddrSpace}

/-- The header of a file that has one. -/
theorem readHeader_congr (hfile : sizeofNoffHeader ≤ file.length) (stack stack' : ℕ → Byte) :
    readHeader file stack = readHeader file stack' := by
  have hk : ∀ k < 52, file.getD k (stack k) = file.getD k (stack' k) := by
    intro k hk
    have hlt : k < file.length := lt_of_lt_of_le hk hfile
    rw [List.getD_eq_getElem _ _ hlt, List.getD_eq_getElem _ _ hlt]
  unfold readHeader noffHeaderAt segmentAt intAt
  simp (disch := decide) only [hk]

theorem load_locked (h : load file stack bm mem = .ok sp bm1 mem1) :
    loadLocked (readHeader file stack) file bm mem = .ok sp bm1 mem1 := by
  unfold load at h
  split_ifs at h
  exact h

/-- Both start with what the file says. -/
theorem alike_start (hfile : sizeofNoffHeader ≤ file.length) (hb : bm.numBits = numPhysPages)
    (hb' : bm'.numBits = numPhysPages) (hl : load file stack bm mem = .ok sp bm1 mem1)
    (hl' : load file stack' bm' mem' = .ok sp' bm1' mem1') :
    (Machine.start sp mem1).Alike (Machine.start sp' mem1') := by
  have hl := load_locked hl
  have hl' := load_locked hl'
  rw [readHeader_congr hfile stack' stack] at hl'
  have hspec := loadLocked_ok hl
  have hspec' := loadLocked_ok hl'
  obtain ⟨m, halloc⟩ := hspec.alloc
  obtain ⟨m', halloc'⟩ := hspec'.alloc
  obtain ⟨buffer, hbuf, hbytes⟩ := hspec.bytes
  obtain ⟨buffer', hbuf', hbytes'⟩ := hspec'.bytes
  obtain rfl : buffer = buffer' := Except.ok.inj (hbuf.symm.trans hbuf')
  have hlen : sp.pageTable.length = (readHeader file stack).numPages := halloc.length
  have hlen' : sp'.pageTable.length = (readHeader file stack).numPages := halloc'.length
  have hbyte : ∀ v, UserMem.byte ⟨mem1, sp.pageTable⟩ v =
      UserMem.byte ⟨mem1', sp'.pageTable⟩ v := by
    intro v
    by_cases hv : v < (readHeader file stack).numPages * pageSize
    · unfold UserMem.byte
      rw [hbytes v hv, hbytes' v hv]
    · have hv := Nat.not_lt.mp hv
      rw [byte_of_size_le (u := ⟨mem1, sp.pageTable⟩)
        (show sp.pageTable.length * pageSize ≤ v by rwa [hlen]), byte_of_size_le
        (u := ⟨mem1', sp'.pageTable⟩) (show sp'.pageTable.length * pageSize ≤ v by rwa [hlen'])]
  refine ⟨?_, userSpace_load hb hl, userSpace_load hb' hl', hlen.trans hlen'.symm, hbyte⟩
  show initRegisters sp.pageTable.length = initRegisters sp'.pageTable.length
  rw [hlen, hlen']

/-- **Where a program is loaded makes no difference to it.** The same executable
is loaded into two kernels, whatever pages are free and whatever main memory
holds. Then a run among others in the one is a run in the other, among any
others there: with the same events of its own both run, and at the end of both
it has the same registers and the same bytes, and its next instruction ends the
same way. -/
theorem placement_invisible (hfile : sizeofNoffHeader ≤ file.length)
    (hb : bm.numBits = numPhysPages) (hb' : bm'.numBits = numPhysPages)
    (hl : load file stack bm mem = .ok sp bm1 mem1)
    (hl' : load file stack' bm' mem' = .ok sp' bm1' mem1') {ls ls' : List Machine.Event}
    (hown : ls.filter Machine.Event.own = ls'.filter Machine.Event.own)
    (hok : Runs.Along Machine.event Machine.Apart (Machine.start sp mem1) ls)
    (hok' : Runs.Along Machine.event Machine.Apart (Machine.start sp' mem1') ls') {m : Machine}
    (he : Runs.exec Machine.event (Machine.start sp mem1) ls = some m) :
    ∃ n, Runs.exec Machine.event (Machine.start sp' mem1') ls' = some n ∧
      m.registers = n.registers ∧
      (∀ v, m.user.byte v = n.user.byte v) ∧ (oneInstruction m).Alike (oneInstruction n) := by
  have hstart := alike_start hfile hb hb' hl hl'
  -- the own part of the run, at the pages of the second load
  obtain ⟨a, ha, hma⟩ := hstart.exec ls hok he
  rw [hown] at ha
  obtain ⟨n, hn, hna⟩ := (Machine.Alike.refl hstart.user.right).exec_among ls' hok' ha
  have hmn : m.Alike n := hma.trans hna.symm
  exact ⟨n, hn, hmn.registers, hmn.user.byte, hmn.oneInstruction⟩

/-- An executable of one instruction, `addiu r4, r0, 7`. -/
def oneAddiu : List Byte :=
  [0xad, 0xdf, 0xba, 0, 0, 0, 0, 0, 52, 0, 0, 0, 4, 0, 0, 0, 0, 0, 0, 0, 0, 0, 0, 0, 0, 0, 0, 0,
    0, 0, 0, 0, 0, 0, 0, 0, 0, 0, 0, 0, 0, 0, 0, 0, 0, 0, 0, 0, 0, 0, 0, 0, 7, 0, 4, 0x24]

/-- The load succeeds, and what it leaves passes the test. -/
def LoadResult.loads (r : LoadResult) (t : AddrSpace → Store → Bool) : Bool :=
  match r with
  | .ok sp _ mem => t sp mem
  | _ => false

theorem LoadResult.of_loads {r : LoadResult} {t : AddrSpace → Store → Bool} (h : r.loads t = true) :
    ∃ sp bm mem, r = .ok sp bm mem ∧ t sp mem = true := by
  cases r with
  | noMemory => cases h
  | fault f => cases h
  | ok sp bm mem => exact ⟨sp, bm, mem, rfl, h⟩

/-- Loaded at page 0, and loaded where page 0 is another's, who clears it before
the instruction. -/
theorem placement_invisible_sample :
    let bm' := (Bitmap.new numPhysPages).findAndSet.1
    ∃ sp b1 mem1 sp' b1' mem1' m n, load oneAddiu (fun _ => 0) (Bitmap.new numPhysPages)
      (fun _ => 7) = .ok sp b1 mem1 ∧
      load oneAddiu (fun _ => 1) bm' (fun _ => 9) = .ok sp' b1' mem1' ∧ sp ≠ sp' ∧
      Runs.exec Machine.event (Machine.start sp mem1) [.oneInstruction] = some m ∧
      Runs.exec Machine.event (Machine.start sp' mem1')
        [.others (Bytes.fill mem1' 0 pageSize 0), .oneInstruction] = some n ∧
      m.registers = n.registers ∧ m.registers 4 = 7 := by
  intro bm'
  obtain ⟨sp, b1, mem1, hl, hfirst⟩ := LoadResult.of_loads
    (show (load oneAddiu (fun _ => 0) (Bitmap.new numPhysPages) (fun _ => 7)).loads
    (fun sp mem1 => decide (∃ e ∈ sp.pageTable, e.physicalPage = 0) &&
      (Runs.exec Machine.event (Machine.start sp mem1) [.oneInstruction]).any fun m =>
      decide (m.registers 4 = 7)) = true by decide +kernel)
  obtain ⟨sp', b1', mem1', hl', hsecond⟩ :=
    LoadResult.of_loads (show (load oneAddiu (fun _ => 1) bm' (fun _ => 9)).loads
    (fun sp _ => decide (∀ e ∈ sp.pageTable, 1 ≤ e.physicalPage)) = true by decide +kernel)
  rw [Bool.and_eq_true, decide_eq_true_eq] at hfirst
  rw [decide_eq_true_eq] at hsecond
  obtain ⟨⟨e, he, h0⟩, hrun⟩ := hfirst
  obtain ⟨m, hm, h7⟩ := (Option.any_eq_true _ _).mp hrun
  have hapart : Machine.Apart (Machine.start sp' mem1')
      (.others (Bytes.fill mem1' 0 pageSize 0)) := by
    rintro x ⟨e', he', hx, -⟩
    have h1 := hsecond e' he'
    refine Bytes.fill_outside (Or.inr ?_)
    unfold pageSize at hx ⊢
    omega
  have hne : sp ≠ sp' := by
    rintro rfl
    have h1 := hsecond e he
    omega
  have hown : ([.oneInstruction] : List Machine.Event).filter Machine.Event.own =
      [.others (Bytes.fill mem1' 0 pageSize 0), .oneInstruction].filter Machine.Event.own := rfl
  obtain ⟨n, hn, hregs, -⟩ := placement_invisible (by decide) (Bitmap.numBits_new _) rfl hl hl' hown
    ⟨trivial, fun _ _ => trivial⟩ ⟨hapart, fun _ _ => ⟨trivial, fun _ _ => trivial⟩⟩ hm
  exact ⟨sp, b1, mem1, sp', b1', mem1', m, n, hl, hl', hne, hm, hn, hregs, of_decide_eq_true h7⟩

end Nachos
