/-
# The semaphore table (`threads/stable.cc`, `threads/sem.cc`)

User programs know a semaphore by its name. `STable` keeps at most ten of them
in slots, a bitmap telling which slots are taken, and each operation scans the
slots for the first one that is taken and has the name.

* `SemMap` says what the table is for: a map from names to semaphores with
  room for ten. `refines`: each operation is the operation on the map.
* `commute`: two operations on different names commute, except that of two new
  names only the first gets the last free slot.

Key definitions: `STable.create`, `STable.wait`, `STable.signal`, `SemMap.apply`,
`STable.Inv`.
Key theorems: `STable.refines`, `SemMap.apply_comm`, `STable.commute`.
-/
import Mathlib
import Nachos.Base.Runs
import Nachos.Lib.Bitmap
import Nachos.Threads.Semaphore
import Nachos.Threads.Kernel

namespace Nachos

/-! ### The code -/

/-- `MAX_SEMAPHORE`. -/
def maxSemaphore : ℕ := 10

namespace STable

/-- `class Sem`: a semaphore and its name. -/
structure Sem where
  name : CString
  sem : Semaphore
  deriving DecidableEq

end STable

/-- `class STable`. -/
structure STable where
  bm : Bitmap
  semTab : ℕ → Option STable.Sem

namespace STable

/-- `STable::STable`. -/
def new : STable := ⟨Bitmap.new maxSemaphore, fun _ => none⟩

/-- The scan of `Create`, `Wait` and `Signal` over the slots `is`: the first
one that is taken and has the name. A taken slot without a semaphore would be
a null pointer dereferenced. -/
def scan (T : STable) (name : CString) : List ℕ → Option (Option ℕ)
  | [] => some none
  | i :: is =>
    if T.bm.test i then
      match T.semTab i with
      | none => none
      | some e => if name = e.name then some (some i) else T.scan name is
    else T.scan name is

def find (T : STable) (name : CString) : Option (Option ℕ) := T.scan name (List.range maxSemaphore)

/-- `Sem::Sem` copies the name into `char name[50]`; a longer one overruns it. -/
def newSem (name : CString) (value : ℤ) : Option Sem :=
  if name.length < 50 then some ⟨name, Semaphore.new value⟩ else none

/-- `STable::Create`. -/
def create (T : STable) (name : CString) (value : ℤ) : Option (STable × ℤ) :=
  (T.find name).bind fun
    | some _ => some (T, -1)
    | none =>
      let (bm, freeSlot) := T.bm.findAndSet
      if freeSlot < 0 then some ({ T with bm := bm }, -1)
      else (newSem name value).map fun e =>
        ({ bm := bm, semTab := Function.update T.semTab freeSlot.toNat (some e) }, 0)

/-- One pass of the loop of `semTab[i]->wait()` by thread `t`: `Wait` returns
0, or `t` sleeps (`none`). -/
def pass (T : STable) (t : Tid) (i : ℕ) : Option (STable × Option ℤ) :=
  (T.semTab i).map fun e =>
    let (sem, returns) := e.sem.pTest t
    ({ T with semTab := Function.update T.semTab i (some { e with sem := sem.int }) },
      if returns then some 0 else none)

/-- `STable::Wait`, to the first pass of the loop. -/
def wait (T : STable) (t : Tid) (name : CString) : Option (STable × Option ℤ) :=
  (T.find name).bind fun
    | none => some (T, some (-1))
    | some i => T.pass t i

/-- `STable::Signal`, with the thread it wakes. -/
def signal (T : STable) (name : CString) : Option (STable × ℤ × Option Tid) :=
  (T.find name).bind fun
    | none => some (T, -1, none)
    | some i =>
      (T.semTab i).map fun e =>
        let (sem, woken) := e.sem.v
        ({ T with semTab := Function.update T.semTab i (some { e with sem := sem.int }) }, 0, woken)

/-- `SysCreateSemaphore`, for a name that could be read. The test of the result
is written `result=-1`, so it returns -1 whatever `Create` did. -/
def sysCreateSemaphore (T : STable) (name : CString) (semval : BitVec 32) : Option (STable × ℤ) :=
  if name.length = 0 then some (T, -1) else (T.create name semval.toInt).map fun r => (r.1, -1)

/-! ### The three operations and what they return -/

/-- The operations. A value is a 32-bit `int`. -/
inductive Op
  | create (name : CString) (value : BitVec 32)
  | wait (t : Tid) (name : CString)
  | signal (name : CString)

def Op.name : Op → CString
  | .create name _ => name
  | .wait _ name => name
  | .signal name => name

/-- The value returned, unless the thread sleeps, and the thread woken. -/
structure Out where
  ret : Option ℤ
  woken : Option Tid
  deriving DecidableEq

def apply (T : STable) : Op → Option (STable × Out)
  | .create name value => (T.create name value.toInt).map fun r => (r.1, ⟨some r.2, none⟩)
  | .wait t name => (T.wait t name).map fun r => (r.1, ⟨r.2, none⟩)
  | .signal name => (T.signal name).map fun r => (r.1, ⟨some r.2.1, r.2.2⟩)

end STable

/-! ### What the table is for -/

/-- Semaphores by name, and how many there are. -/
structure SemMap where
  get : CString → Option Semaphore
  size : ℕ

namespace SemMap

open STable (Op Out)

/-- The operations on the map. -/
def apply (A : SemMap) : Op → SemMap × Out
  | .create name value =>
    if A.get name = none ∧ A.size < maxSemaphore then
      (⟨Function.update A.get name (some (Semaphore.new value.toInt)), A.size + 1⟩, ⟨some 0, none⟩)
    else (A, ⟨some (-1), none⟩)
  | .wait t name =>
    match A.get name with
    | none => (A, ⟨some (-1), none⟩)
    | some s => ({ A with get := Function.update A.get name (some (s.pTest t).1.int) },
        ⟨if (s.pTest t).2 then some 0 else none, none⟩)
  | .signal name =>
    match A.get name with
    | none => (A, ⟨some (-1), none⟩)
    | some s => ({ A with get := Function.update A.get name (some s.v.1.int) }, ⟨some 0, s.v.2⟩)

variable {A : SemMap} {name : CString} {s : Semaphore}

theorem create_ok (v : BitVec 32) (h0 : A.get name = none) (h1 : A.size < maxSemaphore) :
    A.apply (.create name v) =
      (⟨Function.update A.get name (some (Semaphore.new v.toInt)), A.size + 1⟩, ⟨some 0, none⟩) :=
  if_pos ⟨h0, h1⟩

theorem create_fails (v : BitVec 32) (h : ¬ (A.get name = none ∧ A.size < maxSemaphore)) :
    A.apply (.create name v) = (A, ⟨some (-1), none⟩) := if_neg h

theorem wait_absent (t : Tid) (h : A.get name = none) :
    A.apply (.wait t name) = (A, ⟨some (-1), none⟩) := by
  simp only [apply, h]

theorem wait_present (t : Tid) (h : A.get name = some s) : A.apply (.wait t name) =
    ({ A with get := Function.update A.get name (some (s.pTest t).1.int) },
      ⟨if (s.pTest t).2 then some 0 else none, none⟩) := by
  simp only [apply, h]

theorem signal_absent (h : A.get name = none) :
    A.apply (.signal name) = (A, ⟨some (-1), none⟩) := by
  simp only [apply, h]

theorem signal_present (h : A.get name = some s) : A.apply (.signal name) =
    ({ A with get := Function.update A.get name (some s.v.1.int) }, ⟨some 0, s.v.2⟩) := by
  simp only [apply, h]

/-- What an operation does at its own name, told whether there is room: the
semaphore there, by how much the size grows, and what it returns. -/
def act : Op → Option Semaphore → Bool → Option Semaphore × ℕ × Out
  | .create _ value, none, true => (some (Semaphore.new value.toInt), 1, ⟨some 0, none⟩)
  | .create _ _, s, _ => (s, 0, ⟨some (-1), none⟩)
  | .wait _ _, none, _ => (none, 0, ⟨some (-1), none⟩)
  | .wait t _, some s, _ =>
    (some (s.pTest t).1.int, 0, ⟨if (s.pTest t).2 then some 0 else none, none⟩)
  | .signal _, none, _ => (none, 0, ⟨some (-1), none⟩)
  | .signal _, some s, _ => (some s.v.1.int, 0, ⟨some 0, s.v.2⟩)

/-- An operation is what it does at its own name. -/
theorem apply_eq_act (A : SemMap) (op : Op) :
    let r := act op (A.get op.name) (A.size < maxSemaphore)
    A.apply op = (⟨Function.update A.get op.name r.1, A.size + r.2.1⟩, r.2.2) := by
  have hsame : ∀ name, A.get name = none →
      Function.update A.get name none = A.get := fun name h => by
    rw [← h, Function.update_eq_self]
  cases op with
  | create name v =>
    by_cases h : A.get name = none ∧ A.size < maxSemaphore
    · rw [create_ok v h.1 h.2]
      simp [act, Op.name, h.1, h.2]
    · rw [create_fails v h]
      cases hs : A.get name with
      | none =>
        have hroom : ¬ A.size < maxSemaphore := fun hlt => h ⟨hs, hlt⟩
        simp [act, Op.name, hs, hroom, hsame name hs]
      | some s =>
        have : Function.update A.get name (some s) = A.get := by rw [← hs, Function.update_eq_self]
        simp [act, Op.name, hs, this]
  | wait t name =>
    cases hs : A.get name with
    | none => simp [wait_absent t hs, act, Op.name, hs, hsame name hs]
    | some s => simp [wait_present t hs, act, Op.name, hs]
  | signal name =>
    cases hs : A.get name with
    | none => simp [signal_absent hs, act, Op.name, hs, hsame name hs]
    | some s => simp [signal_present hs, act, Op.name, hs]

/-- Both would create a name, and there is room for one. -/
def LastSlot (A : SemMap) (a b : Op) : Prop :=
  A.size + 1 = maxSemaphore ∧ A.get a.name = none ∧ A.get b.name = none ∧
    (∃ v, a = .create a.name v) ∧ ∃ v, b = .create b.name v

theorem LastSlot.symm {a b : Op} (h : A.LastSlot a b) : A.LastSlot b a :=
  ⟨h.1, h.2.2.1, h.2.1, h.2.2.2.2, h.2.2.2.1⟩

/-- Only a new name makes the table grow, by one. -/
theorem act_grows (a : Op) (o : Option Semaphore) (room : Bool) :
    (act a o room).2.1 = 0 ∨ (act a o room).2.1 = 1 ∧ o = none ∧ room = true ∧
    ∃ v, a = .create a.name v := by
  cases a <;> cases o <;> cases room <;> simp [act, Op.name]

/-- Only a new name asks whether there is room. -/
theorem act_room (b : Op) (o : Option Semaphore) (room room' : Bool) :
    act b o room = act b o room' ∨ o = none ∧ ∃ v, b = .create b.name v := by
  cases b <;> cases o <;> simp [act, Op.name]

/-- The room another operation leaves makes no difference, save for the last
slot. -/
theorem act_after {a b : Op} (hlast : ¬ A.LastSlot a b) (ra : Option Semaphore × ℕ × Out)
    (ha : ra = act a (A.get a.name) (A.size < maxSemaphore)) :
    act b (A.get b.name) (A.size + ra.2.1 < maxSemaphore) = act b (A.get b.name)
    (A.size < maxSemaphore) := by
  rcases act_grows a (A.get a.name) (A.size < maxSemaphore) with h0 | ⟨h1, hna, hroom, hca⟩
  · rw [ha, h0]
    rfl
  · rcases act_room b (A.get b.name) (A.size + ra.2.1 < maxSemaphore) (A.size < maxSemaphore) with
      h | ⟨hnb, hcb⟩
    · exact h
    · have hlt : A.size < maxSemaphore := of_decide_eq_true hroom
      have hne : A.size + 1 ≠ maxSemaphore := fun he => hlast ⟨he, hna, hnb, hca, hcb⟩
      rw [ha, h1, decide_eq_true hlt, decide_eq_true (by omega)]

/-- Operations on different names commute, save for the last slot. -/
theorem apply_comm {a b : Op} (hne : a.name ≠ b.name) (hlast : ¬ A.LastSlot a b) :
    ((A.apply a).1.apply b).1 = ((A.apply b).1.apply a).1 ∧
    ((A.apply a).1.apply b).2 = (A.apply b).2 ∧
      ((A.apply b).1.apply a).2 = (A.apply a).2 := by
  have hab := act_after hlast _ rfl
  have hba := act_after (fun h => hlast h.symm) _ rfl
  simp only [apply_eq_act, Function.update_of_ne hne, Function.update_of_ne hne.symm, hab, hba,
    and_self, and_true]
  rw [Function.update_comm hne, Nat.add_right_comm]

end SemMap

namespace STable

/-- The slot that has the name. -/
def slotOf (T : STable) (name : CString) : Option ℕ :=
  (List.range maxSemaphore).find? fun i => (T.semTab i).any fun e => e.name = name

/-- The semaphore that has the name. -/
def lookup (T : STable) (name : CString) : Option Semaphore :=
  ((T.slotOf name).bind T.semTab).map (·.sem)

/-- The names in the table. -/
def names (T : STable) : List CString := ((List.range maxSemaphore).filterMap T.semTab).map (·.name)

/-- The table as a map. -/
def abs (T : STable) : SemMap := ⟨T.lookup, T.names.length⟩

@[simp] theorem abs_get (T : STable) : T.abs.get = T.lookup := rfl
@[simp] theorem abs_size (T : STable) : T.abs.size = T.names.length := rfl

/-! ### The table is kept well formed -/

/-- Bits and pointers agree, and no name is in two slots. -/
structure Inv (T : STable) : Prop where
  numBits : T.bm.numBits = maxSemaphore
  bits : ∀ i, T.bm.test i = (T.semTab i).isSome
  bound : ∀ i e, T.semTab i = some e → i < maxSemaphore
  unique : ∀ i j e e', T.semTab i = some e → T.semTab j = some e' → e.name = e'.name → i = j

variable {T T' : STable} {name : CString} {i : ℕ} {e : Sem}

theorem inv_new : Inv new := by
  refine
    { numBits := ?_, bits := fun i => ?_, bound := fun i e h => ?_, unique := fun i j e e' h => ?_ }
  · exact Bitmap.numBits_new _
  · exact Bitmap.test_new _ _
  · cases h
  · cases h

/-- An entry is written into slot `i`, whose bit is set by then, and no other
slot has its name. -/
theorem inv_set (hI : Inv T) (hi : i < maxSemaphore) (bm : Bitmap) (hn : bm.numBits = maxSemaphore)
    (hb : ∀ j, bm.test j = (decide (j = i) || T.bm.test j))
    (hother : ∀ j e', T.semTab j = some e' → j ≠ i → e'.name ≠ e.name) :
    Inv ⟨bm, Function.update T.semTab i (some e)⟩ := by
  refine
    { numBits := hn, bits := fun j => ?_, bound := fun j e' h => ?_,
      unique := fun j k e1 e2 h1 h2 he => ?_ }
  · by_cases hj : j = i
    · simp [hb, hj]
    · simp [hb, hj, hI.bits j]
  · by_cases hj : j = i
    · rw [hj]; exact hi
    · exact hI.bound j e' (by simpa [hj] using h)
  · simp only at h1 h2
    by_cases hj : j = i <;> by_cases hk : k = i
    · rw [hj, hk]
    · rw [hj, Function.update_self, Option.some.injEq] at h1
      rw [Function.update_of_ne hk] at h2
      exact absurd (h1 ▸ he).symm (hother k e2 h2 hk)
    · rw [hk, Function.update_self, Option.some.injEq] at h2
      rw [Function.update_of_ne hj] at h1
      exact absurd (h2 ▸ he) (hother j e1 h1 hj)
    · rw [Function.update_of_ne hj] at h1
      rw [Function.update_of_ne hk] at h2
      exact hI.unique j k e1 e2 h1 h2 he

/-- The scan finds the slot that has the name. -/
theorem slotOf_of_mem (hI : Inv T) (he : T.semTab i = some e) : T.slotOf e.name = some i := by
  unfold slotOf
  cases hf : (List.range maxSemaphore).find? fun j => (T.semTab j).any fun e' =>
    e'.name = e.name with
  | none =>
    have := List.find?_eq_none.mp hf i (List.mem_range.mpr (hI.bound i e he))
    simp [he] at this
  | some j =>
    have hj := List.find?_some hf
    obtain ⟨e', he', hname⟩ := (Option.any_eq_true _ _).mp hj
    rw [hI.unique j i e' e he' he (of_decide_eq_true hname)]

/-- The name is in one slot, or in none. -/
theorem slotOf_cases (hI : Inv T) (name : CString) :
    (∃ i e, T.semTab i = some e ∧ e.name = name ∧ T.slotOf name = some i) ∨
      ((∀ i e, T.semTab i = some e → e.name ≠ name) ∧ T.slotOf name = none) := by
  by_cases h : ∃ i e, T.semTab i = some e ∧ e.name = name
  · obtain ⟨i, e, he, hname⟩ := h
    exact Or.inl ⟨i, e, he, hname, hname ▸ slotOf_of_mem hI he⟩
  · refine Or.inr ⟨fun i e he hname => h ⟨i, e, he, hname⟩, ?_⟩
    unfold slotOf
    rw [List.find?_eq_none]
    intro i _ hi
    obtain ⟨e, he, hname⟩ := (Option.any_eq_true _ _).mp hi
    exact h ⟨i, e, he, of_decide_eq_true hname⟩

/-- With bits and pointers in agreement no null pointer is followed. -/
theorem scan_eq (hI : Inv T) (name : CString) (is : List ℕ) :
    T.scan name is = some (is.find? fun i => (T.semTab i).any fun e => e.name = name) := by
  induction is with
  | nil => rfl
  | cons i is ih =>
    unfold scan
    rw [hI.bits i]
    cases he : T.semTab i with
    | none => simpa [he] using ih
    | some e =>
      by_cases hn : e.name = name
      · simp [he, hn]
      · simp [he, hn, Ne.symm hn, ih]

theorem find_eq (hI : Inv T) (name : CString) : T.find name = some (T.slotOf name) :=
  scan_eq hI name _

theorem lookup_of_mem (hI : Inv T) (he : T.semTab i = some e) : T.lookup e.name = some e.sem := by
  unfold lookup
  rw [slotOf_of_mem hI he]
  simp [he]

theorem lookup_eq_none (h : T.slotOf name = none) : T.lookup name = none := by
  unfold lookup
  rw [h]
  rfl

/-- An entry of a name that no other slot has changes the map at that name. -/
theorem lookup_set (hI : Inv T) (hI' : Inv T')
    (hT' : T'.semTab = Function.update T.semTab i (some e))
    (hi : ∀ e', T.semTab i = some e' → e'.name = e.name) :
    T'.lookup = Function.update T.lookup e.name (some e.sem) := by
  funext m
  have hself : T'.semTab i = some e := by rw [hT', Function.update_self]
  by_cases hm : m = e.name
  · rw [hm, Function.update_self]
    exact lookup_of_mem hI' hself
  · rw [Function.update_of_ne hm]
    rcases slotOf_cases hI m with ⟨j, e', he', rfl, -⟩ | ⟨hno, hslot⟩
    · have hji : j ≠ i := fun hji => hm (hi e' (hji ▸ he'))
      have he'' : T'.semTab j = some e' := by rw [hT', Function.update_of_ne hji, he']
      rw [lookup_of_mem hI he', lookup_of_mem hI' he'']
    · rw [lookup_eq_none hslot]
      rcases slotOf_cases hI' m with ⟨j, e', he', rfl, -⟩ | ⟨-, hslot'⟩
      · by_cases hji : j = i
        · rw [hji, hself, Option.some.injEq] at he'
          exact absurd (congrArg Sem.name he').symm hm
        · rw [hT', Function.update_of_ne hji] at he'
          exact absurd rfl (hno j e' he')
      · exact lookup_eq_none hslot'

theorem names_nodup (hI : Inv T) : T.names.Nodup := by
  unfold names
  refine List.Nodup.map_on (fun e he e' he' hn => ?_)
    (List.Nodup.filterMap (fun i j e hi hj => ?_) List.nodup_range)
  · obtain ⟨i, -, hi⟩ := List.mem_filterMap.mp he
    obtain ⟨j, -, hj⟩ := List.mem_filterMap.mp he'
    have hij := hI.unique i j e e' hi hj hn
    rw [hij, hj, Option.some.injEq] at hi
    exact hi.symm
  · exact hI.unique i j e e hi hj rfl

/-- A slot is free or has a name. -/
theorem names_add_numClear (hI : Inv T) : T.names.length + T.bm.numClear = maxSemaphore := by
  have hcount : T.names.length = (List.range maxSemaphore).countP fun i => T.bm.test i := by
    unfold names
    rw [List.length_map, List.length_filterMap_eq_countP]
    exact List.countP_congr fun i _ => by rw [hI.bits i]
  have hsplit : (List.range maxSemaphore).length = _ :=
    List.length_eq_countP_add_countP fun i => T.bm.test i
  rw [List.length_range] at hsplit
  unfold Bitmap.numClear
  rw [hI.numBits, hcount]
  simp only [decide_not, Bool.decide_eq_true] at hsplit
  exact hsplit.symm

/-! ### Each operation is the operation on the map -/

/-- A new semaphore for the entry of slot `i`. -/
def setSem (T : STable) (i : ℕ) (e : Sem) (s : Semaphore) : STable :=
  { T with semTab := Function.update T.semTab i (some { e with sem := s }) }

theorem inv_setSem (hI : Inv T) (he : T.semTab i = some e) (s : Semaphore) :
    Inv (T.setSem i e s) := by
  refine inv_set hI (hI.bound i e he) T.bm hI.numBits (fun j => ?_) fun j e' he' hj hn => ?_
  · by_cases hj : j = i
    · simp [hj, hI.bits i, he]
    · simp [hj]
  · exact hj (hI.unique j i e' e he' he hn)

theorem abs_setSem (hI : Inv T) (he : T.semTab i = some e) (s : Semaphore) :
    (T.setSem i e s).abs = { T.abs with get := Function.update T.lookup e.name (some s) } := by
  have hI' := inv_setSem hI he s
  have hlookup : (T.setSem i e s).lookup = Function.update T.lookup e.name (some s) := by
    refine lookup_set (e := { e with sem := s }) hI hI' rfl fun e' he' => ?_
    rw [he, Option.some.injEq] at he'
    rw [he']
  have hnames := names_add_numClear hI
  have hnames' : (T.setSem i e s).names.length + T.bm.numClear = maxSemaphore :=
    names_add_numClear hI'
  have hsize : (T.setSem i e s).names.length = T.names.length := by omega
  unfold abs
  rw [hlookup, hsize]

/-- `Create` takes a free slot for a new name. -/
theorem create_new (hI : Inv T) (hno : ∀ i e, T.semTab i = some e → e.name ≠ name)
    (hi : T.bm.test i = false) (hib : i < T.bm.numBits) (v : ℤ) (T' : STable)
    (hT' : T' = ⟨T.bm.mark i, Function.update T.semTab i (some ⟨name, Semaphore.new v⟩)⟩) :
    Inv T' ∧
    T'.abs = ⟨Function.update T.lookup name (some (Semaphore.new v)), T.names.length + 1⟩ := by
  have hfree : T.semTab i = none := by
    rw [hI.bits i] at hi
    exact Option.not_isSome_iff_eq_none.mp (by simp [hi])
  have hI' : Inv T' := by
    rw [hT']
    exact inv_set hI (hI.numBits ▸ hib) _ (hI.numBits ▸ Bitmap.numBits_mark _ _)
      (Bitmap.test_mark hib)
      fun j e' he' _ => hno j e' he'
  have hlookup : T'.lookup = Function.update T.lookup name (some (Semaphore.new v)) := by
    refine lookup_set (e := ⟨name, Semaphore.new v⟩) hI hI' (by rw [hT']) fun e' he' => ?_
    rw [hfree] at he'
    cases he'
  have hnames := names_add_numClear hI
  have hnames' := names_add_numClear hI'
  have hclear : T'.bm.numClear + 1 = T.bm.numClear := by
    rw [hT']
    exact Bitmap.numClear_mark hib hi
  refine ⟨hI', ?_⟩
  unfold abs
  rw [hlookup, show T'.names.length = T.names.length + 1 by omega]

theorem create_refines (hI : Inv T) (hlen : name.length < 50) (v : BitVec 32) :
    ∃ T' out, T.apply (.create name v) = some (T', out) ∧ Inv T' ∧
    (T'.abs, out) = T.abs.apply (.create name v) ∧
      (out.ret = some (-1) → T' = T) := by
  simp only [apply, create, find_eq hI, Option.bind_some]
  rcases slotOf_cases hI name with ⟨i, e, he, rfl, hslot⟩ | ⟨hno, hslot⟩
  · have hpresent : T.abs.get e.name ≠ none := by
      rw [abs_get, lookup_of_mem hI he]
      exact Option.some_ne_none _
    rw [hslot]
    exact ⟨T, _, rfl, hI, (SemMap.create_fails v fun h => hpresent h.1).symm, fun _ => rfl⟩
  · have habsent : T.abs.get name = none := lookup_eq_none hslot
    have hnames := names_add_numClear hI
    rw [hslot]
    simp only
    rcases Bitmap.findAndSet_cases T.bm with ⟨i, hfs, hib, hi, -⟩ | ⟨hfs, hfull⟩
    · obtain ⟨hI', habs⟩ := create_new hI hno hi hib v.toInt _ rfl
      have hroom : T.abs.size < maxSemaphore := by
        have hpos : 0 < T.bm.numClear :=
          List.countP_pos_iff.mpr ⟨i, List.mem_range.mpr hib, by simp [hi]⟩
        rw [abs_size]
        omega
      refine ⟨_, ⟨some 0, none⟩, ?_, hI', ?_, fun h => by simp at h⟩
      · simp [hfs, newSem, hlen]
      · rw [habs, SemMap.create_ok v habsent hroom]
        rfl
    · refine ⟨T, ⟨some (-1), none⟩, ?_, hI, ?_, fun _ => rfl⟩
      · simp [hfs]
      · have hclear : T.bm.numClear = 0 := by
          refine List.countP_eq_zero.mpr fun i hi => ?_
          simp [hfull i (List.mem_range.mp hi)]
        have hsize : ¬ T.abs.size < maxSemaphore := by
          rw [abs_size]
          omega
        exact (SemMap.create_fails v fun h => hsize h.2).symm

theorem wait_refines (hI : Inv T) (t : Tid) (name : CString) :
    ∃ T' out, T.apply (.wait t name) = some (T', out) ∧ Inv T' ∧
    (T'.abs, out) = T.abs.apply (.wait t name) ∧
      (out.ret = some (-1) → T' = T) := by
  simp only [apply, wait, find_eq hI, Option.bind_some]
  rcases slotOf_cases hI name with ⟨i, e, he, rfl, hslot⟩ | ⟨hno, hslot⟩
  · have hget : T.abs.get e.name = some e.sem := lookup_of_mem hI he
    rw [hslot]
    refine ⟨T.setSem i e (e.sem.pTest t).1.int, ⟨if (e.sem.pTest t).2 then some 0 else none, none⟩,
      ?_, inv_setSem hI he _, ?_, fun h => ?_⟩
    · simp [pass, he, setSem]
    · rw [SemMap.wait_present t hget, abs_setSem hI he]
      rfl
    · simp only at h
      split_ifs at h
      simp at h
  · have hget : T.abs.get name = none := lookup_eq_none hslot
    rw [hslot]
    exact ⟨T, _, rfl, hI, (SemMap.wait_absent t hget).symm, fun _ => rfl⟩

theorem signal_refines (hI : Inv T) (name : CString) :
    ∃ T' out, T.apply (.signal name) = some (T', out) ∧ Inv T' ∧
    (T'.abs, out) = T.abs.apply (.signal name) ∧
      (out.ret = some (-1) → T' = T) := by
  simp only [apply, signal, find_eq hI, Option.bind_some]
  rcases slotOf_cases hI name with ⟨i, e, he, rfl, hslot⟩ | ⟨hno, hslot⟩
  · have hget : T.abs.get e.name = some e.sem := lookup_of_mem hI he
    rw [hslot]
    refine ⟨T.setSem i e e.sem.v.1.int, ⟨some 0, e.sem.v.2⟩, ?_, inv_setSem hI he _, ?_,
      fun h => by simp at h⟩
    · simp [he, setSem]
    · rw [SemMap.signal_present hget, abs_setSem hI he]
      rfl
  · have hget : T.abs.get name = none := lookup_eq_none hslot
    rw [hslot]
    exact ⟨T, _, rfl, hI, (SemMap.signal_absent hget).symm, fun _ => rfl⟩

/-- Each operation is defined, keeps the table well formed and is the
operation on the map; one that returns -1 changes nothing. -/
theorem refines (hI : Inv T) (op : Op) (hlen : op.name.length < 50) :
    ∃ T' out, T.apply op = some (T', out) ∧ Inv T' ∧ (T'.abs, out) = T.abs.apply op ∧
      (out.ret = some (-1) → T' = T) := by
  cases op with
  | create name v => exact create_refines hI hlen v
  | wait t name => exact wait_refines hI t name
  | signal name => exact signal_refines hI name

/-- One operation, then the other. -/
def applyTwo (T : STable) (a b : Op) : Option (STable × Out × Out) :=
  (T.apply a).bind fun ra => (ra.1.apply b).map fun rb => (rb.1, ra.2, rb.2)

/-- In either order the operations return the same and leave the same map. -/
def Commute (T : STable) (a b : Op) : Prop :=
  ∃ T1 T2 outa outb, T.applyTwo a b = some (T1, outa, outb) ∧
    T.applyTwo b a = some (T2, outb, outa) ∧
    T1.lookup = T2.lookup

theorem applyTwo_refines (hI : Inv T) {a b : Op} (ha : a.name.length < 50)
    (hb : b.name.length < 50) :
    ∃ T', T.applyTwo a b = some (T', (T.abs.apply a).2, ((T.abs.apply a).1.apply b).2) ∧
      T'.abs = ((T.abs.apply a).1.apply b).1 := by
  obtain ⟨Ta, outa, h1, hIa, hra, -⟩ := refines hI a ha
  obtain ⟨Tb, outb, h2, -, hrb, -⟩ := refines hIa b hb
  refine ⟨Tb, ?_, ?_⟩
  · simp only [applyTwo, h1, h2, Option.bind_some, Option.map_some, ← hra, ← hrb]
  · rw [← hra, ← hrb]

theorem commute (hI : Inv T) {a b : Op} (ha : a.name.length < 50) (hb : b.name.length < 50)
    (hne : a.name ≠ b.name) (hlast : ¬ T.abs.LastSlot a b) : Commute T a b := by
  obtain ⟨T1, h1, habs1⟩ := applyTwo_refines hI ha hb
  obtain ⟨T2, h2, habs2⟩ := applyTwo_refines hI hb ha
  obtain ⟨hmap, hb', ha'⟩ := SemMap.apply_comm hne hlast
  rw [hb'] at h1
  rw [ha'] at h2
  refine ⟨T1, T2, _, _, h1, h2, ?_⟩
  rw [← abs_get, ← abs_get, habs1, habs2, hmap]

end STable
end Nachos
