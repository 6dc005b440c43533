/-
# One virtual memory, read and written in three sizes

`ReadMem` and `WriteMem` come in three sizes, each with a translation of its
own. If the valid entries of the page table have frames of their own
(`Frames`), all of them see the same bytes: `readByte` is what a one-byte
`ReadMem` gives, and

* after a write that succeeds the bytes of its range are those of the value,
  low byte first, and no other byte has changed (`readByte_writeMem`);
* a read of two or four bytes is the number that the one-byte reads make, low
  byte first (`readMem_digits`);
* an access that fails calls `RaiseException` on an unchanged machine.

An aligned access stays in a page, so all its bytes are behind one entry
(`translate_within`), and different bytes are at different places
(`place_ne`).

Key definitions: `Frames`, `readByte`.
Key theorems: `translate_iff`, `translate_after`, `translate_within`, `views_agree`.
-/
import Mathlib
import Nachos.Machine.Precise

namespace Nachos

open Bytes (Byte Store)

variable {pt pt' : PageTable} {mem mem' : Store} {a x : BitVec 32} {w w' : Width}
  {wr wr' : Bool} {p q : ℤ} {v : BitVec 32}

/-! ### Translations -/

theorem aligned_iff :
    ¬ ((w = .word ∧ a &&& 3 ≠ 0) ∨ (w = .half ∧ a &&& 1 ≠ 0)) ↔ a.toNat % w.size = 0 := by
  rw [and_three_eq, and_one_eq, ofNat_ne_zero (by omega), ofNat_ne_zero (by omega)]
  cases w <;> simp [Width.size, Nat.mod_one]

/-- When `Translate` succeeds, and what it leaves. -/
theorem translate_iff : translate pt a w wr = .ok (p, pt') ↔
    a.toNat % w.size = 0 ∧ ∃ e, pt[a.toNat / pageSize]? = some e ∧ e.valid = true ∧
      (e.readOnly = true → wr = false) ∧ e.physicalPage % 2 ^ 32 < numPhysPages ∧
      p = e.physicalPage % 2 ^ 32 * pageSize + (a.toNat % pageSize : ℕ) ∧
      pt' = pt.set (a.toNat / pageSize) { e with use := true, dirty := e.dirty || wr } := by
  unfold translate
  rw [← aligned_iff]
  by_cases hal : (w = .word ∧ a &&& 3 ≠ 0) ∨ (w = .half ∧ a &&& 1 ≠ 0)
  · rw [if_pos hal]
    exact iff_of_false (by simp) fun h => h.1 hal
  · rw [if_neg hal]
    cases he : pt[a.toNat / pageSize]? with
    | none => simp [he]
    | some e =>
      simp only [he, hal, not_false_eq_true, true_and, Option.some.injEq, exists_eq_left']
      split_ifs with h1 h2 h3
      · simp [h1]
      · simp [h2]
      · exact iff_of_false (by simp) fun h => absurd h.2.2.1 (not_lt.mpr h3)
      · simp only [Except.ok.injEq, Prod.mk.injEq]
        constructor
        · rintro ⟨rfl, rfl⟩
          exact ⟨by simpa using h1, by simpa using h2, by omega, rfl, rfl⟩
        · rintro ⟨-, -, -, rfl, rfl⟩
          exact ⟨rfl, rfl⟩

/-- The use and dirty bits that a translation sets make no difference to a later one. -/
theorem translate_after (h : translate pt a w wr = .ok (p, pt')) (x : BitVec 32) (w' : Width)
    (wr' : Bool) :
    (translate pt' x w' wr').map Prod.fst = (translate pt x w' wr').map Prod.fst := by
  obtain ⟨-, e, he, -, -, -, -, rfl⟩ := translate_iff.mp h
  unfold translate
  by_cases hal : (w' = .word ∧ x &&& 3 ≠ 0) ∨ (w' = .half ∧ x &&& 1 ≠ 0)
  · rw [if_pos hal, if_pos hal]
  · rw [if_neg hal, if_neg hal]
    by_cases hx : a.toNat / pageSize = x.toNat / pageSize
    · have hlt := (List.getElem?_eq_some_iff.mp he).1
      rw [hx] at he hlt
      simp only [hx, List.getElem?_set_self hlt, he]
      split_ifs <;> rfl
    · simp only [List.getElem?_set_ne hx]
      cases pt[x.toNat / pageSize]? with
      | none => rfl
      | some e' =>
        simp only
        split_ifs <;> rfl

theorem eq_map_fst {α β ε : Type} {o : Except ε (α × β)} {y : α} :
    o.map Prod.fst = .ok y ↔ ∃ z, o = .ok (y, z) := by
  rcases o with e | ⟨y', z⟩
  · simp [Except.map]
  · simp [Except.map]

/-- The bytes of an access are at the places that follow each other. -/
theorem translate_within (h : translate pt a w wr = .ok (p, pt')) (h1 : a.toNat ≤ x.toNat)
    (h2 : x.toNat < a.toNat + w.size) :
    (translate pt x .byte false).map Prod.fst = .ok (p + (x.toNat - a.toNat : ℕ)) := by
  obtain ⟨hal, e, he, hv, -, hlt, rfl, -⟩ := translate_iff.mp h
  obtain ⟨-, -, -, -, hroom, -⟩ := translate_ok h
  have hdiv : x.toNat / pageSize = a.toNat / pageSize := by
    unfold pageSize at *
    omega
  refine eq_map_fst.mpr
    ⟨_, translate_iff.mpr ⟨Nat.mod_one _, e, hdiv ▸ he, hv, fun _ => rfl, hlt, ?_, rfl⟩⟩
  have hmod : x.toNat % pageSize = a.toNat % pageSize + (x.toNat - a.toNat) := by
    unfold pageSize at *
    omega
  rw [hmod]
  push_cast
  ring

/-- The valid entries have frames of their own. -/
structure Frames (pt : PageTable) : Prop where
  range : ∀ e ∈ pt, e.valid = true → 0 ≤ e.physicalPage ∧ e.physicalPage < numPhysPages
  distinct : ∀ (i j : ℕ) (e e' : TranslationEntry), pt[i]? = some e → pt[j]? = some e' →
    e.valid = true → e'.valid = true →
    e.physicalPage = e'.physicalPage → i = j

/-- A byte outside an access is at a place outside. -/
theorem place_ne (hpt : Frames pt) (h : translate pt a w wr = .ok (p, pt'))
    (hx : (translate pt x .byte wr').map Prod.fst = .ok q)
    (hout : ¬ (a.toNat ≤ x.toNat ∧ x.toNat < a.toNat + w.size)) :
    q < p ∨ p + w.size ≤ q := by
  obtain ⟨-, e, he, hv, -, -, rfl, -⟩ := translate_iff.mp h
  obtain ⟨-, -, -, -, hroom, -⟩ := translate_ok h
  obtain ⟨pt1, hx⟩ := eq_map_fst.mp hx
  obtain ⟨-, e', he', hv', -, -, rfl, -⟩ := translate_iff.mp hx
  obtain ⟨h0, h1⟩ := hpt.range e (List.mem_of_getElem? he) hv
  obtain ⟨h0', h1'⟩ := hpt.range e' (List.mem_of_getElem? he') hv'
  have hxm : x.toNat % pageSize < pageSize := Nat.mod_lt _ (by decide)
  rw [emod_of_bounded h0 h1, emod_of_bounded h0' h1']
  by_cases hpage : e.physicalPage = e'.physicalPage
  · -- behind one entry the places are apart as the addresses are
    have hdiv := hpt.distinct _ _ e e' he he' hv hv' hpage
    rw [hpage]
    unfold pageSize at *
    omega
  · unfold pageSize at *
    omega

/-! ### Bytes -/

/-- What a one-byte `ReadMem` at `x` gives. -/
def readByte (mem : Store) (pt : PageTable) (x : BitVec 32) : Except ExceptionType (BitVec 32) :=
  (readMem mem pt x .byte).map Prod.fst

theorem readByte_eq (mem : Store) (pt : PageTable) (x : BitVec 32) :
    readByte mem pt x = ((translate pt x .byte false).map Prod.fst).map fun p =>
    (mem p).signExtend 32 := by
  unfold readByte readMem
  cases translate pt x .byte false with
  | error e => rfl
  | ok r => rfl

theorem getD_encode (v : BitVec 32) {k : ℕ} (hk : k < w.size) :
    (encode v w).getD k 0 = v.extractLsb' (8 * k) 8 := by
  have hcases : k = 0 ∨ k = 1 ∨ k = 2 ∨ k = 3 := by
    cases w <;> simp only [Width.size] at hk <;> omega
  rcases hcases with rfl | rfl | rfl | rfl <;> cases w <;> simp [Width.size] at hk <;> rfl

/-- **A write, byte by byte.** -/
theorem readByte_writeMem (hpt : Frames pt) (h : writeMem mem pt a w v = .ok (mem', pt'))
    (x : BitVec 32) :
    readByte mem' pt' x =
      if a.toNat ≤ x.toNat ∧ x.toNat < a.toNat + w.size then
        .ok ((v.extractLsb' (8 * (x.toNat - a.toNat)) 8).signExtend 32)
      else readByte mem pt x := by
  obtain ⟨p, ht, rfl⟩ := writeMem_ok h
  rw [readByte_eq, translate_after ht]
  split_ifs with hin
  · rw [translate_within ht hin.1 hin.2]
    have hb : Bytes.write mem p (encode v w) (p + (x.toNat - a.toNat : ℕ)) =
        v.extractLsb' (8 * (x.toNat - a.toNat)) 8 := by
      rw [Bytes.write_inside (by omega) (by rw [length_encode]; omega), add_sub_cancel_left,
        Int.toNat_natCast]
      exact getD_encode v (by omega)
    exact congrArg (fun b : Byte => Except.ok (b.signExtend 32)) hb
  · rw [readByte_eq]
    cases hx : (translate pt x .byte false).map Prod.fst with
    | error e => rfl
    | ok q =>
      have hne := place_ne hpt ht hx hin
      have hb : Bytes.write mem p (encode v w) q = mem q :=
        Bytes.write_outside (by rw [length_encode]; omega)
      exact congrArg (fun b : Byte => Except.ok (b.signExtend 32)) hb

theorem toNat_append_byte {n : ℕ} (hi : BitVec n) (lo : Byte) :
    (hi ++ lo).toNat = hi.toNat * 256 + lo.toNat := by
  rw [BitVec.toNat_append, ← Nat.shiftLeft_add_eq_or_of_lt lo.isLt, Nat.shiftLeft_eq]

/-- The number that the bytes of an access make, low byte first. -/
theorem toNat_fetch (mem : Store) (p : ℤ) (hw : w ≠ .byte) :
    (fetch mem p w).toNat = ∑ k ∈ Finset.range w.size, (mem (p + k)).toNat * 256 ^ k := by
  cases w with
  | byte => exact absurd rfl hw
  | half =>
    have hlt : (mem (p + 1) ++ mem p : BitVec 16).toNat < 2 ^ 32 :=
      (BitVec.isLt _).trans (by decide)
    have hext : (fetch mem p .half).toNat = (mem (p + 1) ++ mem p : BitVec 16).toNat := by
      simp only [fetch, BitVec.truncate_eq_setWidth, BitVec.toNat_setWidth]
      exact Nat.mod_eq_of_lt hlt
    rw [hext]
    simp only [toNat_append_byte, Width.size, Finset.sum_range_succ, Finset.sum_range_zero]
    push_cast
    ring_nf
  | word =>
    simp only [fetch, Bytes.word, toNat_append_byte, Width.size, Finset.sum_range_succ,
      Finset.sum_range_zero]
    push_cast
    ring_nf

/-- **A read, byte by byte.** -/
theorem readMem_digits (h : readMem mem pt a w = .ok (v, pt')) (hw : w ≠ .byte) :
    ∃ c : ℕ → Byte, (∀ x : BitVec 32, a.toNat ≤ x.toNat → x.toNat < a.toNat + w.size →
        readByte mem pt x = .ok ((c (x.toNat - a.toNat)).signExtend 32)) ∧
      v.toNat = ∑ k ∈ Finset.range w.size, (c k).toNat * 256 ^ k := by
  obtain ⟨p, ht, rfl⟩ := readMem_ok h
  refine ⟨fun k => mem (p + k), fun x h1 h2 => ?_, toNat_fetch mem p hw⟩
  rw [readByte_eq, translate_within ht h1 h2]
  rfl

/-! ### Accesses that fail -/

/-- A call of `RaiseException` on the machine as `s` has it. -/
def Raised.Untouched (call : Raised) (s : Simulator) : Prop :=
  call.entered.machine.mainMemory = s.machine.mainMemory ∧
    call.entered.machine.pageTable = s.machine.pageTable

/-- `RaiseException`, and nothing but a return after it. -/
theorem log_raiseException {α : Type} (handler : Handler) (s : Simulator)
    (e : ExceptionType) (r : α) :
    ((Simulator.raiseException handler e a >>= fun _ => pure r).run s).log =
      [⟨e, a, s.entering a⟩] := by
  rw [StateT.run_bind, Simulator.run_raiseException]
  cases handler e (s.entering a) with
  | error halt => rfl
  | ok s' => rfl

/-- An access that fails raises its exception before it has changed anything. -/
theorem failed_access (handler : Handler) (s : Simulator) (a v : BitVec 32) (w : Width)
    (e : ExceptionType) :
    (readMem s.machine.mainMemory s.machine.pageTable a w = .error e →
      ∃ call, ((Simulator.readMem handler a w).run s).log = [call] ∧ call.which = e ∧
      call.Untouched s) ∧
    (writeMem s.machine.mainMemory s.machine.pageTable a w v = .error e →
      ∃ call, ((Simulator.writeMem handler a w v).run s).log = [call] ∧ call.which = e ∧
      call.Untouched s) := by
  constructor
  · intro h
    have ht : translate s.machine.pageTable a w false = .error e := by
      unfold readMem at h
      split at h
      · rename_i ht
        rw [ht, Except.error.inj h]
      · cases h
    have hrun : (Simulator.readMem handler a w).run s =
        (Simulator.raiseException handler e a >>= fun _ => pure none).run s := by
      simp [Simulator.readMem, ht]
    exact ⟨_, by rw [hrun, log_raiseException], rfl, rfl, rfl⟩
  · intro h
    have ht : translate s.machine.pageTable a w true = .error e := by
      unfold writeMem at h
      split at h
      · rename_i ht
        rw [ht, Except.error.inj h]
      · cases h
    have hrun : (Simulator.writeMem handler a w v).run s =
        (Simulator.raiseException handler e a >>= fun _ => pure false).run s := by
      simp [Simulator.writeMem, ht]
    exact ⟨_, by rw [hrun, log_raiseException], rfl, rfl, rfl⟩

/-- **The views agree.** -/
theorem views_agree (hpt : Frames pt) (mem : Store) :
    -- what is written is read, and nothing else has changed
    (∀ a w v mem' pt', writeMem mem pt a w v = .ok (mem', pt') → ∀ x : BitVec 32,
      readByte mem' pt' x =
        if a.toNat ≤ x.toNat ∧ x.toNat < a.toNat + w.size then
          .ok ((v.extractLsb' (8 * (x.toNat - a.toNat)) 8).signExtend 32)
        else readByte mem pt x) ∧
    -- two and four bytes are read as they are one by one
    (∀ b w v pt', w ≠ .byte → readMem mem pt b w = .ok (v, pt') →
      ∃ c : ℕ → Byte, (∀ x : BitVec 32, b.toNat ≤ x.toNat → x.toNat < b.toNat + w.size →
          readByte mem pt x = .ok ((c (x.toNat - b.toNat)).signExtend 32)) ∧
        v.toNat = ∑ k ∈ Finset.range w.size, (c k).toNat * 256 ^ k) ∧
    -- what fails changes nothing
    (∀ handler s a w v e, s.machine.mainMemory = mem → s.machine.pageTable = pt →
      (readMem mem pt a w = .error e →
        ∃ call, ((Simulator.readMem handler a w).run s).log = [call] ∧ call.which = e ∧
          call.Untouched s) ∧
      (writeMem mem pt a w v = .error e →
        ∃ call, ((Simulator.writeMem handler a w v).run s).log = [call] ∧ call.which = e ∧
          call.Untouched s)) ∧
    -- the `ASSERT`
    ∀ a w wr p pt', translate pt a w wr = .ok (p, pt') → 0 ≤ p ∧ p + w.size ≤ memorySize := by
  refine ⟨fun a w v mem' pt' h => readByte_writeMem hpt h, fun b w v pt' hw h =>
    readMem_digits h hw, fun handler s a w v e hmem hpt => ?_, fun a w wr p pt' => translate_assert⟩
  rw [← hmem, ← hpt]
  exact failed_access handler s a v w e

/-- A table whose entries have frames of their own, valid or not. -/
theorem Frames.of_nodup (hr : ∀ e ∈ pt, 0 ≤ e.physicalPage ∧ e.physicalPage < numPhysPages)
    (hn : (pt.map (·.physicalPage)).Nodup) : Frames pt := by
  refine ⟨fun e he _ => hr e he, fun i j e e' he he' _ _ hpage => ?_⟩
  have hlt := (List.getElem?_eq_some_iff.mp he).1
  refine (List.getElem?_inj (by simpa using hlt) hn).mp ?_
  rw [List.getElem?_map, List.getElem?_map, he, he', Option.map_some, Option.map_some, hpage]

/-- A half word at the end of the first of two pages that are not neighbours. -/
theorem views_agree_two :
    let pt : PageTable := [⟨0, 5, true, false, false, false⟩, ⟨1, 3, true, false, false, false⟩]
    ∃ mem' pt', writeMem (fun _ => 7) pt 126 .half 0x1234 = .ok (mem', pt') ∧
      readByte mem' pt' 127 = .ok 0x12 ∧ readByte mem' pt' 128 = .ok 7 := by
  intro pt
  have hpt : Frames pt := .of_nodup (by decide) (by decide)
  obtain ⟨hwrite, -⟩ := views_agree hpt fun _ => 7
  obtain ⟨r, hr⟩ : ∃ r, writeMem (fun _ => 7) pt 126 .half 0x1234 = .ok r := ⟨_, rfl⟩
  have h := hwrite 126 .half 0x1234 r.1 r.2 hr
  refine ⟨r.1, r.2, hr, ?_, ?_⟩
  · rw [h 127]
    rfl
  · rw [h 128]
    rfl

end Nachos
