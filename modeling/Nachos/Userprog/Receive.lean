/-
# What a receive leaves of the old buffer (`userprog/ksyscall.h`)

`SysReceive` fills its kernel buffer from the user's, lets `recv` write over the
front of it, compares it with "exit" as a C string, and copies it out up to its
first zero. `recv` puts no zero behind what it wrote, so the old bytes of the
user are part of the comparison, and a zero in the payload ends the copy:

* "exit" is taken for a closed connection only when nothing of the old buffer is
  behind it, and "ex" is taken for it when the old buffer has "it" there;
* a payload with a zero before its last byte does not all get to the user.

`receives_alike_iff` has the payloads and lengths for which none of this
happens, whatever was in memory.

Key definitions: `FileDescriptor.receive`, `Io.sysReceive`, `Io.ReceivesAlike`, `Receivable`.
Key theorems: `cstr_receiveBuffer_iff`, `Io.sysReceive_ok`, `Io.receives_alike_iff`.
-/
import Mathlib
import Nachos.Base.Runs
import Nachos.Base.Bytes
import Nachos.Userprog.FileDescriptors
import Nachos.Userprog.UserMemory
import Nachos.Userprog.HostFiles
import Nachos.Userprog.Ksyscall
import Nachos.Userprog.Transfer

namespace Nachos

open Bytes (Byte Store)

/-- The string "exit". -/
def exitString : List Byte := [101, 120, 105, 116]

/-- `FileDescriptor::Receive`: the buffer and the result. `recv` is what the
host has for the socket, `none` for an error; a negative length is too large
for it. -/
def FileDescriptor.receive (recv : Option (List Byte)) (buffer : List Byte) (len : ℤ) :
    List Byte × ℤ :=
  match recv with
  | none => (buffer, -1)
  | some payload =>
    if len < 0 then (buffer, -1)
    else
      let bytes := payload.take len.toNat
      let buffer := bytes ++ buffer.drop bytes.length
      if cstr buffer = exitString then (buffer, 0) else (buffer, bytes.length)

/-- `SysReceive`; the buffer is copied out even when the socket is not open. -/
def Io.sysReceive (s : Io) (recv : Option (List Byte)) (socketid : ℤ) (virtbuffer : BitVec 32)
    (length : ℤ) :
    Except SysStop (Io × ℤ) :=
  match user2System s.user virtbuffer length with
  | .error e => .error e
  | .ok (buffer, user) =>
    let (buffer, result) :=
      match s.table.slotOf socketid with
      | none => (buffer, -1)
      | some _ => FileDescriptor.receive recv buffer length
    (system2User user virtbuffer length buffer).map fun r => ({ s with user := r.1 }, result)

/-! ### The kernel buffer -/

/-- The kernel buffer of `n` bytes after `p` was received over the user's `f`. -/
def receiveBuffer (p : List Byte) (f : ℕ → Byte) (n : ℕ) : List Byte :=
  p ++ ((List.range n).map (untilZero f) ++ [0]).drop p.length

/-- Payloads that are received as they are, over any buffer of `n` bytes: no
byte is behind a zero, and the bytes that may be behind the payload neither make
it "exit" nor hide that it is. -/
def Receivable (p : List Byte) (n : ℕ) : Prop :=
  p = [] ∨
    ((∀ k < p.length - 1, p.getD k 0 ≠ 0) ∧ p ≠ exitString ++ [0] ∧ (p = exitString → n = 4) ∧
    (p <+: exitString → p ≠ exitString → n < 4))

instance (p : List Byte) (n : ℕ) : Decidable (Receivable p n) := inferInstanceAs (Decidable (_ ∨ _))

/-- What a receive of `p` should return: 0 for "exit" and for a connection that
is closed. -/
def receiveResult (p : List Byte) : ℤ := if p = exitString ∨ p = [] then 0 else p.length

theorem getD_receiveBuffer {p : List Byte} {f : ℕ → Byte} {n k : ℕ} (hk : k < n) :
    (receiveBuffer p f n).getD k 0 = Io.overlaid (fun j => p.getD j 0) f p.length k := by
  refine Io.getD_overlaid ?_ hk
  rw [List.take_left' (by simp)]

theorem length_receiveBuffer {p : List Byte} {n : ℕ} (hp : p.length ≤ n) (f : ℕ → Byte) :
    (receiveBuffer p f n).length = n + 1 := by
  unfold receiveBuffer
  simp only [List.length_append, List.length_drop, List.length_map, List.length_range,
    List.length_singleton]
  omega

/-- A payload without a zero before its last byte, and the two kinds of it. -/
theorem payload_cases {p : List Byte} (hzeros : ∀ k < p.length - 1, p.getD k 0 ≠ 0) :
    (∀ b ∈ p, b ≠ 0) ∨ ∃ q, p = q ++ [0] ∧ ∀ b ∈ q, b ≠ 0 := by
  rcases List.eq_nil_or_concat' p with rfl | ⟨q, b, rfl⟩
  · exact Or.inl fun b hb => absurd hb List.not_mem_nil
  · have hq : ∀ c ∈ q, c ≠ 0 := by
      intro c hc
      obtain ⟨k, hk, rfl⟩ := List.mem_iff_getElem.mp hc
      have hne := hzeros k (by rw [List.length_append, List.length_singleton]; omega)
      rwa [List.getD_append _ _ _ _ hk, List.getD_eq_getElem _ _ hk] at hne
    by_cases hb : b = 0
    · exact Or.inr ⟨q, by rw [hb], hq⟩
    · refine Or.inl fun c hc => ?_
      rcases List.mem_append.mp hc with hc | hc
      · exact hq c hc
      · rwa [List.mem_singleton.mp hc]

/-! ### What the old buffer can do -/

theorem map_untilZero_exit {n : ℕ} (hn : 4 ≤ n) :
    (List.range n).map (untilZero fun k => exitString.getD k 0) = exitString ++ List.replicate
      (n - 4) 0 := by
  obtain ⟨m, rfl⟩ := Nat.exists_eq_add_of_le hn
  rw [List.range_add, List.map_append, Nat.add_sub_cancel_left, List.map_map]
  refine congrArg₂ _ (by decide) (List.eq_replicate_iff.mpr ⟨by simp, fun b hb => ?_⟩)
  obtain ⟨k, -, rfl⟩ := List.mem_map.mp hb
  -- the string ends at 4
  have hend : exitString.getD (4 + k) 0 = 0 := List.getD_eq_default _ _ (by simp [exitString])
  unfold untilZero
  simp only [Function.comp_apply, hend, ite_self]

/-- Old bytes "exit" make a front of it the whole. -/
theorem cstr_receiveBuffer_exit {p : List Byte} {n : ℕ} (hp : p <+: exitString) (hn : 4 ≤ n) :
    FileDescriptor.cstr (receiveBuffer p (fun k => exitString.getD k 0) n) = exitString := by
  obtain ⟨q, hq⟩ := hp
  unfold receiveBuffer
  rw [map_untilZero_exit hn, ← hq, List.append_assoc, List.append_assoc, List.drop_left,
    ← List.append_assoc, hq, ← List.replicate_succ', List.replicate_succ]
  exact FileDescriptor.cstr_append_zero (by decide) _

/-- An old byte that is not zero hides "exit". -/
theorem cstr_receiveBuffer_one {n : ℕ} (hn : 4 < n) :
    FileDescriptor.cstr (receiveBuffer exitString (fun _ => 1) n) ≠ exitString := by
  have hones : (List.range n).map (untilZero fun _ => (1 : Byte)) = List.replicate n 1 := by
    refine List.eq_replicate_iff.mpr ⟨by simp, fun b hb => ?_⟩
    obtain ⟨k, -, rfl⟩ := List.mem_map.mp hb
    exact untilZero_of_ne fun _ _ => by decide
  obtain ⟨m, rfl⟩ := Nat.exists_eq_add_of_lt hn
  unfold receiveBuffer
  have hm : 4 + m + 1 = exitString.length + (m + 1) := by
    simp [exitString]
    omega
  rw [hones, FileDescriptor.cstr_append (by decide), hm, List.replicate_add, List.append_assoc,
    List.drop_left' (by simp), List.replicate_succ]
  intro h
  have hlen := congrArg List.length h
  simp [FileDescriptor.cstr] at hlen

/-- A payload that ends in a zero is its own string. -/
theorem cstr_receiveBuffer_terminated {q : List Byte} (hq : ∀ b ∈ q, b ≠ 0) (f : ℕ → Byte) (n : ℕ) :
    FileDescriptor.cstr (receiveBuffer (q ++ [0]) f n) = q := by
  unfold receiveBuffer
  rw [List.append_assoc]
  exact FileDescriptor.cstr_append_zero hq _

/-- A payload without a zero, where the old buffer has no room to change what it
is. -/
theorem cstr_receiveBuffer_of_ne {p : List Byte} {n : ℕ} (hp : p.length ≤ n) (hnz : ∀ b ∈ p, b ≠ 0)
    (hlast : p = exitString → n = 4) (hfront : p <+: exitString → p ≠ exitString → n < 4)
    (f : ℕ → Byte) :
    FileDescriptor.cstr (receiveBuffer p f n) = exitString ↔ p = exitString := by
  constructor
  · intro h
    have hpre : p <+: exitString := by
      rw [← h, receiveBuffer, FileDescriptor.cstr_append hnz]
      exact List.prefix_append _ _
    by_contra hne
    -- the zero at the end of the buffer ends the string
    have h0 : (0 : Byte) ∈ receiveBuffer p f n := by
      unfold receiveBuffer
      rw [List.drop_append_of_le_length (by simpa using hp)]
      simp
    have hlt := FileDescriptor.length_cstr_lt h0
    rw [h, length_receiveBuffer hp] at hlt
    have hn := hfront hpre hne
    simp only [exitString, List.length_cons, List.length_nil] at hlt
    omega
  · rintro rfl
    rw [hlast rfl]
    unfold receiveBuffer
    rw [List.drop_left' (by simp [exitString])]
    exact FileDescriptor.cstr_append_zero (by decide) _

/-- When the old buffer neither makes nor hides "exit". -/
theorem cstr_receiveBuffer_iff {p : List Byte} {n : ℕ} (hp : p.length ≤ n)
    (hzeros : ∀ k < p.length - 1, p.getD k 0 ≠ 0) :
    (∀ f, FileDescriptor.cstr (receiveBuffer p f n) = exitString ↔ p = exitString) ↔
      p ≠ exitString ++ [0] ∧ (p = exitString → n = 4) ∧
      (p <+: exitString → p ≠ exitString → n < 4) := by
  constructor
  · intro h
    refine ⟨?_, ?_, fun hpre hne => ?_⟩
    · rintro rfl
      have hexit := (h fun _ => 0).mp (cstr_receiveBuffer_terminated (by decide) _ n)
      exact absurd hexit (by decide)
    · rintro rfl
      by_contra hn
      refine cstr_receiveBuffer_one ?_ ((h fun _ => 1).mpr rfl)
      have : exitString.length = 4 := rfl
      omega
    · by_contra hn
      exact hne ((h _).mp (cstr_receiveBuffer_exit hpre (not_lt.mp hn)))
  · rintro ⟨hterm, hlast, hfront⟩ f
    rcases payload_cases hzeros with hnz | ⟨q, rfl, hq⟩
    · exact cstr_receiveBuffer_of_ne hp hnz hlast hfront f
    · rw [cstr_receiveBuffer_terminated hq]
      refine iff_of_false (fun h => hterm (by rw [h])) fun h => ?_
      have hmem : (0 : Byte) ∈ exitString := h ▸ (by simp)
      exact absurd hmem (by decide)

/-- When the payload gets to the user over any old buffer. -/
theorem landed_receiveBuffer_iff (p : List Byte) :
    (∀ f, ∀ k < p.length, Io.landed (Io.overlaid (fun j => p.getD j 0) f p.length)
      f k = p.getD k 0) ↔
      ∀ k < p.length - 1, p.getD k 0 ≠ 0 := by
  have hfits : ∀ f, (∀ k < p.length, Io.landed (Io.overlaid (fun j => p.getD j 0) f p.length)
      f k = p.getD k 0) ↔
      ∀ k < p.length, (∃ j < k, p.getD j 0 = 0) → p.getD k 0 = f k := by
    intro f
    have h := Io.landed_overlaid_iff (fun j => p.getD j 0) f p.length p.length
    rw [and_iff_left fun k hk hle => absurd hk (not_lt.mpr hle), and_iff_left fun hlt => absurd hlt
      (lt_irrefl _)] at h
    exact h
  simp only [hfits]
  constructor
  · intro h k hk h0
    have hsame := h (fun j => p.getD j 0 + 1) (k + 1) (by omega) ⟨k, by omega, h0⟩
    simp at hsame
  · rintro h f k hk ⟨j, hj, h0⟩
    exact absurd h0 (h j (by omega))

/-- What the call does over the old bytes `f` is what it should. -/
def ReceivedOver (p : List Byte) (n : ℕ) (f : ℕ → Byte) : Prop :=
  (if FileDescriptor.cstr (receiveBuffer p f n) = exitString then 0 else (p.length : ℤ)) =
    receiveResult p ∧
    ∀ k < p.length, Io.landed (Io.overlaid (fun j => p.getD j 0) f p.length) f k = p.getD k 0

theorem receivedOver_iff {p : List Byte} {n : ℕ} (hp : p.length ≤ n) :
    (∀ f, ReceivedOver p n f) ↔ Receivable p n := by
  unfold ReceivedOver Receivable
  rw [forall_and, landed_receiveBuffer_iff]
  by_cases hnil : p = []
  · subst hnil
    refine iff_of_true ⟨fun f => ?_, fun k hk => absurd hk (Nat.not_lt_zero _)⟩ (Or.inl rfl)
    rw [receiveResult, if_pos (Or.inr rfl), List.length_nil, Nat.cast_zero, ite_self]
  · have hpos : (p.length : ℤ) ≠ 0 := by
      rw [Nat.cast_ne_zero, Ne, List.length_eq_zero_iff]
      exact hnil
    have hresult : ∀ f,
        (if FileDescriptor.cstr (receiveBuffer p f n) = exitString then 0 else (p.length : ℤ)) =
          receiveResult p ↔
        (FileDescriptor.cstr (receiveBuffer p f n) = exitString ↔ p = exitString) := by
      intro f
      unfold receiveResult
      simp only [or_iff_left hnil]
      split_ifs with h1 h2 h2
      · exact iff_of_true rfl (iff_of_true h1 h2)
      · exact iff_of_false hpos.symm fun h => h2 (h.mp h1)
      · exact iff_of_false hpos fun h => h1 (h.mpr h2)
      · exact iff_of_true rfl (iff_of_false h1 h2)
    simp only [hresult]
    rw [or_iff_right hnil, and_comm]
    exact and_congr_right fun hzeros => cstr_receiveBuffer_iff hp hzeros

/-- Only the bytes of the buffer count. -/
theorem ReceivedOver.congr {p : List Byte} {n : ℕ} (hp : p.length ≤ n) {f g : ℕ → Byte}
    (h : ∀ k < n, f k = g k) (hf : ReceivedOver p n f) : ReceivedOver p n g := by
  have huntil : ∀ k < n, untilZero f k = untilZero g k := by
    intro k hk
    have hzero : (∃ j < k, f j = 0) ↔ ∃ j < k, g j = 0 :=
      exists_congr fun j => and_congr_right fun hj => by rw [h j (by omega)]
    unfold untilZero
    rw [if_congr hzero rfl (h k hk)]
  have hbuffer : receiveBuffer p f n = receiveBuffer p g n := by
    unfold receiveBuffer
    rw [List.map_congr_left fun k hk => huntil k (List.mem_range.mp hk)]
  refine ⟨hbuffer ▸ hf.1, fun k hk => ?_⟩
  have hover : ∀ j < n, Io.overlaid (fun i => p.getD i 0) f p.length j =
      Io.overlaid (fun i => p.getD i 0) g p.length j := by
    intro j hj
    unfold Io.overlaid
    rw [huntil j hj]
  rw [← hf.2 k hk]
  unfold Io.landed
  rw [hover k (by omega), h k (by omega)]
  refine if_congr (forall₂_congr fun j hj => ?_) rfl rfl
  rw [hover j (by omega)]

/-- A buffer of a space can have any contents. -/
theorem UserSpace.exists_contents {pt : PageTable} (hs : UserSpace pt) (f : ℕ → Byte) {v n : ℕ}
    (hmapped : ∀ k < n, v + k < pt.length * pageSize) :
    ∃ mem : Store, ∀ k < n, UserMem.byte ⟨mem, pt⟩ (v + k) = f k := by
  classical
  refine ⟨fun a => if h : ∃ k, k < n ∧ place pt (v + k) = a then f h.choose else 0, fun k hk => ?_⟩
  have hex : ∃ j, j < n ∧ place pt (v + j) = place pt (v + k) := ⟨k, hk, rfl⟩
  have hsame := hs.place_inj (hmapped _ hex.choose_spec.1) (hmapped k hk) hex.choose_spec.2
  rw [byte_eq (u := ⟨_, pt⟩) (hmapped k hk)]
  simp only
  rw [dif_pos hex, Nat.add_left_cancel hsame]

/-! ### The call -/

theorem FileDescriptor.receive_some {p : List Byte} {n : ℕ} (hp : p.length ≤ n) (f : ℕ → Byte) :
    FileDescriptor.receive (some p) ((List.range n).map (untilZero f) ++ [0]) n =
      (receiveBuffer p f n, if FileDescriptor.cstr (receiveBuffer p f n) = exitString then 0
        else (p.length : ℤ)) := by
  unfold FileDescriptor.receive
  simp only [if_neg (show ¬ (n : ℤ) < 0 by omega), Int.toNat_natCast, List.take_of_length_le hp]
  rw [← receiveBuffer]
  split_ifs
  · rfl
  · rfl

namespace Io

variable {s : Io} {v : BitVec 32} {n : ℕ} {socketid : ℤ} {p : List Byte}

/-- The same state with other contents of memory. -/
def withMem (s : Io) (mem : Store) : Io := { s with user := { s.user with mem := mem } }

/-- `SysReceive` of `p` does the same over any two contents of memory: it
returns what it should, and the user has `p`. -/
def ReceivesAlike (s : Io) (socketid : ℤ) (v : BitVec 32) (n : ℕ) (p : List Byte) : Prop :=
  ∀ mem₁ mem₂ : Store, ∃ s₁ s₂ r, (s.withMem mem₁).sysReceive (some p) socketid v n = .ok (s₁, r) ∧
    (s.withMem mem₂).sysReceive (some p) socketid v n = .ok (s₂, r) ∧ r = receiveResult p ∧
    s₁.user.bytes v.toNat p.length = p ∧ s₂.user.bytes v.toNat p.length = p

/-- `SysReceive` on an open socket into a buffer in the space. -/
theorem sysReceive_ok (hI : Inv s) (hopen : s.table.IsOpen socketid)
    (hmapped : ∀ k < n, v.toNat + k < s.user.size) (hp : p.length ≤ n) :
    let old := fun k => s.user.byte (v.toNat + k)
    ∃ s', s.sysReceive (some p) socketid v n =
        .ok (s', if FileDescriptor.cstr (receiveBuffer p old n) = exitString then 0
          else (p.length : ℤ)) ∧
      ∀ k < n, s'.user.byte (v.toNat + k) = landed (overlaid (fun j => p.getD j 0) old p.length)
        old k := by
  intro old
  obtain ⟨d, hd⟩ := Option.isSome_iff_exists.mp (Table.isSome_fdMap.mpr hopen)
  obtain ⟨i, -, hslotOf, -, -⟩ := hI.slots.lookup hd
  obtain ⟨u', hu, hmem, hcore⟩ :=
    user2System_buffer hI.space (sizeOk_of_mapped hI.space hmapped) (Within.of_mapped hmapped)
  have hlen := length_receiveBuffer hp old
  have hsize := size_congr hcore
  obtain ⟨u2, m, hback, -, hbyte⟩ := system2User_ok (hI.space.congr hcore)
    (show (n : ℤ).toNat ≤ (receiveBuffer p old n).length by rw [hlen]; omega)
    (Within.of_mapped fun k hk => by rw [hsize]; exact hmapped k (by omega))
  refine ⟨{ s with user := u2 }, ?_, fun k hk => ?_⟩
  · unfold sysReceive
    simp only [hu, hslotOf, FileDescriptor.receive_some hp]
    rw [hback]
    rfl
  · simp only
    rw [Int.toNat_natCast] at hbyte
    rw [hbyte _ (by rw [hsize]; exact hmapped k hk), byte_same hmem hcore]
    have htakelen : ((receiveBuffer p old n).take n).length = n := by
      rw [List.length_take, hlen]
      omega
    refine copied_eq_landed (u := old) (fun j hj => ?_) (by rw [htakelen]; exact hk)
    rw [htakelen] at hj
    rw [List.getD_eq_getElem?_getD, List.getElem?_take_of_lt hj, ← List.getD_eq_getElem?_getD]
    exact getD_receiveBuffer hj

/-- One run. -/
theorem receives_iff (hI : Inv s) (hopen : s.table.IsOpen socketid)
    (hmapped : ∀ k < n, v.toNat + k < s.user.size) (hp : p.length ≤ n) :
    (∃ s', s.sysReceive (some p) socketid v n = .ok (s', receiveResult p) ∧
      s'.user.bytes v.toNat p.length = p) ↔
      ReceivedOver p n fun k => s.user.byte (v.toNat + k) := by
  obtain ⟨s1, hcall, hbytes⟩ := sysReceive_ok hI hopen hmapped hp
  have hdata : s1.user.bytes v.toNat p.length = p ↔
      ∀ k < p.length, s1.user.byte (v.toNat + k) = p.getD k 0 := by
    unfold UserMem.bytes
    constructor
    · intro h k hk
      rw [← h]
      simp [hk]
    · intro h
      refine List.ext_getElem (by simp) fun k _ hk => ?_
      rw [List.getElem_map, List.getElem_range, h k hk, List.getD_eq_getElem _ _ hk]
  have hland : (∀ k < p.length, s1.user.byte (v.toNat + k) = p.getD k 0) ↔
      ∀ k < p.length, landed
      (overlaid (fun j => p.getD j 0) (fun k => s.user.byte (v.toNat + k)) p.length)
        (fun k => s.user.byte (v.toNat + k)) k = p.getD k 0 :=
    forall₂_congr fun k hk => by rw [hbytes k (by omega)]
  unfold ReceivedOver
  rw [← hland, ← hdata]
  constructor
  · rintro ⟨s', hc, hb⟩
    rw [hcall, Except.ok.injEq, Prod.mk.injEq] at hc
    exact ⟨hc.2, hc.1 ▸ hb⟩
  · rintro ⟨hr, hb⟩
    exact ⟨s1, by rw [hcall, hr], hb⟩

/-- Two runs are alike when each is as it should be. -/
theorem receivesAlike_iff (hI : Inv s) (hopen : s.table.IsOpen socketid)
    (hmapped : ∀ k < n, v.toNat + k < s.user.size) (hp : p.length ≤ n) :
    s.ReceivesAlike socketid v n p ↔ Receivable p n := by
  have hone :
      ∀ mem, (∃ s', (s.withMem mem).sysReceive (some p) socketid v n = .ok (s', receiveResult p) ∧
      s'.user.bytes v.toNat p.length = p) ↔ ReceivedOver p n fun k => (s.withMem mem).user.byte
        (v.toNat + k) :=
    fun mem => receives_iff (s := s.withMem mem) ⟨hI.slots, hI.space⟩ hopen hmapped hp
  rw [← receivedOver_iff hp]
  constructor
  · intro h f
    obtain ⟨mem, hmem⟩ := hI.space.exists_contents f hmapped
    obtain ⟨s1, -, r, hcall, -, rfl, hbytes, -⟩ := h mem mem
    exact ((hone mem).mp ⟨s1, hcall, hbytes⟩).congr hp hmem
  · intro h mem₁ mem₂
    obtain ⟨s1, hcall1, hbytes1⟩ := (hone mem₁).mpr (h _)
    obtain ⟨s2, hcall2, hbytes2⟩ := (hone mem₂).mpr (h _)
    exact ⟨s1, s2, receiveResult p, hcall1, hcall2, rfl, hbytes1, hbytes2⟩

/-- **A receive does not depend on the old buffer**, whatever that was, just
when the payload has no byte behind a zero and is not a part of "exit" that old
bytes may complete, nor "exit" with room for old bytes behind it. -/
theorem receives_alike_iff {s : Io} (h : Reach s) {socketid : ℤ} (hopen : s.table.IsOpen socketid)
    {v : BitVec 32} {n : ℕ} (hmapped : ∀ k < n, v.toNat + k < s.user.size) {p : List Byte}
    (hp : p.length ≤ n) :
    s.ReceivesAlike socketid v n p ↔ Receivable p n :=
  receivesAlike_iff (inv_reach h) hopen hmapped hp

/-- The bytes "hi" are received alike. -/
theorem receives_alike_hi : ∃ s, Reach s ∧ s.ReceivesAlike 4 64 50 [104, 105] := by
  obtain ⟨s, hs, ht⟩ :=
    reach_sample (fun s => (s.table.fdMap 4).isSome ∧ s.user.size = 128) (by decide)
  simp only [decide_eq_true_eq] at ht
  obtain ⟨h4, hsize⟩ := ht
  refine ⟨s, hs, (receives_alike_iff hs (Table.isSome_fdMap.mp h4) (fun k hk => ?_) (by decide)).mpr
    (by decide)⟩
  rw [hsize, show (64 : BitVec 32).toNat = 64 from rfl]
  omega

/-- "exit" is 4 bytes in one run and the end of the connection in another. -/
theorem receive_stale :
    ∃ s, Reach s ∧ s.table.IsOpen 4 ∧ (∀ k < 50, (64 : BitVec 32).toNat + k < s.user.size) ∧
    ((s.withMem fun _ => 1).sysReceive (some exitString) 4 64 50).toOption.map Prod.snd = some 4 ∧
    ((s.withMem fun _ => 0).sysReceive (some exitString) 4 64 50).toOption.map Prod.snd = some 0 ∧
    ¬ s.ReceivesAlike 4 64 50 exitString := by
  obtain ⟨s, hs, ht⟩ := reach_sample
    (fun s => (s.table.fdMap 4).isSome ∧ s.user.size = 128 ∧
      ((s.withMem fun _ => 1).sysReceive (some exitString) 4 64 50).toOption.map Prod.snd = some 4 ∧
      ((s.withMem fun _ => 0).sysReceive (some exitString) 4 64 50).toOption.map Prod.snd =
        some 0) (by decide)
  simp only [decide_eq_true_eq] at ht
  obtain ⟨h4, hsize, hone, hzero⟩ := ht
  refine ⟨s, hs, Table.isSome_fdMap.mp h4, fun k hk => ?_, hone, hzero, fun halike => ?_⟩
  · rw [hsize, show (64 : BitVec 32).toNat = 64 from rfl]
    omega
  · obtain ⟨s1, s2, r, hcall1, hcall2, -⟩ := halike (fun _ => 1) fun _ => 0
    rw [show ((50 : ℕ) : ℤ) = 50 from rfl] at hcall1 hcall2
    rw [hcall1] at hone
    rw [hcall2] at hzero
    have h14 : r = 4 := Option.some.inj hone
    have h10 : r = 0 := Option.some.inj hzero
    omega

end Io
end Nachos
