/-
# The producer and the consumer run to their end

Each program meets its contract, so over every interleaving the file is the queue
of what was printed (`producer_consumer_fifo`). No run is infinite, and the
programs do not block each other: where neither can move, both have made all
their passes (`producer_consumer_finish`).

Key definitions: `program`, `Start`, `contracts`.
Key theorems: `spec_producer`, `spec_consumer`, `producer_consumer_fifo`,
`producer_consumer_finish`.
-/
import Mathlib
import Nachos.Base.Runs
import Nachos.Base.Programs
import Nachos.Userprog.FileStore
import Nachos.Test.Programs
import Nachos.Test.ItemQueue

namespace Nachos

open Bytes (Byte)
open Programs (Cmd Outcome Contract Spec Stable Conf)

namespace Items

variable {q₀ q ct : List Byte} {ls : List Line} {n off : ℕ} {newFd : FileStore → ℤ}

theorem Holds.filter (hq : Digits q) (h : Holds q ct) : ct.filter isItem = q ∧ ∀ b ∈ ct, b ≠ 0 := by
  have hq' : q.filter isItem = q := List.filter_eq_self.mpr hq
  rcases h with rfl | ⟨rfl, rfl⟩
  · refine ⟨?_, fun b hb => ?_⟩
    · rw [List.filter_append, hq']
      exact List.append_nil q
    · rcases List.mem_append.mp hb with hb | hb
      · exact (isItem_ne (hq b hb)).1
      · rw [List.mem_singleton.mp hb]
        decide
  · exact ⟨rfl, fun b hb => by cases hb⟩

/-! ### The producer -/

/-- The producer in its pass `n`. -/
def ProducerAt (n : ℕ) (l : ProducerVars) : Prop :=
  l.num_item_produced = n ∧ l.list_items.length = 100

/-- `list_items` holds `items`. -/
structure Listed (items : List Byte) (l : ProducerVars) : Prop where
  len : l.list_items.length = 100
  num : l.num_item = items.length
  items : l.list_items.take l.num_item = items

/-- The items of `pre` are in the list. -/
structure Got (n : ℕ) (pre : List Byte) (l : ProducerVars) : Prop where
  num : l.num_item_produced = n
  list : Listed (pre.filter isItem) l

/-- The loop over the file is at `off`, behind a `Read` that gave a byte or the end. -/
structure Scanned (n : ℕ) (ct : List Byte) (off : ℕ) (l : ProducerVars) (fs : FileStore) :
    Prop where
  le : off ≤ ct.length
  got : Got n (ct.take off) l
  next : 0 < l.numRead ∧ ct[off]? = some l.c ∧ Reading l.file_id fs ct (off + 1) ∨
    l.numRead ≤ 0 ∧ ct.length ≤ off ∧ Reading l.file_id fs ct off

/-- One more item in the list. -/
theorem Listed.push {l : ProducerVars} {items : List Byte} (h : Listed items l)
    (hroom : items.length < 100) (b : Byte) :
    ∃ l', push l b = some l' ∧ Listed (items ++ [b]) l' ∧
    l'.num_item_produced = l.num_item_produced ∧ l'.file_id = l.file_id ∧
      l'.new_item = l.new_item := by
  have hlen := h.len
  have hnum := h.num
  have hlt : l.num_item < l.list_items.length := by omega
  refine ⟨{ l with list_items := l.list_items.set l.num_item b, num_item := l.num_item + 1 }, ?_,
    ⟨?_, ?_, ?_⟩, rfl, rfl, rfl⟩
  · unfold Items.push store
    rw [if_pos hlt]
    rfl
  · rw [← hlen]
    exact List.length_set
  · rw [List.length_append, ← hnum]
    rfl
  · show (l.list_items.set l.num_item b).take (l.num_item + 1) = _
    rw [← h.items, List.take_add_one, List.take_set, List.getElem?_set_self hlt,
      List.set_eq_of_length_le (by simp)]
    rfl

/-- `Read(&c, 1, file_id)`. -/
theorem spec_readChar {con : List Byte} (h0 : ∀ b ∈ ct, b ≠ 0) (hle : off ≤ ct.length) :
    Spec (contract ProducerVars q₀ .producer)
      (Inside q₀ .producer n
        (At con fun l fs => Got n (ct.take off) l ∧ Reading l.file_id fs ct off)) readChar
      (Inside q₀ .producer n (At con (Scanned n ct off))) := by
  refine spec_files fun l fs ⟨hgot, hr⟩ => ?_
  rcases hr with ⟨hid, hs, hnil⟩ | ⟨w, hopen⟩
  · have hread : fs.read (fun _ => 0) [l.c] l.file_id = .next (fs, [l.c], -1) := by
      unfold FileStore.read
      rw [hid, if_pos (Or.inl (by decide))]
    refine ⟨{ l with numRead := -1 }, fs, by rw [hread]; rfl, hle,
      ⟨hgot.num, hgot.list.len, hgot.list.num, hgot.list.items⟩, Or.inr ?_⟩
    exact ⟨neg_one_lt_zero.le, by rw [hnil]; exact Nat.zero_le off, Or.inl ⟨hid, hs, hnil⟩⟩
  · obtain ⟨fs', hread, hopen'⟩ := hopen.read (fun _ => 0) [l.c]
    rcases lt_or_ge off ct.length with hlt | hge
    · have hout : (ct.drop off).take [l.c].length = [ct[off]] := by
        rw [List.drop_eq_getElem_cons hlt]
        rfl
      rw [hout] at hread hopen'
      have hc : overwritten [ct[off]] [l.c] = [ct[off]] := by
        have hne : ∀ b ∈ [ct[off]], b ≠ 0 := by simpa using h0 _ (List.getElem_mem hlt)
        have htake :=
          FileStore.take_overwritten hne (show [ct[off]].length ≤ [l.c].length from le_rfl)
        rwa [List.take_of_length_le (by rw [FileStore.overwritten_length]; rfl)] at htake
      refine ⟨{ l with c := ct[off], numRead := 1 }, fs', by rw [hread, hc]; rfl, hle,
        ⟨hgot.num, hgot.list.len, hgot.list.num, hgot.list.items⟩, Or.inl ?_⟩
      exact ⟨zero_lt_one, List.getElem?_eq_getElem hlt, Or.inr ⟨w, hopen'⟩⟩
    · have hout : (ct.drop off).take [l.c].length = [] := by
        rw [List.drop_of_length_le hge, List.take_nil]
      rw [hout] at hread hopen'
      refine ⟨{ l with c := (overwritten [] [l.c]).headD 0, numRead := 0 },
        fs', by rw [hread]; rfl, hle, ⟨hgot.num, hgot.list.len, hgot.list.num, hgot.list.items⟩,
        Or.inr ⟨le_rfl, hge, Or.inr ⟨w, hopen'⟩⟩⟩

/-- The loop over the file with `m` bytes ahead of it. -/
def Scanning (n : ℕ) (ct : List Byte) (m : ℕ) (l : ProducerVars) (fs : FileStore) : Prop :=
  ∃ off, off + m = ct.length ∧ Scanned n ct off l fs

/-- The test of a byte. -/
theorem spec_test {con : List Byte} (hroom : (ct.filter isItem).length < 100)
    (hlt : off < ct.length) :
    Spec (contract ProducerVars q₀ .producer)
      (Inside q₀ .producer n (At con fun l fs => (Got n (ct.take off) l ∧ l.c = ct[off]) ∧
        Reading l.file_id fs ct (off + 1)))
      (.ite (fun l => some (isItem l.c)) (.assign fun l => push l l.c) .skip)
      (Inside q₀ .producer n
        (At con fun l fs => Got n (ct.take (off + 1)) l ∧ Reading l.file_id fs ct (off + 1))) := by
  have htake : (ct.take (off + 1)).filter isItem = (ct.take off).filter isItem ++
      if isItem ct[off] then [ct[off]] else [] := by
    rw [List.take_succ_eq_append_getElem hlt, List.filter_append, List.filter_singleton,
      Bool.cond_eq_ite]
  have hle : ((ct.take off).filter isItem ++ if isItem ct[off] then [ct[off]] else []).length <
      100 := by
    rw [← htake]
    exact lt_of_le_of_lt ((List.take_sublist _ _).filter _).length_le hroom
  refine spec_ite (fun _ _ _ => Option.some_ne_none _)
    (spec_assign fun l fs ⟨⟨⟨hgot, hc⟩, hr⟩, hv⟩ => ?_) ?_
  · have hitem : isItem ct[off] = true := hc ▸ Option.some.inj hv
    rw [if_pos hitem, List.length_append] at hle
    obtain ⟨l', hpush, hlist, hnum, hid, -⟩ :=
      hgot.list.push (by rw [List.length_singleton] at hle; omega) l.c
    refine ⟨l', hpush, ⟨hnum.trans hgot.num, ?_⟩, hid ▸ hr⟩
    rw [htake, if_pos hitem, ← hc]
    exact hlist
  · refine (Spec.skip (stable_inside _)).conseq (fun _ _ hin => hin) fun l s hin =>
      hin.at fun l fs ⟨⟨⟨hgot, hc⟩, hr⟩, hv⟩ => ?_
    have hitem : isItem ct[off] = false := hc ▸ Option.some.inj hv
    have hsame : (ct.take (off + 1)).filter isItem = (ct.take off).filter isItem := by
      rw [htake, hitem]
      exact List.append_nil _
    exact ⟨⟨hgot.num, hsame ▸ hgot.list⟩, hr⟩

theorem spec_scanItem {con : List Byte} (h0 : ∀ b ∈ ct, b ≠ 0)
    (hroom : (ct.filter isItem).length < 100) (m : ℕ) :
    Spec (contract ProducerVars q₀ .producer)
      (Inside q₀ .producer n
        (At con fun l fs => Scanning n ct m l fs ∧ some (decide (0 < l.numRead)) = some true))
      (.block scanItem)
      (Inside q₀ .producer n (At con fun l fs => ∃ k < m, Scanning n ct k l fs)) := by
  -- there is a byte, and the items before it are in the list
  have hbyte : Spec (contract ProducerVars q₀ .producer)
      (Inside q₀ .producer n fun l fs c => ∃ off, ∃ hlt : off < ct.length,
        ∃ _ : off + m = ct.length, At con (fun l fs => (Got n (ct.take off) l ∧ l.c = ct[off]) ∧
          Reading l.file_id fs ct (off + 1)) l fs c)
      (.block scanItem)
        (Inside q₀ .producer n (At con fun l fs => ∃ k < m, Scanning n ct k l fs)) := by
    refine spec_exists fun off => spec_exists fun hlt => spec_exists fun hm => ?_
    have hle : off + 1 ≤ ct.length := hlt
    refine Spec.cons (stable_inside _) (spec_test hroom hlt)
      (Spec.cons (stable_inside _) (spec_readChar h0 hle) ?_)
    refine (Spec.nil (stable_inside _)).conseq (fun _ _ hin => hin) fun l s hin =>
      hin.at fun l fs hscan => ?_
    exact ⟨m - 1, by omega, off + 1, by omega, hscan⟩
  refine hbyte.conseq (fun l s hin => hin.imp fun l fs c ⟨⟨⟨off, hm, hscan⟩, hv⟩, hcon⟩ => ?_)
    fun _ _ hq => hq
  rcases hscan.next with ⟨-, hc, hr⟩ | ⟨hle, -⟩
  · obtain ⟨hlt, hget⟩ := List.getElem?_eq_some_iff.mp hc
    exact ⟨off, hlt, hm, ⟨⟨hscan.got, hget.symm⟩, hr⟩, hcon⟩
  · simp only [Option.some.injEq, decide_eq_true_eq] at hv
    omega

/-- The loop that reads the items. -/
theorem spec_scan {con : List Byte} (hq : Digits q) (hct : Holds q ct) (hlen : q.length < 100) :
    Spec (contract ProducerVars q₀ .producer) (Inside q₀ .producer n (At con (Scanned n ct 0)))
      (.while (fun l => some (0 < l.numRead)) <| .block scanItem)
      (Inside q₀ .producer n
        (At con fun l fs => Got n ct l ∧ ∃ off, Reading l.file_id fs ct off)) := by
  obtain ⟨hfilter, h0⟩ := hct.filter hq
  have hloop : Spec (contract ProducerVars q₀ .producer)
      (Inside q₀ .producer n (At con fun l fs => ∃ m, Scanning n ct m l fs))
      (.while (fun l => some (0 < l.numRead)) <| .block scanItem)
      (Inside q₀ .producer n
        (At con fun l fs => Got n ct l ∧ ∃ off, Reading l.file_id fs ct off)) := by
    refine spec_while (fun _ _ _ _ => Option.some_ne_none _)
      (spec_scanItem h0 (by rw [hfilter]; exact hlen)) ?_
    rintro m l fs ⟨off, -, hscan⟩ hv
    rcases hscan.next with ⟨hpos, -⟩ | ⟨-, hge, hr⟩
    · simp [hpos] at hv
    · have hgot := hscan.got
      rw [List.take_of_length_le hge] at hgot
      exact ⟨hgot, off, hr⟩
  exact hloop.conseq (fun l s hin => hin.at fun l fs h => ⟨ct.length, 0, Nat.zero_add _, h⟩)
    fun _ _ hq => hq

/-- The producer after it has made its item. -/
structure Made (n : ℕ) (q : List Byte) (l : ProducerVars) : Prop where
  num : l.num_item_produced = n
  list : Listed (q ++ [nextItem q] ++ [charE]) l
  new : l.new_item = nextItem q

/-- Making the item. -/
theorem spec_make {con : List Byte} (hq : Digits q) (hct : Holds q ct) (hroom : q.length < 99) :
    Spec (contract ProducerVars q₀ .producer)
    (Inside q₀ .producer n (At con fun l fs => Got n ct l ∧ ∃ off, Reading l.file_id fs ct off))
      makeItem (Inside q₀ .producer n
        (At con fun l fs => Made n q l ∧ ∃ ct off, Reading l.file_id fs ct off)) := by
  have hfilter := (hct.filter hq).1
  have htwo : ∀ b, (q ++ [b]).length < 100 := fun b => by
    rw [List.length_append, List.length_singleton]
    omega
  refine spec_ite (fun _ _ _ => Option.some_ne_none _) (spec_assign ?_) (spec_assign ?_)
  · rintro l fs ⟨⟨⟨hn, hlist⟩, off, hr⟩, hv⟩
    rw [hfilter] at hlist
    simp only [Option.some.injEq, decide_eq_true_eq] at hv
    have hnum := hlist.num
    have hnil : q = [] := List.length_eq_zero_iff.mp (by omega)
    obtain ⟨l₁, hpush₁, hlist₁, hn₁, hid₁, -⟩ := hlist.push (by omega) char0
    obtain ⟨l₂, hpush₂, hlist₂, hn₂, hid₂, -⟩ := hlist₁.push (htwo char0) charE
    refine ⟨{ l₂ with
      new_item := char0 }, by simp only [hpush₁, hpush₂, Option.bind_eq_bind, Option.bind_some],
      ⟨?_, ?_, ?_⟩, ct, off, ?_⟩
    · exact hn₂.trans (hn₁.trans hn)
    · rw [hnil] at hlist₂ ⊢
      exact ⟨hlist₂.len, hlist₂.num, hlist₂.items⟩
    · rw [hnil]
      rfl
    · show Reading l₂.file_id fs ct off
      rw [hid₂, hid₁]
      exact hr
  · rintro l fs ⟨⟨⟨hn, hlist⟩, off, hr⟩, hv⟩
    rw [hfilter] at hlist
    simp only [Option.some.injEq, decide_eq_false_iff_not] at hv
    have hnum := hlist.num
    have hlen := hlist.len
    obtain ⟨last, hlast⟩ : ∃ last, q.getLast? = some last := by
      refine Option.ne_none_iff_exists'.mp fun hnone => ?_
      rw [List.getLast?_eq_none_iff] at hnone
      rw [hnone] at hnum
      exact hv hnum
    have hget : l.list_items[l.num_item - 1]? = some last := by
      rw [← hlast, List.getLast?_eq_getElem?, ← hlist.items, List.getElem?_take, List.length_take,
        if_pos (by omega)]
      congr 1
      omega
    have hnew : nextItem q = succItem last.toInt := by
      unfold nextItem
      rw [hlast]
      rfl
    let l₀ := { l with last_item := last.toInt, new_item := succItem last.toInt }
    have hlist₀ : Listed q l₀ := ⟨hlen, hnum, hlist.items⟩
    obtain ⟨l₁, hpush₁, hlist₁, hn₁, hid₁, hnew₁⟩ := hlist₀.push (by omega) (succItem last.toInt)
    obtain ⟨l₂, hpush₂, hlist₂, hn₂, hid₂, hnew₂⟩ := hlist₁.push (htwo _) charE
    refine ⟨l₂, ?_, ⟨?_, ?_, ?_⟩, ct, off, ?_⟩
    · simp only [hget, Option.bind_eq_bind, Option.bind_some]
      exact (congrArg (fun o => Option.bind o fun l => push l charE) hpush₁).trans hpush₂
    · exact hn₂.trans (hn₁.trans hn)
    · rw [hnew]
      exact hlist₂
    · rw [hnew]
      exact hnew₂.trans hnew₁
    · rw [hid₂, hid₁]
      exact hr

/-- Opening `items.txt` in the producer, and going to its start. -/
theorem spec_start {con : List Byte} {cs : List (Cmd ProducerVars World)}
    {Q : ProducerVars → World → Prop} (hnew : ∀ fs, 2 ≤ newFd fs)
    (h : ∀ ct, Holds q ct → Spec (contract ProducerVars q₀ .producer)
      (Inside q₀ .producer n (At con fun l fs => Got n (ct.take 0) l ∧ Reading l.file_id fs ct 0))
      (.block cs) Q) :
    Spec (contract ProducerVars q₀ .producer)
      (Inside q₀ .producer n
        (At con fun l fs => ProducerAt n l ∧ fs.handles = ∅ ∧ Encodes (fs.dir itemsTxt) q))
      (.block (openItems newFd readWriteFile (fun l id => { l with file_id := id }) ::
        onFiles (fun l fs => fs.seek 0 l.file_id)
        (fun l _ => l) :: .assign (fun l => some { l with num_item := 0 }) :: cs)) Q := by
  have hopen : Spec (contract ProducerVars q₀ .producer)
      (Inside q₀ .producer n
        (At con fun l fs => ProducerAt n l ∧ fs.handles = ∅ ∧ Encodes (fs.dir itemsTxt) q))
      (openItems newFd readWriteFile fun l id => { l with file_id := id })
      (Inside q₀ .producer n
        (At con fun l fs => ProducerAt n l ∧ ∃ ct, Holds q ct ∧ Reading l.file_id fs ct 0)) := by
    refine spec_openItems hnew ?_ ?_ (Or.inl (rfl : readWriteFile = 0))
    · exact fun _ _ => rfl
    · exact fun _ _ h => h
  have hseek : Spec (contract ProducerVars q₀ .producer)
      (Inside q₀ .producer n
        (At con fun l fs => ProducerAt n l ∧ ∃ ct, Holds q ct ∧ Reading l.file_id fs ct 0))
      (onFiles (fun l fs => fs.seek 0 l.file_id) fun l _ => l)
      (Inside q₀ .producer n
        (At con fun l fs => ProducerAt n l ∧ ∃ ct, Holds q ct ∧ Reading l.file_id fs ct 0)) := by
    refine spec_files fun l fs hpre => ?_
    obtain ⟨hl, ct, hct, hr⟩ := hpre
    rcases hr with ⟨hid, hs, hnil⟩ | ⟨w, hopen⟩
    · have hseek : fs.seek 0 l.file_id = .next (fs, -1) := by
        unfold FileStore.seek
        rw [hid, if_pos (by decide)]
      exact ⟨l, fs, by simp only [hseek, Outcome.map], hl, ct, hct, Or.inl ⟨hid, hs, hnil⟩⟩
    · obtain ⟨fs', r, hseek, hopen'⟩ := hopen.seek
      exact ⟨l, fs', by simp only [hseek, Outcome.map], hl, ct, hct, Or.inr ⟨w, hopen'⟩⟩
  have hzero : Spec (contract ProducerVars q₀ .producer)
      (Inside q₀ .producer n
        (At con fun l fs => ProducerAt n l ∧ ∃ ct, Holds q ct ∧ Reading l.file_id fs ct 0))
      (.assign fun l => some { l with num_item := 0 })
      (Inside q₀ .producer n (At con fun l fs => ∃ ct, Holds q ct ∧ Got n (ct.take 0) l ∧
        Reading l.file_id fs ct 0)) := by
    refine spec_assign fun l fs hpre => ?_
    obtain ⟨hl, ct, hct, hr⟩ := hpre
    exact ⟨_, rfl, ct, hct, ⟨hl.1, hl.2, rfl, rfl⟩, hr⟩
  refine Spec.cons (stable_inside _) hopen
    (Spec.cons (stable_inside _) hseek (Spec.cons (stable_inside _) hzero ?_))
  refine (spec_exists fun ct => spec_exists fun hct => h ct hct).conseq (fun l s hin => ?_)
    fun _ _ hq => hq
  refine hin.imp fun l fs con hat => ?_
  obtain ⟨⟨ct, hct, hG⟩, hcon⟩ := hat
  exact ⟨ct, hct, hG, hcon⟩

/-- One pass of the producer. -/
theorem spec_producerPass (hq₀ : Digits q₀) (hle : q₀.length ≤ 89) (hnew : ∀ fs, 2 ≤ newFd fs)
    (hn : n < maxItemsProduce) :
    Spec (contract ProducerVars q₀ .producer)
    (fun l s => ProducerAt n l ∧ Outside q₀ .producer n n n s) (.block (producerPass newFd))
      fun l s => ProducerAt (n + 1) l ∧ Outside q₀ .producer (n + 1) (n + 1) (n + 1) s := by
  refine spec_enter hq₀ (fun _ _ => hn) fun ls q hf => spec_start hnew fun ct hct => ?_
  have hroom := hf.room rfl
  have hitem := isItem_nextItem hf.digits
  have h0 : ∀ b ∈ q ++ [nextItem q] ++ [charE], b ≠ 0 := by
    have hq' : Digits (q ++ [nextItem q]) := by
      intro b hb
      rcases List.mem_append.mp hb with hb | hb
      · exact hf.digits b hb
      · exact List.mem_singleton.mp hb ▸ hitem
    exact (Holds.filter hq' (Or.inl rfl)).2
  have hcount : Spec (contract ProducerVars q₀ .producer)
      (Inside q₀ .producer n (At (screen (ls ++ [Party.producer.line (nextItem q)])) fun l fs =>
        Made n q l ∧ ∃ off, fs.Opened l.file_id itemsTxt (q ++ [nextItem q] ++ [charE]) off true))
      (.assign fun l => some { l with num_item_produced := l.num_item_produced + 1 })
      (Inside q₀ .producer n (At (screen (ls ++ [Party.producer.line (nextItem q)])) fun l fs =>
        ProducerAt (n + 1) l ∧ ∃ off, fs.Opened l.file_id itemsTxt (q ++ [nextItem q] ++ [charE])
          off true)) := by
    refine spec_assign fun l fs ⟨hl, hopen⟩ => ?_
    exact ⟨_, rfl, ⟨congrArg (· + 1) hl.num, hl.list.len⟩, hopen⟩
  refine Spec.cons (stable_inside _) (spec_readChar (hct.filter hf.digits).2 (Nat.zero_le _)) ?_
  refine Spec.cons (stable_inside _) (spec_scan hf.digits hct (by omega)) ?_
  refine Spec.cons (stable_inside _) (spec_make hf.digits hct (by omega)) ?_
  refine spec_line (p := .producer) (fun l fs h => h.1.new) hitem hf.mine ?_
  refine spec_replaceItems hnew (fun _ _ => rfl)
    (fun _ _ h => ⟨h.num, ⟨h.list.len, h.list.num, h.list.items⟩, h.new⟩) ?_
  refine Spec.cons (stable_inside _) (spec_write (fun _ h => h.list.items) h0) ?_
  refine Spec.cons (stable_inside _) hcount (Spec.cons (stable_inside _) spec_close ?_)
  refine spec_leave (p := .producer) hf.run hf.mine ?_ ?_
  · exact if_pos rfl
  · exact (count_text hitem).1.1

theorem spec_producer (hq₀ : Digits q₀) (hle : q₀.length ≤ 89) (hnew : ∀ fs, 2 ≤ newFd fs) :
    Spec (contract ProducerVars q₀ .producer)
    (fun l s => ProducerAt 0 l ∧ Outside q₀ .producer 0 0 0 s) (producer newFd)
    (contract ProducerVars q₀ .producer).ends :=
  spec_passes (p := .producer) (P := ProducerAt) (fun _ _ h => h.1) fun _ hn =>
    spec_producerPass hq₀ hle hnew hn

/-! ### The consumer -/

/-- The consumer in its pass `n`. -/
def ConsumerAt (n : ℕ) (l : ConsumerVars) : Prop := l.num_item_consumed = n ∧ l.item.length = 100

/-- The array starts with `t`. -/
structure Loaded (n : ℕ) (t : List Byte) (l : ConsumerVars) : Prop where
  here : ConsumerAt n l
  item : l.item.take t.length = t

/-- The loop that moves the bytes `t` forward is at `i`. -/
structure Shifted (n : ℕ) (t : List Byte) (i : ℕ) (l : ConsumerVars) : Prop where
  at_ : l.i = i
  loaded : Loaded n (t.tail.take i ++ t.drop i) l

theorem length_shifted {t : List Byte} {i : ℕ} (hi : i < t.length) :
    (t.tail.take i ++ t.drop i).length = t.length := by
  simp only [List.length_append, List.length_take, List.length_drop, List.length_tail]
  omega

theorem set_shifted {t : List Byte} {i : ℕ} (hi : i + 1 < t.length) :
    (t.tail.take i ++ t.drop i).set i t[i + 1] = t.tail.take (i + 1) ++ t.drop (i + 1) := by
  have hlen : (t.tail.take i).length = i := by
    rw [List.length_take, List.length_tail]
    omega
  have hdrop : t.drop i = t[i] :: t.drop (i + 1) := List.drop_eq_getElem_cons (by omega)
  have htake : t.tail.take (i + 1) = t.tail.take i ++ [t[i + 1]] := by
    rw [List.take_succ_eq_append_getElem (by rw [List.length_tail]; omega), List.getElem_tail]
  rw [List.set_append_right _ _ hlen.le, hlen, Nat.sub_self, hdrop, List.set_cons_zero, htake,
    List.append_assoc, List.singleton_append]

theorem getElem?_shifted {t : List Byte} {i j : ℕ} {l : ConsumerVars} (h : Shifted n t i l)
    (hi : i < t.length) (hij : i ≤ j) (hj : j < t.length) : l.item[j]? = some t[j] := by
  have hitem := h.loaded.item
  rw [length_shifted hi] at hitem
  have hget : l.item[j]? = (t.tail.take i ++ t.drop i)[j]? := by
    rw [← hitem, List.getElem?_take, if_pos hj]
  have hprefix : (t.tail.take i).length = i := by
    rw [List.length_take, List.length_tail]
    omega
  rw [hget, List.getElem?_append_right (by omega), hprefix, List.getElem?_drop,
    Nat.add_sub_cancel' hij]
  exact List.getElem?_eq_getElem hj

/-- One byte forward. -/
theorem shifted_set {t : List Byte} {i : ℕ} {l : ConsumerVars} (h : Shifted n t i l)
    (hi : i + 1 < t.length) (hroom : t.length ≤ 100) :
    ∃ l', (do
      let next ← l.item[l.i + 1]?
      let item ← store l.item l.i next
      some { l with item := item, i := l.i + 1 }) = some l' ∧ Shifted n t (i + 1) l' ∧
      l'.file_id = l.file_id := by
  have hlen := h.loaded.here.2
  have hnext := getElem?_shifted h (by omega) (Nat.le_succ i) hi
  rw [h.at_, hnext]
  refine ⟨{ l with item := l.item.set i t[i + 1], i := i + 1 }, ?_,
    ⟨rfl, ⟨h.loaded.here.1, ?_⟩, ?_⟩, rfl⟩
  · simp only [Option.bind_eq_bind, Option.bind_some, store]
    rw [if_pos (by omega)]
    rfl
  · rw [← hlen]
    exact List.length_set
  · have hitem := h.loaded.item
    rw [length_shifted (by omega)] at hitem
    rw [length_shifted hi, ← set_shifted hi, ← hitem]
    exact List.take_set

/-- The loop that moves the items forward. -/
theorem spec_shift {con : List Byte} {q' : List Byte} {x : Byte} (hq : Digits (x :: q'))
    (hroom : (x :: q').length < 100) :
    Spec (contract ConsumerVars q₀ .consumer)
      (Inside q₀ .consumer n (At con fun l fs => Shifted n (x :: q' ++ [charE]) 0 l ∧
        ∃ ct off, Reading l.file_id fs ct off))
      (.while (fun l => l.item[l.i]?.map (· ≠ charE)) shiftItem)
      (Inside q₀ .consumer n (At con fun l fs => Shifted n (x :: q' ++ [charE]) (q'.length + 1) l ∧
        ∃ ct off, Reading l.file_id fs ct off)) := by
  have hlen : (x :: q' ++ [charE]).length = q'.length + 2 := by simp
  have hloop : Spec (contract ConsumerVars q₀ .consumer)
      (Inside q₀ .consumer n
        (At con fun l fs => ∃ m, (∃ i, i + m = q'.length + 1 ∧ Shifted n (x :: q' ++ [charE]) i l) ∧
        ∃ ct off, Reading l.file_id fs ct off))
      (.while (fun l => l.item[l.i]?.map (· ≠ charE)) shiftItem)
      (Inside q₀ .consumer n (At con fun l fs => Shifted n (x :: q' ++ [charE]) (q'.length + 1) l ∧
        ∃ ct off, Reading l.file_id fs ct off)) := by
    -- the byte at `i`, which is the `e` behind the items only
    have hat : ∀ {i l}, i ≤ q'.length + 1 → Shifted n (x :: q' ++ [charE]) i l →
        l.item[l.i]?.map (fun c => decide (c ≠ charE)) = some (decide (i ≠ q'.length + 1)) := by
      intro i l hi hs
      rw [hs.at_, getElem?_shifted hs (by omega) le_rfl (by omega), Option.map_some,
        Option.some.injEq]
      rcases Nat.lt_or_eq_of_le hi with hlt | rfl
      · rw [List.getElem_append_left hlt]
        have hne := (isItem_ne (hq _ (List.getElem_mem hlt))).2.1
        rw [decide_eq_true hne, decide_eq_true hlt.ne]
      · simp
    refine spec_while ?_ (fun m => spec_assign ?_) ?_
    · rintro m l fs ⟨⟨i, hi, hs⟩, -⟩
      rw [hat (by omega) hs]
      exact Option.some_ne_none _
    · rintro l fs ⟨⟨⟨i, hi, hs⟩, ct, off, hr⟩, hv⟩
      rw [hat (by omega) hs] at hv
      have hne : i ≠ q'.length + 1 := of_decide_eq_true (Option.some.inj hv)
      obtain ⟨l', hstep, hs', hid⟩ := shifted_set hs (by omega) (by rw [hlen]; exact hroom)
      exact ⟨l', hstep, m - 1, by omega, ⟨i + 1, by omega, hs'⟩, ct, off, hid ▸ hr⟩
    · rintro m l fs ⟨⟨i, hi, hs⟩, hr⟩ hv
      rw [hat (by omega) hs] at hv
      have heq : i = q'.length + 1 := not_not.mp (of_decide_eq_false (Option.some.inj hv))
      exact ⟨heq ▸ hs, hr⟩
  exact hloop.conseq (fun l s hin => hin.at fun l fs ⟨hs, hr⟩ =>
    ⟨q'.length + 1, ⟨0, Nat.zero_add _, hs⟩, hr⟩) fun _ _ hq => hq

/-- Opening `items.txt` in the consumer, and reading it. -/
theorem spec_load {con : List Byte} {cs : List (Cmd ConsumerVars World)}
    {Q : ConsumerVars → World → Prop} (hnew : ∀ fs, 2 ≤ newFd fs) (hq : Digits q) (hne : q ≠ [])
    (hroom : q.length < 100) (h : Spec (contract ConsumerVars q₀ .consumer)
      (Inside q₀ .consumer n (At con fun l fs => Loaded n (q ++ [charE]) l ∧
        ∃ ct off, Reading l.file_id fs ct off)) (.block cs) Q) :
    Spec (contract ConsumerVars q₀ .consumer)
      (Inside q₀ .consumer n
        (At con fun l fs => ConsumerAt n l ∧ fs.handles = ∅ ∧ Encodes (fs.dir itemsTxt) q))
      (.block (openItems newFd readFile (fun l id => { l with file_id := id }) ::
        io (fun l fs console => (fs.read (fun _ => 0) l.item l.file_id).map fun r =>
          ({ l with item := r.2.1 }, r.1, console)) :: cs)) Q := by
  have hopen : Spec (contract ConsumerVars q₀ .consumer)
      (Inside q₀ .consumer n
        (At con fun l fs => ConsumerAt n l ∧ fs.handles = ∅ ∧ Encodes (fs.dir itemsTxt) q))
      (openItems newFd readFile fun l id => { l with file_id := id })
      (Inside q₀ .consumer n
        (At con fun l fs => ConsumerAt n l ∧ ∃ ct, Holds q ct ∧ Reading l.file_id fs ct 0)) := by
    refine spec_openItems hnew ?_ ?_ (Or.inr (rfl : readFile = 1))
    · exact fun _ _ => rfl
    · exact fun _ _ h => h
  refine Spec.cons (stable_inside _) hopen
    (Spec.cons (stable_inside _) (spec_files fun l fs ⟨hl, ct, hct, hr⟩ => ?_) h)
  have hct' : ct = q ++ [charE] := hct.resolve_right fun hnil => hne hnil.1
  have h0 := (Holds.filter hq hct).2
  have hlen : ct.length ≤ l.item.length := by
    rw [hct', hl.2, List.length_append]
    exact hroom
  rcases hr with ⟨-, -, hnil⟩ | ⟨w, hopen⟩
  · rw [hct'] at hnil
    exact absurd hnil (List.append_ne_nil_of_right_ne_nil _ (List.cons_ne_nil _ _))
  · obtain ⟨fs', hread, hopen'⟩ := hopen.read (fun _ => 0) l.item
    rw [List.drop_zero, List.take_of_length_le hlen] at hread hopen'
    refine ⟨{ l with item := overwritten ct l.item }, fs', by rw [hread]; rfl, ⟨⟨hl.1, ?_⟩, ?_⟩, ct,
      _, Or.inr ⟨w, hopen'⟩⟩
    · exact (FileStore.overwritten_length ct l.item).trans hl.2
    · rw [← hct']
      exact FileStore.take_overwritten h0 hlen

/-- One pass of the consumer. -/
theorem spec_consumerPass (hq₀ : Digits q₀) (hle : q₀.length ≤ 89) (hnew : ∀ fs, 2 ≤ newFd fs)
    (hn : n < maxItemConsume) :
    Spec (contract ConsumerVars q₀ .consumer)
    (fun l s => ConsumerAt n l ∧ Outside q₀ .consumer n n n s) (.block (consumerPass newFd))
      fun l s => ConsumerAt (n + 1) l ∧ Outside q₀ .consumer (n + 1) (n + 1) (n + 1) s := by
  refine spec_enter hq₀ (fun _ _ => hn) fun ls q hf => ?_
  obtain ⟨x, q', rfl⟩ := List.exists_cons_of_ne_nil (hf.item rfl)
  have hroom : (x :: q').length < 100 := by
    have := hf.le
    omega
  have hx := hf.digits x (List.mem_cons_self ..)
  have hq' : Digits q' := fun b hb => hf.digits b (List.mem_cons_of_mem _ hb)
  refine spec_load hnew hf.digits (List.cons_ne_nil _ _) hroom ?_
  have hfirst : Spec (contract ConsumerVars q₀ .consumer)
      (Inside q₀ .consumer n (At (screen ls) fun l fs => Loaded n (x :: q' ++ [charE]) l ∧
        ∃ ct off, Reading l.file_id fs ct off))
      (.assign fun l => l.item[0]?.map fun c => { l with used_item := c })
      (Inside q₀ .consumer n (At (screen ls) fun l fs =>
        (Loaded n (x :: q' ++ [charE]) l ∧ l.used_item = x) ∧
          ∃ ct off, Reading l.file_id fs ct off)) := by
    refine spec_assign fun l fs ⟨hl, hr⟩ => ?_
    have hget : l.item[0]? = some x := by
      have hcons := congrArg (·[0]?) hl.item
      rwa [List.getElem?_take, if_pos (by simp)] at hcons
    exact ⟨{ l with used_item := x }, by rw [hget]; rfl, ⟨⟨hl.here, hl.item⟩, rfl⟩, hr⟩
  have hzero : Spec (contract ConsumerVars q₀ .consumer)
      (Inside q₀ .consumer n (At (screen (ls ++ [Party.consumer.line x])) fun l fs =>
        (Loaded n (x :: q' ++ [charE]) l ∧ l.used_item = x) ∧
          ∃ ct off, Reading l.file_id fs ct off))
      (.assign fun l => some { l with i := 0 })
      (Inside q₀ .consumer n (At (screen (ls ++ [Party.consumer.line x])) fun l fs =>
        Shifted n (x :: q' ++ [charE]) 0 l ∧ ∃ ct off, Reading l.file_id fs ct off)) :=
    spec_assign fun l fs ⟨⟨hl, _⟩, hr⟩ => ⟨{ l with i := 0 }, rfl, ⟨rfl, ⟨hl.here, hl.item⟩⟩, hr⟩
  have hnum : Spec (contract ConsumerVars q₀ .consumer)
      (Inside q₀ .consumer n (At (screen (ls ++ [Party.consumer.line x])) fun l fs =>
        Shifted n (x :: q' ++ [charE]) (q'.length + 1) l ∧ ∃ ct off, Reading l.file_id fs ct off))
      (.assign fun l => some { l with num_new := l.i })
      (Inside q₀ .consumer n (At (screen (ls ++ [Party.consumer.line x])) fun l fs =>
        (ConsumerAt n l ∧ l.item.take l.num_new = q' ++ [charE]) ∧
          ∃ ct off, Reading l.file_id fs ct off)) := by
    refine spec_assign fun l fs ⟨hs, hr⟩ =>
      ⟨{ l with num_new := l.i }, rfl, ⟨hs.loaded.here, ?_⟩, hr⟩
    have hitem := hs.loaded.item
    rw [length_shifted (by simp)] at hitem
    have htail : (x :: q' ++ [charE]).tail.take (q'.length + 1) = q' ++ [charE] :=
      List.take_of_length_le (by simp)
    calc l.item.take l.i = (l.item.take (x :: q' ++ [charE]).length).take (q'.length + 1) := by
          rw [hs.at_, List.take_take, min_eq_left (by simp)]
      _ = q' ++ [charE] := by
          rw [hitem, List.take_append_of_le_length (by simp), List.take_take, min_self, htail]
  have hcount : Spec (contract ConsumerVars q₀ .consumer)
      (Inside q₀ .consumer n (At (screen (ls ++ [Party.consumer.line x])) fun l fs =>
        (ConsumerAt n l ∧ l.item.take l.num_new = q' ++ [charE]) ∧ fs.handles = ∅ ∧
          fs.dir itemsTxt = some (q' ++ [charE])))
      (.assign fun l => some { l with num_item_consumed := l.num_item_consumed + 1 })
      (Inside q₀ .consumer n (At (screen (ls ++ [Party.consumer.line x])) fun l fs =>
        ConsumerAt (n + 1) l ∧ fs.handles = ∅ ∧ fs.dir itemsTxt = some (q' ++ [charE]))) :=
    spec_assign fun l fs ⟨hl, hf⟩ => ⟨_, rfl, ⟨congrArg (· + 1) hl.1.1, hl.1.2⟩, hf⟩
  refine Spec.cons (stable_inside _) hfirst
    (spec_line (p := .consumer) (fun l fs h => h.1.2) hx hf.mine ?_)
  refine Spec.cons (stable_inside _) hzero
    (Spec.cons (stable_inside _) (spec_shift hf.digits hroom) (Spec.cons (stable_inside _) hnum ?_))
  refine spec_replaceItems hnew ?_ ?_ ?_
  · exact fun _ _ => rfl
  · exact fun _ _ h => h
  refine Spec.cons (stable_inside _) (spec_write (fun _ h => h.2) (Holds.filter hq' (Or.inl rfl)).2)
    ?_
  refine Spec.cons (stable_inside _) spec_close (Spec.cons (stable_inside _) hcount ?_)
  refine spec_leave (p := .consumer) hf.run hf.mine ?_ ?_
  · exact if_pos rfl
  · exact (count_text hx).2.2

theorem spec_consumer (hq₀ : Digits q₀) (hle : q₀.length ≤ 89) (hnew : ∀ fs, 2 ≤ newFd fs) :
    Spec (contract ConsumerVars q₀ .consumer)
    (fun l s => ConsumerAt 0 l ∧ Outside q₀ .consumer 0 0 0 s) (consumer newFd)
    (contract ConsumerVars q₀ .consumer).ends :=
  spec_passes (p := .consumer) (P := ConsumerAt) (fun _ _ h => h.1) fun _ hn =>
    spec_consumerPass hq₀ hle hnew hn

/-! ### Both -/

/-- The variables of each program. -/
def Vars : Party → Type
  | .producer => ProducerVars
  | .consumer => ConsumerVars

def program (newFd : FileStore → ℤ) : ∀ p, Cmd (Vars p) World
  | .producer => producer newFd
  | .consumer => consumer newFd

/-- The programs at their start, behind the semaphores that `main.c` creates. -/
structure Start (newFd : FileStore → ℤ) (q₀ : List Byte) (c : Conf Vars World) : Prop where
  commands : ∀ p, (c.thread p).1 = [program newFd p]
  producer : ProducerAt 0 (c.thread .producer).2
  consumer : ConsumerAt 0 (c.thread .consumer).2
  access : c.shared.sems accessItem = some 1
  tokens : ∀ p : Party, c.shared.sems p.takes = some (p.tokens : ℤ)
  held : ∀ p x, c.shared.held p x = 0
  console : c.shared.console = []
  closed : c.shared.files.handles = ∅
  file : Encodes (c.shared.files.dir itemsTxt) q₀

def contracts (q₀ : List Byte) (p : Party) : Contract (Vars p) World := contract (Vars p) q₀ p

theorem compatible (q₀ : List Byte) : Programs.Compatible (contracts q₀) := by
  rintro p p' hp s s' hguar
  have hother : p' = p.other := Party.eq_other (Ne.symm hp)
  subst hother
  exact hguar

variable {c₀ c : Conf Vars World}

theorem Start.inv (h : Start newFd q₀ c₀) : Inv q₀ c₀.shared := by
  have hheld := h.held
  refine ⟨fun p => ?_, fun p => ?_, fun p => ?_, fun p => ?_, fun p => ?_, fun p => ?_,
    fun _ => ⟨⟨[], q₀, h.console, rfl, h.file⟩, h.closed⟩⟩
  · rw [h.access, hheld, hheld]
    rfl
  · rw [h.tokens, hheld, hheld, sub_zero, sub_zero]
  · rw [hheld]
  · rw [hheld, hheld]
    decide
  · rw [hheld, hheld]
    exact Int.natCast_nonneg _
  · rw [hheld, hheld, h.console]
    exact ⟨le_rfl, le_rfl⟩

theorem Start.allOk (hq₀ : Digits q₀) (hle : q₀.length ≤ 89) (hnew : ∀ fs, 2 ≤ newFd fs)
    (h : Start newFd q₀ c₀) :
    Programs.AllOk (contracts q₀) c₀ := by
  have hout : ∀ p, Outside q₀ p 0 0 0 c₀.shared := fun p =>
    ⟨h.inv, h.held _ _, h.held _ _, by rw [h.held]; rfl, by rw [h.console]; rfl⟩
  have hends : ∀ p, Stable (contracts q₀ p) (contracts q₀ p).ends :=
    fun p l s s' ho hr => ho.leaves hr
  intro p
  rw [h.commands]
  cases p with
  | producer => exact Spec.ok (spec_producer hq₀ hle hnew) (hends _) ⟨h.producer, hout _⟩
  | consumer => exact Spec.ok (spec_consumer hq₀ hle hnew) (hends _) ⟨h.consumer, hout _⟩

theorem Start.reach_inv (hq₀ : Digits q₀) (hle : q₀.length ≤ 89) (hnew : ∀ fs, 2 ≤ newFd fs)
    (h : Start newFd q₀ c₀) (hr : Runs.Reach Programs.step (· = c₀) Runs.anyStep c) :
    Inv q₀ c.shared :=
  Programs.inv_run (compatible q₀) (fun _ _ _ hguar => hguar.inv) (h.allOk hq₀ hle hnew) h.inv hr

/-- The programs at their start where the file holds the item 7. -/
def withSeven : Conf Vars World where
  thread
    | .producer => ([producer fun _ => 2], ⟨0, 0, 0, List.replicate 100 0, 0, 0, 0, 0⟩)
    | .consumer => ([consumer fun _ => 2], ⟨0, 0, 0, List.replicate 100 0, 0, 0⟩)
  shared := {
    files := ⟨fun name => if name = itemsTxt then some [55, charE] else none, ∅⟩
    console := []
    sems :=
      fun name => if name = accessItem then some 1 else if name = full then some 10 else some 0
    held := fun _ _ => 0 }

theorem start_withSeven : Start (fun _ => 2) [55] withSeven :=
  ⟨fun p => by cases p <;> rfl, ⟨rfl, rfl⟩, ⟨rfl, rfl⟩, rfl, fun p => by cases p <;> rfl,
    fun _ _ => rfl, rfl, rfl, Or.inl rfl⟩

/-- The queue while no program is at the file. -/
theorem Inv.queue {s : World} (hq₀ : Digits q₀) (hI : Inv q₀ s)
    (h0 : ∀ p, s.held p accessItem = 0) :
    ∃ ls q, s.console = screen ls ∧ replay q₀ ls = some q ∧ Encodes (s.files.dir itemsTxt) q ∧
      (made ls).length = s.console.count 80 ∧ (used ls).length = s.console.count 67 ∧
      q.length ≤ q₀.length + 10 := by
  obtain ⟨ls, q, hscreen, hrun, hE⟩ := (hI.settled h0).run
  obtain ⟨-, hmade, hused⟩ := digits_of_replay hq₀ hrun
  obtain ⟨h80, h67⟩ := count_screen hmade hused
  have hlen := length_of_replay hrun
  rw [← hscreen] at h80 h67
  refine ⟨ls, q, hscreen, hrun, hE, h80.symm, h67.symm, ?_⟩
  -- the producer has taken its lines from what the consumer gave and the ten at the start
  have htaken := (hI.lines .producer).2
  have hgiven := (hI.lines .consumer).1
  have henough := hI.enough .producer
  simp only [Party.letter, Party.takes, Party.gives, Party.tokens, Party.other]
    at htaken hgiven henough
  omega

/-- **The queue over every interleaving.** No program runs into undefined
behaviour, at most one is at the file, and whenever none is, what was printed is
a run of the FIFO queue that the file holds, with room for no more than ten new
items. -/
theorem producer_consumer_fifo (hq₀ : Digits q₀) (hle : q₀.length ≤ 89) (hnew : ∀ fs, 2 ≤ newFd fs)
    (h : Start newFd q₀ c₀) (hr : Runs.Reach Programs.step (· = c₀) Runs.anyStep c) :
    (∀ p, ¬ Programs.Faults c p) ∧
      c.shared.held .producer accessItem + c.shared.held .consumer accessItem ≤ 1 ∧
      (c.shared.sems accessItem = some 1 →
        ∃ ls q, c.shared.console = screen ls ∧ replay q₀ ls = some q ∧
          used ls ++ q = q₀ ++ made ls ∧ Encodes (c.shared.files.dir itemsTxt) q ∧
          q.length ≤ q₀.length + 10) := by
  have hI := h.reach_inv hq₀ hle hnew hr
  refine ⟨(Programs.ok_run (compatible q₀) (h.allOk hq₀ hle hnew) hr).not_faults, hI.one .producer,
    fun hfree => ?_⟩
  have h0 : ∀ p, c.shared.held p accessItem = 0 := by
    intro p
    have hp := hI.inside p
    have hother := hI.inside p.other
    have haccess := hI.access p
    rw [hfree, Option.some.injEq] at haccess
    omega
  obtain ⟨ls, q, hscreen, hrun, hE, -, -, hlen⟩ := hI.queue hq₀ h0
  exact ⟨ls, q, hscreen, hrun, used_append_of_replay hrun, hE, hlen⟩

/-- The producer makes a pass, and then the consumer: an 8 was made and the 7
is used, and the file holds the 8. -/
theorem producer_consumer_fifo_withSeven : ∃ c : Conf Vars World,
    Runs.Reach Programs.step (· = withSeven) Runs.anyStep c ∧ (∀ p, ¬ Programs.Faults c p) ∧
      c.shared.console = screen [.produced 56, .consumed 55] ∧
      ∃ ls q, c.shared.console = screen ls ∧ replay [55] ls = some q ∧
        used ls ++ q = [55] ++ made ls ∧ Encodes (some [56, charE]) q ∧ q.length ≤ 11 := by
  obtain ⟨c, hr, ht⟩ := Runs.Reach.of_exec Programs.step (· = withSeven) rfl
    (List.replicate 75 .producer ++ List.replicate 63 .consumer) (Runs.along_any _ _)
    (fun c => c.shared.sems accessItem = some 1 ∧ c.shared.files.dir itemsTxt = some [56, charE] ∧
      c.shared.console = screen [.produced 56, .consumed 55]) (by decide +kernel)
  obtain ⟨hfree, hfile, hconsole⟩ := of_decide_eq_true ht
  obtain ⟨hfaults, -, hqueue⟩ :=
    producer_consumer_fifo (by decide) (by decide) (fun _ => le_rfl) start_withSeven hr
  exact ⟨c, hr, hfaults, hconsole, hfile ▸ hqueue hfree⟩

/-- Programs that cannot move have both ended. -/
theorem ended_of_stuck (hI : Inv q₀ c.shared) (hok : Programs.AllOk (contracts q₀) c)
    (hstuck : ∀ p, Programs.step c p = none) (p : Party) :
    (c.thread p).1 = [] ∧ Outside q₀ p p.passes p.passes p.passes c.shared := by
  have hstate := fun p => Programs.stuck hok p (hstuck p)
  have hout : ∀ p, c.shared.held p accessItem = 0 := by
    intro p
    rcases hstate p with ⟨-, ho⟩ | ⟨-, ⟨n, k, ho, -⟩ | ⟨t, g, k, ho, -⟩⟩ <;> exact ho.out
  -- nobody waits for the file, which is free
  have hpass : ∀ p : Party, ∃ n k, Outside q₀ p n n k c.shared ∧
      ((c.thread p).1 = [] ∧ n = p.passes ∧ k = p.passes ∨ n < p.passes ∧
        c.shared.sems p.takes = some 0) := by
    intro p
    rcases hstate p with ⟨hnil, ho⟩ | ⟨-, ⟨n, k, ho, hn, h0⟩ | ⟨t, g, k, ho, h0⟩⟩
    · exact ⟨p.passes, p.passes, ho, Or.inl ⟨hnil, rfl, rfl⟩⟩
    · exact ⟨n, k, ho, Or.inr ⟨hn, h0⟩⟩
    · have haccess := hI.access p
      rw [h0, hout, hout] at haccess
      cases haccess
  obtain ⟨n, k, ho, hp⟩ := hpass .producer
  obtain ⟨n', k', ho', hp'⟩ := hpass .consumer
  -- the room and the items there are, by the passes made
  have hfull := hI.tokens .producer
  have hempty := hI.tokens .consumer
  have htaken := ho.taken
  have hgiven := ho.given
  have htaken' := ho'.taken
  have hgiven' := ho'.given
  simp only [Party.takes, Party.gives, Party.tokens, Party.other, Party.passes, maxItemsProduce,
    maxItemConsume]
    at hfull hempty htaken hgiven htaken' hgiven' hp hp'
  have hprod : n = 20 := by
    rcases hp with ⟨-, h, -⟩ | ⟨hn, h0⟩
    · exact h
    · rw [h0, Option.some.injEq] at hfull
      rcases hp' with ⟨-, h', -⟩ | ⟨hn', h0'⟩
      · omega
      · rw [h0', Option.some.injEq] at hempty
        omega
  have hcons : n' = 10 := by
    rcases hp' with ⟨-, h', -⟩ | ⟨hn', h0'⟩
    · exact h'
    · rw [h0', Option.some.injEq] at hempty
      omega
  cases p with
  | producer =>
    rcases hp with ⟨hnil, h, hk⟩ | ⟨hn, -⟩
    · rw [h, hk] at ho
      exact ⟨hnil, ho⟩
    · omega
  | consumer =>
    rcases hp' with ⟨hnil, h, hk⟩ | ⟨hn, -⟩
    · rw [h, hk] at ho'
      exact ⟨hnil, ho'⟩
    · omega

/-- **The programs finish.** No run goes on for ever, and a system that cannot
move any more has made all its passes: twenty items were produced, the first ten
of the queue were consumed, and the file holds the others. -/
theorem producer_consumer_finish (hq₀ : Digits q₀) (hle : q₀.length ≤ 89)
    (hnew : ∀ fs, 2 ≤ newFd fs) (h : Start newFd q₀ c₀)
    (hr : Runs.Reach Programs.step (· = c₀) Runs.anyStep c) :
    Acc (fun c' c => ∃ p, Programs.step c p = some c') c ∧
      ((∀ p, Programs.step c p = none) → (∀ p, (c.thread p).1 = []) ∧
        ∃ ls, c.shared.console = screen ls ∧ (made ls).length = maxItemsProduce ∧
          used ls = (q₀ ++ made ls).take maxItemConsume ∧
          replay q₀ ls = some ((q₀ ++ made ls).drop maxItemConsume) ∧
          Encodes (c.shared.files.dir itemsTxt) ((q₀ ++ made ls).drop maxItemConsume)) := by
  have hok := Programs.ok_run (compatible q₀) (h.allOk hq₀ hle hnew) hr
  have hI := h.reach_inv hq₀ hle hnew hr
  refine ⟨Programs.acc_step (compatible q₀) hok, fun hstuck => ?_⟩
  have hend := ended_of_stuck hI hok hstuck
  obtain ⟨ls, q, hscreen, hrun, hE, hmade, hused, -⟩ := hI.queue hq₀ fun p => (hend p).2.out
  replace hmade := hmade.trans (hend .producer).2.printed
  replace hused := hused.trans (hend .consumer).2.printed
  have hfifo := used_append_of_replay hrun
  have htake : used ls = (q₀ ++ made ls).take maxItemConsume := by
    rw [← hfifo]
    exact (List.take_left' hused).symm
  have hdrop : q = (q₀ ++ made ls).drop maxItemConsume := by
    rw [← hfifo]
    exact (List.drop_left' hused).symm
  subst hdrop
  exact ⟨fun p => (hend p).1, ls, hscreen, hmade, htake, hrun, hE⟩

/-- A run to the end: twenty items are made and ten are used. -/
theorem producer_consumer_finish_withSeven : ∃ c : Conf Vars World,
    Runs.Reach Programs.step (· = withSeven) Runs.anyStep c ∧ (∀ p, (c.thread p).1 = []) ∧
      ∃ ls, c.shared.console = screen ls ∧ (made ls).length = maxItemsProduce ∧
        used ls = (55 :: made ls).take maxItemConsume ∧
        Encodes (c.shared.files.dir itemsTxt) ((55 :: made ls).drop maxItemConsume) := by
  have hstart : Runs.Reach Programs.step (· = withSeven) Runs.anyStep withSeven := .init rfl
  have hacc :=
    (producer_consumer_finish (by decide) (by decide) (fun _ => le_rfl) start_withSeven hstart).1
  obtain ⟨c, hr, hstuck⟩ := hstart.exists_stuck hacc
  obtain ⟨hended, ls, hscreen, hmade, hused, -, hfile⟩ :=
    (producer_consumer_finish (by decide) (by decide) (fun _ => le_rfl) start_withSeven hr).2 hstuck
  exact ⟨c, hr, hended, ls, hscreen, hmade, hused, hfile⟩

end Items

end Nachos
