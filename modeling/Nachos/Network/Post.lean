/-
# The post office (`network/post.cc`)

A `PostOffice` is one machine that receives, with its mailboxes, its postal
worker and the threads that call `Receive`, and the machines that send to it,
each a `SynchDevice` of its `NetworkOutput`. The host's sockets deliver the
packets of one sender in order, or drop them; how the packets of different
senders mix is left open. The polling interrupt of `NetworkInput` may come at
any step, since its handler always schedules the next one.

A `Mail` is named by the order of its allocation, which is also the order in
which the packets came: mail `j` is made from packet `j` of `arrived`.

* `step_cases`: what a step does, with a step of one mailbox or one sender
  inside it.
* `sender_reach`, `box_reach`: every sender and every mailbox runs as it does
  alone.
* `boxes_reach`: the worker puts each mail into its box, in order.

Key definitions: `PostOffice.step`, `PostOffice.Legal`, `PostOffice.Boxes`.
Key theorems: `PostOffice.step_cases`, `PostOffice.box_reach`,
`PostOffice.boxes_reach`.
-/
import Mathlib
import Nachos.Threads.SynchList
import Nachos.Machine.Network

namespace Nachos

open Network

/-- `class Mail`. -/
structure Mail where
  pktHdr : Header
  mailHdr : Header
  data : Bytes.Store

namespace Mail

/-- `Mail::Mail(pktH, mailH, msgData)` in memory that holds `new`. -/
def create (new : Bytes.Store) (pktH mailH : Header) (msgData : Bytes.Store) : Mail :=
  ⟨pktH, mailH, Bytes.copy msgData 0 new 0 mailH.length.toNat⟩

/-- The box the mail is for. -/
def box (mail : Mail) : ℕ := mail.mailHdr.dest.toInt.toNat

end Mail

namespace PostOffice

/-- Where the postal worker is in `PostalDelivery`. -/
inductive Worker
  /-- in `messageAvailable->P()` -/
  | waiting
  /-- past it -/
  | passed
  /-- with the packet in its buffer -/
  | received (pktHdr : Header)
  /-- in `boxes[..].Put` -/
  | putting (box : ℕ)
  deriving DecidableEq

/-- Where a thread is in `PostOfficeInput::Receive`; `since` is how many calls
had returned when it called. -/
inductive Pc
  | out
  /-- in `messages->RemoveFront()`; `data` is what its buffer holds -/
  | receiving (box : ℕ) (data : Bytes.Store) (since : ℕ)
  /-- past it, the mail not yet copied -/
  | got (box mail : ℕ) (data : Bytes.Store) (since : ℕ)

/-- What a `Receive` has returned. -/
structure Received where
  box : ℕ
  pktHdr : Header
  mailHdr : Header
  data : Bytes.Store
  /-- the mail it took, and how many calls had returned when it was called -/
  mail : ℕ
  since : ℕ

/-- The machines, the coins, and what uninitialized memory holds. -/
structure Setup where
  /-- the receiving machine -/
  network : NetworkInput
  numBoxes : ℕ
  buffer : Bytes.Store
  mail : ℕ → Bytes.Store
  /-- for every sending machine -/
  lost : BitVec 32 → ℕ → Bool
  new : BitVec 32 → ℕ → Bytes.Store

/-- A packet, by its sender and the number of the `Send` there. -/
abbrev Source := BitVec 32 × ℕ

end PostOffice

/-- `class PostOfficeInput`, its threads, the machines that send to it, and the
history. -/
structure PostOffice where
  senders : BitVec 32 → SynchDevice NetworkOutput Send Unit
  /-- the packets of each sender that the sockets have delivered or dropped -/
  seen : BitVec 32 → ℕ
  network : NetworkInput
  messageAvailable : Semaphore
  worker : PostOffice.Worker
  /-- the worker's `buffer` -/
  buffer : Bytes.Store
  /-- the boxes, as lists of mails -/
  boxes : ℕ → SynchList ℕ
  mails : ℕ → Mail
  nmails : ℕ
  pc : Tid → PostOffice.Pc
  /-- an `ASSERT` has failed -/
  aborted : Bool
  /-- the packets read from the socket, in order -/
  arrived : List PostOffice.Source
  returned : List PostOffice.Received

namespace PostOffice

/-! ### The code -/

/-- The postal worker is a thread of its own. -/
def postalWorker : Tid := 0

/-- The part of `NetworkInput::CallBack` that reads a packet, with
`PostOfficeInput::CallBack`. -/
def arrive (s : PostOffice) (m : BitVec 32) (k : ℕ) (packet : List Bytes.Byte) : PostOffice :=
  { s with
    seen := Function.update s.seen m (s.seen m + 1)
    aborted := s.aborted || !s.network.readOk packet
    network := s.network.readPacket packet
    messageAvailable := s.messageAvailable.v.1
    arrived := s.arrived ++ [(m, k)] }

/-- `NetworkInput::CallBack`, when the next packet is one of machine `m`. -/
def callBack (s : PostOffice) (m : BitVec 32) : PostOffice :=
  if s.network.inHdr.length ≠ 0 then s
  else
    match (s.senders m).dev.sent[s.seen m]? with
    | none => s
    | some (k, packet) => s.arrive m k packet

/-- `pktHdr = network->Receive(buffer)`. -/
def fetch (s : PostOffice) : PostOffice :=
  { s with
    network := (s.network.receive s.buffer).1
    worker := .received (s.network.receive s.buffer).2.1
    buffer := (s.network.receive s.buffer).2.2 }

/-- The worker makes a mail of its buffer, with the `ASSERT`s, and calls
`Append` of the box, which is then `box`. -/
def put (e : Setup) (s : PostOffice) (pktHdr : Header) (box : SynchList ℕ) : PostOffice :=
  { s with
    aborted := s.aborted || !decide (0 ≤ (Header.read s.buffer).dest.toInt ∧
      (Header.read s.buffer).dest.toInt < e.numBoxes ∧
      (Header.read s.buffer).length.toNat ≤ maxMailSize)
    mails := Function.update s.mails s.nmails
      (Mail.create (e.mail s.nmails) pktHdr (Header.read s.buffer) fun i => s.buffer
        (headerSize + i))
    nmails := s.nmails + 1
    boxes := Function.update s.boxes (Header.read s.buffer).dest.toInt.toNat box
    worker := .putting (Header.read s.buffer).dest.toInt.toNat }

/-- One step of `PostOfficeInput::PostalDelivery`. -/
def workerStep (e : Setup) (s : PostOffice) : Option PostOffice :=
  match s.worker with
  | .waiting =>
    if postalWorker ∈ s.messageAvailable.queue then none
    else if (s.messageAvailable.pTest postalWorker).2 then
      some
        { s with messageAvailable := (s.messageAvailable.pTest postalWorker).1, worker := .passed }
    else some { s with messageAvailable := (s.messageAvailable.pTest postalWorker).1 }
  | .passed => some s.fetch
  | .received pktHdr =>
    ((s.boxes (Header.read s.buffer).dest.toInt.toNat).step (.append postalWorker s.nmails)).map
      (s.put e pktHdr)
  | .putting b =>
    ((s.boxes b).step (.run postalWorker)).map fun box =>
      { s with
        boxes := Function.update s.boxes b box
        worker := if (s.boxes b).pc postalWorker = .signalled then .waiting else .putting b }

/-- The end of `MailBox::Get` and of `Receive`: the mail is copied out. -/
def copyOut (s : PostOffice) (t : Tid) (b mail : ℕ) (data : Bytes.Store) (since : ℕ) : PostOffice :=
  { s with
    pc := Function.update s.pc t .out
    aborted := s.aborted || !decide ((s.mails mail).mailHdr.length.toNat ≤ maxMailSize)
    returned := s.returned ++
      [{ box := b
         pktHdr := (s.mails mail).pktHdr
         mailHdr := (s.mails mail).mailHdr
         data := Bytes.copy (s.mails mail).data 0 data 0 (s.mails mail).mailHdr.length.toNat
         mail := mail
         since := since }] }

/-- One step of a thread in `PostOfficeInput::Receive`. -/
def receiveStep (s : PostOffice) (t : Tid) : Option PostOffice :=
  match s.pc t with
  | .out => none
  | .receiving b data since =>
    ((s.boxes b).step (.run t)).map fun box =>
      { s with
        boxes := Function.update s.boxes b box
        pc := match (s.boxes b).pc t with
          | .removed mail => Function.update s.pc t (.got b mail data since)
          | _ => s.pc }
  | .got b mail data since => some (s.copyOut t b mail data since)

/-- A step of a sending machine; the sockets drop a packet; the polling
interrupt; the postal worker; a call of `Receive`, and `run` for a thread in
one. -/
inductive Label
  | sender (m : BitVec 32) (l : SynchDevice.Label Send)
  | drop (m : BitVec 32)
  | interrupt (m : BitVec 32)
  | worker
  | receive (t : Tid) (box : ℕ) (data : Bytes.Store)
  | run (t : Tid)

def step (e : Setup) (s : PostOffice) : Label → Option PostOffice
  | .sender m l =>
    ((s.senders m).step NetworkOutput.device l).map fun x =>
      { s with senders := Function.update s.senders m x }
  | .drop m =>
    if s.seen m < (s.senders m).dev.sent.length then
      some { s with seen := Function.update s.seen m (s.seen m + 1) }
    else none
  | .interrupt m => some (s.callBack m)
  | .worker => s.workerStep e
  | .receive t b data =>
    if t = postalWorker then none
    else
      match s.pc t with
      | .out =>
        ((s.boxes b).step (.removeFront t)).map fun box =>
          { s with
            aborted := s.aborted || !decide (b < e.numBoxes)
            boxes := Function.update s.boxes b box
            pc := Function.update s.pc t (.receiving b data s.returned.length) }
      | _ => none
  | .run t => s.receiveStep t

/-- New post offices. -/
def initial (e : Setup) : PostOffice where
  senders m := SynchDevice.initial (NetworkOutput.create m (e.lost m) (e.new m))
  seen _ := 0
  network := { e.network with inHdr := { e.network.inHdr with length := 0 } }
  messageAvailable := Semaphore.new 0
  worker := .waiting
  buffer := e.buffer
  boxes _ := SynchList.initial
  mails j := ⟨⟨0, 0, 0⟩, ⟨0, 0, 0⟩, e.mail j⟩
  nmails := 0
  pc _ := .out
  aborted := false
  arrived := []
  returned := []

/-- A mail to a box of the machine that fits into a packet. -/
def Valid (e : Setup) (r : Send) : Prop :=
  r.Fits ∧ r.pktHdr.dest = e.network.hostName ∧ r.mailHdr.dest.toInt < e.numBoxes

instance (e : Setup) (r : Send) : Decidable (Valid e r) := inferInstanceAs (Decidable (_ ∧ _))

/-- Threads send such mails, and receive from boxes the machine has. -/
def Legal (e : Setup) (s : PostOffice) : Label → Prop
  | .sender m l => SynchDevice.Calls (Valid e) (s.senders m) l
  | .receive _ b _ => b < e.numBoxes
  | .drop _ => True
  | .interrupt _ => True
  | .worker => True
  | .run _ => True

instance (e : Setup) (s : PostOffice) : (l : Label) → Decidable (Legal e s l)
  | .sender m l => inferInstanceAs (Decidable (SynchDevice.Calls (Valid e) (s.senders m) l))
  | .receive _ b _ => inferInstanceAs (Decidable (b < e.numBoxes))
  | .drop _ => inferInstanceAs (Decidable True)
  | .interrupt _ => inferInstanceAs (Decidable True)
  | .worker => inferInstanceAs (Decidable True)
  | .run _ => inferInstanceAs (Decidable True)

/-- The states of the runs with such calls. -/
abbrev Reach (e : Setup) : PostOffice → Prop := Runs.Reach (step e) (· = initial e) (Legal e)

/-! ### What a step does -/

variable {e : Setup} {s s' : PostOffice} {l : Label}

/-- What a step does. The steps of a sender or of a mailbox inside it are
steps of the sender or the box alone. -/
inductive Turn (e : Setup) (s : PostOffice) : PostOffice → Prop
  | idle : Turn e s s
  | sender (m : BitVec 32) (l : SynchDevice.Label Send) (x : SynchDevice NetworkOutput Send Unit)
      (hl : SynchDevice.Calls (Valid e) (s.senders m) l)
      (hs : (s.senders m).step NetworkOutput.device l = some x) :
      Turn e s { s with senders := Function.update s.senders m x }
  | drop (m : BitVec 32) : Turn e s { s with seen := Function.update s.seen m (s.seen m + 1) }
  | arrive (m : BitVec 32) (k : ℕ) (packet : List Bytes.Byte) (hempty : s.network.inHdr.length = 0)
      (hget : (s.senders m).dev.sent[s.seen m]? = some (k, packet)) : Turn e s (s.arrive m k packet)
  | wake (hw : s.worker = .waiting) (hv : s.messageAvailable.value ≠ 0) : Turn e s
      { s with
        messageAvailable := { s.messageAvailable with value := s.messageAvailable.value - 1 }
        worker := .passed }
  | asleep (hw : s.worker = .waiting) (hv : s.messageAvailable.value = 0) : Turn e s
      { s with messageAvailable := ⟨0, s.messageAvailable.queue ++ [postalWorker]⟩ }
  | fetch (hw : s.worker = .passed) : Turn e s s.fetch
  | put (pktHdr : Header) (box : SynchList ℕ) (hw : s.worker = .received pktHdr)
      (hs : (s.boxes (Header.read s.buffer).dest.toInt.toNat).step
        (.append postalWorker s.nmails) = some box) :
      Turn e s (s.put e pktHdr box)
  | deliver (b : ℕ) (box : SynchList ℕ) (hw : s.worker = .putting b)
      (hs : (s.boxes b).step (.run postalWorker) = some box)
      (hnot : (s.boxes b).pc postalWorker ≠ .signalled) :
      Turn e s { s with boxes := Function.update s.boxes b box }
  | delivered (b : ℕ) (box : SynchList ℕ) (hw : s.worker = .putting b)
      (hs : (s.boxes b).step (.run postalWorker) = some box)
      (hpc : (s.boxes b).pc postalWorker = .signalled) :
      Turn e s { s with boxes := Function.update s.boxes b box, worker := .waiting }
  | receive (t : Tid) (b : ℕ) (data : Bytes.Store) (box : SynchList ℕ) (ht : t ≠ postalWorker)
      (hpc : s.pc t = .out)
      (hb : b < e.numBoxes) (hs : (s.boxes b).step (.removeFront t) = some box) : Turn e s
      { s with
        boxes := Function.update s.boxes b box
        pc := Function.update s.pc t (.receiving b data s.returned.length) }
  | run (t : Tid) (b : ℕ) (data : Bytes.Store) (since : ℕ) (box : SynchList ℕ)
      (hpc : s.pc t = .receiving b data since)
      (hs : (s.boxes b).step (.run t) = some box)
      (hnot : ∀ mail, (s.boxes b).pc t ≠ .removed mail) :
      Turn e s { s with boxes := Function.update s.boxes b box }
  | take (t : Tid) (b mail : ℕ) (data : Bytes.Store) (since : ℕ) (box : SynchList ℕ)
      (hpc : s.pc t = .receiving b data since)
      (hs : (s.boxes b).step (.run t) = some box) (hmail : (s.boxes b).pc t = .removed mail) :
      Turn e s
      { s with
        boxes := Function.update s.boxes b box,
        pc := Function.update s.pc t (.got b mail data since) }
  | copyOut (t : Tid) (b mail : ℕ) (data : Bytes.Store) (since : ℕ)
      (hpc : s.pc t = .got b mail data since) :
      Turn e s (s.copyOut t b mail data since)

theorem turn_interrupt (m : BitVec 32) : Turn e s (s.callBack m) := by
  unfold callBack
  split_ifs with hlen
  · exact Turn.idle
  · cases hget : (s.senders m).dev.sent[s.seen m]? with
    | none => exact Turn.idle
    | some p => exact Turn.arrive m p.1 p.2 (not_not.mp hlen) hget

theorem turn_worker (hs : s.workerStep e = some s') : Turn e s s' := by
  unfold workerStep at hs
  cases hw : s.worker with
  | waiting =>
    simp only [hw, Semaphore.pTest] at hs
    by_cases hv : s.messageAvailable.value = 0
    · simp only [hv, ↓reduceIte, Bool.false_eq_true] at hs
      split_ifs at hs with hq
      have hturn : Turn e s
          { s with messageAvailable := ⟨0, s.messageAvailable.queue ++ [postalWorker]⟩ } :=
        Turn.asleep hw hv
      simp only [hw] at hturn
      exact Option.some.inj hs ▸ hturn
    · simp only [hv, ↓reduceIte] at hs
      split_ifs at hs with hq
      exact Option.some.inj hs ▸ Turn.wake hw hv
  | passed =>
    simp only [hw, Option.some.injEq] at hs
    exact hs ▸ Turn.fetch hw
  | received pktHdr =>
    simp only [hw] at hs
    obtain ⟨box, hbox, rfl⟩ := Option.map_eq_some_iff.mp hs
    exact Turn.put pktHdr box hw hbox
  | putting b =>
    simp only [hw] at hs
    obtain ⟨box, hbox, rfl⟩ := Option.map_eq_some_iff.mp hs
    by_cases hpc : (s.boxes b).pc postalWorker = .signalled
    · rw [if_pos hpc]
      exact Turn.delivered b box hw hbox hpc
    · rw [if_neg hpc, ← hw]
      exact Turn.deliver b box hw hbox hpc

theorem turn_receive {t : Tid} (hs : s.receiveStep t = some s') : Turn e s s' := by
  unfold receiveStep at hs
  cases hpc : s.pc t with
  | out =>
    rw [hpc] at hs
    cases hs
  | receiving b data since =>
    simp only [hpc] at hs
    obtain ⟨box, hbox, rfl⟩ := Option.map_eq_some_iff.mp hs
    cases hk : (s.boxes b).pc t with
    | removed mail => exact Turn.take t b mail data since box hpc hbox hk
    | out | append | appended | signalled | remove =>
      exact Turn.run t b data since box hpc hbox fun mail he => by rw [hk] at he; cases he
  | got b mail data since =>
    simp only [hpc, Option.some.injEq] at hs
    exact hs ▸ Turn.copyOut t b mail data since hpc

theorem step_cases (hl : Legal e s l) (hs : s.step e l = some s') : Turn e s s' := by
  cases l with
  | sender m l =>
    obtain ⟨x, hx, rfl⟩ := Option.map_eq_some_iff.mp hs
    exact Turn.sender m l x hl hx
  | drop m =>
    simp only [step] at hs
    split_ifs at hs
    exact Option.some.inj hs ▸ Turn.drop m
  | interrupt m => exact Option.some.inj hs ▸ turn_interrupt m
  | worker => exact turn_worker hs
  | receive t b data =>
    have hb : b < e.numBoxes := hl
    simp only [step] at hs
    split_ifs at hs with ht
    cases hpc : s.pc t with
    | out =>
      simp only [hpc] at hs
      obtain ⟨box, hbox, rfl⟩ := Option.map_eq_some_iff.mp hs
      simp only [hb, decide_true, Bool.not_true, Bool.or_false]
      exact Turn.receive t b data box ht hpc hb hbox
    | receiving | got =>
      rw [hpc] at hs
      cases hs
  | run t => exact turn_receive hs

/-! ### The senders and the boxes alone -/

/-- Every sender runs as it does alone. -/
theorem sender_reach (m : BitVec 32) (hr : Reach e s) :
    NetworkOutput.Reach m (e.lost m) (e.new m) (Valid e) (s.senders m) := by
  refine hr.map (fun s => s.senders m) ?_ ?_
  · intro s hs
    rw [hs]
    rfl
  · intro s l s' _ hl hs
    cases step_cases hl hs with
    | sender m' l x hl hx =>
      by_cases hm : m = m'
      · subst hm
        refine Or.inr ⟨l, hl, ?_⟩
        simp only [Function.update_self]
        exact hx
      · exact Or.inl (Function.update_of_ne hm _ _)
    | idle | drop | arrive | wake | asleep | fetch | put | deliver | delivered | receive | run |
        take | copyOut =>
      exact Or.inl rfl

/-- What a step does to the box `b`: nothing, or one of its own steps. -/
theorem Turn.box (b : ℕ) (ht : Turn e s s') :
    s'.boxes b = s.boxes b ∨ ∃ l, (s.boxes b).step l = some (s'.boxes b) ∧
      (∀ t j, l = .append t j → t = postalWorker ∧ j = s.nmails ∧ s'.nmails = s.nmails + 1) := by
  have hcase : ∀ b' l box, (s.boxes b').step l = some box →
      (∀ t j, l = .append t j → t = postalWorker ∧ j = s.nmails ∧ s'.nmails = s.nmails + 1) →
      Function.update s.boxes b' box b = s.boxes b ∨
      ∃ l, (s.boxes b).step l = some (Function.update s.boxes b' box b) ∧
        (∀ t j, l = .append t j → t = postalWorker ∧ j = s.nmails ∧ s'.nmails = s.nmails + 1) := by
    intro b' l box hs hl
    by_cases hb : b = b'
    · subst hb
      exact Or.inr ⟨l, by rw [Function.update_self]; exact hs, hl⟩
    · exact Or.inl (Function.update_of_ne hb _ _)
  cases ht with
  | idle | sender | drop | arrive | wake | asleep | fetch | copyOut => exact Or.inl rfl
  | put pktHdr box hw hs =>
    refine hcase _ _ box hs fun t j he => ?_
    cases he
    exact ⟨rfl, rfl, rfl⟩
  | deliver b' box hw hs => exact hcase b' _ box hs fun t j he => by cases he
  | delivered b' box hw hs => exact hcase b' _ box hs fun t j he => by cases he
  | receive t b' data box ht hpc hb hs => exact hcase b' _ box hs fun t j he => by cases he
  | run t b' data since box hpc hs => exact hcase b' _ box hs fun t j he => by cases he
  | take t b' mail data since box hpc hs => exact hcase b' _ box hs fun t j he => by cases he

theorem Turn.nmails_le (ht : Turn e s s') : s.nmails ≤ s'.nmails := by
  cases ht with
  | put => exact Nat.le_succ _
  | idle | sender | drop | arrive | wake | asleep | fetch | deliver | delivered | receive | run |
      take | copyOut =>
    exact le_rfl

theorem offered_reach (hr : Reach e s) (b : ℕ) : ∀ j ∈ (s.boxes b).offered, j < s.nmails := by
  refine hr.inv (fun s => ∀ j ∈ (s.boxes b).offered, j < s.nmails) ?_ fun s l s' _ h hl hs => ?_
  · intro s hs j hj
    rw [hs] at hj
    cases hj
  · have ht := step_cases hl hs
    have hle := ht.nmails_le
    intro j hj
    rcases ht.box b with hb | ⟨l', hb, happ⟩
    · rw [hb] at hj
      exact (h j hj).trans_le hle
    · cases l' with
      | append t item =>
        obtain ⟨-, rfl, hn⟩ := happ t item rfl
        rw [(SynchList.step_append hb).1] at hj
        rcases List.mem_append.mp hj with hj | hj
        · exact (h j hj).trans_le hle
        · rw [List.mem_singleton.mp hj, hn]
          exact Nat.lt_succ_self _
      | removeFront t =>
        rw [(SynchList.step_removeFront hb).1.offered] at hj
        exact (h j hj).trans_le hle
      | run t =>
        rcases SynchList.step_run_append hb with ⟨item, -, ho, -⟩ | hquiet
        · rw [ho] at hj
          exact (h j hj).trans_le hle
        · rw [hquiet.offered] at hj
          exact (h j hj).trans_le hle

/-- What a step does to a box is a step of the list alone: a mail that is
offered is a new one. -/
theorem Turn.box_step (b : ℕ) (hr : Reach e s) (ht : Turn e s s') :
    s'.boxes b = s.boxes b ∨ ∃ l, SynchList.Distinct (s.boxes b) l ∧
    (s.boxes b).step l = some (s'.boxes b) := by
  refine (ht.box b).imp_right fun ⟨l, hb, happ⟩ => ⟨l, ?_, hb⟩
  cases l with
  | append t item =>
    obtain ⟨-, rfl, -⟩ := happ t item rfl
    exact fun hmem => absurd (offered_reach hr b _ hmem) (lt_irrefl _)
  | removeFront | run => trivial

/-- Every box runs as a `SynchList` does alone. -/
theorem box_reach (b : ℕ) (hr : Reach e s) : SynchList.Reach (s.boxes b) := by
  refine hr.map (fun s => s.boxes b) ?_ ?_
  · intro s hs
    rw [hs]
    rfl
  · intro s l s' hr hl hs
    exact (step_cases hl hs).box_step b hr

/-- What a step does to a box, as the box sees it. -/
theorem box_turn (b : ℕ) (hr : Reach e s) (ht : Turn e s s') :
    s'.boxes b = s.boxes b ∨ ∃ t, SynchList.Turn (s.boxes b) t (s'.boxes b) := by
  refine (ht.box_step b hr).imp_right fun ⟨l, hd, hb⟩ => ⟨l.thread, ?_⟩
  exact SynchList.step_cases (SynchList.fits_reach (box_reach b hr)) hd hb

/-! ### The boxes -/

/-- A mail is offered to its box only, by the worker, and is in it in the end;
the mails in a box are in the order of their allocation. -/
structure Boxes (s : PostOffice) : Prop where
  offered : ∀ b, ∀ j ∈ (s.boxes b).offered, j < s.nmails ∧ (s.mails j).box = b
  worker : ∀ b t j, (s.boxes b).pc t = .append j →
    t = postalWorker ∧ s.worker = .putting b ∧ ∀ i ∈ (s.boxes b).appended, i < j
  sorted : ∀ b, (s.boxes b).appended.Pairwise (· < ·)
  reached : ∀ j < s.nmails, j ∈ (s.boxes (s.mails j).box).appended ∨
    ∃ t, (s.boxes (s.mails j).box).pc t = .append j

/-- A step of a box in which no mail is offered or put. -/
theorem Boxes.frame (h : Boxes s) (hn : s'.nmails = s.nmails) (hm : s'.mails = s.mails)
    (hw : ∀ b, s.worker = .putting b → s'.worker = .putting b ∨
      ∀ j, (s.boxes b).pc postalWorker ≠ .append j)
    (hb : ∀ b, (s'.boxes b).offered = (s.boxes b).offered ∧
      (s'.boxes b).appended = (s.boxes b).appended ∧
      ∀ u j, (s'.boxes b).pc u = .append j ↔ (s.boxes b).pc u = .append j) : Boxes s' := by
  refine
    { offered := fun b j hj => ?_
      worker := fun b t j hpc => ?_
      sorted := fun b => ?_
      reached := fun j hj => ?_ }
  · rw [(hb b).1] at hj
    rw [hn, hm]
    exact h.offered b j hj
  · rw [(hb b).2.2] at hpc
    obtain ⟨rfl, hput, hlt⟩ := h.worker b t j hpc
    rw [(hb b).2.1]
    exact ⟨rfl, (hw b hput).resolve_right fun hno => hno j hpc, hlt⟩
  · rw [(hb b).2.1]
    exact h.sorted b
  · rw [hn] at hj
    rw [hm, (hb _).2.1]
    exact (h.reached j hj).imp_right fun ⟨t, ht⟩ => ⟨t, ((hb _).2.2 t j).mpr ht⟩

/-- A step of one box in which no mail is offered or put. -/
theorem Boxes.quiet (h : Boxes s) {b : ℕ} {box : SynchList ℕ} (hq : SynchList.Quiet (s.boxes b) box)
    (hb : s'.boxes = Function.update s.boxes b box) (hn : s'.nmails = s.nmails)
    (hm : s'.mails = s.mails) (hw : ∀ b, s.worker = .putting b → s'.worker = .putting b ∨
      ∀ j, (s.boxes b).pc postalWorker ≠ .append j) :
    Boxes s' := by
  refine h.frame hn hm hw fun b' => ?_
  rw [hb]
  by_cases hbb : b' = b
  · subst hbb
    rw [Function.update_self]
    exact ⟨hq.offered, hq.appended, hq.append⟩
  · rw [Function.update_of_ne hbb]
    exact ⟨rfl, rfl, fun _ _ => Iff.rfl⟩

/-- The worker puts its mail on the list of the box. -/
theorem Boxes.appended (h : Boxes s) {b item : ℕ} {t : Tid} {box : SynchList ℕ}
    (hpc : (s.boxes b).pc t = .append item) (ho : box.offered = (s.boxes b).offered)
    (ha : box.appended = (s.boxes b).appended ++ [item])
    (hp : box.pc = Function.update (s.boxes b).pc t .appended)
    (hb : s'.boxes = Function.update s.boxes b box) (hn : s'.nmails = s.nmails)
    (hm : s'.mails = s.mails) : Boxes s' := by
  obtain ⟨rfl, hput, hlt⟩ := h.worker b t item hpc
  -- nobody else is before its `Append`
  have hnone : ∀ b' u j, (s'.boxes b').pc u ≠ .append j := fun b' u j hu => by
    rw [hb] at hu
    by_cases hbb : b' = b
    · rw [hbb, Function.update_self, hp] at hu
      by_cases hut : u = postalWorker
      · simp [hut] at hu
      · rw [Function.update_of_ne hut] at hu
        exact hut (h.worker b u j hu).1
    · rw [Function.update_of_ne hbb] at hu
      have := (h.worker b' u j hu).2.1
      rw [hput, Worker.putting.injEq] at this
      exact hbb this.symm
  refine
    { offered := fun b' j hj => ?_
      worker := fun b' u j hu => absurd hu (hnone b' u j)
      sorted := fun b' => ?_
      reached := fun j hj => Or.inl ?_ }
  · rw [hn, hm]
    rw [hb] at hj
    by_cases hbb : b' = b
    · rw [hbb, Function.update_self, ho] at hj
      rw [hbb]
      exact h.offered b j hj
    · rw [Function.update_of_ne hbb] at hj
      exact h.offered b' j hj
  · rw [hb]
    by_cases hbb : b' = b
    · rw [hbb, Function.update_self, ha, List.pairwise_append]
      refine ⟨h.sorted b, List.pairwise_singleton _ _, fun i hi j hj => ?_⟩
      rw [List.mem_singleton.mp hj]
      exact hlt i hi
    · rw [Function.update_of_ne hbb]
      exact h.sorted b'
  · rw [hn] at hj
    rw [hm, hb]
    by_cases hbb : (s.mails j).box = b
    · rw [hbb, Function.update_self, ha]
      rcases h.reached j hj with hin | ⟨u, hu⟩
      · rw [hbb] at hin
        exact List.mem_append_left _ hin
      · rw [hbb] at hu
        have hut := (h.worker b u j hu).1
        rw [hut, hpc, SynchList.Pc.append.injEq] at hu
        rw [hu]
        exact List.mem_append_right _ (List.mem_singleton_self _)
    · rw [Function.update_of_ne hbb]
      refine (h.reached j hj).resolve_right fun ⟨u, hu⟩ => hbb ?_
      have := (h.worker _ u j hu).2.1
      rw [hput, Worker.putting.injEq] at this
      exact this.symm

/-- A step of a thread in a call of a box. -/
theorem Boxes.run (h : Boxes s) {b : ℕ} {t : Tid} {box : SynchList ℕ}
    (hs : (s.boxes b).step (.run t) = some box) (hb : s'.boxes = Function.update s.boxes b box)
    (hn : s'.nmails = s.nmails) (hm : s'.mails = s.mails) (hw : ∀ b, s.worker = .putting b →
      s'.worker = .putting b ∨ ∀ j, (s.boxes b).pc postalWorker ≠ .append j) :
    Boxes s' := by
  rcases SynchList.step_run_append hs with ⟨item, hpc, ho, ha, hp⟩ | hq
  · exact h.appended hpc ho ha hp hb hn hm
  · exact h.quiet hq hb hn hm hw

/-- The worker makes a mail and offers it to its box. -/
theorem boxes_put (h : Boxes s) (hI : ∀ b, SynchList.Items (s.boxes b)) {pktHdr : Header}
    {box : SynchList ℕ} (hw : s.worker = .received pktHdr)
    (hs : (s.boxes (Header.read s.buffer).dest.toInt.toNat).step
      (.append postalWorker s.nmails) = some box) :
    Boxes (s.put e pktHdr box) := by
  obtain ⟨ho, ha, hp, -⟩ := SynchList.step_append hs
  set b := (Header.read s.buffer).dest.toInt.toNat with hbdef
  have hnone : ∀ b' u j, (s.boxes b').pc u ≠ .append j := fun b' u j hu => by
    have := (h.worker b' u j hu).2.1
    rw [hw] at this
    cases this
  have hmail : ∀ j, j < s.nmails → (s.put e pktHdr box).mails j = s.mails j := fun j hj =>
    Function.update_of_ne hj.ne _ _
  have hnew : ((s.put e pktHdr box).mails s.nmails).box = b := by
    simp [PostOffice.put, Mail.create, Mail.box, hbdef]
  have hbox : (s.put e pktHdr box).boxes b = box := Function.update_self _ _ _
  have hother : ∀ b', b' ≠ b → (s.put e pktHdr box).boxes b' = s.boxes b' :=
    fun b' hb => Function.update_of_ne hb _ _
  refine
    { offered := fun b' j hj => ?_
      worker := fun b' u j hu => ?_
      sorted := fun b' => ?_
      reached := fun j hj => ?_ }
  · by_cases hbb : b' = b
    · rw [hbb, hbox, ho] at hj
      rw [hbb]
      rcases List.mem_append.mp hj with hj | hj
      · obtain ⟨hlt, hmb⟩ := h.offered b j hj
        exact ⟨hlt.trans (Nat.lt_succ_self _), by rw [hmail j hlt, hmb]⟩
      · rw [List.mem_singleton.mp hj]
        exact ⟨Nat.lt_succ_self _, hnew⟩
    · rw [hother b' hbb] at hj
      obtain ⟨hlt, hmb⟩ := h.offered b' j hj
      exact ⟨hlt.trans (Nat.lt_succ_self _), by rw [hmail j hlt, hmb]⟩
  · by_cases hbb : b' = b
    · rw [hbb, hbox, hp] at hu
      by_cases hut : u = postalWorker
      · rw [hut, Function.update_self, SynchList.Pc.append.injEq] at hu
        rw [hbb, hbox, ha, ← hu]
        exact ⟨hut, rfl, fun i hi => (h.offered b i ((hI b).offered i hi)).1⟩
      · rw [Function.update_of_ne hut] at hu
        exact absurd hu (hnone b u j)
    · rw [hother b' hbb] at hu
      exact absurd hu (hnone b' u j)
  · by_cases hbb : b' = b
    · rw [hbb, hbox, ha]
      exact h.sorted b
    · rw [hother b' hbb]
      exact h.sorted b'
  · rcases Nat.lt_succ_iff_lt_or_eq.mp hj with hlt | heq
    · have hin := (h.reached j hlt).resolve_right fun ⟨u, hu⟩ => hnone _ u j hu
      rw [hmail j hlt]
      by_cases hbb : (s.mails j).box = b
      · rw [hbb] at hin ⊢
        rw [hbox, ha]
        exact Or.inl hin
      · rw [hother _ hbb]
        exact Or.inl hin
    · refine Or.inr ⟨postalWorker, ?_⟩
      rw [heq, hnew, hbox, hp, Function.update_self]

theorem boxes_turn (h : Boxes s) (hI : ∀ b, SynchList.Items (s.boxes b)) (ht : Turn e s s') :
    Boxes s' := by
  have hsame : ∀ b, s.worker = .putting b → s.worker = .putting b ∨
      ∀ j, (s.boxes b).pc postalWorker ≠ .append j :=
    fun b hb => Or.inl hb
  cases ht with
  | idle => exact h
  | sender | drop | arrive | asleep | copyOut =>
    exact h.frame rfl rfl hsame fun _ => ⟨rfl, rfl, fun _ _ => Iff.rfl⟩
  | wake hw | fetch hw =>
    refine h.frame rfl rfl (fun b hb => ?_) fun _ => ⟨rfl, rfl, fun _ _ => Iff.rfl⟩
    rw [hw] at hb
    cases hb
  | put pktHdr box hw hs => exact boxes_put h hI hw hs
  | deliver b box hw hs => exact h.run hs rfl rfl rfl hsame
  | delivered b box hw hs hpc =>
    refine h.run hs rfl rfl rfl fun b' hb => Or.inr fun j hj => ?_
    rw [hw, Worker.putting.injEq] at hb
    rw [← hb, hpc] at hj
    cases hj
  | receive t b data box ht hpc hb hs =>
    exact h.quiet (SynchList.step_removeFront hs).1 rfl rfl rfl hsame
  | run t b data since box hpc hs => exact h.run hs rfl rfl rfl hsame
  | take t b mail data since box hpc hs => exact h.run hs rfl rfl rfl hsame

theorem boxes_initial (e : Setup) : Boxes (initial e) where
  offered _ _ h := absurd h List.not_mem_nil
  worker _ _ _ h := by cases h
  sorted _ := List.Pairwise.nil
  reached _ h := absurd h (Nat.not_lt_zero _)

theorem boxes_reach (hr : Reach e s) : Boxes s := by
  refine hr.inv Boxes ?_ fun s l s' hr h hl hs => ?_
  · intro s hs
    rw [hs]
    exact boxes_initial e
  · exact boxes_turn h (fun b => SynchList.items_reach (box_reach b hr)) (step_cases hl hs)

end PostOffice
end Nachos
