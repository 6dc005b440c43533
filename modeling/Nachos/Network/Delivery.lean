/-
# Mail is delivered intact and at most once (`network/post.cc`)

What happens to a packet between the socket and the mailbox. It is read into
the one buffer of `NetworkInput`, which is full as long as its length is not 0,
and full exactly while the semaphore has a unit for it or the worker has taken
the unit; from there the worker takes it into its own buffer, and makes a mail
of it.

* `Pipe`: the packets read are the mails made, then the one in the worker's
  buffer, then the one in the buffer of the device.
* `Order`: the packets of one sender come in the order of its sends.
* `Receivers`: a mail goes to one `Receive`.
* `mail_delivered`: every `Receive` returns the mail of one `Send`, no two the
  same one; the mails of one sender leave a box in the order they were sent;
  no packet that was read is lost before it is in its box. Two calls of
  `Receive` on one box may return in the other order (`returned_overtaken`).

Key definitions: `PostOffice.Pipe`, `PostOffice.Order`, `PostOffice.Receivers`.
Key theorems: `PostOffice.pipe_turn`, `PostOffice.order_turn`,
`PostOffice.receivers_turn`, `PostOffice.mail_delivered`.
-/
import Mathlib
import Nachos.Network.Post

namespace Nachos
namespace PostOffice

open Network

variable {e : Setup} {s s' : PostOffice}

/-! ### From the socket to the box -/

/-- `r` is the send with the number `p.2` on machine `p.1`. -/
def Sent (s : PostOffice) (p : Source) (r : Send) : Prop :=
  (s.senders p.1).issued[p.2]? = some (r, ())

/-- A header and a buffer with the packet `p`. -/
def Packet (e : Setup) (s : PostOffice) (p : Source) (hdr : Header) (buffer : Bytes.Store) : Prop :=
  ∃ r, Sent s p r ∧ Valid e r ∧ NetworkInput.Carries r p.1 hdr buffer

/-- A mail with the content of the packet `p`. -/
def Letter (e : Setup) (s : PostOffice) (p : Source) (mail : Mail) : Prop :=
  ∃ r, Sent s p r ∧ Valid e r ∧ mail.pktHdr = r.packetHeader p.1 ∧ mail.mailHdr = r.mailHdr ∧
    ∀ i : ℤ, 0 ≤ i → i < r.mailHdr.length.toNat → mail.data i = r.data i

/-- The packet the worker has fetched and not yet put. -/
def Hand (e : Setup) (s : PostOffice) (hand : List Source) : Prop :=
  (∃ hdr p, s.worker = .received hdr ∧ hand = [p] ∧ Packet e s p hdr s.buffer) ∨
    (∀ hdr, s.worker ≠ .received hdr) ∧ hand = []

/-- The packet in the buffer of the device. -/
def Slot (e : Setup) (s : PostOffice) (slot : List Source) : Prop :=
  (slot = [] ∧ s.network.inHdr.length = 0 ∧ s.messageAvailable.value = 0 ∧ s.worker ≠ .passed) ∨
    ∃ p, slot = [p] ∧ s.network.inHdr.length ≠ 0 ∧ Packet e s p s.network.inHdr s.network.inbox ∧
      (s.messageAvailable.value = 1 ∧ s.worker ≠ .passed ∨ s.messageAvailable.value = 0 ∧
        s.worker = .passed)

/-- Where the packets are that were read from the socket. -/
structure Pipe (e : Setup) (s : PostOffice) : Prop where
  split : ∃ made hand slot, s.arrived = made ++ hand ++ slot ∧ made.length = s.nmails ∧
    Hand e s hand ∧ Slot e s slot
  mails : ∀ j < s.nmails, ∃ p, s.arrived[j]? = some p ∧ Letter e s p (s.mails j)
  host : s.network.hostName = e.network.hostName
  aborted : s.aborted = false

theorem getElem?_of_prefix {α : Type*} {l l' : List α} (h : l <+: l') {k : ℕ} {a : α}
    (hk : l[k]? = some a) :
    l'[k]? = some a := by
  obtain ⟨r, rfl⟩ := h
  rw [List.getElem?_append_left (List.getElem?_eq_some_iff.mp hk).1, hk]

theorem Turn.sent (ht : Turn e s s') {p : Source} {r : Send} (h : Sent s p r) : Sent s' p r := by
  cases ht with
  | sender m l x hl hs =>
    unfold Sent at *
    by_cases hm : p.1 = m
    · rw [hm] at h
      simp only [hm, Function.update_self]
      exact getElem?_of_prefix (NetworkOutput.sent_step hs).1 h
    · simp only [Function.update_of_ne hm]
      exact h
  | idle | drop | arrive | wake | asleep | fetch | put | deliver | delivered | receive | run |
    take | copyOut => exact h

theorem Packet.mono {p : Source} {hdr : Header} {buffer : Bytes.Store}
    (hsent : ∀ p r, Sent s p r → Sent s' p r) (h : Packet e s p hdr buffer) :
    Packet e s' p hdr buffer := by
  obtain ⟨r, h1, h2⟩ := h
  exact ⟨r, hsent p r h1, h2⟩

theorem Letter.mono {p : Source} {mail : Mail} (hsent : ∀ p r, Sent s p r → Sent s' p r)
    (h : Letter e s p mail) :
    Letter e s' p mail := by
  obtain ⟨r, h1, h2⟩ := h
  exact ⟨r, hsent p r h1, h2⟩

/-- The step is not one of the packet's. -/
theorem Pipe.frame (h : Pipe e s) (hsent : ∀ p r, Sent s p r → Sent s' p r)
    (harr : s'.arrived = s.arrived) (hn : s'.nmails = s.nmails) (hm : s'.mails = s.mails)
    (hnet : s'.network = s.network) (hv : s'.messageAvailable.value = s.messageAvailable.value)
    (hbuf : s'.buffer = s.buffer) (hrec : ∀ hdr, s'.worker = .received hdr ↔
      s.worker = .received hdr) (hpass : s'.worker = .passed ↔ s.worker = .passed)
    (hab : s'.aborted = false) : Pipe e s' := by
  obtain ⟨made, hand, slot, h1, h2, h3, h4⟩ := h.split
  refine
    { split := ⟨made, hand, slot, ?_, ?_, ?_, ?_⟩, mails := fun j hj => ?_, host := ?_,
      aborted := hab }
  · rw [harr, h1]
  · rw [hn, h2]
  · unfold Hand
    rw [hbuf]
    refine h3.imp (fun ⟨hdr, p, ha, hb, hc⟩ => ⟨hdr, p, (hrec hdr).mpr ha, hb, hc.mono hsent⟩)
      fun ⟨ha, hb⟩ => ?_
    exact ⟨fun hdr hw => ha hdr ((hrec hdr).mp hw), hb⟩
  · unfold Slot
    rw [hnet, hv, Ne, hpass]
    exact h4.imp_right fun ⟨p, ha, hb, hc, hd⟩ => ⟨p, ha, hb, hc.mono hsent, hd⟩
  · rw [hn] at hj
    obtain ⟨p, hp, hl⟩ := h.mails j hj
    rw [harr, hm]
    exact ⟨p, hp, hl.mono hsent⟩
  · rw [hnet, h.host]

theorem valid_fits (e : Setup) (r : Send) (h : Valid e r) : r.Fits := h.1

/-- What is on the wire is a packet of one of the sender's sends. -/
theorem packet_on_wire {m : BitVec 32}
    (hm : NetworkOutput.Reach m (e.lost m) (e.new m) (Valid e) (s.senders m)) {k : ℕ}
    {packet : List Bytes.Byte} (hget : (s.senders m).dev.sent[s.seen m]? = some (k, packet)) :
    ∃ r new, Sent s (m, k) r ∧ Valid e r ∧
    packet = datagram (concat new (r.packetHeader m) r.payload) := by
  have hout := NetworkOutput.outbox_reach hm
  obtain ⟨r, new, hr, hp⟩ := hout.packet (k, packet) (List.mem_of_getElem? hget)
  rw [List.getElem?_map, Option.map_eq_some_iff] at hr
  obtain ⟨⟨r', u⟩, hr', rfl⟩ := hr
  have hvalid := (SynchDevice.history_reach
    (fun rs r _ hr => NetworkOutput.ok_after (valid_fits e) rs r hr) hm).valid
  exact ⟨r', new, hr', hvalid _ (List.mem_of_getElem? hr'), hp⟩

/-- A packet is read into the buffer of the device, which was empty. -/
theorem pipe_arrive (h : Pipe e s) {m : BitVec 32} {k : ℕ} {packet : List Bytes.Byte} {r : Send}
    {new : Bytes.Store} (hempty : s.network.inHdr.length = 0) (hsent : Sent s (m, k) r)
    (hvalid : Valid e r) (hp : packet = datagram (concat new (r.packetHeader m) r.payload)) :
    Pipe e (s.arrive m k packet) := by
  obtain ⟨made, hand, slot, h1, h2, h3, h4⟩ := h.split
  have hslot : slot = [] ∧ s.messageAvailable.value = 0 ∧ s.worker ≠ .passed := by
    rcases h4 with ⟨ha, -, hb, hc⟩ | ⟨p, -, ha, -⟩
    · exact ⟨ha, hb, hc⟩
    · exact absurd hempty ha
  obtain ⟨rfl, hv, hw⟩ := hslot
  have hcarry : NetworkInput.Carries r m (s.network.readPacket packet).inHdr
      (s.network.readPacket packet).inbox := by
    rw [hp]
    exact NetworkInput.readPacket_carries hvalid.1
  have hlen : (s.network.readPacket packet).inHdr.length ≠ 0 := fun h0 => by
    have := Send.packetHeader_length hvalid.1 m
    rw [← hcarry.1, h0] at this
    simp [headerSize] at this
  refine
    { split := ⟨made, hand, [(m, k)], ?_, h2, h3,
      Or.inr ⟨(m, k), rfl, hlen, ⟨r, hsent, hvalid, hcarry⟩, Or.inl ⟨?_, hw⟩⟩⟩
      mails := fun j hj => ?_
      host := h.host
      aborted := ?_ }
  · simp only [arrive, h1, List.append_nil]
  · simp [arrive, Semaphore.v, hv]
  · obtain ⟨p, hp, hl⟩ := h.mails j hj
    exact ⟨p, getElem?_of_prefix (List.prefix_append _ _) hp, hl⟩
  · have hok : s.network.readOk packet = true := by
      rw [hp]
      exact NetworkInput.readOk_of_fits hvalid.1 (hvalid.2.1.trans h.host.symm)
    simp [arrive, h.aborted, hok]

/-- The worker takes the unit of the packet in the device. -/
theorem pipe_wake (h : Pipe e s) (hw : s.worker = .waiting) (hv : s.messageAvailable.value ≠ 0) :
    Pipe e
      { s with
        messageAvailable := { s.messageAvailable with value := s.messageAvailable.value - 1 }
        worker := .passed } := by
  obtain ⟨made, hand, slot, h1, h2, h3, h4⟩ := h.split
  have hhand : hand = [] := by
    rcases h3 with ⟨hdr, p, ha, -⟩ | ⟨-, ha⟩
    · rw [hw] at ha
      cases ha
    · exact ha
  refine { split := ⟨made, hand, slot, h1, h2, Or.inr ⟨fun hdr hc => (by cases hc), hhand⟩, ?_⟩,
           mails := h.mails, host := h.host, aborted := h.aborted }
  rcases h4 with ⟨-, -, ha, -⟩ | ⟨p, ha, hb, hc, hd | hd⟩
  · exact absurd ha hv
  · exact Or.inr ⟨p, ha, hb, hc, Or.inr ⟨by simp [hd.1], rfl⟩⟩
  · exact absurd hd.1 hv

/-- The packet goes from the device to the worker's buffer. -/
theorem pipe_fetch (h : Pipe e s) (hw : s.worker = .passed) : Pipe e s.fetch := by
  obtain ⟨made, hand, slot, h1, h2, h3, h4⟩ := h.split
  have hhand : hand = [] := by
    rcases h3 with ⟨hdr, p, ha, -⟩ | ⟨-, ha⟩
    · rw [hw] at ha
      cases ha
    · exact ha
  rcases h4 with ⟨-, -, -, ha⟩ | ⟨p, rfl, hlen, ⟨r, hr1, hr2, hr3⟩, hd⟩
  · exact absurd hw ha
  · have hv : s.messageAvailable.value = 0 := by
      rcases hd with hd | hd
      · exact absurd hw hd.2
      · exact hd.1
    refine
      { split := ⟨made, [p], [], ?_, h2, Or.inl ⟨_, p, rfl, rfl, r, hr1, hr2, ?_⟩,
        Or.inl ⟨rfl, rfl, hv, ?_⟩⟩
        mails := h.mails
        host := h.host
        aborted := h.aborted }
    · simp only [fetch, h1, hhand, List.append_nil]
    · exact NetworkInput.receive_carries hr3 hlen
    · intro hc
      cases hc

/-- The worker makes a mail of the packet. -/
theorem pipe_put (h : Pipe e s) {pktHdr : Header} {box : SynchList ℕ}
    (hw : s.worker = .received pktHdr) :
    Pipe e (s.put e pktHdr box) := by
  obtain ⟨made, hand, slot, h1, h2, h3, h4⟩ := h.split
  have hhand : ∃ p, hand = [p] ∧ Packet e s p pktHdr s.buffer := by
    rcases h3 with ⟨hdr, p, ha, hb, hc⟩ | ⟨ha, -⟩
    · rw [hw, Worker.received.injEq] at ha
      exact ⟨p, hb, ha ▸ hc⟩
    · exact absurd hw (ha pktHdr)
  obtain ⟨p, rfl, r, hr1, hr2, hr3⟩ := hhand
  obtain ⟨hhdr, hdata⟩ := hr3.mail hr2.1
  have hold : ∀ j, j < s.nmails → (s.put e pktHdr box).mails j = s.mails j := fun j hj =>
    Function.update_of_ne hj.ne _ _
  refine
    { split := ⟨made ++ [p], [], slot, ?_, ?_, Or.inr ⟨fun hdr hc => (by cases hc), rfl⟩, ?_⟩
      mails := fun j hj => ?_
      host := h.host
      aborted := ?_ }
  · simp only [PostOffice.put, h1, List.append_nil]
  · simp [PostOffice.put, h2]
  · rcases h4 with ⟨ha, hb, hc, -⟩ | ⟨q, ha, hb, hc, hd | hd⟩
    · exact Or.inl ⟨ha, hb, hc, fun hx => by cases hx⟩
    · exact Or.inr ⟨q, ha, hb, hc, Or.inl ⟨hd.1, fun hx => by cases hx⟩⟩
    · rw [hw] at hd
      exact absurd hd.2 (by simp)
  · rcases Nat.lt_succ_iff_lt_or_eq.mp hj with hlt | rfl
    · obtain ⟨q, hq, hl⟩ := h.mails j hlt
      rw [hold j hlt]
      exact ⟨q, hq, hl⟩
    · refine ⟨p, ?_, r, hr1, hr2, ?_⟩
      · show s.arrived[s.nmails]? = some p
        rw [h1, ← h2]
        simp
      · simp only [PostOffice.put, Function.update_self, Mail.create]
        refine ⟨hr3.1, hhdr, fun i h0 hi => ?_⟩
        rw [hhdr, Bytes.copy_inside h0 (by omega), show (0 : ℤ) + (i - 0) = i by ring]
        exact hdata i h0 hi
  · have hok : 0 ≤ (Header.read s.buffer).dest.toInt ∧
        (Header.read s.buffer).dest.toInt < e.numBoxes ∧
        (Header.read s.buffer).length.toNat ≤ maxMailSize := by
      rw [hhdr]
      exact ⟨hr2.1.2, hr2.2.2, hr2.1.1⟩
    simp [PostOffice.put, h.aborted, hok]

theorem pipe_turn (h : Pipe e s)
    (hsend : ∀ m, NetworkOutput.Reach m (e.lost m) (e.new m) (Valid e) (s.senders m))
    (hgot : ∀ t b mail data n, s.pc t = .got b mail data n → mail < s.nmails) (ht : Turn e s s') :
    Pipe e s' := by
  have hsent : ∀ p r, Sent s p r → Sent s' p r := fun p r => ht.sent
  cases ht with
  | idle => exact h
  | sender | drop | receive | run | take | deliver =>
    exact h.frame hsent rfl rfl rfl rfl rfl rfl (fun _ => Iff.rfl) Iff.rfl h.aborted
  | asleep hw hv =>
    exact h.frame hsent rfl rfl rfl rfl hv.symm rfl (fun _ => Iff.rfl) Iff.rfl h.aborted
  | arrive m k packet hempty hget =>
    obtain ⟨r, new, h1, h2, h3⟩ := packet_on_wire (hsend m) hget
    exact pipe_arrive h hempty h1 h2 h3
  | wake hw hv => exact pipe_wake h hw hv
  | fetch hw => exact pipe_fetch h hw
  | put pktHdr box hw hs => exact pipe_put h hw
  | delivered b box hw hs hpc =>
    exact h.frame hsent rfl rfl rfl rfl rfl rfl (fun hdr => by simp [hw]) (by simp [hw]) h.aborted
  | copyOut t b mail data n hpc =>
    refine h.frame hsent rfl rfl rfl rfl rfl rfl (fun _ => Iff.rfl) Iff.rfl ?_
    obtain ⟨p, -, r, -, hr, -, hhdr, -⟩ := h.mails mail (hgot t b mail data n hpc)
    have hok : (s.mails mail).mailHdr.length.toNat ≤ maxMailSize := by
      rw [hhdr]
      exact hr.1.1
    simp [copyOut, h.aborted, hok]

theorem pipe_initial (e : Setup) : Pipe e (initial e) where
  split := ⟨[], [], [], rfl, rfl, Or.inr ⟨fun _ h => (by cases h), rfl⟩,
    Or.inl ⟨rfl, rfl, rfl, fun h => by cases h⟩⟩
  mails _ h := absurd h (Nat.not_lt_zero _)
  host := rfl
  aborted := rfl

/-! ### The order of one sender's packets -/

/-- The sends of machine `m` whose packets have been read, in order. -/
def arrivedFrom (s : PostOffice) (m : BitVec 32) : List ℕ :=
  (s.arrived.filter fun p => p.1 = m).map Prod.snd

/-- They are among the packets the sockets have delivered or dropped. -/
def Order (s : PostOffice) : Prop :=
  ∀ m, (s.arrivedFrom m).Sublist (((s.senders m).dev.sent.take (s.seen m)).map Prod.fst)

theorem order_turn (h : Order s) (ht : Turn e s s') : Order s' := by
  intro m
  cases ht with
  | idle | wake | asleep | fetch | put | deliver | delivered | receive | run | take | copyOut =>
    exact h m
  | sender m' l x hl hs =>
    by_cases hm : m = m'
    · subst hm
      simp only [Function.update_self]
      obtain ⟨r, hr⟩ := (NetworkOutput.sent_step hs).2
      refine (h m).trans (List.Sublist.map _ ?_)
      rw [← hr, List.take_append]
      exact List.sublist_append_left _ _
    · simp only [Function.update_of_ne hm]
      exact h m
  | drop m' =>
    by_cases hm : m = m'
    · subst hm
      simp only [Function.update_self]
      exact (h m).trans (List.Sublist.map _ (List.take_sublist_take_left (Nat.le_succ _)))
    · simp only [Function.update_of_ne hm]
      exact h m
  | arrive m' k packet hempty hget =>
    by_cases hm : m = m'
    · subst hm
      have hfrom : (s.arrive m k packet).arrivedFrom m = s.arrivedFrom m ++ [k] := by
        simp [arrivedFrom, arrive]
      have hseen : ((s.arrive m k packet).senders m).dev.sent.take ((s.arrive m k packet).seen m) =
          (s.senders m).dev.sent.take (s.seen m) ++ [(k, packet)] := by
        simp only [arrive, Function.update_self]
        rw [List.take_add_one, hget]
        rfl
      rw [hfrom, hseen, List.map_append, List.map_singleton]
      exact (h m).append (List.Sublist.refl _)
    · have hfrom : (s.arrive m' k packet).arrivedFrom m = s.arrivedFrom m := by
        simp [arrivedFrom, arrive, Ne.symm hm]
      rw [hfrom]
      simp only [arrive, Function.update_of_ne hm]
      exact h m

theorem order_reach (hr : Reach e s) : Order s := by
  refine hr.inv Order ?_ fun s l s' _ h hl hs => order_turn h (step_cases hl hs)
  intro s hs m
  rw [hs]
  exact List.nil_sublist _

/-- The packets of one sender come in the order of its sends. -/
theorem arrived_sorted (hr : Reach e s) :
    s.arrived.Pairwise fun p q => p.1 = q.1 → p.2 < q.2 := by
  rw [List.pairwise_iff_forall_sublist]
  intro p q hpq hm
  have hsorted : (s.arrivedFrom q.1).Pairwise (· < ·) :=
    (NetworkOutput.outbox_reach (sender_reach q.1 hr)).sorted.sublist
      ((order_reach hr q.1).trans (List.Sublist.map _ (List.take_sublist _ _)))
  have hsub := (hpq.filter fun x => x.1 = q.1).map Prod.snd
  simp only [List.filter_cons, hm, decide_true, ↓reduceIte, List.filter_nil, List.map_cons,
    List.map_nil] at hsub
  exact List.rel_of_pairwise_cons (hsorted.sublist hsub) List.mem_cons_self

/-! ### Who receives -/

/-- A mail taken from a box is in the hands of one thread, or was returned
once, as it was. -/
structure Receivers (s : PostOffice) : Prop where
  got : ∀ t b j data n, s.pc t = .got b j data n → j ∈ (s.boxes b).returned ∧
    ∀ q ∈ s.returned, q.mail ≠ j
  unique : ∀ t u b b' j data data' n n', s.pc t = .got b j data n →
    s.pc u = .got b' j data' n' → t = u
  returned : ∀ q ∈ s.returned, q.mail ∈ (s.boxes q.box).returned ∧
    q.pktHdr = (s.mails q.mail).pktHdr ∧
    q.mailHdr = (s.mails q.mail).mailHdr ∧
    ∀ i : ℤ, 0 ≤ i → i < q.mailHdr.length.toNat → q.data i = (s.mails q.mail).data i
  nodup : (s.returned.map Received.mail).Nodup

theorem Turn.returned_mono (b : ℕ)
    (hf : ∀ t, SynchList.Fits ((s.boxes b).pc t) ((s.boxes b).mon.pc t)) (ht : Turn e s s') :
    ∀ j ∈ (s.boxes b).returned, j ∈ (s'.boxes b).returned := by
  intro j hj
  rcases ht.box b with hb | ⟨l, hs, -⟩
  · rw [hb]
    exact hj
  · cases l with
    | append t item =>
      rw [(SynchList.step_append hs).2.2.2]
      exact hj
    | removeFront t =>
      rw [(SynchList.step_removeFront hs).2.2]
      exact hj
    | run t =>
      rcases SynchList.step_run_returned (hf t) hs with ⟨item, -, hret⟩ | ⟨-, hret⟩
      · rw [hret]
        exact List.mem_append_left _ hj
      · rw [hret]
        exact hj

/-- The mails of the threads that are past `RemoveFront` stay theirs. -/
theorem Receivers.frame (h : Receivers s)
    (hpc : ∀ t b j data n, s'.pc t = .got b j data n ↔ s.pc t = .got b j data n)
    (hret : s'.returned = s.returned)
    (hmono : ∀ b, ∀ j ∈ (s.boxes b).returned, j ∈ (s'.boxes b).returned)
    (hmails : ∀ q ∈ s.returned, s'.mails q.mail = s.mails q.mail) : Receivers s' := by
  refine
    { got := fun t b j data n ht => ?_
      unique := fun t u b b' j data data' n n' ht hu => ?_
      returned := fun q hq => ?_
      nodup := ?_ }
  · obtain ⟨h1, h2⟩ := h.got t b j data n ((hpc t b j data n).mp ht)
    rw [hret]
    exact ⟨hmono b j h1, h2⟩
  · exact h.unique t u b b' j data data' n n' ((hpc t b j data n).mp ht)
      ((hpc u b' j data' n').mp hu)
  · rw [hret] at hq
    obtain ⟨h1, h2⟩ := h.returned q hq
    rw [hmails q hq]
    exact ⟨hmono _ _ h1, h2⟩
  · rw [hret]
    exact h.nodup

/-- A mail that a box has returned is one of that box. -/
theorem mail_of_returned (hB : Boxes s) (hI : ∀ b, SynchList.Items (s.boxes b)) {b j : ℕ}
    (hj : j ∈ (s.boxes b).returned) : j < s.nmails ∧ (s.mails j).box = b := by
  have happ : j ∈ (s.boxes b).appended := by
    rw [(hI b).fifo]
    exact List.mem_append_left _ ((hI b).returned j hj)
  exact hB.offered b j ((hI b).offered j happ)

/-- A thread has the mail it took from the box. -/
theorem receivers_take (h : Receivers s) (hB : Boxes s) (hI : ∀ b, SynchList.Items (s.boxes b))
    (hf : ∀ b t, SynchList.Fits ((s.boxes b).pc t) ((s.boxes b).mon.pc t)) {t : Tid} {b mail n : ℕ}
    {data : Bytes.Store} {box : SynchList ℕ} (hs : (s.boxes b).step (.run t) = some box)
    (hmail : (s.boxes b).pc t = .removed mail) (hb : s'.boxes = Function.update s.boxes b box)
    (hp : s'.pc = Function.update s.pc t (.got b mail data n)) (hret : s'.returned = s.returned)
    (hm : s'.mails = s.mails) (hmono : ∀ b, ∀ j ∈ (s.boxes b).returned, j ∈ (s'.boxes b).returned) :
    Receivers s' := by
  obtain ⟨hrem, hnew⟩ := (hI b).removed t mail hmail
  have hbox : (s.mails mail).box = b := by
    have happ : mail ∈ (s.boxes b).appended := by
      rw [(hI b).fifo]
      exact List.mem_append_left _ hrem
    exact (hB.offered b mail ((hI b).offered mail happ)).2
  -- no box has returned this mail before
  have hfresh : ∀ b', mail ∉ (s.boxes b').returned := fun b' hin => by
    have := (mail_of_returned hB hI hin).2
    rw [hbox] at this
    exact hnew (this ▸ hin)
  have hnow : mail ∈ (s'.boxes b).returned := by
    rw [hb, Function.update_self]
    rcases SynchList.step_run_returned (hf b t) hs with ⟨item, hitem, hr⟩ | ⟨hno, -⟩
    · rw [hmail, SynchList.Pc.removed.injEq] at hitem
      rw [hr, hitem]
      exact List.mem_append_right _ (List.mem_singleton_self _)
    · exact absurd hmail (hno mail)
  refine
    { got := fun u b' j data' n' hu => ?_
      unique := fun u v b1 b2 j d1 d2 n1 n2 hu hv => ?_
      returned := fun q hq => ?_
      nodup := by rw [hret]; exact h.nodup }
  · rw [hp] at hu
    rw [hret]
    by_cases hut : u = t
    · rw [hut, Function.update_self] at hu
      cases hu
      exact ⟨hnow, fun q hq he => hfresh q.box (he ▸ (h.returned q hq).1)⟩
    · rw [Function.update_of_ne hut] at hu
      obtain ⟨h1, h2⟩ := h.got u b' j data' n' hu
      exact ⟨hmono b' j h1, h2⟩
  · rw [hp] at hu hv
    by_cases hut : u = t <;> by_cases hvt : v = t
    · rw [hut, hvt]
    · rw [hut, Function.update_self] at hu
      rw [Function.update_of_ne hvt] at hv
      cases hu
      exact absurd (h.got v _ _ _ _ hv).1 (hfresh _)
    · rw [hvt, Function.update_self] at hv
      rw [Function.update_of_ne hut] at hu
      cases hv
      exact absurd (h.got u _ _ _ _ hu).1 (hfresh _)
    · rw [Function.update_of_ne hut] at hu
      rw [Function.update_of_ne hvt] at hv
      exact h.unique u v b1 b2 j d1 d2 n1 n2 hu hv
  · rw [hret] at hq
    obtain ⟨h1, h2⟩ := h.returned q hq
    rw [hm]
    exact ⟨hmono _ _ h1, h2⟩

/-- The thread copies its mail out and returns. -/
theorem receivers_copyOut (h : Receivers s) {t : Tid} {b mail n : ℕ} {data : Bytes.Store}
    (hpc : s.pc t = .got b mail data n) : Receivers (s.copyOut t b mail data n) := by
  obtain ⟨hin, hnot⟩ := h.got t b mail data n hpc
  have hold : ∀ u b' j data' n', (s.copyOut t b mail data n).pc u = .got b' j data' n' →
      u ≠ t ∧ s.pc u = .got b' j data' n' := by
    intro u b' j data' n' hu
    by_cases hut : u = t
    · simp [copyOut, hut] at hu
    · simp only [copyOut, Function.update_of_ne hut] at hu
      exact ⟨hut, hu⟩
  refine
    { got := fun u b' j data' n' hu => ?_
      unique := fun u v b1 b2 j d1 d2 n1 n2 hu hv =>
        h.unique u v b1 b2 j d1 d2 n1 n2 (hold u _ _ _ _ hu).2 (hold v _ _ _ _ hv).2
      returned := fun q hq => ?_
      nodup := ?_ }
  · obtain ⟨hut, hu'⟩ := hold u b' j data' n' hu
    obtain ⟨h1, h2⟩ := h.got u b' j data' n' hu'
    refine ⟨h1, fun q hq he => ?_⟩
    rcases List.mem_append.mp hq with hq | hq
    · exact h2 q hq he
    · rw [List.mem_singleton.mp hq] at he
      rw [← he] at hu'
      exact hut (h.unique u t b' b mail data' data n' n hu' hpc)
  · rcases List.mem_append.mp hq with hq | hq
    · exact h.returned q hq
    · rw [List.mem_singleton.mp hq]
      refine ⟨hin, rfl, rfl, fun i h0 hi => ?_⟩
      simp only at hi ⊢
      rw [Bytes.copy_inside h0 (by omega), show (0 : ℤ) + (i - 0) = i by ring]
      rfl
  · simp only [copyOut, List.map_append, List.map_singleton]
    refine h.nodup.append (List.nodup_singleton _) (List.disjoint_singleton.mpr fun hmem => ?_)
    obtain ⟨q, hq, he⟩ := List.mem_map.mp hmem
    exact hnot q hq he

theorem receivers_turn (h : Receivers s) (hB : Boxes s) (hI : ∀ b, SynchList.Items (s.boxes b))
    (hf : ∀ b t, SynchList.Fits ((s.boxes b).pc t) ((s.boxes b).mon.pc t)) (ht : Turn e s s') :
    Receivers s' := by
  have hmono : ∀ b, ∀ j ∈ (s.boxes b).returned, j ∈ (s'.boxes b).returned :=
    fun b => ht.returned_mono b (hf b)
  cases ht with
  | idle => exact h
  | sender | drop | arrive | wake | asleep | fetch | deliver | delivered | run =>
    exact h.frame (fun _ _ _ _ _ => Iff.rfl) rfl hmono fun _ _ => rfl
  | put pktHdr box hw hs =>
    refine h.frame (fun _ _ _ _ _ => Iff.rfl) rfl hmono fun q hq => ?_
    exact Function.update_of_ne (mail_of_returned hB hI (h.returned q hq).1).1.ne _ _
  | receive t b data box ht hpc hb hs =>
    refine h.frame (fun u b j data n => Runs.update_eq_iff ?_ ?_) rfl hmono fun _ _ => rfl
    · rw [hpc]
      simp
    · simp
  | take t b mail data n box hpc hs hmail =>
    exact receivers_take h hB hI hf hs hmail rfl rfl rfl rfl hmono
  | copyOut t b mail data n hpc => exact receivers_copyOut h hpc

theorem receivers_reach (hr : Reach e s) : Receivers s := by
  refine hr.inv Receivers ?_ fun s l s' hr h hl hs => ?_
  · intro s hs
    rw [hs]
    exact ⟨fun _ _ _ _ _ h => (by cases h), fun _ _ _ _ _ _ _ _ _ h => (by cases h),
      fun _ h => absurd h List.not_mem_nil, List.nodup_nil⟩
  · exact receivers_turn h (boxes_reach hr) (fun b => SynchList.items_reach (box_reach b hr))
      (fun b => SynchList.fits_reach (box_reach b hr)) (step_cases hl hs)

theorem pipe_reach (hr : Reach e s) : Pipe e s := by
  refine hr.inv (Pipe e) ?_ fun s l s' hr h hl hs => ?_
  · intro s hs
    rw [hs]
    exact pipe_initial e
  · refine pipe_turn h (fun m => sender_reach m hr) (fun t b mail data n hpc => ?_)
      (step_cases hl hs)
    have hret := ((receivers_reach hr).got t b mail data n hpc).1
    exact (mail_of_returned (boxes_reach hr) (fun b => SynchList.items_reach (box_reach b hr))
      hret).1

/-! ### Who receives first -/

/-- The first `n` calls that returned had an earlier mail of the box than
`mail`. -/
def After (s : PostOffice) (b mail n : ℕ) : Prop :=
  n ≤ s.returned.length ∧ ∀ q ∈ s.returned.take n, q.box = b → q.mail < mail

/-- A call has a later mail than the calls on the same box that had returned
when it was made. -/
structure Later (s : PostOffice) : Prop where
  receiving : ∀ t b data n, s.pc t = .receiving b data n → n ≤ s.returned.length ∧
    ∀ mail, (s.boxes b).pc t = .removed mail → After s b mail n
  got : ∀ t b mail data n, s.pc t = .got b mail data n → After s b mail n
  returned : ∀ q ∈ s.returned, After s q.box q.mail q.since

/-- The mail at the front of a box is later than all that were taken from it. -/
theorem after_front (hr : Reach e s) {b mail n : ℕ} (hn : n ≤ s.returned.length) {rest : List ℕ}
    (hl : (s.boxes b).list = mail :: rest) : After s b mail n := by
  have hI := SynchList.items_reach (box_reach b hr)
  have hsorted := (boxes_reach hr).sorted b
  rw [hI.fifo, hl, List.pairwise_append] at hsorted
  refine ⟨hn, fun q hq hb => hsorted.2.2 q.mail ?_ mail List.mem_cons_self⟩
  subst hb
  exact hI.returned _ ((receivers_reach hr).returned q (List.mem_of_mem_take hq)).1

/-- The mail a thread has in hand inside `RemoveFront`, after a step. -/
theorem after_removed (h : Later s) (hr : Reach e s) (ht : Turn e s s') {t : Tid} {b mail n : ℕ}
    {data : Bytes.Store} (hpc : s.pc t = .receiving b data n)
    (hmail : (s'.boxes b).pc t = .removed mail) : After s b mail n := by
  obtain ⟨hn, hrem⟩ := h.receiving t b data n hpc
  rcases box_turn b hr ht with hb | ⟨u, hu⟩
  · rw [hb] at hmail
    exact hrem mail hmail
  · rcases hu.removed hmail with hold | ⟨rest, hl⟩
    · exact hrem mail hold
    · exact after_front hr hn hl

theorem After.mono {b mail n : ℕ} (h : After s b mail n) (hret : s.returned <+: s'.returned) :
    After s' b mail n := by
  obtain ⟨r, hr⟩ := hret
  refine ⟨h.1.trans ?_, fun q hq => ?_⟩
  · rw [← hr, List.length_append]
    exact Nat.le_add_right _ _
  · rw [← hr, List.take_append_of_le_length h.1] at hq
    exact h.2 q hq

theorem later_turn (h : Later s) (hr : Reach e s) (ht : Turn e s s') : Later s' := by
  have hremoved : ∀ t b data n, s.pc t = .receiving b data n →
      ∀ mail, (s'.boxes b).pc t = .removed mail →
      After s b mail n := fun t b data n hpc mail hmail => after_removed h hr ht hpc hmail
  have hself : ∀ {x : PostOffice}, x.returned = s.returned → ∀ {b mail n}, After s b mail n →
      After x b mail n :=
    fun hx => fun {b mail n} ha => ha.mono (hx ▸ List.prefix_rfl)
  cases ht with
  | idle => exact h
  | sender | drop | arrive | wake | asleep | fetch | put | deliver | delivered | run =>
    refine ⟨fun t b data n hpc => ⟨(h.receiving t b data n hpc).1, fun mail hmail => ?_⟩,
      fun t b mail data n hpc => ?_, fun q hq => ?_⟩
    · exact hself rfl (hremoved t b data n hpc mail hmail)
    · exact hself rfl (h.got t b mail data n hpc)
    · exact hself rfl (h.returned q hq)
  | receive t b data box hne hpc hb hs =>
    refine ⟨fun u b' data' n hu => ?_, fun u b' mail data' n hu => ?_,
      fun q hq => hself rfl (h.returned q hq)⟩
    · by_cases hut : u = t
      · rw [hut] at hu
        simp only [Function.update_self, Pc.receiving.injEq] at hu
        obtain ⟨rfl, rfl, rfl⟩ := hu
        refine ⟨le_rfl, fun mail hmail => ?_⟩
        rw [hut] at hmail
        simp only [Function.update_self, (SynchList.step_removeFront hs).2.1] at hmail
        cases hmail
      · simp only [Function.update_of_ne hut] at hu
        exact ⟨(h.receiving u b' data' n hu).1, fun mail hmail =>
          hself rfl (hremoved u b' data' n hu mail hmail)⟩
    · by_cases hut : u = t
      · rw [hut] at hu
        simp at hu
      · simp only [Function.update_of_ne hut] at hu
        exact hself rfl (h.got u b' mail data' n hu)
  | take t b mail data n box hpc hs hmail =>
    refine ⟨fun u b' data' n' hu => ?_, fun u b' mail' data' n' hu => ?_,
      fun q hq => hself rfl (h.returned q hq)⟩
    · by_cases hut : u = t
      · rw [hut] at hu
        simp at hu
      · simp only [Function.update_of_ne hut] at hu
        exact ⟨(h.receiving u b' data' n' hu).1, fun mail hmail =>
          hself rfl (hremoved u b' data' n' hu mail hmail)⟩
    · by_cases hut : u = t
      · rw [hut] at hu
        simp only [Function.update_self, Pc.got.injEq] at hu
        obtain ⟨rfl, rfl, rfl, rfl⟩ := hu
        exact hself rfl ((h.receiving t b data n hpc).2 mail hmail)
      · simp only [Function.update_of_ne hut] at hu
        exact hself rfl (h.got u b' mail' data' n' hu)
  | copyOut t b mail data n hpc =>
    have hgrow : ∀ {b' mail' n'}, After s b' mail' n' →
        After (s.copyOut t b mail data n) b' mail' n' :=
      fun {b' mail' n'} ha => ha.mono (List.prefix_append _ _)
    refine ⟨fun u b' data' n' hu => ?_, fun u b' mail' data' n' hu => ?_, fun q hq => ?_⟩
    · by_cases hut : u = t
      · rw [hut] at hu
        simp [copyOut] at hu
      · simp only [copyOut, Function.update_of_ne hut] at hu
        refine ⟨(h.receiving u b' data' n' hu).1.trans ?_, fun mail' hmail =>
          hgrow (hremoved u b' data' n' hu mail' hmail)⟩
        simp [copyOut]
    · by_cases hut : u = t
      · rw [hut] at hu
        simp [copyOut] at hu
      · simp only [copyOut, Function.update_of_ne hut] at hu
        exact hgrow (h.got u b' mail' data' n' hu)
    · rcases List.mem_append.mp hq with hq | hq
      · exact hgrow (h.returned q hq)
      · rw [List.mem_singleton.mp hq]
        exact hgrow (h.got t b mail data n hpc)

theorem later_reach (hr : Reach e s) : Later s := by
  refine hr.inv Later ?_ fun s l s' hr h hl hs => later_turn h hr (step_cases hl hs)
  intro s hs
  rw [hs]
  exact ⟨fun _ _ _ _ h => (by cases h), fun _ _ _ _ _ h => (by cases h),
    fun _ h => absurd h List.not_mem_nil⟩

/-! ### Every run -/

/-- The mails taken from a box, by the packets they came in. -/
def taken (s : PostOffice) (b : ℕ) : List Source :=
  (s.boxes b).removed.filterMap fun j => s.arrived[j]?

/-- What senders and receivers see. -/
structure Delivered (e : Setup) (s : PostOffice) : Prop where
  /-- a `Receive` returns what was passed to a `Send` to its box -/
  intact : ∀ q ∈ s.returned, ∃ p r, s.arrived[q.mail]? = some p ∧ Sent s p r ∧
    q.box = r.mailHdr.dest.toInt.toNat ∧ q.mailHdr = r.mailHdr ∧ q.pktHdr.dest = r.pktHdr.dest ∧
    q.pktHdr.source = p.1 ∧ q.pktHdr.length.toNat = r.mailHdr.length.toNat + headerSize ∧
    ∀ i : ℤ, 0 ≤ i → i < r.mailHdr.length.toNat → q.data i = r.data i
  /-- no two return the same `Send` -/
  once : (s.returned.map fun q => s.arrived[q.mail]?).Nodup
  /-- the mails of one sender are taken from a box in the order they were sent -/
  inOrder : ∀ b, (s.taken b).Pairwise fun p q => p.1 = q.1 → p.2 < q.2
  taken : ∀ q ∈ s.returned, q.mail ∈ (s.boxes q.box).removed
  /-- and a call returns a later one than the calls that had returned when it was made -/
  later : ∀ q' ∈ s.returned, ∀ q ∈ s.returned.take q'.since, q.box = q'.box →
    ∀ p p', s.arrived[q.mail]? = some p →
    s.arrived[q'.mail]? = some p' → p.1 = p'.1 → p.2 < p'.2
  /-- the packets read from the socket are in mails, but for the last two: one
  in the worker's buffer and one in the buffer of the device -/
  kept : ∃ made hand slot, s.arrived = made ++ hand ++ slot ∧ made.length = s.nmails ∧
    Hand e s hand ∧ Slot e s slot
  /-- a mail has the content of its packet, and is in its box or on the way there -/
  made : ∀ j < s.nmails, (∃ p, s.arrived[j]? = some p ∧ Letter e s p (s.mails j)) ∧
    (j ∈ (s.boxes (s.mails j).box).appended ∨ ∃ t, (s.boxes (s.mails j).box).pc t = .append j)
  aborted : s.aborted = false ∧ (∀ m, (s.senders m).aborted = false) ∧
    ∀ b, (s.boxes b).aborted = false

theorem arrived_inj (hr : Reach e s) {i j : ℕ} (hi : i < s.arrived.length)
    (h : s.arrived[i]? = s.arrived[j]?) :
    i = j := by
  have hnodup : s.arrived.Nodup := (arrived_sorted hr).imp fun {p q} h he => by
    subst he
    exact lt_irrefl _ (h rfl)
  exact (List.getElem?_inj hi hnodup).mp h

/-- Of two packets of one sender, the one read first was sent first. -/
theorem arrived_lt (hr : Reach e s) {i j : ℕ} (hij : i < j) {p q : Source}
    (hp : s.arrived[i]? = some p) (hq : s.arrived[j]? = some q) : p.1 = q.1 → p.2 < q.2 := by
  obtain ⟨hi, hpi⟩ := List.getElem?_eq_some_iff.mp hp
  obtain ⟨hj, hqj⟩ := List.getElem?_eq_some_iff.mp hq
  have := List.pairwise_iff_getElem.mp (arrived_sorted hr) i j hi hj hij
  rwa [hpi, hqj] at this

theorem taken_sorted (hr : Reach e s) (b : ℕ) :
    (s.taken b).Pairwise fun p q => p.1 = q.1 → p.2 < q.2 := by
  have hI := SynchList.items_reach (box_reach b hr)
  have hsorted : (s.boxes b).removed.Pairwise (· < ·) := by
    have := (boxes_reach hr).sorted b
    rw [hI.fifo, List.pairwise_append] at this
    exact this.1
  exact List.pairwise_filterMap.mpr (hsorted.imp fun {i j} hij p hp q hq => arrived_lt hr hij hp hq)

/-- **Mail is delivered intact and at most once**, and the mails of one sender
leave a box in the order they were sent. -/
theorem mail_delivered {e : Setup} {s : PostOffice} (hr : Reach e s) : Delivered e s := by
  have hpipe := pipe_reach hr
  have hrec := receivers_reach hr
  have hB := boxes_reach hr
  have hI : ∀ b, SynchList.Items (s.boxes b) := fun b => SynchList.items_reach (box_reach b hr)
  have hmail : ∀ q ∈ s.returned, q.mail < s.nmails ∧ (s.mails q.mail).box = q.box := fun q hq =>
    mail_of_returned hB hI (hrec.returned q hq).1
  refine
    { intact := fun q hq => ?_
      once := ?_
      inOrder := taken_sorted hr
      taken := fun q hq => (hI q.box).returned _ (hrec.returned q hq).1
      later := fun q' hq' q hq hb p p' hp hp' => ?_
      kept := hpipe.split
      made := fun j hj => ⟨hpipe.mails j hj, hB.reached j hj⟩
      aborted := ⟨hpipe.aborted, fun m => ?_, fun b => (hI b).aborted⟩ }
  · obtain ⟨hlt, hbox⟩ := hmail q hq
    obtain ⟨-, hpkt, hhdr, hdata⟩ := hrec.returned q hq
    obtain ⟨p, hp, r, hsent, hvalid, hpkt', hhdr', hdata'⟩ := hpipe.mails q.mail hlt
    refine ⟨p, r, hp, hsent, ?_, hhdr.trans hhdr', ?_, ?_, ?_, fun i h0 hi => ?_⟩
    · rw [← hbox, Mail.box, hhdr']
    · rw [hpkt, hpkt']
      rfl
    · rw [hpkt, hpkt']
      rfl
    · rw [hpkt, hpkt', Send.packetHeader_length hvalid.1]
    · rw [hdata i h0 (by rw [hhdr, hhdr']; exact hi), hdata' i h0 hi]
  · have hmap : (s.returned.map fun q => s.arrived[q.mail]?) = (s.returned.map Received.mail).map
        fun j => s.arrived[j]? := by
      rw [List.map_map]
      rfl
    rw [hmap]
    refine hrec.nodup.map_on fun i hi j hj h => ?_
    obtain ⟨q, hq, rfl⟩ := List.mem_map.mp hi
    obtain ⟨p, hp, -⟩ := hpipe.mails q.mail (hmail q hq).1
    exact arrived_inj hr (List.getElem?_eq_some_iff.mp hp).1 h
  · exact arrived_lt hr (((later_reach hr).returned q' hq').2 q hq hb) hp hp'
  · exact (SynchDevice.synchronous (fun rs r _ hr => NetworkOutput.ok_after (valid_fits e) rs r hr)
      (sender_reach m hr)).aborted.1

/-! ### Overtaking -/

/-- The calls of `Receive` on one box return the mails of one sender in the
order they were sent. -/
def ReturnedInOrder (s : PostOffice) : Prop :=
  s.returned.Pairwise fun q q' => ∀ p p', s.arrived[q.mail]? = some p →
    s.arrived[q'.mail]? = some p' →
    q.box = q'.box → p.1 = p'.1 → p.2 < p'.2

/-- Machine 5 with one box. -/
def oneBox : Setup where
  network := ⟨5, ⟨0, 0, 0⟩, fun _ => 0⟩
  numBoxes := 1
  buffer := fun _ => 0
  mail := fun _ _ => 0
  lost := fun _ _ => false
  new := fun _ _ _ => 0

/-- A mail of one byte from machine 7 to that box. -/
def byteMail (c : Bytes.Byte) : Send where
  pktHdr := ⟨5, 0, 0⟩
  mailHdr := ⟨0, 0, 1⟩
  data := fun _ => c
  new := fun _ => 0

/-- Thread 1 of machine 7 sends a mail. -/
def sendSteps (c : Bytes.Byte) (k : ℕ) : List Label :=
  [.sender 7 (.call 1 (byteMail c)), .sender 7 (.run 1), .sender 7 (.run 1),
    .sender 7 (.interrupt k), .sender 7 (.run 1), .sender 7 (.run 1)]

/-- The next packet of machine 7 arrives and goes to its box. -/
def deliverSteps : List Label :=
  [.interrupt 7, .worker, .worker, .worker, .worker, .worker, .worker, .worker]

/-- Thread `t` calls `Receive` and takes a mail from the box. -/
def takeSteps (t : Tid) : List Label := [.receive t 0 fun _ => 0, .run t, .run t, .run t]

/-- Two mails arrive; thread 1 takes the first and thread 2 the second, and
thread 2 copies its mail out first. -/
def overtaking : List Label :=
  sendSteps 65 0 ++ sendSteps 66 1 ++ deliverSteps ++ deliverSteps ++ takeSteps 1 ++ takeSteps 2 ++
    [.run 2, .run 1]

theorem reach_overtaking :
    ∃ s, Reach oneBox s ∧ s.returned.map (fun q => (q.box, q.mail)) = [(0, 1), (0, 0)] ∧
    s.arrived = [(7, 0), (7, 1)] ∧ s.returned.map (fun q => (q.mail, q.data 0)) =
      [(1, 66), (0, 65)] := by
  obtain ⟨s, hs, ht⟩ := Runs.Reach.of_exec (step oneBox) (· = initial oneBox) rfl overtaking
    (Runs.Along.of_along (c := fun s l => Legal oneBox s l) (fun _ _ h => of_decide_eq_true h) _ _
      (by decide +kernel))
    (fun s => s.returned.map (fun q => (q.box, q.mail)) = [(0, 1), (0, 0)] ∧
      s.arrived = [(7, 0), (7, 1)] ∧
      s.returned.map (fun q => (q.mail, q.data 0)) = [(1, 66), (0, 65)]) (by decide +kernel)
  simp only [decide_eq_true_eq] at ht
  exact ⟨s, hs, ht⟩

theorem returned_overtaken : ∃ s, Reach oneBox s ∧ ¬ ReturnedInOrder s := by
  obtain ⟨s, hs, hret, harr, -⟩ := reach_overtaking
  obtain ⟨q, l, hql, hqv, hl⟩ := List.map_eq_cons_iff.mp hret
  obtain ⟨q', l', rfl, hqv', -⟩ := List.map_eq_cons_iff.mp hl
  obtain ⟨hb, hm⟩ := Prod.mk.inj hqv
  obtain ⟨hb', hm'⟩ := Prod.mk.inj hqv'
  refine ⟨s, hs, fun hord => ?_⟩
  unfold ReturnedInOrder at hord
  rw [hql] at hord
  have := List.rel_of_pairwise_cons hord List.mem_cons_self (7, 1) (7, 0) (by rw [harr, hm]; rfl)
    (by rw [harr, hm']; rfl)
    (hb.trans hb'.symm) rfl
  simp at this

/-- In that run each call has the byte of one `Send`. -/
theorem mail_delivered_two : ∃ s, Reach oneBox s ∧ Delivered oneBox s ∧
    s.returned.map (fun q => (q.mail, q.data 0)) = [(1, 66), (0, 65)] := by
  obtain ⟨s, hs, -, -, hbytes⟩ := reach_overtaking
  exact ⟨s, hs, mail_delivered hs, hbytes⟩

end PostOffice
end Nachos
