/-
# The network (`machine/network.cc`)

A packet on the wire is a header of twelve bytes and the data, in a buffer of
`MaxWireSize` bytes; the mail in it is packed the same way once more
(`network/post.cc`). `concat` is that packing, `Header.read` takes the header
from a buffer again. `NetworkOutput` sends a packet or loses it, and
`NetworkInput` keeps one packet that has arrived, with a length other than 0,
until it is received.

* `concat_read`, `concat_rest`: a buffer that agrees with a packed one on
  header and data gives both back.
* `Outbox`: what a machine has put on the wire are packets of its sends, each
  at most once and in their order.
* `readPacket_carries`, `receive_carries`: a packet that was sent arrives in
  the buffer, and leaves it, as it was packed.

Key definitions: `Network.concat`, `Network.Send`, `NetworkOutput.device`,
`NetworkInput.readPacket`, `NetworkInput.receive`.
Key theorems: `Network.concat_read`, `NetworkOutput.outbox_reach`,
`NetworkInput.readPacket_carries`, `NetworkInput.receive_carries`.
-/
import Mathlib
import Nachos.Base.Bytes
import Nachos.Threads.SynchDevice

namespace Nachos
namespace Network

/-- `class PacketHeader` and `class MailHeader`, which have the same fields. -/
structure Header where
  /-- the field `to` -/
  dest : BitVec 32
  /-- the field `from` -/
  source : BitVec 32
  /-- bytes of data after the header -/
  length : BitVec 32
  deriving DecidableEq

/-- `sizeof(PacketHeader)` and `sizeof(MailHeader)`. -/
def headerSize : ℕ := 12
def maxWireSize : ℕ := 64
def maxPacketSize : ℕ := maxWireSize - headerSize
def maxMailSize : ℕ := maxPacketSize - headerSize

namespace Header

/-- The header as it lies in memory. -/
def bytes (h : Header) : List Bytes.Byte :=
  Bytes.wordBytes h.dest ++ Bytes.wordBytes h.source ++ Bytes.wordBytes h.length

/-- The header at the front of a buffer. -/
def read (buffer : Bytes.Store) : Header where
  dest := Bytes.word (buffer 0) (buffer 1) (buffer 2) (buffer 3)
  source := Bytes.word (buffer 4) (buffer 5) (buffer 6) (buffer 7)
  length := Bytes.word (buffer 8) (buffer 9) (buffer 10) (buffer 11)

theorem read_write (new : Bytes.Store) (h : Header) : read (Bytes.write new 0 h.bytes) = h := by
  have h1 := Bytes.word_wordBytes h.dest
  have h2 := Bytes.word_wordBytes h.source
  have h3 := Bytes.word_wordBytes h.length
  cases h
  simp only [read, bytes, Bytes.write, Bytes.wordBytes] at *
  simp [h1, h2, h3]

end Header

/-- A header and the data it announces, in a new buffer. -/
def concat (new : Bytes.Store) (h : Header) (data : Bytes.Store) : Bytes.Store :=
  Bytes.copy data 0 (Bytes.write new 0 h.bytes) headerSize h.length.toNat

variable {new data buffer : Bytes.Store} {h : Header} {i : ℤ}

theorem concat_header (hi : i < headerSize) : concat new h data i = Bytes.write new 0 h.bytes i :=
  Bytes.copy_outside (Or.inl hi)

theorem concat_rest (h0 : 0 ≤ i) (hi : i < h.length.toNat) :
    concat new h data (headerSize + i) = data i := by
  unfold concat
  rw [Bytes.copy_inside (by omega) (by omega)]
  congr 1
  ring

/-- The header comes back from a buffer with the same first bytes. -/
theorem concat_read (new data : Bytes.Store)
    (hb : ∀ i : ℤ, 0 ≤ i → i < headerSize → buffer i = concat new h data i) :
    Header.read buffer = h := by
  have hw : ∀ i : ℤ, 0 ≤ i → i < 12 → buffer i = Bytes.write new 0 h.bytes i := fun i h0 hi =>
    (hb i h0 hi).trans (concat_header hi)
  refine Eq.trans ?_ (Header.read_write new h)
  simp only [Header.read]
  rw [hw 0, hw 1, hw 2, hw 3, hw 4, hw 5, hw 6, hw 7, hw 8, hw 9, hw 10, hw 11] <;> norm_num

/-- `SendToSocket(sock, buffer, MaxWireSize, ..)`: what goes on the wire. -/
def datagram (buffer : Bytes.Store) : List Bytes.Byte :=
  (List.range maxWireSize).map fun i : ℕ => buffer i

/-- `ReadFromSocket(sock, buffer, MaxWireSize)`. -/
def readSocket (packet : List Bytes.Byte) : Bytes.Store := Bytes.write (fun _ => 0) 0 packet

theorem readSocket_datagram (h0 : 0 ≤ i) (hi : i < maxWireSize) :
    readSocket (datagram buffer) i = buffer i := by
  obtain ⟨n, rfl⟩ := Int.eq_ofNat_of_zero_le h0
  have hn : n < maxWireSize := by exact_mod_cast hi
  unfold readSocket
  rw [Bytes.write_inside h0 (by simpa [datagram] using hi)]
  simp [datagram, hn]

/-- The arguments of a call of `PostOfficeOutput::Send`, and what its new
buffer holds. -/
structure Send where
  pktHdr : Header
  mailHdr : Header
  data : Bytes.Store
  new : Bytes.Store

/-- `pktHdr` as `PostOfficeOutput::Send` fills it in. -/
def Send.packetHeader (r : Send) (hostName : BitVec 32) : Header :=
  { r.pktHdr with source := hostName, length := r.mailHdr.length + BitVec.ofNat 32 headerSize }

/-- The buffer of `PostOfficeOutput::Send`: `mailHdr` and `data`. -/
def Send.payload (r : Send) : Bytes.Store := concat r.new r.mailHdr r.data

/-- A mail that fits into a packet. -/
def Send.Fits (r : Send) : Prop := r.mailHdr.length.toNat ≤ maxMailSize ∧ 0 ≤ r.mailHdr.dest.toInt

instance (r : Send) : Decidable r.Fits := inferInstanceAs (Decidable (_ ∧ _))

theorem Send.packetHeader_length {r : Send} (hr : r.Fits) (hostName : BitVec 32) :
    (r.packetHeader hostName).length.toNat = r.mailHdr.length.toNat + headerSize := by
  have := hr.1
  simp only [Send.packetHeader, BitVec.toNat_add, BitVec.toNat_ofNat, maxMailSize, maxPacketSize,
    maxWireSize, headerSize] at *
  omega

end Network

open Network

/-- `class NetworkOutput`; `sends` counts the calls of `Send`, `lost` says which
of them find `RandomNumber() % 100 >= chanceToWork * 100`, and `new` is what
their new buffers hold. -/
structure NetworkOutput where
  hostName : BitVec 32
  sendBusy : Bool
  lost : ℕ → Bool
  new : ℕ → Bytes.Store
  sends : ℕ
  /-- what was put on the wire, with the number of the send -/
  sent : List (ℕ × List Bytes.Byte)

namespace NetworkOutput

/-- `NetworkOutput::Send(hdr, data)`, past its `ASSERT`. -/
def send (x : NetworkOutput) (hdr : Header) (data : Bytes.Store) : NetworkOutput :=
  { x with
    sends := x.sends + 1
    sent := if x.lost x.sends then x.sent
      else x.sent ++ [(x.sends, datagram (concat (x.new x.sends) hdr data))] }

/-- The device `PostOfficeOutput` works with. The `ASSERT`s are those of
`PostOfficeOutput::Send`, which read its arguments only, and of
`NetworkOutput::Send`. -/
def device : Device NetworkOutput Send Unit where
  ok x r :=
    decide (r.Fits ∧ x.sendBusy = false ∧ 0 < (r.packetHeader x.hostName).length.toNat ∧
      (r.packetHeader x.hostName).length.toNat ≤ maxPacketSize ∧
      (r.packetHeader x.hostName).source = x.hostName)
  request x r := (x.send (r.packetHeader x.hostName) r.payload, ())
  callBack x := { x with sendBusy := false }

/-- `NetworkOutput::NetworkOutput`. -/
def create (hostName : BitVec 32) (lost : ℕ → Bool) (new : ℕ → Bytes.Store) : NetworkOutput :=
  ⟨hostName, false, lost, new, 0, []⟩

/-- What is on the wire after the sends `rs`. -/
structure Outbox (hostName : BitVec 32) (rs : List Send) (x : NetworkOutput) : Prop where
  host : x.hostName = hostName
  busy : x.sendBusy = false
  sends : x.sends = rs.length
  packet : ∀ e ∈ x.sent, ∃ r new, rs[e.1]? = some r ∧
    e.2 = datagram (concat new (r.packetHeader hostName) r.payload)
  sorted : (x.sent.map Prod.fst).Pairwise (· < ·)

variable {host : BitVec 32} {rs : List Send} {x : NetworkOutput} {lost : ℕ → Bool}
  {new : ℕ → Bytes.Store}

theorem Outbox.lt (h : Outbox host rs x) {e : ℕ × List Bytes.Byte} (he : e ∈ x.sent) :
    e.1 < rs.length := by
  obtain ⟨r, -, hr, -⟩ := h.packet e he
  exact (List.getElem?_eq_some_iff.mp hr).1

theorem Outbox.send (h : Outbox host rs x) (r : Send) :
    Outbox host (rs ++ [r]) (device.request x r).1 := by
  have hold : ∀ e ∈ x.sent, ∃ r' new, (rs ++ [r])[e.1]? = some r' ∧
      e.2 = datagram (concat new (r'.packetHeader host) r'.payload) := fun e he => by
    obtain ⟨r', new, hr, hn⟩ := h.packet e he
    exact ⟨r', new, by rw [List.getElem?_append_left (h.lt he), hr], hn⟩
  refine { host := h.host, busy := h.busy, sends := ?_, packet := fun e he => ?_, sorted := ?_ }
  · simp [device, NetworkOutput.send, h.sends]
  · simp only [device, NetworkOutput.send] at he
    split_ifs at he
    · exact hold e he
    · rcases List.mem_append.mp he with he | he
      · exact hold e he
      · rw [List.mem_singleton.mp he, h.sends]
        exact ⟨r, x.new rs.length, by simp, by rw [h.host]⟩
  · simp only [device, NetworkOutput.send]
    split_ifs
    · exact h.sorted
    · rw [List.map_append, List.map_singleton, List.pairwise_append]
      refine ⟨h.sorted, List.pairwise_singleton _ _, fun k hk k' hk' => ?_⟩
      obtain ⟨e, he, rfl⟩ := List.mem_map.mp hk
      rw [List.mem_singleton.mp hk', h.sends]
      exact h.lt he

theorem outbox_after (rs : List Send) :
    Outbox host rs (device.after (create host lost new) rs) := by
  induction rs using List.reverseRecOn with
  | nil => exact ⟨rfl, rfl, rfl, fun e he => absurd he List.not_mem_nil, List.Pairwise.nil⟩
  | append_singleton rs r ih =>
    rw [device.after_concat]
    have := ih.send r
    exact ⟨this.host, rfl, this.sends, this.packet, this.sorted⟩

/-- A machine whose threads call `PostOfficeOutput::Send`. -/
abbrev Reach (host : BitVec 32) (lost : ℕ → Bool) (new : ℕ → Bytes.Store) (P : Send → Prop) :
    SynchDevice NetworkOutput Send Unit → Prop := SynchDevice.Reach device (create host lost new) P

theorem outbox_reach {P : Send → Prop} {s : SynchDevice NetworkOutput Send Unit}
    (hr : Reach host lost new P s) :
    Outbox host (s.issued.map Prod.fst) s.dev := by
  cases SynchDevice.stage_reach hr with
  | idle _ _ hdev | ready _ _ _ _ _ _ _ hdev | done _ _ _ _ _ _ _ hdev =>
    rw [hdev.2]
    exact outbox_after _
  | busy t k r a pre hpc hlast hk hv hq hsch hdev =>
    rw [hdev, hlast, List.map_append, List.map_singleton]
    exact (outbox_after _).send r

/-- Packets are added to the wire at its end. -/
theorem sent_step {s s' : SynchDevice NetworkOutput Send Unit} {l : SynchDevice.Label Send}
    (hs : s.step device l = some s') : s.issued <+: s'.issued ∧ s.dev.sent <+: s'.dev.sent := by
  rcases SynchDevice.step_dev hs with ⟨hi, hd | hd⟩ | ⟨r, hi, hd⟩
  · rw [hi, hd]
    exact ⟨List.prefix_rfl, List.prefix_rfl⟩
  · rw [hi, hd]
    exact ⟨List.prefix_rfl, List.prefix_rfl⟩
  · rw [hi, hd]
    refine ⟨List.prefix_append _ _, ?_⟩
    simp only [device, send]
    split_ifs
    · exact List.prefix_rfl
    · exact List.prefix_append _ _

/-- The `ASSERT`s of `Send` hold for every mail that fits. -/
theorem ok_after {P : Send → Prop} (hP : ∀ r, P r → r.Fits) (rs : List Send) (r : Send) (hr : P r) :
    device.ok (device.after (create host lost new) rs) r = true := by
  have hbox : Outbox host rs (device.after (create host lost new) rs) := outbox_after rs
  have hfit := hP r hr
  have hlen := Send.packetHeader_length hfit (device.after (create host lost new) rs).hostName
  have hmax := hfit.1
  simp only [headerSize, maxMailSize, maxPacketSize, maxWireSize] at *
  refine decide_eq_true ⟨hfit, hbox.busy, ?_, ?_, rfl⟩
  · omega
  · simp only [headerSize, maxPacketSize, maxWireSize]
    omega

end NetworkOutput

/-- `class NetworkInput`. -/
structure NetworkInput where
  hostName : BitVec 32
  inHdr : Header
  inbox : Bytes.Store

namespace NetworkInput

/-- The part of `NetworkInput::CallBack` that reads a packet. -/
def readPacket (x : NetworkInput) (packet : List Bytes.Byte) : NetworkInput :=
  { x with
    inHdr := Header.read (readSocket packet)
    inbox := Bytes.copy (readSocket packet) headerSize x.inbox 0
      (Header.read (readSocket packet)).length.toNat }

/-- Its `ASSERT`. -/
def readOk (x : NetworkInput) (packet : List Bytes.Byte) : Bool :=
  (Header.read (readSocket packet)).dest = x.hostName ∧
    (Header.read (readSocket packet)).length.toNat ≤ maxPacketSize

/-- `NetworkInput::Receive(data)`: the device and `data` after it, and the
header. -/
def receive (x : NetworkInput) (data : Bytes.Store) : NetworkInput × Header × Bytes.Store :=
  ({ x with inHdr := { x.inHdr with length := 0 } }, x.inHdr,
    if x.inHdr.length ≠ 0 then Bytes.copy x.inbox 0 data 0 x.inHdr.length.toNat else data)

/-- The packet of `r` from machine `m`, with its data in `buffer`. -/
def Carries (r : Send) (m : BitVec 32) (hdr : Header) (buffer : Bytes.Store) : Prop :=
  hdr = r.packetHeader m ∧ ∀ i : ℤ, 0 ≤ i → i < hdr.length.toNat → buffer i = r.payload i

variable {x : NetworkInput} {r : Send} {m : BitVec 32} {new data : Bytes.Store}

/-- A packet on the wire gives back its header and its data. -/
theorem readPacket_carries (hr : r.Fits) :
    Carries r m (x.readPacket (datagram (concat new (r.packetHeader m) r.payload))).inHdr
      (x.readPacket (datagram (concat new (r.packetHeader m) r.payload))).inbox := by
  have hlen := Send.packetHeader_length hr m
  have hfit := hr.1
  have hhdr : Header.read (readSocket (datagram (concat new (r.packetHeader m) r.payload))) =
      r.packetHeader m := by
    refine concat_read new r.payload fun i h0 hi => readSocket_datagram h0 ?_
    simp only [headerSize, maxWireSize] at *
    omega
  refine ⟨hhdr, fun i h0 hi => ?_⟩
  simp only [readPacket, hhdr] at hi ⊢
  rw [Bytes.copy_inside h0 (by omega)]
  rw [show (headerSize : ℤ) + (i - 0) = headerSize + i by ring, readSocket_datagram (by omega) ?_,
    concat_rest h0 hi]
  simp only [headerSize, maxMailSize, maxPacketSize, maxWireSize] at *
  omega

theorem readOk_of_fits (hr : r.Fits) (hto : r.pktHdr.dest = x.hostName) :
    x.readOk (datagram (concat new (r.packetHeader m) r.payload)) = true := by
  have hlen := Send.packetHeader_length hr m
  have hfit := hr.1
  have hhdr : Header.read (readSocket (datagram (concat new (r.packetHeader m) r.payload))) =
      r.packetHeader m :=
    (readPacket_carries (x := x) hr).1
  unfold readOk
  rw [hhdr, decide_eq_true_eq]
  refine ⟨hto, ?_⟩
  simp only [headerSize, maxMailSize, maxPacketSize, maxWireSize] at *
  omega

/-- `Receive` gives the packet that is buffered to its caller. -/
theorem receive_carries (h : Carries r m x.inHdr x.inbox) (hne : x.inHdr.length ≠ 0) :
    Carries r m (x.receive data).2.1 (x.receive data).2.2 := by
  refine ⟨h.1, fun i h0 hi => ?_⟩
  simp only [receive] at hi ⊢
  rw [if_pos hne, Bytes.copy_inside h0 (by omega), show (0 : ℤ) + (i - 0) = i by ring]
  exact h.2 i h0 hi

/-- The mail in a packet. -/
theorem Carries.mail {hdr : Header} {buffer : Bytes.Store} (h : Carries r m hdr buffer)
    (hr : r.Fits) :
    Header.read buffer = r.mailHdr ∧
      ∀ i : ℤ, 0 ≤ i → i < r.mailHdr.length.toNat → buffer (headerSize + i) = r.data i := by
  have hlen : (hdr.length.toNat : ℤ) = r.mailHdr.length.toNat + headerSize := by
    rw [h.1, Send.packetHeader_length hr m]
    push_cast
    ring
  refine ⟨concat_read r.new r.data fun i h0 hi => ?_, fun i h0 hi => ?_⟩
  · exact h.2 i h0 (by omega)
  · rw [h.2 _ (by omega) (by omega)]
    exact concat_rest h0 hi

end NetworkInput
end Nachos
