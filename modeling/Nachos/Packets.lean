import Nachos.Lib.Buffers

namespace Nachos
open Buffers

def maxWireSize : ℕ := 64
def sizeofPacketHeader : ℕ := 12
def sizeofMailHeader : ℕ := 12
def maxPacketSize : ℕ := maxWireSize - sizeofPacketHeader
def maxMailSize : ℕ := maxPacketSize - sizeofMailHeader

/-- `dest` and `sender` are the fields `to` and `from` of the two headers. -/
structure PacketHeader where
  dest : BitVec 32
  sender : BitVec 32
  length : BitVec 32
  deriving DecidableEq, Repr

structure MailHeader where
  dest : BitVec 32
  sender : BitVec 32
  length : BitVec 32
  deriving DecidableEq, Repr

namespace PacketHeader

def bytes (h : PacketHeader) : Bytes := wordBytes [h.dest, h.sender, h.length]

def ofBytes (b : Bytes) : PacketHeader := ⟨wordAt b 0, wordAt b 4, wordAt b 8⟩

theorem ofBytes_of_eq {b : Bytes} {h : PacketHeader}
    (hb : ∀ i < sizeofPacketHeader, b i = h.bytes i) : ofBytes b = h := by
  obtain ⟨hdest, hsender, hlength⟩ := wordAt_three hb
  rw [ofBytes, hdest, hsender, hlength]

end PacketHeader

namespace MailHeader

def bytes (h : MailHeader) : Bytes := wordBytes [h.dest, h.sender, h.length]

def ofBytes (b : Bytes) : MailHeader := ⟨wordAt b 0, wordAt b 4, wordAt b 8⟩

theorem ofBytes_of_eq {b : Bytes} {h : MailHeader}
    (hb : ∀ i < sizeofMailHeader, b i = h.bytes i) : ofBytes b = h := by
  obtain ⟨hdest, hsender, hlength⟩ := wordAt_three hb
  rw [ofBytes, hdest, hsender, hlength]

end MailHeader

inductive MailFault where
  | postSendLength
  | postSendTo
  | networkSend
  | networkReceive
  | deliveryTo
  | deliveryLength
  | mailLength
  | receiveBox
  | receiveLength
  deriving DecidableEq, Repr

/-- `PostOfficeOutput::Send` up to `sendLock->Acquire()`; `buffer` is fresh memory. -/
def PostOfficeOutput.pack (hostName : BitVec 32) (pktHdr : PacketHeader) (mailHdr : MailHeader)
    (data buffer : Bytes) : Except MailFault (PacketHeader × Bytes) :=
  if ¬mailHdr.length.toNat ≤ maxMailSize then .error .postSendLength
  else if ¬0 ≤ mailHdr.dest.toInt then .error .postSendTo
  else
    .ok ({ pktHdr with
        sender := hostName
        length := mailHdr.length + BitVec.ofNat 32 sizeofMailHeader },
      bcopy data (bcopy mailHdr.bytes buffer 0 sizeofMailHeader) sizeofMailHeader
        mailHdr.length.toNat)

/-- `NetworkOutput::Send` apart from the interrupt it schedules: what goes over the wire,
unless the packet is lost; `buffer` is fresh memory. -/
def NetworkOutput.wire (hostName : BitVec 32) (sendBusy : Bool) (hdr : PacketHeader)
    (data buffer : Bytes) (lost : Bool) : Except MailFault (Option Bytes) :=
  if sendBusy = false ∧ 0 < hdr.length.toNat ∧ hdr.length.toNat ≤ maxPacketSize ∧
      hdr.sender = hostName then
    .ok (if lost then none
      else some (bcopy data (bcopy hdr.bytes buffer 0 sizeofPacketHeader) sizeofPacketHeader
        hdr.length.toNat))
  else .error .networkSend

structure NetworkInput where
  inHdr : PacketHeader
  inbox : Bytes

/-- `NetworkInput::CallBack` once `PollSocket` has found a packet and the buffer is empty. -/
def NetworkInput.accept (hostName : BitVec 32) (n : NetworkInput) (buffer : Bytes) :
    Except MailFault NetworkInput :=
  let inHdr := PacketHeader.ofBytes buffer
  if inHdr.dest = hostName ∧ inHdr.length.toNat ≤ maxPacketSize then
    .ok ⟨inHdr, bcopy (shift buffer sizeofPacketHeader) n.inbox 0 inHdr.length.toNat⟩
  else .error .networkReceive

def NetworkInput.receive (n : NetworkInput) (data : Bytes) : PacketHeader × Bytes × NetworkInput :=
  (n.inHdr, if n.inHdr.length ≠ 0 then bcopy n.inbox data 0 n.inHdr.length.toNat else data,
    { n with inHdr := { n.inHdr with length := 0 } })

structure Mail where
  pktHdr : PacketHeader
  mailHdr : MailHeader
  data : Bytes

/-- `Mail::Mail`; `data` is fresh memory. -/
def Mail.new (pktH : PacketHeader) (mailH : MailHeader) (msgData data : Bytes) :
    Except MailFault Mail :=
  if mailH.length.toNat ≤ maxMailSize then
    .ok ⟨pktH, mailH, bcopy msgData data 0 mailH.length.toNat⟩
  else .error .mailLength

/-- One round of `PostalDelivery` after `network->Receive`, up to the `Mail` of
`MailBox::Put`; `data` is fresh memory. -/
def PostOfficeInput.sort (numBoxes : Int) (pktHdr : PacketHeader) (buffer data : Bytes) :
    Except MailFault Mail :=
  let mailHdr := MailHeader.ofBytes buffer
  if ¬(0 ≤ mailHdr.dest.toInt ∧ mailHdr.dest.toInt < numBoxes) then .error .deliveryTo
  else if ¬mailHdr.length.toNat ≤ maxMailSize then .error .deliveryLength
  else Mail.new pktHdr mailHdr (shift buffer sizeofMailHeader) data

/-- `MailBox::Get` with the message it has taken out of the box. -/
def MailBox.unpack (mail : Mail) (data : Bytes) : PacketHeader × MailHeader × Bytes :=
  (mail.pktHdr, mail.mailHdr, bcopy mail.data data 0 mail.mailHdr.length.toNat)

/-- `PostOfficeInput::Receive` with that message. -/
def PostOfficeInput.hand (numBoxes box : Int) (mail : Mail) (data : Bytes) :
    Except MailFault (PacketHeader × MailHeader × Bytes) :=
  if ¬(box ≥ 0 ∧ box < numBoxes) then .error .receiveBox
  else
    let r := MailBox.unpack mail data
    if r.2.1.length.toNat ≤ maxMailSize then .ok r else .error .receiveLength

/-- The message as `PostOfficeOutput::Send` gives it to the wire. -/
def transmit (hostName : BitVec 32) (sendBusy : Bool) (pktHdr : PacketHeader)
    (mailHdr : MailHeader) (data buffer wire : Bytes) (lost : Bool) :
    Except MailFault (Option Bytes) := do
  let (hdr, packed) ← PostOfficeOutput.pack hostName pktHdr mailHdr data buffer
  NetworkOutput.wire hostName sendBusy hdr packed wire lost

/-- What the receiving machine does with a packet, from the interrupt to the `Receive` on the
mailbox the packet is for.  `n`, `buffer`, `fresh` and `data` are the memory it finds. -/
def arrive (hostName : BitVec 32) (numBoxes : Int) (n : NetworkInput) (packet : Bytes)
    (buffer fresh data : Bytes) : Except MailFault (PacketHeader × MailHeader × Bytes) := do
  let n ← n.accept hostName packet
  let (pktHdr, buffer, _) := n.receive buffer
  let mail ← PostOfficeInput.sort numBoxes pktHdr buffer fresh
  PostOfficeInput.hand numBoxes mail.mailHdr.dest.toInt mail data

/-- The header and the data of a message, as the post office puts them together. -/
structure HoldsLetter (mailHdr : MailHeader) (data b : Bytes) : Prop where
  header : ∀ i < sizeofMailHeader, b i = mailHdr.bytes i
  data : ∀ i < mailHdr.length.toNat, b (sizeofMailHeader + i) = data i

/-- The header of a packet with a letter behind it. -/
structure HoldsPacket (hdr : PacketHeader) (mailHdr : MailHeader) (data b : Bytes) : Prop where
  header : ∀ i < sizeofPacketHeader, b i = hdr.bytes i
  letter : HoldsLetter mailHdr data (shift b sizeofPacketHeader)

def sealed (hostName : BitVec 32) (pktHdr : PacketHeader) (mailHdr : MailHeader) : PacketHeader :=
  { pktHdr with sender := hostName, length := mailHdr.length + BitVec.ofNat 32 sizeofMailHeader }

variable {hostName : BitVec 32} {pktHdr hdr : PacketHeader} {mailHdr : MailHeader}
  {data buffer b : Bytes} {numBoxes : Int}

theorem sealed_length (h : mailHdr.length.toNat ≤ maxMailSize) :
    (sealed hostName pktHdr mailHdr).length.toNat = sizeofMailHeader + mailHdr.length.toNat := by
  have hle : mailHdr.length.toNat ≤ 40 := h
  show (mailHdr.length + 12#32).toNat = 12 + mailHdr.length.toNat
  rw [BitVec.toNat_add]
  show (mailHdr.length.toNat + 12) % 4294967296 = _
  omega

theorem HoldsLetter.copy (h : HoldsLetter mailHdr data b) {dst : Bytes} {n : ℕ}
    (hn : sizeofMailHeader + mailHdr.length.toNat ≤ n) :
    HoldsLetter mailHdr data (bcopy b dst 0 n) where
  header i hi := by
    rw [bcopy_start (by omega)]
    exact h.header i hi
  data i hi := by
    rw [bcopy_start (by omega)]
    exact h.data i hi

theorem HoldsLetter.mailHdr_eq (h : HoldsLetter mailHdr data b) : MailHeader.ofBytes b = mailHdr :=
  MailHeader.ofBytes_of_eq h.header

theorem pack_cases {r : PacketHeader × Bytes}
    (h : PostOfficeOutput.pack hostName pktHdr mailHdr data buffer = .ok r) :
    mailHdr.length.toNat ≤ maxMailSize ∧ 0 ≤ mailHdr.dest.toInt ∧
      r.1 = sealed hostName pktHdr mailHdr ∧ HoldsLetter mailHdr data r.2 := by
  unfold PostOfficeOutput.pack at h
  split_ifs at h with hlen hdest
  cases h
  refine ⟨hlen, hdest, rfl, fun i hi => ?_, fun i hi => bcopy_inside hi⟩
  show bcopy data _ sizeofMailHeader mailHdr.length.toNat i = mailHdr.bytes i
  rw [bcopy_outside (.inl hi)]
  exact bcopy_start hi

theorem wire_cases {sendBusy lost : Bool} {r : Option Bytes}
    (h : NetworkOutput.wire hostName sendBusy hdr b buffer lost = .ok r) :
    sendBusy = false ∧ ∀ packet, r = some packet → HoldsLetter mailHdr data b →
      hdr.length.toNat = sizeofMailHeader + mailHdr.length.toNat →
      HoldsPacket hdr mailHdr data packet := by
  unfold NetworkOutput.wire at h
  split_ifs at h with hok hlost
  · cases h
    exact ⟨hok.1, fun _ hp => by cases hp⟩
  · cases h
    refine ⟨hok.1, fun packet hp hb hlen => ?_⟩
    cases hp
    constructor
    · intro i hi
      rw [bcopy_outside (.inl hi)]
      exact bcopy_start hi
    · constructor
      · intro i hi
        rw [shift, bcopy_inside (by omega)]
        exact hb.header i hi
      · intro i hi
        rw [shift, bcopy_inside (by omega)]
        exact hb.data i hi

theorem transmit_cases {sendBusy : Bool} {wire packet : Bytes} {lost : Bool}
    (h : transmit hostName sendBusy pktHdr mailHdr data buffer wire lost = .ok (some packet)) :
    mailHdr.length.toNat ≤ maxMailSize ∧ 0 ≤ mailHdr.dest.toInt ∧
      HoldsPacket (sealed hostName pktHdr mailHdr) mailHdr data packet := by
  unfold transmit at h
  cases hpack : PostOfficeOutput.pack hostName pktHdr mailHdr data buffer with
  | error e =>
    rw [hpack] at h
    cases h
  | ok r =>
    rw [hpack] at h
    obtain ⟨hlen, hdest, hr, hb⟩ := pack_cases hpack
    have hwire : NetworkOutput.wire hostName sendBusy r.1 r.2 wire lost = .ok (some packet) := h
    rw [hr] at hwire
    exact ⟨hlen, hdest, (wire_cases hwire).2 packet rfl hb (sealed_length hlen)⟩

theorem accept_eq {packet : Bytes} (hp : HoldsPacket hdr mailHdr data packet)
    (hlen : hdr.length.toNat = sizeofMailHeader + mailHdr.length.toNat)
    (hmax : mailHdr.length.toNat ≤ maxMailSize) (n : NetworkInput) :
    ∃ n', n.accept hdr.dest packet = .ok n' ∧ n'.inHdr = hdr ∧
      HoldsLetter mailHdr data n'.inbox := by
  have hhdr : PacketHeader.ofBytes packet = hdr := PacketHeader.ofBytes_of_eq hp.header
  have hle : hdr.length.toNat ≤ maxPacketSize := by
    rw [hlen]
    exact Nat.add_le_add_left hmax sizeofMailHeader
  unfold NetworkInput.accept
  rw [hhdr, if_pos ⟨rfl, hle⟩]
  exact ⟨_, rfl, rfl, hp.letter.copy (by omega)⟩

theorem receive_holds {n : NetworkInput} (hn : HoldsLetter mailHdr data n.inbox)
    (hlen : n.inHdr.length.toNat = sizeofMailHeader + mailHdr.length.toNat) (dst : Bytes) :
    HoldsLetter mailHdr data (n.receive dst).2.1 := by
  have hne : n.inHdr.length ≠ 0 := by
    intro hzero
    rw [hzero] at hlen
    have h0 : (0 : ℕ) = 12 + mailHdr.length.toNat := hlen
    omega
  show HoldsLetter mailHdr data (if n.inHdr.length ≠ 0 then _ else dst)
  rw [if_pos hne]
  exact hn.copy (by omega)

theorem sort_eq (hb : HoldsLetter mailHdr data b) (hmax : mailHdr.length.toNat ≤ maxMailSize)
    (hdest : 0 ≤ mailHdr.dest.toInt) (hdr : PacketHeader) (fresh : Bytes) :
    (mailHdr.dest.toInt < numBoxes → ∃ mail, PostOfficeInput.sort numBoxes hdr b fresh = .ok mail ∧
      mail.pktHdr = hdr ∧ mail.mailHdr = mailHdr ∧
      ∀ i < mailHdr.length.toNat, mail.data i = data i) ∧
    (¬mailHdr.dest.toInt < numBoxes →
      PostOfficeInput.sort numBoxes hdr b fresh = .error .deliveryTo) := by
  unfold PostOfficeInput.sort
  rw [hb.mailHdr_eq]
  constructor
  · intro hlt
    rw [if_neg (not_not.mpr ⟨hdest, hlt⟩), if_neg (not_not.mpr hmax), Mail.new, if_pos hmax]
    exact ⟨_, rfl, rfl, rfl, fun i hi => (bcopy_start hi).trans (hb.data i hi)⟩
  · intro hge
    exact if_pos fun hok => hge hok.2

theorem hand_ok {mail : Mail} {box : Int} (hbox : 0 ≤ box ∧ box < numBoxes)
    (hmax : mail.mailHdr.length.toNat ≤ maxMailSize) (d : Bytes) :
    PostOfficeInput.hand numBoxes box mail d = .ok (MailBox.unpack mail d) := by
  unfold PostOfficeInput.hand
  rw [if_neg (not_not.mpr hbox)]
  exact if_pos hmax

/-- A message that has been sent goes through if there is its mailbox, and else stops the
postal worker of the machine it comes to. -/
theorem arrive_eq {sendBusy lost : Bool} {wire packet : Bytes}
    (h : transmit hostName sendBusy pktHdr mailHdr data buffer wire lost = .ok (some packet))
    (numBoxes : Int) (n : NetworkInput) (b fresh d : Bytes) :
    (mailHdr.dest.toInt < numBoxes →
      ∃ r, arrive pktHdr.dest numBoxes n packet b fresh d = .ok r) ∧
    (¬mailHdr.dest.toInt < numBoxes →
      arrive pktHdr.dest numBoxes n packet b fresh d = .error .deliveryTo) := by
  obtain ⟨hmax, hdest, hpacket⟩ := transmit_cases h
  have hlen : (sealed hostName pktHdr mailHdr).length.toNat = _ := sealed_length hmax
  obtain ⟨n', haccept, hin, hletter⟩ := accept_eq hpacket hlen hmax n
  have haccept : n.accept pktHdr.dest packet = .ok n' := haccept
  have hb := receive_holds hletter (by rw [hin, hlen]) b
  have hsort := @sort_eq mailHdr data _ numBoxes hb hmax hdest n'.inHdr fresh
  constructor
  · intro hlt
    obtain ⟨mail, hmail, -, hmh, -⟩ := hsort.1 hlt
    refine ⟨MailBox.unpack mail d, ?_⟩
    have hhand : PostOfficeInput.hand numBoxes mail.mailHdr.dest.toInt mail d = .ok _ :=
      hand_ok (hmh ▸ ⟨hdest, hlt⟩) (hmh ▸ hmax) d
    unfold arrive
    rw [haccept]
    show (PostOfficeInput.sort numBoxes n'.inHdr (n'.receive b).2.1 fresh >>= _) = _
    rw [hmail]
    exact hhand
  · intro hge
    unfold arrive
    rw [haccept]
    show (PostOfficeInput.sort numBoxes n'.inHdr (n'.receive b).2.1 fresh >>= _) = _
    rw [hsort.2 hge]
    rfl

/-- A message that `Send` accepts passes all checks of the machine it is for exactly if its
mailbox is one of that machine's. -/
theorem accepted_message_passes_iff {sendBusy lost : Bool} {wire packet : Bytes}
    (h : transmit hostName sendBusy pktHdr mailHdr data buffer wire lost = .ok (some packet))
    (numBoxes : Int) (n : NetworkInput) (b fresh d : Bytes) :
    (∃ r, arrive pktHdr.dest numBoxes n packet b fresh d = .ok r) ↔
      mailHdr.dest.toInt < numBoxes := by
  have hcases := arrive_eq h numBoxes n b fresh d
  refine ⟨fun ⟨r, hr⟩ => ?_, hcases.1⟩
  by_contra hge
  rw [hcases.2 hge] at hr
  cases hr

/-- Machine 1 sends three bytes to mailbox 9 of machine 2, which has ten. -/
theorem accepted_message_passes_iff_last_box : ∃ packet,
    transmit 1 false ⟨2, 0, 0⟩ ⟨9, 0, 3⟩ (fun _ => 65) (fun _ => 0) (fun _ => 0) false =
      .ok (some packet) ∧
    ((∃ r, arrive 2 10 ⟨⟨0, 0, 0⟩, fun _ => 0⟩ packet (fun _ => 0) (fun _ => 0) (fun _ => 0) =
      .ok r) ↔ (9 : BitVec 32).toInt < 10) :=
  ⟨_, rfl, accepted_message_passes_iff (show transmit 1 false ⟨2, 0, 0⟩ ⟨9, 0, 3⟩ (fun _ => 65)
    (fun _ => 0) (fun _ => 0) false = .ok (some _) from rfl) 10 _ _ _ _⟩

/-- The same message to mailbox 10. -/
theorem missing_mailbox_stops_receiver : ∃ packet,
    transmit 1 false ⟨2, 0, 0⟩ ⟨10, 0, 3⟩ (fun _ => 65) (fun _ => 0) (fun _ => 0) false =
      .ok (some packet) ∧
    arrive 2 10 ⟨⟨0, 0, 0⟩, fun _ => 0⟩ packet (fun _ => 0) (fun _ => 0) (fun _ => 0) =
      .error .deliveryTo :=
  ⟨_, rfl, rfl⟩

end Nachos
