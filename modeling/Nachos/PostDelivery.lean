import Nachos.PostOffice

namespace Nachos
open GuardedRun Buffers

namespace PostOffice

/-- Transmission `k` is message `a`, from machine `src` to machine `h`. -/
structure IsSent (numBoxes : BitVec 32 → Int) (sent : List (BitVec 32 × Sending)) (h : BitVec 32)
    (k : ℕ) (src : BitVec 32) (a : Sending) : Prop where
  sent : sent[k]? = some (src, a)
  dest : a.pktHdr.dest = h
  legal : Legal numBoxes a

section letters
variable (numBoxes : BitVec 32 → Int) (sent : List (BitVec 32 × Sending)) (h : BitVec 32) (k : ℕ)

/-- A packet of transmission `k`. -/
def PacketAt (packet : Bytes) : Prop :=
  ∃ src a, IsSent numBoxes sent h k src a ∧
    HoldsPacket (sealed src a.pktHdr a.mailHdr) a.mailHdr a.data packet

def LetterAt (hdr : PacketHeader) (b : Bytes) : Prop :=
  ∃ src a, IsSent numBoxes sent h k src a ∧ hdr = sealed src a.pktHdr a.mailHdr ∧
    HoldsLetter a.mailHdr a.data b

/-- What is in `mailHdr` and `data`, from machine `src`, is its message for mailbox `box`. -/
def MessageAt (box : Int) (pktHdr : PacketHeader) (mailHdr : MailHeader) (data : Bytes) : Prop :=
  ∃ src a, IsSent numBoxes sent h k src a ∧ a.mailHdr.dest.toInt = box ∧ pktHdr.sender = src ∧
    mailHdr = a.mailHdr ∧ ∀ i < a.mailHdr.length.toNat, data i = a.data i

end letters

def boxOf (sent : List (BitVec 32 × Sending)) (k : ℕ) : Int :=
  (sent[k]?).elim 0 fun x => x.2.mailHdr.dest.toInt

variable {numBoxes : BitVec 32 → Int} {sent : List (BitVec 32 × Sending)} {h : BitVec 32} {k : ℕ}

theorem IsSent.lt {src : BitVec 32} {a : Sending} (hs : IsSent numBoxes sent h k src a) :
    k < sent.length := (List.getElem?_eq_some_iff.mp hs.sent).1

theorem IsSent.append {src : BitVec 32} {a : Sending} (hs : IsSent numBoxes sent h k src a)
    (more : List (BitVec 32 × Sending)) : IsSent numBoxes (sent ++ more) h k src a :=
  ⟨(List.getElem?_append_left hs.lt).trans hs.sent, hs.dest, hs.legal⟩

theorem PacketAt.append {packet : Bytes} (hp : PacketAt numBoxes sent h k packet)
    (more : List (BitVec 32 × Sending)) : PacketAt numBoxes (sent ++ more) h k packet := by
  obtain ⟨src, a, hs, hb⟩ := hp
  exact ⟨src, a, hs.append more, hb⟩

theorem LetterAt.append {hdr : PacketHeader} {b : Bytes} (hl : LetterAt numBoxes sent h k hdr b)
    (more : List (BitVec 32 × Sending)) : LetterAt numBoxes (sent ++ more) h k hdr b := by
  obtain ⟨src, a, hs, hb⟩ := hl
  exact ⟨src, a, hs.append more, hb⟩

theorem MessageAt.append {box : Int} {pktHdr : PacketHeader} {mailHdr : MailHeader} {data : Bytes}
    (hm : MessageAt numBoxes sent h k box pktHdr mailHdr data)
    (more : List (BitVec 32 × Sending)) :
    MessageAt numBoxes (sent ++ more) h k box pktHdr mailHdr data := by
  obtain ⟨src, a, hs, hb⟩ := hm
  exact ⟨src, a, hs.append more, hb⟩

theorem LetterAt.lt {hdr : PacketHeader} {b : Bytes} (hl : LetterAt numBoxes sent h k hdr b) :
    k < sent.length := by
  obtain ⟨src, a, hs, -⟩ := hl
  exact hs.lt

theorem MessageAt.lt {box : Int} {pktHdr : PacketHeader} {mailHdr : MailHeader} {data : Bytes}
    (hm : MessageAt numBoxes sent h k box pktHdr mailHdr data) : k < sent.length := by
  obtain ⟨src, a, hs, -⟩ := hm
  exact hs.lt

theorem boxOf_append (hk : k < sent.length) (more : List (BitVec 32 × Sending)) :
    boxOf (sent ++ more) k = boxOf sent k := by
  rw [boxOf, boxOf, List.getElem?_append_left hk]

theorem MessageAt.boxOf_eq {box : Int} {pktHdr : PacketHeader} {mailHdr : MailHeader}
    {data : Bytes} (hm : MessageAt numBoxes sent h k box pktHdr mailHdr data) :
    boxOf sent k = box := by
  obtain ⟨src, a, hs, hbox, -⟩ := hm
  rw [boxOf, hs.sent]
  exact hbox

theorem PacketAt.accept {packet : Bytes} (hp : PacketAt numBoxes sent h k packet)
    (n : NetworkInput) : ∃ n', n.accept h packet = .ok n' ∧
      LetterAt numBoxes sent h k n'.inHdr n'.inbox := by
  obtain ⟨src, a, hs, hb⟩ := hp
  obtain ⟨n', haccept, hin, hletter⟩ := accept_eq hb (sealed_length hs.legal.1) hs.legal.1 n
  have hdest : (sealed src a.pktHdr a.mailHdr).dest = h := hs.dest
  rw [hdest] at haccept
  exact ⟨n', haccept, src, a, hs, hin, hletter⟩

theorem LetterAt.length_ne_zero {hdr : PacketHeader} {b : Bytes}
    (hl : LetterAt numBoxes sent h k hdr b) : hdr.length ≠ 0 := by
  obtain ⟨src, a, hs, hhdr, -⟩ := hl
  intro hzero
  have hlen : (sealed src a.pktHdr a.mailHdr).length.toNat = _ := sealed_length hs.legal.1
  rw [← hhdr, hzero] at hlen
  have h0 : (0 : ℕ) = 12 + a.mailHdr.length.toNat := hlen
  omega

theorem LetterAt.receive {n : NetworkInput} (hl : LetterAt numBoxes sent h k n.inHdr n.inbox)
    (dst : Bytes) : LetterAt numBoxes sent h k (n.receive dst).1 (n.receive dst).2.1 := by
  obtain ⟨src, a, hs, hhdr, hletter⟩ := hl
  refine ⟨src, a, hs, hhdr, receive_holds hletter ?_ dst⟩
  rw [hhdr]
  exact sealed_length hs.legal.1

theorem LetterAt.sort {hdr : PacketHeader} {b : Bytes} (hl : LetterAt numBoxes sent h k hdr b)
    (fresh : Bytes) : ∃ mail, PostOfficeInput.sort (numBoxes h) hdr b fresh = .ok mail ∧
      MessageAt numBoxes sent h k mail.mailHdr.dest.toInt mail.pktHdr mail.mailHdr mail.data := by
  obtain ⟨src, a, hs, hhdr, hletter⟩ := hl
  have hlt : a.mailHdr.dest.toInt < numBoxes h := hs.dest ▸ hs.legal.2.2
  obtain ⟨mail, hmail, hpkt, hmh, hdata⟩ :=
    (sort_eq hletter hs.legal.1 hs.legal.2.1 hdr fresh).1 hlt
  refine ⟨mail, hmail, src, a, hs, by rw [hmh], ?_, hmh, hdata⟩
  rw [hpkt, hhdr]
  rfl

variable {τ : Type*} {x : Host τ} {socket : List (ℕ × Bytes)}

def Worker.inHand : Worker → List ℕ
  | .sort k _ | .put k _ false => [k]
  | _ => []

def Worker.isReceiving : Worker → Bool
  | .receive => true
  | _ => false

/-- The device is empty, or it holds a packet for which the worker has its token. -/
def DeviceOk (numBoxes : BitVec 32 → Int) (sent : List (BitVec 32 × Sending)) (h : BitVec 32)
    (x : Host τ) : Prop :=
  (x.held = none ∧ x.input.inHdr.length = 0 ∧ x.messageAvailable.value = 0 ∧
      x.worker.isReceiving = false) ∨
    ∃ k, x.held = some k ∧ LetterAt numBoxes sent h k x.input.inHdr x.input.inbox ∧
      x.messageAvailable.value = if x.worker.isReceiving then 0 else 1

structure Pipeline (numBoxes : BitVec 32 → Int) (sent : List (BitVec 32 × Sending))
    (socket : List (ℕ × Bytes)) (h : BitVec 32) (x : Host τ) : Prop where
  wire : ∀ q ∈ socket, PacketAt numBoxes sent h q.1 q.2
  order : (x.accepted ++ socket.map Prod.fst).Pairwise (· < ·)
  kept : x.accepted = x.delivered ++ x.worker.inHand ++ x.held.toList
  device : DeviceOk numBoxes sent h x
  sorting : ∀ k hdr, x.worker = .sort k hdr → LetterAt numBoxes sent h k hdr x.buffer

theorem Pipeline.append (hp : Pipeline numBoxes sent socket h x)
    (more : List (BitVec 32 × Sending)) : Pipeline numBoxes (sent ++ more) socket h x where
  wire q hq := (hp.wire q hq).append more
  order := hp.order
  kept := hp.kept
  device := hp.device.imp_right fun ⟨k, hk, hl, hv⟩ => ⟨k, hk, hl.append more, hv⟩
  sorting k hdr hw := (hp.sorting k hdr hw).append more

theorem Pipeline.send (hp : Pipeline numBoxes sent socket h x) {packet : Bytes}
    (hpacket : PacketAt numBoxes sent h k packet)
    (hk : ∀ j ∈ x.accepted ++ socket.map Prod.fst, j < k) :
    Pipeline numBoxes sent (socket ++ [(k, packet)]) h x where
  wire q hq := by
    rcases List.mem_append.mp hq with hold | hnew
    · exact hp.wire q hold
    · cases List.mem_singleton.mp hnew
      exact hpacket
  order := by
    rw [List.map_append, ← List.append_assoc]
    refine List.pairwise_append.mpr ⟨hp.order, List.pairwise_singleton _ _, fun j hj j' hj' => ?_⟩
    cases List.mem_singleton.mp hj'
    exact hk j hj
  kept := hp.kept
  device := hp.device
  sorting := hp.sorting

theorem Pipeline.lose (hp : Pipeline numBoxes sent socket h x) (i : ℕ) :
    Pipeline numBoxes sent (socket.eraseIdx i) h x where
  wire q hq := hp.wire q (List.mem_of_mem_eraseIdx hq)
  order := by
    refine hp.order.sublist ?_
    exact ((List.eraseIdx_sublist socket i).map Prod.fst).append_left x.accepted
  kept := hp.kept
  device := hp.device
  sorting := hp.sorting

theorem Pipeline.poll (hp : Pipeline numBoxes sent socket h x) (ready : Bool) :
    Pipeline numBoxes sent (x.poll h socket ready).2 h (x.poll h socket ready).1 ∧
      (x.poll h socket ready).1.fault = x.fault := by
  unfold Host.poll
  by_cases hfull : x.input.inHdr.length ≠ 0
  · rw [if_pos hfull]
    exact ⟨hp, rfl⟩
  · rw [if_neg hfull]
    by_cases hready : ready = false
    · rw [if_pos hready]
      exact ⟨hp, rfl⟩
    · rw [if_neg hready]
      cases socket with
      | nil => exact ⟨hp, rfl⟩
      | cons q rest =>
        obtain ⟨k, packet⟩ := q
        obtain ⟨input, haccept, hletter⟩ := (hp.wire (k, packet) List.mem_cons_self).accept x.input
        simp only [haccept]
        rcases hp.device with ⟨hheld, -, hvalue, hnot⟩ | ⟨k', -, hl, -⟩
        · refine ⟨⟨fun q hq => hp.wire q (List.mem_cons_of_mem _ hq), ?_, ?_, ?_, hp.sorting⟩,
            trivial⟩
          · have horder := hp.order
            rwa [List.map_cons, List.append_cons] at horder
          · have hkept := hp.kept
            rw [hheld, Option.toList_none, List.append_nil] at hkept
            show x.accepted ++ [k] = x.delivered ++ x.worker.inHand ++ [k]
            rw [hkept]
          · refine .inr ⟨k, rfl, hletter, ?_⟩
            show TwosComplement.wrap (x.messageAvailable.value + 1) =
              if x.worker.isReceiving then 0 else 1
            rw [hvalue, hnot]
            rfl
        · exact absurd hl.length_ne_zero hfull

theorem poll_eq (x : Host τ) (h : BitVec 32) (socket : List (ℕ × Bytes)) (ready : Bool) :
    ∃ input messageAvailable held accepted fault, (x.poll h socket ready).1 =
      { x with input := input, messageAvailable := messageAvailable, held := held,
               accepted := accepted, fault := fault } := by
  unfold Host.poll
  split_ifs
  · exact ⟨_, _, _, _, _, rfl⟩
  · exact ⟨_, _, _, _, _, rfl⟩
  · split
    · exact ⟨_, _, _, _, _, rfl⟩
    · split <;> exact ⟨_, _, _, _, _, rfl⟩

open SynchList (Progress)

def Worker.progress (w : Worker) (b : Int) : Progress ℕ :=
  match w with
  | .put k box done => if b = box then if done then .added else .adding k else .out
  | _ => .out

def ThreadAt (p : Pc) (b : Int) (g : Progress ℕ) : Prop :=
  match p with
  | .get box _ _ => if b = box then g = .removing ∨ ∃ k, g = .removed k else g = .out
  | _ => g = .out

def MailAt (numBoxes : BitVec 32 → Int) (sent : List (BitVec 32 × Sending)) (h : BitVec 32) (k : ℕ)
    (mail : Mail) : Prop :=
  MessageAt numBoxes sent h k (boxOf sent k) mail.pktHdr mail.mailHdr mail.data

theorem MailAt.append {mail : Mail} (hm : MailAt numBoxes sent h k mail)
    (more : List (BitVec 32 × Sending)) : MailAt numBoxes (sent ++ more) h k mail := by
  unfold MailAt
  rw [boxOf_append (MessageAt.lt hm)]
  exact MessageAt.append hm more

/-- The mailboxes have the letters that were delivered, each those for it, and every `Mail` is
the message of its number. -/
structure BoxesOk (numBoxes : BitVec 32 → Int) (sent : List (BitVec 32 × Sending)) (h : BitVec 32)
    (x : Host τ) : Prop where
  lists : ∀ b, SynchList.Inv (x.boxes b)
  worker : ∀ b, ((x.boxes b).pc none).progress = x.worker.progress b
  thread : ∀ t b, ThreadAt (x.pc t) b ((x.boxes b).pc (some t)).progress
  appended : ∀ b, (x.boxes b).appended = x.delivered.filter fun k => boxOf sent k = b
  mails : ∀ k ∈ x.delivered, MailAt numBoxes sent h k (x.mails k)
  putting : ∀ k b, x.worker = .put k b false → boxOf sent k = b ∧
    MailAt numBoxes sent h k (x.mails k)

theorem BoxesOk.append (hb : BoxesOk numBoxes sent h x) (more : List (BitVec 32 × Sending)) :
    BoxesOk numBoxes (sent ++ more) h x where
  lists := hb.lists
  worker := hb.worker
  thread := hb.thread
  appended b := by
    rw [hb.appended b]
    refine List.filter_congr fun k hk => ?_
    rw [boxOf_append (MessageAt.lt (hb.mails k hk))]
  mails k hk := (hb.mails k hk).append more
  putting k b hw := by
    obtain ⟨hbox, hmail⟩ := hb.putting k b hw
    refine ⟨?_, hmail.append more⟩
    rwa [boxOf_append (MessageAt.lt hmail)]

theorem accepted_lt (hp : Pipeline numBoxes sent socket h x) (hb : BoxesOk numBoxes sent h x) :
    ∀ k ∈ x.accepted ++ socket.map Prod.fst, k < sent.length := by
  intro k hk
  rcases List.mem_append.mp hk with hacc | hsock
  · rw [hp.kept, List.append_assoc] at hacc
    rcases List.mem_append.mp hacc with hdel | hrest
    · exact MessageAt.lt (hb.mails k hdel)
    · rcases List.mem_append.mp hrest with hhand | hheld
      · cases hw : x.worker with
        | wait | receive =>
          rw [hw] at hhand
          cases hhand
        | sort k' hdr =>
          rw [hw] at hhand
          cases List.mem_singleton.mp hhand
          exact (hp.sorting k hdr hw).lt
        | put k' b done =>
          cases done with
          | true =>
            rw [hw] at hhand
            cases hhand
          | false =>
            rw [hw] at hhand
            cases List.mem_singleton.mp hhand
            exact MessageAt.lt (hb.putting k b hw).2
      · rcases hp.device with ⟨hnone, -⟩ | ⟨k', hk', hl, -⟩
        · rw [hnone] at hheld
          cases hheld
        · rw [hk'] at hheld
          cases List.mem_singleton.mp hheld
          exact hl.lt
  · obtain ⟨q, hq, rfl⟩ := List.mem_map.mp hsock
    obtain ⟨src, a, hs, -⟩ := hp.wire q hq
    exact hs.lt

/-- Where all else is as it was, the worker may go on with the same letters. -/
theorem Pipeline.frame (hp : Pipeline numBoxes sent socket h x) {x' : Host τ}
    (hdevice : (x'.accepted, x'.held, x'.input, x'.messageAvailable) =
      (x.accepted, x.held, x.input, x.messageAvailable))
    (hline : x'.delivered ++ x'.worker.inHand = x.delivered ++ x.worker.inHand)
    (hreceiving : x'.worker.isReceiving = x.worker.isReceiving)
    (hsorting : ∀ k hdr, x'.worker = .sort k hdr → x.worker = .sort k hdr ∧ x'.buffer = x.buffer) :
    Pipeline numBoxes sent socket h x' := by
  simp only [Prod.mk.injEq] at hdevice
  obtain ⟨hacc, hheld, hin, hsem⟩ := hdevice
  refine ⟨hp.wire, ?_, ?_, ?_, fun k hdr hw => ?_⟩
  · rw [hacc]
    exact hp.order
  · rw [hacc, hheld, hline]
    exact hp.kept
  · unfold DeviceOk
    rw [hheld, hin, hsem, hreceiving]
    exact hp.device
  · obtain ⟨hold, hbuf⟩ := hsorting k hdr hw
    rw [hbuf]
    exact hp.sorting k hdr hold

theorem Pipeline.not_delivered (hp : Pipeline numBoxes sent socket h x)
    (hk : k ∈ x.worker.inHand) : k ∉ x.delivered := by
  intro hdel
  have horder := (List.pairwise_append.mp hp.order).1
  rw [hp.kept, List.append_assoc] at horder
  have hlt := (List.pairwise_append.mp horder).2.2 k hdel k (List.mem_append_left _ hk)
  exact lt_irrefl k hlt

variable {b' : SynchList.System (Option τ) ℕ}

theorem setBox_running (hrun : x.aborted = false) (hinv : SynchList.Inv b') :
    (x.aborted || SynchList.halted b') = false := by
  rw [hrun, hinv.not_halted]
  rfl

theorem forall_setBox {P : Int → SynchList.System (Option τ) ℕ → Prop} {box : Int}
    (hself : P box b') (hother : ∀ b ≠ box, P b (x.boxes b)) :
    ∀ b, P b ((x.setBox box b').boxes b) :=
  (Function.forall_update_iff _ P).mpr ⟨hself, hother⟩

/-- The worker calls `messages->Append`. -/
theorem BoxesOk.sort [DecidableEq τ] (hb : BoxesOk numBoxes sent h x) {hdr : PacketHeader}
    {mail : Mail} {box : Int} (hw : x.worker = .sort k hdr) (hnew : k ∉ x.delivered)
    (hmail : MessageAt numBoxes sent h k box mail.pktHdr mail.mailHdr mail.data)
    (hs : SynchList.step (x.boxes box) (.append none k) = some b') :
    BoxesOk numBoxes sent h
      { x.setBox box b' with mails := Function.update x.mails k mail, worker := .put k box false } ∧
      SynchList.After (x.boxes box) none b' ∧ b'.removed = (x.boxes box).removed := by
  obtain ⟨hafter, hprogress, happended, hremoved⟩ := SynchList.append_spec (hb.lists box) hs
  refine ⟨⟨?_, ?_, fun t => ?_, ?_, fun j hj => ?_, fun j b hput => ?_⟩, hafter, hremoved⟩
  · exact forall_setBox (P := fun _ => SynchList.Inv) hafter.inv fun b _ => hb.lists b
  · refine forall_setBox
      (P := fun b s => (s.pc none).progress = (Worker.put k box false).progress b)
      (hprogress.trans (if_pos rfl).symm) fun b hne => ?_
    have hout := hb.worker b
    rw [hw] at hout
    exact hout.trans (if_neg hne).symm
  · refine forall_setBox (P := fun b s => ThreadAt (x.pc t) b (s.pc (some t)).progress) ?_
      fun b _ => hb.thread t b
    rw [hafter.others (some t) (by simp)]
    exact hb.thread t box
  · exact forall_setBox (P := fun b s => s.appended = x.delivered.filter fun k => boxOf sent k = b)
      (happended.trans (hb.appended box)) fun b _ => hb.appended b
  · have hne : j ≠ k := fun heq => hnew (heq ▸ hj)
    show MailAt numBoxes sent h j (Function.update x.mails k mail j)
    rw [Function.update_of_ne hne]
    exact hb.mails j hj
  · have hput : Worker.put k box false = .put j b false := hput
    cases hput
    refine ⟨hmail.boxOf_eq, ?_⟩
    show MailAt numBoxes sent h k (Function.update x.mails k mail k)
    rw [Function.update_self, MailAt, hmail.boxOf_eq]
    exact hmail

/-- The worker does a statement of `messages->Append`, after which the letters `new` are in the
mailbox. -/
theorem BoxesOk.place (hb : BoxesOk numBoxes sent h x) {box : Int} {w : Worker} {new : List ℕ}
    (hafter : SynchList.After (x.boxes box) none b')
    (hprogress : (b'.pc none).progress = w.progress box)
    (hothers : ∀ b ≠ box, x.worker.progress b = w.progress b)
    (happended : b'.appended = (x.boxes box).appended ++ new)
    (hnew : ∀ j ∈ new, boxOf sent j = box ∧ MailAt numBoxes sent h j (x.mails j))
    (hput : ∀ k b, w = .put k b false → x.worker = .put k b false) :
    BoxesOk numBoxes sent h
      { x.setBox box b' with worker := w, delivered := x.delivered ++ new } := by
  refine ⟨?_, ?_, fun t => ?_, ?_, fun j hj => ?_, fun j b hw => hb.putting j b (hput j b hw)⟩
  · exact forall_setBox (P := fun _ => SynchList.Inv) hafter.inv fun b _ => hb.lists b
  · exact forall_setBox (P := fun b s => (s.pc none).progress = w.progress b) hprogress
      fun b hne => (hb.worker b).trans (hothers b hne)
  · refine forall_setBox (P := fun b s => ThreadAt (x.pc t) b (s.pc (some t)).progress) ?_
      fun b _ => hb.thread t b
    rw [hafter.others (some t) (by simp)]
    exact hb.thread t box
  · refine forall_setBox
      (P := fun b s => s.appended = (x.delivered ++ new).filter fun k => boxOf sent k = b) ?_
      fun b hne => ?_
    · rw [happended, hb.appended box, List.filter_append]
      congr 1
      exact (List.filter_eq_self.mpr fun j hj => decide_eq_true (hnew j hj).1).symm
    · rw [hb.appended b, List.filter_append]
      have hnone : (new.filter fun j => boxOf sent j = b) = [] := by
        refine List.filter_eq_nil_iff.mpr fun j hj => ?_
        rw [(hnew j hj).1, decide_eq_true_eq]
        exact hne.symm
      rw [hnone, List.append_nil]
  · rcases List.mem_append.mp hj with hold | hj
    · exact hb.mails j hold
    · exact (hnew j hj).2

theorem putBox_eq {box : Int} {done : Bool} {g : Progress ℕ} {new : List ℕ}
    (hprogress : (b'.pc none).progress = g)
    (happended : b'.appended = (x.boxes box).appended ++ new) :
    x.putBox k box done b' = { x.setBox box b' with
      worker := if g = .out then .wait else .put k box (done || g = .added)
      delivered := x.delivered ++ new } := by
  unfold Host.putBox
  rw [hprogress, happended, List.drop_left]

theorem put_ok [DecidableEq τ] (hp : Pipeline numBoxes sent socket h x)
    (hb : BoxesOk numBoxes sent h x) {box : Int} {done : Bool} (hw : x.worker = .put k box done)
    (hs : SynchList.step (x.boxes box) (.run none) = some b') :
    Pipeline numBoxes sent socket h (x.putBox k box done b') ∧
      BoxesOk numBoxes sent h (x.putBox k box done b') ∧
      SynchList.After (x.boxes box) none b' ∧ b'.removed = (x.boxes box).removed := by
  have hstart : ((x.boxes box).pc none).progress = if done then .added else .adding k := by
    rw [hb.worker box, hw]
    exact if_pos rfl
  have hothers : ∀ b ≠ box, x.worker.progress b = .out := by
    intro b hne
    rw [hw]
    exact if_neg hne
  -- the letter in hand is in no mailbox yet, so the `ASSERT` of `Append` holds
  have hfresh : ∀ j, ((x.boxes box).pc none).progress = .adding j → j ∉ (x.boxes box).list := by
    intro j hj hmem
    rw [hstart] at hj
    cases done with
    | true => cases hj
    | false =>
      cases hj
      have hin : k ∈ (x.boxes box).appended := by
        rw [(hb.lists box).fifo]
        exact List.mem_append_right _ hmem
      rw [hb.appended box] at hin
      refine hp.not_delivered ?_ (List.mem_of_mem_filter hin)
      rw [hw]
      exact List.mem_singleton_self k
  obtain ⟨hafter, heffect⟩ := SynchList.run_spec (hb.lists box) hfresh hs
  -- the statement is inside `messages->Append`, puts the letter on the list, or returns
  cases heffect with
  | same hsame happ hrem =>
    have happ : b'.appended = (x.boxes box).appended ++ [] := happ.trans (List.append_nil _).symm
    have hx : x.putBox k box done b' = _ := putBox_eq (hsame.trans hstart) happ
    have hworker : (if (if done then Progress.added else .adding k) = .out then Worker.wait
        else .put k box (done || decide ((if done then Progress.added else .adding k) = .added))) =
        .put k box done := by cases done <;> rfl
    rw [hworker] at hx
    rw [hx]
    refine ⟨hp.frame rfl ?_ ?_ (fun _ _ he => by cases he), ?_, hafter, hrem⟩
    · rw [hw, List.append_nil]
    · rw [hw]
    · refine hb.place hafter ?_ (fun b hne => ?_) happ (fun j hj => by cases hj) fun j b he => ?_
      · exact (hsame.trans hstart).trans (if_pos rfl).symm
      · rw [hw]
      · exact hw.trans he
  | append item hitem hadded happ hrem =>
    rw [hstart] at hitem
    cases done with
    | true => cases hitem
    | false =>
      cases hitem
      have hx : x.putBox k box false b' = _ := putBox_eq hadded happ
      rw [hx]
      refine ⟨hp.frame rfl ?_ ?_ (fun _ _ he => by cases he), ?_, hafter, hrem⟩
      · rw [hw]
        exact List.append_nil _
      · rw [hw]
        rfl
      · refine hb.place hafter ?_ (fun b hne => ?_) happ (fun j hj => ?_) fun j b he => by cases he
        · exact hadded.trans (if_pos rfl).symm
        · exact (hothers b hne).trans (if_neg hne).symm
        · cases List.mem_singleton.mp hj
          exact hb.putting k box hw
  | remove item hitem _ _ _ =>
    rw [hstart] at hitem
    cases done <;> cases hitem
  | ended hend hout happ hrem =>
    have hdone : done = true := by
      rw [hstart] at hend
      cases done with
      | true => rfl
      | false => rcases hend with hend | ⟨_, hend⟩ <;> cases hend
    cases hdone
    have happ : b'.appended = (x.boxes box).appended ++ [] := happ.trans (List.append_nil _).symm
    have hx : x.putBox k box true b' = _ := putBox_eq hout happ
    rw [hx]
    refine ⟨hp.frame rfl ?_ ?_ (fun _ _ he => by cases he), ?_, hafter, hrem⟩
    · rw [hw, List.append_nil]
      rfl
    · rw [hw]
      rfl
    · exact hb.place hafter hout hothers happ (fun j hj => by cases hj) fun j b he => by cases he

theorem wait_ok (hp : Pipeline numBoxes sent socket h x) (hb : BoxesOk numBoxes sent h x)
    (hw : x.worker = .wait) {m : Semaphore (Option τ)} {w : Worker}
    (hm : m = (x.messageAvailable.P none).1)
    (hw' : w = if (x.messageAvailable.P none).2 then .receive else .wait) :
    Pipeline numBoxes sent socket h { x with messageAvailable := m, worker := w } ∧
      BoxesOk numBoxes sent h { x with messageAvailable := m, worker := w } := by
  have hworker : w = .receive ∨ w = .wait := by
    rw [hw']
    split_ifs <;> simp
  have hkept := hp.kept
  rw [hw] at hkept
  constructor
  · refine ⟨hp.wire, hp.order, ?_, ?_, fun k hdr he => ?_⟩
    · rcases hworker with rfl | rfl <;> exact hkept
    · rcases hp.device with ⟨hheld, hlen, hvalue, -⟩ | ⟨k, hheld, hletter, hvalue⟩
      · rw [Semaphore.P_of_zero hvalue] at hm hw'
        cases hm
        cases hw'
        exact .inl ⟨hheld, hlen, hvalue, rfl⟩
      · rw [hw] at hvalue
        have hvalue : x.messageAvailable.value = 1 := hvalue
        rw [Semaphore.P_of_ne_zero (by omega)] at hm hw'
        cases hm
        cases hw'
        refine .inr ⟨k, hheld, hletter, ?_⟩
        show TwosComplement.wrap (x.messageAvailable.value - 1) = 0
        rw [hvalue]
        rfl
    · rcases hworker with rfl | rfl <;> cases he
  · refine ⟨hb.lists, fun b => ?_, hb.thread, hb.appended, hb.mails, fun k b he => ?_⟩
    · rw [hb.worker b, hw]
      rcases hworker with rfl | rfl <;> rfl
    · rcases hworker with rfl | rfl <;> cases he

theorem receive_ok (hp : Pipeline numBoxes sent socket h x) (hb : BoxesOk numBoxes sent h x)
    (hw : x.worker = .receive) :
    Pipeline numBoxes sent socket h { x with
      input := (x.input.receive x.buffer).2.2, buffer := (x.input.receive x.buffer).2.1,
      worker := .sort (x.held.getD 0) (x.input.receive x.buffer).1, held := none } ∧
    BoxesOk numBoxes sent h { x with
      input := (x.input.receive x.buffer).2.2, buffer := (x.input.receive x.buffer).2.1,
      worker := .sort (x.held.getD 0) (x.input.receive x.buffer).1, held := none } := by
  rcases hp.device with ⟨-, -, -, hnot⟩ | ⟨k, hheld, hletter, hvalue⟩
  · rw [hw] at hnot
    cases hnot
  · rw [hw] at hvalue
    rw [hheld]
    constructor
    · refine ⟨hp.wire, hp.order, ?_, .inl ⟨rfl, rfl, hvalue, rfl⟩, fun j hdr he => ?_⟩
      · have hkept := hp.kept
        rw [hw, hheld] at hkept
        show x.accepted = x.delivered ++ [k] ++ []
        rw [hkept, List.append_nil]
        exact congrArg (· ++ [k]) (List.append_nil _)
      · have he : Worker.sort k _ = .sort j hdr := he
        cases he
        exact hletter.receive x.buffer
    · refine ⟨hb.lists, fun b => ?_, hb.thread, hb.appended, hb.mails, fun j b he => by cases he⟩
      rw [hb.worker b, hw]
      rfl

end PostOffice
end Nachos
