import Nachos.SynchList
import Nachos.Devices

namespace Nachos
open GuardedRun Buffers

namespace PostOffice

inductive Worker where
  /-- At `messageAvailable->P()`, asleep if the queue has it. -/
  | wait
  /-- At `network->Receive(buffer)`. -/
  | receive
  /-- Between that and the call of `messages->Append`. -/
  | sort (k : ℕ) (pktHdr : PacketHeader)
  /-- In that call; the flag tells that the letter is in the mailbox. -/
  | put (k : ℕ) (box : Int) (done : Bool)

/-- The statement of `PostOfficeInput::Receive` a thread is at; `called` is the number of calls
that had returned when this one was made. -/
inductive Pc where
  | out
  /-- In `messages->RemoveFront()`. -/
  | get (box : Int) (data : Bytes) (called : ℕ)
  /-- Back from it with a letter. -/
  | copy (box : Int) (k : ℕ) (data : Bytes) (called : ℕ)

/-- A call of `Receive` that has returned, with the letter it has found. -/
structure Received where
  box : Int
  called : ℕ
  k : ℕ
  pktHdr : PacketHeader
  mailHdr : MailHeader
  data : Bytes

/-- The post office of one machine; the postal worker is the thread `none`.  `boxes` and `mails`
are the mailboxes and the `Mail` objects.  The fields from `held` on are history: the packet
in the network device, the packets that have come into it, those that have come into a
mailbox, and the calls of `Receive` that have returned. -/
structure Host (τ : Type*) where
  output : Driver.System τ NetworkRequest NetworkOutput Unit MailFault
  input : NetworkInput
  messageAvailable : Semaphore (Option τ)
  worker : Worker
  buffer : Bytes
  boxes : Int → SynchList.System (Option τ) ℕ
  mails : ℕ → Mail
  pc : τ → Pc
  fault : Option MailFault
  aborted : Bool
  held : Option ℕ
  accepted : List ℕ
  delivered : List ℕ
  received : List Received

/-- All machines, by their addresses; `socket` has the packets that are on their way to each,
and `sent` all transmissions with the machine each comes from.  A transmission is known by its
number in this list, which the packets carry along; a `Mail` object has that of the letter it was
made from for its address. -/
structure System (τ : Type*) where
  host : BitVec 32 → Host τ
  socket : BitVec 32 → List (ℕ × Bytes)
  sent : List (BitVec 32 × Sending)

variable {τ : Type*}

namespace Host

def halted (x : Host τ) : Bool := x.fault.isSome || x.aborted || Driver.halted x.output

def isOut (x : Host τ) (t : τ) : Bool :=
  match x.pc t with
  | .out => Driver.isOut x.output t
  | _ => false

/-- `NetworkInput::CallBack`: what it leaves of the packets on their way. -/
def poll (hostName : BitVec 32) (x : Host τ) (socket : List (ℕ × Bytes)) (ready : Bool) :
    Host τ × List (ℕ × Bytes) :=
  if x.input.inHdr.length ≠ 0 then (x, socket)
  else if ready = false then (x, socket)
  else
    match socket with
    | [] => (x, [])
    | (k, packet) :: rest =>
      match x.input.accept hostName packet with
      | .error e => ({ x with fault := some e }, rest)
      | .ok input =>
        ({ x with
            input := input
            messageAvailable := x.messageAvailable.V.1
            held := some k
            accepted := x.accepted ++ [k] }, rest)

section steps
variable [DecidableEq τ]

def setBox (x : Host τ) (box : Int) (b : SynchList.System (Option τ) ℕ) : Host τ :=
  { x with boxes := Function.update x.boxes box b, aborted := x.aborted || SynchList.halted b }

def goto (x : Host τ) (t : τ) (p : Pc) : Host τ := { x with pc := Function.update x.pc t p }

def record (x : Host τ) (r : Received) : Host τ := { x with received := x.received ++ [r] }

/-- A statement of `messages->Append` by the worker, and the loop of `PostalDelivery` again
when it has returned. -/
def putBox (x : Host τ) (k : ℕ) (box : Int) (done : Bool) (b : SynchList.System (Option τ) ℕ) :
    Host τ :=
  { x.setBox box b with
    worker := if (b.pc none).progress = .out then .wait
      else .put k box (done || (b.pc none).progress = .added)
    delivered := x.delivered ++ b.appended.drop (x.boxes box).appended.length }

/-- The postal worker; `fresh` is the memory of a new `Mail`. -/
def runWorker (numBoxes : Int) (fresh : Bytes) (x : Host τ) : Option (Host τ) :=
  match x.worker with
  | .wait =>
    if none ∈ x.messageAvailable.queue then none
    else
      let p := x.messageAvailable.P none
      some { x with messageAvailable := p.1, worker := if p.2 then .receive else .wait }
  | .receive =>
    let r := x.input.receive x.buffer
    some { x with
      input := r.2.2
      buffer := r.2.1
      worker := .sort (x.held.getD 0) r.1
      held := none }
  | .sort k pktHdr =>
    match PostOfficeInput.sort numBoxes pktHdr x.buffer fresh with
    | .error e => some { x with fault := some e }
    | .ok mail =>
      let box := mail.mailHdr.dest.toInt
      (SynchList.step (x.boxes box) (.append none k)).map fun b =>
        { x.setBox box b with mails := Function.update x.mails k mail, worker := .put k box false }
  | .put k box done => (SynchList.step (x.boxes box) (.run none)).map (x.putBox k box done)

def callReceive (numBoxes : Int) (x : Host τ) (t : τ) (box : Int) (data : Bytes) :
    Option (Host τ) :=
  if x.isOut t then
    if ¬(box ≥ 0 ∧ box < numBoxes) then some { x with fault := some .receiveBox }
    else
      (SynchList.step (x.boxes box) (.removeFront (some t))).map fun b =>
        (x.setBox box b).goto t (.get box data x.received.length)
  else none

def returnedItem (b b' : SynchList.System (Option τ) ℕ) (t : τ) : Option ℕ :=
  match (b.pc (some t)).progress, (b'.pc (some t)).progress with
  | .removed k, .out => some k
  | _, _ => none

/-- The statements of `Receive` after its call, and its return. -/
def runReceive (x : Host τ) (t : τ) : Option (Host τ) :=
  match x.pc t with
  | .out => none
  | .get box data called =>
    (SynchList.step (x.boxes box) (.run (some t))).map fun b =>
      match returnedItem (x.boxes box) b t with
      | some k => (x.setBox box b).goto t (.copy box k data called)
      | none => x.setBox box b
  | .copy box k data called =>
    let r := MailBox.unpack (x.mails k) data
    if r.2.1.length.toNat ≤ maxMailSize then
      some ((x.record (Received.mk box called k r.1 r.2.1 r.2.2)).goto t .out)
    else some { x with fault := some .receiveLength }

/-- A thread calls `Send` only when it is in no other call. -/
def runOutput (hostName : BitVec 32) (x : Host τ) (a : Driver.Act τ Sending) : Option (Host τ) :=
  let free := match a with
    | .call t _ => x.isOut t
    | _ => true
  if free then
    (Driver.step (PostOfficeOutput.driver hostName) x.output a).map ({ x with output := · })
  else none

end steps

end Host

namespace System

section steps
variable [DecidableEq τ]

def setHost (s : System τ) (h : BitVec 32) (x : Host τ) : System τ :=
  { s with host := Function.update s.host h x }

def setSocket (s : System τ) (h : BitVec 32) (packets : List (ℕ × Bytes)) : System τ :=
  { s with socket := Function.update s.socket h packets }

def transmit (h : BitVec 32) (s : System τ) (t : Transmission) : System τ :=
  let s' := { s with sent := s.sent ++ [(h, t.sending)] }
  match t.packet with
  | none => s'
  | some packet =>
    s'.setSocket t.sending.pktHdr.dest
      (s.socket t.sending.pktHdr.dest ++ [(s.sent.length, packet)])

end steps
end System

/-- `lose` is a packet that the network loses on its way to a machine. -/
inductive Act (τ : Type*) where
  | output (h : BitVec 32) (a : Driver.Act τ Sending)
  | poll (h : BitVec 32) (ready : Bool)
  | worker (h : BitVec 32) (fresh : Bytes)
  | receive (h : BitVec 32) (t : τ) (box : Int) (data : Bytes)
  | run (h : BitVec 32) (t : τ)
  | lose (h : BitVec 32) (i : ℕ)

def Act.host : Act τ → BitVec 32
  | .output h _ | .poll h _ | .worker h _ | .receive h _ _ _ | .run h _ | .lose h _ => h

/-- The memory that nothing has written yet is arbitrary. -/
def Host.start (buffer inbox : Bytes) (mail : Mail) : Host τ where
  output := Driver.start ⟨false, []⟩
  input := ⟨⟨0, 0, 0⟩, inbox⟩
  messageAvailable := .new 0
  worker := .wait
  buffer := buffer
  boxes _ := SynchList.start
  mails _ := mail
  pc _ := .out
  fault := none
  aborted := false
  held := none
  accepted := []
  delivered := []
  received := []

def start (buffer inbox : BitVec 32 → Bytes) (mail : BitVec 32 → Mail) : System τ where
  host h := .start (buffer h) (inbox h) (mail h)
  socket _ := []
  sent := []

variable [DecidableEq τ]

def newlySent (x x' : Host τ) : List Transmission :=
  x'.output.device.sent.drop x.output.device.sent.length

def step (numBoxes : BitVec 32 → Int) (s : System τ) (a : Act τ) : Option (System τ) :=
  let x := s.host a.host
  if x.halted then none
  else
    match a with
    | .output h a =>
      (x.runOutput h a).map fun x' => (newlySent x x').foldl (System.transmit h) (s.setHost h x')
    | .poll h ready =>
      let r := x.poll h (s.socket h) ready
      some ((s.setHost h r.1).setSocket h r.2)
    | .worker h fresh => (x.runWorker (numBoxes h) fresh).map (s.setHost h)
    | .receive h t box data => (x.callReceive (numBoxes h) t box data).map (s.setHost h)
    | .run h t => (x.runReceive t).map (s.setHost h)
    | .lose h i => some (s.setSocket h ((s.socket h).eraseIdx i))

/-- A message that fits and is for a mailbox the receiving machine has. -/
def Legal (numBoxes : BitVec 32 → Int) (a : Sending) : Prop :=
  a.mailHdr.length.toNat ≤ maxMailSize ∧ 0 ≤ a.mailHdr.dest.toInt ∧
    a.mailHdr.dest.toInt < numBoxes a.pktHdr.dest

instance (numBoxes : BitVec 32 → Int) (a : Sending) : Decidable (Legal numBoxes a) :=
  inferInstanceAs (Decidable (_ ∧ _))

/-- Only such messages are sent. -/
def Allowed (numBoxes : BitVec 32 → Int) (_ : System τ) : Act τ → Prop
  | .output _ (.call _ a) => Legal numBoxes a
  | _ => True

instance (numBoxes : BitVec 32 → Int) (s : System τ) :
    (a : Act τ) → Decidable (Allowed numBoxes s a)
  | .output _ (.call _ a) => inferInstanceAs (Decidable (Legal numBoxes a))
  | .output _ (.run _) | .output _ (.interrupt _) | .poll _ _ | .worker _ _ | .receive _ _ _ _
  | .run _ _ | .lose _ _ => .isTrue trivial

end PostOffice
end Nachos
