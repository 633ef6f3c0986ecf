import Nachos.Driver
import Nachos.Packets

namespace Nachos
open GuardedRun Buffers

def sectorSize : ℕ := 128
def sectorsPerTrack : ℕ := 32
def numTracks : ℕ := 32
def numSectors : ℕ := sectorsPerTrack * numTracks
def magicSize : ℕ := 4

/-- The UNIX file of the disk, and whether a request is under way. -/
structure Disk where
  file : Bytes
  active : Bool

inductive DiskRequest where
  | read (sectorNumber : Int) (data : Bytes)
  | write (sectorNumber : Int) (data : Bytes)

inductive DiskFault where
  | active
  | sectorNumber
  deriving DecidableEq, Repr

namespace Disk

def offset (sectorNumber : Int) : ℕ := sectorSize * sectorNumber.toNat + magicSize

def validSector (sectorNumber : Int) : Prop := 0 ≤ sectorNumber ∧ sectorNumber < numSectors

instance (sectorNumber : Int) : Decidable (validSector sectorNumber) :=
  inferInstanceAs (Decidable (_ ∧ _))

/-- The buffer `data` as it is after the request. -/
def readRequest (d : Disk) (sectorNumber : Int) (data : Bytes) :
    Except DiskFault (Disk × Bytes) :=
  if d.active then .error .active
  else if ¬validSector sectorNumber then .error .sectorNumber
  else .ok ({ d with active := true },
    bcopy (shift d.file (offset sectorNumber)) data 0 sectorSize)

def writeRequest (d : Disk) (sectorNumber : Int) (data : Bytes) :
    Except DiskFault (Disk × Bytes) :=
  if d.active then .error .active
  else if ¬validSector sectorNumber then .error .sectorNumber
  else .ok ({ file := bcopy data d.file (offset sectorNumber) sectorSize, active := true }, data)

def callBack (d : Disk) : Disk := { d with active := false }

end Disk

namespace SynchDisk

def driver : Driver DiskRequest DiskRequest Disk Bytes DiskFault where
  prepare := .ok
  request d
    | .read sectorNumber data => d.readRequest sectorNumber data
    | .write sectorNumber data => d.writeRequest sectorNumber data
  callBack := Disk.callBack

/-- What a request leaves in the file. -/
def applyRequest (file : Bytes) : DiskRequest → Bytes
  | .read _ _ => file
  | .write n data => if Disk.validSector n then bcopy data file (Disk.offset n) sectorSize else file

theorem request_file {d d' : Disk} {r : DiskRequest} {w : Bytes}
    (h : driver.request d r = .ok (d', w)) : d'.file = applyRequest d.file r := by
  cases r with
  | read n data =>
    have h : d.readRequest n data = .ok (d', w) := h
    unfold Disk.readRequest at h
    split_ifs at h
    cases h
    rfl
  | write n data =>
    have h : d.writeRequest n data = .ok (d', w) := h
    unfold Disk.writeRequest at h
    split_ifs at h with ha hv
    cases h
    exact (if_pos hv).symm

theorem request_idle {d : Disk} {r : DiskRequest} {e : DiskFault} (hd : d.active = false)
    (h : driver.request d r = .error e) : e ≠ .active := by
  have hidle : ¬d.active := by simp [hd]
  cases r with
  | read n data =>
    have h : d.readRequest n data = .error e := h
    rw [Disk.readRequest, if_neg hidle] at h
    split_ifs at h
    cases h
    decide
  | write n data =>
    have h : d.writeRequest n data = .error e := h
    rw [Disk.writeRequest, if_neg hidle] at h
    split_ifs at h
    cases h
    decide

def meaning : driver.Meaning Bytes where
  content := Disk.file
  idle d := d.active = false
  busy e := e = .active
  prepared _ := True
  apply := applyRequest
  prepare_ok _ := trivial
  prepare_error h := by cases h
  request_ok := request_file
  request_error hd _ h := request_idle hd h
  idle_callBack _ := rfl
  content_callBack _ := rfl

variable {τ : Type*}

/-- The data of the last write to a sector. -/
def latestWrite (n : Int) (log : List (τ × DiskRequest)) : Option Bytes :=
  log.foldl (fun found x =>
    match x.2 with
    | .read _ _ => found
    | .write m data => if m = n then some data else found) none

theorem offset_apart {n m : Int} (hn : Disk.validSector n) (hm : Disk.validSector m) (h : m ≠ n)
    {j : ℕ} (hj : j < sectorSize) :
    Disk.offset n + j < Disk.offset m ∨ Disk.offset m + sectorSize ≤ Disk.offset n + j := by
  have hn0 := hn.1
  have hm0 := hm.1
  unfold Disk.offset sectorSize at *
  omega

/-- The file has in a sector what was last written there. -/
theorem after_sector (file : Bytes) {n : Int} (hn : Disk.validSector n) {j : ℕ}
    (hj : j < sectorSize) (log : List (τ × DiskRequest)) :
    meaning.after file log (Disk.offset n + j) =
      (latestWrite n log).elim (file (Disk.offset n + j)) (· j) := by
  induction log using List.reverseRecOn with
  | nil => rfl
  | append_singleton log x ih =>
    rw [Driver.Meaning.after, latestWrite, List.foldl_append, List.foldl_append]
    show applyRequest (meaning.after file log) x.2 (Disk.offset n + j) = _
    obtain ⟨t, r⟩ := x
    cases r with
    | read m data => exact ih
    | write m data =>
      show (if Disk.validSector m then _ else meaning.after file log) _ =
        (if m = n then some data else latestWrite n log).elim _ _
      by_cases hmn : m = n
      · rw [if_pos hmn, hmn, if_pos hn]
        exact bcopy_inside hj
      · rw [if_neg hmn, ← ih]
        by_cases hm : Disk.validSector m
        · rw [if_pos hm]
          exact bcopy_outside (offset_apart hn hm hmn hj)
        · rw [if_neg hm]

theorem read_answer {d d' : Disk} {n : Int} {data w : Bytes}
    (h : driver.request d (.read n data) = .ok (d', w)) :
    Disk.validSector n ∧ ∀ j < sectorSize, w j = d.file (Disk.offset n + j) := by
  have h : d.readRequest n data = .ok (d', w) := h
  unfold Disk.readRequest at h
  split_ifs at h with ha hv
  cases h
  exact ⟨hv, fun j hj => bcopy_start hj⟩

end SynchDisk

structure ConsoleOutput where
  output : List UInt8
  putBusy : Bool
  deriving DecidableEq, Repr

inductive ConsoleFault where
  | putBusy
  deriving DecidableEq, Repr

namespace ConsoleOutput

def putChar (c : ConsoleOutput) (ch : UInt8) : Except ConsoleFault (ConsoleOutput × Unit) :=
  if c.putBusy then .error .putBusy
  else .ok (⟨c.output ++ [ch], true⟩, ())

def callBack (c : ConsoleOutput) : ConsoleOutput := { c with putBusy := false }

end ConsoleOutput

namespace SynchConsoleOutput

def driver : Driver UInt8 UInt8 ConsoleOutput Unit ConsoleFault where
  prepare := .ok
  request := ConsoleOutput.putChar
  callBack := ConsoleOutput.callBack

def meaning : driver.Meaning (List UInt8) where
  content := ConsoleOutput.output
  idle c := c.putBusy = false
  busy _ := True
  prepared _ := True
  apply output ch := output ++ [ch]
  prepare_ok _ := trivial
  prepare_error h := by cases h
  request_ok := by
    intro c ch c' w h
    have h : c.putChar ch = .ok (c', w) := h
    unfold ConsoleOutput.putChar at h
    split_ifs at h
    cases h
    rfl
  request_error := by
    intro c ch e hc _ h
    have h : c.putChar ch = .error e := h
    rw [ConsoleOutput.putChar, hc] at h
    cases h
  idle_callBack _ := rfl
  content_callBack _ := rfl

theorem after_output {τ : Type*} (log : List (τ × UInt8)) :
    meaning.after [] log = log.map Prod.snd := by
  induction log using List.reverseRecOn with
  | nil => rfl
  | append_singleton log x ih =>
    rw [Driver.Meaning.after, List.foldl_append, List.map_append]
    exact congrArg (· ++ [x.2]) ih

end SynchConsoleOutput

/-- A call of `PostOfficeOutput::Send`: its arguments, the memory that `new` gives on the way,
and whether the random number of `NetworkOutput::Send` lets the packet get lost. -/
structure Sending where
  pktHdr : PacketHeader
  mailHdr : MailHeader
  data : Bytes
  buffer : Bytes
  wire : Bytes
  lost : Bool

/-- The arguments of `NetworkOutput::Send`, with the call they come from. -/
structure NetworkRequest where
  sending : Sending
  hdr : PacketHeader
  data : Bytes

/-- A call with the packet it has put on the network, if that is not lost. -/
structure Transmission where
  sending : Sending
  packet : Option Bytes

/-- `sent` is what has gone to the network so far. -/
structure NetworkOutput where
  sendBusy : Bool
  sent : List Transmission

namespace NetworkOutput

def send (hostName : BitVec 32) (n : NetworkOutput) (r : NetworkRequest) :
    Except MailFault (NetworkOutput × Unit) :=
  (wire hostName n.sendBusy r.hdr r.data r.sending.wire r.sending.lost).map fun packet =>
    ({ n with sent := n.sent ++ [⟨r.sending, packet⟩] }, ())

def callBack (n : NetworkOutput) : NetworkOutput := { n with sendBusy := false }

end NetworkOutput

namespace PostOfficeOutput

def driver (hostName : BitVec 32) :
    Driver Sending NetworkRequest NetworkOutput Unit MailFault where
  prepare a := (pack hostName a.pktHdr a.mailHdr a.data a.buffer).map fun r => ⟨a, r.1, r.2⟩
  request := NetworkOutput.send hostName
  callBack := NetworkOutput.callBack

/-- What the `ASSERT` of `NetworkOutput::Send` wants of the packet. -/
def Prepared (hostName : BitVec 32) (r : NetworkRequest) : Prop :=
  0 < r.hdr.length.toNat ∧ r.hdr.length.toNat ≤ maxPacketSize ∧ r.hdr.sender = hostName

variable {hostName : BitVec 32}

theorem prepare_cases {a : Sending} {r : NetworkRequest}
    (h : (driver hostName).prepare a = .ok r) : r.sending = a ∧
      pack hostName a.pktHdr a.mailHdr a.data a.buffer = .ok (r.hdr, r.data) := by
  have h : (pack hostName a.pktHdr a.mailHdr a.data a.buffer).map _ = .ok r := h
  cases hpack : pack hostName a.pktHdr a.mailHdr a.data a.buffer with
  | error e =>
    rw [hpack] at h
    cases h
  | ok p =>
    rw [hpack] at h
    cases h
    exact ⟨rfl, rfl⟩

theorem prepared_of_prepare {a : Sending} {r : NetworkRequest}
    (h : (driver hostName).prepare a = .ok r) : Prepared hostName r := by
  obtain ⟨-, hpack⟩ := prepare_cases h
  obtain ⟨hmax, -, hhdr, -⟩ := pack_cases hpack
  have hhdr : r.hdr = sealed hostName a.pktHdr a.mailHdr := hhdr
  have hmax : a.mailHdr.length.toNat ≤ 40 := hmax
  have hlen : r.hdr.length.toNat = 12 + a.mailHdr.length.toNat := by
    rw [hhdr]
    exact sealed_length hmax
  refine ⟨by omega, ?_, by rw [hhdr]; rfl⟩
  show r.hdr.length.toNat ≤ 52
  omega

theorem prepare_error {a : Sending} {e : MailFault}
    (h : (driver hostName).prepare a = .error e) : e ≠ .networkSend := by
  have h : (pack hostName a.pktHdr a.mailHdr a.data a.buffer).map _ = .error e := h
  unfold pack at h
  split_ifs at h <;> cases h <;> decide

theorem send_cases {n n' : NetworkOutput} {r : NetworkRequest} {w : Unit}
    (h : n.send hostName r = .ok (n', w)) : ∃ packet,
      NetworkOutput.wire hostName n.sendBusy r.hdr r.data r.sending.wire r.sending.lost =
        .ok packet ∧ n' = { n with sent := n.sent ++ [⟨r.sending, packet⟩] } := by
  unfold NetworkOutput.send at h
  cases hwire : NetworkOutput.wire hostName n.sendBusy r.hdr r.data r.sending.wire
      r.sending.lost with
  | error e =>
    rw [hwire] at h
    cases h
  | ok packet =>
    rw [hwire] at h
    cases h
    exact ⟨packet, rfl, rfl⟩

def meaning (hostName : BitVec 32) : (driver hostName).Meaning (List Sending) where
  content n := n.sent.map Transmission.sending
  idle n := n.sendBusy = false
  busy e := e = .networkSend
  prepared := Prepared hostName
  apply sent r := sent ++ [r.sending]
  prepare_ok := prepared_of_prepare
  prepare_error := prepare_error
  request_ok := by
    intro n r n' w h
    obtain ⟨packet, -, rfl⟩ := send_cases h
    exact List.map_append
  request_error := by
    intro n r e hn hr h
    have h : n.send hostName r = .error e := h
    unfold NetworkOutput.send NetworkOutput.wire at h
    rw [if_pos ⟨hn, hr⟩] at h
    cases h
  idle_callBack _ := rfl
  content_callBack _ := rfl

end PostOfficeOutput

structure Devices (τ : Type*) where
  disk : Driver.System τ DiskRequest Disk Bytes DiskFault
  console : Driver.System τ UInt8 ConsoleOutput Unit ConsoleFault
  network : Driver.System τ NetworkRequest NetworkOutput Unit MailFault

namespace Devices

inductive Act (τ : Type*) where
  | disk (a : Driver.Act τ DiskRequest)
  | console (a : Driver.Act τ UInt8)
  | network (a : Driver.Act τ Sending)

variable {τ : Type*}

def start (file : Bytes) : Devices τ where
  disk := Driver.start ⟨file, false⟩
  console := Driver.start ⟨[], false⟩
  network := Driver.start ⟨false, []⟩

def halted (s : Devices τ) : Bool :=
  Driver.halted s.disk || Driver.halted s.console || Driver.halted s.network

def isFree (s : Devices τ) (t : τ) : Bool :=
  Driver.isOut s.disk t && Driver.isOut s.console t && Driver.isOut s.network t

def mayStart (s : Devices τ) {α : Type*} : Driver.Act τ α → Bool
  | .call t _ => isFree s t
  | _ => true

variable [DecidableEq τ]

def step (hostName : BitVec 32) (s : Devices τ) (a : Act τ) : Option (Devices τ) :=
  if halted s then none
  else
    match a with
    | .disk a =>
      if mayStart s a then (Driver.step SynchDisk.driver s.disk a).map ({ s with disk := · })
      else none
    | .console a =>
      if mayStart s a then
        (Driver.step SynchConsoleOutput.driver s.console a).map ({ s with console := · })
      else none
    | .network a =>
      if mayStart s a then
        (Driver.step (PostOfficeOutput.driver hostName) s.network a).map ({ s with network := · })
      else none

structure Inv (hostName : BitVec 32) (file : Bytes) (s : Devices τ) : Prop where
  disk : Driver.Inv SynchDisk.meaning file s.disk
  console : Driver.Inv SynchConsoleOutput.meaning [] s.console
  network : Driver.Inv (PostOfficeOutput.meaning hostName) [] s.network

variable {hostName : BitVec 32} {file : Bytes} {s s' : Devices τ} {a : Act τ}

theorem inv_step (h : Inv hostName file s) (hs : step hostName s a = some s') :
    Inv hostName file s' := by
  unfold step at hs
  split_ifs at hs
  cases a with
  | disk a =>
    simp only [Option.ite_none_right_eq_some] at hs
    obtain ⟨d, hd, rfl⟩ := Option.map_eq_some_iff.mp hs.2
    exact ⟨Driver.inv_step h.disk hd, h.console, h.network⟩
  | console a =>
    simp only [Option.ite_none_right_eq_some] at hs
    obtain ⟨c, hc, rfl⟩ := Option.map_eq_some_iff.mp hs.2
    exact ⟨h.disk, Driver.inv_step h.console hc, h.network⟩
  | network a =>
    simp only [Option.ite_none_right_eq_some] at hs
    obtain ⟨n, hn, rfl⟩ := Option.map_eq_some_iff.mp hs.2
    exact ⟨h.disk, h.console, Driver.inv_step h.network hn⟩

theorem inv_reach (h : Reach (step hostName) (fun _ _ => True) (start file : Devices τ) s) :
    Inv hostName file s := by
  refine h.invariant ⟨?_, ?_, ?_⟩ fun _ _ _ hi _ hs => inv_step hi hs
  · exact Driver.inv_start rfl rfl
  · exact Driver.inv_start rfl rfl
  · exact Driver.inv_start rfl rfl

/-- A read has given what the last write before it in the log has put into the sector. -/
def ReadsLatest (file : Bytes) (s : Devices τ) : Prop :=
  ∀ t i w n data, (t, i, w) ∈ s.disk.returned → s.disk.log[i]? = some (t, .read n data) →
    ∀ j < sectorSize, w j =
      (SynchDisk.latestWrite n (s.disk.log.take i)).elim (file (Disk.offset n + j)) (· j)

/-- The display has the characters of the log, but for one that is about to be put. -/
def DisplaysLog (s : Devices τ) : Prop :=
  s.console.log.map Prod.snd = s.console.device.output ∨
    ∃ t i ch, s.console.pc t = .request i ch ∧
      s.console.log.map Prod.snd = s.console.device.output ++ [ch]

omit [DecidableEq τ] in
theorem Inv.readsLatest (h : Inv hostName file s) : ReadsLatest file s := by
  intro t i w n data hmem hlog j hj
  obtain ⟨-, r, d, d', hr, hd, hw⟩ := h.disk.returned t i w hmem
  rw [hlog] at hr
  cases hr
  obtain ⟨hn, hread⟩ := SynchDisk.read_answer hw
  have hfile : d.file = SynchDisk.meaning.after file (s.disk.log.take i) := hd
  rw [hread j hj, hfile, SynchDisk.after_sector file hn hj]

omit [DecidableEq τ] in
theorem Inv.displaysLog (h : Inv hostName file s) : DisplaysLog s := by
  rcases h.console.flow.content_eq with hc | ⟨t, ch, before, hp, hlog, hc⟩
  · left
    rw [← SynchConsoleOutput.after_output]
    exact hc.symm
  · refine .inr ⟨t, before.length, ch, hp, ?_⟩
    have hc : s.console.device.output = SynchConsoleOutput.meaning.after [] before := hc
    rw [hc, SynchConsoleOutput.after_output, hlog, List.map_append]
    rfl

/-- Whatever the interleaving of the threads and the interrupts: no request finds its device
busy, every completion semaphore has at most one token, every call is past its `P` only
after the interrupt of its own request, reads give what was last written, and the display
shows the characters in the order of the lock. -/
theorem devices_one_request
    (h : Reach (step hostName) (fun _ _ => True) (start file : Devices τ) s) :
    Driver.OneRequest (· = .active) s.disk ∧ Driver.OneRequest (· = .putBusy) s.console ∧
      Driver.OneRequest (· = .networkSend) s.network ∧ ReadsLatest file s ∧ DisplaysLog s := by
  have hi := inv_reach h
  refine ⟨hi.disk.oneRequest, ?_, hi.network.oneRequest, hi.readsLatest, hi.displaysLog⟩
  obtain ⟨hfault, hvalue, hfired, hown⟩ := hi.console.oneRequest
  exact ⟨fun e he _ => hfault e he trivial, hvalue, hfired, hown⟩

/-- Thread 1 writes sector 3 and thread 2 reads it, with the request of thread 2 made only
after the interrupt of thread 1; thread 3 puts a character meanwhile. -/
theorem devices_one_request_read_back : ∃ s : Devices ℕ,
    Reach (step 1) (fun _ _ => True) (start fun _ => 0) s ∧
      s.disk.returned.map (fun x => (x.1, x.2.1, x.2.2 0)) = [(1, 0, 7), (2, 1, 7)] ∧
      s.console.device.output = [65] ∧
      Driver.OneRequest (· = .active) s.disk ∧ Driver.OneRequest (· = .putBusy) s.console ∧
      Driver.OneRequest (· = .networkSend) s.network ∧ ReadsLatest (fun _ => 0) s ∧
      DisplaysLog s := by
  have hrun : (exec (step 1) (fun _ _ => True) (start fun _ => 0 : Devices ℕ)
      [.disk (.call 1 (.write 3 fun _ => 7)), .disk (.run 1), .disk (.run 1), .disk (.run 1),
        .disk (.call 2 (.read 3 fun _ => 0)), .disk (.run 2), .disk (.run 1),
        .console (.call 3 65), .console (.run 3), .console (.run 3), .console (.run 3),
        .disk (.interrupt 0), .disk (.run 1), .disk (.run 1), .disk (.run 1), .disk (.run 1),
        .disk (.run 2), .disk (.run 2), .disk (.run 2), .disk (.interrupt 1), .disk (.run 2),
        .disk (.run 2), .disk (.run 2), .disk (.run 2)]).map (fun s =>
          (s.disk.returned.map (fun x => (x.1, x.2.1, x.2.2 0)), s.console.device.output)) =
      some ([(1, 0, 7), (2, 1, 7)], [65]) := by
    decide +kernel
  obtain ⟨s, hs, hfacts⟩ := Option.map_eq_some_iff.mp hrun
  have hr := reach_of_exec _ hs
  exact ⟨s, hr, congrArg Prod.fst hfacts, congrArg Prod.snd hfacts, devices_one_request hr⟩

end Devices

end Nachos
