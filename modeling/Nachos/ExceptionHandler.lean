import Nachos.FileSystem

namespace Nachos
open TwosComplement

def maxFileLength : ℕ := 32
def maxLengthProcessName : ℕ := 32
def maxLengthIP : ℕ := 46

/-- `input` is what has been and will be typed, `console` what has been put on the
display; `overrun` records that a kernel buffer has been used outside its allocation.  Text that
is only printed on the host's standard output is left out. -/
structure Kernel (κ : Type) where
  machine : Machine
  fileSystem : FileSystem
  host : Host
  input : List UInt8
  console : List UInt8
  overrun : Bool
  tables : κ

/-- The calls of `pTab` and `semTab`, on whatever state these have. -/
structure Services (κ : Type) where
  execUpdate : Name → κ → Except Stop (Int × κ)
  execV : Int → List Name → κ → Except Stop (Int × κ)
  joinUpdate : Int → κ → Except Stop (Int × κ)
  exitUpdate : Int → κ → Except Stop (Unit × κ)
  create : Name → Int → κ → Except Stop (Int × κ)
  wait : Name → κ → Except Stop (Int × κ)
  signal : Name → κ → Except Stop (Int × κ)

abbrev Sys (κ α : Type) := StateT (Kernel κ) (Except Stop) α

/-- A buffer of the kernel's heap; past `size` stands what the heap held. -/
structure Buffer where
  size : ℕ
  byte : ℕ → UInt8

namespace Buffer

def str (b : Buffer) : Name := ((List.range b.size).map b.byte).takeWhile (· ≠ 0)

def store (b : Buffer) (bytes : List UInt8) : Buffer :=
  { b with byte := fun i => bytes.getD i (b.byte i) }

end Buffer

def charToInt (c : UInt8) : Int := c.toBitVec.toInt

namespace Sys
variable {κ : Type}

def readRegister (num : ℕ) : Sys κ Int := fun k => .ok (k.machine.registers num, k)

def writeRegister (num : ℕ) (value : Int) : Sys κ Unit := fun k =>
  .ok ((), { k with machine := k.machine.setRegister num value })

def increasePC : Sys κ Unit := do
  writeRegister prevPCReg (← readRegister pcReg)
  writeRegister pcReg (wrap ((← readRegister pcReg) + 4))
  writeRegister nextPCReg (wrap ((← readRegister pcReg) + 4))

/-- The cases of `ExceptionHandler` other than a system call. -/
def fault (which : ExceptionType) : Sys κ Unit :=
  match which with
  | .noException | .syscallException => return ()
  | e => throw (.halt e)

/-- `ReadMem`; without a value the caller's variable stays as it was. -/
def readMem (addr size : Int) : Sys κ (Option Int) := fun k =>
  match k.machine.readMem addr size with
  | .done v m => .ok (some v, { k with machine := m })
  | .raised e m => (do fault e; return none : Sys κ (Option Int)) { k with machine := m }
  | .abort => .error (.abort .translate)

def writeMem (addr size value : Int) : Sys κ Unit := fun k =>
  match k.machine.writeMem addr size value with
  | .done () m => .ok ((), { k with machine := m })
  | .raised e m => fault e { k with machine := m }
  | .abort => .error (.abort .translate)

/-- `new char[size]`, a size that is not negative being always granted. -/
def newBuffer (size : Int) (byte : ℕ → UInt8) : Sys κ Buffer :=
  if size < 0 then throw (.abort (.badAlloc size)) else return ⟨size.toNat, byte⟩

def setOverrun (b : Bool) : Sys κ Unit := modify fun k => { k with overrun := k.overrun || b }

/-- The loop of `User2System`, over at most `n` characters from `addr` on; `oneChar` is
the variable that `ReadMem` stores into. -/
def copyIn (addr oneChar : Int) : ℕ → Sys κ (List UInt8)
  | 0 => return []
  | n + 1 => do
    let oneChar := (← readMem addr 1).getD oneChar
    if oneChar = 0 then return []
    return UInt8.ofNat (unsigned oneChar % 256) :: (← copyIn (wrap (addr + 1)) oneChar n)

def user2System (env : Env) (virtAddr limit : Int) : Sys κ Buffer := do
  let b ← newBuffer (wrap (limit + 1)) env.junk
  let chars ← copyIn virtAddr 0 limit.toNat
  return { b with byte := fun i => if i < b.size then chars.getD i 0 else b.byte i }

/-- The loop of `System2User` from byte `i` on, `n` bytes at most. -/
def copyOut (addr : Int) (buffer : ℕ → UInt8) (i : ℕ) : ℕ → Sys κ Int
  | 0 => return (i : Int)
  | n + 1 => do
    let oneChar := charToInt (buffer i)
    writeMem addr 1 oneChar
    if oneChar = 0 then return (i + 1 : Int)
    copyOut (wrap (addr + 1)) buffer (i + 1) n

def system2User (virtAddr len : Int) (buffer : Buffer) : Sys κ Int :=
  if len < 0 then return -1
  else if len = 0 then return len
  else copyOut virtAddr buffer.byte 0 len.toNat

def eof : UInt8 := 255

/-- `ConsoleInput::GetChar` takes a byte 255 for `EOF` and schedules no further poll, so that
nothing that is typed behind it arrives. -/
def readChar : Sys κ UInt8 := fun k =>
  match k.input with
  | [] => .error .away
  | c :: rest => .ok (c, { k with input := if c = eof then [] else rest })

def putChar (ch : UInt8) : Sys κ Unit := fun k =>
  .ok ((), { k with console := k.console ++ [ch] })

def printBuffer (chars : List UInt8) : Sys κ Unit :=
  match chars with
  | [] => return ()
  | c :: rest => do
    putChar c
    printBuffer rest

def newline : UInt8 := 10

def openfileAt (i : Int) : Sys κ (Option (Fin 20 × OpenFile)) := fun k =>
  if h : 0 ≤ i ∧ i < 20 then
    let j : Fin 20 := ⟨i.toNat, by omega⟩
    .ok ((k.fileSystem.openfile j).map fun f => (j, f), k)
  else .error (.abort (.index i))

def setHost (h : Host) : Sys κ Unit := modify fun k => { k with host := h }

def setFile (i : Fin 20) (f : Option OpenFile) : Sys κ Unit :=
  modify fun k => { k with fileSystem := k.fileSystem.setFile i f }

def setName (i : Fin 20) (name : Name) : Sys κ Unit :=
  modify fun k => { k with fileSystem := k.fileSystem.setName i name }

/-- A method of the file in slot `i`, applied to the file and the host as they are. -/
def onFile {α : Type} (i : Fin 20) (m : OpenFile → Host → Except Stop (α × OpenFile × Host)) :
    Sys κ α := fun k =>
  match k.fileSystem.openfile i with
  | none => .error (.abort .nullPointer)
  | some f =>
    match m f k.host with
    | .error e => .error e
    | .ok (a, f', h') =>
      .ok (a, { k with fileSystem := k.fileSystem.setFile i (some f'), host := h' })

def getCurrentPos (i : Fin 20) : Sys κ Int := onFile i fun f h => .ok (f.getCurrentPos h)

def read (env : Env) (i : Fin 20) (buf : Buffer) (numBytes : Int) : Sys κ (Int × Buffer) := do
  let r ← onFile i fun f h => do
    let r ← f.read h env numBytes
    return ((r.1, r.2.1), r.2.2)
  setOverrun (buf.size < r.2.length)
  return (r.1, buf.store r.2)

def write (env : Env) (i : Fin 20) (buf : Buffer) (numBytes : Int) : Sys κ Int := do
  let r ← onFile i fun f h => f.write h env buf.byte numBytes
  setOverrun (buf.size < r)
  return r

def length (i : Fin 20) : Sys κ Int := onFile i fun f h => do
  let r ← f.length h
  return (r.1, f, r.2)

def seek (i : Fin 20) (pos : Int) : Sys κ Unit := onFile i fun f h => do
  let r ← f.seek h pos
  return ((), r)

def connect (env : Env) (i : Fin 20) : Sys κ Int := onFile i fun f h =>
  let r := f.connect env
  .ok (r.1, r.2, h)

/-- A result in register 2, and on to the next instruction. -/
def ret (v : Int) : Sys κ Unit := do
  writeRegister 2 v
  increasePC

def scAdd : Sys κ Unit := do
  ret (wrap ((← readRegister 4) + (← readRegister 5)))

def scCreate (env : Env) : Sys κ Unit := do
  let virtAddr ← readRegister 4
  let filename ← user2System env virtAddr (maxFileLength + 1)
  if filename.str = [] then ret (-1)
  else
    setHost (← FileSystem.create (← get).host env filename.str)
    ret 0

def scOpen (env : Env) : Sys κ Unit := do
  let virtAddr ← readRegister 4
  let type ← readRegister 5
  let filename ← user2System env virtAddr (maxFileLength + 1)
  match (← get).fileSystem.isFull with
  | none => ret (-1)
  | some tempt =>
    if filename.str = [] then ret (-1)
    else if type = 1 ∨ type = 0 then
      let r := FileSystem.openMode (← get).host env filename.str type
      setHost r.2
      setFile tempt r.1
      if r.1.isSome then
        setName tempt filename.str
        ret tempt
      else ret (-1)
    else ret (-1)

def scClose : Sys κ Unit := do
  let id ← readRegister 4
  if id < 2 ∨ id ≥ 20 then ret (-1)
  else
    match ← openfileAt id with
    | none => ret (-1)
    | some (slot, f) =>
      writeRegister 2 0
      setName slot []
      setHost (← f.delete (← get).host)
      setFile slot none
      increasePC

def readLine : ℕ → Sys κ (List UInt8)
  | 0 => return []
  | n + 1 => do
    let c ← readChar
    if c = newline then return [c]
    return c :: (← readLine n)

def readRegular (env : Env) (slot : Fin 20) (virtAddr oldPos : Int) (buf : Buffer)
    (charcount : Int) : Sys κ Unit := do
  let (numRead, buf) ← read env slot buf charcount
  if numRead > 0 then
    let newPos ← getCurrentPos slot
    let _ ← system2User virtAddr (newPos - oldPos) buf
    ret (newPos - oldPos)
  else ret (-1)

def readSocket (env : Env) (slot : Fin 20) (virtAddr : Int) (buf : Buffer) (charcount : Int) :
    Sys κ Unit := do
  let (tempt, buf) ← read env slot buf charcount
  if tempt > 0 then
    let _ ← system2User virtAddr tempt buf
    ret tempt
  else ret (-1)

def scRead (env : Env) : Sys κ Unit := do
  let virtAddr ← readRegister 4
  let charcount ← readRegister 5
  let id ← readRegister 6
  if id < 0 ∨ id ≥ 20 then ret (-1)
  else
    match ← openfileAt id with
    | none => ret (-1)
    | some (slot, f) =>
      let oldPos ← getCurrentPos slot
      let buf ← user2System env virtAddr charcount
      if id = 0 then
        let line ← readLine charcount.toNat
        -- a NUL is stored behind the last character
        setOverrun (buf.size ≤ line.length)
        let _ ← system2User virtAddr line.length (buf.store (line ++ [0]))
        ret line.length
      else if f.type = 0 ∨ f.type = 1 then readRegular env slot virtAddr oldPos buf charcount
      else if f.type = 2 ∧ f.isConnect then readSocket env slot virtAddr buf charcount
      else ret (-1)

def putUntilNul (b : Buffer) (lengthWrite : ℕ) : ℕ → Sys κ ℕ
  | 0 => return lengthWrite
  | n + 1 =>
    if b.byte lengthWrite = 0 then return lengthWrite
    else do
      putChar (b.byte lengthWrite)
      putUntilNul b (lengthWrite + 1) n

/-- The whole loop: after 255 characters the next 255 are fetched.  The 32-bit address
has taken all its values when the fuel is used up, and the loop goes on for good. -/
def putString (env : Env) : ℕ → Int → Buffer → Sys κ Int
  | 0, _, _ => throw .away
  | fuel + 1, virtAddr, buf => do
    let lengthWrite ← putUntilNul buf 0 255
    if lengthWrite = 255 then
      let virtAddr := wrap (virtAddr + 255)
      let buf ← user2System env virtAddr 255
      putString env fuel virtAddr buf
    else return lengthWrite - 1

def writeRegular (env : Env) (slot : Fin 20) (oldPos : Int) (buf : Buffer) (charcount : Int) :
    Sys κ Unit := do
  let numWritten ← write env slot buf charcount
  if numWritten > 0 then
    let newPos ← getCurrentPos slot
    ret (newPos - oldPos)
  else ret (-1)

def writeSocket (env : Env) (slot : Fin 20) (buf : Buffer) (charcount : Int) : Sys κ Unit := do
  let tempt ← write env slot buf charcount
  if tempt > 0 then ret tempt else ret (-1)

def scWrite (env : Env) : Sys κ Unit := do
  let virtAddr ← readRegister 4
  let charcount ← readRegister 5
  let id ← readRegister 6
  if id < 0 ∨ id ≥ 20 then ret (-1)
  else
    match ← openfileAt id with
    | none => ret (-1)
    | some (slot, f) =>
      if id = 0 ∨ f.type = 1 then ret (-1)
      else
        let oldPos ← getCurrentPos slot
        let buf ← user2System env virtAddr charcount
        if id = 1 then
          -- only a buffer without any byte has no NUL in it
          setOverrun (buf.size = 0)
          ret (← putString env (2 ^ 32) virtAddr buf)
        else if f.type = 0 then writeRegular env slot oldPos buf charcount
        else if f.type = 2 ∧ f.isConnect then writeSocket env slot buf charcount
        else ret (-1)

def scSeek : Sys κ Unit := do
  let pos ← readRegister 4
  let id ← readRegister 5
  if id = 0 ∨ id = 1 ∨ id ≥ 20 then ret (-1)
  else
    match ← openfileAt id with
    | none => ret (-1)
    | some (slot, f) =>
      if f.type = 2 then ret (-1)
      else
        let len ← length slot
        if pos > len then ret (-1)
        else
          let pos := if pos = -1 then len else pos
          seek slot pos
          ret pos

def scRemove (env : Env) : Sys κ Unit := do
  let virtAddr ← readRegister 4
  let filename ← user2System env virtAddr (maxFileLength + 1)
  let k ← get
  if filename.str = [] then ret (-1)
  else if ∃ i, filename.str = k.fileSystem.filename i then ret (-1)
  else
    let r := FileSystem.remove k.host env filename.str
    setHost r.2
    if r.1 then ret 0 else ret (-1)

def scPrintString (env : Env) : Sys κ Unit := do
  let virtAddr ← readRegister 4
  let buffer ← user2System env virtAddr 255
  printBuffer buffer.str
  increasePC

/-- The characters up to the end of the line, which is taken off the input as well.  `ReadChar`
does not come back behind an `EOF`. -/
def readUntilNewline : Sys κ (List UInt8) := fun k =>
  let line := k.input.takeWhile (· ≠ newline)
  match k.input.drop line.length with
  | [] => .error .away
  | _ :: rest => if eof ∈ line then .error .away else .ok (line, { k with input := rest })

/-- All ways on from `System2User` only differ in what they print. -/
def scReadString (env : Env) : Sys κ Unit := do
  let virAddr ← readRegister 4
  let length ← readRegister 5
  let strName ← newBuffer length env.junk
  let line ← readUntilNewline
  setOverrun (strName.size ≤ line.length)
  let _ ← system2User virAddr line.length (strName.store (line ++ [0]))
  increasePC

def digits : ℕ → Int → List UInt8
  | 0, _ => []
  | fuel + 1, number =>
    if number > 0 then digits fuel (number / 10) ++ [UInt8.ofNat (48 + (number % 10).toNat)]
    else []

/-- What is put for a number, which has at most ten digits.  The negation overflows for
the smallest one. -/
def decimal (number : Int) : List UInt8 :=
  if number = 0 then [48]
  else if number < 0 then 45 :: digits 10 (wrap (-number))
  else digits 10 number

def scPrintInt : Sys κ Unit := do
  let number ← readRegister 4
  printBuffer (decimal number)
  increasePC

def socketName : Name := "socket".toUTF8.toList

def scSocket (env : Env) : Sys κ Unit := do
  match (← get).fileSystem.isFull with
  | none => ret (-1)
  | some tempt =>
    let r := FileSystem.socketTCP (← get).host env
    setHost r.2
    setFile tempt r.1
    if r.1.isSome then
      setName tempt socketName
      ret tempt
    else ret (-1)

def scConnect (env : Env) : Sys κ Unit := do
  let socketid ← readRegister 4
  let virtAddr ← readRegister 5
  if socketid < 2 ∨ socketid ≥ 20 then ret (-1)
  else
    match ← openfileAt socketid with
    | none => ret (-1)
    | some (slot, _) =>
      let _ ← user2System env virtAddr maxLengthIP
      let r ← connect env slot
      if r < 0 then ret (-1) else ret 0

def scSend (env : Env) : Sys κ Unit := do
  let virtAddr ← readRegister 4
  let charcount ← readRegister 5
  let id ← readRegister 6
  if id < 0 ∨ id ≥ 20 then ret (-1)
  else
    match ← openfileAt id with
    | none => ret (-1)
    | some (slot, f) =>
      let buf ← user2System env virtAddr charcount
      if f.type = 2 ∧ f.isConnect then writeSocket env slot buf charcount
      else ret (-1)

def scReceive (env : Env) : Sys κ Unit := do
  let virtAddr ← readRegister 4
  let charcount ← readRegister 5
  let id ← readRegister 6
  if id < 2 ∨ id ≥ 20 then ret (-1)
  else
    match ← openfileAt id with
    | none => ret (-1)
    | some (slot, f) =>
      let buf ← user2System env virtAddr charcount
      if f.type = 2 ∧ f.isConnect then readSocket env slot virtAddr buf charcount
      else ret (-1)

def service {α : Type} (f : κ → Except Stop (α × κ)) : Sys κ α := fun k =>
  match f k.tables with
  | .error e => .error e
  | .ok (a, t) => .ok (a, { k with tables := t })

def scExec (svc : Services κ) (env : Env) : Sys κ Unit := do
  let virtAddr ← readRegister 4
  let name ← user2System env virtAddr (maxLengthProcessName + 1)
  -- the file is opened, with an uninitialised `type`, only to see whether it is there
  match FileSystem.openAny (← get).host env name.str (env.junk 0).toNat with
  | (none, h) =>
    setHost h
    ret (-1)
  | (some oFile, h) =>
    setHost (← oFile.delete h)
    ret (← service (svc.execUpdate name.str))

def scJoin (svc : Services κ) : Sys κ Unit := do
  let id ← readRegister 4
  ret (← service (svc.joinUpdate id))

def scExit (svc : Services κ) : Sys κ Unit := do
  let exitcode ← readRegister 4
  service (svc.exitUpdate exitcode)
  ret 0

/-- `CreateSemaphore`, `Signal` and `Wait` differ in what they ask of `semTab`. -/
def semCall (env : Env) (f : Name → κ → Except Stop (Int × κ)) : Sys κ Unit := do
  let virtAddr ← readRegister 4
  let name ← user2System env virtAddr (maxLengthProcessName + 1)
  ret (← service (f name.str))

def scCreateSemaphore (svc : Services κ) (env : Env) : Sys κ Unit := do
  let semValue ← readRegister 5
  semCall env fun name => svc.create name semValue

def scSignal (svc : Services κ) (env : Env) : Sys κ Unit := semCall env svc.signal

def scWait (svc : Services κ) (env : Env) : Sys κ Unit := semCall env svc.wait

/-- `new char*[size]`: the size in bytes has to be one that can be allocated. -/
def newPointers (size : Int) : Sys κ Unit :=
  if size < 0 ∨ 4 * size > intMax then throw (.abort (.badAlloc size)) else return ()

def readArgs (env : Env) (addr : Int) : ℕ → Sys κ (List Name)
  | 0 => return []
  | n + 1 => do
    let argAddr := (← readMem addr 4).getD 0
    let arg ← user2System env argAddr maxFileLength
    return arg.str :: (← readArgs env (wrap (addr + 4)) n)

def scExecV (svc : Services κ) (env : Env) : Sys κ Unit := do
  let argc ← readRegister 4
  let addr ← readRegister 5
  newPointers (wrap (argc + 1))
  let args ← readArgs env addr argc.toNat
  -- `argv[argc] = NULL`
  setOverrun (argc < 0)
  ret (← service (svc.execV argc args))

/-- `Interrupt::Halt` does not return. -/
def scHalt : Sys κ Unit := throw (.halt .syscallException)

def syscall (svc : Services κ) (env : Env) (type : Int) : Sys κ Unit :=
  match type with
  | 0 => scHalt
  | 1 => scExit svc
  | 2 => scExec svc env
  | 3 => scJoin svc
  | 4 => scCreate env
  | 5 => scRemove env
  | 6 => scOpen env
  | 7 => scRead env
  | 8 => scWrite env
  | 9 => scSeek
  | 10 => scClose
  | 16 => scCreateSemaphore svc env
  | 17 => scWait svc env
  | 18 => scSignal svc env
  | 42 => scAdd
  | 43 => scPrintString env
  | 44 => scReadString env
  | 45 => scPrintInt
  | 50 => scSocket env
  | 51 => scConnect env
  | 52 => scSend env
  | 53 => scReceive env
  | 55 => scExecV svc env
  | _ => throw (.abort .notReached)

def exceptionHandler (svc : Services κ) (env : Env) (which : ExceptionType) : Sys κ Unit := do
  let type ← readRegister 2
  if which = .syscallException then syscall svc env type else fault which

end Sys
end Nachos
