import Nachos.Host
import Nachos.Machine

namespace Nachos
open TwosComplement

/-- What ends the simulator: an array read outside its bounds, a null pointer, `new` with
a negative size, the assertions of the wrappers, of `Translate` and of the constructor of an
address space, and lines not to be reached. -/
inductive Fault where
  | index (i : Int)
  | nullPointer
  | badAlloc (size : Int)
  | openForWrite
  | lseek (offset whence : Int)
  | writeFile (nBytes : Int) (offset : ℕ)
  | close
  | translate
  | addrSpace
  | notReached
  deriving DecidableEq, Repr

/-- How code ends that does not return: in `Interrupt::Halt`, called while `which` is
handled; with a fault; or with its thread finished or waiting for good. -/
inductive Stop where
  | halt (which : ExceptionType)
  | abort (f : Fault)
  | away
  deriving DecidableEq, Repr

/-- An open file as it is compiled with `FILESYS_STUB`; `socketH` tells an object of the derived
class, whose `Read` and `Write` are called. -/
structure OpenFile where
  file : ℕ
  currentOffset : Int
  type : Int
  isConnect : Bool
  socketH : Bool
  deriving DecidableEq, Repr

namespace OpenFile

/-- `OpenFile(f)`, which leaves `type` as the heap had it. -/
def ofFile (f : ℕ) (junk : Int) : OpenFile := ⟨f, 0, junk, true, false⟩

def ofMode (f : ℕ) (mode : Int) : OpenFile := ⟨f, 0, mode, false, false⟩

def ofSocket (f : ℕ) : OpenFile := { ofMode f 2 with socketH := true }

def lseek (f : OpenFile) (h : Host) (offset whence : Int) : Except Stop Host :=
  let r := h.lseek f.file offset whence
  if 0 ≤ r.1 then .ok r.2 else .error (.abort (.lseek offset whence))

def tell (f : OpenFile) (h : Host) : Int × Host := h.lseek f.file 0 1

def writeFile (f : OpenFile) (h : Host) (env : Env) (buffer : ℕ → UInt8) (nBytes : Int) :
    Except Stop Host :=
  let r := h.write env f.file buffer nBytes
  if r.1 = nBytes then .ok r.2 else .error (.abort (.writeFile nBytes (h.offset f.file)))

/-- `~OpenFile`: `Close` asserts, `CloseSocket` does not. -/
def delete (f : OpenFile) (h : Host) : Except Stop Host :=
  let r := h.close f.file
  if f.type ≠ 2 ∧ r.1 = false then .error (.abort .close) else .ok r.2

def readAt (f : OpenFile) (h : Host) (env : Env) (numBytes position : Int) :
    Except Stop (Int × List UInt8 × Host) := do
  let h ← f.lseek h position 0
  return h.read env f.file numBytes

def writeAt (f : OpenFile) (h : Host) (env : Env) (buffer : ℕ → UInt8)
    (numBytes position : Int) : Except Stop (Int × Host) := do
  let h ← f.lseek h position 0
  let h ← f.writeFile h env buffer numBytes
  return (numBytes, h)

def read (f : OpenFile) (h : Host) (env : Env) (numBytes : Int) :
    Except Stop (Int × List UInt8 × OpenFile × Host) :=
  if f.socketH then
    if f.isConnect then
      let r := h.read env f.file numBytes
      .ok (r.1, r.2.1, f, r.2.2)
    else .ok (-1, [], f, h)
  else do
    let r ← f.readAt h env numBytes f.currentOffset
    return (r.1, r.2.1, { f with currentOffset := wrap (f.currentOffset + r.1) }, r.2.2)

def write (f : OpenFile) (h : Host) (env : Env) (buffer : ℕ → UInt8) (numBytes : Int) :
    Except Stop (Int × OpenFile × Host) :=
  if f.socketH then
    if f.isConnect then
      let r := h.write env f.file buffer numBytes
      .ok (r.1, f, r.2)
    else .ok (-1, f, h)
  else do
    let r ← f.writeAt h env buffer numBytes f.currentOffset
    return (r.1, { f with currentOffset := wrap (f.currentOffset + r.1) }, r.2)

def getCurrentPos (f : OpenFile) (h : Host) : Int × OpenFile × Host :=
  let r := f.tell h
  (r.1, { f with currentOffset := r.1 }, r.2)

def seek (f : OpenFile) (h : Host) (pos : Int) : Except Stop (OpenFile × Host) := do
  let h ← f.lseek h pos 0
  let r := f.tell h
  return ({ f with currentOffset := r.1 }, r.2)

def length (f : OpenFile) (h : Host) : Except Stop (Int × Host) := do
  let h ← f.lseek h 0 2
  return f.tell h

/-- The address and the port only go to the host, which decides. -/
def connect (f : OpenFile) (env : Env) : Int × OpenFile :=
  if f.type ≠ 2 then (-1, f)
  else if env.connects then (0, { f with isConnect := true })
  else (-1, { f with isConnect := false })

end OpenFile

/-- `filename[i]` is empty in a free slot. -/
structure FileSystem where
  openfile : Fin 20 → Option OpenFile
  filename : Fin 20 → Name

namespace FileSystem

/-- The first free slot; the -1 that says there is none is `none` here. -/
def isFull (fs : FileSystem) : Option (Fin 20) :=
  (List.finRange 20).find? fun i => (fs.openfile i).isNone

def setFile (fs : FileSystem) (i : Fin 20) (f : Option OpenFile) : FileSystem :=
  { fs with openfile := Function.update fs.openfile i f }

def setName (fs : FileSystem) (i : Fin 20) (name : Name) : FileSystem :=
  { fs with filename := Function.update fs.filename i name }

/-- `Create`; `OpenForWrite` asserts that the file could be opened. -/
def create (h : Host) (env : Env) (name : Name) : Except Stop Host :=
  match h.openTrunc env name with
  | (none, _) => .error (.abort .openForWrite)
  | (some fd, h) =>
    let r := h.close fd
    if r.1 then .ok r.2 else .error (.abort .close)

def openAny (h : Host) (env : Env) (name : Name) (junk : Int) : Option OpenFile × Host :=
  let r := h.openRW env name
  (r.1.map fun fd => .ofFile fd junk, r.2)

def openMode (h : Host) (env : Env) (name : Name) (type : Int) : Option OpenFile × Host :=
  let r := h.openRW env name
  (r.1.map fun fd => .ofMode fd type, r.2)

def socketTCP (h : Host) (env : Env) : Option OpenFile × Host :=
  let r := h.socket env
  (r.1.map .ofSocket, r.2)

/-- `Remove`; `Unlink` turns the result of the host into a `bool`. -/
def remove (h : Host) (env : Env) (name : Name) : Bool × Host :=
  let r := h.unlink env name
  (r.1 == 0, r.2)

def stdinName : Name := "stdin".toUTF8.toList
def stdoutName : Name := "stdout".toUTF8.toList

/-- `FileSystem()`, with what the host decides in each of its four calls. -/
def new (h : Host) (env₁ env₂ env₃ env₄ : Env) (junk : Int) : Except Stop (FileSystem × Host) := do
  let fs : FileSystem := ⟨fun _ => none, fun _ => []⟩
  let h ← create h env₁ stdinName
  let h ← create h env₂ stdoutName
  match openAny h env₃ stdinName junk with
  | (none, _) => throw (.abort .nullPointer)
  | (some f₀, h) =>
    let fs := (fs.setFile 0 (some { f₀ with type := 1 })).setName 0 stdinName
    match openAny h env₄ stdoutName junk with
    | (none, _) => throw (.abort .nullPointer)
    | (some f₁, h) =>
      return ((fs.setFile 1 (some { f₁ with type := 0 })).setName 1 stdoutName, h)

end FileSystem

abbrev Files := FileSystem × Host

end Nachos
