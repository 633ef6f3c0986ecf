import Nachos.Lib.TwosComplement

namespace Nachos
open TwosComplement

/-- The characters of a string before its NUL. -/
abbrev Name := List UInt8

/-- An open descriptor: a file with the offset of the next transfer, or a socket. -/
inductive Descriptor where
  | file (inode offset : ℕ)
  | socket
  deriving DecidableEq, Repr

/-- The files and sockets of the host, as POSIX describes them, for a program built for 32 bits:
a file that has outgrown `off_t` cannot be opened, and no write goes past its largest value.
`sent` lists what the writes to sockets have handed over, with their descriptors. -/
structure Host where
  dir : Name → Option ℕ
  data : ℕ → List UInt8
  fds : ℕ → Option Descriptor
  nextInode : ℕ
  sent : List (ℕ × List UInt8) := []

/-- What is left open about one system call: the descriptor that `open` or `socket`
gives, if any; how many bytes a transfer moves at most, if it does not fail; the bytes
that have arrived on a socket; the success of `connect` and `unlink`; and what the
kernel's heap holds where nothing was written. -/
structure Env where
  fd : Option ℕ
  limit : Option ℕ
  arrived : List UInt8
  connects : Bool
  unlinks : Bool
  junk : ℕ → UInt8

namespace Host

def newFd (h : Host) (env : Env) : Option ℕ := env.fd.filter fun fd => h.fds fd = none

def setFd (h : Host) (fd : ℕ) (d : Option Descriptor) : Host :=
  { h with fds := Function.update h.fds fd d }

def openRW (h : Host) (env : Env) (name : Name) : Option ℕ × Host :=
  match h.newFd env, h.dir name with
  | some fd, some i =>
    if ((h.data i).length : Int) ≤ intMax then (some fd, h.setFd fd (some (.file i 0)))
    else (none, h)
  | _, _ => (none, h)

def openTrunc (h : Host) (env : Env) (name : Name) : Option ℕ × Host :=
  match h.newFd env with
  | none => (none, h)
  | some fd =>
    let i := (h.dir name).getD h.nextInode
    (some fd, { h with
      dir := Function.update h.dir name (some i)
      data := Function.update h.data i []
      fds := Function.update h.fds fd (some (.file i 0))
      nextInode := max h.nextInode (i + 1) })

def socket (h : Host) (env : Env) : Option ℕ × Host :=
  match h.newFd env with
  | none => (none, h)
  | some fd => (some fd, h.setFd fd (some .socket))

/-- Whether there was something to close. -/
def close (h : Host) (fd : ℕ) : Bool × Host := ((h.fds fd).isSome, h.setFd fd none)

def unlink (h : Host) (env : Env) (name : Name) : Int × Host :=
  if env.unlinks ∧ (h.dir name).isSome then
    (0, { h with dir := Function.update h.dir name none })
  else (-1, h)

def whenceBase (h : Host) (i offset : ℕ) (whence : Int) : Option ℕ :=
  if whence = 0 then some 0
  else if whence = 1 then some offset
  else if whence = 2 then some (h.data i).length
  else none

def lseek (h : Host) (fd : ℕ) (offset whence : Int) : Int × Host :=
  match h.fds fd with
  | some (.file i o) =>
    match h.whenceBase i o whence with
    | some base =>
      if 0 ≤ base + offset ∧ base + offset ≤ intMax then
        (base + offset, h.setFd fd (some (.file i (base + offset).toNat)))
      else (-1, h)
    | none => (-1, h)
  | _ => (-1, h)

/-- `read`: the result, and the bytes it stores.  The count is passed as a `size_t`. -/
def read (h : Host) (env : Env) (fd : ℕ) (count : Int) : Int × List UInt8 × Host :=
  match h.fds fd, env.limit with
  | some (.file i o), some limit =>
    let bytes := ((h.data i).drop o).take (min limit (unsigned count))
    (bytes.length, bytes, h.setFd fd (some (.file i (o + bytes.length))))
  | some .socket, some limit =>
    let bytes := env.arrived.take (min (min limit (unsigned count)) intMax.toNat)
    (bytes.length, bytes, h)
  | _, _ => (-1, [], h)

def offset (h : Host) (fd : ℕ) : ℕ :=
  match h.fds fd with
  | some (.file _ o) => o
  | _ => 0

/-- A file's contents with bytes written at an offset, past its end with zeros between. -/
def overwrite (data : List UInt8) (offset : ℕ) (bytes : List UInt8) : List UInt8 :=
  data.take offset ++ List.replicate (offset - data.length) 0 ++ bytes ++
    data.drop (offset + bytes.length)

/-- `write` of the bytes from the start of a buffer.  What a count above `SSIZE_MAX` does
is left to the host. -/
def write (h : Host) (env : Env) (fd : ℕ) (bytes : ℕ → UInt8) (count : Int) : Int × Host :=
  match h.fds fd, env.limit with
  | some (.file i o), some limit =>
    let n := min (min limit (unsigned count)) (intMax.toNat - o)
    if count < 0 then ((min limit intMax.toNat : ℕ), h)
    else if n = 0 then (if count = 0 then 0 else -1, h)
    else
      (n, { h with
        data := Function.update h.data i (overwrite (h.data i) o ((List.range n).map bytes))
        fds := Function.update h.fds fd (some (.file i (o + n))) })
  | some .socket, some limit =>
    let n := min (min limit (unsigned count)) intMax.toNat
    (n, { h with sent := h.sent ++ [(fd, (List.range n).map bytes)] })
  | _, _ => (-1, h)

end Host
end Nachos
