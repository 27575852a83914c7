import Mathlib.Data.Nat.Digits.Defs
import UniversalDB.Model.ChannelTesting
import UniversalDB.Model.Connections

/-! # `ChannelImpl`

One direction of a connection: the channel at one end sends, the one at the other end
receives, and between them is a stream of bytes. `int` has 32 bits and the low byte comes
first. An asynchronous write or read is over when all its bytes have been moved or the
connection is gone, and then its handler is run. -/

namespace UniversalDB.ChannelImpl

open ChannelTesting (MAX_MESSAGES_QUEUE_SIZE)

abbrev Message := List UInt8

/-- `INT_TO_STR`: the first four bytes of a `size_t`. -/
def intToStr (i : ℕ) : List UInt8 :=
  [UInt8.ofNat i, UInt8.ofNat (i / 256), UInt8.ofNat (i / 256 ^ 2), UInt8.ofNat (i / 256 ^ 3)]

/-- `*((int*) header_buf)`. -/
def strToInt (header : List UInt8) : ℤ :=
  (BitVec.ofNat 32 (Nat.ofDigits 256 (header.map UInt8.toNat))).toInt

/-- The two writes of `send`. The handler of the first one has the message. -/
inductive Write where
  | header (message : Message)
  | body
deriving DecidableEq, Repr

/-- The two reads of `recv`. -/
inductive Read where
  | header
  | body (length : ℕ)
deriving DecidableEq, Repr

def Read.size : Read → ℕ
  | .header => 4
  | .body length => length

/-- `write` has the number of the bytes that the socket has not taken, `read` the bytes
that have come, and `stream` is between the sockets. -/
structure Network where
  messageQueue : List Message
  write : Option (Write × ℕ)
  stream : List UInt8
  connected : Bool
  listening : Bool
  read : Option (Read × List UInt8)
deriving DecidableEq, Repr

/-- `received` has the answers of the receive callbacks that have been run. `popOfEmpty` is
the call of `pop()` on an empty queue, and `badLength` is a buffer of a negative length:
neither has a defined result. -/
inductive Event where
  | accepted (message : Message)
  | dropped (message : Message)
  | received (message : Message) (answers : List Bool)
  | closed
  | popOfEmpty
  | badLength
deriving DecidableEq, Repr

namespace Network

/-! ## The sender -/

/-- `taken` is how many bytes the socket takes at once. -/
def asyncWrite (n : Network) (write : Write) (buffer : List UInt8) (taken : ℕ) : Network :=
  let sent := if n.connected then buffer.take taken else []
  { n with
    write := some (write, buffer.length - sent.length)
    stream := n.stream ++ sent }

def send (n : Network) (message : Message) (taken : ℕ) : Network :=
  n.asyncWrite (.header message) (intToStr message.length) taken

def queueSend (n : Network) (message : Message) (taken : ℕ) : List Event × Network :=
  if n.messageQueue.length < MAX_MESSAGES_QUEUE_SIZE then
    let n' := { n with messageQueue := n.messageQueue ++ [message] }
    if n'.messageQueue.length = 1 then ([.accepted message], n'.send message taken)
    else ([.accepted message], n')
  else ([.dropped message], n)

/-- The handlers do not look at the error code. -/
def writeHandler (n : Network) (taken : ℕ) : Write → List Event × Network
  | .header message => ([], n.asyncWrite .body message taken)
  | .body =>
      match n.messageQueue with
      | [] => ([.popOfEmpty], { n with write := none })
      | _ :: rest =>
          let n' := { n with messageQueue := rest, write := none }
          match rest with
          | [] => ([], n')
          | front :: _ => ([], n'.send front taken)

/-! ## The receiver -/

def recv (n : Network) : Network :=
  { n with read := some (.header, []) }

/-- The answers of the callbacks that are run: the first one that answers `false` is the
last. -/
def runCallbacks : List Bool → List Bool
  | [] => []
  | answer :: answers => if answer then answer :: runCallbacks answers else [answer]

/-- The handlers do not look at the error code either. `buffer` is all that is in the
buffer, and `transferred` the number of its bytes that have been read. -/
def readHandler (n : Network) (buffer : List UInt8) (transferred : ℕ) (answers : List Bool) :
    Read → List Event × Network
  | .header =>
      if transferred = 0 then ([.closed], { n with read := none })
      else
        let length := strToInt buffer
        if length < 0 then ([.badLength], { n with read := none })
        else ([], { n with read := some (.body length.toNat, []) })
  | .body _ =>
      let run := runCallbacks answers
      if false ∈ run then ([.received buffer run], { n with read := none })
      else ([.received buffer run], n.recv)

end Network

/-! ## The steps -/

/-- `writeMore` is a write that goes on after the call that has begun it: its buffer has
been destroyed, so nothing is known about the bytes. In `readDone`, `memory` is what the
rest of the buffer holds that `malloc` has given, and `answers` is what the callbacks that
are registered answer. Of what is in the stream when the connection goes, `kept` bytes can
still be read. -/
inductive Action where
  | queueSend (message : Message) (taken : ℕ)
  | writeMore (bytes : List UInt8)
  | writeDone (taken : ℕ)
  | startListening
  | readSome (count : ℕ)
  | readDone (memory : List UInt8) (answers : List Bool)
  | disconnect (kept : ℕ)
deriving DecidableEq, Repr

def next (n : Network) : Action → Option (List Event × Network)
  | .queueSend message taken => some (n.queueSend message taken)
  | .writeMore bytes =>
      match n.write with
      | none => none
      | some (write, left) =>
          if n.connected ∧ bytes.length ≤ left then
            some ([], { n with
              write := some (write, left - bytes.length)
              stream := n.stream ++ bytes })
          else none
  | .writeDone taken =>
      match n.write with
      | none => none
      | some (write, left) =>
          if left = 0 ∨ n.connected = false then some (n.writeHandler taken write) else none
  | .startListening =>
      if n.listening then none else some ([], { n.recv with listening := true })
  | .readSome count =>
      match n.read with
      | none => none
      | some (read, bytes) =>
          if count ≤ n.stream.length ∧ bytes.length + count ≤ read.size then
            some ([], { n with
              read := some (read, bytes ++ n.stream.take count)
              stream := n.stream.drop count })
          else none
  | .readDone memory answers =>
      match n.read with
      | none => none
      | some (read, bytes) =>
          if bytes.length + memory.length = read.size ∧
              (memory = [] ∨ n.connected = false ∧ n.stream = []) then
            some (n.readHandler (bytes ++ memory) bytes.length answers read)
          else none
  | .disconnect kept =>
      if n.connected then
        some ([], { n with connected := false, stream := n.stream.take kept })
      else none

def machine : Machine Network Action Event where
  init := ⟨[], none, [], true, false, none⟩
  next := next

end UniversalDB.ChannelImpl
