import MiniProtobuf.Machine.Run
import MiniProtobuf.Protobuf.BaseCmd
import MiniProtobuf.Protobuf.CodedStream

/-!
# `MessageRoute`

The route of one connection: the frame that `Send` appends, the copy loop of `Receive`, and
`ProcessRecv` with its pending length, its ignored read results and its catch block. The protobuf
runtime is a parameter, and so is what a handler does when it is called.
-/

namespace MiniProtobuf
open Wire BaseCmd

/-- What the target decides: the width of `size_t`, and how many bytes a stream buffer can hold. -/
structure Platform where
  sizeBits : Nat
  maxSize : Nat
  word_le : 32 ≤ sizeBits
  maxSize_lt : maxSize + 4 ≤ 2 ^ sizeBits
  int_le : 2 ^ 31 ≤ maxSize + 1

/-- A buffer is a `std::vector<char>`, which holds at most `PTRDIFF_MAX` bytes. -/
def Platform.x64 : Platform := ⟨64, 2 ^ 63 - 1, by decide, by decide, by decide⟩

/-- `totalLen - sizeof(int)`, in the arithmetic of `size_t`. -/
def Platform.minusInt (pl : Platform) (totalLen : Nat) : Nat :=
  (totalLen + (2 ^ pl.sizeBits - 4)) % 2 ^ pl.sizeBits

/-- The generated pool with the messages of its types, as the route uses them. -/
structure Pool where
  Message : Type
  getTypeName : Message → Bytes
  serialize : Message → Bytes
  createMessage : Bytes → Option Message
  parseFromArray : Message → Bytes → Message × Bool

/-- The pool of a process that links `BaseCmd.pb.cc`. -/
abbrev Pool.baseCmd : Pool where
  Message := BaseCmd.Message
  getTypeName := Message.getTypeName
  serialize := Message.serialize
  createMessage := Message.createMessage
  parseFromArray := Message.parseFromArray

/-- The start of every frame: `char head[] = { "pbh" }`, four bytes with its terminator. -/
def head : Bytes := ascii "pbh" ++ [0]

def tempBufferSize : Nat := 1024

/-- The members of `MessageRoute` that its functions read. -/
structure Route where
  preRecivesTotalLen : Int
  dataStreamReceive : Bytes
  dataStreamSend : Bytes
  tempBuffer : Bytes
  tempBufferProcess : Bytes
  deriving DecidableEq

/-- The constructor assigns neither the pending length nor the temporary buffers. -/
def Route.new (preRecivesTotalLen : Int) (tempBuffer tempBufferProcess : Bytes) : Route :=
  ⟨preRecivesTotalLen, [], [], tempBuffer, tempBufferProcess⟩

variable (pl : Platform) (P : Pool)

/-! ### Sending -/

/-- `SerializeToCodedStream` writes nothing for a message past `INT_MAX` bytes. -/
def toCodedStream (bytes : Bytes) : Bytes := if bytes.length < 2 ^ 31 then bytes else []

/-- The header that `Send` puts before a message. -/
def cmdTypeOf (msg : P.Message) : CmdType :=
  { type := P.getTypeName msg, size := toInt32 (P.serialize msg).length }

def frame (msg : P.Message) : Bytes :=
  let bodylen := toInt32 (P.serialize msg).length
  let header := (cmdTypeOf P msg).serialize
  let headlen := toInt32 header.length
  let totallen := toInt32 (8 + headlen + bodylen)
  head ++ (le32 (toUInt32 totallen) ++ (le32 (toUInt32 headlen) ++
    (toCodedStream header ++ toCodedStream (P.serialize msg))))

/-- `MessageRoute::Send`. -/
def send (r : Route) (msg : P.Message) : Route × Bool :=
  ({ r with dataStreamSend := r.dataStreamSend ++ frame P msg }, true)

/-! ### Receiving -/

/-- The loop of `Receive`: at most `TEMP_BUFFER_SIZE` bytes at a time, through `mTempBuffer`. -/
def receiveLoop : Nat → Bytes → Route → Route
  | 0, _, r => r
  | fuel + 1, buf, r =>
    if buf.length = 0 then r
    else
      let readSize := min buf.length tempBufferSize
      let tempBuffer := overwrite r.tempBuffer (buf.take readSize)
      receiveLoop fuel (buf.drop readSize)
        { r with tempBuffer, dataStreamReceive := r.dataStreamReceive ++ tempBuffer.take readSize }

/-- `MessageRoute::Receive` of an input buffer. It is defined when the buffer's size is an `int` and
the receive buffer has room. -/
def receive (r : Route) (buf : Bytes) : Option Route :=
  if buf.length < 2 ^ 31 ∧ r.dataStreamReceive.length + buf.length ≤ pl.maxSize then some (receiveLoop buf.length buf r)
  else none

/-- What one call of a handler does: the messages it sends on the route, and whether it then throws. -/
structure Handled where
  sent : List P.Message
  throws : Bool

/-- `BaseMessageDispatcher::Dispatch` with the handlers behind it. -/
abbrev Dispatch := Bytes → P.Message → Handled P

/-- What can be seen of a call of `ProcessRecv`: the sizes it asks `ReadRaw` for, the two slices it
has in hand when it reaches `createMessage`, and the calls of `Dispatch`. -/
inductive Event where
  | readRaw (size : Int)
  | frame (header body : Bytes)
  | dispatch (typeName : Bytes) (msg : P.Message)

structure Recv where
  route : Route
  ret : Bool
  events : List (Event P)

/-- From `createMessage` to the end of the function. The handler runs inside the `try`: when it
throws, the reset of the pending length is skipped. -/
def deliver (dispatcher : Option (Dispatch P)) (r : Route) (typeName body : Bytes) : Recv P :=
  match P.createMessage typeName with
  | none => ⟨{ r with preRecivesTotalLen := 0 }, true, []⟩
  | some prototype =>
    let msg := (P.parseFromArray prototype body).1
    match dispatcher with
    | none => ⟨{ r with preRecivesTotalLen := 0 }, true, []⟩
    | some dispatch =>
      let handled := dispatch typeName msg
      let r := handled.sent.foldl (fun r m => (send P r m).1) r
      ⟨if handled.throws then r else { r with preRecivesTotalLen := 0 }, true, [.dispatch typeName msg]⟩

/-- `ProcessRecv` from the opening of `iis` on, once the total length is known. -/
def processPayload (dispatcher : Option (Dispatch P)) (r : Route) (totalLen : Nat) : Recv P :=
  let cis := CodedInputStream.new r.dataStreamReceive (toInt32 (pl.minusInt totalLen))
  let (headLen, cis, _) := cis.readLittleEndian32 0
  if tempBufferSize < headLen then
    ⟨{ r with preRecivesTotalLen := 0, dataStreamReceive := cis.source }, false, []⟩
  else
    let (copied, cis, _) := cis.readRaw headLen
    let temp := overwrite r.tempBufferProcess copied
    let header := temp.take headLen
    let cmdType := (CmdType.parseFromArray header).1
    let bodyLen := toInt32 ((totalLen : Int) - headLen - 8)
    if bodyLen < 0 ∨ tempBufferSize < bodyLen then
      ⟨{ r with preRecivesTotalLen := 0, dataStreamReceive := cis.source, tempBufferProcess := temp }, false,
        [.readRaw headLen]⟩
    else
      let (copied, cis, _) := cis.readRaw bodyLen.toNat
      let temp := overwrite temp copied
      let body := temp.take bodyLen.toNat
      let rest := deliver P dispatcher { r with dataStreamReceive := cis.source, tempBufferProcess := temp }
        cmdType.type body
      { rest with events := [.readRaw headLen, .readRaw bodyLen, .frame header body] ++ rest.events }

/-- `MessageRoute::ProcessRecv` on the route's own pending length. The test `totalLen < 0` of an
unsigned value is never true. -/
def processRecv (dispatcher : Option (Dispatch P)) (r : Route) : Recv P :=
  if r.dataStreamReceive.length < 4 * 2 then ⟨r, false, []⟩
  else if 0 < r.preRecivesTotalLen then
    let totalLen := toUInt32 r.preRecivesTotalLen
    if r.dataStreamReceive.length < pl.minusInt totalLen then ⟨r, false, []⟩
    else processPayload pl P dispatcher r totalLen
  else
    let cishead := CodedInputStream.new r.dataStreamReceive 4
    let (copied, cishead, _) := cishead.readRaw 4
    let readhead := overwrite [0, 0, 0, 0] copied
    let r := { r with dataStreamReceive := cishead.source }
    if readhead ≠ head then ⟨{ r with preRecivesTotalLen := 0 }, false, [.readRaw 4]⟩
    else
      let cistotal := CodedInputStream.new r.dataStreamReceive 4
      let (totalLen, cistotal, _) := cistotal.readLittleEndian32 0
      let r := { r with dataStreamReceive := cistotal.source }
      if r.dataStreamReceive.length < pl.minusInt totalLen then
        ⟨{ r with preRecivesTotalLen := toInt32 totalLen }, false, [.readRaw 4]⟩
      else
        let rest := processPayload pl P dispatcher r totalLen
        { rest with events := .readRaw 4 :: rest.events }

/-! ### Runs -/

/-- A step of a route: bytes arrive, or `ProcessRecv` runs while the dispatcher behaves as given. -/
inductive Action where
  | receive (chunk : Bytes)
  | processRecv (dispatch : Dispatch P)

/-- The route as a machine. Bytes that have no room cannot arrive. -/
def routeMachine : Machine Route (Action P) (Event P) where
  step r
    | .receive chunk => (receive pl r chunk).map fun r => (r, [])
    | .processRecv dispatch =>
      let result := processRecv pl P (some dispatch) r
      some (result.route, result.events)

variable {P}

/-- The bytes that a sequence of actions hands to `Receive`. -/
def received (actions : List (Action P)) : Bytes :=
  actions.flatMap fun
    | .receive chunk => chunk
    | .processRecv _ => []

def dispatched (events : List (Event P)) : List (Bytes × P.Message) :=
  events.filterMap fun
    | .dispatch typeName msg => some (typeName, msg)
    | _ => none

def frames (events : List (Event P)) : List (Bytes × Bytes) :=
  events.filterMap fun
    | .frame header body => some (header, body)
    | _ => none

/-- A dispatcher whose handlers never throw. -/
def Quiet (dispatch : Dispatch P) : Prop := ∀ typeName msg, (dispatch typeName msg).throws = false

def silent : Dispatch P := fun _ _ => ⟨[], false⟩

theorem silent_quiet : Quiet (silent : Dispatch P) := fun _ _ => rfl

def QuietRun (actions : List (Action P)) : Prop :=
  ∀ dispatch, Action.processRecv dispatch ∈ actions → Quiet dispatch

end MiniProtobuf
