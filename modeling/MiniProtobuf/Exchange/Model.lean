import Mathlib.Logic.Function.Basic
import MiniProtobuf.Route.Model

/-!
# A client and a server

The processors and dispatchers of the two programs, and a client route and a server route joined by
a transport that moves bytes in order, in chunks of any size.
-/

namespace MiniProtobuf
open Wire BaseCmd

/-- `BaseProcessor::Process`. There is no result where the C++ has no defined one: when the message
is not of the type that the processor casts it to, or has no element that it asks for. -/
abbrev Processor := Message → Option (Handled .baseCmd)

namespace Server

/-- `SigninProcessor` of the server. It reads `user(0)` without looking at the number of users. -/
def signinProcessor : Processor
  | .reqSignin ⟨user :: _⟩ => some ⟨[.rspSignin { name := user.name, succ := true }], false⟩
  | _ => none

def moveSuccess : Bytes := ascii "Move Function Success with No Error"

def moveProcessor : Processor
  | .reqMove _ => some ⟨[.rspMove moveSuccess], false⟩
  | _ => none

end Server

namespace Client

def signinProcessor : Processor
  | .rspSignin _ => some ⟨[], false⟩
  | _ => none

def moveProcessor : Processor
  | .rspMove _ => some ⟨[], false⟩
  | _ => none

end Client

/-- `m_ProcessorMap`. -/
abbrev ProcessorMap := Bytes → Option Processor

namespace ProcessorMap

def empty : ProcessorMap := fun _ => none

/-- `m_ProcessorMap[msg.GetTypeName()] = processor`. -/
def assign (map : ProcessorMap) (msg : Message) (processor : Processor) : ProcessorMap :=
  Function.update map msg.getTypeName (some processor)

/-- `BaseMessageDispatcher::Dispatch`. -/
def dispatch (map : ProcessorMap) : Dispatch .baseCmd := fun typeName msg =>
  match map typeName with
  | none => ⟨[], false⟩
  | some processor => (processor msg).getD ⟨[], false⟩

end ProcessorMap

def serverMessageDispatcher : ProcessorMap :=
  let map := ProcessorMap.empty.assign (.reqSignin {}) Server.signinProcessor
  let map := map.assign (.reqMove {}) Server.moveProcessor
  -- `reqAlerm` is declared, but the key is that of `reqMove` again.
  map.assign (.reqMove {}) Server.moveProcessor

def clientMessageDispatcher : ProcessorMap :=
  (ProcessorMap.empty.assign (.rspSignin {}) Client.signinProcessor).assign (.rspMove []) Client.moveProcessor

inductive Side where
  | client
  | server
  deriving DecidableEq

def Side.peer : Side → Side
  | .client => .server
  | .server => .client

def dispatcher : Side → Dispatch .baseCmd
  | .client => clientMessageDispatcher.dispatch
  | .server => serverMessageDispatcher.dispatch

structure Exchange where
  route : Side → Route
  wire : Side → Bytes

namespace Exchange

def start (client server : Route) : Exchange where
  route
    | .client => client
    | .server => server
  wire _ := []

def withRoute (x : Exchange) (side : Side) (r : Route) : Exchange := { x with route := Function.update x.route side r }

def withWire (x : Exchange) (side : Side) (bytes : Bytes) : Exchange :=
  { x with wire := Function.update x.wire side bytes }

end Exchange

/-- A step of the two programs: the client passes a message to `Send`, `n` bytes leave a side's send
buffer or arrive in its receive buffer, or a side calls `ProcessRecv`. -/
inductive ExchangeAction where
  | send (msg : Message)
  | transmit (side : Side) (n : Nat)
  | receive (side : Side) (n : Nat)
  | processRecv (side : Side)

def exchangeMachine (pl : Platform) : Machine Exchange ExchangeAction (Side × Event .baseCmd) where
  step x
    | .send msg => some (x.withRoute .client (send .baseCmd (x.route .client) msg).1, [])
    | .transmit side n =>
      let r := x.route side
      if n = 0 ∨ r.dataStreamSend.length < n then none
      else
        let x := x.withRoute side { r with dataStreamSend := r.dataStreamSend.drop n }
        some (x.withWire side.peer (x.wire side.peer ++ r.dataStreamSend.take n), [])
    | .receive side n =>
      if n = 0 ∨ (x.wire side).length < n then none
      else
        (receive pl (x.route side) ((x.wire side).take n)).map fun r =>
          ((x.withRoute side r).withWire side ((x.wire side).drop n), [])
    | .processRecv side =>
      let result := processRecv pl .baseCmd (some (dispatcher side)) (x.route side)
      some (x.withRoute side result.route, result.events.map (side, ·))

def requests (actions : List ExchangeAction) : List Message :=
  actions.filterMap fun
    | .send msg => some msg
    | _ => none

def responses (log : List (Side × Event .baseCmd)) : List (Bytes × Message) :=
  dispatched (log.filterMap fun
    | (.client, event) => some event
    | (.server, _) => none)

/-- Nothing can move: no step but a further request changes the state. -/
def Stuck (pl : Platform) (x : Exchange) : Prop :=
  ∀ a y seen, (∀ msg, a ≠ .send msg) → (exchangeMachine pl).step x a = some (y, seen) → y = x

/-- Every buffer is empty, and so is the transport. -/
def Exchange.Empty (x : Exchange) : Prop :=
  ∀ side, (x.route side).dataStreamSend = [] ∧ x.wire side = [] ∧ (x.route side).dataStreamReceive = []

end MiniProtobuf
