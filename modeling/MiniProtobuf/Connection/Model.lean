import MiniProtobuf.Machine.Outbox
import MiniProtobuf.Route.Model

/-!
# `TcpConnection` and `TcpClient`

A connection is its route with the tasks that its callbacks have posted to the `io_context`, the
reads and writes under way and the flags that stop the chains. The two classes differ in when they
stop, and in what they do about a failed read.
-/

namespace MiniProtobuf
open Wire Machine

variable (pl : Platform) (P : Pool)

inductive Role where
  /-- `TcpConnection`. -/
  | server
  /-- `TcpClient`, once it is connected. -/
  | client
  deriving DecidableEq

structure Connection where
  route : Route
  /-- Set by a failed read of a `TcpConnection`. -/
  error : Bool
  /-- Set by `TcpClient::Close`. -/
  closed : Bool
  /-- Posted `start_read` tasks, which a `TcpClient` calls `Receive`. -/
  startReads : Nat
  processes : Nat
  sends : Nat
  /-- Outstanding `async_read` operations. -/
  reads : Nat
  /-- Outstanding `async_write` operations. -/
  writes : List (Write UInt8)
  written : Bytes

namespace Connection

/-- `start`, or `connect_handler`: the two chains are posted. -/
def start (route : Route) : Connection :=
  { route, error := false, closed := false, startReads := 1, processes := 1, sends := 0, reads := 0, writes := [],
    written := [] }

/-- The send buffer with the writes that drain it. -/
def outbox (c : Connection) : Outbox UInt8 := ⟨c.route.dataStreamSend, c.writes, c.written⟩

def withOutbox (c : Connection) (o : Outbox UInt8) : Connection :=
  { c with route := { c.route with dataStreamSend := o.buffer }, writes := o.writes, written := o.written }

/-- The flag after which the chains post nothing more. -/
def stopped : Role → Connection → Bool
  | .server, c => c.error
  | .client, c => c.closed

/-- `SendData`. A `TcpClient` posts the task whatever its flag says. -/
def sendData : Role → Connection → Connection
  | .server, c => if c.error then c else { c with sends := c.sends + 1 }
  | .client, c => { c with sends := c.sends + 1 }

/-- `MessageRoute::ProcessSend`. -/
def processSend (role : Role) (c : Connection) : Connection × Bool :=
  if c.route.dataStreamSend.length = 0 then (c, false) else (sendData role c, true)

/-- `start_read`, or `Receive`. -/
def startRead (c : Connection) : Connection := { c with reads := c.reads + 1 }

/-- `handle_read` without an error, or `read_handler`, after `ReadData`. -/
def handleRead (role : Role) (c : Connection) : Connection :=
  if stopped role c then c else { c with startReads := c.startReads + 1 }

/-- `handle_read` with an error. A `TcpClient` does not look at it. -/
def handleReadError : Role → Connection → Connection
  | .server, c => { c with error := true }
  | .client, c => handleRead .client c

/-- `Send`: `async_write` on what the send buffer holds. -/
def send (c : Connection) : Connection := c.withOutbox c.outbox.start

end Connection

/-- What can be seen of a connection: the events of its route, and the messages appended to the send
buffer. -/
inductive Occurrence where
  | route (event : Event P)
  | sent (msg : P.Message)

variable {P}

def sentBy (dispatch : Dispatch P) (events : List (Event P)) : List P.Message :=
  (dispatched events).flatMap fun (typeName, msg) => (dispatch typeName msg).sent

/-- `Process`: `ProcessRecv`, `ProcessSend`, and the next `Process` unless the chain stops. -/
def Connection.process (role : Role) (dispatch : Dispatch P) (c : Connection) : Connection × List (Occurrence P) :=
  let result := processRecv pl P (some dispatch) c.route
  let c := (processSend role { c with route := result.route }).1
  (if stopped role c then c else { c with processes := c.processes + 1 },
    result.events.map .route ++ (sentBy dispatch result.events).map .sent)

variable (P)

/-- A step of a connection: the application calls `MessageRoute::Send`, a posted task runs, a read
or a write makes progress or completes, or a client is closed. -/
inductive ConnectionAction where
  | message (msg : P.Message)
  | process (dispatch : Dispatch P)
  | startRead
  | handleRead (chunk : Bytes)
  | handleReadError
  | send
  | transmit (i n : Nat)
  | handleWrite (i : Nat) (ok : Bool)
  | close

def connectionMachine (role : Role) : Machine Connection (ConnectionAction P) (Occurrence P) where
  step c
    | .message msg => some ({ c with route := (MiniProtobuf.send P c.route msg).1 }, [.sent msg])
    | .process dispatch =>
      if c.processes = 0 then none
      else some (Connection.process pl role dispatch { c with processes := c.processes - 1 })
    | .startRead =>
      if c.startReads = 0 then none else some (Connection.startRead { c with startReads := c.startReads - 1 }, [])
    | .handleRead chunk =>
      if c.reads = 0 ∨ chunk = [] then none
      else (receive pl c.route chunk).map fun route =>
        (Connection.handleRead role { c with reads := c.reads - 1, route }, [])
    | .handleReadError =>
      if c.reads = 0 then none else some (Connection.handleReadError role { c with reads := c.reads - 1 }, [])
    | .send => if c.sends = 0 then none else some (Connection.send { c with sends := c.sends - 1 }, [])
    | .transmit i n => (c.outbox.transmit i n).map fun o => (c.withOutbox o, [])
    | .handleWrite i ok => (c.outbox.complete i ok).map fun o => (c.withOutbox o, [])
    | .close =>
      match role with
      | .server => none
      | .client => some ({ c with closed := true }, [])

variable {P}

def sentMessages (log : List (Occurrence P)) : List P.Message :=
  log.filterMap fun
    | .sent msg => some msg
    | .route _ => none

def routeEvents (log : List (Occurrence P)) : List (Event P) :=
  log.filterMap fun
    | .route event => some event
    | .sent _ => none

/-- The bytes that the reads of a sequence of actions hand to `Receive`. -/
def heard (actions : List (ConnectionAction P)) : Bytes :=
  actions.flatMap fun
    | .handleRead chunk => chunk
    | _ => []

end MiniProtobuf
