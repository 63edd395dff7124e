import MiniProtobuf.Connection.Draining
import MiniProtobuf.Exchange.Exact
import MiniProtobuf.Machine.Family

/-!
# A server and its clients

`TcpServer` with the connections that it has accepted, all of which run on one `io_context`. Each of them is a
`TcpConnection` of its own: what it makes of its client's bytes does not depend on the other clients, on what
they send and on how the tasks are interleaved.
-/

namespace MiniProtobuf
open Wire BaseCmd Machine

/-- The tasks of a `TcpConnection`; its `Process` calls the dispatcher of the server. -/
inductive Task where
  | process
  | startRead
  | handleRead (chunk : Bytes)
  | handleReadError
  | send
  | transmit (k n : Nat)
  | handleWrite (k : Nat) (ok : Bool)

def Task.action : Task → ConnectionAction .baseCmd
  | .process => .process (dispatcher .server)
  | .startRead => .startRead
  | .handleRead chunk => .handleRead chunk
  | .handleReadError => .handleReadError
  | .send => .send
  | .transmit k n => .transmit k n
  | .handleWrite k ok => .handleWrite k ok

structure TcpServer where
  connections : List Connection
  /-- `sp_new_connection` is not null. -/
  newConnection : Bool
  /-- An `async_accept` is under way. -/
  accepting : Bool
  /-- Posted `Process` tasks of the server itself. -/
  processes : Nat
  /-- An exception has left `io_context::run`. -/
  down : Bool

namespace TcpServer

def startAccept (s : TcpServer) : TcpServer :=
  let s := { s with newConnection := true }
  let s := { s with accepting := true }
  { s with newConnection := false }

def start : TcpServer :=
  startAccept { connections := [], newConnection := false, accepting := false, processes := 1, down := false }

/-- `handle_accept` behind `sp->start()`. There is no result when its loop does not end. -/
def handleAccept (started : Option Connection) (s : TcpServer) : Option TcpServer :=
  if s.newConnection then none else some (startAccept { s with connections := s.connections ++ started.toList })

end TcpServer

/-- A new connection has the pending length and the temporary buffers that its memory held. -/
inductive TcpServerAction where
  | process
  | accepted (preRecivesTotalLen : Int) (tempBuffer tempBufferProcess : Bytes)
  /-- `remote_endpoint` throws, because the peer has gone before `handle_accept`. -/
  | peerGone
  | acceptFailed
  | connection (i : Nat) (task : Task)

/-- Every handler that was called has a defined result. -/
def defined (seen : List (Occurrence .baseCmd)) : Bool :=
  (dispatched (routeEvents seen)).all fun (typeName, msg) =>
    (serverMessageDispatcher typeName).all fun processor => (processor msg).isSome

/-- There is no step where the behaviour is not defined: a sign-in without a user, of any client, ends the runs of
all of them. -/
def tcpServerMachine (pl : Platform) : Machine TcpServer TcpServerAction (Nat × Occurrence .baseCmd) where
  step s action :=
    if s.down then none
    else
      match action with
      | .process => if s.processes = 0 then none else some ({ s with processes := s.processes - 1 + 1 }, [])
      | .accepted pre temp tempProcess =>
        if s.accepting then
          (TcpServer.handleAccept (some (.start (.new pre temp tempProcess))) { s with accepting := false }).map (·, [])
        else none
      | .peerGone => if s.accepting then some ({ s with accepting := false, down := true }, []) else none
      | .acceptFailed =>
        if s.accepting then (TcpServer.handleAccept none { s with accepting := false }).map (·, []) else none
      | .connection i task => do
        let c ← s.connections[i]?
        let (c, seen) ← (connectionMachine pl .baseCmd .server).step c task.action
        if defined seen then some ({ s with connections := s.connections.set i c }, seen.map (i, ·)) else none

/-- What an action of the server is for the family of its connections. -/
def TcpServerAction.family : TcpServerAction → List (FamilyAction Connection (ConnectionAction .baseCmd))
  | .accepted pre temp tempProcess => [.spawn (.start (.new pre temp tempProcess))]
  | .connection i task => [.one i task.action]
  | _ => []

variable {pl : Platform} {s t : TcpServer} {as : List TcpServerAction} {events : List (Nat × Occurrence .baseCmd)}

/-! ### Accepting -/

/-- Until an exception ends it, the server has one accept under way and one task of its own, and
`sp_new_connection` is null. -/
structure TcpServer.Ready (s : TcpServer) : Prop where
  newConnection : s.newConnection = false
  running : s.down = false → s.accepting = true ∧ s.processes = 1

theorem step_family {action : TcpServerAction} (ready : s.Ready)
    (taken : (tcpServerMachine pl).step s action = some (t, events)) :
    t.Ready ∧ (connectionMachine pl .baseCmd .server).family.run s.connections action.family =
      some (t.connections, events) := by
  simp only [tcpServerMachine] at taken
  split at taken
  · cases taken
  rename_i up
  obtain ⟨accepting, posted⟩ := ready.running (Bool.eq_false_iff.mpr up)
  cases action with
  | process =>
    simp only [posted] at taken
    cases taken
    exact ⟨⟨ready.newConnection, fun _ => ⟨accepting, rfl⟩⟩, rfl⟩
  | accepted pre temp tempProcess =>
    simp only [accepting, if_true, TcpServer.handleAccept, ready.newConnection, Bool.false_eq_true, if_false] at taken
    cases taken
    exact ⟨⟨rfl, fun _ => ⟨rfl, posted⟩⟩, rfl⟩
  | peerGone =>
    simp only [accepting, if_true] at taken
    cases taken
    exact ⟨⟨ready.newConnection, by rintro ⟨⟩⟩, rfl⟩
  | acceptFailed =>
    simp only [accepting, if_true, TcpServer.handleAccept, ready.newConnection, Bool.false_eq_true, if_false] at taken
    cases taken
    exact ⟨⟨rfl, fun _ => ⟨rfl, posted⟩⟩, by simp [TcpServerAction.family, run, TcpServer.startAccept]⟩
  | connection i task =>
    obtain ⟨c, found, rest⟩ := Option.bind_eq_some_iff.mp taken
    obtain ⟨⟨c', seen⟩, step, last⟩ := Option.bind_eq_some_iff.mp rest
    split at last <;> cases last
    refine ⟨⟨ready.newConnection, fun _ => ⟨accepting, posted⟩⟩, run_single.trans ?_⟩
    simp only [family, found, step, Option.bind_eq_bind, Option.bind_some]

theorem ready_start : TcpServer.start.Ready := ⟨rfl, fun _ => ⟨rfl, rfl⟩⟩

theorem run_family (ready : s.Ready) (runs : (tcpServerMachine pl).run s as = some (t, events)) :
    t.Ready ∧ (connectionMachine pl .baseCmd .server).family.run s.connections (as.flatMap TcpServerAction.family) =
      some (t.connections, events) := by
  obtain ⟨last, groups, became, family⟩ := run_refines TcpServer.connections some TcpServer.Ready
    (fun action group => group = action.family)
    (fun {s action t seen} ready taken => by
      rw [List.filterMap_some]
      obtain ⟨next, here⟩ := step_family ready taken
      exact ⟨next, _, rfl, here⟩) ready runs
  have groups_eq : groups = as.map TcpServerAction.family := by
    clear runs family
    induction became with
    | nil => rfl
    | cons same _ ih => rw [same, ih, List.map_cons]
  rw [List.filterMap_some, groups_eq, ← List.flatMap_def] at family
  exact ⟨last, family⟩

theorem chains_run {route : Route} {c : Connection} {actions : List (ConnectionAction .baseCmd)}
    {log : List (Occurrence .baseCmd)}
    (runs : (connectionMachine pl .baseCmd .server).run (Connection.start route) actions = some (c, log)) :
    Chains c := by
  have always : (connectionMachine pl .baseCmd .server).Meets (fun _ _ => True) (Connection.start route) actions :=
    meets_of_forall fun _ _ _ => trivial
  exact run_induct (fun _ _ c => Chains c) (fun chains _ taken => (step_input taken).chains chains)
    ⟨fun _ => ⟨rfl, rfl⟩, by rintro ⟨⟩⟩ always runs

theorem spawn_of_mem {start : Connection} {as : List TcpServerAction}
    (spawned : FamilyAction.spawn start ∈ as.flatMap TcpServerAction.family) :
    ∃ pre temp tempProcess, TcpServerAction.accepted pre temp tempProcess ∈ as ∧
      start = .start (.new pre temp tempProcess) := by
  obtain ⟨action, present, inside⟩ := List.mem_flatMap.mp spawned
  cases action with
  | accepted pre temp tempProcess =>
    cases List.mem_singleton.mp inside
    exact ⟨pre, temp, tempProcess, present, rfl⟩
  | connection j task => cases List.mem_singleton.mp inside
  | process | peerGone | acceptFailed => cases inside

theorem down_of_run (runs : (tcpServerMachine pl).run s as = some (t, events)) (up : s.down = false)
    (never : TcpServerAction.peerGone ∉ as) : t.down = false := by
  have kept : (tcpServerMachine pl).Meets (fun _ a => a ≠ .peerGone) s as :=
    meets_of_forall fun _ a member same => never (same ▸ member)
  refine run_induct (fun _ _ s => s.down = false) ?_ up kept runs
  intro _ _ s action t seen up other taken
  simp only [tcpServerMachine, up, Bool.false_eq_true, if_false] at taken
  cases action with
  | peerGone => exact absurd rfl other
  | process =>
    dsimp only at taken
    split at taken <;> cases taken
    rfl
  | accepted pre temp tempProcess | acceptFailed =>
    dsimp only at taken
    split at taken
    · obtain ⟨u, handled, same⟩ := Option.map_eq_some_iff.mp taken
      cases same
      rw [TcpServer.handleAccept] at handled
      split at handled <;> cases handled
      rfl
    · cases taken
  | connection i task =>
    obtain ⟨c, -, rest⟩ := Option.bind_eq_some_iff.mp taken
    obtain ⟨⟨c', seen⟩, -, last⟩ := Option.bind_eq_some_iff.mp rest
    split at last <;> cases last
    rfl

/-- At every point of every run: unless a peer has gone before its accept was handled, the server can take the next
client, without waiting in the loop of `handle_accept`, and has one task of its own; and every connection has its
two chains. -/
theorem tcp_server_ready (pl : Platform) (as : List TcpServerAction) (s : TcpServer)
    (events : List (Nat × Occurrence .baseCmd))
    (runs : (tcpServerMachine pl).run TcpServer.start as = some (s, events)) :
    (TcpServerAction.peerGone ∉ as → s.processes = 1 ∧ ∀ pre temp tempProcess, ∃ t,
      (tcpServerMachine pl).step s (.accepted pre temp tempProcess) = some (t, []) ∧
        t.connections = s.connections ++ [.start (.new pre temp tempProcess)]) ∧
      ∀ c ∈ s.connections, Chains c := by
  obtain ⟨ready, family⟩ := run_family ready_start runs
  refine ⟨fun never => ?_, fun c member => ?_⟩
  · have up := down_of_run runs rfl never
    obtain ⟨accepting, posted⟩ := ready.running up
    refine ⟨posted, fun pre temp tempProcess => ?_⟩
    simp only [tcpServerMachine, up, accepting, TcpServer.handleAccept, ready.newConnection, Bool.false_eq_true,
      if_false, if_true, Option.map_some]
    exact ⟨_, rfl, rfl⟩
  · obtain ⟨i, there⟩ := List.mem_iff_getElem?.mp member
    obtain ⟨start, spawned, own⟩ := run_member (Nat.zero_le i) family there
    obtain ⟨pre, temp, tempProcess, -, rfl⟩ := spawn_of_mem spawned
    exact chains_run own

theorem tcp_server_ready_two :
    ∃ s events, (tcpServerMachine .x64).run .start [.accepted 0 [] [], .process, .acceptFailed, .accepted 5 [] []] =
      some (s, events) ∧ s.processes = 1 := by
  refine ⟨_, _, rfl, ?_⟩
  exact ((tcp_server_ready .x64 [.accepted 0 [] [], .process, .acceptFailed, .accepted 5 [] []] _ _ rfl).1
    (by simp)).1

/-! ### One client -/

def heardBy (i : Nat) (as : List TcpServerAction) : Bytes :=
  as.flatMap fun
    | .connection j (.handleRead chunk) => if j = i then chunk else []
    | _ => []

/-- The tasks of one connection, among the actions of the family. -/
theorem heard_actionsOf (i n : Nat) (as : List TcpServerAction) :
    heard (actionsOf i n (as.flatMap TcpServerAction.family)) = heardBy i as := by
  induction as generalizing n with
  | nil => rfl
  | cons action as ih =>
    rw [heardBy, List.flatMap_cons, List.flatMap_cons, ← heardBy]
    cases action with
    | process => exact ih n
    | accepted pre temp tempProcess => exact ih (n + 1)
    | peerGone => exact ih n
    | acceptFailed => exact ih n
    | connection j task =>
      rw [TcpServerAction.family, List.singleton_append, actionsOf]
      by_cases here : j = i
      · rw [if_pos here, ← List.singleton_append, heard_append, ih n]
        cases task <;> simp [heard, Task.action, here]
      · rw [if_neg here, ih n]
        cases task <;> simp [here]

/-- The actions that a connection of the server can take. -/
def Served : ConnectionAction .baseCmd → Prop := fun action => ∃ task : Task, action = task.action

theorem served_actionsOf (i n : Nat) (as : List TcpServerAction) :
    ∀ a ∈ actionsOf i n (as.flatMap TcpServerAction.family), Served a := by
  induction as generalizing n with
  | nil => exact fun _ member => absurd member List.not_mem_nil
  | cons action as ih =>
    rw [List.flatMap_cons]
    cases action with
    | process => exact ih n
    | accepted pre temp tempProcess => exact ih (n + 1)
    | peerGone => exact ih n
    | acceptFailed => exact ih n
    | connection j task =>
      rw [TcpServerAction.family, List.singleton_append, actionsOf]
      split
      · exact List.forall_mem_cons.mpr ⟨⟨task, rfl⟩, ih n⟩
      · exact ih n

section Tracking

variable {P : Pool} {all : List Packet} {ahead : Bytes} {log events : List (Event P)} {c d : Connection}

theorem SameInput.tracks {todo : List Packet} (same : SameInput c d) (tracks : Tracks all ahead log c.route todo) :
    Tracks all ahead log d.route todo :=
  ⟨tracks.handed, tracks.aligned.congr same.pending same.stream⟩

/-- A step keeps a connection on the track of its packets, also after an error. -/
theorem InputStep.tracks {todo : List Packet} {a : ConnectionAction P} (step : InputStep pl P c d a events)
    (contained : ∀ p ∈ all, p.Contained) (quiet : ∀ dispatch, a = .process dispatch → Quiet dispatch)
    (tracks : Tracks all (heard [a] ++ ahead) log c.route todo) :
    ∃ todo', Tracks all ahead (log ++ events) d.route todo' := by
  cases step with
  | other unheard same =>
    rw [unheard, List.nil_append] at tracks
    rw [List.append_nil]
    exact ⟨todo, same.tracks tracks⟩
  | process posted same =>
    rcases tracks.processRecv pl contained ((quiet _ rfl).throwsIdle c.route) with ⟨waiting, -⟩ | ⟨p, rest, -, taking⟩
    · exact ⟨todo, same.tracks waiting⟩
    · exact ⟨rest, same.tracks taking⟩
  | startRead posted same =>
    rw [List.append_nil]
    exact ⟨todo, same.tracks tracks⟩
  | read outstanding room same =>
    rw [heard_handleRead] at tracks
    rw [List.append_nil]
    exact ⟨todo, same.tracks (tracks.receive room)⟩
  | failed outstanding same =>
    rw [List.append_nil]
    exact ⟨todo, same.tracks tracks⟩

/-- Nothing is left to come, when the buffer is empty and every packet carries something. -/
theorem Aligned.eq_nil {r : Route} {todo : List Packet} (aligned : Aligned [] r todo)
    (buffer : r.dataStreamReceive = []) (carries : ∀ p ∈ todo, p.payload ≠ []) : todo = [] := by
  cases aligned with
  | idle none rest =>
    cases todo with
    | nil => rfl
    | cons p todo =>
      have lengths := congrArg List.length rest
      rw [buffer, wire_cons, List.length_append, List.length_append, p.length_bytes] at lengths
      simp only [List.length_nil] at lengths
      omega
  | @pending p packets some rest =>
    rw [buffer] at rest
    exact absurd (List.append_eq_nil_iff.mp rest.symm).1 (carries p List.mem_cons_self)

end Tracking

/-- What one step sends is what the handlers of the messages that it dispatches send. -/
theorem served_sends {c d : Connection} {a : ConnectionAction .baseCmd} {seen : List (Occurrence .baseCmd)}
    (served : Served a) (taken : (connectionMachine pl .baseCmd .server).step c a = some (d, seen)) :
    sentMessages seen = sentBy (dispatcher .server) (routeEvents seen) := by
  obtain ⟨task, rfl⟩ := served
  cases task with
  | process =>
    simp only [Task.action, connectionMachine] at taken
    split at taken
    · cases taken
    · have pair := congrArg Prod.snd (Option.some.inj taken)
      simp only [Connection.process] at pair
      rw [← pair, sentMessages_call, routeEvents_call]
  | startRead | send | handleReadError =>
    simp only [Task.action, connectionMachine] at taken
    split at taken
    · cases taken
    · cases taken
      rfl
  | handleRead chunk =>
    simp only [Task.action, connectionMachine] at taken
    split at taken
    · cases taken
    · obtain ⟨route, -, same⟩ := Option.map_eq_some_iff.mp taken
      cases same
      rfl
  | transmit k n | handleWrite k ok =>
    obtain ⟨o, -, same⟩ := Option.map_eq_some_iff.mp taken
    cases same
    rfl

theorem sentBy_append (events later : List (Event .baseCmd)) :
    sentBy (dispatcher .server) (events ++ later) =
      sentBy (dispatcher .server) events ++ sentBy (dispatcher .server) later := by
  rw [sentBy, dispatched_append, List.flatMap_append, sentBy, sentBy]

/-- A connection of the server, over a whole run. -/
theorem run_served {all : List Packet} {route : Route} {d : Connection} {actions : List (ConnectionAction .baseCmd)}
    {events : List (Occurrence .baseCmd)} (contained : ∀ p ∈ all, p.Contained) (idle : route.preRecivesTotalLen = 0)
    (empty : route.dataStreamReceive = []) (served : ∀ a ∈ actions, Served a)
    (runs : (connectionMachine pl .baseCmd .server).run (Connection.start route) actions = some (d, events)) :
    sentMessages events = sentBy (dispatcher .server) (routeEvents events) ∧
      ∀ ahead, heard actions ++ ahead = wire all → ∃ todo, Tracks all ahead (routeEvents events) d.route todo := by
  let Inv (hist : List (ConnectionAction .baseCmd)) (log : List (Occurrence .baseCmd)) (c : Connection) : Prop :=
    sentMessages log = sentBy (dispatcher .server) (routeEvents log) ∧
      ∀ ahead, heard hist ++ ahead = wire all → ∃ todo, Tracks all ahead (routeEvents log) c.route todo
  have initial : Inv [] [] (Connection.start route) := by
    refine ⟨rfl, fun ahead stream => ?_⟩
    obtain rfl : ahead = wire all := stream
    exact ⟨all, .start idle empty⟩
  have meets : (connectionMachine pl .baseCmd .server).Meets (fun _ a => Served a) (Connection.start route) actions :=
    meets_of_forall fun _ => served
  refine run_induct Inv ?_ initial meets runs
  rintro hist log c a d seen ⟨sends, follows⟩ served taken
  refine ⟨?_, fun ahead stream => ?_⟩
  · rw [sentMessages_append, routeEvents_append, sentBy_append, sends, served_sends served taken]
  · rw [heard_append, List.append_assoc] at stream
    obtain ⟨todo, tracks⟩ := follows _ stream
    rw [routeEvents_append]
    refine (step_input taken).tracks contained (fun dispatch same => ?_) tracks
    obtain ⟨task, rfl⟩ := served
    cases task <;> cases same
    exact server_quiet

/-- The handlers answer the requests that the packets carry, each with its response. -/
theorem sent_of_packets (asked : List Asked) :
    ((asked.map Asked.packet).filterMap (Packet.content .baseCmd)).flatMap
        (fun (typeName, msg) => (dispatcher .server typeName msg).sent) =
      asked.map fun q => response q.message := by
  induction asked with
  | nil => rfl
  | cons q asked ih =>
    have served := q.served
    rw [List.map_cons, List.map_cons, List.filterMap_cons]
    cases content : q.packet.content .baseCmd with
    | none =>
      rw [content] at served
      cases served
    | some found =>
      rw [content] at served
      rw [List.flatMap_cons, ih]
      exact congrArg (· ++ _) served

theorem exists_asked {messages : List Message} (acceptable : ∀ m ∈ messages, Acceptable m) :
    ∃ asked : List Asked, asked.map Asked.message = messages := by
  induction messages with
  | nil => exact ⟨[], rfl⟩
  | cons m messages ih =>
    obtain ⟨⟨request, body⟩, others⟩ := List.forall_mem_cons.mp acceptable
    obtain ⟨asked, rfl⟩ := ih others
    exact ⟨⟨m, request, body⟩ :: asked, rfl⟩

theorem wire_asked (asked : List Asked) :
    wire (asked.map Asked.packet) = (asked.map Asked.message).flatMap (frame .baseCmd) := by
  induction asked with
  | nil => rfl
  | cons q asked ih => rw [List.map_cons, wire_cons, q.packet_bytes, ih, List.map_cons, List.flatMap_cons]

/-- Whatever the other clients send and however the tasks are interleaved, for a client whose bytes are those of
acceptable requests the responses are passed to `Send`, in order, each once; and all of them, once its buffer is
empty. -/
theorem tcp_server_answers (pl : Platform) (as : List TcpServerAction) (s : TcpServer)
    (events : List (Nat × Occurrence .baseCmd))
    (fresh : ∀ pre temp tempProcess, TcpServerAction.accepted pre temp tempProcess ∈ as → pre = 0)
    (runs : (tcpServerMachine pl).run TcpServer.start as = some (s, events)) (i : Nat) (c : Connection)
    (there : s.connections[i]? = some c) (messages : List Message) (acceptable : ∀ m ∈ messages, Acceptable m)
    (sends : heardBy i as <+: messages.flatMap (frame .baseCmd)) :
    sentMessages (eventsOf i events) <+: messages.map response ∧
      (heardBy i as = messages.flatMap (frame .baseCmd) → c.route.dataStreamReceive = [] →
        sentMessages (eventsOf i events) = messages.map response) := by
  obtain ⟨asked, rfl⟩ := exists_asked acceptable
  obtain ⟨-, family⟩ := run_family ready_start runs
  obtain ⟨start, spawned, own⟩ := run_member (Nat.zero_le i) family there
  obtain ⟨pre, temp, tempProcess, present, rfl⟩ := spawn_of_mem spawned
  have contained : ∀ p ∈ asked.map Asked.packet, p.Contained := by
    intro p member
    obtain ⟨q, -, rfl⟩ := List.mem_map.mp member
    exact packetOf_contained
  obtain ⟨sent, follows⟩ := run_served contained (fresh pre temp tempProcess present) rfl
    (served_actionsOf i 0 as) own
  obtain ⟨ahead, stream⟩ := sends
  obtain ⟨todo, tracks⟩ := follows ahead (by rw [heard_actionsOf, stream, wire_asked])
  obtain ⟨done, parts, hands⟩ := tracks.handed
  have prefixed : done = (asked.take done.length).map Asked.packet := by
    rw [List.map_take, parts, List.take_left]
  have answered : sentMessages (eventsOf i events) = (asked.take done.length).map fun q => response q.message := by
    rw [sent, sentBy, hands, prefixed, List.length_map, sent_of_packets]
    simp
  rw [answered, List.map_map]
  refine ⟨?_, fun everything buffer => ?_⟩
  · rw [List.map_take]
    exact List.take_prefix _ _
  · have none_ahead : ahead = [] := by
      rw [everything] at stream
      exact List.append_cancel_left (stream.trans (List.append_nil _).symm)
    have finished : todo = [] := by
      refine (none_ahead ▸ tracks.aligned).eq_nil buffer fun p member => ?_
      obtain ⟨q, -, rfl⟩ := List.mem_map.mp (tracks.mem member)
      exact List.ne_nil_of_length_pos (Nat.lt_of_lt_of_le (by decide) q.packet_length.1)
    rw [finished, List.append_nil] at parts
    have length := congrArg List.length parts
    rw [List.length_map] at length
    rw [← length, List.take_length]
    rfl

/-- One client sends a request, and another one bytes that are no frame. -/
theorem tcp_server_answers_beside_junk :
    let asks : Message := .reqMove ⟨1, 2⟩
    let as : List TcpServerAction :=
      [.accepted 0 [] [], .accepted 0 [] [], .connection 1 .startRead, .connection 0 .startRead,
        .connection 1 (.handleRead (ascii "no frame at all")), .connection 0 (.handleRead (frame .baseCmd asks)),
        .connection 1 .process, .connection 0 .process]
    ∃ s events, (tcpServerMachine .x64).run .start as = some (s, events) ∧
      sentMessages (eventsOf 0 events) = [response asks] := by
  intro asks as
  have evaluates : ((tcpServerMachine .x64).run .start as).any
      (fun (s, _) => s.connections[0]?.any fun c => c.route.dataStreamReceive = []) = true := by
    decide +kernel
  obtain ⟨s, events, runs, seen⟩ := exists_run evaluates
  obtain ⟨c, there, buffer⟩ := (Option.any_eq_true _ _).mp seen
  have acceptable : ∀ m ∈ [asks], Acceptable m := by
    intro m member
    obtain rfl := List.mem_singleton.mp member
    exact ⟨.move _, by decide +kernel⟩
  have fresh : ∀ pre temp tempProcess, TcpServerAction.accepted pre temp tempProcess ∈ as → pre = 0 := by
    intro pre temp tempProcess member
    simp only [as, List.mem_cons, TcpServerAction.accepted.injEq, reduceCtorEq, List.not_mem_nil, or_false,
      or_self] at member
    exact member.1
  have whole : heardBy 0 as = [asks].flatMap (frame .baseCmd) := by decide +kernel
  refine ⟨s, events, runs, ?_⟩
  exact (tcp_server_answers .x64 as s events fresh runs 0 c there [asks] acceptable ⟨[], by simpa using whole⟩).2 whole
    (of_decide_eq_true buffer)

end MiniProtobuf
