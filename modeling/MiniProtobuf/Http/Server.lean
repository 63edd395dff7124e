import MiniProtobuf.Http.Grammar
import MiniProtobuf.Machine.Family

/-!
# The HTTP server

`connection`, `connection_manager` and `server`. A connection has at most one operation under way, and a server
an accept and a wait for a signal besides. An operation that was started on a closed socket fails, and one whose
socket was closed behind it may still complete in any way: its result may have been waiting to be handled.
A read that makes the parser's arithmetic undefined is not a step.
-/

namespace MiniProtobuf.Http
open Wire Machine

inductive Operation where
  | read | write
  deriving DecidableEq

structure HttpConnection where
  parser : State
  request : Request
  reply : Reply
  /-- What is under way, and whether the socket was open when it was started. -/
  operation : Option (Operation × Bool)
  isOpen : Bool
  /-- Whether the manager's set holds the connection. -/
  managed : Bool

namespace HttpConnection

def doRead (c : HttpConnection) : HttpConnection := { c with operation := some (.read, c.isOpen) }

def doWrite (c : HttpConnection) : HttpConnection := { c with operation := some (.write, c.isOpen) }

/-- `connection_manager::stop`. -/
def stop (c : HttpConnection) : HttpConnection := { c with managed := false, isOpen := false }

/-- `connection_manager::start` on a new connection. Its version numbers and its status hold what was there. -/
def start (major minor : Int) (status : StatusType) : HttpConnection :=
  doRead
    { parser := .methodStart
      request := { httpVersionMajor := major, httpVersionMinor := minor }
      reply := { status }
      operation := none, isOpen := true, managed := true }

end HttpConnection

/-- What a connection does for others to see: bytes arrive from the client, with the files as they are then, a
reply is made, and bytes of it leave. -/
inductive HttpEvent where
  | received (data : Bytes) (files : FileSystem)
  | replied (rep : Reply)
  | transmitted (data : Bytes)

/-- The completion handlers, each for one kind of result, and the manager's `stop_all`. -/
inductive HttpAction where
  | received (data : Bytes) (files : FileSystem)
  | readFailed
  | readAborted
  | written
  | writeFailed (n : Nat)
  | writeAborted (n : Nat)
  | stopAll

def bufferSize : Nat := 8192

/-- The bytes that the write puts on the wire. -/
def HttpConnection.output (c : HttpConnection) : Bytes := c.reply.toBuffers.flatten

/-- The handler of a read that has delivered `data`. -/
def HttpConnection.handleRead (docRoot : Bytes) (files : FileSystem) (data : Bytes) (c : HttpConnection) :
    Option (HttpConnection × List HttpEvent) :=
  match parse c.parser c.request data with
  | none => none
  | some (result, _, parser, request) =>
    let c := { c with parser, request }
    match result with
    | .good =>
      let reply := handleRequest docRoot files request c.reply
      some (doWrite { c with reply }, [.received data files, .replied reply])
    | .bad =>
      let reply := stockReply .badRequest
      some (doWrite { c with reply }, [.received data files, .replied reply])
    | .indeterminate => some (doRead c, [.received data files])

def httpConnectionMachine (docRoot : Bytes) : Machine HttpConnection HttpAction HttpEvent where
  step c
    | .received data files =>
      if c.operation = some (.read, true) ∧ data ≠ [] ∧ data.length ≤ bufferSize then
        HttpConnection.handleRead docRoot files data { c with operation := none }
      else none
    | .readFailed =>
      match c.operation with
      | some (.read, _) => some ({ c with operation := none }.stop, [])
      | _ => none
    | .readAborted =>
      if c.operation = some (.read, true) ∧ c.isOpen = false then some ({ c with operation := none }, []) else none
    | .written =>
      if c.operation = some (.write, true) then
        some ({ c with operation := none }.stop, [.transmitted c.output])
      else none
    | .writeFailed n =>
      match c.operation with
      | some (.write, live) =>
        if n < c.output.length ∧ (live = true ∨ n = 0) then
          some ({ c with operation := none }.stop, [.transmitted (c.output.take n)])
        else none
      | _ => none
    | .writeAborted n =>
      if c.operation = some (.write, true) ∧ c.isOpen = false ∧ n < c.output.length then
        some ({ c with operation := none }, [.transmitted (c.output.take n)])
      else none
    | .stopAll => some (if c.managed then c.stop else c, [])

structure HttpServer where
  connections : List HttpConnection
  acceptorOpen : Bool
  /-- An `async_accept` is under way. -/
  accepting : Bool
  /-- The wait for a signal is under way. -/
  awaiting : Bool

/-- The constructor, after which `run` is called. -/
def HttpServer.new : HttpServer := { connections := [], acceptorOpen := true, accepting := true, awaiting := true }

inductive ServerAction where
  | accepted (major minor : Int) (status : StatusType)
  | acceptFailed
  | signal
  | connection (i : Nat) (action : HttpAction)

/-- The handler of `do_accept`; a new connection is managed before the next accept is started. -/
def HttpServer.handleAccept (new : Option HttpConnection) (s : HttpServer) : HttpServer :=
  if s.acceptorOpen then { s with connections := s.connections ++ new.toList, accepting := true } else s

def httpServerMachine (docRoot : Bytes) : Machine HttpServer ServerAction (Nat × HttpEvent) where
  step s
    | .accepted major minor status =>
      if s.accepting then
        some (HttpServer.handleAccept (some (.start major minor status)) { s with accepting := false }, [])
      else none
    | .acceptFailed =>
      if s.accepting then some (HttpServer.handleAccept none { s with accepting := false }, []) else none
    | .signal =>
      if s.awaiting then do
        let (connections, events) ← (httpConnectionMachine docRoot).stepEvery .stopAll 0 s.connections
        some ({ s with awaiting := false, acceptorOpen := false, connections }, events)
      else none
    | .connection _ .stopAll => none
    | .connection i action => do
      let c ← s.connections[i]?
      let (c, seen) ← (httpConnectionMachine docRoot).step c action
      some ({ s with connections := s.connections.set i c }, seen.map (i, ·))

/-- The actions of a family of connections that a server takes: it starts new ones. -/
def Started : FamilyAction HttpConnection HttpAction → Prop
  | .spawn c => ∃ major minor status, c = .start major minor status
  | _ => True

variable {docRoot : Bytes} {s t : HttpServer} {as : List ServerAction} {events : List (Nat × HttpEvent)}

theorem connection_step {i : Nat} {action : HttpAction}
    (taken : (httpServerMachine docRoot).step s (.connection i action) = some (t, events)) :
    (httpConnectionMachine docRoot).family.step s.connections (.one i action) = some (t.connections, events) ∧
      t = { s with connections := t.connections } := by
  cases action with
  | stopAll => cases taken
  | _ =>
    obtain ⟨c, found, rest⟩ := Option.bind_eq_some_iff.mp taken
    obtain ⟨⟨c', seen⟩, step, same⟩ := Option.bind_eq_some_iff.mp rest
    cases same
    refine ⟨?_, rfl⟩
    simp only [family, found, step, Option.bind_eq_bind, Option.bind_some]

/-- The three steps of the server itself: an accept that is handled, with the acceptor open or closed, and the
signal. -/
theorem accept_step {new : Option HttpConnection} {action : ServerAction}
    (handles : (httpServerMachine docRoot).step s action =
      if s.accepting then some (HttpServer.handleAccept new { s with accepting := false }, []) else none)
    (taken : (httpServerMachine docRoot).step s action = some (t, events)) :
    s.accepting = true ∧ events = [] ∧
      t = if s.acceptorOpen then { s with connections := s.connections ++ new.toList, accepting := true }
        else { s with accepting := false } := by
  rw [handles] at taken
  split at taken
  · rename_i accepting
    cases taken
    exact ⟨accepting, rfl, rfl⟩
  · cases taken

theorem signal_step (taken : (httpServerMachine docRoot).step s .signal = some (t, events)) :
    s.awaiting = true ∧
      (httpConnectionMachine docRoot).family.step s.connections (.every .stopAll) = some (t.connections, events) ∧
      t = { s with awaiting := false, acceptorOpen := false, connections := t.connections } := by
  simp only [httpServerMachine] at taken
  split at taken
  · rename_i awaiting
    obtain ⟨⟨connections, seen⟩, step, same⟩ := Option.bind_eq_some_iff.mp taken
    cases same
    exact ⟨awaiting, step, rfl⟩
  · cases taken

/-- The connections of a server are a family: no one of them takes a step for another. -/
theorem server_refines_family (runs : (httpServerMachine docRoot).run s as = some (t, events)) :
    ∃ bs, (∀ b ∈ bs, Started b) ∧
      (httpConnectionMachine docRoot).family.run s.connections bs = some (t.connections, events) := by
  let Becomes (_ : ServerAction) (bs : List (FamilyAction HttpConnection HttpAction)) : Prop := ∀ b ∈ bs, Started b
  have accept {s t : HttpServer} {new : Option HttpConnection}
      (started : ∀ c ∈ new, ∃ major minor status, c = .start major minor status)
      (shape : t = if s.acceptorOpen then { s with connections := s.connections ++ new.toList, accepting := true }
        else { s with accepting := false }) :
      ∃ bs, (∀ b ∈ bs, Started b) ∧
        (httpConnectionMachine docRoot).family.run s.connections bs = some (t.connections, []) := by
    subst shape
    split
    · cases new with
      | none => exact ⟨[], by simp, by simp [run]⟩
      | some c => exact ⟨[.spawn c], by simpa [Started] using started c rfl, rfl⟩
    · exact ⟨[], by simp, rfl⟩
  obtain ⟨-, groups, became, family⟩ := run_refines HttpServer.connections some (fun _ => True) Becomes
    (fun {s action t seen} _ taken => by
      rw [List.filterMap_some]
      refine ⟨trivial, ?_⟩
      cases action with
      | accepted major minor status =>
        obtain ⟨-, rfl, shape⟩ := accept_step rfl taken
        exact accept (by rintro c ⟨⟩; exact ⟨major, minor, status, rfl⟩) shape
      | acceptFailed =>
        obtain ⟨-, rfl, shape⟩ := accept_step rfl taken
        exact accept (by rintro c ⟨⟩) shape
      | signal => exact ⟨[.every .stopAll], by simp [Becomes, Started], run_single.trans (signal_step taken).2.1⟩
      | connection i action =>
        exact ⟨[.one i action], by simp [Becomes, Started], run_single.trans (connection_step taken).1⟩) trivial runs
  rw [List.filterMap_some] at family
  refine ⟨groups.flatten, fun b member => ?_, family⟩
  obtain ⟨group, present, inside⟩ := List.mem_flatten.mp member
  obtain ⟨i, here⟩ := List.mem_iff_getElem?.mp present
  obtain ⟨short, rfl⟩ := List.getElem?_eq_some_iff.mp here
  exact became.get (became.length_eq ▸ short) short b inside

/-! ### What the server holds -/

/-- What a completion handler leaves of the socket and of the operation. -/
inductive Shape (c c' : HttpConnection) : Prop where
  | goesOn (op : Operation) (was : c.operation = some (.read, true)) (operation : c'.operation = some (op, c.isOpen))
      (isOpen : c'.isOpen = c.isOpen) (managed : c'.managed = c.managed)
  | stops (was : c.operation ≠ none) (operation : c'.operation = none) (isOpen : c'.isOpen = false)
      (managed : c'.managed = false)
  | ends (was : c.operation ≠ none) (operation : c'.operation = none) (closed : c.isOpen = false)
      (isOpen : c'.isOpen = c.isOpen) (managed : c'.managed = c.managed)

theorem handleRead_shape {files : FileSystem} {data : Bytes} {c c' : HttpConnection} {seen : List HttpEvent}
    (handled : HttpConnection.handleRead docRoot files data c = some (c', seen)) :
    ∃ op, c'.operation = some (op, c.isOpen) ∧ c'.isOpen = c.isOpen ∧ c'.managed = c.managed := by
  rw [HttpConnection.handleRead] at handled
  rcases read : parse c.parser c.request data with _ | ⟨_ | _ | _, rest, parser, request⟩ <;> rw [read] at handled <;>
    cases handled
  · exact ⟨.write, rfl, rfl, rfl⟩
  · exact ⟨.write, rfl, rfl, rfl⟩
  · exact ⟨.read, rfl, rfl, rfl⟩

theorem step_shape {c c' : HttpConnection} {action : HttpAction} {seen : List HttpEvent} (own : action ≠ .stopAll)
    (taken : (httpConnectionMachine docRoot).step c action = some (c', seen)) : Shape c c' := by
  cases action with
  | received data files =>
    simp only [httpConnectionMachine] at taken
    split at taken
    · rename_i enabled
      obtain ⟨op, operation, isOpen, managed⟩ := handleRead_shape taken
      exact .goesOn op enabled.1 operation isOpen managed
    · cases taken
  | readFailed =>
    simp only [httpConnectionMachine] at taken
    split at taken
    · rename_i was
      cases taken
      exact .stops (by rw [was]; rintro ⟨⟩) rfl rfl rfl
    · cases taken
  | readAborted =>
    simp only [httpConnectionMachine] at taken
    split at taken
    · rename_i enabled
      cases taken
      exact .ends (by rw [enabled.1]; rintro ⟨⟩) rfl enabled.2 rfl rfl
    · cases taken
  | written =>
    simp only [httpConnectionMachine] at taken
    split at taken
    · rename_i was
      cases taken
      exact .stops (by rw [was]; rintro ⟨⟩) rfl rfl rfl
    · cases taken
  | writeFailed n =>
    simp only [httpConnectionMachine] at taken
    split at taken
    · rename_i was
      split at taken
      · cases taken
        exact .stops (by rw [was]; rintro ⟨⟩) rfl rfl rfl
      · cases taken
    · cases taken
  | writeAborted n =>
    simp only [httpConnectionMachine] at taken
    split at taken
    · rename_i enabled
      cases taken
      exact .ends (by rw [enabled.1]; rintro ⟨⟩) rfl enabled.2.1 rfl rfl
    · cases taken
  | stopAll => exact absurd rfl own

/-- The manager holds the connection just while its socket is open, and then an operation is under way. -/
structure HttpConnection.Sound (c : HttpConnection) : Prop where
  managed : c.managed = c.isOpen
  busy : c.isOpen = true → ∃ op, c.operation = some (op, true)

theorem sound_start (major minor : Int) (status : StatusType) : (HttpConnection.start major minor status).Sound :=
  ⟨rfl, fun _ => ⟨.read, rfl⟩⟩

theorem HttpConnection.Sound.shape {c c' : HttpConnection} (sound : c.Sound) (shape : Shape c c') : c'.Sound := by
  cases shape with
  | goesOn op was operation isOpen managed =>
    refine ⟨by rw [managed, isOpen, sound.managed], fun opened => ⟨op, ?_⟩⟩
    rw [operation, ← isOpen, opened]
  | stops was operation isOpen managed =>
    refine ⟨by rw [managed, isOpen], fun opened => ?_⟩
    rw [isOpen] at opened
    cases opened
  | ends was operation closed isOpen managed =>
    refine ⟨by rw [managed, isOpen, sound.managed], fun opened => ?_⟩
    rw [isOpen, closed] at opened
    cases opened

/-- `stop_all` leaves every connection closed. -/
theorem stopAll_closes {c c' : HttpConnection} {seen : List HttpEvent} (sound : c.Sound)
    (taken : (httpConnectionMachine docRoot).step c .stopAll = some (c', seen)) : c'.isOpen = false ∧ c'.Sound := by
  cases taken
  have closed : (if c.managed then c.stop else c).isOpen = false := by
    split
    · rfl
    · rename_i unmanaged
      rw [← sound.managed]
      exact Bool.eq_false_iff.mpr unmanaged
  refine ⟨closed, ?_, fun opened => ?_⟩
  · rw [closed]
    split
    · rfl
    · rename_i unmanaged
      exact Bool.eq_false_iff.mpr unmanaged
  · rw [closed] at opened
    cases opened

/-- While the acceptor is open an accept and the wait for a signal are under way; afterwards no socket is open. -/
structure HttpServer.Sound (s : HttpServer) : Prop where
  connections : ∀ c ∈ s.connections, c.Sound
  running : s.acceptorOpen = true → s.accepting = true ∧ s.awaiting = true
  stopped : s.acceptorOpen = false → s.awaiting = false ∧ ∀ c ∈ s.connections, c.isOpen = false

theorem sound_new : HttpServer.new.Sound :=
  ⟨fun _ member => absurd member List.not_mem_nil, fun _ => ⟨rfl, rfl⟩, by rintro ⟨⟩⟩

theorem HttpServer.Sound.accept (sound : s.Sound) {new : Option HttpConnection} (fresh : ∀ c ∈ new, c.Sound) :
    (if s.acceptorOpen then { s with connections := s.connections ++ new.toList, accepting := true }
      else { s with accepting := false } : HttpServer).Sound := by
  split
  · rename_i opened
    refine ⟨fun c member => ?_, fun _ => ⟨rfl, (sound.running opened).2⟩, fun closed => ?_⟩
    · rcases List.mem_append.mp member with old | added
      · exact sound.connections c old
      · exact fresh c (by simpa using added)
    · rw [opened] at closed
      cases closed
  · rename_i closed
    have closed : s.acceptorOpen = false := Bool.eq_false_iff.mpr closed
    refine ⟨sound.connections, fun opened => ?_, fun _ => sound.stopped closed⟩
    rw [closed] at opened
    cases opened

/-- The connection that takes a step, and the others. -/
theorem one_step {i : Nat} {action : HttpAction} {cs cs' : List HttpConnection} {events : List (Nat × HttpEvent)}
    (taken : (httpConnectionMachine docRoot).family.step cs (.one i action) = some (cs', events)) :
    ∃ c c' seen, cs[i]? = some c ∧ (httpConnectionMachine docRoot).step c action = some (c', seen) ∧
      cs' = cs.set i c' := by
  obtain ⟨c, found, rest⟩ := Option.bind_eq_some_iff.mp taken
  obtain ⟨⟨c', seen⟩, step, same⟩ := Option.bind_eq_some_iff.mp rest
  cases same
  exact ⟨c, c', seen, found, step, rfl⟩

theorem ne_stopAll {i : Nat} {action : HttpAction}
    (taken : (httpServerMachine docRoot).step s (.connection i action) = some (t, events)) : action ≠ .stopAll := by
  rintro rfl
  cases taken

theorem HttpServer.Sound.step {action : ServerAction} (sound : s.Sound)
    (taken : (httpServerMachine docRoot).step s action = some (t, events)) : t.Sound := by
  cases action with
  | accepted major minor status =>
    obtain ⟨-, -, rfl⟩ := accept_step rfl taken
    exact sound.accept (by rintro c ⟨⟩; exact sound_start major minor status)
  | acceptFailed =>
    obtain ⟨-, -, rfl⟩ := accept_step rfl taken
    exact sound.accept (by rintro c ⟨⟩)
  | signal =>
    obtain ⟨-, every, shape⟩ := signal_step taken
    obtain ⟨length, -, each⟩ := stepEvery_member every
    have closed (c : HttpConnection) (member : c ∈ t.connections) : c.isOpen = false ∧ c.Sound := by
      obtain ⟨i, there⟩ := List.mem_iff_getElem?.mp member
      have present := (List.getElem?_eq_some_iff.mp there).1
      have before : s.connections[i]? = some s.connections[i] := List.getElem?_eq_getElem (length ▸ present)
      obtain ⟨c', found, step⟩ := each i _ before
      cases found.symm.trans there
      exact stopAll_closes (sound.connections _ (List.getElem_mem _)) step
    rw [shape]
    exact ⟨fun c member => (closed c member).2, by rintro ⟨⟩, fun _ => ⟨rfl, fun c member => (closed c member).1⟩⟩
  | connection i action =>
    obtain ⟨one, shape⟩ := connection_step taken
    obtain ⟨c, c', seen, found, step, connections⟩ := one_step one
    have after := step_shape (ne_stopAll taken) step
    have here := List.mem_of_getElem? found
    rw [shape, connections]
    refine ⟨fun d member => ?_, sound.running, fun stopped => ⟨(sound.stopped stopped).1, fun d member => ?_⟩⟩
    · rcases List.mem_or_eq_of_mem_set member with old | rfl
      · exact sound.connections d old
      · exact (sound.connections c here).shape after
    · rcases List.mem_or_eq_of_mem_set member with old | rfl
      · exact (sound.stopped stopped).2 d old
      · have closed := (sound.stopped stopped).2 c here
        cases after with
        | goesOn op was operation isOpen managed => rw [isOpen, closed]
        | stops was operation isOpen managed => exact isOpen
        | ends was operation closed' isOpen managed => rw [isOpen, closed]

theorem HttpServer.Sound.run (sound : s.Sound) (runs : (httpServerMachine docRoot).run s as = some (t, events)) :
    t.Sound := by
  have always : (httpServerMachine docRoot).Meets (fun _ _ => True) s as := meets_of_forall fun _ _ _ => trivial
  exact run_induct (fun _ _ t => t.Sound) (fun sound _ taken => sound.step taken) sound always runs

/-- At every point of every run: while the acceptor is open an accept is under way, the manager holds just the
connections whose sockets are open, each of which has an operation under way, and after the signal it holds none. -/
theorem server_holds (docRoot : Bytes) (as : List ServerAction) (s : HttpServer) (events : List (Nat × HttpEvent))
    (runs : (httpServerMachine docRoot).run HttpServer.new as = some (s, events)) :
    (s.acceptorOpen = true → s.accepting = true ∧ s.awaiting = true) ∧
      (s.acceptorOpen = false → ∀ c ∈ s.connections, c.managed = false) ∧
      ∀ c ∈ s.connections, (c.managed = true ↔ c.isOpen = true) ∧ (c.managed = true → c.operation.isSome) := by
  have sound := sound_new.run runs
  refine ⟨sound.running, fun stopped c member => ?_, fun c member => ?_⟩
  · rw [(sound.connections c member).managed, (sound.stopped stopped).2 c member]
  · obtain ⟨managed, busy⟩ := sound.connections c member
    rw [managed]
    refine ⟨Iff.rfl, fun opened => ?_⟩
    obtain ⟨op, operation⟩ := busy opened
    rw [operation]
    rfl

theorem server_holds_two :
    ∃ s events, (httpServerMachine []).run .new [.accepted 0 0 .ok, .accepted 7 7 .ok, .connection 0 .readFailed] =
      some (s, events) ∧ s.acceptorOpen = true ∧ s.accepting = true := by
  refine ⟨_, _, rfl, rfl, ?_⟩
  exact ((server_holds [] [.accepted 0 0 .ok, .accepted 7 7 .ok, .connection 0 .readFailed] _ _ rfl).1 rfl).1

/-! ### Shutting down -/

/-- How many handlers can still run for a connection whose socket is closed: a read that had completed before may
start one more operation, which fails. -/
def HttpConnection.pending (c : HttpConnection) : Nat :=
  match c.operation with
  | none => 0
  | some (.read, true) => 2
  | some _ => 1

def HttpServer.pending (s : HttpServer) : Nat :=
  (if s.accepting then 1 else 0) + (s.connections.map HttpConnection.pending).sum

/-- Nothing is under way, so that `io_service::run` returns. -/
structure HttpServer.Idle (s : HttpServer) : Prop where
  accepting : s.accepting = false
  awaiting : s.awaiting = false
  connections : ∀ c ∈ s.connections, c.operation = none

theorem pending_le (c : HttpConnection) : c.pending ≤ 2 := by
  rw [HttpConnection.pending]
  split <;> omega

theorem pending_pos {c : HttpConnection} (busy : c.operation ≠ none) : 0 < c.pending := by
  rw [HttpConnection.pending]
  split
  · contradiction
  · omega
  · omega

theorem Shape.pending_lt {c c' : HttpConnection} (shape : Shape c c') (closed : c.isOpen = false) :
    c'.pending < c.pending := by
  cases shape with
  | goesOn op was operation isOpen managed =>
    have before : c.pending = 2 := by rw [HttpConnection.pending, was]
    have after : c'.pending = 1 := by
      rw [HttpConnection.pending, operation, closed]
      cases op <;> rfl
    omega
  | stops was operation isOpen managed | ends was operation closed isOpen managed =>
    have after : c'.pending = 0 := by rw [HttpConnection.pending, operation]
    rw [after]
    exact pending_pos was

theorem sum_pending_set {cs : List HttpConnection} {i : Nat} {c c' : HttpConnection} (found : cs[i]? = some c)
    (less : c'.pending < c.pending) :
    ((cs.set i c').map HttpConnection.pending).sum + 1 ≤ (cs.map HttpConnection.pending).sum := by
  induction cs generalizing i with
  | nil => cases found
  | cons d cs ih =>
    cases i with
    | zero =>
      cases found
      simp only [List.set_cons_zero, List.map_cons, List.sum_cons]
      omega
    | succ i =>
      have rest := ih found
      simp only [List.set_cons_succ, List.map_cons, List.sum_cons]
      omega

/-- Once the acceptor is closed, every handler that runs uses one up. -/
theorem stopped_step {action : ServerAction} (sound : s.Sound) (stopped : s.acceptorOpen = false)
    (taken : (httpServerMachine docRoot).step s action = some (t, events)) :
    t.acceptorOpen = false ∧ t.connections.length = s.connections.length ∧ t.pending + 1 ≤ s.pending := by
  have accept {new : Option HttpConnection} (accepting : s.accepting = true) (shape : t =
      if s.acceptorOpen then { s with connections := s.connections ++ new.toList, accepting := true }
        else { s with accepting := false }) :
      t.acceptorOpen = false ∧ t.connections.length = s.connections.length ∧ t.pending + 1 ≤ s.pending := by
    rw [stopped, if_neg Bool.false_ne_true] at shape
    subst shape
    refine ⟨rfl, rfl, ?_⟩
    simp only [HttpServer.pending, accepting, if_true, Bool.false_eq_true, if_false]
    omega
  cases action with
  | accepted major minor status =>
    obtain ⟨accepting, -, shape⟩ := accept_step rfl taken
    exact accept accepting shape
  | acceptFailed =>
    obtain ⟨accepting, -, shape⟩ := accept_step rfl taken
    exact accept accepting shape
  | signal =>
    obtain ⟨awaiting, -, -⟩ := signal_step taken
    rw [(sound.stopped stopped).1] at awaiting
    cases awaiting
  | connection i action =>
    obtain ⟨one, shape⟩ := connection_step taken
    obtain ⟨c, c', seen, found, step, connections⟩ := one_step one
    have closed := (sound.stopped stopped).2 c (List.mem_of_getElem? found)
    have less := sum_pending_set found ((step_shape (ne_stopAll taken) step).pending_lt closed)
    rw [shape, connections]
    refine ⟨stopped, List.length_set, ?_⟩
    simp only [HttpServer.pending]
    omega

theorem pending_bound (s : HttpServer) : s.pending ≤ 1 + 2 * s.connections.length := by
  have each (cs : List HttpConnection) : (cs.map HttpConnection.pending).sum ≤ 2 * cs.length := by
    induction cs with
    | nil => exact Nat.le_refl 0
    | cons c cs ih =>
      have one := pending_le c
      simp only [List.map_cons, List.sum_cons, List.length_cons]
      omega
  have all := each s.connections
  rw [HttpServer.pending]
  split <;> omega

theorem output_ne_nil (c : HttpConnection) : 0 < c.output.length := by
  have line : 0 < c.reply.status.toBuffer.length := by cases c.reply.status <;> decide
  rw [HttpConnection.output, Reply.toBuffers, List.cons_append, List.flatten_cons, List.length_append]
  omega

/-- An operation under way can always fail. -/
theorem connection_can_fail {c : HttpConnection} (busy : c.operation ≠ none) :
    ∃ action c' seen, action ≠ .stopAll ∧ (httpConnectionMachine docRoot).step c action = some (c', seen) := by
  rcases was : c.operation with _ | ⟨_ | _, live⟩
  · exact absurd was busy
  · refine ⟨.readFailed, { c with operation := none }.stop, [], by rintro ⟨⟩, ?_⟩
    simp only [httpConnectionMachine, was]
  · refine ⟨.writeFailed 0, { c with operation := none }.stop, [.transmitted (c.output.take 0)], by rintro ⟨⟩, ?_⟩
    simp only [httpConnectionMachine, was]
    exact if_pos ⟨output_ne_nil c, .inr trivial⟩

theorem idle_or_steps (sound : s.Sound) (stopped : s.acceptorOpen = false) :
    s.Idle ∨ ∃ action t events, (httpServerMachine docRoot).step s action = some (t, events) := by
  by_cases accepting : s.accepting = true
  · refine .inr ⟨.acceptFailed, HttpServer.handleAccept none { s with accepting := false }, [], ?_⟩
    simp only [httpServerMachine, accepting, if_true]
  by_cases busy : ∃ c ∈ s.connections, c.operation ≠ none
  · obtain ⟨c, member, busy⟩ := busy
    obtain ⟨i, found⟩ := List.mem_iff_getElem?.mp member
    obtain ⟨action, c', seen, own, step⟩ := @connection_can_fail docRoot c busy
    refine .inr ⟨.connection i action, { s with connections := s.connections.set i c' }, seen.map (i, ·), ?_⟩
    cases action with
    | stopAll => exact absurd rfl own
    | _ => simp only [httpServerMachine, found, step, Option.bind_eq_bind, Option.bind_some]
  · refine .inl ⟨Bool.eq_false_iff.mpr accepting, (sound.stopped stopped).1, fun c member => ?_⟩
    by_contra some_operation
    exact busy ⟨c, member, some_operation⟩

/-- After the signal no connection is added and `run` returns: at most one handler for the accept and two for each
connection still run, and as long as anything is under way some handler can. -/
theorem shutdown_completes (docRoot : Bytes) (as : List ServerAction) (s : HttpServer) (events : List (Nat × HttpEvent))
    (runs : (httpServerMachine docRoot).run HttpServer.new as = some (s, events)) (signalled : s.acceptorOpen = false)
    (bs : List ServerAction) (t : HttpServer) (later : List (Nat × HttpEvent))
    (goesOn : (httpServerMachine docRoot).run s bs = some (t, later)) :
    t.connections.length = s.connections.length ∧ bs.length ≤ 1 + 2 * s.connections.length ∧
      (t.Idle ∨ ∃ action u seen, (httpServerMachine docRoot).step t action = some (u, seen)) := by
  have lowers {u action v seen} (inv : HttpServer.Sound u ∧ u.acceptorOpen = false ∧
      u.connections.length = s.connections.length)
      (taken : (httpServerMachine docRoot).step u action = some (v, seen)) :
      (v.Sound ∧ v.acceptorOpen = false ∧ v.connections.length = s.connections.length) ∧
        v.pending + (if (fun _ => true : ServerAction → Bool) action then 1 else 0) ≤ u.pending := by
    obtain ⟨stopped, length, less⟩ := stopped_step inv.1 inv.2.1 taken
    exact ⟨⟨inv.1.step taken, stopped, length.trans inv.2.2⟩, less⟩
  obtain ⟨⟨sound, stopped, length⟩, steps⟩ := run_measure lowers ⟨sound_new.run runs, signalled, rfl⟩ goesOn
  have bound := pending_bound s
  rw [List.countP_true] at steps
  exact ⟨length, by omega, idle_or_steps sound stopped⟩

/-- A connection is open when the signal comes, and its read is aborted. -/
theorem shutdown_completes_aborted :
    ∃ s events t later, (httpServerMachine []).run .new [.accepted 0 0 .ok, .signal] = some (s, events) ∧
      (httpServerMachine []).run s [.connection 0 .readAborted, .acceptFailed] = some (t, later) ∧
      t.connections.length = s.connections.length := by
  refine ⟨_, _, _, _, rfl, rfl, ?_⟩
  exact (shutdown_completes [] [.accepted 0 0 .ok, .signal] _ _ rfl rfl
    [.connection 0 .readAborted, .acceptFailed] _ _ rfl).1

end MiniProtobuf.Http
