import MiniProtobuf.Connection.Sending
import MiniProtobuf.Route.Framing

/-!
# A disconnect

A failed read stops both chains of a `TcpConnection`: no read is started after it, and the `Process`
task that is posted by then is the last one. It takes one frame off the buffer, so nothing is lost
when the buffer holds no second whole frame at that moment.
-/

namespace MiniProtobuf
open Wire BaseCmd Machine

variable {pl : Platform} {P : Pool}

/-! ### The two chains -/

/-- Until the error there is one `Process` task, and one read that is posted or under way; after it
there is at most a last `Process` task. -/
structure Chains (c : Connection) : Prop where
  running : c.error = false → c.processes = 1 ∧ c.startReads + c.reads = 1
  stopping : c.error = true → c.processes ≤ 1 ∧ c.startReads = 0 ∧ c.reads = 0

/-- The parts of a connection that its receive path depends on are the same. -/
structure SameInput (c d : Connection) : Prop where
  pending : d.route.preRecivesTotalLen = c.route.preRecivesTotalLen
  stream : d.route.dataStreamReceive = c.route.dataStreamReceive
  error : d.error = c.error
  processes : d.processes = c.processes
  startReads : d.startReads = c.startReads
  reads : d.reads = c.reads

theorem SameInput.chains {c d : Connection} (same : SameInput c d) (chains : Chains c) : Chains d := by
  refine ⟨fun running => ?_, fun stopping => ?_⟩
  · rw [same.processes, same.startReads, same.reads]
    exact chains.running (same.error ▸ running)
  · rw [same.processes, same.startReads, same.reads]
    exact chains.stopping (same.error ▸ stopping)

/-- What a step of a `TcpConnection` does to its input. -/
inductive InputStep (pl : Platform) (P : Pool) (c d : Connection) : ConnectionAction P → List (Event P) → Prop
  | other {a : ConnectionAction P} (unheard : heard [a] = []) (same : SameInput c d) : InputStep pl P c d a []
  | process {dispatch : Dispatch P} (posted : c.processes ≠ 0)
    (same : SameInput
      { c with
        route := (processRecv pl P (some dispatch) c.route).route
        processes := if c.error then c.processes - 1 else c.processes } d) :
    InputStep pl P c d (.process dispatch) (processRecv pl P (some dispatch) c.route).events
  | startRead (posted : c.startReads ≠ 0)
    (same : SameInput { c with startReads := c.startReads - 1, reads := c.reads + 1 } d) :
    InputStep pl P c d .startRead []
  | read {chunk : Bytes} {route : Route} (outstanding : c.reads ≠ 0) (room : receive pl c.route chunk = some route)
    (same : SameInput
      { c with route, reads := c.reads - 1, startReads := if c.error then c.startReads else c.startReads + 1 } d) :
    InputStep pl P c d (.handleRead chunk) []
  | failed (outstanding : c.reads ≠ 0) (same : SameInput { c with reads := c.reads - 1, error := true } d) :
    InputStep pl P c d .handleReadError []

theorem routeEvents_append (log later : List (Occurrence P)) :
    routeEvents (log ++ later) = routeEvents log ++ routeEvents later := List.filterMap_append

theorem routeEvents_call (events : List (Event P)) (messages : List P.Message) :
    routeEvents (events.map .route ++ messages.map .sent) = events := by
  rw [routeEvents, List.filterMap_append, List.filterMap_map, List.filterMap_map]
  simp

theorem processSend_input (c : Connection) : SameInput c (Connection.processSend .server c).1 := by
  unfold Connection.processSend Connection.sendData
  split
  · exact ⟨rfl, rfl, rfl, rfl, rfl, rfl⟩
  · dsimp only
    split <;> exact ⟨rfl, rfl, rfl, rfl, rfl, rfl⟩

theorem process_input (c : Connection) (dispatch : Dispatch P) :
    SameInput
      { c with
        route := (processRecv pl P (some dispatch) c.route).route
        processes := if c.error then c.processes else c.processes + 1 }
      (Connection.process pl .server dispatch c).1 := by
  unfold Connection.process
  dsimp only
  generalize (processRecv pl P (some dispatch) c.route).route = route
  have same := processSend_input { c with route }
  generalize (Connection.processSend .server { c with route }).1 = next at same ⊢
  have error : next.error = c.error := same.error
  have processes : next.processes = c.processes := same.processes
  simp only [Connection.stopped, error]
  split
  · exact ⟨same.pending, same.stream, same.error, same.processes, same.startReads, same.reads⟩
  · exact ⟨same.pending, same.stream, rfl, congrArg (· + 1) processes, same.startReads, same.reads⟩

theorem step_input {c d : Connection} {a : ConnectionAction P} {seen : List (Occurrence P)}
    (taken : (connectionMachine pl P .server).step c a = some (d, seen)) : InputStep pl P c d a (routeEvents seen) := by
  cases a with
  | message msg =>
    cases taken
    exact .other rfl ⟨rfl, rfl, rfl, rfl, rfl, rfl⟩
  | process dispatch =>
    simp only [connectionMachine] at taken
    split at taken
    · cases taken
    · rename_i posted
      have same := @process_input pl P { c with processes := c.processes - 1 } dispatch
      have pair := Option.some.inj taken
      obtain rfl : (Connection.process pl .server dispatch { c with processes := c.processes - 1 }).2 = seen :=
        congrArg Prod.snd pair
      rw [pair] at same
      rw [Connection.process, routeEvents_call]
      refine .process posted ⟨same.pending, same.stream, same.error, same.processes.trans ?_, same.startReads,
        same.reads⟩
      dsimp only
      split <;> omega
  | startRead =>
    simp only [connectionMachine] at taken
    split at taken
    · cases taken
    · rename_i posted
      cases taken
      exact .startRead posted ⟨rfl, rfl, rfl, rfl, rfl, rfl⟩
  | handleRead chunk =>
    simp only [connectionMachine] at taken
    split at taken
    · cases taken
    · rename_i possible
      obtain ⟨route, room, same⟩ := Option.map_eq_some_iff.mp taken
      cases same
      refine .read (fun none => possible (.inl none)) room ?_
      unfold Connection.handleRead Connection.stopped
      dsimp only
      split <;> exact ⟨rfl, rfl, rfl, rfl, rfl, rfl⟩
  | handleReadError =>
    simp only [connectionMachine] at taken
    split at taken
    · cases taken
    · rename_i outstanding
      cases taken
      exact .failed outstanding ⟨rfl, rfl, rfl, rfl, rfl, rfl⟩
  | send =>
    simp only [connectionMachine] at taken
    split at taken
    · cases taken
    · cases taken
      exact .other rfl ⟨rfl, rfl, rfl, rfl, rfl, rfl⟩
  | transmit i n =>
    obtain ⟨o, -, same⟩ := Option.map_eq_some_iff.mp taken
    cases same
    exact .other rfl ⟨rfl, rfl, rfl, rfl, rfl, rfl⟩
  | handleWrite i ok =>
    obtain ⟨o, -, same⟩ := Option.map_eq_some_iff.mp taken
    cases same
    exact .other rfl ⟨rfl, rfl, rfl, rfl, rfl, rfl⟩
  | close => cases taken

theorem InputStep.chains {c d : Connection} {a : ConnectionAction P} {events : List (Event P)}
    (step : InputStep pl P c d a events) (chains : Chains c) : Chains d := by
  cases step with
  | other unheard same => exact same.chains chains
  | process posted same =>
    refine same.chains ⟨fun (running : c.error = false) => ?_, fun (stopping : c.error = true) => ?_⟩
    · simpa [running] using chains.running running
    · have bound := chains.stopping stopping
      simp only [stopping, if_true]
      omega
  | startRead posted same =>
    refine same.chains ⟨fun running => ?_, fun stopping => absurd (chains.stopping stopping).2.1 posted⟩
    have one := chains.running running
    dsimp only
    omega
  | read outstanding room same =>
    refine same.chains ⟨fun (running : c.error = false) => ?_,
      fun stopping => absurd (chains.stopping stopping).2.2 outstanding⟩
    have one := chains.running running
    simp only [running, Bool.false_eq_true, if_false]
    omega
  | failed outstanding same =>
    refine same.chains ⟨fun running => Bool.noConfusion running, fun _ => ?_⟩
    cases failed : c.error with
    | false =>
      have one := chains.running failed
      dsimp only
      omega
    | true => exact absurd (chains.stopping failed).2.2 outstanding

/-! ### The last call -/

/-- The buffer holds two whole frames; the prefix of the first may have been read. -/
def HoldsTwo (r : Route) : Prop :=
  ∃ (p q : Packet) (rest : Bytes),
    r.preRecivesTotalLen = 0 ∧ r.dataStreamReceive = p.bytes ++ (q.bytes ++ rest) ∨
      r.preRecivesTotalLen = p.total ∧ r.dataStreamReceive = p.payload ++ (q.bytes ++ rest)

theorem HoldsTwo.length {r : Route} (two : HoldsTwo r) : 16 ≤ r.dataStreamReceive.length := by
  obtain ⟨p, q, rest, holds⟩ := two
  have first := p.four_le
  have second := q.four_le
  rcases holds with ⟨-, stream⟩ | ⟨-, stream⟩
  · rw [stream, List.length_append, List.length_append, Packet.length_bytes, Packet.length_bytes]
    omega
  · rw [stream, List.length_append, List.length_append, Packet.length_bytes]
    omega

section Unarrived

variable {ahead : Bytes} {r : Route} {todo : List Packet}

/-- What arrived of a stream has all that goes before enough of its end. -/
theorem prefix_of_ahead {stream front back : Bytes} (split : stream ++ ahead = front ++ back)
    (arrived : ahead.length ≤ back.length) : ∃ rest, stream = front ++ rest := by
  have lengths := congrArg List.length split
  rw [List.length_append, List.length_append] at lengths
  have inside : front <+: stream :=
    List.prefix_of_prefix_length_le ⟨back, rfl⟩ ⟨ahead, split⟩ (by omega)
  obtain ⟨rest, same⟩ := inside
  exact ⟨rest, same.symm⟩

theorem Aligned.unarrived_tail (aligned : Aligned ahead r todo) (dry : ¬ HoldsTwo r) : Unarrived ahead todo.tail := by
  intro q rest same
  by_contra arrived
  cases todo with
  | nil => cases same
  | cons p beyond =>
    obtain rfl : beyond = q :: rest := same
    cases aligned with
    | idle none stream =>
      rw [wire_cons, wire_cons, ← List.append_assoc] at stream
      obtain ⟨more, front⟩ := prefix_of_ahead stream (by omega)
      exact dry ⟨p, q, more, .inl ⟨none, by rw [front, List.append_assoc]⟩⟩
    | pending some stream =>
      rw [wire_cons, ← List.append_assoc] at stream
      obtain ⟨more, front⟩ := prefix_of_ahead stream (by omega)
      exact dry ⟨p, q, more, .inr ⟨some, by rw [front, List.append_assoc]⟩⟩

end Unarrived

/-! ### Steps and runs -/

/-- The step condition: a failed read finds no two whole frames in the buffer, and a handler does not
throw while a length is pending. -/
def DisconnectsDry (c : Connection) : ConnectionAction P → Prop
  | .process dispatch => ThrowsIdle c.route (.processRecv dispatch)
  | .handleReadError => ¬ HoldsTwo c.route
  | _ => True

def disconnectsDry (c : Connection) : ConnectionAction P → Bool
  | .process _ => c.route.preRecivesTotalLen ≤ 0
  | .handleReadError => c.route.dataStreamReceive.length < 16
  | _ => true

theorem disconnectsDry_sound {c : Connection} {a : ConnectionAction P} (passes : disconnectsDry c a = true) :
    DisconnectsDry c a := by
  cases a with
  | process dispatch => exact throwsIdle_of_idle (of_decide_eq_true passes) (.processRecv dispatch)
  | handleReadError => exact fun two => absurd two.length (by have := of_decide_eq_true passes; omega)
  | _ => trivial

/-- The connection is on the track of its packets, and after an error its last calls suffice for
those that have arrived. -/
structure Serves (all : List Packet) (ahead : Bytes) (log : List (Event P)) (c : Connection) (todo : List Packet) :
    Prop where
  tracks : Tracks all ahead log c.route todo
  last : c.error = true → Unarrived ahead (todo.drop c.processes)

theorem SameInput.serves {all todo : List Packet} {ahead : Bytes} {log : List (Event P)} {c d : Connection}
    (same : SameInput c d) (serves : Serves all ahead log c todo) : Serves all ahead log d todo := by
  refine ⟨⟨serves.tracks.handed, serves.tracks.aligned.congr same.pending same.stream⟩, fun stopping => ?_⟩
  rw [same.processes]
  exact serves.last (same.error ▸ stopping)

theorem heard_append (actions later : List (ConnectionAction P)) :
    heard (actions ++ later) = heard actions ++ heard later := List.flatMap_append

theorem heard_handleRead (chunk : Bytes) : heard ([.handleRead chunk] : List (ConnectionAction P)) = chunk :=
  List.append_nil chunk

theorem InputStep.serves {all todo : List Packet} {ahead : Bytes} {log events : List (Event P)} {c d : Connection}
    {a : ConnectionAction P} (step : InputStep pl P c d a events) (chains : Chains c)
    (contained : ∀ p ∈ all, p.Contained) (long : ∀ p ∈ all, 8 ≤ p.payload.length) (dry : DisconnectsDry c a)
    (serves : Serves all (heard [a] ++ ahead) log c todo) : ∃ todo', Serves all ahead (log ++ events) d todo' := by
  cases step with
  | other unheard same =>
    rw [unheard, List.nil_append] at serves
    rw [List.append_nil]
    exact ⟨todo, same.serves serves⟩
  | process posted same =>
    have within : ∀ p ∈ todo, 8 ≤ p.payload.length := fun p member => long p (serves.tracks.mem member)
    rcases serves.tracks.processRecv pl contained dry with ⟨waiting, waits⟩ | ⟨p, rest, rfl, taking⟩
    -- After the error this was the last call, so a call that waits has to have nothing left.
    · refine ⟨todo, same.serves ⟨waiting, fun (stopping : c.error = true) => ?_⟩⟩
      have bound := (chains.stopping stopping).1
      have none : c.processes - 1 = 0 := by omega
      simp only [stopping, if_true, none, List.drop_zero]
      exact waits.unarrived serves.tracks.aligned within
    · refine ⟨rest, same.serves ⟨taking, fun (stopping : c.error = true) => ?_⟩⟩
      have bound := (chains.stopping stopping).1
      have one : c.processes = 1 := by omega
      have last := serves.last stopping
      rw [one] at last
      simp only [stopping, if_true, one]
      exact last
  | startRead posted same =>
    rw [List.append_nil]
    exact ⟨todo, same.serves ⟨serves.tracks, serves.last⟩⟩
  | read outstanding room same =>
    rw [heard_handleRead] at serves
    rw [List.append_nil]
    refine ⟨todo, same.serves ⟨serves.tracks.receive room, fun stopping => ?_⟩⟩
    exact absurd (chains.stopping stopping).2.2 outstanding
  | failed outstanding same =>
    rw [List.append_nil]
    refine ⟨todo, same.serves ⟨serves.tracks, fun _ => ?_⟩⟩
    cases failed : c.error with
    -- One `Process` task is left, and the buffer does not hold two frames.
    | false =>
      simp only [(chains.running failed).1, List.drop_one]
      exact serves.tracks.aligned.unarrived_tail dry
    | true => exact absurd (chains.stopping failed).2.2 outstanding

theorem run_serves {all : List Packet} {route : Route} {d : Connection} {actions : List (ConnectionAction P)}
    {events : List (Occurrence P)} (contained : ∀ p ∈ all, p.Contained) (long : ∀ p ∈ all, 8 ≤ p.payload.length)
    (idle : route.preRecivesTotalLen = 0) (empty : route.dataStreamReceive = [])
    (dry : (connectionMachine pl P .server).Meets DisconnectsDry (Connection.start route) actions)
    (runs : (connectionMachine pl P .server).run (Connection.start route) actions = some (d, events)) :
    Chains d ∧ ∀ ahead, heard actions ++ ahead = wire all → ∃ todo, Serves all ahead (routeEvents events) d todo := by
  let Inv (hist : List (ConnectionAction P)) (log : List (Occurrence P)) (c : Connection) : Prop :=
    Chains c ∧ ∀ ahead, heard hist ++ ahead = wire all → ∃ todo, Serves all ahead (routeEvents log) c todo
  have initial : Inv [] [] (Connection.start route) := by
    refine ⟨⟨fun _ => ⟨rfl, rfl⟩, fun stopping => Bool.noConfusion stopping⟩, fun ahead stream => ?_⟩
    obtain rfl : ahead = wire all := stream
    exact ⟨all, .start idle empty, fun stopping => Bool.noConfusion stopping⟩
  refine Machine.run_induct Inv ?_ initial dry runs
  rintro hist log c a d seen ⟨chains, served⟩ kept taken
  have step := step_input taken
  refine ⟨step.chains chains, fun ahead stream => ?_⟩
  rw [heard_append, List.append_assoc] at stream
  obtain ⟨todo, serves⟩ := served _ stream
  rw [routeEvents_append]
  exact step.serves chains contained long kept serves

theorem Tracks.arrived {all front back todo : List Packet} {ahead stream : Bytes} {log : List (Event P)} {r : Route}
    (tracks : Tracks all ahead log r todo) (unarrived : Unarrived ahead todo) (split : stream ++ ahead = wire all)
    (parts : all = front ++ back) (inside : wire front <+: stream) :
    front.filterMap (Packet.content P) <+: dispatched log := by
  obtain ⟨⟨done, whole, hands⟩, -⟩ := tracks
  rw [hands]
  rcases List.append_eq_append_iff.mp (parts.symm.trans whole) with ⟨more, rfl, -⟩ | ⟨more, rfl, rest⟩
  · exact ⟨more.filterMap (Packet.content P), List.filterMap_append.symm⟩
  · cases more with
    | nil => simp
    | cons p more =>
      have behind := unarrived p (more ++ back) rest
      have fits := inside.length_le
      have lengths := congrArg List.length split
      rw [parts] at lengths
      simp only [wire_append, wire_cons, List.length_append] at behind fits lengths
      omega

/-- The frames that arrive whole before the read fails have all been decoded and handed to `Dispatch`
once no `Process` task is left. -/
theorem dry_disconnect_loses_nothing {messages : List P.Message} {route : Route} {d : Connection}
    {actions : List (ConnectionAction P)} {events : List (Occurrence P)} 
    (named : ∀ m ∈ messages, 2 ≤ (P.getTypeName m).length) (fits : ∀ m ∈ messages, totalOf P m < 2 ^ 31)
    (idle : route.preRecivesTotalLen = 0) (empty : route.dataStreamReceive = [])
    (dry : (connectionMachine pl P .server).Meets DisconnectsDry (Connection.start route) actions)
    (split : heard actions <+: messages.flatMap (frame P))
    (runs : (connectionMachine pl P .server).run (Connection.start route) actions = some (d, events))
    (drained : d.processes = 0) (k : Nat) (arrived : (messages.take k).flatMap (frame P) <+: heard actions) :
    decoded P (messages.take k) <+: dispatched (routeEvents events) := by
  have long : ∀ p ∈ packetsOf messages fits, 8 ≤ p.payload.length := by
    intro p member
    obtain ⟨m, present, rfl⟩ := mem_packetsOf member
    exact eight_le_packetOf (named m present)
  obtain ⟨ahead, stream⟩ := split
  rw [← @wire_packetsOf P messages fits] at stream
  obtain ⟨chains, served⟩ := run_serves (fun p => packetsOf_contained) long idle empty dry runs
  obtain ⟨todo, serves⟩ := served ahead stream
  -- Without an error there would be a `Process` task.
  have stopped : d.error = true := by
    cases failed : d.error with
    | false =>
      have one := (chains.running failed).1
      omega
    | true => rfl
  have unarrived := serves.last stopped
  rw [drained, List.drop_zero] at unarrived
  have front : ∀ m ∈ messages.take k, totalOf P m < 2 ^ 31 := fun m present => fits m (List.mem_of_mem_take present)
  rw [← @packetsOf_content P (messages.take k) front]
  refine serves.tracks.arrived unarrived stream (packetsOf_take k) ?_
  rw [wire_packetsOf]
  exact arrived

theorem dry_disconnect_loses_nothing_move :
    let messages : List Pool.baseCmd.Message := [Message.reqMove ⟨1, 2⟩]
    let actions : List (ConnectionAction .baseCmd) :=
      [.startRead, .handleRead (messages.flatMap (frame .baseCmd)), .process silent, .startRead, .handleReadError,
        .process silent]
    ∃ d events,
      (connectionMachine .x64 .baseCmd .server).run (Connection.start (Route.new 0 [] [])) actions = some (d, events) ∧
      d.processes = 0 ∧ titled .baseCmd messages <+: dispatched (routeEvents events) := by
  intro messages actions
  have evaluates : ((connectionMachine .x64 .baseCmd .server).run (Connection.start (Route.new 0 [] [])) actions).any
      (fun (d, _) => d.processes = 0) = true := by
    decide +kernel
  obtain ⟨d, events, runs, seen⟩ := Machine.exists_run evaluates
  have drained : d.processes = 0 := of_decide_eq_true seen
  have dry : (connectionMachine .x64 .baseCmd .server).Meets DisconnectsDry (Connection.start (Route.new 0 [] []))
      actions := by
    refine @Machine.meets_of_checks _ _ _ _ _ _ _ disconnectsDry (fun _ _ passes => disconnectsDry_sound passes) ?_
    decide +kernel
  have valid : ∀ m ∈ messages, Message.Valid m ∧ Small .baseCmd m := by decide +kernel
  have all := @dry_disconnect_loses_nothing .x64 .baseCmd messages (Route.new 0 [] []) d actions events
    (by decide +kernel) (by decide +kernel) rfl rfl dry (by decide +kernel) runs drained 1 (by decide +kernel)
  rw [List.take_of_length_le (Nat.le_refl 1),
    decoded_of_wellFormed fun m present => wellFormed_baseCmd (valid m present).1 (valid m present).2] at all
  exact ⟨d, events, runs, drained, all⟩

/-- Four frames arrive in one read and the peer closes. With every task run in the order in which it
was posted, three calls of `Process` are made: the last request stays in the buffer. -/
theorem disconnect_loses_buffered_request :
    let m : Pool.baseCmd.Message := Message.reqMove ⟨1, 2⟩
    let messages := [m, m, m, m]
    let actions : List (ConnectionAction .baseCmd) :=
      [.startRead, .process silent, .handleRead (messages.flatMap (frame .baseCmd)), .process silent, .startRead,
        .process silent, .handleReadError, .process silent]
    ∃ d events,
      (connectionMachine .x64 .baseCmd .server).run (Connection.start (Route.new 0 [] [])) actions = some (d, events) ∧
      d.startReads = 0 ∧ d.processes = 0 ∧ d.sends = 0 ∧ d.reads = 0 ∧
      WellFormed .baseCmd m ∧ heard actions = messages.flatMap (frame .baseCmd) ∧
      dispatched (routeEvents events) = titled .baseCmd [m, m, m] := by
  intro m messages actions
  have evaluates : ((connectionMachine .x64 .baseCmd .server).run (Connection.start (Route.new 0 [] [])) actions).any
      (fun (d, events) => d.startReads = 0 ∧ d.processes = 0 ∧ d.sends = 0 ∧ d.reads = 0 ∧
        dispatched (routeEvents events) = titled .baseCmd [m, m, m]) = true := by
    decide +kernel
  obtain ⟨d, events, runs, seen⟩ := Machine.exists_run evaluates
  obtain ⟨startReads, processes, sends, reads, three⟩ := of_decide_eq_true seen
  have formed : WellFormed .baseCmd m := wellFormed_baseCmd (by decide +kernel) (by decide +kernel)
  exact ⟨d, events, runs, startReads, processes, sends, reads, formed, by decide +kernel, three⟩

end MiniProtobuf
