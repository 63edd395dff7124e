import MiniProtobuf.Exchange.Replies

/-!
# Requests and responses

Each side is aligned with the packets that are on their way to it. A request is taken by the server,
which puts the reply behind those on their way to the client; so the requests are at any time the
answered ones, those whose reply is coming, and those that the server has not seen.
-/

namespace MiniProtobuf
open Wire BaseCmd

variable {pl : Platform}

/-! ### What is on its way -/

namespace Exchange

def ahead (x : Exchange) (side : Side) : Bytes := x.wire side ++ (x.route side.peer).dataStreamSend

/-- The packets that a side has yet to take. -/
def Expects (x : Exchange) (side : Side) (todo : List Packet) : Prop := Aligned (x.ahead side) (x.route side) todo

end Exchange

section Steps

variable {x y : Exchange} {side : Side}

theorem expects_transmit {n : Nat} {seen : List (Side × Event .baseCmd)}
    (taken : (exchangeMachine pl).step x (.transmit side n) = some (y, seen)) :
    seen = [] ∧ ∀ s todo, x.Expects s todo → y.Expects s todo := by
  simp only [exchangeMachine] at taken
  split at taken
  · cases taken
  · cases taken
    refine ⟨rfl, fun s todo expects => ?_⟩
    have bytes : (x.route side).dataStreamSend.take n ++ (x.route side).dataStreamSend.drop n =
        (x.route side).dataStreamSend := List.take_append_drop n _
    unfold Exchange.Expects Exchange.ahead at expects ⊢
    cases side <;> cases s <;>
      simp only [Exchange.withRoute, Exchange.withWire, Side.peer, Function.update_self, List.append_assoc, bytes,
        ne_eq, reduceCtorEq, not_false_eq_true, Function.update_of_ne]
    · exact expects.congr rfl rfl
    · exact expects
    · exact expects
    · exact expects.congr rfl rfl

theorem expects_receive {n : Nat} {seen : List (Side × Event .baseCmd)}
    (taken : (exchangeMachine pl).step x (.receive side n) = some (y, seen)) :
    seen = [] ∧ ∀ s todo, x.Expects s todo → y.Expects s todo := by
  simp only [exchangeMachine] at taken
  split at taken
  · cases taken
  · obtain ⟨r, room, same⟩ := Option.map_eq_some_iff.mp taken
    cases same
    refine ⟨rfl, fun s todo expects => ?_⟩
    have unsent : r.dataStreamSend = (x.route side).dataStreamSend := by
      obtain ⟨⟨temp, rfl⟩, -⟩ := receive_eq room
      rfl
    have bytes : (x.wire side).take n ++ (x.wire side).drop n = x.wire side := List.take_append_drop n _
    have arrives (todo : List Packet) (expects : x.Expects side todo) :
        Aligned ((x.wire side).drop n ++ (x.route side.peer).dataStreamSend) r todo := by
      unfold Exchange.Expects Exchange.ahead at expects
      rw [← bytes, List.append_assoc] at expects
      exact expects.receive room
    cases side <;> cases s <;>
      simp only [Exchange.Expects, Exchange.ahead, Exchange.withRoute, Exchange.withWire, Side.peer,
        Function.update_self, ne_eq, reduceCtorEq, not_false_eq_true, Function.update_of_ne]
    · exact arrives todo expects
    · rw [unsent]
      exact expects
    · rw [unsent]
      exact expects
    · exact arrives todo expects

/-- `ProcessRecv` on one side: it waits, or takes the packet in front and sends what the handler does. -/
theorem expects_process {todo back : List Packet} (quiet : Quiet (dispatcher side)) (expects : x.Expects side todo)
    (answers : x.Expects side.peer back) (contained : ∀ p ∈ todo, p.Contained) :
    let result := processRecv pl .baseCmd (some (dispatcher side)) (x.route side)
    let y := x.withRoute side result.route
    (y.Expects side todo ∧ y.Expects side.peer back ∧ dispatched result.events = [] ∧
        Waits (x.ahead side) (x.route side) todo result) ∨
      ∃ p rest, todo = p :: rest ∧ y.Expects side rest ∧ dispatched result.events = (p.content .baseCmd).toList ∧
        ∀ replies, (handledOf (dispatcher side) (p.content .baseCmd)).sent.flatMap (frame .baseCmd) = wire replies →
          y.Expects side.peer (back ++ replies) := by
  intro result y
  have here (ps : List Packet) (aligned : Aligned (x.ahead side) result.route ps) : y.Expects side ps := by
    cases side <;>
      simpa only [y, Exchange.Expects, Exchange.ahead, Exchange.withRoute, Side.peer, Function.update_self, ne_eq,
        reduceCtorEq, not_false_eq_true, Function.update_of_ne] using aligned
  have there (ps : List Packet)
      (aligned : Aligned (x.wire side.peer ++ result.route.dataStreamSend) (x.route side.peer) ps) :
      y.Expects side.peer ps := by
    cases side <;>
      simpa only [y, Exchange.Expects, Exchange.ahead, Exchange.withRoute, Side.peer, Function.update_self, ne_eq,
        reduceCtorEq, not_false_eq_true, Function.update_of_ne] using aligned
  have back' : Aligned (x.wire side.peer ++ (x.route side).dataStreamSend) (x.route side.peer) back := by
    cases side <;> exact answers
  rcases processRecv_aligned pl expects contained (fun p _ _ => quiet.handledOf _) with waits | ⟨p, rest, rfl, takes⟩
  · exact .inl ⟨here _ waits.aligned, there _ (waits.unsent ▸ back'), waits.silent, waits⟩
  · refine .inr ⟨p, rest, rfl, here _ takes.aligned, takes.hands, fun replies sent => there _ ?_⟩
    have grown : result.route.dataStreamSend = (x.route side).dataStreamSend ++ wire replies := by
      rw [← sent]
      exact takes.replies
    rw [grown, ← List.append_assoc]
    exact back'.extend replies

end Steps

/-! ### Runs -/

/-- A request that the server takes, with the packets that carry it and its reply. -/
structure Asked where
  message : Message
  request : Request message
  body : message.serialize.length ≤ tempBufferSize

namespace Asked

def packet (q : Asked) : Packet := @packetOf .baseCmd q.message (small_baseCmd q.body).fits

def reply (q : Asked) : Packet := @packetOf .baseCmd (response q.message) (q.request.response_small q.body).fits

theorem packet_bytes (q : Asked) : q.packet.bytes = frame .baseCmd q.message := packetOf_bytes

theorem reply_bytes (q : Asked) : q.reply.bytes = frame .baseCmd (response q.message) := packetOf_bytes

theorem served (q : Asked) :
    (handledOf (dispatcher .server) (q.packet.content .baseCmd)).sent = [response q.message] := by
  obtain ⟨msg, decoded, handled⟩ := q.request.served q.body
  have content : q.packet.content .baseCmd = some (q.message.getTypeName, msg) := by
    rw [packet, packetOf_decode, if_pos (small_baseCmd q.body)]
    exact decoded
  rw [content]
  exact congrArg Handled.sent handled

theorem reply_content (q : Asked) :
    q.reply.content .baseCmd = some ((response q.message).getTypeName, response q.message) := by
  have small := q.request.response_small q.body
  have formed := wellFormed_baseCmd q.request.response_valid small
  rw [reply, packetOf_content formed.known, if_pos small]

theorem packet_length (q : Asked) : 8 ≤ q.packet.payload.length ∧ q.packet.payload.length ≤ 4 + 2 * tempBufferSize := by
  have small := small_baseCmd q.body
  refine ⟨eight_le_packetOf (by cases q.message <;> exact Nat.le_of_ble_eq_true rfl), ?_⟩
  rw [packet, length_packetOf]
  have header := small.1
  have body := small.2
  omega

theorem reply_length (q : Asked) : 8 ≤ q.reply.payload.length ∧ q.reply.payload.length ≤ 4 + 2 * tempBufferSize := by
  have small := q.request.response_small q.body
  have formed := wellFormed_baseCmd q.request.response_valid small
  refine ⟨eight_le_packetOf formed.named, ?_⟩
  rw [reply, length_packetOf]
  have header := small.1
  have body := small.2
  omega

end Asked

/-- The requests so far: those whose replies the client has handled, those whose replies are on
their way, and those on their way to the server. -/
structure Exchanges (x : Exchange) (asked : List Message) (answered : List (Bytes × Message))
    (seen coming todo : List Asked) : Prop where
  parts : asked = (seen ++ (coming ++ todo)).map Asked.message
  server : x.Expects .server (todo.map Asked.packet)
  client : x.Expects .client (coming.map Asked.reply)
  answers : answered = titled .baseCmd (seen.map fun q => response q.message)

theorem responses_append (log later : List (Side × Event .baseCmd)) :
    responses (log ++ later) = responses log ++ responses later := by
  rw [responses, List.filterMap_append, dispatched_append]
  rfl

theorem responses_client (events : List (Event .baseCmd)) :
    responses (events.map (Side.client, ·)) = dispatched events := by
  rw [responses, List.filterMap_map]
  congr 1
  exact List.filterMap_some

theorem responses_server (events : List (Event .baseCmd)) : responses (events.map (Side.server, ·)) = [] := by
  rw [responses, List.filterMap_map]
  simp [dispatched]

section Exchanges

variable {x y : Exchange} {asked : List Message} {answered : List (Bytes × Message)} {seen coming todo : List Asked}

theorem Exchanges.server_step (exchanges : Exchanges x asked answered seen coming todo) :
    let result := processRecv pl .baseCmd (some (dispatcher .server)) (x.route .server)
    ∃ coming todo, Exchanges (x.withRoute .server result.route) asked answered seen coming todo := by
  intro result
  obtain ⟨parts, server, client, answers⟩ := exchanges
  have contained : ∀ p ∈ todo.map Asked.packet, p.Contained := by
    intro p member
    obtain ⟨q, -, rfl⟩ := List.mem_map.mp member
    exact packetOf_contained
  rcases @expects_process pl x .server _ _ server_quiet server client contained with
    ⟨server, client, -, -⟩ | ⟨p, rest, first, server, -, replies⟩
  · exact ⟨coming, todo, parts, server, client, answers⟩
  · obtain ⟨q, todo, rfl, rfl, rfl⟩ := List.map_eq_cons_iff.mp first
    have reply : (handledOf (dispatcher .server) (q.packet.content .baseCmd)).sent.flatMap (frame .baseCmd) =
        wire [q.reply] := by
      rw [q.served, wire_cons, wire_nil, q.reply_bytes]
      rfl
    refine ⟨coming ++ [q], todo, ?_, server, ?_, answers⟩
    · rw [parts, List.append_assoc coming, List.singleton_append]
    · rw [List.map_append]
      exact replies _ reply

theorem Exchanges.client_step (exchanges : Exchanges x asked answered seen coming todo) :
    let result := processRecv pl .baseCmd (some (dispatcher .client)) (x.route .client)
    ∃ seen coming,
      Exchanges (x.withRoute .client result.route) asked (answered ++ dispatched result.events) seen coming todo := by
  intro result
  obtain ⟨parts, server, client, answers⟩ := exchanges
  have quiet : Quiet (dispatcher .client) := by
    intro typeName msg
    rw [client_silent]
  have contained : ∀ p ∈ coming.map Asked.reply, p.Contained := by
    intro p member
    obtain ⟨q, -, rfl⟩ := List.mem_map.mp member
    exact packetOf_contained
  rcases @expects_process pl x .client _ _ quiet client server contained with
    ⟨client, server, silent, -⟩ | ⟨p, rest, first, client, hands, replies⟩
  · rw [silent, List.append_nil]
    exact ⟨seen, coming, parts, server, client, answers⟩
  · obtain ⟨q, coming, rfl, rfl, rfl⟩ := List.map_eq_cons_iff.mp first
    have nothing : (handledOf (dispatcher .client) (q.reply.content .baseCmd)).sent.flatMap (frame .baseCmd) =
        wire [] := by
      rw [q.reply_content, handledOf, client_silent]
      rfl
    have server := replies _ nothing
    rw [List.append_nil] at server
    refine ⟨seen ++ [q], coming, ?_, server, client, ?_⟩
    · rw [parts, List.append_assoc seen, List.singleton_append, List.cons_append]
    · rw [hands, q.reply_content, answers, List.map_append, titled, titled, List.map_append]
      rfl

theorem Exchanges.moved (exchanges : Exchanges x asked answered seen coming todo)
    (kept : ∀ s todo, x.Expects s todo → y.Expects s todo) : Exchanges y (asked ++ []) answered seen coming todo := by
  rw [List.append_nil]
  exact ⟨exchanges.parts, kept _ _ exchanges.server, kept _ _ exchanges.client, exchanges.answers⟩

end Exchanges

theorem requests_append (actions later : List ExchangeAction) :
    requests (actions ++ later) = requests actions ++ requests later := List.filterMap_append

/-- A message that the client may ask with. -/
def Acceptable (m : Message) : Prop := Request m ∧ m.serialize.length ≤ tempBufferSize

theorem run_exchanges {client server : Route} {x : Exchange} {actions : List ExchangeAction}
    {events : List (Side × Event .baseCmd)}
    (fresh : ∀ r ∈ [client, server], r.preRecivesTotalLen = 0 ∧ r.dataStreamReceive = [] ∧ r.dataStreamSend = [])
    (acceptable : ∀ m ∈ requests actions, Acceptable m)
    (runs : (exchangeMachine pl).run (Exchange.start client server) actions = some (x, events)) :
    ∃ seen coming todo, Exchanges x (requests actions) (responses events) seen coming todo := by
  let Inv (hist : List ExchangeAction) (log : List (Side × Event .baseCmd)) (x : Exchange) : Prop :=
    ∃ seen coming todo, Exchanges x (requests hist) (responses log) seen coming todo
  have initial : Inv [] [] (Exchange.start client server) := by
    obtain ⟨pendingC, receiveC, sendC⟩ := fresh client List.mem_cons_self
    obtain ⟨pendingS, receiveS, sendS⟩ := fresh server (List.mem_cons_of_mem _ List.mem_cons_self)
    refine ⟨[], [], [], rfl, .idle pendingS ?_, .idle pendingC ?_, rfl⟩
    · simp [Exchange.start, Exchange.ahead, Side.peer, receiveS, sendC]
    · simp [Exchange.start, Exchange.ahead, Side.peer, receiveC, sendS]
  have meets : (exchangeMachine pl).Meets (fun _ a => ∀ m ∈ requests [a], Acceptable m) (Exchange.start client server)
      actions := by
    apply Machine.meets_of_forall
    intro _ a member m asks
    apply acceptable
    obtain ⟨before, after, rfl⟩ := List.append_of_mem member
    rw [← List.singleton_append, requests_append, requests_append]
    exact List.mem_append_right _ (List.mem_append_left _ asks)
  refine Machine.run_induct Inv ?_ initial meets runs
  rintro hist log x a y later ⟨seen, coming, todo, exchanges⟩ allowed taken
  show ∃ seen coming todo, Exchanges y (requests (hist ++ [a])) (responses (log ++ later)) seen coming todo
  cases a with
  | send msg =>
    cases taken
    obtain ⟨request, body⟩ := allowed msg List.mem_cons_self
    let q : Asked := ⟨msg, request, body⟩
    obtain ⟨parts, server, client, answers⟩ := exchanges
    refine ⟨seen, coming, todo ++ [q], ?_, ?_, client.congr rfl rfl, ?_⟩
    · rw [requests_append, parts]
      simp [requests, q]
    · have grown := server.extend [q.packet]
      rw [wire_cons, wire_nil, List.append_nil, q.packet_bytes, Exchange.ahead, List.append_assoc] at grown
      rw [List.map_append]
      exact grown
    · rw [List.append_nil]
      exact answers
  -- Bytes that move on the transport change nothing of what a side has yet to receive.
  | transmit side n =>
    obtain ⟨rfl, kept⟩ := expects_transmit taken
    rw [requests_append, List.append_nil]
    exact ⟨seen, coming, todo, exchanges.moved kept⟩
  | receive side n =>
    obtain ⟨rfl, kept⟩ := expects_receive taken
    rw [requests_append, List.append_nil]
    exact ⟨seen, coming, todo, exchanges.moved kept⟩
  | processRecv side =>
    have none : requests (hist ++ [.processRecv side]) = requests hist := by
      rw [requests_append]
      exact List.append_nil _
    cases taken
    cases side with
    | server =>
      obtain ⟨coming, todo, next⟩ := @Exchanges.server_step pl _ _ _ _ _ _ exchanges
      rw [none, responses_append, responses_server, List.append_nil]
      exact ⟨seen, coming, todo, next⟩
    | client =>
      obtain ⟨seen, coming, next⟩ := @Exchanges.client_step pl _ _ _ _ _ _ exchanges
      rw [none, responses_append, responses_client]
      exact ⟨seen, coming, todo, next⟩

/-! ### When nothing can move -/

section Stuck

variable {x : Exchange} {side : Side}

theorem Stuck.sent (stuck : Stuck pl x) (side : Side) : (x.route side).dataStreamSend = [] := by
  by_contra some
  have positive := List.length_pos_iff.mpr some
  have step := stuck (.transmit side 1)
  simp only [exchangeMachine] at step
  rw [if_neg (by omega)] at step
  have same := step _ _ (by simp) rfl
  have shorter := congrArg (fun x : Exchange => (x.route side).dataStreamSend.length) same
  simp only [Exchange.withRoute, Exchange.withWire, Function.update_self, List.length_drop] at shorter
  omega

theorem Stuck.arrived (stuck : Stuck pl x) (room : (x.route side).dataStreamReceive.length + 1 ≤ pl.maxSize) :
    x.wire side = [] := by
  by_contra some
  have positive := List.length_pos_iff.mpr some
  have one : ((x.wire side).take 1).length = 1 := by
    rw [List.length_take]
    omega
  obtain ⟨r, received⟩ := @receive_of_room pl (x.route side) ((x.wire side).take 1) (by rw [one]; decide)
    (by rw [one]; exact room)
  have step := stuck (.receive side 1)
  simp only [exchangeMachine] at step
  rw [if_neg (by omega), received] at step
  have same := step _ _ (by simp) rfl
  have shorter := congrArg (fun x : Exchange => (x.wire side).length) same
  simp only [Exchange.withWire, Function.update_self, List.length_drop] at shorter
  omega

theorem Stuck.processed (stuck : Stuck pl x) (side : Side) :
    (processRecv pl .baseCmd (some (dispatcher side)) (x.route side)).route = x.route side := by
  have same := stuck (.processRecv side) _ _ (by simp) rfl
  have route := congrArg (fun x : Exchange => x.route side) same
  simp only [Exchange.withRoute, Function.update_self] at route
  exact route

/-- A side that nothing moves on has taken every packet that was sent to it. -/
theorem Stuck.finished {todo : List Packet} (stuck : Stuck pl x) (expects : x.Expects side todo)
    (quiet : Quiet (dispatcher side)) (contained : ∀ p ∈ todo, p.Contained)
    (sizes : ∀ p ∈ todo, 8 ≤ p.payload.length ∧ p.payload.length ≤ 4 + 2 * tempBufferSize) :
    todo = [] ∧ x.wire side = [] ∧ (x.route side).dataStreamReceive = [] := by
  have ahead : x.ahead side = x.wire side := by rw [Exchange.ahead, stuck.sent, List.append_nil]
  unfold Exchange.Expects at expects
  rw [ahead] at expects
  rcases processRecv_aligned pl expects contained (fun p _ _ => quiet.handledOf _) with waits | ⟨p, rest, rfl, takes⟩
  · have unarrived := waits.unarrived expects fun p member => (sizes p member).1
    -- What has arrived is less than a packet, so there is room for a byte more.
    have room : x.wire side ≠ [] → (x.route side).dataStreamReceive.length + 1 ≤ pl.maxSize := by
      intro some
      have int := pl.int_le
      have positive := List.length_pos_iff.mpr some
      cases expects with
      | idle none stream =>
        have lengths := congrArg List.length stream
        cases todo with
        | nil =>
          rw [List.length_append, wire_nil, List.length_nil] at lengths
          omega
        | cons p rest =>
          have behind := unarrived p rest rfl
          have small := (sizes p List.mem_cons_self).2
          unfold tempBufferSize at small
          rw [List.length_append, wire_cons, List.length_append, Packet.length_bytes] at lengths
          omega
      | @pending p rest pending stream =>
        have lengths := congrArg List.length stream
        have behind := unarrived p rest rfl
        have small := (sizes p List.mem_cons_self).2
        unfold tempBufferSize at small
        rw [List.length_append, List.length_append] at lengths
        omega
    have empty : x.wire side = [] := by
      by_contra some
      exact some (stuck.arrived (room some))
    rw [empty] at expects unarrived
    have nothing : todo = [] := by
      cases todo with
      | nil => rfl
      | cons p rest => exact absurd (unarrived p rest rfl) (Nat.not_lt_zero _)
    subst nothing
    exact ⟨rfl, empty, expects.drained.2⟩
  -- A call that takes a packet would change the state.
  · have after := takes.aligned
    rw [stuck.processed] at after
    exact absurd after expects.not_tail

/-- The converse, so that there are such states. -/
theorem Exchange.Empty.stuck (empty : x.Empty) : Stuck pl x := by
  intro a y seen noSend taken
  cases a with
  | send msg => exact absurd rfl (noSend msg)
  | transmit side n =>
    simp only [exchangeMachine, (empty side).1, List.length_nil] at taken
    rw [if_pos (by omega)] at taken
    cases taken
  | receive side n =>
    simp only [exchangeMachine, (empty side).2.1, List.length_nil] at taken
    rw [if_pos (by omega)] at taken
    cases taken
  | processRecv side =>
    have short : (x.route side).dataStreamReceive.length < 8 := by
      rw [(empty side).2.2]
      decide
    simp only [exchangeMachine, processRecv_short short] at taken
    cases taken
    rw [Exchange.withRoute, Function.update_eq_self]

end Stuck

/-- Whatever the order of steps, the client sees the replies to its requests in order, and all of
them once nothing can move; and every reply fits in the client's buffers. -/
theorem exchange_exact {client server : Route} {x : Exchange} {actions : List ExchangeAction}
    {events : List (Side × Event .baseCmd)}
    (fresh : ∀ r ∈ [client, server], r.preRecivesTotalLen = 0 ∧ r.dataStreamReceive = [] ∧ r.dataStreamSend = [])
    (acceptable : ∀ m ∈ requests actions, Acceptable m)
    (runs : (exchangeMachine pl).run (Exchange.start client server) actions = some (x, events)) :
    responses events <+: titled .baseCmd ((requests actions).map response) ∧
      (Stuck pl x → responses events = titled .baseCmd ((requests actions).map response) ∧ x.Empty) ∧
      ∀ m ∈ requests actions, Small .baseCmd (response m) := by
  obtain ⟨seen, coming, todo, parts, onServer, onClient, answers⟩ := run_exchanges fresh acceptable runs
  have whole : titled .baseCmd ((requests actions).map response) =
      responses events ++ titled .baseCmd ((coming ++ todo).map fun q => response q.message) := by
    rw [answers, parts, List.map_map, List.map_append, titled, List.map_append]
    rfl
  refine ⟨⟨_, whole.symm⟩, fun stuck => ?_, fun m asked => ?_⟩
  · have quiet : Quiet (dispatcher .client) := by
      intro typeName msg
      rw [client_silent]
    obtain ⟨noTodo, wireServer, receiveServer⟩ := stuck.finished onServer server_quiet
      (List.forall_mem_map.mpr fun q _ => packetOf_contained) (List.forall_mem_map.mpr fun q _ => q.packet_length)
    obtain ⟨noComing, wireClient, receiveClient⟩ := stuck.finished onClient quiet
      (List.forall_mem_map.mpr fun q _ => packetOf_contained) (List.forall_mem_map.mpr fun q _ => q.reply_length)
    obtain rfl := List.map_eq_nil_iff.mp noTodo
    obtain rfl := List.map_eq_nil_iff.mp noComing
    refine ⟨?_, fun side => ⟨stuck.sent side, ?_⟩⟩
    · rw [whole]
      exact (List.append_nil _).symm
    · cases side with
      | client => exact ⟨wireClient, receiveClient⟩
      | server => exact ⟨wireServer, receiveServer⟩
  · obtain ⟨request, body⟩ := acceptable m asked
    exact request.response_small body

theorem exchange_exact_signin_move :
    let asked : List Message := [.reqSignin ⟨[{ name := ascii "bob" }]⟩, .reqMove ⟨1, 2⟩]
    let actions : List ExchangeAction :=
      asked.map .send ++
        [.transmit .client 40, .receive .server 20, .processRecv .server, .receive .server 20, .processRecv .server,
          .transmit .client 41, .receive .server 41, .processRecv .server, .transmit .server 108, .receive .client 108,
          .processRecv .client, .processRecv .client]
    ∃ x events,
      (exchangeMachine .x64).run (Exchange.start (Route.new 0 [] []) (Route.new 0 [] [])) actions = some (x, events) ∧
      x.Empty ∧ responses events = titled .baseCmd (asked.map response) := by
  intro asked actions
  have evaluates : ((exchangeMachine .x64).run (Exchange.start (Route.new 0 [] []) (Route.new 0 [] [])) actions).any
      (fun (x, _) => ∀ side ∈ [Side.client, .server], (x.route side).dataStreamSend = [] ∧ x.wire side = [] ∧
        (x.route side).dataStreamReceive = []) = true := by
    decide +kernel
  obtain ⟨x, events, runs, seen⟩ := Machine.exists_run evaluates
  have empty : x.Empty := fun side => of_decide_eq_true seen side (by cases side <;> simp)
  have acceptable : ∀ m ∈ requests actions, Acceptable m := by
    intro m member
    rcases List.mem_pair.mp (show m ∈ asked from member) with rfl | rfl
    · exact ⟨.signin _ _ (by decide +kernel), by decide +kernel⟩
    · exact ⟨.move _, by decide +kernel⟩
  have all := @exchange_exact .x64 (Route.new 0 [] []) (Route.new 0 [] []) x actions events (by decide) acceptable runs
  exact ⟨x, events, runs, empty, (all.2.1 empty.stuck).1⟩

/-- A name that is not UTF-8: the server answers with it, but the client's parse stops at it, and the
flag behind it is lost. -/
theorem exchange_drops_flag :
    let m : Message := .reqSignin ⟨[{ name := [0xFF] }]⟩
    let actions : List ExchangeAction :=
      [.send m, .transmit .client (frame .baseCmd m).length, .receive .server (frame .baseCmd m).length,
        .processRecv .server, .transmit .server (frame .baseCmd (response m)).length,
        .receive .client (frame .baseCmd (response m)).length, .processRecv .client]
    m.serialize.length ≤ tempBufferSize ∧
      ∃ x events,
        (exchangeMachine .x64).run (Exchange.start (Route.new 0 [] []) (Route.new 0 [] [])) actions = some (x, events) ∧
        responses events = titled .baseCmd [.rspSignin { name := [0xFF], succ := false }] ∧
        response m = .rspSignin { name := [0xFF], succ := true } ∧
        ¬ responses events <+: titled .baseCmd ((requests actions).map response) := by
  intro m actions
  have evaluates : ((exchangeMachine .x64).run (Exchange.start (Route.new 0 [] []) (Route.new 0 [] [])) actions).any
      (fun (_, events) => responses events = titled .baseCmd [.rspSignin { name := [0xFF], succ := false }] ∧
        ¬ responses events <+: titled .baseCmd ((requests actions).map response)) = true := by
    decide +kernel
  obtain ⟨x, events, runs, seen⟩ := Machine.exists_run evaluates
  obtain ⟨dropped, wrong⟩ := of_decide_eq_true seen
  exact ⟨by decide +kernel, x, events, runs, dropped, rfl, wrong⟩

end MiniProtobuf
