import MiniProtobuf.Connection.Model
import MiniProtobuf.Route.Stream

/-!
# The send path

The send buffer is drained only when a write completes, and nothing records that one is under way.
As long as a `Send` task runs only when no write with bytes is outstanding, the socket gets a prefix
of the frames that were appended; otherwise it gets the same bytes again.
-/

namespace MiniProtobuf
open Wire BaseCmd Machine

variable {pl : Platform} {P : Pool} {role : Role}

/-! ### What a call sends -/

theorem deliver_sends (dispatch : Dispatch P) (r : Route) (typeName body : Bytes) :
    (deliver P (some dispatch) r typeName body).route.dataStreamSend =
      r.dataStreamSend ++ (sentBy dispatch (deliver P (some dispatch) r typeName body).events).flatMap (frame P) := by
  rw [deliver_eq]
  dsimp only
  rw [sentBy, dispatched_deliver]
  cases decode P typeName body <;> simp [handledOf]

theorem sentBy_nil (dispatch : Dispatch P) : sentBy dispatch [] = [] := rfl

theorem sentBy_readRaw (dispatch : Dispatch P) (size : Int) (events : List (Event P)) :
    sentBy dispatch (.readRaw size :: events) = sentBy dispatch events := rfl

theorem processPayload_sends (dispatch : Dispatch P) (r : Route) (totalLen : Nat) :
    (processPayload pl P (some dispatch) r totalLen).route.dataStreamSend =
      r.dataStreamSend ++
        (sentBy dispatch (processPayload pl P (some dispatch) r totalLen).events).flatMap (frame P) := by
  rw [processPayload_eq]
  dsimp only
  split
  · exact (List.append_nil _).symm
  · split
    · exact (List.append_nil _).symm
    · exact deliver_sends dispatch _ _ _

theorem processRecv_sends (dispatch : Dispatch P) (r : Route) :
    (processRecv pl P (some dispatch) r).route.dataStreamSend =
      r.dataStreamSend ++ (sentBy dispatch (processRecv pl P (some dispatch) r).events).flatMap (frame P) := by
  rcases @processRecv_cases pl P (some dispatch) r with eq | ⟨pending, rest, eq⟩ | ⟨totalLen, eq⟩ | ⟨totalLen, rest, eq⟩
  · rw [eq, sentBy_nil, List.flatMap_nil, List.append_nil]
  · rw [eq, sentBy_readRaw, sentBy_nil, List.flatMap_nil, List.append_nil]
  · rw [eq]
    exact processPayload_sends dispatch r totalLen
  · rw [eq]
    exact processPayload_sends dispatch { r with dataStreamReceive := rest } totalLen

/-! ### Steps and runs -/

theorem sentMessages_append (log later : List (Occurrence P)) :
    sentMessages (log ++ later) = sentMessages log ++ sentMessages later := List.filterMap_append

theorem sentMessages_call (events : List (Event P)) (messages : List P.Message) :
    sentMessages (events.map .route ++ messages.map .sent) = messages := by
  rw [sentMessages, List.filterMap_append, List.filterMap_map, List.filterMap_map]
  simp

namespace Connection

variable (c : Connection)

theorem processSend_outbox : (processSend role c).1.outbox = c.outbox := by
  unfold processSend sendData
  split
  · rfl
  · cases role
    · dsimp only
      split <;> rfl
    · rfl

theorem process_outbox (dispatch : Dispatch P) :
    (process pl role dispatch c).1.outbox =
      c.outbox.append ((sentMessages (process pl role dispatch c).2).flatMap (frame P)) := by
  have sends := @processRecv_sends pl P dispatch c.route
  unfold process
  dsimp only
  rw [sentMessages_call]
  generalize processRecv pl P (some dispatch) c.route = result at sends ⊢
  have kept := @processSend_outbox role { c with route := result.route }
  generalize (processSend role { c with route := result.route }).1 = next at kept ⊢
  have whole : next.outbox = c.outbox.append ((sentBy dispatch result.events).flatMap (frame P)) := by
    rw [kept, outbox, outbox, Outbox.append, sends]
  split
  · exact whole
  · exact whole

theorem handleRead_outbox : (handleRead role c).outbox = c.outbox := by
  unfold handleRead
  split <;> rfl

theorem handleReadError_outbox : (handleReadError role c).outbox = c.outbox := by
  cases role with
  | server => rfl
  | client => exact handleRead_outbox c

end Connection

/-- The step condition: a `Send` task starts a write only when no write with bytes is outstanding. -/
def SendsAlone (c : Connection) : ConnectionAction P → Prop
  | .send => ∀ w ∈ c.writes, w.bytes = []
  | _ => True

def sendsAlone (c : Connection) : ConnectionAction P → Bool
  | .send => c.writes.all fun w => w.bytes.isEmpty
  | _ => true

theorem sendsAlone_sound {c : Connection} {a : ConnectionAction P} (passes : sendsAlone c a = true) :
    SendsAlone c a := by
  cases a with
  | send =>
    intro w member
    exact List.isEmpty_iff.mp (List.all_eq_true.mp passes w member)
  | _ => trivial

theorem step_sound {c d : Connection} {a : ConnectionAction P} {log seen : List (Occurrence P)}
    (sound : c.outbox.Sound ((sentMessages log).flatMap (frame P))) (alone : SendsAlone c a)
    (taken : (connectionMachine pl P role).step c a = some (d, seen)) :
    d.outbox.Sound ((sentMessages (log ++ seen)).flatMap (frame P)) := by
  rw [sentMessages_append, List.flatMap_append]
  -- Most steps append nothing, and of those most leave the outbox alone.
  have unheard {o : Outbox UInt8} (sound : o.Sound ((sentMessages log).flatMap (frame P))) :
      o.Sound ((sentMessages log).flatMap (frame P) ++
        (sentMessages ([] : List (Occurrence P))).flatMap (frame P)) := by
    simpa [sentMessages] using sound
  have still {d : Connection} (same : d.outbox = c.outbox) :
      d.outbox.Sound ((sentMessages log).flatMap (frame P) ++
        (sentMessages ([] : List (Occurrence P))).flatMap (frame P)) :=
    same ▸ unheard sound
  cases a with
  | message msg =>
    cases taken
    have grown : Connection.outbox { c with route := (send P c.route msg).1 } = c.outbox.append (frame P msg) := rfl
    rw [grown]
    simpa [sentMessages] using sound.append (frame P msg)
  | process dispatch =>
    simp only [connectionMachine] at taken
    split at taken
    · cases taken
    · have grown := @Connection.process_outbox pl P role { c with processes := c.processes - 1 } dispatch
      rw [Option.some.inj taken] at grown
      rw [grown]
      exact sound.append _
  | startRead =>
    simp only [connectionMachine] at taken
    split at taken
    · cases taken
    · cases taken
      exact still rfl
  | handleRead chunk =>
    simp only [connectionMachine] at taken
    split at taken
    · cases taken
    · obtain ⟨route, room, same⟩ := Option.map_eq_some_iff.mp taken
      obtain ⟨⟨temp, rfl⟩, -⟩ := receive_eq room
      cases same
      exact still (Connection.handleRead_outbox _)
  | handleReadError =>
    simp only [connectionMachine] at taken
    split at taken
    · cases taken
    · cases taken
      exact still (Connection.handleReadError_outbox _)
  | send =>
    simp only [connectionMachine] at taken
    split at taken
    · cases taken
    · cases taken
      exact unheard (sound.start alone)
  | transmit i n =>
    obtain ⟨o, some, same⟩ := Option.map_eq_some_iff.mp taken
    cases same
    exact unheard (sound.transmit some)
  | handleWrite i ok =>
    obtain ⟨o, some, same⟩ := Option.map_eq_some_iff.mp taken
    cases same
    exact unheard (sound.complete some)
  | close =>
    cases role with
    | server => cases taken
    | client =>
      cases taken
      exact still rfl

/-- From a start with an empty send buffer, the socket has a prefix of the frames appended so far, and
all of them once the buffer is empty and no write is outstanding. -/
theorem sends_alone_exact {route : Route} {d : Connection} {actions : List (ConnectionAction P)}
    {events : List (Occurrence P)} (empty : route.dataStreamSend = [])
    (alone : (connectionMachine pl P role).Meets SendsAlone (Connection.start route) actions)
    (runs : (connectionMachine pl P role).run (Connection.start route) actions = some (d, events)) :
    d.written <+: (sentMessages events).flatMap (frame P) ∧
      (d.route.dataStreamSend = [] → d.writes = [] → d.written = (sentMessages events).flatMap (frame P)) := by
  have initial : (Connection.start route).outbox.Sound
      ((sentMessages ([] : List (Occurrence P))).flatMap (frame P)) := by
    have same : (Connection.start route).outbox = ⟨[], [], []⟩ := by rw [Connection.outbox, Connection.start, empty]
    rw [same]
    exact Outbox.sound_empty
  have sound : d.outbox.Sound ((sentMessages events).flatMap (frame P)) :=
    Machine.run_induct (fun _ log (c : Connection) => c.outbox.Sound ((sentMessages log).flatMap (frame P)))
      (fun before cond taken => step_sound before cond taken) initial alone runs
  exact ⟨sound.written_prefix, fun drained none => sound.settled drained none⟩

theorem sends_alone_exact_move :
    let m : Pool.baseCmd.Message := Message.reqMove ⟨1, 2⟩
    ∃ d events,
      (connectionMachine .x64 .baseCmd .server).run (Connection.start (Route.new 0 [] []))
        [.message m, .process silent, .send, .transmit 0 (frame .baseCmd m).length, .handleWrite 0 true] =
          some (d, events) ∧
      d.written = (sentMessages events).flatMap (frame .baseCmd) ∧ d.written ≠ [] := by
  intro m
  have evaluates : ((connectionMachine .x64 .baseCmd .server).run (Connection.start (Route.new 0 [] []))
      [.message m, .process silent, .send, .transmit 0 (frame .baseCmd m).length, .handleWrite 0 true]).any
      (fun (d, _) => d.route.dataStreamSend = [] ∧ d.writes.isEmpty ∧ d.written ≠ []) = true := by
    decide +kernel
  have alone : (connectionMachine .x64 .baseCmd .server).Meets SendsAlone (Connection.start (Route.new 0 [] []))
      [.message m, .process silent, .send, .transmit 0 (frame .baseCmd m).length, .handleWrite 0 true] := by
    refine @Machine.meets_of_checks _ _ _ _ _ _ _ sendsAlone (fun _ _ passes => sendsAlone_sound passes) ?_
    decide +kernel
  obtain ⟨d, events, runs, seen⟩ := Machine.exists_run evaluates
  obtain ⟨drained, none, some⟩ := of_decide_eq_true seen
  have exact := @sends_alone_exact .x64 .baseCmd .server _ d _ events rfl alone runs
  exact ⟨d, events, runs, exact.2 drained (List.isEmpty_iff.mp none), some⟩

/-- `Process` runs again before the first write completes, and finds the same bytes: the socket gets
the frame twice, in the order in which the tasks were posted. -/
theorem second_send_duplicates_frame :
    let m : Pool.baseCmd.Message := Message.reqMove ⟨1, 2⟩
    let all := (frame .baseCmd m).length
    ∃ d events,
      (connectionMachine .x64 .baseCmd .server).run (Connection.start (Route.new 0 [] []))
        [.message m, .process silent, .send, .process silent, .send, .transmit 0 all, .transmit 1 all,
          .handleWrite 0 true, .handleWrite 0 true] = some (d, events) ∧
      d.route.dataStreamSend = [] ∧ d.sends = 0 ∧ d.writes = [] ∧
      d.written = frame .baseCmd m ++ frame .baseCmd m ∧
      ¬ d.written <+: (sentMessages events).flatMap (frame .baseCmd) := by
  intro m all
  have evaluates : ((connectionMachine .x64 .baseCmd .server).run (Connection.start (Route.new 0 [] []))
      [.message m, .process silent, .send, .process silent, .send, .transmit 0 all, .transmit 1 all,
        .handleWrite 0 true, .handleWrite 0 true]).any
      (fun (d, events) => d.route.dataStreamSend = [] ∧ d.sends = 0 ∧ d.writes.isEmpty ∧
        d.written = frame .baseCmd m ++ frame .baseCmd m ∧
        ¬ d.written <+: (sentMessages events).flatMap (frame .baseCmd)) = true := by
    decide +kernel
  obtain ⟨d, events, runs, seen⟩ := Machine.exists_run evaluates
  obtain ⟨drained, posted, none, twice, more⟩ := of_decide_eq_true seen
  exact ⟨d, events, runs, drained, posted, List.isEmpty_iff.mp none, twice, more⟩

end MiniProtobuf
