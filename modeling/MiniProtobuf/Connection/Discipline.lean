import MiniProtobuf.Connection.Draining

/-!
# The tasks of a `TcpConnection`

`Reader` adds `input_buffer_` to the connection: a read that completes has put its bytes there, and
`handle_read` passes on whatever it finds. Until a read fails there is one read, so it finds the
bytes of that read. After the failure nothing is posted any more, and the tasks and operations that
are left run out.
-/

namespace MiniProtobuf
open Wire BaseCmd Machine

structure Reader where
  connection : Connection
  inputBuffer : Bytes
  /-- Reads that have put bytes into `input_buffer_` and whose handler has not run. -/
  filled : Nat

def Reader.start (route : Route) : Reader := ⟨Connection.start route, [], 0⟩

variable (pl : Platform) (P : Pool)

inductive TaskAction where
  /-- An outstanding `async_read` gets its bytes. -/
  | fill (chunk : Bytes)
  | handleRead
  | handleReadError
  | task (action : ConnectionAction P)

inductive TaskEvent where
  /-- `ReadData` hands these bytes to `Receive`. -/
  | received (chunk : Bytes)
  | occurrence (seen : Occurrence P)

def taskMachine : Machine Reader (TaskAction P) (TaskEvent P) where
  step s
    | .fill chunk =>
      if s.filled < s.connection.reads ∧ chunk ≠ [] then
        some ({ s with inputBuffer := s.inputBuffer ++ chunk, filled := s.filled + 1 }, [])
      else none
    | .handleRead =>
      if s.filled = 0 then none
      else (receive pl s.connection.route s.inputBuffer).map fun route =>
        (⟨Connection.handleRead .server { s.connection with reads := s.connection.reads - 1, route }, [], s.filled - 1⟩,
          [.received s.inputBuffer])
    | .handleReadError =>
      if s.filled < s.connection.reads then
        some ({ s with
          connection := Connection.handleReadError .server { s.connection with reads := s.connection.reads - 1 } }, [])
      else none
    | .task (.handleRead _) => none
    | .task .handleReadError => none
    | .task action =>
      ((connectionMachine pl P .server).step s.connection action).map fun (c, seen) =>
        ({ s with connection := c }, seen.map .occurrence)

variable {P}

def filledBytes (actions : List (TaskAction P)) : Bytes :=
  actions.flatMap fun
    | .fill chunk => chunk
    | _ => []

def passedBytes (events : List (TaskEvent P)) : Bytes :=
  events.flatMap fun
    | .received chunk => chunk
    | .occurrence _ => []

/-- The tasks and handlers of the connection; the others are the application's and the socket's. -/
def ConnectionAction.own : ConnectionAction P → Bool
  | .message _ | .transmit _ _ => false
  | _ => true

def TaskAction.own : TaskAction P → Bool
  | .fill _ => false
  | .handleRead | .handleReadError => true
  | .task action => action.own

/-- The tasks posted and the operations under way; a posted `Send` counts for its write too. -/
def Connection.pending (c : Connection) : Nat :=
  2 * c.sends + c.processes + c.startReads + c.reads + c.writes.length

variable {pl}

/-! ### Down to the connection -/

/-- `input_buffer_` holds bytes just when a read has put them there. -/
structure Reader.Sound (s : Reader) : Prop where
  chains : Chains s.connection
  filled_le : s.filled ≤ s.connection.reads
  emptied : s.filled = 0 → s.inputBuffer = []
  some : s.filled ≠ 0 → s.inputBuffer ≠ []

theorem Chains.reads_le {c : Connection} (chains : Chains c) : c.reads ≤ 1 := by
  cases failed : c.error with
  | false =>
    have one := (chains.running failed).2
    omega
  | true =>
    have none := (chains.stopping failed).2.2
    omega

/-- A step is a step of the connection, or a read that gets its bytes. -/
inductive TaskStep (pl : Platform) (s t : Reader) : TaskAction P → List (TaskEvent P) → Prop
  | fill {chunk : Bytes} (outstanding : s.filled < s.connection.reads) (some : chunk ≠ [])
    (next : t = { s with inputBuffer := s.inputBuffer ++ chunk, filled := s.filled + 1 }) :
    TaskStep pl s t (.fill chunk) []
  | read {seen : List (Occurrence P)} (filled : s.filled ≠ 0)
    (taken : (connectionMachine pl P .server).step s.connection (.handleRead s.inputBuffer) = some (t.connection, seen))
    (emptied : t.inputBuffer = []) (next : t.filled = s.filled - 1) :
    TaskStep pl s t .handleRead [.received s.inputBuffer]
  | failed {seen : List (Occurrence P)} (outstanding : s.filled < s.connection.reads)
    (taken : (connectionMachine pl P .server).step s.connection .handleReadError = some (t.connection, seen))
    (buffer : t.inputBuffer = s.inputBuffer) (next : t.filled = s.filled) : TaskStep pl s t .handleReadError []
  | task {action : ConnectionAction P} {seen : List (Occurrence P)}
    (taken : (connectionMachine pl P .server).step s.connection action = some (t.connection, seen))
    (reads : s.connection.reads ≤ t.connection.reads)
    (buffer : t.inputBuffer = s.inputBuffer) (next : t.filled = s.filled) :
    TaskStep pl s t (.task action) (seen.map .occurrence)

theorem reads_le_of_step {c d : Connection} {a : ConnectionAction P} {seen : List (Occurrence P)}
    (taken : (connectionMachine pl P .server).step c a = some (d, seen)) (other : a ≠ .handleReadError)
    (unread : ∀ chunk, a ≠ .handleRead chunk) : c.reads ≤ d.reads := by
  have step := step_input taken
  generalize routeEvents seen = events at step
  cases step with
  | other unheard same => exact Nat.le_of_eq same.reads.symm
  | process posted same => exact Nat.le_of_eq same.reads.symm
  | startRead posted same =>
    rw [same.reads]
    exact Nat.le_succ _
  | read outstanding room same => exact absurd rfl (unread _)
  | failed outstanding same => exact absurd rfl other

theorem step_task {s t : Reader} {a : TaskAction P} {seen : List (TaskEvent P)} (sound : s.Sound)
    (taken : (taskMachine pl P).step s a = some (t, seen)) : TaskStep pl s t a seen := by
  have bound := sound.filled_le
  cases a with
  | fill chunk =>
    simp only [taskMachine] at taken
    split at taken
    · rename_i possible
      cases taken
      exact .fill possible.1 possible.2 rfl
    · cases taken
  | handleRead =>
    simp only [taskMachine] at taken
    split at taken
    · cases taken
    · rename_i filled
      obtain ⟨route, room, same⟩ := Option.map_eq_some_iff.mp taken
      cases same
      refine @TaskStep.read P pl s _ [] filled ?_ rfl rfl
      have possible : ¬ (s.connection.reads = 0 ∨ s.inputBuffer = []) := by
        rintro (none | empty)
        · omega
        · exact sound.some filled empty
      simp only [connectionMachine, possible, if_false, room, Option.map_some]
  | handleReadError =>
    simp only [taskMachine] at taken
    split at taken
    · rename_i outstanding
      cases taken
      refine @TaskStep.failed P pl s _ [] outstanding ?_ rfl rfl
      have possible : ¬ s.connection.reads = 0 := by omega
      simp only [connectionMachine, possible, if_false]
    · cases taken
  | task action =>
    have step (other : action ≠ .handleReadError) (unread : ∀ chunk, action ≠ .handleRead chunk)
        (taken : ((connectionMachine pl P .server).step s.connection action).map
          (fun (c, seen) => (({ s with connection := c } : Reader), seen.map TaskEvent.occurrence)) = some (t, seen)) :
        TaskStep pl s t (.task action) seen := by
      obtain ⟨⟨c, seen⟩, inner, same⟩ := Option.map_eq_some_iff.mp taken
      cases same
      exact .task inner (reads_le_of_step inner other unread) rfl rfl
    cases action with
    | handleRead chunk => cases taken
    | handleReadError => cases taken
    | _ => exact step (by rintro ⟨⟩) (by rintro _ ⟨⟩) taken

theorem TaskStep.sound {s t : Reader} {a : TaskAction P} {seen : List (TaskEvent P)} (step : TaskStep pl s t a seen)
    (sound : s.Sound) : t.Sound := by
  obtain ⟨chains, bound, emptied, some⟩ := sound
  have one := chains.reads_le
  cases step with
  | fill outstanding present next =>
    subst next
    refine ⟨chains, outstanding, fun none => absurd none (Nat.succ_ne_zero _), fun _ => ?_⟩
    exact List.append_ne_nil_of_right_ne_nil _ present
  | read filled taken empty next =>
    have none : t.filled = 0 := by omega
    exact ⟨(step_input taken).chains chains, by omega, fun _ => empty, fun more => absurd none more⟩
  | failed outstanding taken buffer next =>
    have none : t.filled = 0 := by omega
    exact ⟨(step_input taken).chains chains, by omega, fun _ => buffer.trans (emptied (by omega)),
      fun more => absurd none more⟩
  | task taken reads buffer next =>
    rw [← next] at emptied some bound
    rw [← buffer] at emptied some
    exact ⟨(step_input taken).chains chains, Nat.le_trans bound reads, emptied, some⟩

theorem TaskStep.passes {s t : Reader} {a : TaskAction P} {seen : List (TaskEvent P)} (step : TaskStep pl s t a seen) :
    passedBytes seen ++ t.inputBuffer = s.inputBuffer ++ filledBytes [a] := by
  cases step with
  | fill outstanding present next =>
    subst next
    simp [passedBytes, filledBytes]
  | read filled taken empty next => simp [passedBytes, filledBytes, empty]
  | failed outstanding taken buffer next => simp [passedBytes, filledBytes, buffer]
  | task taken reads buffer next =>
    rw [buffer]
    simp [passedBytes, filledBytes, List.flatMap_map]

theorem Reader.sound_start (route : Route) : (Reader.start route).Sound :=
  ⟨⟨fun _ => ⟨rfl, rfl⟩, nofun⟩, Nat.zero_le _, fun _ => rfl, fun more => absurd rfl more⟩

theorem processSend_stopped {c : Connection} (stopping : c.error = true) :
    (Connection.processSend .server c).1 = c := by
  unfold Connection.processSend Connection.sendData
  split
  · rfl
  · simp only [stopping, if_true]

theorem process_pending {c : Connection} {dispatch : Dispatch P} (stopping : c.error = true) :
    (Connection.process pl .server dispatch c).1.pending = c.pending := by
  unfold Connection.process
  dsimp only
  generalize (processRecv pl P (some dispatch) c.route).route = route
  rw [@processSend_stopped { c with route } stopping]
  simp only [Connection.stopped, stopping, if_true]
  rfl

theorem step_pending {c d : Connection} {a : ConnectionAction P} {seen : List (Occurrence P)} (chains : Chains c)
    (stopping : c.error = true) (taken : (connectionMachine pl P .server).step c a = some (d, seen)) :
    d.pending + (if a.own then 1 else 0) ≤ c.pending := by
  obtain ⟨-, noStart, noRead⟩ := chains.stopping stopping
  cases a with
  | message msg =>
    cases taken
    exact Nat.le_refl _
  | process dispatch =>
    simp only [connectionMachine] at taken
    split at taken
    · cases taken
    · rename_i posted
      have same := @process_pending pl P { c with processes := c.processes - 1 } dispatch stopping
      rw [Option.some.inj taken] at same
      rw [same]
      simp only [Connection.pending, ConnectionAction.own, if_true]
      omega
  -- After the error no read is posted or under way.
  | startRead =>
    simp only [connectionMachine, noStart, if_true] at taken
    cases taken
  | handleRead chunk =>
    simp only [connectionMachine, noRead, true_or, if_true] at taken
    cases taken
  | handleReadError =>
    simp only [connectionMachine, noRead, if_true] at taken
    cases taken
  | send =>
    simp only [connectionMachine] at taken
    split at taken
    · cases taken
    -- The posted `Send` becomes a write, and it counted for both.
    · rename_i posted
      cases taken
      simp only [Connection.pending, Connection.send, Connection.withOutbox, Outbox.start, Connection.outbox,
        List.length_append, List.length_singleton, ConnectionAction.own, if_true]
      omega
  | transmit i n =>
    obtain ⟨o, some, same⟩ := Option.map_eq_some_iff.mp taken
    cases same
    obtain ⟨before, w, after, split, -, rfl⟩ := Outbox.transmit_eq_some some
    have writes : c.writes = before ++ w :: after := split
    simp only [Connection.pending, Connection.withOutbox, writes, List.length_append, List.length_cons,
      ConnectionAction.own]
    exact Nat.le_refl _
  | handleWrite i ok =>
    obtain ⟨o, some, same⟩ := Option.map_eq_some_iff.mp taken
    cases same
    obtain ⟨before, w, after, split, -, rfl⟩ := Outbox.complete_eq_some some
    have writes : c.writes = before ++ w :: after := split
    simp only [Connection.pending, Connection.withOutbox, writes, List.length_append, List.length_cons,
      ConnectionAction.own, if_true]
    omega
  | close => cases taken

theorem error_of_step {c d : Connection} {a : ConnectionAction P} {seen : List (Occurrence P)}
    (stopping : c.error = true) (taken : (connectionMachine pl P .server).step c a = some (d, seen)) :
    d.error = true := by
  have step := step_input taken
  generalize routeEvents seen = events at step
  cases step with
  | other unheard same => exact same.error.trans stopping
  | process posted same => exact same.error.trans stopping
  | startRead posted same => exact same.error.trans stopping
  | read outstanding room same => exact same.error.trans stopping
  | failed outstanding same => exact same.error

structure Reader.Stopped (s : Reader) : Prop where
  sound : s.Sound
  error : s.connection.error = true

namespace Reader.Stopped

variable {s t : Reader} {a : TaskAction P} {seen : List (TaskEvent P)}

theorem step (stopped : s.Stopped) (taken : (taskMachine pl P).step s a = some (t, seen)) :
    t.Stopped ∧ t.connection.pending + (if a.own then 1 else 0) ≤ s.connection.pending := by
  obtain ⟨sound, error⟩ := stopped
  have step := step_task sound taken
  have next := step.sound sound
  have lowers {action : ConnectionAction P} {seen : List (Occurrence P)}
      (inner : (connectionMachine pl P .server).step s.connection action = some (t.connection, seen)) :
      t.Stopped ∧ t.connection.pending + (if action.own then 1 else 0) ≤ s.connection.pending :=
    ⟨⟨next, error_of_step error inner⟩, step_pending sound.chains error inner⟩
  cases step with
  | fill outstanding present same =>
    subst same
    exact ⟨⟨next, error⟩, Nat.le_refl _⟩
  | read filled inner empty same => exact lowers inner
  | failed outstanding inner buffer same => exact lowers inner
  | task inner reads buffer same => exact lowers inner

end Reader.Stopped

end MiniProtobuf
