import MiniProtobuf.Route.Packet

/-!
# Runs over a sequence of packets

Whatever the segmentation, a run over a sequence of contained packets has handled a part of it, in
order, and is aligned with the rest (`run_tracks`). Once everything has arrived each further call
takes one packet off, unless a last short packet is waiting (`calls_aligned`).
-/

namespace MiniProtobuf
open Wire BaseCmd

variable {pl : Platform} {P : Pool}

theorem dispatched_append (events later : List (Event P)) :
    dispatched (events ++ later) = dispatched events ++ dispatched later := List.filterMap_append

theorem dispatched_readRaw (size : Int) (events : List (Event P)) :
    dispatched (.readRaw size :: events) = dispatched events := rfl

theorem received_append (actions later : List (Action P)) :
    received (actions ++ later) = received actions ++ received later := List.flatMap_append

theorem received_receive (chunk : Bytes) : received ([.receive chunk] : List (Action P)) = chunk :=
  List.append_nil chunk

theorem received_processRecv (dispatch : Dispatch P) : received [Action.processRecv dispatch] = [] := rfl

theorem calls_short {r : Route} (short : r.dataStreamReceive.length < 8) (calls : List (Dispatch P)) :
    (routeMachine pl P).run r (calls.map .processRecv) = some (r, []) := by
  induction calls with
  | nil => rfl
  | cons dispatch calls ih =>
    refine Machine.run_cons_eq_some.mpr ⟨r, [], [], ?_, ih, rfl⟩
    simp only [routeMachine, processRecv_short short]

/-- The step condition under which an exception does no harm: no length is pending before it. The message of a call with
a pending length is that of the packet whose payload is at the front of the buffer. -/
def ThrowsIdle (r : Route) : Action P → Prop
  | .receive _ => True
  | .processRecv dispatch =>
    ∀ p : Packet, r.preRecivesTotalLen = p.total → p.payload <+: r.dataStreamReceive →
      (handledOf dispatch (p.content P)).throws = false

theorem throwsIdle_of_idle {r : Route} (idle : r.preRecivesTotalLen ≤ 0) (a : Action P) : ThrowsIdle r a := by
  cases a with
  | receive chunk => trivial
  | processRecv dispatch =>
    intro p pending
    rw [pending, Packet.total] at idle
    omega

theorem Quiet.throwsIdle {dispatch : Dispatch P} (quiet : Quiet dispatch) (r : Route) :
    ThrowsIdle r (.processRecv dispatch) := fun p _ _ => quiet.handledOf (p.content P)

def QuietStep (_ : Route) : Action P → Prop
  | .receive _ => True
  | .processRecv dispatch => Quiet dispatch

theorem QuietRun.quietStep {actions : List (Action P)} (quiet : QuietRun actions) (r : Route) :
    (routeMachine pl P).Meets QuietStep r actions := by
  refine Machine.meets_of_forall fun r a member => ?_
  cases a with
  | receive chunk => trivial
  | processRecv dispatch => exact quiet dispatch member

theorem QuietRun.throwsIdle {actions : List (Action P)} (quiet : QuietRun actions) (r : Route) :
    (routeMachine pl P).Meets ThrowsIdle r actions := by
  refine Machine.meets_of_forall fun r a member => ?_
  cases a with
  | receive chunk => trivial
  | processRecv dispatch => exact (quiet dispatch member).throwsIdle r

/-- A run that has handed over the contents of the first packets, and is aligned with the others. -/
structure Tracks (all : List Packet) (ahead : Bytes) (log : List (Event P)) (r : Route) (todo : List Packet) :
    Prop where
  handed : ∃ done, all = done ++ todo ∧ dispatched log = done.filterMap (Packet.content P)
  aligned : Aligned ahead r todo

section Tracks

variable {all todo : List Packet} {ahead : Bytes} {log : List (Event P)} {r t : Route}

theorem Tracks.start (idle : r.preRecivesTotalLen = 0) (empty : r.dataStreamReceive = []) :
    Tracks all (wire all) ([] : List (Event P)) r all :=
  ⟨⟨[], rfl, rfl⟩, .idle idle (by rw [empty, List.nil_append])⟩

theorem Tracks.mem {p : Packet} (tracks : Tracks all ahead log r todo) (member : p ∈ todo) : p ∈ all := by
  obtain ⟨⟨done, parts, -⟩, -⟩ := tracks
  rw [parts]
  exact List.mem_append_right done member

theorem Tracks.receive {chunk : Bytes} (tracks : Tracks all (chunk ++ ahead) log r todo)
    (room : receive pl r chunk = some t) : Tracks all ahead log t todo :=
  ⟨tracks.handed, tracks.aligned.receive room⟩

variable (pl) in
theorem Tracks.processRecv {dispatch : Dispatch P} (tracks : Tracks all ahead log r todo)
    (contained : ∀ p ∈ all, p.Contained) (kept : ThrowsIdle r (.processRecv dispatch)) :
    let result := processRecv pl P (some dispatch) r
    (Tracks all ahead (log ++ result.events) result.route todo ∧ Waits ahead r todo result) ∨
      ∃ p rest, todo = p :: rest ∧ Tracks all ahead (log ++ result.events) result.route rest := by
  obtain ⟨done, parts, hands⟩ := tracks.handed
  have within := fun p member => contained p (tracks.mem member)
  rcases processRecv_aligned pl tracks.aligned within kept with waits | ⟨p, rest, rfl, takes⟩
  · refine .inl ⟨⟨⟨done, parts, ?_⟩, waits.aligned⟩, waits⟩
    rw [dispatched_append, waits.silent, List.append_nil, hands]
  · refine .inr ⟨p, rest, rfl, ⟨done ++ [p], ?_, ?_⟩, takes.aligned⟩
    · rw [parts, List.append_assoc, List.singleton_append]
    · rw [dispatched_append, takes.hands, hands, List.filterMap_append]
      cases content : p.content P <;> simp [content]

/-- Any segmentation, and any calls in between, keep a run on the track of its packets. -/
theorem run_tracks {actions : List (Action P)} {events : List (Event P)} (contained : ∀ p ∈ all, p.Contained)
    (idle : r.preRecivesTotalLen = 0) (empty : r.dataStreamReceive = [])
    (meets : (routeMachine pl P).Meets ThrowsIdle r actions)
    (runs : (routeMachine pl P).run r actions = some (t, events)) (ahead : Bytes)
    (stream : received actions ++ ahead = wire all) : ∃ todo, Tracks all ahead events t todo := by
  let Inv (hist : List (Action P)) (log : List (Event P)) (r : Route) : Prop :=
    ∀ ahead, received hist ++ ahead = wire all → ∃ todo, Tracks all ahead log r todo
  have initial : Inv [] [] r := fun ahead stream => by
    obtain rfl : ahead = wire all := stream
    exact ⟨all, .start idle empty⟩
  refine Machine.run_induct Inv ?_ initial meets runs ahead stream
  intro hist log r a u seen before kept taken ahead stream
  cases a with
  | receive chunk =>
    obtain ⟨u, room, same⟩ := Option.map_eq_some_iff.mp taken
    cases same
    rw [received_append, received_receive, List.append_assoc] at stream
    obtain ⟨todo, tracks⟩ := before _ stream
    rw [List.append_nil]
    exact ⟨todo, tracks.receive room⟩
  | processRecv dispatch =>
    cases taken
    rw [received_append, received_processRecv, List.append_nil] at stream
    obtain ⟨todo, tracks⟩ := before ahead stream
    rcases tracks.processRecv pl contained kept with ⟨waiting, -⟩ | ⟨p, rest, -, taking⟩
    · exact ⟨todo, waiting⟩
    · exact ⟨rest, taking⟩

/-- The first packet of what is left has not arrived whole. -/
def Unarrived (ahead : Bytes) (todo : List Packet) : Prop :=
  ∀ p rest, todo = p :: rest → (wire rest).length < ahead.length

theorem Waits.unarrived {result : Recv P} (waits : Waits ahead r todo result) (aligned : Aligned ahead r todo)
    (long : ∀ p ∈ todo, 8 ≤ p.payload.length) : Unarrived ahead todo := by
  intro p rest same
  by_contra arrived
  have short := waits.short p rest same (by omega)
  subst same
  have enough := long p List.mem_cons_self
  cases aligned with
  | idle none stream =>
    have lengths := congrArg List.length stream
    rw [List.length_append, wire_cons, List.length_append, Packet.length_bytes] at lengths
    omega
  | pending some stream =>
    have lengths := congrArg List.length stream
    rw [List.length_append, List.length_append] at lengths
    omega

/-- Nothing is left, or one last packet too short for the test of eight bytes. -/
def Exhausted (todo : List Packet) : Prop := todo = [] ∨ ∃ p, todo = [p] ∧ p.payload.length < 8

theorem Exhausted.suffix {todo' : List Packet} (exhausted : Exhausted todo) (suffix : todo' <:+ todo) :
    Exhausted todo' := by
  rcases exhausted with rfl | ⟨p, rfl, short⟩
  · exact .inl (List.suffix_nil.mp suffix)
  · rcases List.suffix_cons_iff.mp suffix with rfl | beyond
    · exact .inr ⟨p, rfl, short⟩
    · exact .inl (List.suffix_nil.mp beyond)

theorem Waits.exhausted {result : Recv P} (waits : Waits [] r todo result) (aligned : Aligned [] r todo) :
    Exhausted todo := by
  cases todo with
  | nil => exact .inl rfl
  | cons p rest =>
    have short := waits.short p rest rfl (Nat.zero_le _)
    cases aligned with
    | idle none stream =>
      have lengths := congrArg List.length stream
      simp only [List.append_nil, wire_cons, List.length_append, Packet.length_bytes] at lengths
      omega
    | pending some stream =>
      have lengths := congrArg List.length stream
      cases rest with
      | nil =>
        simp only [List.append_nil, wire_nil] at lengths
        exact .inr ⟨p, rfl, by omega⟩
      | cons q rest =>
        simp only [List.append_nil, wire_cons, List.length_append, Packet.length_bytes] at lengths
        omega

/-- Once everything has arrived, every call takes a packet until the sequence is exhausted. -/
theorem calls_tracks {calls : List (Dispatch P)} {events : List (Event P)} (contained : ∀ p ∈ all, p.Contained)
    (tracks : Tracks all [] log r todo) (meets : (routeMachine pl P).Meets ThrowsIdle r (calls.map .processRecv))
    (runs : (routeMachine pl P).run r (calls.map .processRecv) = some (t, events)) :
    ∃ todo', Tracks all [] (log ++ events) t todo' ∧ todo' <:+ todo ∧
      (todo'.length + calls.length ≤ todo.length ∨ Exhausted todo') := by
  induction calls generalizing r log todo events with
  | nil =>
    cases runs
    exact ⟨todo, by rw [List.append_nil]; exact tracks, List.suffix_refl _, .inl (Nat.le_refl _)⟩
  | cons dispatch calls ih =>
    obtain ⟨u, seen, later, first, rest, rfl⟩ := Machine.run_cons_eq_some.mp runs
    have kept := meets.1
    have beyond := meets.2 u seen first
    cases first
    rw [← List.append_assoc]
    rcases tracks.processRecv pl contained kept with ⟨waiting, waits⟩ | ⟨p, todo₁, rfl, taking⟩
    · obtain ⟨todo', tracks', suffix, -⟩ := ih waiting beyond rest
      exact ⟨todo', tracks', suffix, .inr ((waits.exhausted tracks.aligned).suffix suffix)⟩
    · obtain ⟨todo', tracks', suffix, progress⟩ := ih taking beyond rest
      refine ⟨todo', tracks', suffix.trans (List.suffix_cons p todo₁), progress.imp_left fun less => ?_⟩
      simp only [List.length_cons]
      omega

theorem run_exhausts {before : List (Action P)} {calls : List (Dispatch P)} {events : List (Event P)}
    (contained : ∀ p ∈ all, p.Contained) (idle : r.preRecivesTotalLen = 0) (empty : r.dataStreamReceive = [])
    (meets : (routeMachine pl P).Meets ThrowsIdle r (before ++ calls.map .processRecv))
    (runs : (routeMachine pl P).run r (before ++ calls.map .processRecv) = some (t, events))
    (stream : received before = wire all) (enough : all.length ≤ calls.length) :
    ∃ todo, Tracks all [] events t todo ∧ Exhausted todo := by
  obtain ⟨u, seen, later, first, rest, rfl⟩ := Machine.run_append_eq_some.mp runs
  obtain ⟨meetsFirst, meetsRest⟩ := Machine.meets_append meets first
  obtain ⟨todo, tracks⟩ := run_tracks contained idle empty meetsFirst first [] (by rw [List.append_nil, stream])
  obtain ⟨todo', tracks', -, progress⟩ := calls_tracks contained tracks meetsRest rest
  refine ⟨todo', tracks', progress.elim (fun less => .inl ?_) id⟩
  obtain ⟨done, parts, -⟩ := tracks.handed
  have lengths := congrArg List.length parts
  rw [List.length_append] at lengths
  exact List.eq_nil_of_length_eq_zero (by omega)

end Tracks

end MiniProtobuf
