import MiniProtobuf.Route.Safety

/-!
# The packet at the front

On any bytes and with any handlers, a call reaches `createMessage` just when a packet with proper slices
stands at the front of the buffer, and then with its slices (`exists_front`, `Front.processRecv`).
-/

namespace MiniProtobuf
open Wire BaseCmd

variable {pl : Platform} {P : Pool}

/-- A whole packet stands at the front, its prefix included or already read, and the test of eight bytes
passes. -/
structure Front (r : Route) (p : Packet) (rest : Bytes) : Prop where
  eight : 8 ≤ r.dataStreamReceive.length
  stands : (r.preRecivesTotalLen ≤ 0 ∧ r.dataStreamReceive = p.bytes ++ rest) ∨
    (r.preRecivesTotalLen = p.total ∧ r.dataStreamReceive = p.payload ++ rest)

theorem Packet.contained_of_slices {p : Packet} {slices : Bytes × Bytes} (sliced : p.slices = some slices) :
    p.Contained := by
  unfold Packet.slices at sliced
  split at sliced
  · rename_i bounds
    exact .inr bounds.2.1
  · cases sliced

structure Opened (dispatch : Dispatch P) (r : Route) (p : Packet) (rest : Bytes) (result : Recv P) : Prop where
  stream : result.route.dataStreamReceive = rest
  pending : result.route.preRecivesTotalLen =
    if (handledOf dispatch (p.content P)).throws then r.preRecivesTotalLen else 0
  slices : frames result.events = p.slices.toList

theorem opened_payload {dispatch : Dispatch P} {r : Route} {p : Packet} {rest : Bytes}
    (stream : r.dataStreamReceive = p.payload ++ rest) (contained : p.Contained) :
    Opened dispatch r p rest (processPayload pl P (some dispatch) r p.total) := by
  obtain ⟨temp, route, -, slices⟩ := @processPayload_packet pl P dispatch _ _ _ stream contained
  exact ⟨by rw [route], by rw [route], slices⟩

theorem Front.processRecv {r : Route} {p : Packet} {rest : Bytes} (front : Front r p rest) (contained : p.Contained)
    (dispatch : Dispatch P) : Opened dispatch r p rest (processRecv pl P (some dispatch) r) := by
  have bound := p.int_lt
  rcases front.stands with ⟨idle, stream⟩ | ⟨pending, stream⟩
  · rw [processRecv_packet idle stream]
    have opened := @opened_payload pl P dispatch { r with dataStreamReceive := p.payload ++ rest } p rest rfl contained
    exact ⟨opened.stream, opened.pending, opened.slices⟩
  · have total := toUInt32_pending pending p.total_lt
    have arrived : pl.minusInt p.total ≤ r.dataStreamReceive.length := by
      rw [p.minusInt_total, stream, List.length_append]
      omega
    rw [processRecv_arrived front.eight (by rw [pending, Packet.total]; omega) (by rw [total]; exact arrived), total]
    exact opened_payload stream contained

theorem packet_of_frames {dispatch : Dispatch P} {r : Route} {totalLen : Nat} {slices : Bytes × Bytes}
    (word : totalLen < 2 ^ 32) (arrived : pl.minusInt totalLen ≤ r.dataStreamReceive.length)
    (framed : slices ∈ frames (processPayload pl P (some dispatch) r totalLen).events) :
    ∃ (p : Packet) (rest : Bytes), p.total = totalLen ∧ r.dataStreamReceive = p.payload ++ rest ∧
      p.slices = some slices := by
  rcases processPayload_frames word arrived with none | ⟨header, body, one, stream, total, small, fits⟩
  · rw [none] at framed
    cases framed
  · rw [one] at framed
    obtain rfl := List.mem_singleton.mp framed
    have limit : tempBufferSize = 1024 := rfl
    let payload := le32 header.length ++ (header ++ body)
    have length : payload.length = 4 + header.length + body.length := by
      rw [List.length_append, List.length_append, length_le32]
      omega
    let p : Packet := ⟨payload, by omega, by omega⟩
    have size : p.payload.length = 4 + header.length + body.length := length
    have headLen : p.headLen = header.length := by
      rw [Packet.headLen, List.take_left' (length_le32 _), ofLe_le32 (by omega)]
    refine ⟨p, _, by rw [Packet.total, length]; omega, stream, ?_⟩
    have behind : p.payload.drop 4 = header ++ body := List.drop_left' (length_le32 _)
    rw [Packet.slices, headLen, if_pos ⟨small, by omega, by omega⟩, behind, List.take_left, List.drop_left]

theorem exists_front {dispatch : Dispatch P} {r : Route} {slices : Bytes × Bytes} (int : r.preRecivesTotalLen < 2 ^ 31)
    (framed : slices ∈ frames (processRecv pl P (some dispatch) r).events) :
    ∃ p rest, Front r p rest ∧ p.slices = some slices := by
  rw [processRecv_eq] at framed
  dsimp only at framed
  split at framed
  · cases framed
  rename_i eight
  split at framed
  · rename_i positive
    have word := toUInt32_of_nonneg (Int.le_of_lt positive) (by omega)
    split at framed
    · cases framed
    · rename_i arrived
      obtain ⟨p, rest, total, stream, sliced⟩ := packet_of_frames (by omega) (Nat.le_of_not_lt arrived) framed
      exact ⟨p, rest, ⟨Nat.le_of_not_lt eight, .inr ⟨by omega, stream⟩⟩, sliced⟩
  rename_i idle
  split at framed
  · cases framed
  rename_i magic
  rw [ne_eq, not_not] at magic
  have word := totalLen_lt (Nat.le_of_not_lt eight)
  split at framed
  · cases framed
  · rename_i arrived
    obtain ⟨p, rest, total, stream, sliced⟩ := @packet_of_frames pl P dispatch
      { r with dataStreamReceive := r.dataStreamReceive.drop 8 } _ _ word (by rw [List.length_drop]; omega) framed
    have behind : r.dataStreamReceive.drop 8 = p.payload ++ rest := stream
    refine ⟨p, rest, ⟨Nat.le_of_not_lt eight, .inl ⟨Int.not_lt.mp idle, ?_⟩⟩, sliced⟩
    calc r.dataStreamReceive =
          head ++ le32 (ofLe ((r.dataStreamReceive.drop 4).take 4)) ++ r.dataStreamReceive.drop 8 :=
          eq_prefix_append (Nat.le_of_not_lt eight) magic
      _ = p.bytes ++ rest := by
        rw [← total, behind, Packet.bytes]
        simp only [List.append_assoc]

theorem processRecv_int {dispatch : Dispatch P} {r : Route} (int : r.preRecivesTotalLen < 2 ^ 31) :
    (processRecv pl P (some dispatch) r).route.preRecivesTotalLen < 2 ^ 31 := by
  have payload (r : Route) (totalLen : Nat) (int : r.preRecivesTotalLen < 2 ^ 31) :
      (processPayload pl P (some dispatch) r totalLen).route.preRecivesTotalLen < 2 ^ 31 := by
    rw [processPayload_eq]
    dsimp only
    split
    · exact Int.pow_pos (by decide)
    split
    · exact Int.pow_pos (by decide)
    · rw [deliver_eq]
      dsimp only
      split
      · exact int
      · exact Int.pow_pos (by decide)
  rw [processRecv_eq]
  dsimp only
  split
  · exact int
  split
  · split
    · exact int
    · exact payload _ _ int
  split
  · exact Int.pow_pos (by decide)
  split
  · dsimp only
    exact (toInt32_bounds _).2
  · exact payload _ _ int

/-- A step condition: what stands at the front when a call is made is all right. -/
def OnFront (Right : Bytes × Bytes → Prop) (r : Route) : Action P → Prop
  | .receive _ => True
  | .processRecv _ => ∀ p rest slices, Front r p rest → p.slices = some slices → Right slices

theorem frames_iff_front {Right : Bytes × Bytes → Prop} {r : Route} (int : r.preRecivesTotalLen < 2 ^ 31)
    (dispatch : Dispatch P) :
    (∀ slices ∈ frames (processRecv pl P (some dispatch) r).events, Right slices) ↔
      OnFront Right r (Action.processRecv dispatch) := by
  constructor
  · intro all p rest slices front sliced
    have opened := @Front.processRecv pl P r p rest front (Packet.contained_of_slices sliced) dispatch
    apply all
    rw [opened.slices, sliced]
    exact List.mem_singleton_self slices
  · intro right slices framed
    obtain ⟨p, rest, front, sliced⟩ := exists_front int framed
    exact right p rest slices front sliced

theorem mem_frames {events : List (Event P)} {slices : Bytes × Bytes} :
    slices ∈ frames events ↔ Event.frame slices.1 slices.2 ∈ events := by
  rw [frames, List.mem_filterMap]
  constructor
  · rintro ⟨e, member, same⟩
    cases e with
    | frame header body =>
      cases same
      exact member
    | _ => cases same
  · exact fun member => ⟨_, member, rfl⟩

/-- All slices of a run are right just when those that stand at the front of every call are. -/
theorem run_frames_iff {Right : Bytes × Bytes → Prop} {r t : Route} {actions : List (Action P)}
    {events : List (Event P)}
    (int : r.preRecivesTotalLen < 2 ^ 31) (runs : (routeMachine pl P).run r actions = some (t, events)) :
    (∀ slices ∈ frames events, Right slices) ↔ (routeMachine pl P).Meets (OnFront Right) r actions := by
  let Good (e : Event P) : Prop := ∀ slices : Bytes × Bytes, e = .frame slices.1 slices.2 → Right slices
  have good (events : List (Event P)) : (∀ slices ∈ frames events, Right slices) ↔ ∀ e ∈ events, Good e := by
    refine ⟨fun all e member slices same => all slices (mem_frames.mpr (same ▸ member)), fun all slices framed => ?_⟩
    exact all _ (mem_frames.mp framed) slices rfl
  rw [good]
  refine @Machine.run_events_iff _ _ _ _ _ _ _ _ (fun r : Route => r.preRecivesTotalLen < 2 ^ 31) _ _ ?_ ?_ int runs
  · intro r a u seen int taken
    cases a with
    | receive chunk =>
      obtain ⟨u, room, same⟩ := Option.map_eq_some_iff.mp taken
      obtain ⟨⟨temp, rfl⟩, -⟩ := receive_eq room
      cases same
      exact int
    | processRecv dispatch =>
      cases taken
      exact processRecv_int int
  · intro r a u seen int taken
    cases a with
    | receive chunk =>
      obtain ⟨u, room, same⟩ := Option.map_eq_some_iff.mp taken
      cases same
      exact ⟨fun _ => trivial, fun _ e member => absurd member List.not_mem_nil⟩
    | processRecv dispatch =>
      cases taken
      rw [← good]
      exact frames_iff_front int dispatch

/-! ### What is dispatched -/

/-- The message that two slices make, when their type is known. -/
def made (P : Pool) (slices : Bytes × Bytes) : Option (Bytes × P.Message) :=
  decode P (CmdType.parseFromArray slices.1).1.type slices.2

theorem toList_made (header body : Bytes) : (made P (header, body)).toList = [(header, body)].filterMap (made P) := by
  cases content : made P (header, body) <;> simp [content]

theorem dispatched_payload (dispatch : Dispatch P) (r : Route) (totalLen : Nat) :
    let events := (processPayload pl P (some dispatch) r totalLen).events
    dispatched events = (frames events).filterMap (made P) := by
  rw [processPayload_eq]
  dsimp only
  split
  · rfl
  split
  · rfl
  · rw [deliver_eq]
    dsimp only
    rw [dispatched_append, frames_append, dispatched_deliver, frames_deliver, List.append_nil]
    exact toList_made _ _

theorem dispatched_call (dispatch : Dispatch P) (r : Route) :
    let events := (processRecv pl P (some dispatch) r).events
    dispatched events = (frames events).filterMap (made P) := by
  rcases @processRecv_cases pl P (some dispatch) r with eq | ⟨pending, rest, eq⟩ | ⟨totalLen, eq⟩ | ⟨totalLen, rest, eq⟩
  · rw [eq]
    rfl
  · rw [eq]
    rfl
  · rw [eq]
    exact dispatched_payload dispatch r totalLen
  · rw [eq]
    exact dispatched_payload dispatch { r with dataStreamReceive := rest } totalLen

theorem run_dispatched {r t : Route} {actions : List (Action P)} {events : List (Event P)}
    (runs : (routeMachine pl P).run r actions = some (t, events)) :
    dispatched events = (frames events).filterMap (made P) := by
  have always : (routeMachine pl P).Meets (fun _ _ => True) r actions := Machine.meets_of_forall fun _ _ _ => trivial
  refine Machine.run_induct (fun _ log _ => dispatched log = (frames log).filterMap (made P)) ?_ rfl always runs
  intro hist log r a u seen before _ taken
  rw [dispatched_append, frames_append, List.filterMap_append, before]
  cases a with
  | receive chunk =>
    obtain ⟨u, room, same⟩ := Option.map_eq_some_iff.mp taken
    cases same
    rfl
  | processRecv dispatch =>
    cases taken
    rw [dispatched_call]

end MiniProtobuf
