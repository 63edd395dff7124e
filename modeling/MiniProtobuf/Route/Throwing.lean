import MiniProtobuf.Route.Framing

/-!
# Handlers that throw

The catch block of `ProcessRecv` leaves the pending length as it was. That is harmless when none
was pending: the call then leaves the same buffer and the same length as if the handler had
returned. A length that was pending stays, and is taken for the length of the next frame.
-/

namespace MiniProtobuf
open Wire BaseCmd

variable {pl : Platform} {P : Pool}

def Route.framing (r : Route) : Bytes × Int := (r.dataStreamReceive, r.preRecivesTotalLen)

/-- The same handlers, returning where they would throw. -/
def returning (dispatch : Dispatch P) : Dispatch P := fun typeName msg => { dispatch typeName msg with throws := false }

theorem handledOf_returning (dispatch : Dispatch P) (content : Option (Bytes × P.Message)) :
    (handledOf (returning dispatch) content).throws = false := by
  cases content <;> rfl

theorem deliver_framing {dispatch : Dispatch P} {r : Route} (idle : r.preRecivesTotalLen = 0) (typeName body : Bytes) :
    (deliver P (some dispatch) r typeName body).route.framing = (r.dataStreamReceive, 0) := by
  rw [deliver_eq]
  simp only [Route.framing, idle, ite_self]

theorem processPayload_framing {dispatch : Dispatch P} {r : Route} (idle : r.preRecivesTotalLen = 0) (totalLen : Nat) :
    (processPayload pl P (some dispatch) r totalLen).route.framing =
      (processPayload pl P (some (returning dispatch)) r totalLen).route.framing := by
  rw [processPayload_eq, processPayload_eq]
  dsimp only
  split
  · rfl
  · split
    · rfl
    · dsimp only
      rw [deliver_framing (by exact idle), deliver_framing (by exact idle)]

/-- With no length pending, a call frames the stream the same whether the handler throws or not. -/
theorem processRecv_framing {dispatch : Dispatch P} {r : Route} (idle : r.preRecivesTotalLen = 0) :
    (processRecv pl P (some dispatch) r).route.framing =
      (processRecv pl P (some (returning dispatch)) r).route.framing := by
  have none : ¬ 0 < r.preRecivesTotalLen := by omega
  rw [processRecv_eq, processRecv_eq]
  simp only [none, if_false]
  split
  · rfl
  · split
    · rfl
    · split
      · rfl
      · dsimp only
        rw [processPayload_framing (by exact idle)]

/-- A handler that returns from a pending packet leaves nothing pending. -/
theorem processRecv_framing_pending {dispatch : Dispatch P} {ahead : Bytes} {r : Route} {p : Packet}
    {rest : List Packet} (pending : r.preRecivesTotalLen = p.total)
    (stream : r.dataStreamReceive ++ ahead = p.payload ++ wire rest) (contained : p.Contained)
    (kept : ThrowsIdle r (.processRecv dispatch)) :
    (processRecv pl P (some dispatch) r).route.framing =
      (processRecv pl P (some (returning dispatch)) r).route.framing := by
  have positive : (0 : Int) < p.total := by unfold Packet.total; omega
  have total := toUInt32_pending pending p.total_lt
  rw [pending] at total
  rw [processRecv_eq, processRecv_eq]
  simp only [pending, positive, if_true, total, p.minusInt_total]
  split
  · rfl
  split
  · rfl
  rename_i arrived
  obtain ⟨behind, front, -⟩ := split_front stream (Nat.le_of_not_lt arrived)
  obtain ⟨temp, route, -⟩ := @processPayload_packet pl P dispatch _ _ _ front contained
  obtain ⟨temp', route', -⟩ := @processPayload_packet pl P (returning dispatch) _ _ _ front contained
  rw [route, route']
  simp only [Route.framing, kept p pending ⟨behind, front.symm⟩, handledOf_returning]

/-- When handlers throw only in calls that start with no length pending, every frame is decoded and handed
over once and in order, and each such call frames the stream as if the handler had returned. -/
theorem throwing_idle_exact {messages : List P.Message} {r t : Route} {actions : List (Action P)}
    {events : List (Event P)} (named : ∀ m ∈ messages, 2 ≤ (P.getTypeName m).length)
    (fits : ∀ m ∈ messages, totalOf P m < 2 ^ 31)
    (idle : r.preRecivesTotalLen = 0) (empty : r.dataStreamReceive = [])
    (meets : (routeMachine pl P).Meets ThrowsIdle r actions) (split : received actions <+: messages.flatMap (frame P))
    (runs : (routeMachine pl P).run r actions = some (t, events)) :
    dispatched events <+: decoded P messages ∧
      (∀ (before : List (Action P)) (calls : List (Dispatch P)), actions = before ++ calls.map .processRecv →
        received before = messages.flatMap (frame P) → messages.length ≤ calls.length →
        dispatched events = decoded P messages ∧
          t.dataStreamReceive = [] ∧ t.preRecivesTotalLen = 0) ∧
      ∀ dispatch, ThrowsIdle t (.processRecv dispatch) →
        (processRecv pl P (some dispatch) t).route.framing =
          (processRecv pl P (some (returning dispatch)) t).route.framing := by
  have hands := run_frames named fits idle empty meets split runs
  refine ⟨hands.prefixed, hands.whole, fun dispatch kept => ?_⟩
  obtain ⟨ahead, parts⟩ := split
  obtain ⟨todo, tracks⟩ := run_tracks (fun p => @packetsOf_contained P messages fits p) idle empty meets runs ahead
    (parts.trans wire_packetsOf.symm)
  cases tracks.aligned with
  | idle none rest => exact processRecv_framing none
  | @pending p ps some rest =>
    have contained : p.Contained := packetsOf_contained (tracks.mem List.mem_cons_self)
    exact processRecv_framing_pending some rest contained kept

theorem throwing_idle_exact_two_moves :
    let messages : List Pool.baseCmd.Message := [Message.reqMove ⟨1, 2⟩, Message.reqMove ⟨3, 4⟩]
    let throwing : Dispatch .baseCmd := fun _ _ => ⟨[], true⟩
    ∃ t events,
      (routeMachine .x64 .baseCmd).run (Route.new 0 [] [])
        ([.receive (messages.flatMap (frame .baseCmd))] ++ [throwing, throwing].map .processRecv) = some (t, events) ∧
      dispatched events = titled .baseCmd messages ∧
      t.dataStreamReceive = [] ∧ t.preRecivesTotalLen = 0 := by
  intro messages throwing
  have valid : ∀ m ∈ ([.reqMove ⟨1, 2⟩, .reqMove ⟨3, 4⟩] : List Message), m.Valid ∧ Small .baseCmd m := by
    decide +kernel
  have meets : (routeMachine .x64 .baseCmd).Meets ThrowsIdle (Route.new 0 [] [])
      ([.receive (messages.flatMap (frame .baseCmd))] ++ [throwing, throwing].map .processRecv) := by
    refine @Machine.meets_of_checks _ _ _ _ _ _ _ (fun r _ => r.preRecivesTotalLen ≤ 0) ?_ (by decide +kernel)
    exact fun r a idle => throwsIdle_of_idle (of_decide_eq_true idle) a
  have evaluates : ((routeMachine .x64 .baseCmd).run (Route.new 0 [] [])
      ([.receive (messages.flatMap (frame .baseCmd))] ++ [throwing, throwing].map .processRecv)).any
      (fun _ => true) = true := by
    decide +kernel
  obtain ⟨t, events, runs, -⟩ := Machine.exists_run evaluates
  have all := @throwing_idle_exact .x64 .baseCmd messages (Route.new 0 [] []) t _ events (by decide +kernel)
    (by decide +kernel) rfl rfl meets (by decide +kernel) runs
  rw [decoded_of_wellFormed fun m present => wellFormed_baseCmd (valid m present).1 (valid m present).2] at all
  exact ⟨t, events, runs, all.2.1 _ _ rfl (List.append_nil _) (Nat.le_refl _)⟩

/-- The length of a frame arrives before the rest of it, and the handler throws: the next frame is
cut by the stale length, and no later call finds it. -/
theorem throwing_pending_loses_frame :
    let m : Pool.baseCmd.Message := Message.reqMove ⟨1, 2⟩
    let stream := [m, m].flatMap (frame .baseCmd)
    let throwing : Dispatch .baseCmd := fun _ _ => ⟨[], true⟩
    ∃ t events,
      (routeMachine .x64 .baseCmd).run (Route.new 0 [] [])
        [.receive (stream.take 8), .processRecv silent, .receive (stream.drop 8), .processRecv throwing,
          .processRecv silent, .processRecv silent] = some (t, events) ∧
      (dispatched events).length = 1 ∧
      ∀ calls : List (Dispatch .baseCmd), (routeMachine .x64 .baseCmd).run t (calls.map .processRecv) =
        some (t, []) := by
  intro m stream throwing
  have evaluates : ((routeMachine .x64 .baseCmd).run (Route.new 0 [] [])
      [.receive (stream.take 8), .processRecv silent, .receive (stream.drop 8), .processRecv throwing,
        .processRecv silent, .processRecv silent]).any
      (fun (t, events) => t.dataStreamReceive.length < 8 ∧ (dispatched events).length = 1) = true := by
    decide +kernel
  obtain ⟨t, events, runs, seen⟩ := Machine.exists_run evaluates
  obtain ⟨short, one⟩ := of_decide_eq_true seen
  exact ⟨t, events, runs, one, fun calls => calls_short short calls⟩

end MiniProtobuf
