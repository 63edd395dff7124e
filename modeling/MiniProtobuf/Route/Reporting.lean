import MiniProtobuf.Route.Framing

/-!
# What `Send` reports

`Send` has no limits and always returns true. Those of `ProcessRecv` decide whether the peer takes the
message, so the two agree on the messages that fit in its temporary buffers and survive parsing.
-/

namespace MiniProtobuf
open Wire BaseCmd

variable {pl : Platform} {P : Pool} {m : P.Message}

/-- However the bytes are cut up, a new peer that is called once they have arrived hands over the message. -/
def PeerTakes (pl : Platform) (P : Pool) (m : P.Message) (bytes : Bytes) : Prop :=
  ∀ (peer t : Route) (before : List (Action P)) (calls : List (Dispatch P)) (events : List (Event P)),
    peer.preRecivesTotalLen = 0 → peer.dataStreamReceive = [] → QuietRun (before ++ calls.map .processRecv) →
    received before = bytes → calls ≠ [] →
    (routeMachine pl P).run peer (before ++ calls.map .processRecv) = some (t, events) →
    dispatched events = [(P.getTypeName m, m)]

/-- `Send` returns true just when the peer takes the message, and appends nothing otherwise. -/
def ReportsRight (pl : Platform) (P : Pool) (m : P.Message) : Prop :=
  ∀ (r : Route) (bytes : Bytes), (send P r m).1.dataStreamSend = r.dataStreamSend ++ bytes →
    ((send P r m).2 = true ↔ PeerTakes pl P m bytes) ∧ ((send P r m).2 ≠ true → bytes = [])

theorem processRecv_prefix_alone {dispatcher : Option (Dispatch P)} {r : Route} {p : Packet}
    (idle : r.preRecivesTotalLen ≤ 0) (stream : r.dataStreamReceive = head ++ le32 p.total) :
    processRecv pl P dispatcher r =
      ⟨{ r with preRecivesTotalLen := p.total, dataStreamReceive := [] }, false, [.readRaw 4]⟩ := by
  have bound := p.total_lt
  have some : 0 < p.payload.length := Nat.lt_of_lt_of_le (by decide) p.four_le
  rw [← List.append_nil (le32 p.total)] at stream
  rw [processRecv_prefixed idle (by omega) stream (by rw [p.minusInt_total]; exact some),
    toInt32_of_range (by omega) (by omega)]

/-- A packet can always arrive: its prefix first, and the payload once that has been taken. -/
theorem exists_schedule (pl : Platform) (P : Pool) (p : Packet) :
    ∃ (before : List (Action P)) (t : Route) (events : List (Event P)), received before = p.bytes ∧
      QuietRun (before ++ [silent].map .processRecv) ∧
      (routeMachine pl P).run (Route.new 0 [] []) (before ++ [silent].map .processRecv) = some (t, events) := by
  have bound := p.int_lt
  have size := pl.int_le
  have eight : (head ++ le32 p.total).length = 8 := by
    rw [List.length_append, length_le32]
    rfl
  obtain ⟨r, first⟩ := @receive_of_room pl (Route.new 0 [] []) (head ++ le32 p.total) (by omega)
    (show 0 + (head ++ le32 p.total).length ≤ pl.maxSize by omega)
  obtain ⟨⟨temp, same⟩, -⟩ := receive_eq first
  have called := @processRecv_prefix_alone pl P (some silent) r p (by rw [same]; exact Int.le_refl 0)
    (by rw [same]; exact List.nil_append _)
  obtain ⟨u, second⟩ := @receive_of_room pl { r with preRecivesTotalLen := p.total, dataStreamReceive := [] } p.payload
    (by omega) (show 0 + p.payload.length ≤ pl.maxSize by omega)
  let last := processRecv pl P (some silent) u
  refine ⟨[.receive (head ++ le32 p.total), .processRecv silent, .receive p.payload], last.route,
    .readRaw 4 :: last.events, ?_, ?_, ?_⟩
  · simp [received, Packet.bytes]
  · intro dispatch member
    obtain rfl : dispatch = silent := by simpa using member
    exact silent_quiet
  · simp only [List.map_cons, List.map_nil, List.cons_append, List.nil_append, Machine.run, routeMachine, first,
      Option.map_some, called, second, List.append_nil, last]

theorem run_frame {peer t : Route} {before : List (Action P)} {calls : List (Dispatch P)} {events : List (Event P)}
    (named : 2 ≤ (P.getTypeName m).length) (fits : totalOf P m < 2 ^ 31) (idle : peer.preRecivesTotalLen = 0)
    (empty : peer.dataStreamReceive = []) (quiet : QuietRun (before ++ calls.map .processRecv))
    (arrived : received before = frame P m) (called : calls ≠ [])
    (runs : (routeMachine pl P).run peer (before ++ calls.map .processRecv) = some (t, events)) :
    dispatched events = ((packetOf m fits).content P).toList := by
  have contained : ∀ p ∈ [packetOf m fits], p.Contained := fun p member => by
    obtain rfl := List.mem_singleton.mp member
    exact packetOf_contained
  have stream : received before = wire [packetOf m fits] := by
    rw [arrived, wire_cons, wire_nil, List.append_nil, packetOf_bytes]
  obtain ⟨todo, tracks, exhausted⟩ := run_exhausts contained idle empty (quiet.throwsIdle peer) runs stream
    (List.length_pos_of_ne_nil called)
  obtain ⟨done, parts, hands⟩ := tracks.handed
  have nothing : todo = [] := by
    rcases exhausted with nothing | ⟨p, rfl, short⟩
    · exact nothing
    · obtain rfl := List.mem_singleton.mp (tracks.mem List.mem_cons_self)
      have long := @eight_le_packetOf P m fits named
      omega
  subst nothing
  rw [List.append_nil] at parts
  rw [hands, ← parts]
  cases content : (packetOf m fits).content P <;> simp [content]

theorem peerTakes_iff (known : ∃ prototype, P.createMessage (P.getTypeName m) = some prototype)
    (named : 2 ≤ (P.getTypeName m).length) (fits : totalOf P m < 2 ^ 31) :
    PeerTakes pl P m (frame P m) ↔ Small P m ∧ RoundTrips P m := by
  obtain ⟨prototype, found⟩ := known
  constructor
  · intro takes
    obtain ⟨before, t, events, arrived, quiet, runs⟩ := exists_schedule pl P (packetOf m fits)
    rw [packetOf_bytes] at arrived
    have handed := run_frame named fits rfl rfl quiet arrived (List.cons_ne_nil _ _) runs
    rw [takes _ _ _ _ _ rfl rfl quiet arrived (List.cons_ne_nil _ _) runs, packetOf_decode] at handed
    by_cases small : Small P m
    · rw [if_pos small, decode, found, Option.map_some] at handed
      have same := congrArg Prod.snd (List.singleton_inj.mp handed)
      exact ⟨small, prototype, found, same.symm⟩
    · rw [if_neg small] at handed
      cases handed
  · rintro ⟨small, trips⟩ peer t before calls events idle empty quiet arrived called runs
    rw [run_frame named fits idle empty quiet arrived called runs, packetOf_content trips, if_pos small]
    rfl

theorem reportsRight_iff (known : ∃ prototype, P.createMessage (P.getTypeName m) = some prototype)
    (named : 2 ≤ (P.getTypeName m).length) (fits : totalOf P m < 2 ^ 31) :
    ReportsRight pl P m ↔ Small P m ∧ RoundTrips P m := by
  rw [← @peerTakes_iff pl P m known named fits]
  constructor
  · intro right
    exact (right (Route.new 0 [] []) (frame P m) rfl).1.mp rfl
  · intro takes r bytes appended
    obtain rfl : frame P m = bytes := List.append_cancel_left appended
    exact ⟨⟨fun _ => takes, fun _ => rfl⟩, fun refused => absurd rfl refused⟩

/-- For the messages of the package the report is right just when header and body fit in the temporary
buffers of the peer, and parsing gives the message back. -/
theorem reports_right_iff_small {m : Message} (fits : totalOf .baseCmd m < 2 ^ 31) :
    ReportsRight pl .baseCmd m ↔ Small .baseCmd m ∧ RoundTrips .baseCmd m := by
  refine reportsRight_iff ⟨m.fresh, m.createMessage_getTypeName⟩ ?_ fits
  cases m <;> exact Nat.le_of_ble_eq_true rfl

theorem reports_right_iff_small_move : ReportsRight .x64 .baseCmd (Message.reqMove ⟨1, 2⟩) := by
  have formed : WellFormed .baseCmd (Message.reqMove ⟨1, 2⟩) :=
    wellFormed_baseCmd (by decide +kernel) (by decide +kernel)
  exact (@reports_right_iff_small .x64 _ formed.small.fits).mpr ⟨formed.small, formed.known⟩

/-- `Send` reports success for an error text of 1025 bytes, and the peer drops it. -/
theorem send_reports_oversized :
    let m : Pool.baseCmd.Message := Message.rspMove (List.replicate 1025 97)
    ∃ t events,
      (routeMachine .x64 .baseCmd).run (Route.new 0 [] [])
        [.receive (send .baseCmd (Route.new 0 [] []) m).1.dataStreamSend, .processRecv silent] = some (t, events) ∧
      (send .baseCmd (Route.new 0 [] []) m).2 = true ∧ RoundTrips .baseCmd m ∧ totalOf .baseCmd m < 2 ^ 31 ∧
      t.dataStreamReceive = [] ∧ dispatched events = [] := by
  intro m
  have evaluates : ((routeMachine .x64 .baseCmd).run (Route.new 0 [] [])
      [.receive (send .baseCmd (Route.new 0 [] []) m).1.dataStreamSend, .processRecv silent]).any
      (fun (t, events) => t.dataStreamReceive = [] ∧ (dispatched events).isEmpty) = true := by
    decide +kernel
  obtain ⟨t, events, runs, seen⟩ := Machine.exists_run evaluates
  obtain ⟨drained, nothing⟩ := of_decide_eq_true seen
  exact ⟨t, events, runs, rfl, roundTrips_baseCmd (by decide +kernel) (by decide +kernel), by decide +kernel, drained,
    List.isEmpty_iff.mp nothing⟩

end MiniProtobuf
