import MiniProtobuf.Route.Framing
import MiniProtobuf.Route.Safety

/-!
# Wedged receivers

A total length of one, two or three makes `totalLen - sizeof(int)` larger than any buffer, and the
route waits for ever. Every other state has a way out: the buffer can be drained, and a frame that
comes after that is handed over.
-/

namespace MiniProtobuf
open Wire BaseCmd CodedInputStream

variable {pl : Platform} {P : Pool}

/-- Bytes that start with the magic and a total length of one, two or three. -/
def Wedging (bytes : Bytes) : Prop := ∃ totalLen, 0 < totalLen ∧ totalLen < 4 ∧ head ++ le32 totalLen <+: bytes

theorem wedging_iff {bytes : Bytes} : Wedging bytes ↔ ∃ totalLen ∈ [1, 2, 3], head ++ le32 totalLen <+: bytes := by
  constructor
  · rintro ⟨totalLen, positive, small, held⟩
    exact ⟨totalLen, by simp; omega, held⟩
  · rintro ⟨totalLen, member, held⟩
    simp only [List.mem_cons, List.not_mem_nil, or_false] at member
    exact ⟨totalLen, by omega, by omega, held⟩

instance (bytes : Bytes) : Decidable (Wedging bytes) := decidable_of_iff' _ wedging_iff

/-- A route that waits for no such length. -/
structure Unwedged (r : Route) : Prop where
  pending : ¬ (0 < r.preRecivesTotalLen ∧ r.preRecivesTotalLen < 4)
  int : r.preRecivesTotalLen < 2 ^ 31

/-- The step condition: a call that looks for a new packet does not stand on a wedging prefix, and no handler throws. -/
def CallsUnwedged (r : Route) : Action P → Prop
  | .receive _ => True
  | .processRecv dispatch => Quiet dispatch ∧ (r.preRecivesTotalLen ≤ 0 → ¬ Wedging r.dataStreamReceive)

theorem Unwedged.of_idle {r : Route} (idle : r.preRecivesTotalLen ≤ 0) : Unwedged r :=
  ⟨fun pending => absurd pending.1 (by omega), by omega⟩

theorem Unwedged.processRecv {dispatch : Dispatch P} {r : Route} (free : Unwedged r)
    (kept : CallsUnwedged r (.processRecv dispatch)) : Unwedged (processRecv pl P (some dispatch) r).route := by
  obtain ⟨quiet, front⟩ := kept
  rw [processRecv_eq]
  dsimp only
  split
  · exact free
  rename_i eight
  split
  · split
    · exact free
    · exact .of_idle (Int.le_of_eq ((processPayload_outline dispatch _ _).idle quiet))
  rename_i idle
  split
  · exact .of_idle (Int.le_refl 0)
  rename_i magic
  rw [ne_eq, not_not] at magic
  split
  -- The only call that leaves a new length behind: a small one would have stood at the front.
  · refine ⟨fun pending => front (Int.not_lt.mp idle) ?_, ?_⟩
    · dsimp only at pending
      have word := totalLen_lt (Nat.le_of_not_lt eight)
      have same := eq_of_toInt32_nonneg (by omega) (by omega) (Int.le_of_lt pending.1)
      refine ⟨ofLe ((r.dataStreamReceive.drop 4).take 4), by omega, by omega, r.dataStreamReceive.drop 8, ?_⟩
      rw [← eq_prefix_append (Nat.le_of_not_lt eight) magic]
    · dsimp only
      exact (toInt32_bounds _).2
  · exact .of_idle (Int.le_of_eq ((processPayload_outline dispatch _ _).idle quiet))

/-! ### The way out -/

/-- The actions of a continuation: any bytes may come, and every call has the given handlers. -/
def Uses (dispatch : Dispatch P) : Action P → Prop
  | .receive _ => True
  | .processRecv d => d = dispatch

section Drain

variable {dispatch : Dispatch P} {r : Route}

theorem reach_receive {chunk : Bytes} (room : r.dataStreamReceive.length + chunk.length < 2 ^ 31) :
    ∃ temp, (routeMachine pl P).ReachableBy (Uses dispatch) r
      { r with dataStreamReceive := r.dataStreamReceive ++ chunk, tempBuffer := temp } := by
  have int := pl.int_le
  obtain ⟨t, arrives⟩ := @receive_of_room pl r chunk (by omega) (by omega)
  obtain ⟨⟨temp, rfl⟩, -⟩ := receive_eq arrives
  exact ⟨temp, .single (Action.receive chunk) trivial (congrArg (Option.map _) arrives)⟩

theorem reach_call (r : Route) :
    (routeMachine pl P).ReachableBy (Uses dispatch) r (processRecv pl P (some dispatch) r).route :=
  .single (Action.processRecv dispatch) rfl rfl

/-- A length of two gigabytes or more never stays pending: its prefix is skipped. -/
theorem processRecv_huge {dispatcher : Option (Dispatch P)} {totalLen : Nat} (idle : r.preRecivesTotalLen ≤ 0)
    (huge : 2 ^ 31 ≤ totalLen) (word : totalLen < 2 ^ 32) (stream : r.dataStreamReceive = head ++ le32 totalLen) :
    (processRecv pl P dispatcher r).route.dataStreamReceive = [] ∧
      (processRecv pl P dispatcher r).route.preRecivesTotalLen ≤ 0 := by
  rw [← List.append_nil (le32 totalLen)] at stream
  have waits : ([] : Bytes).length < pl.minusInt totalLen := by
    rw [Platform.minusInt_of_le (by omega) word, List.length_nil]
    omega
  rw [processRecv_prefixed idle word stream waits]
  refine ⟨rfl, ?_⟩
  dsimp only
  rw [toInt32_of_high huge word]
  omega

/-- Four bytes that are not the magic are skipped as soon as others follow. -/
theorem drain_word (pl : Platform) (dispatch : Dispatch P) (idle : r.preRecivesTotalLen ≤ 0)
    (four : r.dataStreamReceive.length = 4) (other : r.dataStreamReceive ≠ head) :
    ∃ u, (routeMachine pl P).ReachableBy (Uses dispatch) r u ∧ u.dataStreamReceive = [] ∧ u.preRecivesTotalLen ≤ 0 := by
  obtain ⟨temp, fed⟩ := @reach_receive pl P dispatch r (head ++ le32 (2 ^ 32 - 1)) (by
    rw [four]
    decide)
  let next : Route :=
    { r with dataStreamReceive := r.dataStreamReceive ++ (head ++ le32 (2 ^ 32 - 1)), tempBuffer := temp }
  have long : 8 ≤ next.dataStreamReceive.length := by
    rw [List.length_append, four]
    decide
  have skip := @processRecv_skip pl P (some dispatch) next idle long (by rw [List.take_left' four]; exact other)
  have skipped := @reach_call pl P dispatch next
  rw [skip] at skipped
  have drained := @processRecv_huge pl P
    { next with preRecivesTotalLen := 0, dataStreamReceive := next.dataStreamReceive.drop 4 }
    (some dispatch) (2 ^ 32 - 1) (Int.le_refl 0) (by decide) (by decide) (List.drop_left' four)
  exact ⟨_, (fed.trans skipped).trans (reach_call _), drained⟩

/-- Less than eight idle bytes are drained by padding them with bytes that spell no small length. -/
theorem drain_short (pl : Platform) (dispatch : Dispatch P) (idle : r.preRecivesTotalLen ≤ 0)
    (short : r.dataStreamReceive.length < 8) :
    ∃ u, (routeMachine pl P).ReachableBy (Uses dispatch) r u ∧ u.dataStreamReceive = [] ∧ u.preRecivesTotalLen ≤ 0 := by
  let seven := r.dataStreamReceive ++ List.replicate (7 - r.dataStreamReceive.length) 0xFF
  have length : seven.length = 7 := by
    rw [List.length_append, List.length_replicate]
    omega
  let word := seven.drop 4 ++ [0xFF]
  have four : word.length = 4 := by
    rw [List.length_append, List.length_drop, length]
    rfl
  -- The last byte makes the second word at least two gigabytes.
  have huge : 2 ^ 31 ≤ ofLe word := by
    have three : (seven.drop 4).length = 3 := by rw [List.length_drop, length]
    rw [ofLe_append, three]
    have top : ofLe [0xFF] = 255 := rfl
    omega
  obtain ⟨temp, fed⟩ := @reach_receive pl P dispatch r
    (List.replicate (7 - r.dataStreamReceive.length) 0xFF ++ [0xFF]) (by
    rw [List.length_append, List.length_replicate, List.length_singleton]
    omega)
  generalize same : r.dataStreamReceive ++ (List.replicate (7 - r.dataStreamReceive.length) 0xFF ++ [0xFF]) =
    stream at fed
  have split : stream = seven.take 4 ++ word := by
    rw [← same, ← List.append_assoc, ← List.append_assoc, List.take_append_drop]
  by_cases magic : seven.take 4 = head
  · have drained := @processRecv_huge pl P { r with dataStreamReceive := stream, tempBuffer := temp }
      (some dispatch) (ofLe word)
      idle huge (ofLe_lt_word four) (by rw [le32_ofLe four, ← magic]; exact split)
    exact ⟨_, fed.trans (reach_call _), drained⟩
  · have eight : stream.length = 8 := by
      rw [split, List.length_append, four, List.length_take, length]
      rfl
    have front : stream.take 4 = seven.take 4 := by
      rw [split, List.take_left' (by rw [List.length_take, length]; rfl)]
    have back : stream.drop 4 = word := by
      rw [split, List.drop_left' (by rw [List.length_take, length]; rfl)]
    have other : word ≠ head := by
      intro same
      have last := congrArg List.getLast? same
      rw [List.getLast?_concat] at last
      exact absurd last (by decide)
    have skip := @processRecv_skip pl P (some dispatch) { r with dataStreamReceive := stream, tempBuffer := temp } idle
      (Nat.le_of_eq eight.symm) (by rw [front]; exact magic)
    have skipped := @reach_call pl P dispatch { r with dataStreamReceive := stream, tempBuffer := temp }
    rw [skip] at skipped
    obtain ⟨u, reached, drained⟩ := @drain_word P
      { r with preRecivesTotalLen := 0, dataStreamReceive := stream.drop 4, tempBuffer := temp } pl dispatch
      (Int.le_refl 0)
      (by rw [back]; exact four) (by rw [back]; exact other)
    exact ⟨u, (fed.trans skipped).trans reached, drained⟩

/-- A pending payload is completed with padding, which goes with it up to a short rest. -/
theorem drain_pending (pl : Platform) {dispatch : Dispatch P} (quiet : Quiet dispatch) (free : Unwedged r)
    (pending : 0 < r.preRecivesTotalLen)
    (waiting : r.dataStreamReceive.length < 8 ∨
      r.dataStreamReceive.length < pl.minusInt (toUInt32 r.preRecivesTotalLen)) :
    ∃ u, (routeMachine pl P).ReachableBy (Uses dispatch) r u ∧ u.dataStreamReceive = [] ∧ u.preRecivesTotalLen ≤ 0 := by
  have int := free.int
  have large : 4 ≤ r.preRecivesTotalLen := Int.not_lt.mp fun small => free.pending ⟨pending, small⟩
  obtain ⟨totalLen, total⟩ := Int.eq_ofNat_of_zero_le (Int.le_of_lt pending)
  have word := toUInt32_pending total (by omega)
  have need : pl.minusInt totalLen = totalLen - 4 := Platform.minusInt_of_le (by omega) (by omega)
  rw [word, need] at waiting
  let pad : Bytes := List.replicate (max 8 (totalLen - 4) - r.dataStreamReceive.length) 0xFF
  have length : r.dataStreamReceive.length + pad.length = max 8 (totalLen - 4) := by
    rw [List.length_replicate]
    omega
  obtain ⟨temp, fed⟩ := @reach_receive pl P dispatch r pad (by omega)
  let next : Route := { r with dataStreamReceive := r.dataStreamReceive ++ pad, tempBuffer := temp }
  have size : next.dataStreamReceive.length = max 8 (totalLen - 4) := by rw [List.length_append, length]
  have taken : processRecv pl P (some dispatch) next = processPayload pl P (some dispatch) next totalLen := by
    rw [← word]
    exact processRecv_arrived (by rw [size]; omega) pending (by
      rw [word, need, size]
      omega)
  have outline := @processPayload_outline pl P dispatch next totalLen
  -- A payload of eight bytes or more goes as one block; of a shorter one something goes.
  have rest : (processPayload pl P (some dispatch) next totalLen).route.dataStreamReceive.length < 8 := by
    by_cases small : totalLen - 4 < 8
    · have shorter := outline.shrinks.2 (by rw [size]; omega)
      omega
    · have less := outline.suffix.length_le
      rw [List.length_drop, size, blockSize_payload (by omega) (by omega)] at less
      omega
  obtain ⟨u, reached, drained⟩ := drain_short pl dispatch (Int.le_of_eq (outline.idle quiet)) rest
  rw [← taken] at reached
  exact ⟨u, (fed.trans (reach_call next)).trans reached, drained⟩

theorem Unwedged.drains (pl : Platform) {dispatch : Dispatch P} (free : Unwedged r)
    (meets : ∀ n, (routeMachine pl P).Meets CallsUnwedged r (List.replicate n (.processRecv dispatch))) :
    ∃ u, (routeMachine pl P).ReachableBy (Uses dispatch) r u ∧ u.dataStreamReceive = [] ∧ u.preRecivesTotalLen ≤ 0 := by
  induction size : r.dataStreamReceive.length using Nat.strong_induction_on generalizing r with
  | _ size ih =>
    have first := (meets 1).1
    have quiet := first.1
    rcases @processRecv_waits_or_shrinks pl P dispatch r with ⟨waiting, -⟩ | shorter
    · by_cases idle : r.preRecivesTotalLen ≤ 0
      · exact drain_short pl dispatch idle (waiting.elim id fun pending => absurd pending.1 (by omega))
      · exact drain_pending pl quiet free (Int.not_le.mp idle) (waiting.imp_right And.right)
    · obtain ⟨u, reached, drained⟩ := ih _ (by rw [← size]; exact shorter) (free.processRecv first)
        (fun n => (meets (n + 1)).2 _ _ rfl) rfl
      exact ⟨u, (reach_call r).trans reached, drained⟩

end Drain

theorem run_unwedged {r t : Route} {actions : List (Action P)} {events : List (Event P)} (free : Unwedged r)
    (meets : (routeMachine pl P).Meets CallsUnwedged r actions)
    (runs : (routeMachine pl P).run r actions = some (t, events)) : Unwedged t := by
  refine Machine.run_induct (fun _ _ r => Unwedged r) ?_ free meets runs
  intro hist log r a u seen free kept taken
  cases a with
  | receive chunk =>
    obtain ⟨u, room, same⟩ := Option.map_eq_some_iff.mp taken
    cases same
    obtain ⟨⟨temp, rfl⟩, -⟩ := receive_eq room
    exact ⟨free.pending, free.int⟩
  | processRecv dispatch =>
    cases taken
    exact free.processRecv kept

theorem packet_delivered (pl : Platform) {dispatch : Dispatch P} {u : Route} {p : Packet} (contained : p.Contained)
    (room : p.bytes.length < 2 ^ 31) (empty : u.dataStreamReceive = []) (idle : u.preRecivesTotalLen ≤ 0) :
    ∃ t events, (routeMachine pl P).run u [.receive p.bytes, .processRecv dispatch] = some (t, events) ∧
      dispatched events = (p.content P).toList := by
  have int := pl.int_le
  obtain ⟨next, arrives⟩ := @receive_of_room pl u p.bytes room (by rw [empty, List.length_nil]; omega)
  obtain ⟨⟨temp, rfl⟩, -⟩ := receive_eq arrives
  let waiting : Route := { u with dataStreamReceive := u.dataStreamReceive ++ p.bytes, tempBuffer := temp }
  have opens := @processRecv_packet pl P (some dispatch) waiting p [] idle
    (by simp only [waiting, List.append_nil, empty, List.nil_append])
  obtain ⟨temp', -, hands, -⟩ := @processPayload_packet pl P dispatch
    { waiting with dataStreamReceive := p.payload ++ [] } p []
    rfl contained
  refine ⟨_, _, Machine.run_cons_eq_some.mpr
    ⟨_, [], _, congrArg (Option.map _) arrives, Machine.run_single.trans rfl, rfl⟩, ?_⟩
  rw [List.nil_append, opens]
  dsimp only
  rw [dispatched_readRaw, hands]

theorem frame_delivered (pl : Platform) {dispatch : Dispatch P} {u : Route} {m : P.Message} (formed : WellFormed P m)
    (empty : u.dataStreamReceive = []) (idle : u.preRecivesTotalLen ≤ 0) :
    ∃ t events, (routeMachine pl P).run u [.receive (frame P m), .processRecv dispatch] = some (t, events) ∧
      dispatched events = [(P.getTypeName m, m)] := by
  have room : (packetOf m formed.small.fits).bytes.length < 2 ^ 31 := by
    have header := formed.small.1
    have body := formed.small.2
    unfold tempBufferSize at header body
    rw [Packet.length_bytes, length_packetOf]
    omega
  obtain ⟨t, events, runs, hands⟩ := @packet_delivered P pl dispatch u _ packetOf_contained room empty idle
  rw [packetOf_bytes] at runs
  rw [packetOf_content formed.known, if_pos formed.small] at hands
  exact ⟨t, events, runs, hands⟩

theorem meets_short {dispatch : Dispatch P} {r : Route} (quiet : Quiet dispatch)
    (short : r.dataStreamReceive.length < 8) (n : Nat) :
    (routeMachine pl P).Meets CallsUnwedged r (List.replicate n (.processRecv dispatch)) := by
  have front : ¬ Wedging r.dataStreamReceive := by
    rintro ⟨totalLen, -, -, held⟩
    have eight := held.length_le
    rw [List.length_append, length_le32] at eight
    exact absurd eight (Nat.not_le.mpr short)
  induction n with
  | zero => trivial
  | succ n ih =>
    refine ⟨⟨quiet, fun _ => front⟩, fun u seen taken => ?_⟩
    simp only [routeMachine, processRecv_short short] at taken
    cases taken
    exact ih

/-- As long as no call stands on a wedging prefix, those that use up the buffer included, every state has a way out:
there are bytes and calls that drain it, and a well-formed frame that comes after them is handed over. -/
theorem unwedged_way_out {r t : Route} {actions : List (Action P)} {events : List (Event P)} {m : P.Message}
    {dispatch : Dispatch P} (idle : r.preRecivesTotalLen = 0)
    (meets : ∀ n, (routeMachine pl P).Meets CallsUnwedged r (actions ++ List.replicate n (.processRecv dispatch)))
    (runs : (routeMachine pl P).run r actions = some (t, events)) (formed : WellFormed P m) :
    ∃ u, (routeMachine pl P).ReachableBy (Uses dispatch) t u ∧ u.dataStreamReceive = [] ∧
      ∃ t' events', (routeMachine pl P).run u [.receive (frame P m), .processRecv dispatch] = some (t', events') ∧
        dispatched events' = [(P.getTypeName m, m)] := by
  have split := fun n => Machine.meets_append (meets n) runs
  have free := run_unwedged (.of_idle (Int.le_of_eq idle)) (split 0).1 runs
  obtain ⟨u, reached, drained, idle⟩ := free.drains pl fun n => (split n).2
  exact ⟨u, reached, drained, frame_delivered pl formed drained idle⟩

/-- The text of the first message spells a wedging prefix, which no call stands on. -/
theorem unwedged_way_out_pending :
    let harmless : Pool.baseCmd.Message := Message.rspMove (head ++ le32 1)
    let actions : List (Action .baseCmd) :=
      [.receive (frame .baseCmd harmless ++ (head ++ le32 100)), .processRecv silent, .processRecv silent]
    ∃ t events, (routeMachine .x64 .baseCmd).run (Route.new 0 [] []) actions = some (t, events) ∧
      t.preRecivesTotalLen = 100 ∧
      ∃ u, (routeMachine .x64 .baseCmd).ReachableBy (Uses silent) t u ∧ u.dataStreamReceive = [] ∧
        ∃ t' events', (routeMachine .x64 .baseCmd).run u
            [.receive (frame .baseCmd (Message.reqMove ⟨1, 2⟩)), .processRecv silent] = some (t', events') ∧
          dispatched events' = [(ascii "BaseCmd.reqMove", Message.reqMove ⟨1, 2⟩)] := by
  intro harmless actions
  have evaluates : ((routeMachine .x64 .baseCmd).run (Route.new 0 [] []) actions).any
      (fun (t, _) => t.preRecivesTotalLen = 100 ∧ t.dataStreamReceive.length < 8) = true := by
    decide +kernel
  obtain ⟨t, events, runs, state⟩ := Machine.exists_run evaluates
  obtain ⟨pending, short⟩ := of_decide_eq_true state
  have front : (routeMachine .x64 .baseCmd).Meets CallsUnwedged (Route.new 0 [] []) actions := by
    have fronts : (routeMachine .x64 .baseCmd).Meets
        (fun r _ => r.preRecivesTotalLen ≤ 0 → ¬ Wedging r.dataStreamReceive) (Route.new 0 [] []) actions :=
      Machine.meets_of_checks (fun _ _ passes => of_decide_eq_true passes) (by decide +kernel)
    exact ⟨trivial, fun _ _ arrives => ⟨⟨silent_quiet, (fronts.2 _ _ arrives).1⟩, fun _ _ called =>
      ⟨⟨silent_quiet, ((fronts.2 _ _ arrives).2 _ _ called).1⟩, fun _ _ _ => trivial⟩⟩⟩
  have meets : ∀ n, (routeMachine .x64 .baseCmd).Meets CallsUnwedged (Route.new 0 [] [])
      (actions ++ List.replicate n (.processRecv silent)) := by
    intro n
    refine Machine.meets_append_of front fun u seen again => ?_
    cases runs.symm.trans again
    exact meets_short silent_quiet short n
  have formed : WellFormed .baseCmd (Message.reqMove ⟨1, 2⟩) := wellFormed_baseCmd (by decide) (by decide +kernel)
  exact ⟨t, events, runs, pending, unwedged_way_out rfl meets runs formed⟩

/-! ### The wedge -/

theorem processRecv_wedged {dispatcher : Option (Dispatch P)} {r : Route} (positive : 0 < r.preRecivesTotalLen)
    (small : r.preRecivesTotalLen < 4) (bound : r.dataStreamReceive.length ≤ pl.maxSize) :
    processRecv pl P dispatcher r = ⟨r, false, []⟩ := by
  have word : 0 < toUInt32 r.preRecivesTotalLen ∧ toUInt32 r.preRecivesTotalLen < 4 := by
    have same := toUInt32_of_nonneg (Int.le_of_lt positive) (by omega)
    omega
  have waits : r.dataStreamReceive.length < pl.minusInt (toUInt32 r.preRecivesTotalLen) :=
    Nat.lt_of_le_of_lt bound (Platform.maxSize_lt_minusInt word.1 word.2)
  rw [processRecv_eq]
  simp only [positive, waits, if_true, ite_self]

/-- Whatever comes later, a route that waits for such a length does nothing any more. -/
theorem wedged_forever {r u : Route} {more : List (Action P)} {seen : List (Event P)}
    (positive : 0 < r.preRecivesTotalLen)
    (small : r.preRecivesTotalLen < 4) (bound : r.dataStreamReceive.length ≤ pl.maxSize)
    (runs : (routeMachine pl P).run r more = some (u, seen)) : seen = [] := by
  have always : (routeMachine pl P).Meets (fun _ _ => True) r more := Machine.meets_of_forall fun _ _ _ => trivial
  refine (Machine.run_induct (fun _ log r => 0 < r.preRecivesTotalLen ∧ r.preRecivesTotalLen < 4 ∧
    r.dataStreamReceive.length ≤ pl.maxSize ∧ log = []) ?_ ⟨positive, small, bound, rfl⟩ always runs).2.2.2
  rintro hist log r a u seen ⟨positive, small, bound, rfl⟩ - taken
  cases a with
  | receive chunk =>
    obtain ⟨u, room, same⟩ := Option.map_eq_some_iff.mp taken
    cases same
    obtain ⟨⟨temp, rfl⟩, -, fits⟩ := receive_eq room
    exact ⟨positive, small, by rw [List.length_append]; exact fits, rfl⟩
  | processRecv dispatch =>
    simp only [routeMachine, processRecv_wedged positive small bound] at taken
    cases taken
    exact ⟨positive, small, bound, rfl⟩

/-- Eight bytes with a total length of one wedge the route for good. -/
theorem total_of_one_wedges :
    ∃ t events, (routeMachine .x64 .baseCmd).run (Route.new 0 [] [])
        [.receive (head ++ le32 1), .processRecv silent] = some (t, events) ∧
      ∀ more u seen, (routeMachine .x64 .baseCmd).run t more = some (u, seen) → dispatched seen = [] := by
  have evaluates : ((routeMachine .x64 .baseCmd).run (Route.new 0 [] [])
      [.receive (head ++ le32 1), .processRecv silent]).any
      (fun (t, _) => t.preRecivesTotalLen = 1 ∧ t.dataStreamReceive.length = 0) = true := by
    decide +kernel
  obtain ⟨t, events, runs, state⟩ := Machine.exists_run evaluates
  obtain ⟨one, none⟩ := of_decide_eq_true state
  refine ⟨t, events, runs, fun more u seen later => ?_⟩
  rw [wedged_forever (by omega) (by omega) (by rw [none]; exact Nat.zero_le _) later]
  rfl

end MiniProtobuf
