import MiniProtobuf.Route.Stream

/-!
# The frames of `Send`

A frame is a contained packet, and its content is the message that was sent, unless its header or
its body is larger than the temporary buffers.
-/

namespace MiniProtobuf
open Wire BaseCmd

section Frames

variable (P : Pool) (m : P.Message)

def headerOf : Bytes := (cmdTypeOf P m).serialize

/-- The total length of a frame, before it is narrowed to an `int`. -/
def totalOf : Nat := 8 + (headerOf P m).length + (P.serialize m).length

/-- Header and body fit in the buffers of a receiver. -/
def Small : Prop := (headerOf P m).length ≤ tempBufferSize ∧ (P.serialize m).length ≤ tempBufferSize

instance : Decidable (Small P m) := inferInstanceAs (Decidable (_ ∧ _))

/-- The pool knows the type of the message, and parsing undoes serialising. -/
def RoundTrips : Prop :=
  ∃ prototype, P.createMessage (P.getTypeName m) = some prototype ∧ (P.parseFromArray prototype (P.serialize m)).1 = m

/-- A message whose frame a receiver takes. -/
structure WellFormed : Prop where
  known : RoundTrips P m
  named : 2 ≤ (P.getTypeName m).length
  small : Small P m

variable {P m}

theorem roundTrips_baseCmd {m : BaseCmd.Message} (valid : m.Valid) (fits : m.serialize.length < 2 ^ 31) :
    RoundTrips .baseCmd m :=
  ⟨m.fresh, m.createMessage_getTypeName, congrArg Prod.fst (Message.parseFromArray_serialize valid fits)⟩

theorem wellFormed_baseCmd {m : BaseCmd.Message} (valid : m.Valid) (small : Small .baseCmd m) :
    WellFormed .baseCmd m where
  known := roundTrips_baseCmd valid (Nat.lt_of_le_of_lt small.2 (by decide))
  named := by cases m <;> exact Nat.le_of_ble_eq_true rfl
  small

theorem Small.fits (small : Small P m) : totalOf P m < 2 ^ 31 := by
  unfold Small tempBufferSize at small
  rw [totalOf]
  omega

def packetOf (m : P.Message) (fits : totalOf P m < 2 ^ 31) : Packet where
  payload := le32 (headerOf P m).length ++ (headerOf P m ++ P.serialize m)
  four_le := by
    rw [List.length_append, length_le32]
    omega
  int_lt := by
    rw [totalOf] at fits
    rw [List.length_append, List.length_append, length_le32]
    omega

variable {fits : totalOf P m < 2 ^ 31}

theorem length_packetOf : (packetOf m fits).payload.length = 4 + (headerOf P m).length + (P.serialize m).length := by
  rw [packetOf, List.length_append, List.length_append, length_le32]
  omega

theorem packetOf_bytes : (packetOf m fits).bytes = frame P m := by
  have bound := fits
  rw [totalOf] at bound
  have narrow {n : Nat} (small : n < 2 ^ 31) : toInt32 n = n := toInt32_of_range (by omega) (by omega)
  have widen {n : Nat} (small : n < 2 ^ 31) : toUInt32 n = n := by
    have nonneg := toUInt32_of_nonneg (Int.natCast_nonneg n) (by omega)
    exact_mod_cast nonneg
  have total : (8 : Int) + (headerOf P m).length + (P.serialize m).length = (totalOf P m : Nat) := by
    rw [totalOf]
    omega
  have payload : (packetOf m fits).total = totalOf P m := by
    rw [Packet.total, length_packetOf, totalOf]
    omega
  have header : toInt32 (cmdTypeOf P m).serialize.length = (headerOf P m).length := narrow (by rw [← headerOf]; omega)
  have body : toInt32 (P.serialize m).length = (P.serialize m).length := narrow (by omega)
  rw [Packet.bytes, payload, frame]
  simp only [header, body, total, narrow fits, widen fits, widen (show (headerOf P m).length < 2 ^ 31 by omega)]
  rw [toCodedStream, if_pos (by rw [← headerOf]; omega), toCodedStream, if_pos (by omega)]
  rfl

theorem packetOf_headLen : (packetOf m fits).headLen = (headerOf P m).length := by
  have bound := fits
  rw [totalOf] at bound
  rw [Packet.headLen, packetOf, List.take_left' (length_le32 _), ofLe_le32 (by omega)]

theorem packetOf_contained : (packetOf m fits).Contained := by
  refine .inr ?_
  rw [packetOf_headLen, length_packetOf]
  omega

theorem length_headerOf : (P.getTypeName m).length ≤ (headerOf P m).length := by
  have name := length_stringField 10 (P.getTypeName m)
  simp only [headerOf, CmdType.serialize, cmdTypeOf, List.length_append]
  omega

/-- With two bytes in the type name, a frame passes the test of eight bytes on its own. -/
theorem eight_le_packetOf (named : 2 ≤ (P.getTypeName m).length) : 8 ≤ (packetOf m fits).payload.length := by
  have present : P.getTypeName m ≠ [] := fun empty => by simp [empty] at named
  have name := length_stringField_of_ne 10 present
  have prefixed := length_writeVarint_pos (P.getTypeName m).length
  rw [length_packetOf]
  simp only [headerOf, CmdType.serialize, cmdTypeOf, List.length_append]
  omega

theorem packetOf_decode :
    (packetOf m fits).content P = if Small P m then decode P (P.getTypeName m) (P.serialize m) else none := by
  have bound := fits
  rw [totalOf] at bound
  have small : ((packetOf m fits).headLen ≤ tempBufferSize ∧
    (packetOf m fits).headLen + 4 ≤ (packetOf m fits).payload.length ∧
      (packetOf m fits).payload.length - 4 - (packetOf m fits).headLen ≤ tempBufferSize) ↔ Small P m := by
    rw [packetOf_headLen, length_packetOf, Small]
    omega
  have behind : (packetOf m fits).payload.drop 4 = headerOf P m ++ P.serialize m := by
    rw [packetOf, List.drop_left' (length_le32 _)]
  have size : IsInt32 (cmdTypeOf P m).size := by
    simp only [cmdTypeOf]
    exact toInt32_bounds _
  have typeName : (CmdType.parseFromArray (headerOf P m)).1.type = P.getTypeName m :=
    CmdType.parseFromArray_type (Nat.lt_of_le_of_lt length_headerOf (by omega)) size ⟨rfl, rfl⟩
  rw [Packet.content, Packet.slices]
  by_cases fitting : Small P m
  · rw [if_pos (small.mpr fitting), if_pos fitting, Option.bind_some, behind, packetOf_headLen, List.take_left,
      List.drop_left]
    simp only [typeName]
  · rw [if_neg fun inside => fitting (small.mp inside), if_neg fitting, Option.bind_none]

theorem RoundTrips.decode (trips : RoundTrips P m) :
    decode P (P.getTypeName m) (P.serialize m) = some (P.getTypeName m, m) := by
  obtain ⟨prototype, found, parsed⟩ := trips
  rw [MiniProtobuf.decode, found, Option.map_some, parsed]

theorem packetOf_content (trips : RoundTrips P m) :
    (packetOf m fits).content P = if Small P m then some (P.getTypeName m, m) else none := by
  rw [packetOf_decode, trips.decode]

end Frames

section Runs

variable {pl : Platform} {P : Pool}

/-- The messages that fit in a receiver's buffers, as it hands them to `Dispatch`. -/
def accepted (P : Pool) (messages : List P.Message) : List (Bytes × P.Message) :=
  (messages.filter fun m => Small P m).map fun m => (P.getTypeName m, m)

/-- What a receiver makes of the frames of these messages, whether or not parsing gives the messages back. -/
def decoded (P : Pool) (messages : List P.Message) : List (Bytes × P.Message) :=
  (messages.filter fun m => Small P m).filterMap fun m => decode P (P.getTypeName m) (P.serialize m)

def packetsOf (messages : List P.Message) (fits : ∀ m ∈ messages, totalOf P m < 2 ^ 31) : List Packet :=
  messages.pmap packetOf fits

variable {messages : List P.Message} {fits : ∀ m ∈ messages, totalOf P m < 2 ^ 31}

theorem length_packetsOf : (packetsOf messages fits).length = messages.length := List.length_pmap

theorem wire_packetsOf : wire (packetsOf messages fits) = messages.flatMap (frame P) := by
  induction messages with
  | nil => rfl
  | cons m messages ih =>
    rw [packetsOf, List.pmap_cons, wire_cons, packetOf_bytes, List.flatMap_cons]
    exact congrArg _ ih

theorem packetsOf_take (k : Nat) :
    packetsOf messages fits =
      packetsOf (messages.take k) (fun m present => fits m (List.mem_of_mem_take present)) ++
        packetsOf (messages.drop k) fun m present => fits m (List.mem_of_mem_drop present) := by
  induction messages generalizing k with
  | nil => simp [packetsOf]
  | cons m messages ih =>
    cases k with
    | zero => simp [packetsOf]
    | succ k => exact congrArg (packetOf m _ :: ·) (ih k)

theorem mem_packetsOf {p : Packet} (member : p ∈ packetsOf messages fits) :
    ∃ m, ∃ present : m ∈ messages, p = packetOf m (fits m present) := by
  obtain ⟨m, present, rfl⟩ := List.mem_pmap.mp member
  exact ⟨m, present, rfl⟩

theorem packetsOf_contained {p : Packet} (member : p ∈ packetsOf messages fits) : p.Contained := by
  obtain ⟨m, present, rfl⟩ := mem_packetsOf member
  exact packetOf_contained

theorem packetsOf_content : (packetsOf messages fits).filterMap (Packet.content P) = decoded P messages := by
  induction messages with
  | nil => rfl
  | cons m messages ih =>
    have rest := @ih fun m present => fits m (List.mem_cons_of_mem _ present)
    rw [packetsOf] at rest
    rw [packetsOf, List.pmap_cons, List.filterMap_cons, packetOf_decode, rest]
    by_cases small : Small P m <;> simp [decoded, small, List.filterMap_cons]

theorem decoded_of_roundTrips {messages : List P.Message} (known : ∀ m ∈ messages, RoundTrips P m) :
    decoded P messages = accepted P messages := by
  have same : ∀ m ∈ messages.filter fun m => Small P m,
      decode P (P.getTypeName m) (P.serialize m) = some (P.getTypeName m, m) :=
    fun m member => (known m (List.mem_of_mem_filter member)).decode
  rw [decoded, accepted, List.filterMap_congr same]
  exact congrFun (List.filterMap_eq_map (f := fun m => (P.getTypeName m, m))) _

def titled (P : Pool) (messages : List P.Message) : List (Bytes × P.Message) :=
  messages.map fun m => (P.getTypeName m, m)

theorem decoded_of_wellFormed {messages : List P.Message} (formed : ∀ m ∈ messages, WellFormed P m) :
    decoded P messages = titled P messages := by
  have small : ∀ m ∈ messages, decide (Small P m) = true := fun m present => decide_eq_true (formed m present).small
  rw [decoded_of_roundTrips fun m present => (formed m present).known, accepted, List.filter_eq_self.mpr small, titled]

/-- What a run over the frames of some messages hands to `Dispatch`. -/
structure HandsOver (messages : List P.Message) (actions : List (Action P)) (t : Route) (events : List (Event P)) :
    Prop where
  prefixed : dispatched events <+: decoded P messages
  whole : ∀ (before : List (Action P)) (calls : List (Dispatch P)), actions = before ++ calls.map .processRecv →
    received before = messages.flatMap (frame P) → messages.length ≤ calls.length →
    dispatched events = decoded P messages ∧ t.dataStreamReceive = [] ∧ t.preRecivesTotalLen = 0

theorem run_frames {r t : Route} {actions : List (Action P)} {events : List (Event P)}
    (named : ∀ m ∈ messages, 2 ≤ (P.getTypeName m).length) (fits : ∀ m ∈ messages, totalOf P m < 2 ^ 31)
    (idle : r.preRecivesTotalLen = 0) (empty : r.dataStreamReceive = [])
    (meets : (routeMachine pl P).Meets ThrowsIdle r actions) (split : received actions <+: messages.flatMap (frame P))
    (runs : (routeMachine pl P).run r actions = some (t, events)) : HandsOver messages actions t events := by
  have contents := @packetsOf_content P messages fits
  have stream := @wire_packetsOf P messages fits
  constructor
  · obtain ⟨ahead, parts⟩ := split
    obtain ⟨todo, tracks⟩ := run_tracks (fun p => packetsOf_contained) idle empty meets runs ahead
      (parts.trans stream.symm)
    obtain ⟨done, parts, hands⟩ := tracks.handed
    exact ⟨todo.filterMap (Packet.content P), by rw [hands, ← contents, parts, List.filterMap_append]⟩
  · rintro before calls rfl everything enough
    obtain ⟨todo, tracks, exhausted⟩ := run_exhausts (fun p => packetsOf_contained) idle empty meets runs
      (everything.trans stream.symm) (by rw [length_packetsOf]; exact enough)
    obtain ⟨done, parts, hands⟩ := tracks.handed
    have nothing : todo = [] := by
      rcases exhausted with nothing | ⟨p, rfl, short⟩
      · exact nothing
      · obtain ⟨m, present, rfl⟩ := mem_packetsOf (tracks.mem List.mem_cons_self)
        have long := @eight_le_packetOf P m (fits m present) (named m present)
        omega
    subst nothing
    rw [List.append_nil] at parts
    exact ⟨by rw [hands, ← parts, contents], tracks.aligned.drained.2, tracks.aligned.drained.1⟩

/-- The frames of messages that parsing gives back, however they are cut up, are taken off the buffer one by one and
handed over in order; those too large for the temporary buffers are skipped whole. -/
theorem framing_exact {messages : List P.Message} {sender r t : Route} {stream : Bytes} {actions : List (Action P)}
    {events : List (Event P)} (known : ∀ m ∈ messages, RoundTrips P m)
    (named : ∀ m ∈ messages, 2 ≤ (P.getTypeName m).length) (fits : ∀ m ∈ messages, totalOf P m < 2 ^ 31)
    (sent : (messages.foldl (fun r m => (send P r m).1) sender).dataStreamSend = sender.dataStreamSend ++ stream)
    (idle : r.preRecivesTotalLen = 0) (empty : r.dataStreamReceive = []) (quiet : QuietRun actions)
    (split : received actions <+: stream) (runs : (routeMachine pl P).run r actions = some (t, events)) :
    dispatched events <+: accepted P messages ∧
      ∀ (before : List (Action P)) (calls : List (Dispatch P)), actions = before ++ calls.map .processRecv →
        received before = stream → messages.length ≤ calls.length →
        dispatched events = accepted P messages ∧ t.dataStreamReceive = [] ∧ t.preRecivesTotalLen = 0 := by
  have frames : messages.flatMap (frame P) = stream := by
    rw [foldl_send] at sent
    exact List.append_cancel_left sent
  subst frames
  have hands := run_frames named fits idle empty (quiet.throwsIdle r) split runs
  rw [← decoded_of_roundTrips known]
  exact ⟨hands.prefixed, hands.whole⟩

theorem framing_exact_two_moves :
    let messages : List Pool.baseCmd.Message := [Message.reqMove ⟨1, 2⟩, Message.rspMove (ascii "ok")]
    let stream := messages.flatMap (frame .baseCmd)
    let before : List (Action .baseCmd) := [.receive (stream.take 14), .processRecv silent, .receive (stream.drop 14)]
    let calls : List (Dispatch .baseCmd) := [silent, silent]
    ∃ t events,
      (routeMachine .x64 .baseCmd).run (Route.new 0 [] []) (before ++ calls.map .processRecv) = some (t, events) ∧
      dispatched events = accepted .baseCmd messages ∧ t.dataStreamReceive = [] ∧ t.preRecivesTotalLen = 0 := by
  intro messages stream before calls
  have evaluates : ((routeMachine .x64 .baseCmd).run (Route.new 0 [] []) (before ++ calls.map .processRecv)).any
      (fun _ => true) = true := by
    decide +kernel
  obtain ⟨t, events, runs, -⟩ := Machine.exists_run evaluates
  have valid : ∀ m ∈ messages, Message.Valid m ∧ (Message.serialize m).length < 2 ^ 31 := by decide +kernel
  have quiet : QuietRun (before ++ calls.map .processRecv) := by
    intro dispatch member
    obtain rfl : dispatch = silent := by simpa [before, calls] using member
    exact silent_quiet
  have all := @framing_exact .x64 .baseCmd messages (Route.new 0 [] []) (Route.new 0 [] []) t stream _ events
    (fun m present => roundTrips_baseCmd (valid m present).1 (valid m present).2) (by decide +kernel)
    (by decide +kernel)
    (by decide +kernel) rfl rfl quiet (by decide +kernel) runs
  exact ⟨t, events, runs, all.2 before calls rfl (by decide +kernel) (Nat.le_refl _)⟩

/-- A name that is not UTF-8 ends the parse before `succ` is read, and `ProcessRecv` dispatches what there is. -/
theorem framing_alters_invalid_name :
    let m : Pool.baseCmd.Message := Message.rspSignin ⟨[0xFF], true⟩
    let stream := (send .baseCmd (Route.new 0 [] []) m).1.dataStreamSend
    (Pool.baseCmd.createMessage (Pool.baseCmd.getTypeName m)).isSome ∧ 2 ≤ (Pool.baseCmd.getTypeName m).length ∧
      Small .baseCmd m ∧
      ∃ t events, (routeMachine .x64 .baseCmd).run (Route.new 0 [] []) [.receive stream, .processRecv silent] =
          some (t, events) ∧
        dispatched events = [(ascii "BaseCmd.rspSignin", Message.rspSignin ⟨[0xFF], false⟩)] ∧
        ¬ dispatched events <+: accepted .baseCmd [m] := by
  intro m stream
  have evaluates : ((routeMachine .x64 .baseCmd).run (Route.new 0 [] []) [.receive stream, .processRecv silent]).any
      (fun (_, events) =>
        dispatched events = [(ascii "BaseCmd.rspSignin", Message.rspSignin ⟨[0xFF], false⟩)]) = true := by
    decide +kernel
  obtain ⟨t, events, runs, seen⟩ := Machine.exists_run evaluates
  have altered := of_decide_eq_true seen
  refine ⟨by decide +kernel, by decide +kernel, by decide +kernel, t, events, runs, altered, ?_⟩
  rw [altered]
  decide +kernel

end Runs

end MiniProtobuf
