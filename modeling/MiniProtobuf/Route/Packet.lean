import MiniProtobuf.Route.Recv

/-!
# Delimited packets

A packet is the magic, a total length and a payload of exactly that length. It is contained when
the inner head length stays inside the payload or is refused at once: then `ProcessRecv` takes the
packet off the buffer and nothing more (`processPayload_packet`). `Aligned` says that the buffer
with the bytes still to come is a sequence of packets, the first of which may have lost its prefix
to the pending length; it is preserved by every call that does not lose the pending length to an
exception (`processRecv_aligned`).
-/

namespace MiniProtobuf
open Wire BaseCmd CodedInputStream

variable {pl : Platform} {P : Pool}

/-- The payload of a delimited packet, with room for the inner head length. -/
structure Packet where
  payload : Bytes
  four_le : 4 ≤ payload.length
  int_lt : payload.length + 4 < 2 ^ 31

namespace Packet

/-- The total length counts itself and the payload. -/
def total (p : Packet) : Nat := p.payload.length + 4

def bytes (p : Packet) : Bytes := head ++ (le32 p.total ++ p.payload)

def headLen (p : Packet) : Nat := ofLe (p.payload.take 4)

/-- The inner head length stays inside the payload, or is refused before it is used. -/
def Contained (p : Packet) : Prop := tempBufferSize < p.headLen ∨ p.headLen + 4 ≤ p.payload.length

/-- The header and body slices of a packet that is not refused. -/
def slices (p : Packet) : Option (Bytes × Bytes) :=
  if p.headLen ≤ tempBufferSize ∧ p.headLen + 4 ≤ p.payload.length ∧
      p.payload.length - 4 - p.headLen ≤ tempBufferSize then
    some ((p.payload.drop 4).take p.headLen, (p.payload.drop 4).drop p.headLen)
  else none

end Packet

theorem Packet.payload_of_slices {p : Packet} {header body : Bytes} (slices : p.slices = some (header, body)) :
    p.payload = le32 header.length ++ (header ++ body) ∧
      header.length ≤ tempBufferSize ∧ body.length ≤ tempBufferSize := by
  have four := p.four_le
  unfold Packet.slices at slices
  split at slices
  · rename_i bounds
    obtain ⟨small, inside, fits⟩ := bounds
    cases slices
    have length : ((p.payload.drop 4).take p.headLen).length = p.headLen := by
      rw [List.length_take, List.length_drop]
      omega
    have lead : le32 p.headLen = p.payload.take 4 := le32_ofLe (by rw [List.length_take]; omega)
    refine ⟨?_, by omega, by rw [List.length_drop, List.length_drop]; omega⟩
    rw [length, lead, List.take_append_drop, List.take_append_drop]
  · cases slices

/-- The message that `ProcessRecv` makes of two slices, when their type is known. -/
def decode (P : Pool) (typeName body : Bytes) : Option (Bytes × P.Message) :=
  (P.createMessage typeName).map fun prototype => (typeName, (P.parseFromArray prototype body).1)

/-- What a packet hands to `Dispatch`, if anything. -/
def Packet.content (P : Pool) (p : Packet) : Option (Bytes × P.Message) :=
  p.slices.bind fun (header, body) => decode P (CmdType.parseFromArray header).1.type body

def handledOf (dispatch : Dispatch P) : Option (Bytes × P.Message) → Handled P
  | none => ⟨[], false⟩
  | some (typeName, msg) => dispatch typeName msg

theorem Quiet.handledOf {dispatch : Dispatch P} (quiet : Quiet dispatch) (content : Option (Bytes × P.Message)) :
    (handledOf dispatch content).throws = false := by
  cases content with
  | none => rfl
  | some c => exact quiet c.1 c.2

/-! ### One packet -/

theorem foldl_send (sent : List P.Message) (r : Route) :
    sent.foldl (fun r m => (send P r m).1) r =
      { r with dataStreamSend := r.dataStreamSend ++ sent.flatMap (frame P) } := by
  induction sent generalizing r with
  | nil => simp
  | cons m sent ih =>
    rw [List.foldl_cons, ih]
    simp [send]

theorem deliver_eq (dispatch : Dispatch P) (r : Route) (typeName body : Bytes) :
    deliver P (some dispatch) r typeName body =
      let content := decode P typeName body
      let handled := handledOf dispatch content
      ⟨{ r with
          dataStreamSend := r.dataStreamSend ++ handled.sent.flatMap (frame P)
          preRecivesTotalLen := if handled.throws then r.preRecivesTotalLen else 0 }, true,
        content.toList.map fun c => .dispatch c.1 c.2⟩ := by
  unfold deliver decode
  cases P.createMessage typeName with
  | none => simp [handledOf]
  | some prototype =>
    cases threw : (dispatch typeName (P.parseFromArray prototype body).1).throws with
    | true => simp [handledOf, foldl_send, threw]
    | false => simp [handledOf, foldl_send, threw]

theorem frames_deliver (content : Option (Bytes × P.Message)) :
    frames (content.toList.map fun c => (Event.dispatch c.1 c.2 : Event P)) = [] := by
  cases content <;> rfl

theorem dispatched_deliver (content : Option (Bytes × P.Message)) :
    dispatched (content.toList.map fun c => (Event.dispatch c.1 c.2 : Event P)) = content.toList := by
  cases content <;> rfl

theorem Packet.total_lt (p : Packet) : p.total < 2 ^ 31 := p.int_lt

theorem Packet.minusInt_total (p : Packet) : pl.minusInt p.total = p.payload.length := by
  have int := p.int_lt
  rw [Platform.minusInt_of_le (by unfold Packet.total; omega) (by unfold Packet.total; omega)]
  rfl

theorem Packet.ofLe_total (p : Packet) : ofLe (le32 p.total) = p.total := by
  have int := p.int_lt
  exact ofLe_le32 (by unfold Packet.total; omega)

/-- The stream that `ProcessRecv` opens on a packet has the payload as its first block. -/
theorem Packet.opened (p : Packet) (rest : Bytes) :
    let cis := new (p.payload ++ rest) (toInt32 (pl.minusInt p.total))
    cis.buffer = p.payload ∧ cis.source = rest ∧ cis.blockSize = p.payload.length := by
  have four := p.four_le
  have int := p.int_lt
  have block : blockSizeOf (toInt32 (pl.minusInt p.total)) = p.payload.length := by
    rw [blockSize_payload (by unfold Packet.total; omega) (by unfold Packet.total; omega)]
    rfl
  exact ⟨by rw [new_buffer, block, List.take_left], by rw [new_source, block, List.drop_left],
    by rw [new_blockSize, block]⟩

theorem Packet.lead (p : Packet) (rest : Bytes) :
    headLenOf (p.payload ++ rest) = p.headLen := by
  have four := p.four_le
  rw [headLenOf, if_pos (by rw [List.length_append]; omega), List.take_append_of_le_length four]
  rfl

/-- A contained packet at the front of the buffer is taken off it exactly, and dispatched as its
own slices say. -/
theorem processPayload_packet {dispatch : Dispatch P} {r : Route} {p : Packet} {rest : Bytes}
    (stream : r.dataStreamReceive = p.payload ++ rest) (contained : p.Contained) :
    ∃ temp, (processPayload pl P (some dispatch) r p.total).route =
        { r with
          preRecivesTotalLen := if (handledOf dispatch (p.content P)).throws then r.preRecivesTotalLen else 0
          dataStreamReceive := rest
          dataStreamSend := r.dataStreamSend ++ (handledOf dispatch (p.content P)).sent.flatMap (frame P)
          tempBufferProcess := temp } ∧
      dispatched (processPayload pl P (some dispatch) r p.total).events = (p.content P).toList ∧
      frames (processPayload pl P (some dispatch) r p.total).events = p.slices.toList := by
  have four := p.four_le
  have int := p.int_lt
  obtain ⟨buffer, source, -⟩ := @Packet.opened pl p rest
  rw [processPayload_eq]
  simp only [stream, bodyLenOf, p.lead]
  generalize new (p.payload ++ rest) (toInt32 (pl.minusInt p.total)) = cis at buffer source ⊢
  have buffer4 : (cis.pull 4).buffer = p.payload.drop 4 := by
    rw [pull_buffer_of_le (by rw [buffer]; exact four), buffer]
  have source4 : (cis.pull 4).source = rest := by
    rw [pull_source_of_le (by rw [buffer]; exact four), source]
  -- The packet is its own block, so the three reads stay in it and `rest` is not touched.
  by_cases refused : tempBufferSize < p.headLen
  · have slices : p.slices = none := by
      simp only [Packet.slices, Nat.not_le.mpr refused, false_and, if_false]
    have nothing : p.content P = none := by rw [Packet.content, slices, Option.bind_none]
    simp only [refused, if_true, nothing, slices, handledOf, source4]
    exact ⟨r.tempBufferProcess, by simp, rfl, rfl⟩
  · have inside : p.headLen + 4 ≤ p.payload.length := contained.resolve_left refused
    have headFits : p.headLen ≤ (cis.pull 4).buffer.length := by rw [buffer4, List.length_drop]; omega
    have bodyLen : toInt32 ((p.total : Int) - p.headLen - 8) = ((p.payload.length - 4 - p.headLen : Nat) : Int) := by
      rw [Packet.total, toInt32_of_range (by omega) (by omega)]
      omega
    have sourceHead : ((cis.pull 4).pull p.headLen).source = rest := by rw [pull_source_of_le headFits, source4]
    simp only [refused, if_false, bodyLen, Int.toNat_natCast, sourceHead]
    by_cases large : tempBufferSize < p.payload.length - 4 - p.headLen
    · have slices : p.slices = none := by
        simp only [Packet.slices, Nat.not_le.mpr large, and_false, if_false]
      have nothing : p.content P = none := by rw [Packet.content, slices, Option.bind_none]
      have refused : ((p.payload.length - 4 - p.headLen : Nat) : Int) < 0 ∨
          (tempBufferSize : Int) < ((p.payload.length - 4 - p.headLen : Nat) : Int) := by omega
      simp only [refused, if_true, nothing, slices, handledOf, List.flatMap_nil, List.append_nil, Bool.false_eq_true,
        if_false]
      exact ⟨_, rfl, rfl, rfl⟩
    · have fits : ¬ (((p.payload.length - 4 - p.headLen : Nat) : Int) < 0 ∨
          (tempBufferSize : Int) < ((p.payload.length - 4 - p.headLen : Nat) : Int)) := by omega
      have bodyFits : p.payload.length - 4 - p.headLen ≤ ((cis.pull 4).pull p.headLen).buffer.length := by
        rw [pull_buffer_of_le headFits, buffer4, List.length_drop, List.length_drop]
      have sourceBody : (((cis.pull 4).pull p.headLen).pull (p.payload.length - 4 - p.headLen)).source = rest := by
        rw [pull_source_of_le bodyFits, sourceHead]
      have header : ((p.payload ++ rest).drop 4).take p.headLen = (p.payload.drop 4).take p.headLen := by
        rw [List.drop_append_of_le_length four, List.take_append_of_le_length (by rw [List.length_drop]; omega)]
      have body : (((p.payload ++ rest).drop 4).drop p.headLen).take (p.payload.length - 4 - p.headLen) =
          (p.payload.drop 4).drop p.headLen := by
        rw [List.drop_append_of_le_length four, List.drop_append_of_le_length (by rw [List.length_drop]; omega),
          List.take_left' (by rw [List.length_drop, List.length_drop])]
      have headerLen : ((p.payload.drop 4).take p.headLen).length = p.headLen := by
        rw [List.length_take, List.length_drop]
        omega
      have slices : p.slices = some ((p.payload.drop 4).take p.headLen, (p.payload.drop 4).drop p.headLen) :=
        if_pos ⟨by omega, inside, by omega⟩
      simp only [fits, if_false, header, body, sourceBody, take_overwrite headerLen,
        take_overwrite (show ((p.payload.drop 4).drop p.headLen).length = p.payload.length - 4 - p.headLen by
          rw [List.length_drop, List.length_drop]), deliver_eq, Packet.content, slices, Option.bind_some]
      exact ⟨_, rfl, dispatched_deliver _, congrArg (_ :: ·) (frames_deliver _)⟩

/-! ### A sequence of packets -/

def wire (ps : List Packet) : Bytes := ps.flatMap Packet.bytes

@[simp] theorem wire_nil : wire [] = [] := rfl

@[simp] theorem wire_cons (p : Packet) (ps : List Packet) : wire (p :: ps) = p.bytes ++ wire ps := List.flatMap_cons

theorem wire_append (ps qs : List Packet) : wire (ps ++ qs) = wire ps ++ wire qs := List.flatMap_append

@[simp] theorem Packet.length_bytes (p : Packet) : p.bytes.length = p.payload.length + 8 := by
  rw [Packet.bytes, List.length_append, List.length_append, length_le32, show head.length = 4 from rfl]
  omega

/-- The buffer and the bytes still ahead of it are what is left of a sequence of packets. -/
inductive Aligned (ahead : Bytes) (r : Route) : List Packet → Prop
  | idle {ps : List Packet} (none : r.preRecivesTotalLen = 0) (rest : r.dataStreamReceive ++ ahead = wire ps) :
    Aligned ahead r ps
  | pending {p : Packet} {ps : List Packet} (some : r.preRecivesTotalLen = p.total)
    (rest : r.dataStreamReceive ++ ahead = p.payload ++ wire ps) : Aligned ahead r (p :: ps)

namespace Aligned

variable {ahead : Bytes} {r t : Route} {ps : List Packet}

theorem receive {chunk : Bytes} (aligned : Aligned (chunk ++ ahead) r ps) (room : receive pl r chunk = some t) :
    Aligned ahead t ps := by
  obtain ⟨⟨temp, rfl⟩, -⟩ := receive_eq room
  cases aligned with
  | idle none rest => exact .idle none (by rw [← rest, List.append_assoc])
  | pending some rest => exact .pending some (by rw [← rest, List.append_assoc])

theorem congr (aligned : Aligned ahead r ps) (pending : t.preRecivesTotalLen = r.preRecivesTotalLen)
    (stream : t.dataStreamReceive = r.dataStreamReceive) : Aligned ahead t ps := by
  cases aligned with
  | idle none rest => exact .idle (pending.trans none) (stream ▸ rest)
  | pending some rest => exact .pending (pending.trans some) (stream ▸ rest)

/-- Packets that are sent later come after those that are left. -/
theorem extend (aligned : Aligned ahead r ps) (qs : List Packet) : Aligned (ahead ++ wire qs) r (ps ++ qs) := by
  cases aligned with
  | idle none rest => exact .idle none (by rw [← List.append_assoc, rest, wire_append])
  | @pending p ps some rest =>
    have behind : wire (ps ++ qs) = wire ps ++ wire qs := wire_append ps qs
    exact .pending some (by rw [← List.append_assoc, rest, List.append_assoc, ← behind]; rfl)

/-- A route is not aligned with the same packets before and after one is taken. -/
theorem not_tail {p : Packet} (aligned : Aligned ahead r (p :: ps)) : ¬ Aligned ahead r ps := by
  intro after
  cases aligned with
  | idle none rest =>
    have lengths := congrArg List.length rest
    cases after with
    | idle _ rest' =>
      rw [rest', wire_cons, List.length_append, Packet.length_bytes] at lengths
      omega
    | pending some _ =>
      rw [none, Packet.total] at some
      omega
  | pending some rest =>
    have lengths := congrArg List.length rest
    cases after with
    | idle none _ =>
      rw [none, Packet.total] at some
      omega
    | pending _ rest' =>
      rw [rest', wire_cons, List.length_append, List.length_append, List.length_append, Packet.length_bytes] at lengths
      omega

theorem drained (aligned : Aligned [] r []) : r.preRecivesTotalLen = 0 ∧ r.dataStreamReceive = [] := by
  cases aligned with
  | idle none rest => exact ⟨none, by simpa using rest⟩

end Aligned

/-- A call that leaves the sequence as it is: it waits for bytes that have not come, at most taking
the prefix of the first packet off the buffer. -/
structure Waits (ahead : Bytes) (r : Route) (ps : List Packet) (result : Recv P) : Prop where
  aligned : Aligned ahead result.route ps
  silent : dispatched result.events = []
  unsent : result.route.dataStreamSend = r.dataStreamSend
  short : ∀ p rest, ps = p :: rest → ahead.length ≤ (wire rest).length → r.dataStreamReceive.length < 8

/-- A call that takes the first packet off the sequence and hands its content to the handler. -/
structure Takes (dispatch : Dispatch P) (ahead : Bytes) (r : Route) (p : Packet) (rest : List Packet)
    (result : Recv P) : Prop where
  aligned : Aligned ahead result.route rest
  hands : dispatched result.events = (p.content P).toList
  replies : result.route.dataStreamSend =
    r.dataStreamSend ++ (handledOf dispatch (p.content P)).sent.flatMap (frame P)

theorem split_front {stream ahead front rest : Bytes} (whole : stream ++ ahead = front ++ rest)
    (arrived : front.length ≤ stream.length) : ∃ behind, stream = front ++ behind ∧ rest = behind ++ ahead := by
  obtain ⟨behind, rfl⟩ := List.prefix_of_prefix_length_le ⟨rest, whole.symm⟩ ⟨ahead, rfl⟩ arrived
  rw [List.append_assoc] at whole
  exact ⟨behind, rfl, (List.append_cancel_left whole).symm⟩

theorem takes_payload {dispatch : Dispatch P} {ahead : Bytes} {r : Route} {p : Packet} {rest : List Packet}
    (stream : r.dataStreamReceive ++ ahead = p.payload ++ wire rest)
    (arrived : p.payload.length ≤ r.dataStreamReceive.length) (contained : p.Contained)
    (kept : r.preRecivesTotalLen = 0 ∨ (handledOf dispatch (p.content P)).throws = false) :
    Takes dispatch ahead r p rest (processPayload pl P (some dispatch) r p.total) := by
  obtain ⟨behind, front, back⟩ := split_front stream arrived
  obtain ⟨temp, route, hands, -⟩ := @processPayload_packet pl P dispatch _ _ _ front contained
  refine ⟨.idle ?_ ?_, hands, ?_⟩
  · rw [route]
    show (if _ then _ else _) = (0 : Int)
    rcases kept with zero | returns
    · rw [zero, ite_self]
    · rw [returns]
      rfl
  · rw [route, ← back]
  · rw [route]

theorem split_prefix {stream ahead rest : Bytes} {p : Packet} (eight : 8 ≤ stream.length)
    (aligned : stream ++ ahead = p.bytes ++ rest) :
    stream.take 4 = head ∧ (stream.drop 4).take 4 = le32 p.total ∧ stream.drop 8 ++ ahead = p.payload ++ rest := by
  have four : head.length = 4 := rfl
  have word : (le32 p.total).length = 4 := length_le32 p.total
  rw [Packet.bytes, List.append_assoc, List.append_assoc] at aligned
  have behind := congrArg (List.drop 4) aligned
  rw [List.drop_append_of_le_length (by omega), List.drop_left' four] at behind
  refine ⟨?_, ?_, ?_⟩
  · have front := congrArg (List.take 4) aligned
    rwa [List.take_append_of_le_length (by omega), List.take_left' four] at front
  · have front := congrArg (List.take 4) behind
    rwa [List.take_append_of_le_length (by rw [List.length_drop]; omega), List.take_left' word] at front
  · have back := congrArg (List.drop 4) behind
    rwa [List.drop_append_of_le_length (by rw [List.length_drop]; omega), List.drop_drop, List.drop_left' word] at back

theorem processRecv_packet {dispatcher : Option (Dispatch P)} {r : Route} {p : Packet} {rest : Bytes}
    (idle : r.preRecivesTotalLen ≤ 0) (stream : r.dataStreamReceive = p.bytes ++ rest) :
    processRecv pl P dispatcher r =
      let result := processPayload pl P dispatcher { r with dataStreamReceive := p.payload ++ rest } p.total
      { result with events := .readRaw 4 :: result.events } := by
  have length : r.dataStreamReceive.length = p.payload.length + 8 + rest.length := by
    rw [stream, List.length_append, Packet.length_bytes]
  obtain ⟨magic, total, payload⟩ := split_prefix (by omega) ((List.append_nil _).trans stream)
  rw [List.append_nil] at payload
  have eight : ¬ r.dataStreamReceive.length < 8 := by omega
  have none : ¬ 0 < r.preRecivesTotalLen := by omega
  have arrived : ¬ r.dataStreamReceive.length - 8 < p.payload.length := by omega
  rw [processRecv_eq]
  simp only [eight, none, if_false, magic, ne_eq, not_true_eq_false, total, p.ofLe_total, p.minusInt_total, arrived,
    payload]

/-- Bytes that are not the magic are skipped four at a time. -/
theorem processRecv_skip {dispatcher : Option (Dispatch P)} {r : Route} (idle : r.preRecivesTotalLen ≤ 0)
    (eight : 8 ≤ r.dataStreamReceive.length) (other : r.dataStreamReceive.take 4 ≠ head) :
    processRecv pl P dispatcher r =
      ⟨{ r with preRecivesTotalLen := 0, dataStreamReceive := r.dataStreamReceive.drop 4 }, false, [.readRaw 4]⟩ := by
  have long : ¬ r.dataStreamReceive.length < 8 := by omega
  have none : ¬ 0 < r.preRecivesTotalLen := by omega
  rw [processRecv_eq]
  simp only [long, none, if_false, ne_eq, other, not_false_eq_true, if_true]

variable (pl) in
/-- One call on an aligned route. An exception is harmless unless the payload of a pending length has arrived. -/
theorem processRecv_aligned {dispatch : Dispatch P} {ahead : Bytes} {r : Route} {ps : List Packet}
    (aligned : Aligned ahead r ps) (contained : ∀ p ∈ ps, p.Contained)
    (kept : ∀ p : Packet, r.preRecivesTotalLen = p.total → p.payload <+: r.dataStreamReceive →
      (handledOf dispatch (p.content P)).throws = false) :
    Waits ahead r ps (processRecv pl P (some dispatch) r) ∨
      ∃ p rest, ps = p :: rest ∧ Takes dispatch ahead r p rest (processRecv pl P (some dispatch) r) := by
  rw [processRecv_eq]
  by_cases eight : r.dataStreamReceive.length < 8
  · simp only [eight, if_true]
    exact .inl ⟨aligned, rfl, rfl, fun _ _ _ _ => eight⟩
  simp only [eight, if_false]
  cases aligned with
  | @pending p rest some stream =>
    have bound := p.int_lt
    have total := toUInt32_pending some p.total_lt
    have positive : (0 : Int) < p.total := by unfold Packet.total; omega
    have lengths := congrArg List.length stream
    rw [List.length_append, List.length_append] at lengths
    rw [some] at total
    simp only [some, positive, if_true, total, p.minusInt_total]
    split
    · rename_i short
      refine .inl ⟨.pending some stream, rfl, rfl, ?_⟩
      intro q rest' same arrived
      cases same
      omega
    · rename_i long
      have arrived : p.payload.length ≤ r.dataStreamReceive.length := by omega
      have front := List.prefix_of_prefix_length_le ⟨_, stream.symm⟩ ⟨ahead, rfl⟩ arrived
      refine .inr ⟨p, rest, rfl, ?_⟩
      exact takes_payload stream arrived (contained p List.mem_cons_self) (.inr (kept p some front))
  | @idle ps none stream =>
    have idle : ¬ 0 < r.preRecivesTotalLen := by omega
    simp only [idle, if_false]
    cases ps with
    | nil =>
      have empty := congrArg List.length stream
      rw [List.length_append, wire_nil, List.length_nil] at empty
      omega
    | cons p rest =>
      obtain ⟨magic, length, payload⟩ := split_prefix (by omega) (stream.trans (wire_cons p rest))
      have bound := p.int_lt
      simp only [magic, ne_eq, not_true_eq_false, if_false, length, p.ofLe_total, p.minusInt_total]
      split
      · rename_i short
        have range : toInt32 p.total = p.total := toInt32_of_range (by omega) (by unfold Packet.total; omega)
        rw [range]
        refine .inl ⟨.pending rfl payload, rfl, rfl, ?_⟩
        intro q rest' same arrived
        cases same
        have lengths := congrArg List.length payload
        rw [List.length_append, List.length_append, List.length_drop] at lengths
        omega
      · rename_i long
        have takes : Takes dispatch ahead { r with dataStreamReceive := r.dataStreamReceive.drop 8 } p rest
            (processPayload pl P (some dispatch) { r with dataStreamReceive := r.dataStreamReceive.drop 8 } p.total) :=
          takes_payload payload (by rw [List.length_drop]; omega) (contained p List.mem_cons_self) (.inl none)
        exact .inr ⟨p, rest, rfl, takes.aligned, takes.hands, takes.replies⟩

end MiniProtobuf
