import MiniProtobuf.Route.Stream

/-!
# Arbitrary bytes

On any input the slices that reach `createMessage` are those of a frame that the stream does hold
at some place, and the places of successive frames do not overlap. `Scanned` carries this along a
run: the bytes that are gone, the buffer, and a pending length that has its prefix right before the
buffer.
-/

namespace MiniProtobuf
open Wire BaseCmd CodedInputStream

variable {pl : Platform} {P : Pool}

def ReadsWithin (events : List (Event P)) : Prop :=
  ∀ size, Event.readRaw size ∈ events → 0 ≤ size ∧ size ≤ tempBufferSize

theorem ReadsWithin.append {events later : List (Event P)} (first : ReadsWithin events) (second : ReadsWithin later) :
    ReadsWithin (events ++ later) := by
  intro size member
  exact (List.mem_append.mp member).elim (first size) (second size)

theorem readsWithin_nil : ReadsWithin ([] : List (Event P)) := fun _ member => absurd member List.not_mem_nil

theorem ReadsWithin.cons {size : Int} {events : List (Event P)} (low : 0 ≤ size) (high : size ≤ tempBufferSize)
    (rest : ReadsWithin events) : ReadsWithin (.readRaw size :: events) := by
  intro other member
  rcases List.mem_cons.mp member with same | later
  · cases same
    exact ⟨low, high⟩
  · exact rest other later

theorem frames_append (events later : List (Event P)) : frames (events ++ later) = frames events ++ frames later :=
  List.filterMap_append

/-! ### One call -/

/-- On every path from the opening of `iis` on, at least a block is gone, nothing stays pending unless
a handler throws, and no slice is made unless both lengths are in range. -/
structure Outline (pl : Platform) (dispatch : Dispatch P) (stream : Bytes) (totalLen : Nat) (result : Recv P) :
    Prop where
  suffix : result.route.dataStreamReceive <:+ stream.drop (blockSizeOf (toInt32 (pl.minusInt totalLen)))
  idle : Quiet dispatch → result.route.preRecivesTotalLen = 0
  within : ReadsWithin result.events
  framed : frames result.events = [] ∨
    (headLenOf stream ≤ tempBufferSize ∧ 0 ≤ bodyLenOf stream totalLen ∧ bodyLenOf stream totalLen ≤ tempBufferSize)

theorem processPayload_outline (dispatch : Dispatch P) (r : Route) (totalLen : Nat) :
    Outline pl dispatch r.dataStreamReceive totalLen (processPayload pl P (some dispatch) r totalLen) := by
  rw [processPayload_eq]
  dsimp only
  have opened := new_source r.dataStreamReceive (toInt32 (pl.minusInt totalLen))
  generalize new r.dataStreamReceive (toInt32 (pl.minusInt totalLen)) = cis at opened ⊢
  have first : (cis.pull 4).source <:+ r.dataStreamReceive.drop (blockSizeOf (toInt32 (pl.minusInt totalLen))) := by
    rw [← opened]
    exact pull_source_suffix cis 4
  split
  · exact ⟨first, fun _ => rfl, readsWithin_nil, .inl rfl⟩
  · rename_i used
    have head : ReadsWithin ([.readRaw (headLenOf r.dataStreamReceive)] : List (Event P)) :=
      .cons (Int.natCast_nonneg _) (by omega) readsWithin_nil
    split
    · exact ⟨(pull_source_suffix _ _).trans first, fun _ => rfl, head, .inl rfl⟩
    · rename_i delimited
      obtain ⟨low, high⟩ := not_or.mp delimited
      rw [Int.not_lt] at low high
      rw [deliver_eq]
      refine ⟨?_, ?_, ?_, .inr ⟨Nat.le_of_not_lt used, low, high⟩⟩
      · exact ((pull_source_suffix _ _).trans (pull_source_suffix _ _)).trans first
      · intro quiet
        simp only [quiet.handledOf, Bool.false_eq_true, if_false]
      · refine .append (.cons (Int.natCast_nonneg _) (by omega) (.cons low high ?_)) ?_
        · intro size member
          cases List.mem_singleton.mp member
        · intro size member
          obtain ⟨c, -, same⟩ := List.mem_map.mp member
          cases same

/-- What is left of the buffer is a part of it, and a proper one unless it was empty. -/
theorem Outline.shrinks {dispatch : Dispatch P} {stream : Bytes} {totalLen : Nat} {result : Recv P}
    (outline : Outline pl dispatch stream totalLen result) :
    result.route.dataStreamReceive <:+ stream ∧
      (0 < stream.length → result.route.dataStreamReceive.length < stream.length) := by
  have block := blockSizeOf_pos (toInt32 (pl.minusInt totalLen))
  have less := outline.suffix.length_le
  rw [List.length_drop] at less
  exact ⟨outline.suffix.trans (List.drop_suffix _ _), fun some => by omega⟩

theorem processRecv_waits_or_shrinks (dispatch : Dispatch P) (r : Route) :
    ((r.dataStreamReceive.length < 8 ∨
        0 < r.preRecivesTotalLen ∧ r.dataStreamReceive.length < pl.minusInt (toUInt32 r.preRecivesTotalLen)) ∧
      processRecv pl P (some dispatch) r = ⟨r, false, []⟩) ∨
      (processRecv pl P (some dispatch) r).route.dataStreamReceive.length < r.dataStreamReceive.length := by
  rw [processRecv_eq]
  dsimp only
  split
  · rename_i short
    exact .inl ⟨.inl short, rfl⟩
  rename_i eight
  have shorter {n : Nat} (some : 0 < n) : (r.dataStreamReceive.drop n).length < r.dataStreamReceive.length := by
    rw [List.length_drop]
    omega
  split
  · rename_i positive
    split
    · rename_i short
      exact .inl ⟨.inr ⟨positive, short⟩, rfl⟩
    · have outline := @processPayload_outline pl P dispatch r (toUInt32 r.preRecivesTotalLen)
      exact .inr (outline.shrinks.2 (by omega))
  split
  · exact .inr (shorter (by decide))
  split
  · exact .inr (shorter (by decide))
  · have outline := @processPayload_outline pl P dispatch { r with dataStreamReceive := r.dataStreamReceive.drop 8 }
      (ofLe ((r.dataStreamReceive.drop 4).take 4))
    exact .inr (Nat.lt_of_le_of_lt outline.shrinks.1.length_le (shorter (by decide)))

theorem processRecv_length_le (dispatch : Dispatch P) (r : Route) :
    (processRecv pl P (some dispatch) r).route.dataStreamReceive.length ≤ r.dataStreamReceive.length := by
  rcases @processRecv_waits_or_shrinks pl P dispatch r with ⟨-, waits⟩ | shrinks
  · rw [waits]
  · exact Nat.le_of_lt shrinks

/-- The slices of a call are the bytes behind the two lengths, and leave the buffer with them. -/
theorem processPayload_frames {dispatch : Dispatch P} {r : Route} {totalLen : Nat} (word : totalLen < 2 ^ 32)
    (arrived : pl.minusInt totalLen ≤ r.dataStreamReceive.length) :
    let result := processPayload pl P (some dispatch) r totalLen
    frames result.events = [] ∨
      ∃ header body, frames result.events = [(header, body)] ∧
        r.dataStreamReceive = le32 header.length ++ (header ++ body) ++ result.route.dataStreamReceive ∧
        totalLen = 8 + header.length + body.length ∧ header.length ≤ tempBufferSize ∧ body.length ≤ tempBufferSize := by
  intro result
  rcases (@processPayload_outline pl P dispatch r totalLen).framed with none | ⟨headLe, nonneg, bodyLe⟩
  · exact .inl none
  have limit : tempBufferSize = 1024 := rfl
  have total : (totalLen : Int) - headLenOf r.dataStreamReceive - 8 = bodyLenOf r.dataStreamReceive totalLen :=
    (eq_of_toInt32_nonneg (by omega) (by omega) nonneg).symm
  have need : pl.minusInt totalLen = totalLen - 4 := Platform.minusInt_of_le (by omega) word
  have four : 4 ≤ r.dataStreamReceive.length := by omega
  have length : (r.dataStreamReceive.take (totalLen - 4)).length = totalLen - 4 := by
    rw [List.length_take]
    omega
  let p : Packet := ⟨r.dataStreamReceive.take (totalLen - 4), by omega, by omega⟩
  have stream : r.dataStreamReceive = p.payload ++ r.dataStreamReceive.drop (totalLen - 4) :=
    (List.take_append_drop _ _).symm
  have same : p.total = totalLen := by
    rw [Packet.total, length]
    omega
  have headLen : p.headLen = headLenOf r.dataStreamReceive := by rw [← p.lead, ← stream]
  have inside : p.headLen + 4 ≤ p.payload.length := by rw [headLen, length]; omega
  obtain ⟨temp, route, -, slices⟩ := @processPayload_packet pl P dispatch _ _ _ stream (.inr inside)
  rw [same] at route slices
  cases sliced : p.slices with
  | none => exact .inl (by rw [slices, sliced]; rfl)
  | some slice =>
    obtain ⟨payload, small, fits⟩ := Packet.payload_of_slices sliced
    refine .inr ⟨slice.1, slice.2, by rw [slices, sliced]; rfl, ?_, ?_, small, fits⟩
    · rw [← payload, route]
      exact stream
    · have lengths := congrArg List.length payload
      rw [length, List.length_append, List.length_append, length_le32] at lengths
      omega

/-! ### Runs -/

/-- Two slices with the offset of their frame in the stream. -/
structure Placed where
  offset : Nat
  header : Bytes
  body : Bytes

namespace Placed

def bytes (f : Placed) : Bytes :=
  head ++ (le32 (8 + f.header.length + f.body.length) ++ (le32 f.header.length ++ (f.header ++ f.body)))

def finish (f : Placed) : Nat := f.offset + f.bytes.length

/-- The stream holds the frame at its offset, under lengths that fit the temporary buffers. -/
structure In (f : Placed) (stream : Bytes) : Prop where
  held : ∃ front back, front.length = f.offset ∧ stream = front ++ (f.bytes ++ back)
  header_le : f.header.length ≤ tempBufferSize
  body_le : f.body.length ≤ tempBufferSize

theorem In.append {f : Placed} {stream : Bytes} (held : f.In stream) (chunk : Bytes) : f.In (stream ++ chunk) := by
  obtain ⟨⟨front, back, offset, rfl⟩, header, body⟩ := held
  exact ⟨⟨front, back ++ chunk, offset, by simp only [List.append_assoc]⟩, header, body⟩

end Placed

/-- What the run so far says of the stream so far. -/
structure Scanned (stream : Bytes) (log : List (Event P)) (r : Route) (placed : List Placed) : Prop where
  slices : frames log = placed.map fun f => (f.header, f.body)
  held : ∀ f ∈ placed, f.In stream
  ordered : placed.Pairwise fun f g => f.finish ≤ g.offset
  within : ReadsWithin log
  gone : ∃ gone, stream = gone ++ r.dataStreamReceive ∧ (∀ f ∈ placed, f.finish ≤ gone.length) ∧
    (0 < r.preRecivesTotalLen → ∃ before totalLen, gone = before ++ (head ++ le32 totalLen) ∧ totalLen < 2 ^ 32 ∧
      toInt32 totalLen = r.preRecivesTotalLen ∧ ∀ f ∈ placed, f.finish ≤ before.length)

namespace Scanned

variable {stream : Bytes} {log : List (Event P)} {r t : Route} {placed : List Placed}

theorem receive {chunk : Bytes} (scanned : Scanned stream log r placed) (room : receive pl r chunk = some t) :
    Scanned (stream ++ chunk) log t placed := by
  obtain ⟨slices, held, ordered, within, gone, rfl, behind, pending⟩ := scanned
  obtain ⟨⟨temp, rfl⟩, -⟩ := receive_eq room
  exact ⟨slices, fun f member => (held f member).append chunk, ordered, within, gone, List.append_assoc _ _ _,
    behind, pending⟩

theorem dropped {events : List (Event P)} (scanned : Scanned stream log r placed)
    (suffix : t.dataStreamReceive <:+ r.dataStreamReceive)
    (idle : t.preRecivesTotalLen ≤ 0) (within : ReadsWithin events) (none : frames events = []) :
    Scanned stream (log ++ events) t placed := by
  obtain ⟨slices, held, ordered, before, gone, rfl, behind, -⟩ := scanned
  obtain ⟨used, split⟩ := suffix
  refine ⟨?_, held, ordered, before.append within, gone ++ used, ?_, ?_, ?_⟩
  · rw [frames_append, none, List.append_nil, slices]
  · rw [← split, List.append_assoc]
  · intro f member
    have := behind f member
    rw [List.length_append]
    omega
  · intro pending
    omega

theorem payload {dispatch : Dispatch P} {before : Bytes} {totalLen : Nat} (scanned : Scanned stream log r placed)
    (quiet : Quiet dispatch) (prefixed : stream = before ++ (head ++ le32 totalLen) ++ r.dataStreamReceive)
    (word : totalLen < 2 ^ 32) (behind : ∀ f ∈ placed, f.finish ≤ before.length)
    (arrived : pl.minusInt totalLen ≤ r.dataStreamReceive.length) :
    let result := processPayload pl P (some dispatch) r totalLen
    ∃ placed, Scanned stream (log ++ result.events) result.route placed := by
  intro result
  have outline := @processPayload_outline pl P dispatch r totalLen
  rcases @processPayload_frames pl P dispatch r totalLen word arrived with none |
    ⟨header, body, one, split, total, small, fits⟩
  · exact ⟨placed, scanned.dropped outline.shrinks.1 (Int.le_of_eq (outline.idle quiet)) outline.within none⟩
  -- The new frame starts at the prefix, behind all frames so far.
  · let f : Placed := ⟨before.length, header, body⟩
    have bytes : stream = before ++ (f.bytes ++ result.route.dataStreamReceive) := by
      rw [prefixed, split, congrArg le32 total]
      simp only [Placed.bytes, f, List.append_assoc, result]
    refine ⟨placed ++ [f], ?_, ?_, ?_, scanned.within.append outline.within, before ++ f.bytes, ?_, ?_, ?_⟩
    · rw [frames_append, one, scanned.slices, List.map_append]
      rfl
    · intro g member
      rcases List.mem_append.mp member with old | new
      · exact scanned.held g old
      · obtain rfl := List.mem_singleton.mp new
        exact ⟨⟨before, _, rfl, bytes⟩, small, fits⟩
    · refine List.pairwise_append.mpr ⟨scanned.ordered, List.pairwise_singleton _ _, fun g old h new => ?_⟩
      obtain rfl := List.mem_singleton.mp new
      exact behind g old
    · rw [List.append_assoc, ← bytes]
    · intro g member
      rw [List.length_append]
      rcases List.mem_append.mp member with old | new
      · exact Nat.le_trans (behind g old) (Nat.le_add_right _ _)
      · obtain rfl := List.mem_singleton.mp new
        exact Nat.le_refl _
    · intro pending
      exact absurd pending (by rw [outline.idle quiet]; omega)

theorem toUInt32_toInt32 {n : Nat} (word : n < 2 ^ 32) (positive : 0 < toInt32 n) : toUInt32 (toInt32 n) = n := by
  have same := eq_of_toInt32_nonneg (by omega) (by omega) (Int.le_of_lt positive)
  have back := toUInt32_of_nonneg (Int.natCast_nonneg n) (by omega)
  rw [same]
  exact_mod_cast back

theorem processRecv {dispatch : Dispatch P} (scanned : Scanned stream log r placed) (quiet : Quiet dispatch) :
    let result := processRecv pl P (some dispatch) r
    ∃ placed, Scanned stream (log ++ result.events) result.route placed := by
  have one : ReadsWithin ([.readRaw 4] : List (Event P)) := .cons (by decide) (by decide) readsWithin_nil
  obtain ⟨gone, parts, behind, pending⟩ := scanned.gone
  rw [processRecv_eq]
  dsimp only
  split
  · rw [List.append_nil]
    exact ⟨placed, scanned⟩
  rename_i eight
  split
  · rename_i positive
    obtain ⟨before, totalLen, rfl, word, same, behind⟩ := pending positive
    -- The length was put there as an `int`, and comes back as the word that was read.
    have back : toUInt32 r.preRecivesTotalLen = totalLen := by
      rw [← same] at positive ⊢
      exact toUInt32_toInt32 word positive
    rw [back]
    split
    · rw [List.append_nil]
      exact ⟨placed, scanned⟩
    · rename_i arrived
      exact scanned.payload quiet parts word behind (Nat.le_of_not_lt arrived)
  rename_i idle
  split
  · exact ⟨placed, scanned.dropped (List.drop_suffix _ _) (Int.le_refl 0) one rfl⟩
  rename_i magic
  rw [ne_eq, not_not] at magic
  have word := totalLen_lt (Nat.le_of_not_lt eight)
  have prefixed : stream = gone ++ (head ++ le32 (ofLe ((r.dataStreamReceive.drop 4).take 4))) ++
    r.dataStreamReceive.drop 8 := by
    rw [List.append_assoc, ← eq_prefix_append (Nat.le_of_not_lt eight) magic, parts]
  have opened := @scanned.dropped P stream log r { r with dataStreamReceive := r.dataStreamReceive.drop 8 } placed
    [.readRaw 4]
    (List.drop_suffix _ _) (Int.not_lt.mp idle) one rfl
  split
  · refine ⟨placed, opened.slices, opened.held, opened.ordered, opened.within, _, prefixed, ?_, fun _ => ?_⟩
    · intro f member
      rw [List.length_append]
      exact Nat.le_trans (behind f member) (Nat.le_add_right _ _)
    · refine ⟨gone, ofLe ((r.dataStreamReceive.drop 4).take 4), rfl, word, ?_, behind⟩
      dsimp only
  · rename_i arrived
    rw [List.append_cons]
    exact opened.payload quiet prefixed word behind (by rw [List.length_drop]; omega)

end Scanned

/-- Every run from an empty route, whatever bytes it receives, has scanned them. -/
theorem run_scanned {r t : Route} {actions : List (Action P)} {events : List (Event P)}
    (idle : r.preRecivesTotalLen = 0) (empty : r.dataStreamReceive = []) (quiet : QuietRun actions)
    (runs : (routeMachine pl P).run r actions = some (t, events)) :
    ∃ placed, Scanned (received actions) events t placed := by
  have initial : ∃ placed, Scanned (received ([] : List (Action P))) ([] : List (Event P)) r placed :=
    ⟨[], rfl, fun _ member => absurd member List.not_mem_nil, List.Pairwise.nil, readsWithin_nil, [], empty.symm,
      fun _ member => absurd member List.not_mem_nil, fun pending => absurd pending (by omega)⟩
  refine Machine.run_induct (fun hist log r => ∃ placed, Scanned (received hist) log r placed) ?_ initial
    (quiet.quietStep r) runs
  intro hist log r a u seen before kept taken
  obtain ⟨placed, scanned⟩ := before
  rw [received_append]
  cases a with
  | receive chunk =>
    obtain ⟨u, room, same⟩ := Option.map_eq_some_iff.mp taken
    cases same
    rw [received_receive, List.append_nil]
    exact ⟨placed, scanned.receive room⟩
  | processRecv dispatch =>
    cases taken
    rw [received_processRecv, List.append_nil]
    exact scanned.processRecv kept

/-- No bytes make `ReadRaw` overrun the temporary buffers, and the slices that reach `createMessage`
are those of frames that the stream holds, one behind the other. -/
theorem receiver_safe {r t : Route} {actions : List (Action P)} {events : List (Event P)}
    (idle : r.preRecivesTotalLen = 0) (empty : r.dataStreamReceive = []) (quiet : QuietRun actions)
    (runs : (routeMachine pl P).run r actions = some (t, events)) :
    ReadsWithin events ∧
      ∃ placed : List Placed, frames events = placed.map (fun f => (f.header, f.body)) ∧
        (∀ f ∈ placed, f.In (received actions)) ∧ placed.Pairwise fun f g => f.finish ≤ g.offset := by
  obtain ⟨placed, scanned⟩ := run_scanned idle empty quiet runs
  exact ⟨scanned.within, placed, scanned.slices, scanned.held, scanned.ordered⟩

theorem receiver_safe_garbage :
    let hostile := ascii "junk" ++ (head ++ (le32 (2 ^ 31) ++ frame .baseCmd (Message.reqMove ⟨1, 2⟩)))
    let actions : List (Action .baseCmd) :=
      [.receive (hostile.take 30), .processRecv silent, .processRecv silent, .receive (hostile.drop 30),
        .processRecv silent]
    ∃ t events, (routeMachine .x64 .baseCmd).run (Route.new 0 [] []) actions = some (t, events) ∧
      (frames events).length = 1 ∧ ReadsWithin events ∧
      ∃ placed : List Placed, frames events = placed.map (fun f => (f.header, f.body)) ∧
        (∀ f ∈ placed, f.In (received actions)) ∧ placed.Pairwise fun f g => f.finish ≤ g.offset := by
  intro hostile actions
  have evaluates : ((routeMachine .x64 .baseCmd).run (Route.new 0 [] []) actions).any
      (fun (_, events) => (frames events).length = 1) = true := by
    decide +kernel
  have quiet : QuietRun actions := by
    intro dispatch member
    obtain rfl : dispatch = silent := by simpa [actions] using member
    exact silent_quiet
  obtain ⟨t, events, runs, one⟩ := Machine.exists_run evaluates
  exact ⟨t, events, runs, of_decide_eq_true one, receiver_safe rfl rfl quiet runs⟩

end MiniProtobuf
