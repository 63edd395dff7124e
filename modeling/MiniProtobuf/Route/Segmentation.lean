import MiniProtobuf.Route.Framing
import MiniProtobuf.Route.Front
import MiniProtobuf.Route.Progress

/-!
# Segmentation

`Reads` scans a whole stream at once, with no calls in it. It stops short where the receiver takes whatever
is in the buffer instead of a number of bytes that the stream fixes. On every other stream any schedule gives
what the scan gives (`run_reads`), so that two schedules cannot differ.
-/

namespace MiniProtobuf
open Wire BaseCmd CodedInputStream

variable {pl : Platform} {P : Pool}

/-- The slices that a stream holds, when none of it is read by what happens to have arrived. -/
inductive Reads : Bytes → List (Bytes × Bytes) → Prop
  | ends {stream : Bytes} (short : stream.length < 8) : Reads stream []
  | skips {stream : Bytes} {out : List (Bytes × Bytes)} (eight : 8 ≤ stream.length) (other : stream.take 4 ≠ head)
    (behind : Reads (stream.drop 4) out) : Reads stream out
  /-- No length, or one that is negative as an `int` and cannot be met: the prefix is dropped. -/
  | drops {totalLen : Nat} {rest : Bytes} {out : List (Bytes × Bytes)} (word : totalLen < 2 ^ 32)
    (none : totalLen = 0 ∨ 2 ^ 31 ≤ totalLen ∧ rest.length < totalLen - 4) (behind : Reads rest out) :
    Reads (head ++ (le32 totalLen ++ rest)) out
  /-- A length that cannot be met, or not by this stream: the rest stays in the buffer. -/
  | waits {totalLen : Nat} {rest : Bytes} (positive : 0 < totalLen) (int : totalLen < 2 ^ 31)
    (unmet : totalLen < 4 ∨ rest.length < totalLen - 4) : Reads (head ++ (le32 totalLen ++ rest)) []
  /-- A contained packet, with enough behind its prefix for the test of eight bytes. -/
  | takes {p : Packet} {rest : Bytes} {out : List (Bytes × Bytes)} (contained : p.Contained)
    (eight : 8 ≤ (p.payload ++ rest).length) (behind : Reads rest out) :
    Reads (p.bytes ++ rest) (p.slices.toList ++ out)

def Settled (pl : Platform) (P : Pool) (r : Route) : Prop :=
  ∃ dispatch : Dispatch P, (processRecv pl P (some dispatch) r).route = r

theorem settled_of_short {r : Route} (short : r.dataStreamReceive.length < 8) : Settled pl P r :=
  ⟨silent, by rw [processRecv_short short]⟩

/-! ### Reading the scan backwards -/

theorem length_prefixed (totalLen : Nat) (rest : Bytes) :
    (head ++ (le32 totalLen ++ rest)).length = rest.length + 8 := by
  rw [List.length_append, List.length_append, length_le32, show head.length = 4 from rfl]
  omega

theorem take_head (rest : Bytes) : (head ++ rest).take 4 = head := List.take_left' rfl

theorem prefix_inj {totalLen totalLen' : Nat} {rest rest' : Bytes} (word : totalLen < 2 ^ 32)
    (word' : totalLen' < 2 ^ 32)
    (same : head ++ (le32 totalLen ++ rest) = head ++ (le32 totalLen' ++ rest')) :
    totalLen = totalLen' ∧ rest = rest' := by
  obtain ⟨lengths, rests⟩ := List.append_inj (List.append_cancel_left same) (by rw [length_le32, length_le32])
  exact ⟨le32_inj word word' lengths, rests⟩

theorem reads_short {stream : Bytes} {out : List (Bytes × Bytes)} (reads : Reads stream out)
    (short : stream.length < 8) :
    out = [] := by
  cases reads with
  | ends _ => rfl
  | skips eight _ _ => omega
  | drops _ _ _ =>
    rw [length_prefixed] at short
    omega
  | waits _ _ _ => rfl
  | takes _ _ _ =>
    rw [List.length_append, Packet.length_bytes] at short
    omega

theorem reads_skip {stream : Bytes} {out : List (Bytes × Bytes)} (reads : Reads stream out) (eight : 8 ≤ stream.length)
    (other : stream.take 4 ≠ head) : Reads (stream.drop 4) out := by
  cases reads with
  | ends short => omega
  | skips _ _ behind => exact behind
  | drops _ _ _ => exact absurd (take_head _) other
  | waits _ _ _ => exact absurd (take_head _) other
  | takes _ _ _ =>
    rw [Packet.bytes, List.append_assoc] at other
    exact absurd (take_head _) other

/-- What a scan can do with a prefix. -/
inductive Prefixed (totalLen : Nat) (rest : Bytes) (out : List (Bytes × Bytes)) : Prop
  | drops (none : totalLen = 0 ∨ 2 ^ 31 ≤ totalLen ∧ rest.length < totalLen - 4) (behind : Reads rest out)
  | waits (positive : 0 < totalLen) (int : totalLen < 2 ^ 31)
    (unmet : totalLen < 4 ∨ rest.length < totalLen - 4) (nothing : out = [])
  | takes (p : Packet) (later : Bytes) (out' : List (Bytes × Bytes)) (total : totalLen = p.total)
    (payload : rest = p.payload ++ later) (contained : p.Contained) (eight : 8 ≤ rest.length)
    (slices : out = p.slices.toList ++ out') (behind : Reads later out')

theorem reads_prefix {totalLen : Nat} {rest : Bytes} {out : List (Bytes × Bytes)} (word : totalLen < 2 ^ 32)
    (reads : Reads (head ++ (le32 totalLen ++ rest)) out) : Prefixed totalLen rest out := by
  have length := length_prefixed totalLen rest
  generalize eq : head ++ (le32 totalLen ++ rest) = stream at reads length
  cases reads with
  | ends short => omega
  | skips _ other _ =>
    rw [← eq] at other
    exact absurd (take_head _) other
  | drops word' none behind =>
    obtain ⟨rfl, rfl⟩ := prefix_inj word word' eq
    exact .drops none behind
  | waits positive int unmet =>
    obtain ⟨rfl, rfl⟩ := prefix_inj word (by omega) eq
    exact .waits positive int unmet rfl
  | @takes p later out' contained eight behind =>
    have bound := p.total_lt
    rw [Packet.bytes, List.append_assoc, List.append_assoc] at eq
    obtain ⟨rfl, rfl⟩ := prefix_inj word (by omega) eq
    exact .takes p later out' rfl rfl contained eight rfl behind

/-! ### A schedule follows the scan -/

/-- What the scan has still to give, with the bytes ahead of the buffer. -/
inductive Stands (ahead : Bytes) (r : Route) (out : List (Bytes × Bytes)) : Prop
  | idle (none : r.preRecivesTotalLen ≤ 0) (reads : Reads (r.dataStreamReceive ++ ahead) out)
  | pending (totalLen : Nat) (some : r.preRecivesTotalLen = totalLen) (positive : 0 < totalLen)
    (int : totalLen < 2 ^ 31) (reads : Reads (head ++ (le32 totalLen ++ (r.dataStreamReceive ++ ahead))) out)

section Stands

variable {ahead : Bytes} {r t : Route} {out : List (Bytes × Bytes)} {dispatch : Dispatch P}

theorem Stands.receive {chunk : Bytes} (stands : Stands (chunk ++ ahead) r out) (room : receive pl r chunk = some t) :
    Stands ahead t out := by
  obtain ⟨⟨temp, rfl⟩, -⟩ := receive_eq room
  cases stands with
  | idle none reads => exact .idle none (by rw [List.append_assoc]; exact reads)
  | pending totalLen some positive int reads =>
    exact .pending totalLen some positive int (by rw [List.append_assoc]; exact reads)

theorem stands_front {p : Packet} {rest : Bytes} {out' : List (Bytes × Bytes)} (front : Front r p rest)
    (contained : p.Contained) (quiet : Quiet dispatch) (behind : Reads (rest ++ ahead) out') :
    let result := processRecv pl P (some dispatch) r
    Stands ahead result.route out' ∧ p.slices.toList ++ out' = frames result.events ++ out' := by
  have opened := @Front.processRecv pl P r p rest front contained dispatch
  refine ⟨.idle ?_ (by rw [opened.stream]; exact behind), by rw [opened.slices]⟩
  rw [opened.pending, quiet.handledOf]
  exact Int.le_refl 0

variable (pl) in
theorem stands_pending {totalLen : Nat} (quiet : Quiet dispatch) (room : r.dataStreamReceive.length ≤ pl.maxSize)
    (eight : 8 ≤ r.dataStreamReceive.length) (pending : r.preRecivesTotalLen = totalLen) (positive : 0 < totalLen)
    (int : totalLen < 2 ^ 31) (reads : Reads (head ++ (le32 totalLen ++ (r.dataStreamReceive ++ ahead))) out) :
    let result := processRecv pl P (some dispatch) r
    ∃ out', Stands ahead result.route out' ∧ out = frames result.events ++ out' := by
  have still : Stands ahead r out := .pending totalLen pending positive int reads
  cases reads_prefix (by omega) reads with
  | drops none _ => omega
  | waits _ _ unmet nothing =>
    rcases unmet with small | short
    · rw [processRecv_wedged (by omega) (by omega) room]
      exact ⟨out, still, rfl⟩
    · rw [List.length_append] at short
      rw [processRecv_unmet pending (by omega) int (by omega)]
      exact ⟨out, still, rfl⟩
  | takes p later out' total payload contained _ slices behind =>
    subst total slices
    have size : p.total = p.payload.length + 4 := rfl
    have four := p.four_le
    rcases Nat.lt_or_ge r.dataStreamReceive.length p.payload.length with short | arrived
    · rw [processRecv_unmet pending (by omega) int (by omega)]
      exact ⟨_, still, rfl⟩
    · obtain ⟨rest, front, rfl⟩ := split_front payload arrived
      exact ⟨out', stands_front ⟨eight, .inr ⟨pending, front⟩⟩ contained quiet behind⟩

variable (pl) in
theorem stands_magic {totalLen : Nat} {rest : Bytes} (quiet : Quiet dispatch)
    (room : r.dataStreamReceive.length ≤ pl.maxSize)
    (none : r.preRecivesTotalLen ≤ 0) (word : totalLen < 2 ^ 32)
    (stream : r.dataStreamReceive = head ++ (le32 totalLen ++ rest))
    (reads : Reads (head ++ (le32 totalLen ++ (rest ++ ahead))) out) :
    let result := processRecv pl P (some dispatch) r
    ∃ out', Stands ahead result.route out' ∧ out = frames result.events ++ out' := by
  have length := length_prefixed totalLen rest
  rw [← stream] at length
  -- Below four the subtraction wraps, and nothing in the buffer is enough.
  have wraps (small : totalLen < 4) : rest.length < pl.minusInt totalLen := by
    have bound := pl.maxSize_lt
    rw [Platform.minusInt, Nat.mod_eq_of_lt (by omega)]
    omega
  by_cases short : rest.length < pl.minusInt totalLen
  · rw [processRecv_prefixed none word stream short]
    dsimp only
    by_cases waits : 0 < totalLen ∧ totalLen < 2 ^ 31
    · rw [toInt32_of_range (by omega) (by omega)]
      exact ⟨out, .pending totalLen rfl waits.1 waits.2 reads, rfl⟩
    · cases reads_prefix word reads with
      | drops negative behind =>
        have negative : toInt32 totalLen ≤ 0 := by
          rcases negative with zero | ⟨high, -⟩
          · rw [zero]
            decide
          · rw [toInt32_of_high high word]
            omega
        generalize toInt32 totalLen = pending at negative ⊢
        exact ⟨out, .idle negative behind, rfl⟩
      | waits positive int _ _ => exact absurd ⟨positive, int⟩ waits
      | takes p _ _ total _ _ _ _ _ =>
        have bound := p.total_lt
        have size : p.total = p.payload.length + 4 := rfl
        exact absurd ⟨by omega, by omega⟩ waits
  -- Enough has arrived, which leaves of the three readings only a packet.
  · have least : 4 ≤ totalLen := Nat.le_of_not_lt fun small => short (wraps small)
    have need : pl.minusInt totalLen = totalLen - 4 := Platform.minusInt_of_le least word
    cases reads_prefix word reads with
    | drops negative _ =>
      rw [List.length_append] at negative
      omega
    | waits _ _ unmet _ =>
      rw [List.length_append] at unmet
      omega
    | takes p later out' total payload contained _ slices behind =>
      subst total slices
      obtain ⟨rest, rfl, rfl⟩ := split_front payload (by rw [p.minusInt_total] at short; omega)
      have front : r.dataStreamReceive = p.bytes ++ rest := by
        rw [stream, Packet.bytes, List.append_assoc, List.append_assoc]
      exact ⟨out', stands_front ⟨by omega, .inl ⟨none, front⟩⟩ contained quiet behind⟩

variable (pl) in
theorem stands_call (stands : Stands ahead r out) (quiet : Quiet dispatch)
    (room : r.dataStreamReceive.length ≤ pl.maxSize) :
    let result := processRecv pl P (some dispatch) r
    ∃ out', Stands ahead result.route out' ∧ out = frames result.events ++ out' := by
  by_cases short : r.dataStreamReceive.length < 8
  · rw [processRecv_short short]
    exact ⟨out, stands, rfl⟩
  have eight := Nat.le_of_not_lt short
  cases stands with
  | pending totalLen some positive int reads => exact stands_pending pl quiet room eight some positive int reads
  | idle none reads =>
    by_cases magic : r.dataStreamReceive.take 4 = head
    · have stream := eq_prefix_append eight magic
      rw [List.append_assoc] at stream
      refine stands_magic pl quiet room none (totalLen_lt eight) stream ?_
      rwa [stream, List.append_assoc, List.append_assoc] at reads
    · rw [processRecv_skip none eight magic]
      refine ⟨out, .idle (Int.le_refl 0) ?_, rfl⟩
      have behind := reads_skip reads (by rw [List.length_append]; omega) (by
        rw [List.take_append_of_le_length (by omega)]
        exact magic)
      rwa [List.drop_append_of_le_length (by omega)] at behind

/-- Where a route has settled and nothing is ahead, the scan has nothing more to give. -/
theorem stands_settled (stands : Stands [] r out) (settled : Settled pl P r) : out = [] := by
  obtain ⟨dispatch, same⟩ := settled
  rcases @processRecv_waits_or_shrinks pl P dispatch r with ⟨waiting, -⟩ | shrinks
  · cases stands with
    | idle none reads =>
      rw [List.append_nil] at reads
      exact reads_short reads (waiting.elim id fun pending => absurd pending.1 (by omega))
    | pending totalLen some positive int reads =>
      rw [List.append_nil] at reads
      cases reads_prefix (by omega) reads with
      | drops none _ => omega
      | waits _ _ _ nothing => exact nothing
      | takes p later out' total payload _ eight _ _ =>
        rw [toUInt32_pending some int, total, p.minusInt_total, payload, List.length_append] at waiting
        rw [payload, List.length_append] at eight
        omega
  · rw [same] at shrinks
    omega

/-- Any schedule over a stream that is read by its bytes alone gives the slices of the scan. -/
theorem run_reads {stream : Bytes} {actions : List (Action P)} {events : List (Event P)} (reads : Reads stream out)
    (idle : r.preRecivesTotalLen = 0) (empty : r.dataStreamReceive = []) (quiet : QuietRun actions)
    (all : received actions = stream) (runs : (routeMachine pl P).run r actions = some (t, events))
    (settled : Settled pl P t) : frames events = out := by
  -- The invariant holds for whatever is still ahead, as the actions to come decide it.
  let Inv (hist : List (Action P)) (log : List (Event P)) (r : Route) : Prop :=
    r.dataStreamReceive.length ≤ pl.maxSize ∧
      ∀ ahead, received hist ++ ahead = stream → ∃ out', Stands ahead r out' ∧ out = frames log ++ out'
  have initial : Inv [] [] r := by
    refine ⟨by rw [empty]; exact Nat.zero_le _, fun ahead same => ⟨out, .idle (Int.le_of_eq idle) ?_, rfl⟩⟩
    obtain rfl : ahead = stream := same
    rw [empty]
    exact reads
  have last : Inv actions events t := by
    refine Machine.run_induct Inv ?_ initial (quiet.quietStep r) runs
    rintro hist log r a u seen ⟨room, before⟩ kept taken
    cases a with
    | receive chunk =>
      obtain ⟨u, arrives, same⟩ := Option.map_eq_some_iff.mp taken
      cases same
      refine ⟨?_, fun ahead whole => ?_⟩
      · obtain ⟨⟨temp, rfl⟩, -, fits⟩ := receive_eq arrives
        rw [List.length_append]
        exact fits
      · rw [received_append, received_receive, List.append_assoc] at whole
        obtain ⟨out', stands, rfl⟩ := before _ whole
        rw [List.append_nil]
        exact ⟨out', stands.receive arrives, rfl⟩
    | processRecv dispatch =>
      cases taken
      refine ⟨Nat.le_trans (processRecv_length_le dispatch r) room, fun ahead whole => ?_⟩
      rw [received_append, received_processRecv, List.append_nil] at whole
      obtain ⟨out', stands, rfl⟩ := before _ whole
      obtain ⟨out'', next, rfl⟩ := stands_call pl stands kept room
      exact ⟨out'', next, by rw [frames_append, List.append_assoc]⟩
  obtain ⟨out', stands, rfl⟩ := last.2 [] (by rw [List.append_nil, all])
  rw [stands_settled stands settled, List.append_nil]

end Stands

/-- Two schedules of one stream that is read by its bytes alone hand the same slices, and so the same
messages, to `Dispatch`. -/
theorem schedules_agree {stream : Bytes} {out : List (Bytes × Bytes)} {r r' t t' : Route}
    {actions actions' : List (Action P)} {events events' : List (Event P)} (reads : Reads stream out)
    (idle : r.preRecivesTotalLen = 0) (empty : r.dataStreamReceive = []) (quiet : QuietRun actions)
    (all : received actions = stream) (runs : (routeMachine pl P).run r actions = some (t, events))
    (settled : Settled pl P t) (idle' : r'.preRecivesTotalLen = 0) (empty' : r'.dataStreamReceive = [])
    (quiet' : QuietRun actions') (all' : received actions' = stream)
    (runs' : (routeMachine pl P).run r' actions' = some (t', events')) (settled' : Settled pl P t') :
    frames events = frames events' ∧ dispatched events = dispatched events' := by
  have slices := run_reads reads idle empty quiet all runs settled
  have slices' := run_reads reads idle' empty' quiet' all' runs' settled'
  refine ⟨slices.trans slices'.symm, ?_⟩
  rw [run_dispatched runs, run_dispatched runs', slices, slices']

theorem schedules_agree_move :
    let stream := frame .baseCmd (Message.reqMove ⟨1, 2⟩)
    let actions : List (Action .baseCmd) := [.receive stream, .processRecv silent]
    let actions' : List (Action .baseCmd) :=
      [.receive (stream.take 14), .processRecv silent, .receive (stream.drop 14), .processRecv silent]
    ∃ t events t' events',
      (routeMachine .x64 .baseCmd).run (Route.new 0 [] []) actions = some (t, events) ∧
      (routeMachine .x64 .baseCmd).run (Route.new 0 [] []) actions' = some (t', events') ∧
      (dispatched events).length = 1 ∧ dispatched events = dispatched events' := by
  intro stream actions actions'
  have evaluates : ((routeMachine .x64 .baseCmd).run (Route.new 0 [] []) actions).any
      (fun (t, events) => (dispatched events).length = 1 ∧ t.dataStreamReceive.length < 8) = true := by
    decide +kernel
  have evaluates' : ((routeMachine .x64 .baseCmd).run (Route.new 0 [] []) actions').any
      (fun (t, _) => t.dataStreamReceive.length < 8) = true := by
    decide +kernel
  obtain ⟨t, events, runs, seen⟩ := Machine.exists_run evaluates
  obtain ⟨t', events', runs', seen'⟩ := Machine.exists_run evaluates'
  obtain ⟨one, short⟩ := of_decide_eq_true seen
  have short' := of_decide_eq_true seen'
  have small : Small .baseCmd (Message.reqMove ⟨1, 2⟩) := by decide +kernel
  let p := @packetOf .baseCmd (Message.reqMove ⟨1, 2⟩) small.fits
  have reads : Reads (p.bytes ++ []) (p.slices.toList ++ []) :=
    .takes packetOf_contained (by rw [List.append_nil]; exact eight_le_packetOf (by decide)) (.ends (by decide))
  rw [List.append_nil, packetOf_bytes] at reads
  have quiet : QuietRun (actions ++ actions') := by
    intro dispatch member
    obtain rfl : dispatch = silent := by simpa [actions, actions'] using member
    exact silent_quiet
  have same := schedules_agree reads rfl rfl (fun d member => quiet d (List.mem_append_left _ member))
    (List.append_nil _)
    runs (settled_of_short short) rfl rfl (fun d member => quiet d (List.mem_append_right _ member)) (by decide +kernel)
    runs' (settled_of_short short')
  exact ⟨t, events, t', events', runs, runs', one, same.2⟩

/-- A packet that claims a header of five in four bytes. Where it arrives with the frame behind it, it takes
eight bytes of that frame with it; where it arrives alone, there is nothing to take. -/
theorem split_decides_dispatch :
    let corrupt : Bytes := head ++ (le32 8 ++ le32 5)
    let move := frame .baseCmd (Message.reqMove ⟨0, 0⟩)
    let calls : List (Action .baseCmd) := List.replicate 5 (.processRecv silent)
    let actions : List (Action .baseCmd) := [.receive (corrupt ++ move)] ++ calls
    let actions' : List (Action .baseCmd) := [.receive corrupt, .processRecv silent, .receive move] ++ calls
    received actions = received actions' ∧
    ∃ t events t' events',
      (routeMachine .x64 .baseCmd).run (Route.new 0 [] []) actions = some (t, events) ∧ Settled .x64 .baseCmd t ∧
      (routeMachine .x64 .baseCmd).run (Route.new 0 [] []) actions' = some (t', events') ∧ Settled .x64 .baseCmd t' ∧
      dispatched events = [] ∧ dispatched events' = [(ascii "BaseCmd.reqMove", .reqMove ⟨0, 0⟩)] := by
  intro corrupt move calls actions actions'
  have evaluates : ((routeMachine .x64 .baseCmd).run (Route.new 0 [] []) actions).any
      (fun (t, events) => t.dataStreamReceive.length < 8 ∧ dispatched events = []) = true := by
    decide +kernel
  have evaluates' : ((routeMachine .x64 .baseCmd).run (Route.new 0 [] []) actions').any
      (fun (t, events) => t.dataStreamReceive.length < 8 ∧
        dispatched events = [(ascii "BaseCmd.reqMove", .reqMove ⟨0, 0⟩)]) = true := by
    decide +kernel
  obtain ⟨t, events, runs, seen⟩ := Machine.exists_run evaluates
  obtain ⟨t', events', runs', seen'⟩ := Machine.exists_run evaluates'
  obtain ⟨short, nothing⟩ := of_decide_eq_true seen
  obtain ⟨short', one⟩ := of_decide_eq_true seen'
  exact ⟨by decide +kernel, t, events, t', events', runs, settled_of_short short, runs', settled_of_short short',
    nothing, one⟩

end MiniProtobuf
