import MiniProtobuf.Route.Corrupt

/-!
# Garbage before the frames

The scan for the magic goes on in steps of four bytes. Garbage of a whole number of such words is skipped
up to the first frame (`calls_skip`); behind any other garbage the scan never stands on a magic again,
unless some later byte puts one in its way (`feed_blind`).
-/

namespace MiniProtobuf
open Wire BaseCmd

variable {pl : Platform} {P : Pool}

/-- The magic stands nowhere in the first `n` places. -/
def Apart (n : Nat) (stream : Bytes) : Prop := ∀ i < n, (stream.drop i).take 4 ≠ head

instance (n : Nat) (stream : Bytes) : Decidable (Apart n stream) :=
  inferInstanceAs (Decidable (∀ i < n, (stream.drop i).take 4 ≠ head))

/-- What the receiver is to make of the frames of some messages, one of each. -/
def delivered (messages : List Message) : List (Bytes × Message) :=
  messages.map fun m => (m.getTypeName, (m.fresh.parseFromArray m.serialize).1)

/-- Whatever frames follow the garbage, in whatever chunks, enough calls dispatch all of them in order. -/
def Resyncs (pl : Platform) (garbage : Bytes) : Prop :=
  ∀ messages : List Message, messages ≠ [] → (∀ m ∈ messages, Small .baseCmd m) →
    Apart garbage.length (garbage ++ messages.flatMap (frame .baseCmd)) →
    ∃ enough, ∀ (r t : Route) (actions : List (Action .baseCmd)) (calls : List (Dispatch .baseCmd))
      (events : List (Event .baseCmd)),
      r.preRecivesTotalLen = 0 → r.dataStreamReceive = [] → QuietRun (actions ++ calls.map .processRecv) →
      received actions = garbage ++ messages.flatMap (frame .baseCmd) → enough ≤ calls.length →
      (routeMachine pl .baseCmd).run r (actions ++ calls.map .processRecv) = some (t, events) →
      dispatched events = delivered messages

theorem Apart.drop {n k : Nat} {stream : Bytes} (apart : Apart n stream) : Apart (n - k) (stream.drop k) := by
  intro i less
  rw [List.drop_drop]
  exact apart (k + i) (by omega)

/-! ### Whole words -/

/-- The buffer stands in front of whole words of garbage, with the packets behind them. -/
structure Skips (all : List Packet) (ahead : Bytes) (r : Route) (left : Bytes) : Prop where
  idle : r.preRecivesTotalLen = 0
  stream : r.dataStreamReceive ++ ahead = left ++ wire all
  words : 4 ∣ left.length
  apart : Apart left.length (left ++ wire all)

section Skips

variable {all : List Packet} {ahead left : Bytes} {r t : Route} {log : List (Event P)}

theorem Skips.receive {chunk : Bytes} (skips : Skips all (chunk ++ ahead) r left) (room : receive pl r chunk = some t) :
    Skips all ahead t left := by
  obtain ⟨⟨temp, rfl⟩, -⟩ := receive_eq room
  exact ⟨skips.idle, by rw [← skips.stream, List.append_assoc], skips.words, skips.apart⟩

theorem Skips.tracks (skips : Skips all ahead r []) (silent : dispatched log = []) : Tracks all ahead log r all :=
  ⟨⟨[], rfl, silent⟩, .idle skips.idle skips.stream⟩

variable (pl) in
theorem Skips.processRecv (skips : Skips all ahead r left) (present : left ≠ [])
    (eight : 8 ≤ r.dataStreamReceive.length) (dispatcher : Option (Dispatch P)) :
    let result := processRecv pl P dispatcher r
    Skips all ahead result.route (left.drop 4) ∧ dispatched result.events = [] := by
  have some := List.length_pos_of_ne_nil present
  have four : 4 ≤ left.length := Nat.le_of_dvd some skips.words
  have front : r.dataStreamReceive.take 4 = (left ++ wire all).take 4 := by
    rw [← skips.stream, List.take_append_of_le_length (by omega)]
  have other : r.dataStreamReceive.take 4 ≠ head := by
    rw [front]
    exact skips.apart 0 some
  rw [processRecv_skip (Int.le_of_eq skips.idle) eight other]
  have rest : left.drop 4 ++ wire all = (left ++ wire all).drop 4 := (List.drop_append_of_le_length four).symm
  refine ⟨⟨rfl, ?_, ?_, ?_⟩, rfl⟩
  · show r.dataStreamReceive.drop 4 ++ ahead = _
    rw [rest, ← skips.stream, List.drop_append_of_le_length (by omega)]
  · rw [List.length_drop]
    exact Nat.dvd_sub skips.words (Nat.dvd_refl 4)
  · rw [List.length_drop, rest]
    exact skips.apart.drop

/-- Until the garbage is gone nothing is dispatched. -/
theorem run_skips {garbage : Bytes} {actions : List (Action P)} {events : List (Event P)}
    (contained : ∀ p ∈ all, p.Contained) (start : Skips all (garbage ++ wire all) r garbage)
    (quiet : QuietRun actions) (runs : (routeMachine pl P).run r actions = some (t, events)) (ahead : Bytes)
    (stream : received actions ++ ahead = garbage ++ wire all) :
    (∃ left, left.length ≤ garbage.length ∧ Skips all ahead t left ∧ dispatched events = []) ∨
      ∃ todo, Tracks all ahead events t todo := by
  let Inv (hist : List (Action P)) (log : List (Event P)) (r : Route) : Prop :=
    ∀ ahead, received hist ++ ahead = garbage ++ wire all →
      (∃ left, left.length ≤ garbage.length ∧ Skips all ahead r left ∧ dispatched log = []) ∨
        ∃ todo, Tracks all ahead log r todo
  have initial : Inv [] [] r := by
    intro ahead stream
    obtain rfl : ahead = garbage ++ wire all := stream
    exact .inl ⟨garbage, Nat.le_refl _, start, rfl⟩
  refine Machine.run_induct Inv ?_ initial (quiet.quietStep r) runs ahead stream
  intro hist log r a u seen before kept taken ahead stream
  rw [received_append] at stream
  cases a with
  | receive chunk =>
    obtain ⟨u, room, same⟩ := Option.map_eq_some_iff.mp taken
    cases same
    rw [received_receive, List.append_assoc] at stream
    rw [List.append_nil]
    rcases before _ stream with ⟨left, shorter, skips, silent⟩ | ⟨todo, tracks⟩
    · exact .inl ⟨left, shorter, skips.receive room, silent⟩
    · exact .inr ⟨todo, tracks.receive room⟩
  | processRecv dispatch =>
    cases taken
    rw [received_processRecv, List.append_nil] at stream
    have track {todo : List Packet} (tracks : Tracks all ahead log r todo) :
        ∃ todo', Tracks all ahead (log ++ (processRecv pl P (some dispatch) r).events)
          (processRecv pl P (some dispatch) r).route todo' := by
      rcases tracks.processRecv pl contained (kept.throwsIdle r) with ⟨waiting, -⟩ | ⟨p, rest, -, taking⟩
      · exact ⟨todo, waiting⟩
      · exact ⟨rest, taking⟩
    rcases before ahead stream with ⟨left, shorter, skips, silent⟩ | ⟨todo, tracks⟩
    · by_cases gone : left = []
      · subst gone
        exact .inr (track (skips.tracks silent))
      by_cases short : r.dataStreamReceive.length < 8
      · rw [processRecv_short short, List.append_nil]
        exact .inl ⟨left, shorter, skips, silent⟩
      · obtain ⟨next, nothing⟩ := skips.processRecv pl gone (Nat.le_of_not_lt short) (some dispatch)
        refine .inl ⟨left.drop 4, ?_, next, by rw [dispatched_append, silent, nothing]; rfl⟩
        rw [List.length_drop]
        omega
    · exact .inr (track tracks)

/-- Once everything has arrived, each call takes a word of the garbage and then a frame. -/
theorem calls_skip {calls : List (Dispatch P)} {events : List (Event P)} (contained : ∀ p ∈ all, p.Contained)
    (nonempty : all ≠ []) (skips : Skips all [] r left) (silent : dispatched log = [])
    (enough : left.length + all.length ≤ calls.length) (quiet : QuietRun (calls.map Action.processRecv))
    (runs : (routeMachine pl P).run r (calls.map .processRecv) = some (t, events)) :
    ∃ todo, Tracks all [] (log ++ events) t todo ∧ Exhausted todo := by
  induction calls generalizing r left log events with
  | nil =>
    have some := List.length_pos_of_ne_nil nonempty
    rw [List.length_nil] at enough
    omega
  | cons dispatch calls ih =>
    by_cases gone : left = []
    · subst gone
      obtain ⟨todo, tracks, -, progress⟩ := calls_tracks contained (skips.tracks silent) (quiet.throwsIdle r) runs
      refine ⟨todo, tracks, progress.elim (fun less => .inl ?_) id⟩
      rw [List.length_nil] at enough
      exact List.eq_nil_of_length_eq_zero (by omega)
    · obtain ⟨u, seen, later, first, rest, rfl⟩ := Machine.run_cons_eq_some.mp runs
      cases first
      -- A word of garbage and a packet behind it are enough for the test of eight bytes.
      have eight : 8 ≤ r.dataStreamReceive.length := by
        have lengths := congrArg List.length skips.stream
        have four := Nat.le_of_dvd (List.length_pos_of_ne_nil gone) skips.words
        obtain ⟨p, ps, rfl⟩ := List.exists_cons_of_ne_nil nonempty
        rw [List.append_nil, List.length_append, wire_cons, List.length_append, Packet.length_bytes] at lengths
        omega
      obtain ⟨next, nothing⟩ := skips.processRecv pl gone eight (some dispatch)
      rw [← List.append_assoc]
      refine ih next (by rw [dispatched_append, silent, nothing]; rfl) ?_ ?_ rest
      · have some := List.length_pos_of_ne_nil gone
        rw [List.length_cons] at enough
        rw [List.length_drop]
        omega
      · exact fun dispatch member => quiet dispatch (List.mem_cons_of_mem _ member)

theorem run_resyncs {garbage : Bytes} {actions : List (Action P)} {calls : List (Dispatch P)} {events : List (Event P)}
    (contained : ∀ p ∈ all, p.Contained) (nonempty : all ≠ []) (words : 4 ∣ garbage.length)
    (apart : Apart garbage.length (garbage ++ wire all)) (idle : r.preRecivesTotalLen = 0)
    (empty : r.dataStreamReceive = []) (quiet : QuietRun (actions ++ calls.map .processRecv))
    (stream : received actions = garbage ++ wire all) (enough : garbage.length + all.length ≤ calls.length)
    (runs : (routeMachine pl P).run r (actions ++ calls.map .processRecv) = some (t, events)) :
    ∃ todo, Tracks all [] events t todo ∧ Exhausted todo := by
  obtain ⟨u, seen, later, first, rest, rfl⟩ := Machine.run_append_eq_some.mp runs
  have quietFirst : QuietRun actions := fun dispatch member => quiet dispatch (List.mem_append_left _ member)
  have quietRest : QuietRun (calls.map Action.processRecv) :=
    fun dispatch member => quiet dispatch (List.mem_append_right _ member)
  have start : Skips all (garbage ++ wire all) r garbage := ⟨idle, by rw [empty, List.nil_append], words, apart⟩
  rcases run_skips contained start quietFirst first [] (by rw [List.append_nil, stream]) with
    ⟨left, shorter, skips, silent⟩ | ⟨todo, tracks⟩
  · exact calls_skip contained nonempty skips silent (by omega) quietRest rest
  · obtain ⟨todo', tracks', -, progress⟩ := calls_tracks contained tracks (quietRest.throwsIdle u) rest
    refine ⟨todo', tracks', progress.elim (fun less => .inl ?_) id⟩
    obtain ⟨done, parts, -⟩ := tracks.handed
    have lengths := congrArg List.length parts
    rw [List.length_append] at lengths
    exact List.eq_nil_of_length_eq_zero (by omega)

end Skips

theorem packetsOf_delivered {messages : List Message} (small : ∀ m ∈ messages, Small .baseCmd m) :
    (@packetsOf .baseCmd messages fun m present => (small m present).fits).filterMap (Packet.content .baseCmd) =
      delivered messages := by
  induction messages with
  | nil => rfl
  | cons m messages ih =>
    have first := @packetOf_decode .baseCmd m (small m List.mem_cons_self).fits
    have known : Pool.baseCmd.createMessage (Pool.baseCmd.getTypeName m) = some m.fresh := m.createMessage_getTypeName
    rw [if_pos (small m List.mem_cons_self), decode, known, Option.map_some] at first
    have rest := ih fun m present => small m (List.mem_cons_of_mem _ present)
    rw [packetsOf] at rest
    rw [packetsOf, List.pmap_cons, List.filterMap_cons, first, rest]
    rfl

theorem resyncs_of_words {garbage : Bytes} (words : 4 ∣ garbage.length) : Resyncs pl garbage := by
  intro messages nonempty small apart
  have fits : ∀ m ∈ messages, totalOf .baseCmd m < 2 ^ 31 := fun m present => (small m present).fits
  have stream := @wire_packetsOf .baseCmd messages fits
  refine ⟨garbage.length + messages.length, fun r t actions calls events idle empty quiet all enough runs => ?_⟩
  rw [← stream] at apart all
  have some : @packetsOf .baseCmd messages fits ≠ [] := by
    refine List.ne_nil_of_length_pos ?_
    rw [length_packetsOf]
    exact List.length_pos_of_ne_nil nonempty
  obtain ⟨todo, tracks, exhausted⟩ := run_resyncs (fun p => packetsOf_contained) some words apart idle empty quiet all
    (by rw [length_packetsOf]; exact enough) runs
  obtain ⟨done, parts, hands⟩ := tracks.handed
  have nothing : todo = [] := by
    rcases exhausted with nothing | ⟨p, rfl, short⟩
    · exact nothing
    · obtain ⟨m, present, rfl⟩ := mem_packetsOf (tracks.mem List.mem_cons_self)
      have named : 2 ≤ m.getTypeName.length := by cases m <;> exact Nat.le_of_ble_eq_true rfl
      have long := @eight_le_packetOf .baseCmd m (fits m present) named
      omega
  rw [nothing, List.append_nil] at parts
  rw [hands, ← parts, packetsOf_delivered small]

/-! ### Other garbage -/

/-- No word of the stream is the magic. -/
def Blind (stream : Bytes) : Prop := ∀ k, (stream.drop (4 * k)).take 4 ≠ head

theorem Blind.drop {stream : Bytes} (blind : Blind stream) : Blind (stream.drop 4) := by
  intro k
  rw [List.drop_drop, show 4 + 4 * k = 4 * (k + 1) by omega]
  exact blind (k + 1)

def feed (bytes : Bytes) : List (Action P) := bytes.flatMap fun b => [.receive [b], .processRecv silent]

theorem received_feed (bytes : Bytes) : received (feed bytes : List (Action P)) = bytes := by
  induction bytes with
  | nil => rfl
  | cons b bytes ih => exact congrArg (b :: ·) ih

theorem feed_quiet (bytes : Bytes) : QuietRun (feed bytes : List (Action P)) := by
  intro dispatch member
  obtain ⟨b, -, there⟩ := List.mem_flatMap.mp member
  rcases List.mem_pair.mp there with same | same
  · cases same
  · cases same
    exact silent_quiet

theorem call_blind {dispatcher : Option (Dispatch P)} {r : Route} {bytes : Bytes} (idle : r.preRecivesTotalLen = 0)
    (blind : Blind (r.dataStreamReceive ++ bytes)) (few : r.dataStreamReceive.length ≤ 8) :
    let result := processRecv pl P dispatcher r
    result.route.preRecivesTotalLen = 0 ∧ Blind (result.route.dataStreamReceive ++ bytes) ∧
      result.route.dataStreamReceive.length < 8 ∧ dispatched result.events = [] := by
  by_cases short : r.dataStreamReceive.length < 8
  · rw [processRecv_short short]
    exact ⟨idle, blind, short, rfl⟩
  · have other : r.dataStreamReceive.take 4 ≠ head := by
      have front := blind 0
      rwa [Nat.mul_zero, List.drop_zero, List.take_append_of_le_length (by omega)] at front
    rw [processRecv_skip (Int.le_of_eq idle) (Nat.le_of_not_lt short) other]
    refine ⟨rfl, ?_, ?_, rfl⟩
    · show Blind (r.dataStreamReceive.drop 4 ++ bytes)
      rw [← List.drop_append_of_le_length (by omega)]
      exact blind.drop
    · show (r.dataStreamReceive.drop 4).length < 8
      rw [List.length_drop]
      omega

theorem feed_blind {r : Route} {bytes : Bytes} (idle : r.preRecivesTotalLen = 0)
    (blind : Blind (r.dataStreamReceive ++ bytes)) (short : r.dataStreamReceive.length < 8) :
    ∃ t events, (routeMachine pl P).run r (feed bytes) = some (t, events) ∧ dispatched events = [] ∧
      t.dataStreamReceive.length < 8 := by
  induction bytes generalizing r with
  | nil => exact ⟨r, [], rfl, rfl, short⟩
  | cons b bytes ih =>
    have int := pl.int_le
    obtain ⟨u, arrives⟩ := @receive_of_room pl r [b] (by rw [List.length_singleton]; omega) (by
      rw [List.length_singleton]
      omega)
    obtain ⟨⟨temp, rfl⟩, -⟩ := receive_eq arrives
    let u := { r with dataStreamReceive := r.dataStreamReceive ++ [b], tempBuffer := temp }
    have whole : Blind (u.dataStreamReceive ++ bytes) := by
      rwa [← List.singleton_append, ← List.append_assoc] at blind
    have length : u.dataStreamReceive.length = r.dataStreamReceive.length + 1 := List.length_append
    -- With a call after each byte there are never more than eight to look at.
    obtain ⟨zero, rest, few, nothing⟩ := @call_blind pl P (some silent) u bytes idle whole (by omega)
    obtain ⟨t, events, runs, silence, last⟩ := ih zero rest few
    refine ⟨t, [] ++ ((processRecv pl P (some silent) u).events ++ events), ?_, ?_, last⟩
    · refine Machine.run_cons_eq_some.mpr ⟨u, [], _, congrArg (Option.map _) arrives, ?_, rfl⟩
      exact Machine.run_cons_eq_some.mpr ⟨_, _, events, rfl, runs, rfl⟩
    · rw [List.nil_append, dispatched_append, nothing, silence]
      rfl

/-- Behind garbage that ends inside a word, the scan steps over the magic of a move. -/
theorem blind_move {garbage : Bytes} (inside : ¬ 4 ∣ garbage.length)
    (apart : Apart garbage.length (garbage ++ frame .baseCmd (Message.reqMove ⟨0, 0⟩))) :
    Blind (garbage ++ frame .baseCmd (Message.reqMove ⟨0, 0⟩)) := by
  intro k
  rcases Nat.lt_trichotomy (4 * k) garbage.length with before | there | behind
  · exact apart _ before
  · exact absurd ⟨k, there.symm⟩ inside
  · rw [List.drop_append, List.drop_eq_nil_of_le (by omega), List.nil_append]
    exact reqMove_magic_once (by omega)

theorem apart_head {garbage : Bytes} (rest : Bytes) :
    Apart garbage.length (garbage ++ (head ++ rest)) ↔ Apart garbage.length (garbage ++ head) := by
  have four : head.length = 4 := rfl
  have same (i : Nat) (less : i < garbage.length) :
      ((garbage ++ (head ++ rest)).drop i).take 4 = ((garbage ++ head).drop i).take 4 := by
    rw [← List.append_assoc, List.drop_append_of_le_length (by rw [List.length_append]; omega),
      List.take_append_of_le_length (by rw [List.length_drop, List.length_append]; omega)]
  exact forall₂_congr fun i less => by rw [same i less]

/-- The receiver finds the frames again just behind garbage of whole words, apart from garbage that holds a
magic itself. -/
theorem resyncs_iff_words (garbage : Bytes) :
    Resyncs pl garbage ↔ (Apart garbage.length (garbage ++ head) → 4 ∣ garbage.length) := by
  let move : Message := .reqMove ⟨0, 0⟩
  constructor
  · intro resyncs apart
    by_contra inside
    have small : ∀ m ∈ [move], Small .baseCmd m := by decide +kernel
    have stream : [move].flatMap (frame .baseCmd) = frame .baseCmd move := List.append_nil _
    have whole : Apart garbage.length (garbage ++ frame .baseCmd move) := (apart_head _).mpr apart
    obtain ⟨enough, all⟩ := resyncs [move] (List.cons_ne_nil _ _) small (by rw [stream]; exact whole)
    have blind := blind_move inside whole
    obtain ⟨t, events, runs, nothing, short⟩ := @feed_blind pl .baseCmd (Route.new 0 [] []) _ rfl blind (by decide)
    let calls : List (Dispatch .baseCmd) := List.replicate enough silent
    have quiet : QuietRun (feed (garbage ++ frame .baseCmd move) ++ calls.map .processRecv) := by
      intro dispatch member
      rcases List.mem_append.mp member with fed | called
      · exact feed_quiet _ dispatch fed
      · obtain ⟨other, there, same⟩ := List.mem_map.mp called
        cases same
        rw [List.eq_of_mem_replicate there]
        exact silent_quiet
    have one := all _ t (feed (garbage ++ frame .baseCmd move)) calls (events ++ []) rfl rfl quiet
      (by rw [received_feed, stream]) (by rw [List.length_replicate])
      (Machine.run_append_eq_some.mpr ⟨t, events, [], runs, calls_short short calls, rfl⟩)
    rw [List.append_nil, nothing] at one
    exact absurd one (by decide +kernel)
  · intro words messages nonempty small apart
    refine resyncs_of_words (words ?_) messages nonempty small apart
    obtain ⟨m, messages, rfl⟩ := List.exists_cons_of_ne_nil nonempty
    rw [List.flatMap_cons, frame, List.append_assoc] at apart
    exact (apart_head _).mp apart

/-- One stray byte, and the frame behind it is skipped for good. -/
theorem stray_byte_loses_frame :
    let calls : List (Dispatch .baseCmd) := List.replicate 10 silent
    Apart 1 ([0] ++ frame .baseCmd (Message.reqMove ⟨0, 0⟩)) ∧
    ∃ t events,
      (routeMachine .x64 .baseCmd).run (Route.new 0 [] [])
        ([.receive ([0] ++ frame .baseCmd (Message.reqMove ⟨0, 0⟩))] ++ calls.map .processRecv) = some (t, events) ∧
      dispatched events = [] ∧
      ∀ calls : List (Dispatch .baseCmd),
        (routeMachine .x64 .baseCmd).run t (calls.map .processRecv) = some (t, []) := by
  intro calls
  have evaluates : ((routeMachine .x64 .baseCmd).run (Route.new 0 [] [])
      ([.receive ([0] ++ frame .baseCmd (Message.reqMove ⟨0, 0⟩))] ++ calls.map .processRecv)).any
      (fun (t, events) => t.dataStreamReceive.length < 8 ∧ (dispatched events).length = 0) = true := by
    decide +kernel
  obtain ⟨t, events, runs, seen⟩ := Machine.exists_run evaluates
  obtain ⟨short, none⟩ := of_decide_eq_true seen
  refine ⟨by decide +kernel, t, events, runs, List.eq_nil_of_length_eq_zero none, ?_⟩
  exact fun calls => calls_short short calls

end MiniProtobuf
