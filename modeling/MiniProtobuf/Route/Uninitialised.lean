import MiniProtobuf.Route.Front
import MiniProtobuf.Route.Progress

/-!
# Members that the constructor leaves alone

Two new routes may differ in their pending length and in both temporary buffers. The buffers are never read
before they are written. A pending length that happens to be positive swallows the first bytes that arrive:
`agree_iff_alike` says which values of it can be told apart from outside.
-/

namespace MiniProtobuf
open Wire BaseCmd CodedInputStream

variable {pl : Platform} {P : Pool}

/-- The route as its callers see it: what each `ProcessRecv` hands to `Dispatch`, and what it returns. -/
def callMachine (pl : Platform) (P : Pool) : Machine Route (Action P) (List (Bytes × P.Message) × Bool) where
  step r
    | .receive chunk => (receive pl r chunk).map fun r => (r, [])
    | .processRecv dispatch =>
      let result := processRecv pl P (some dispatch) r
      some (result.route, [(dispatched result.events, result.ret)])

/-- Routes that find these pending lengths in their memory behave alike, whatever the temporary buffers hold. -/
def Agree (pl : Platform) (P : Pool) (pre pre' : Int) : Prop :=
  ∀ temp temp' process process',
    (callMachine pl P).Indistinct (Route.new pre temp process) (Route.new pre' temp' process')

/-- Pending lengths with the same effect: none at all, or one that no buffer can satisfy. -/
def Alike (pre pre' : Int) : Prop :=
  pre = pre' ∨ (pre ≤ 0 ∧ pre' ≤ 0) ∨ (0 < pre ∧ pre < 4) ∧ 0 < pre' ∧ pre' < 4

instance (pre pre' : Int) : Decidable (Alike pre pre') := inferInstanceAs (Decidable (_ ∨ _ ∨ _))

/-! ### Routes that behave alike -/

/-- The temporary buffers are free. -/
structure Related (pl : Platform) (r r' : Route) : Prop where
  stream : r'.dataStreamReceive = r.dataStreamReceive
  alike : Alike r.preRecivesTotalLen r'.preRecivesTotalLen
  room : r.dataStreamReceive.length ≤ pl.maxSize

/-- Two calls that look the same and leave related routes. -/
structure Matches (pl : Platform) (a b : Recv P) : Prop where
  ret : b.ret = a.ret
  dispatched : dispatched b.events = dispatched a.events
  related : Related pl a.route b.route

theorem matches_payload {dispatch : Dispatch P} {r r' : Route} {totalLen : Nat} (related : Related pl r r')
    (word : totalLen < 2 ^ 32) (arrived : pl.minusInt totalLen ≤ r.dataStreamReceive.length) :
    Matches pl (processPayload pl P (some dispatch) r totalLen) (processPayload pl P (some dispatch) r' totalLen) := by
  have shorter : (processPayload pl P (some dispatch) r totalLen).route.dataStreamReceive.length ≤ pl.maxSize := by
    have outline := @processPayload_outline pl P dispatch r totalLen
    exact Nat.le_trans outline.shrinks.1.length_le related.room
  rw [processPayload_eq] at shorter
  rw [processPayload_eq, processPayload_eq, related.stream]
  dsimp only at shorter ⊢
  split
  · rename_i large
    rw [if_pos large] at shorter
    exact ⟨rfl, rfl, rfl, .inl rfl, shorter⟩
  rename_i used
  rw [if_neg used] at shorter
  split
  · rename_i refused
    rw [if_pos refused] at shorter
    exact ⟨rfl, rfl, rfl, .inl rfl, shorter⟩
  rename_i delimited
  rw [if_neg delimited, deliver_eq] at shorter
  -- Both slices have arrived, so nothing stale is left in them.
  obtain ⟨nonneg, -⟩ := not_or.mp delimited
  rw [Int.not_lt] at nonneg
  have limit : tempBufferSize = 1024 := rfl
  have total : (totalLen : Int) - headLenOf r.dataStreamReceive - 8 = bodyLenOf r.dataStreamReceive totalLen :=
    (eq_of_toInt32_nonneg (by omega) (by omega) nonneg).symm
  have need : pl.minusInt totalLen = totalLen - 4 := Platform.minusInt_of_le (by omega) word
  have header : ((r.dataStreamReceive.drop 4).take (headLenOf r.dataStreamReceive)).length =
      headLenOf r.dataStreamReceive := by
    rw [List.length_take, List.length_drop]
    omega
  have body : (((r.dataStreamReceive.drop 4).drop (headLenOf r.dataStreamReceive)).take
      (bodyLenOf r.dataStreamReceive totalLen).toNat).length = (bodyLenOf r.dataStreamReceive totalLen).toNat := by
    rw [List.length_take, List.length_drop, List.length_drop]
    omega
  simp only [take_overwrite header, take_overwrite body, deliver_eq] at shorter ⊢
  refine ⟨rfl, rfl, rfl, ?_, shorter⟩
  dsimp only
  split
  · exact related.alike
  · exact .inl rfl

theorem matches_call {r r' : Route} (related : Related pl r r') (dispatch : Dispatch P) :
    Matches pl (processRecv pl P (some dispatch) r) (processRecv pl P (some dispatch) r') := by
  by_cases positive : 0 < r.preRecivesTotalLen
  · rcases related.alike with same | ⟨none, -⟩ | ⟨small, small'⟩
    · -- The same length is pending.
      rw [processRecv_eq, processRecv_eq, related.stream]
      dsimp only
      rw [← same]
      simp only [positive, if_true]
      split
      · exact ⟨rfl, rfl, related⟩
      split
      · exact ⟨rfl, rfl, related⟩
      · rename_i arrived
        exact matches_payload related (toUInt32_lt _) (Nat.le_of_not_lt arrived)
    · omega
    · rw [processRecv_wedged small.1 small.2 related.room,
        processRecv_wedged small'.1 small'.2 (by rw [related.stream]; exact related.room)]
      exact ⟨rfl, rfl, related⟩
  · have none : ¬ 0 < r'.preRecivesTotalLen := by
      rcases related.alike with same | ⟨-, none⟩ | ⟨small, -⟩ <;> omega
    have shorter (n : Nat) : (r.dataStreamReceive.drop n).length ≤ pl.maxSize :=
      Nat.le_trans (by rw [List.length_drop]; omega) related.room
    rw [processRecv_eq, processRecv_eq, related.stream]
    simp only [positive, none, if_false]
    split
    · exact ⟨rfl, rfl, related⟩
    rename_i eight
    split
    · exact ⟨rfl, rfl, rfl, .inl rfl, shorter 4⟩
    split
    · exact ⟨rfl, rfl, rfl, .inl rfl, shorter 8⟩
    · rename_i arrived
      have opened := @matches_payload pl P dispatch { r with dataStreamReceive := r.dataStreamReceive.drop 8 }
        { r' with dataStreamReceive := r.dataStreamReceive.drop 8 } _ ⟨rfl, related.alike, shorter 8⟩
        (totalLen_lt (Nat.le_of_not_lt eight)) (by rw [List.length_drop]; omega)
      exact ⟨opened.ret, opened.dispatched, opened.related⟩

theorem agree_of_alike {pre pre' : Int} (alike : Alike pre pre') : Agree pl P pre pre' := by
  intro temp temp' process process'
  refine @Machine.indistinct_of_related _ _ _ _ _ _ (Related pl) ?_ ⟨rfl, alike, Nat.zero_le _⟩
  intro r r' a related
  cases a with
  | receive chunk =>
    by_cases room : chunk.length < 2 ^ 31 ∧ r.dataStreamReceive.length + chunk.length ≤ pl.maxSize
    · obtain ⟨t, arrives⟩ := @receive_of_room pl r chunk room.1 room.2
      obtain ⟨t', arrives'⟩ := @receive_of_room pl r' chunk room.1 (by rw [related.stream]; exact room.2)
      refine .inr ⟨t, t', [], congrArg (Option.map _) arrives, congrArg (Option.map _) arrives', ?_⟩
      obtain ⟨⟨temp, rfl⟩, -⟩ := receive_eq arrives
      obtain ⟨⟨temp', rfl⟩, -⟩ := receive_eq arrives'
      exact ⟨by rw [related.stream], related.alike, by rw [List.length_append]; exact room.2⟩
    · have refused : receive pl r chunk = none := if_neg room
      have refused' : receive pl r' chunk = none := if_neg (by rw [related.stream]; exact room)
      exact .inl ⟨congrArg (Option.map _) refused, congrArg (Option.map _) refused'⟩
  | processRecv dispatch =>
    have same := @matches_call pl P r r' related dispatch
    refine .inr ⟨_, _, _, rfl, ?_, same.related⟩
    simp only [callMachine, same.dispatched, same.ret]

/-! ### Experiments -/

theorem ret_iff_frames (dispatch : Dispatch P) (r : Route) :
    (processRecv pl P (some dispatch) r).ret = true ↔ frames (processRecv pl P (some dispatch) r).events ≠ [] := by
  have payload (r : Route) (totalLen : Nat) : (processPayload pl P (some dispatch) r totalLen).ret = true ↔
      frames (processPayload pl P (some dispatch) r totalLen).events ≠ [] := by
    rw [processPayload_eq]
    dsimp only
    split
    · exact ⟨nofun, fun some => absurd rfl some⟩
    split
    · exact ⟨nofun, fun some => absurd rfl some⟩
    · rw [deliver_eq]
      exact ⟨fun _ => List.cons_ne_nil _ _, fun _ => rfl⟩
  rcases @processRecv_cases pl P (some dispatch) r with eq | ⟨pending, rest, eq⟩ | ⟨totalLen, eq⟩ | ⟨totalLen, rest, eq⟩
  · rw [eq]
    exact ⟨nofun, fun some => absurd rfl some⟩
  · rw [eq]
    exact ⟨nofun, fun some => absurd rfl some⟩
  · rw [eq]
    exact payload r totalLen
  · rw [eq]
    exact payload { r with dataStreamReceive := rest } totalLen

theorem ret_iff_front {dispatch : Dispatch P} {r : Route} (int : r.preRecivesTotalLen < 2 ^ 31) :
    (processRecv pl P (some dispatch) r).ret = true ↔ ∃ p rest slices, Front r p rest ∧ p.slices = some slices := by
  rw [ret_iff_frames]
  constructor
  · intro some
    obtain ⟨slices, framed⟩ := List.exists_mem_of_ne_nil _ some
    obtain ⟨p, rest, front, sliced⟩ := exists_front int framed
    exact ⟨p, rest, slices, front, sliced⟩
  · rintro ⟨p, rest, slices, front, sliced⟩
    have opened := @Front.processRecv pl P r p rest front (Packet.contained_of_slices sliced) dispatch
    rw [opened.slices, sliced]
    exact List.cons_ne_nil _ _

def zeros (n : Nat) : Bytes := List.replicate n 0

theorem length_zeros (n : Nat) : (zeros n).length = n := List.length_replicate

theorem zeros_append (m n : Nat) : zeros m ++ zeros n = zeros (m + n) := List.replicate_append_replicate

theorem take_zeros {n : Nat} (four : 4 ≤ n) : (zeros n).take 4 = zeros 4 := by
  rw [zeros, List.take_replicate, Nat.min_eq_left four]
  rfl

/-- A packet that claims an empty header. -/
def zeroPacket (n : Nat) (four : 4 ≤ n) (int : n + 4 < 2 ^ 31) : Packet where
  payload := zeros n
  four_le := by rw [length_zeros]; exact four
  int_lt := by rw [length_zeros]; exact int

theorem headLen_eq (p : Packet) (rest : Bytes) : p.headLen = ofLe ((p.payload ++ rest).take 4) := by
  rw [List.take_append_of_le_length p.four_le]
  rfl

/-- What a pending length needs, for a call to return true. -/
theorem pending_of_ret {dispatch : Dispatch P} {r : Route} (positive : 0 < r.preRecivesTotalLen)
    (int : r.preRecivesTotalLen < 2 ^ 31) (returns : (processRecv pl P (some dispatch) r).ret = true) :
    8 ≤ r.preRecivesTotalLen ∧ r.preRecivesTotalLen ≤ r.dataStreamReceive.length + 4 ∧
      ofLe (r.dataStreamReceive.take 4) ≤ 1024 ∧ r.preRecivesTotalLen ≤ ofLe (r.dataStreamReceive.take 4) + 1032 := by
  obtain ⟨p, rest, slices, front, sliced⟩ := (ret_iff_front int).mp returns
  rcases front.stands with ⟨idle, -⟩ | ⟨pending, stream⟩
  · omega
  have four := p.four_le
  rw [pending, Packet.total, stream, ← headLen_eq, List.length_append]
  unfold Packet.slices at sliced
  split at sliced
  · rename_i bounds
    unfold tempBufferSize at bounds
    omega
  · cases sliced

theorem front_zeros {r : Route} {s n : Nat} (pending : r.preRecivesTotalLen = s)
    (stream : r.dataStreamReceive = zeros n)
    (least : 8 ≤ s) (int : s < 2 ^ 31) (eight : 8 ≤ n) (arrived : s - 4 ≤ n) :
    Front r (zeroPacket (s - 4) (by omega) (by omega)) (zeros (n - (s - 4))) := by
  refine ⟨by rw [stream, length_zeros]; exact eight, .inr ⟨?_, ?_⟩⟩
  · rw [pending, Packet.total, zeroPacket, length_zeros]
    omega
  · show r.dataStreamReceive = zeros (s - 4) ++ zeros (n - (s - 4))
    rw [stream, zeros_append, Nat.add_sub_cancel' arrived]

theorem zeroPacket_headLen {n : Nat} (four : 4 ≤ n) (int : n + 4 < 2 ^ 31) : (zeroPacket n four int).headLen = 0 := by
  have first := take_zeros four
  rw [headLen_eq _ [], List.append_nil, zeroPacket, first]
  rfl

theorem zeroPacket_contained {n : Nat} (four : 4 ≤ n) (int : n + 4 < 2 ^ 31) : (zeroPacket n four int).Contained := by
  refine .inr ?_
  rw [zeroPacket_headLen, zeroPacket, length_zeros]
  omega

theorem zeroPacket_slices {n : Nat} (four : 4 ≤ n) (int : n + 4 < 2 ^ 31) (small : n ≤ 1028) :
    ∃ slices, (zeroPacket n four int).slices = some slices := by
  refine ⟨_, if_pos ?_⟩
  rw [zeroPacket_headLen, zeroPacket, length_zeros, tempBufferSize]
  omega

theorem call_zeros {r : Route} {s n : Nat} (pending : r.preRecivesTotalLen = s) (stream : r.dataStreamReceive = zeros n)
    (least : 8 ≤ s) (int : s < 2 ^ 31) (eight : 8 ≤ n) (arrived : s - 4 ≤ n) :
    let result := processRecv pl P (some silent) r
    result.route.preRecivesTotalLen = 0 ∧ result.route.dataStreamReceive = zeros (n - (s - 4)) ∧
      (s ≤ 1032 → result.ret = true) := by
  have front := front_zeros pending stream least int eight arrived
  have opened := @Front.processRecv pl P _ _ _ front (zeroPacket_contained _ _) silent
  refine ⟨?_, opened.stream, fun small => ?_⟩
  · rw [opened.pending, silent_quiet.handledOf]
    rfl
  · obtain ⟨slices, sliced⟩ := zeroPacket_slices (n := s - 4) (by omega) (by omega) (by omega)
    exact (ret_iff_front (by omega)).mpr ⟨_, _, slices, front, sliced⟩

def tiny : Packet := zeroPacket 4 (by decide) (by decide)

/-- Zeros in front of it are skipped, if they are not too many and not too few. -/
theorem call_skips {r : Route} {j : Nat} (idle : r.preRecivesTotalLen = 0) (some : 0 < j) (few : j ≤ 4)
    (stream : r.dataStreamReceive = zeros j ++ tiny.bytes) :
    let result := processRecv pl P (Option.some silent) r
    result.route.preRecivesTotalLen = 0 ∧ result.route.dataStreamReceive = (zeros j ++ tiny.bytes).drop 4 ∧
      result.ret = false := by
  have other : ∀ j ≤ 4, 0 < j → (zeros j ++ tiny.bytes).take 4 ≠ head := by decide
  have length : tiny.bytes.length = 12 := rfl
  rw [processRecv_skip (Int.le_of_eq idle) (by rw [stream, List.length_append, length]; omega)
    (by rw [stream]; exact other j few some)]
  refine ⟨rfl, ?_, rfl⟩
  show r.dataStreamReceive.drop 4 = _
  rw [stream]

theorem call_tiny {r : Route} (idle : r.preRecivesTotalLen ≤ 0) (stream : r.dataStreamReceive = tiny.bytes) :
    (processRecv pl P (some silent) r).ret = true := by
  obtain ⟨slices, sliced⟩ := zeroPacket_slices (n := 4) (by decide) (by decide) (by decide)
  have front : Front r tiny [] := ⟨by rw [stream]; decide, .inl ⟨idle, by rw [stream, List.append_nil]⟩⟩
  exact (ret_iff_front (Int.lt_of_le_of_lt idle (Int.pow_pos (by decide)))).mpr ⟨tiny, [], slices, front, sliced⟩

section Games

variable {r r' : Route}

theorem indistinct_receive {chunk : Bytes} (same : (callMachine pl P).Indistinct r r')
    (room : r.dataStreamReceive.length + chunk.length < 2 ^ 31) :
    ∃ t t', (callMachine pl P).Indistinct t t' ∧
      (t.preRecivesTotalLen = r.preRecivesTotalLen ∧ t.dataStreamReceive = r.dataStreamReceive ++ chunk) ∧
      (t'.preRecivesTotalLen = r'.preRecivesTotalLen ∧ t'.dataStreamReceive = r'.dataStreamReceive ++ chunk ∧
        t'.dataStreamReceive.length ≤ pl.maxSize) := by
  have int := pl.int_le
  obtain ⟨t, arrives⟩ := @receive_of_room pl r chunk (by omega) (by omega)
  have taken : (callMachine pl P).step r (.receive chunk) = some (t, []) := congrArg (Option.map _) arrives
  obtain ⟨t', taken', next⟩ := same.step taken
  obtain ⟨u, arrives', eq⟩ := Option.map_eq_some_iff.mp taken'
  obtain ⟨⟨temp, rfl⟩, -⟩ := receive_eq arrives
  obtain ⟨⟨temp', rfl⟩, -, fits⟩ := receive_eq arrives'
  cases eq
  exact ⟨_, _, next, ⟨rfl, rfl⟩, rfl, rfl, by rw [List.length_append]; exact fits⟩

theorem indistinct_call (same : (callMachine pl P).Indistinct r r') :
    let a := processRecv pl P (some silent) r
    let b := processRecv pl P (some silent) r'
    b.ret = a.ret ∧ (callMachine pl P).Indistinct a.route b.route := by
  obtain ⟨t', taken', next⟩ := same.step (a := .processRecv silent) rfl
  have eq := Option.some.inj taken'
  refine ⟨?_, ?_⟩
  · exact (congrArg (fun x => (x.2.map Prod.snd).headD false) eq)
  · rw [show (processRecv pl P (some silent) r').route = t' from congrArg Prod.fst eq]
    exact next

/-- Idle routes with unequal rests of zeros: what is in step for the one is not for the other. -/
theorem distinct_rests {m n : Nat} (idle : r.preRecivesTotalLen = 0) (stream : r.dataStreamReceive = zeros m)
    (idle' : r'.preRecivesTotalLen = 0) (stream' : r'.dataStreamReceive = zeros n) (less : m < n) (few : n ≤ 4) :
    ¬ (callMachine pl P).Indistinct r r' := by
  intro same
  have length : tiny.bytes.length = 12 := rfl
  obtain ⟨t, t', same, ⟨zero, bytes⟩, zero', bytes', -⟩ :=
    @indistinct_receive pl P r r' (zeros (4 - n) ++ tiny.bytes) same
    (by rw [stream, List.length_append, length_zeros, length_zeros, length]; omega)
  rw [idle] at zero
  rw [idle'] at zero'
  rw [stream, ← List.append_assoc, zeros_append] at bytes
  rw [stream', ← List.append_assoc, zeros_append, Nat.add_sub_cancel' few] at bytes'
  obtain ⟨ret, same⟩ := indistinct_call same
  obtain ⟨zero₁', bytes₁', false'⟩ := @call_skips pl P t' 4 zero' (by decide) (Nat.le_refl 4) bytes'
  -- The second route has a word of zeros to skip. The first has less, and takes the packet at once
  -- or steps into it.
  by_cases whole : m + (4 - n) = 0
  · rw [whole] at bytes
    rw [call_tiny (Int.le_of_eq zero) bytes, false'] at ret
    cases ret
  · obtain ⟨zero₁, bytes₁, -⟩ := @call_skips pl P t _ zero (by omega) (by omega) bytes
    obtain ⟨ret, -⟩ := indistinct_call same
    have other : ∀ j < 4, 0 < j → ((zeros j ++ tiny.bytes).drop 4).take 4 ≠ head := by decide
    rw [call_tiny (Int.le_of_eq zero₁') bytes₁', processRecv_skip (Int.le_of_eq zero₁)
      (by rw [bytes₁, List.length_drop, List.length_append, length]; omega)
      (by rw [bytes₁]; exact other _ (by omega) (by omega))] at ret
    cases ret

/-- An idle route with a rest of zeros, and one that goes on waiting. -/
theorem distinct_waiting {m : Nat} (idle : r.preRecivesTotalLen = 0) (stream : r.dataStreamReceive = zeros m)
    (few : m ≤ 4) (waits : ∀ t : Route, t.preRecivesTotalLen = r'.preRecivesTotalLen →
      t.dataStreamReceive.length = r'.dataStreamReceive.length + (16 - m) → t.dataStreamReceive.length ≤ pl.maxSize →
      processRecv pl P (some silent) t = ⟨t, false, []⟩) : ¬ (callMachine pl P).Indistinct r r' := by
  intro same
  have length : tiny.bytes.length = 12 := rfl
  obtain ⟨t, t', same, ⟨zero, bytes⟩, pending', bytes', fits⟩ :=
    @indistinct_receive pl P r r' (zeros (4 - m) ++ tiny.bytes)
    same (by rw [stream, List.length_append, length_zeros, length_zeros, length]; omega)
  rw [idle] at zero
  rw [stream, ← List.append_assoc, zeros_append, Nat.add_sub_cancel' few] at bytes
  have stays := waits t' pending' (by
    rw [bytes', List.length_append, List.length_append, length_zeros, length]; omega) fits
  obtain ⟨zero₁, bytes₁, -⟩ := @call_skips pl P t 4 zero (by decide) (Nat.le_refl 4) bytes
  obtain ⟨-, same⟩ := indistinct_call same
  rw [stays] at same
  obtain ⟨ret, -⟩ := indistinct_call same
  rw [call_tiny (Int.le_of_eq zero₁) bytes₁, stays] at ret
  cases ret

/-! ### Lengths that can be told apart -/

/-- What a total length below eight leaves of eight bytes, which end in zeros: a block is shorter than a word. -/
def restOf (headLen s : Nat) : Bytes := (((new (le32 headLen ++ zeros 4) (s - 4 : Int)).pull 4).pull headLen).source

theorem call_small {s headLen : Nat} (pending : r.preRecivesTotalLen = s) (least : 4 ≤ s) (small : s < 8)
    (used : headLen ≤ 1024) (stream : r.dataStreamReceive = le32 headLen ++ zeros 4) :
    let result := processRecv pl P (some silent) r
    result.route.preRecivesTotalLen = 0 ∧ result.route.dataStreamReceive = restOf headLen s := by
  have total := toUInt32_pending pending (by omega)
  have need : pl.minusInt s = s - 4 := Platform.minusInt_of_le least (by omega)
  have length : r.dataStreamReceive.length = 8 := by rw [stream, List.length_append, length_le32, length_zeros]
  have lead : headLenOf r.dataStreamReceive = headLen := by
    rw [headLenOf, if_pos (by omega), stream, List.take_left' (length_le32 _), ofLe_le32 (by omega)]
  have refused : bodyLenOf r.dataStreamReceive s < 0 := by
    rw [bodyLenOf, lead, toInt32_of_range (by omega) (by omega)]
    omega
  have block : toInt32 ((s - 4 : Nat) : Int) = (s : Int) - 4 := by
    rw [toInt32_of_range (by omega) (by omega)]
    omega
  have within : ¬ tempBufferSize < headLen := by unfold tempBufferSize; omega
  rw [processRecv_arrived (by omega) (by omega) (by rw [total, need]; omega), total, processPayload_eq]
  rw [stream] at lead refused
  simp only [stream, lead, within, if_false, refused, true_or, if_true, need, block, restOf]
  exact ⟨trivial, trivial⟩

/-- A route that has received nothing and waits for a packet of `s` bytes. -/
structure Awaits (r : Route) (s : Nat) : Prop where
  pending : r.preRecivesTotalLen = s
  empty : r.dataStreamReceive = []
  positive : 0 < s
  int : s < 2 ^ 31

variable {s s' : Nat}

/-- A length that nothing can satisfy, or one that this much does not satisfy. -/
theorem Awaits.waits {dispatcher : Option (Dispatch P)} {t : Route} (awaits : Awaits r s)
    (pending : t.preRecivesTotalLen = r.preRecivesTotalLen) (bound : t.dataStreamReceive.length ≤ pl.maxSize)
    (unmet : t.dataStreamReceive.length + 4 < s ∨ s < 4) : processRecv pl P dispatcher t = ⟨t, false, []⟩ := by
  have positive := awaits.positive
  rw [awaits.pending] at pending
  rcases Nat.lt_or_ge s 4 with small | least
  · exact processRecv_wedged (by omega) (by omega) bound
  · exact processRecv_unmet pending least awaits.int (by omega)

theorem distinct_opened (awaits : Awaits r s) (awaits' : Awaits r' s') (least : 8 ≤ s) (most : s ≤ 1032)
    (other : s' < 8 ∨ 12 < s' ∧ s < s') : ¬ (callMachine pl P).Indistinct r r' := by
  intro same
  have positive' := awaits'.positive
  have int' := awaits'.int
  obtain ⟨t, t', same, ⟨pending, stream⟩, pending', stream', -⟩ :=
    @indistinct_receive pl P r r' (zeros (max 8 (s - 4))) same
    (by rw [awaits.empty, length_zeros, List.length_nil]; omega)
  rw [awaits.pending] at pending
  rw [awaits.empty, List.nil_append] at stream
  rw [awaits'.pending] at pending'
  rw [awaits'.empty, List.nil_append] at stream'
  -- The zeros are a packet for the first route. The second cannot return true on them: its length
  -- is below eight, or they are not enough for it.
  obtain ⟨ret, -⟩ := indistinct_call same
  obtain ⟨-, -, returns⟩ := @call_zeros pl P t s _ pending stream least awaits.int (by omega) (by omega)
  obtain ⟨enough, arrived, -, -⟩ := pending_of_ret (by omega) (by omega) (ret.trans (returns most))
  rw [stream', length_zeros] at arrived
  omega

theorem distinct_refused (awaits : Awaits r s) (awaits' : Awaits r' s') (large : 1032 < s)
    (other : s < s' ∨ s' < 4) : ¬ (callMachine pl P).Indistinct r r' := by
  intro same
  have int := awaits.int
  have positive' := awaits'.positive
  have int' := awaits'.int
  obtain ⟨t, t', same, ⟨pending, stream⟩, pending', stream', fits⟩ := @indistinct_receive pl P r r' (zeros (s - 4)) same
    (by rw [awaits.empty, length_zeros, List.length_nil]; omega)
  rw [awaits.pending] at pending
  rw [awaits.empty, List.nil_append] at stream
  rw [awaits'.empty, List.nil_append] at stream'
  obtain ⟨idle, rest, -⟩ := @call_zeros pl P t s _ pending stream (by omega) int (by omega) (Nat.le_refl _)
  rw [Nat.sub_self] at rest
  obtain ⟨-, same⟩ := indistinct_call same
  rw [awaits'.waits pending' fits (by rw [stream', length_zeros]; omega)] at same
  -- The zeros were refused as a body and are gone; the first route is idle, and takes a new packet.
  obtain ⟨u, u', same, ⟨pending₁, stream₁⟩, pending₁', stream₁', -⟩ := @indistinct_receive pl P _ t' tiny.bytes same
    (by rw [rest]; decide)
  rw [idle] at pending₁
  rw [rest] at stream₁
  rw [pending', awaits'.pending] at pending₁'
  obtain ⟨ret, -⟩ := indistinct_call same
  obtain ⟨enough, -, -, limit⟩ := pending_of_ret (by omega) (by omega)
    (ret.trans (call_tiny (Int.le_of_eq pending₁) stream₁))
  have zero : ofLe (u'.dataStreamReceive.take 4) = 0 := by
    rw [stream₁', stream', List.take_append_of_le_length (by rw [length_zeros]; omega), take_zeros (by omega)]
    rfl
  omega

theorem restOf_small : ∀ headLen ∈ [0, 3], ∀ s ∈ [4, 5, 6, 7], ∃ m ≤ 4, restOf headLen s = zeros m := by decide

theorem restOf_differs : ∀ s ∈ [4, 5, 6, 7], ∀ s' ∈ [4, 5, 6, 7], s ≠ s' →
    ∃ headLen ∈ [0, 3], restOf headLen s ≠ restOf headLen s' := by decide

theorem mem_small (least : 4 ≤ s) (small : s < 8) : s ∈ [4, 5, 6, 7] := by
  simp only [List.mem_cons, List.not_mem_nil, or_false]
  omega

theorem distinct_small (awaits : Awaits r s) (awaits' : Awaits r' s') (least : 4 ≤ s) (small : s < 8)
    (other : 1032 < s' ∨ s' < 4) : ¬ (callMachine pl P).Indistinct r r' := by
  intro same
  obtain ⟨t, t', same, ⟨pending, stream⟩, pending', stream', fits⟩ :=
    @indistinct_receive pl P r r' (le32 0 ++ zeros 4) same
    (by rw [awaits.empty]; decide)
  rw [awaits.pending] at pending
  rw [awaits.empty, List.nil_append] at stream
  rw [awaits'.empty, List.nil_append] at stream'
  have length : t'.dataStreamReceive.length = 8 := by rw [stream']; rfl
  obtain ⟨idle, rest⟩ := @call_small pl P t s 0 pending least small (by decide) stream
  obtain ⟨m, few, same₀⟩ := restOf_small 0 (by decide) s (mem_small least small)
  rw [same₀] at rest
  obtain ⟨-, same⟩ := indistinct_call same
  rw [awaits'.waits pending' fits (by omega)] at same
  dsimp only at same
  refine distinct_waiting idle rest few (fun u pending₁ length₁ fits₁ => ?_) same
  exact awaits'.waits (pending₁.trans pending') fits₁ (by omega)

theorem distinct_both_small (awaits : Awaits r s) (awaits' : Awaits r' s') (least : 4 ≤ s) (small : s < 8)
    (least' : 4 ≤ s') (small' : s' < 8) (differ : s ≠ s') : ¬ (callMachine pl P).Indistinct r r' := by
  intro same
  obtain ⟨headLen, used, unequal⟩ := restOf_differs s (mem_small least small) s' (mem_small least' small') differ
  have limit : headLen ≤ 1024 := by
    simp only [List.mem_cons, List.not_mem_nil, or_false] at used
    omega
  obtain ⟨t, t', same, ⟨pending, stream⟩, pending', stream', -⟩ :=
    @indistinct_receive pl P r r' (le32 headLen ++ zeros 4) same
      (by rw [awaits.empty, List.length_append, length_le32, length_zeros]; decide)
  rw [awaits.pending] at pending
  rw [awaits.empty, List.nil_append] at stream
  rw [awaits'.pending] at pending'
  rw [awaits'.empty, List.nil_append] at stream'
  obtain ⟨idle, rest⟩ := @call_small pl P t s headLen pending least small limit stream
  obtain ⟨idle', rest'⟩ := @call_small pl P t' s' headLen pending' least' small' limit stream'
  obtain ⟨m, few, zero⟩ := restOf_small headLen used s (mem_small least small)
  obtain ⟨n, few', zero'⟩ := restOf_small headLen used s' (mem_small least' small')
  rw [zero, zero'] at unequal
  rw [zero] at rest
  rw [zero'] at rest'
  obtain ⟨-, same⟩ := indistinct_call same
  rcases Nat.lt_trichotomy m n with less | equal | less
  · exact distinct_rests idle rest idle' rest' less few' same
  · exact unequal (by rw [equal])
  · exact distinct_rests idle' rest' idle rest less few same.symm

theorem distinct_both_opened (awaits : Awaits r s) (awaits' : Awaits r' s') (least : 8 ≤ s) (less : s < s')
    (most : s' ≤ 12) : ¬ (callMachine pl P).Indistinct r r' := by
  intro same
  obtain ⟨t, t', same, ⟨pending, stream⟩, pending', stream', -⟩ := @indistinct_receive pl P r r' (zeros 8) same
    (by rw [awaits.empty]; decide)
  rw [awaits.pending] at pending
  rw [awaits.empty, List.nil_append] at stream
  rw [awaits'.pending] at pending'
  rw [awaits'.empty, List.nil_append] at stream'
  obtain ⟨idle, rest, -⟩ := @call_zeros pl P t s 8 pending stream least awaits.int (Nat.le_refl 8) (by omega)
  obtain ⟨idle', rest', -⟩ := @call_zeros pl P t' s' 8 pending' stream' (by omega) awaits'.int (Nat.le_refl 8)
    (by omega)
  obtain ⟨-, same⟩ := indistinct_call same
  exact distinct_rests idle' rest' idle rest (by omega) (by omega) same.symm

/-- Of two positive lengths that are not both below four, the smaller or the larger can be satisfied while
the other still waits, or both leave different rests. -/
theorem distinct_of_lt (awaits : Awaits r s) (awaits' : Awaits r' s') (less : s < s') (some : 4 ≤ s') :
    ¬ (callMachine pl P).Indistinct r r' := by
  rcases Nat.lt_or_ge s' 8 with small' | least'
  · rcases Nat.lt_or_ge s 4 with tiny | least
    · exact fun same => distinct_small awaits' awaits some small' (.inr tiny) same.symm
    · exact distinct_both_small awaits awaits' least (by omega) some small' (by omega)
  rcases Nat.lt_or_ge 1032 s' with large' | most'
  · rcases Nat.lt_or_ge s 4 with tiny | least
    · exact fun same => distinct_refused awaits' awaits large' (.inr tiny) same.symm
    rcases Nat.lt_or_ge s 8 with small | least₁
    · exact distinct_small awaits awaits' least small (.inl large')
    rcases Nat.lt_or_ge 1032 s with large | most
    · exact distinct_refused awaits awaits' large (.inl less)
    · exact distinct_opened awaits awaits' least₁ most (.inr ⟨by omega, less⟩)
  · rcases Nat.lt_or_ge s 8 with small | least
    · exact fun same => distinct_opened awaits' awaits least' most' (.inl small) same.symm
    rcases Nat.lt_or_ge 12 s' with many | few
    · exact distinct_opened awaits awaits' least (by omega) (.inr ⟨many, less⟩)
    · exact distinct_both_opened awaits awaits' least less few

/-- A pending length swallows what a new route takes for a packet. -/
theorem distinct_idle (awaits : Awaits r s) (idle : r'.preRecivesTotalLen ≤ 0) (empty : r'.dataStreamReceive = []) :
    ¬ (callMachine pl P).Indistinct r r' := by
  intro same
  have positive := awaits.positive
  have int := awaits.int
  obtain ⟨t, t', same, ⟨pending, stream⟩, pending', stream', -⟩ := @indistinct_receive pl P r r' tiny.bytes same
    (by rw [awaits.empty]; decide)
  rw [awaits.pending] at pending
  rw [awaits.empty, List.nil_append] at stream
  rw [empty, List.nil_append] at stream'
  obtain ⟨ret, -⟩ := indistinct_call same
  have returns := ret.symm.trans (call_tiny (by rw [pending']; exact idle) stream')
  obtain ⟨-, -, used, -⟩ := pending_of_ret (by omega) (by omega) returns
  rw [stream] at used
  exact absurd used (by decide)

end Games

/-- Which contents of the pending length cannot be told apart, whatever the temporary buffers hold. -/
theorem agree_iff_alike {pre pre' : Int} (int : pre < 2 ^ 31) (int' : pre' < 2 ^ 31) :
    Agree pl P pre pre' ↔ Alike pre pre' := by
  have awaits {pre : Int} (positive : 0 < pre) (int : pre < 2 ^ 31) : Awaits (Route.new pre [] []) pre.toNat :=
    ⟨(Int.toNat_of_nonneg (Int.le_of_lt positive)).symm, rfl, by omega, by omega⟩
  refine ⟨fun agree => ?_, agree_of_alike⟩
  have same := agree [] [] [] []
  by_contra unlike
  unfold Alike at unlike
  rcases Int.lt_or_le 0 pre with positive | idle <;> rcases Int.lt_or_le 0 pre' with positive' | idle'
  · have first := awaits positive int
    have second := awaits positive' int'
    rcases Int.lt_trichotomy pre pre' with less | equal | less
    · exact distinct_of_lt first second (by omega) (by omega) same
    · exact unlike (.inl equal)
    · exact distinct_of_lt second first (by omega) (by omega) same.symm
  · exact distinct_idle (awaits positive int) idle' rfl same
  · exact distinct_idle (awaits positive' int') idle rfl same.symm
  · exact unlike (.inr (.inl ⟨idle, idle'⟩))

/-- Nothing pending is like a negative length, and not like one of a hundred. -/
theorem agree_iff_alike_zero : Agree .x64 .baseCmd 0 (-1) ∧ ¬ Agree .x64 .baseCmd 0 100 :=
  ⟨(agree_iff_alike (by decide) (by decide)).mpr (by decide),
    fun agree => absurd ((agree_iff_alike (by decide) (by decide)).mp agree) (by decide)⟩

/-- The first frame is dispatched by a route that starts at zero, and not by one that starts at a hundred. -/
theorem stale_pending_loses_frame :
    let actions : List (Action .baseCmd) := [.receive (frame .baseCmd (Message.reqMove ⟨0, 0⟩)), .processRecv silent]
    ∃ t t',
      (callMachine .x64 .baseCmd).run (Route.new 0 [] []) actions =
        some (t, [([(ascii "BaseCmd.reqMove", .reqMove ⟨0, 0⟩)], true)]) ∧
      (callMachine .x64 .baseCmd).run (Route.new 100 [] []) actions = some (t', [([], false)]) := by
  intro actions
  have evaluates : ((callMachine .x64 .baseCmd).run (Route.new 0 [] []) actions).any
      (fun (_, seen) => seen = [([(ascii "BaseCmd.reqMove", .reqMove ⟨0, 0⟩)], true)]) = true := by
    decide +kernel
  have evaluates' : ((callMachine .x64 .baseCmd).run (Route.new 100 [] []) actions).any
      (fun (_, seen) => seen = [([], false)]) = true := by
    decide +kernel
  obtain ⟨t, seen, runs, same⟩ := Machine.exists_run evaluates
  obtain ⟨t', seen', runs', same'⟩ := Machine.exists_run evaluates'
  exact ⟨t, t', by rw [runs, of_decide_eq_true same], by rw [runs', of_decide_eq_true same']⟩

end MiniProtobuf
