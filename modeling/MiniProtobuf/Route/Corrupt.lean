import MiniProtobuf.Route.Framing

/-!
# Corrupt packets

A packet with a false inner head length is refused, but the refusal comes after `ReadRaw` has gone
for the header. When the claimed header ends behind the packet, that read fetches further blocks,
and they belong to the next frame.
-/

namespace MiniProtobuf
open Wire BaseCmd CodedInputStream

variable {pl : Platform} {P : Pool}

/-- Whatever surrounds the packet is decoded and handed over, once each and in order, with nothing but
the content of the packet itself in its place. -/
def Survives (pl : Platform) (P : Pool) (p : Packet) : Prop :=
  ∀ (before after : List P.Message) (r t : Route) (actions : List (Action P)) (calls : List (Dispatch P))
    (events : List (Event P)),
    (∀ m ∈ before ++ after, 2 ≤ (P.getTypeName m).length ∧ Small P m) →
    r.preRecivesTotalLen = 0 → r.dataStreamReceive = [] →
    QuietRun (actions ++ calls.map .processRecv) →
    received actions = before.flatMap (frame P) ++ (p.bytes ++ after.flatMap (frame P)) →
    before.length + 1 + after.length ≤ calls.length →
    (routeMachine pl P).run r (actions ++ calls.map .processRecv) = some (t, events) →
    ∃ own, own <+: (p.content P).toList ∧ dispatched events = decoded P before ++ (own ++ decoded P after)

theorem Packet.Contained.survives {p : Packet} (contained : p.Contained) : Survives pl P p := by
  intro before after r t actions calls events formed idle empty quiet stream enough runs
  have formedBefore := fun m present => formed m (List.mem_append_left after present)
  have formedAfter := fun m present => formed m (List.mem_append_right before present)
  have fitsBefore := fun m present => (formedBefore m present).2.fits
  have fitsAfter := fun m present => (formedAfter m present).2.fits
  let all := packetsOf before fitsBefore ++ p :: packetsOf after fitsAfter
  have wired : received actions = wire all := by
    rw [stream, wire, List.flatMap_append, List.flatMap_cons, ← wire, ← wire, wire_packetsOf, wire_packetsOf]
  have within : ∀ q ∈ all, q.Contained := by
    intro q member
    rcases List.mem_append.mp member with first | second
    · exact packetsOf_contained first
    · rcases List.mem_cons.mp second with rfl | last
      · exact contained
      · exact packetsOf_contained last
  have many : all.length ≤ calls.length := by
    rw [List.length_append, List.length_cons, length_packetsOf, length_packetsOf]
    omega
  obtain ⟨todo, tracks, exhausted⟩ := run_exhausts within idle empty (quiet.throwsIdle r) runs wired many
  obtain ⟨done, parts, hands⟩ := tracks.handed
  rcases exhausted with rfl | ⟨q, rfl, short⟩
  · refine ⟨(p.content P).toList, List.prefix_refl _, ?_⟩
    rw [hands, ← List.append_nil done, ← parts, List.filterMap_append, List.filterMap_cons,
      packetsOf_content, packetsOf_content]
    cases p.content P <;> rfl
  · -- The last packet is too short for the test of eight bytes, so it is none of the frames.
    refine ⟨[], List.nil_prefix, ?_⟩
    rcases List.eq_nil_or_concat after with rfl | ⟨init, m, rfl⟩
    · obtain ⟨same, -⟩ := List.append_inj' (show packetsOf before fitsBefore ++ [p] = done ++ [q] from parts) rfl
      rw [hands, ← same, packetsOf_content]
      exact (List.append_nil _).symm
    · have present : m ∈ init.concat m := by simp
      have split : all = (packetsOf before fitsBefore ++ p :: init.pmap packetOf fun m member =>
        fitsAfter m (by simp [member])) ++
          [packetOf m (fitsAfter m present)] := by
        simp [all, packetsOf]
      obtain ⟨-, same⟩ := List.append_inj' (split.symm.trans parts) rfl
      obtain ⟨rfl, -⟩ := List.cons.inj same
      have long := @eight_le_packetOf P m (fitsAfter m present) (formedAfter m present).1
      omega

/-- A header that ends behind its packet is read into the bytes that follow. -/
theorem overrun_takes {dispatch : Dispatch P} {r : Route} {p : Packet} {rest : Bytes}
    (stream : r.dataStreamReceive = p.payload ++ rest) (overruns : ¬ p.Contained) :
    ∃ n, 4 ≤ n ∧ (processPayload pl P (some dispatch) r p.total).route.dataStreamReceive = rest.drop n ∧
      (processPayload pl P (some dispatch) r p.total).route.preRecivesTotalLen = 0 ∧
      dispatched (processPayload pl P (some dispatch) r p.total).events = [] := by
  have four := p.four_le
  have int := p.int_lt
  obtain ⟨used, behind⟩ := not_or.mp overruns
  have refused : toInt32 ((p.total : Int) - p.headLen - 8) < 0 := by
    unfold tempBufferSize at used
    rw [Packet.total, toInt32_of_range (by omega) (by omega)]
    omega
  obtain ⟨buffer, source, size⟩ := @Packet.opened pl p rest
  rw [processPayload_eq]
  simp only [stream, bodyLenOf, p.lead, used, if_false, refused, true_or, if_true]
  generalize new (p.payload ++ rest) (toInt32 (pl.minusInt p.total)) = cis at buffer source size ⊢
  have rest4 : (cis.pull 4).buffer.length = p.payload.length - 4 := by
    rw [pull_buffer_of_le (by rw [buffer]; exact four), buffer, List.length_drop]
  -- The block is used up inside the header, so `ReadRaw` takes whole blocks of what follows.
  refine ⟨blocks (p.headLen - (cis.pull 4).buffer.length) (cis.pull 4).blockSize * (cis.pull 4).blockSize, ?_, ?_,
    trivial, rfl⟩
  · rw [pull_blockSize, size, rest4, blocks_of_sub (by omega) (by omega), Nat.add_mul, Nat.one_mul]
    omega
  · rw [pull_source, pull_source_of_le (by rw [buffer]; exact four), source]

theorem overrun_loses (pl : Platform) {dispatch : Dispatch P} {p : Packet} {behind : Bytes} (overruns : ¬ p.Contained)
    (room : p.bytes.length + behind.length < 2 ^ 31) (once : ∀ n, 4 ≤ n → (behind.drop n).take 4 ≠ head) :
    ∃ t events,
      (routeMachine pl P).run (Route.new 0 [] [])
        ([.receive (p.bytes ++ behind)] ++ [dispatch, dispatch].map .processRecv) = some (t, events) ∧
      dispatched events = [] := by
  obtain ⟨u, arrives⟩ := @receive_of_room pl (Route.new 0 [] []) (p.bytes ++ behind)
    (by rw [List.length_append]; exact room) (by
    have int := pl.int_le
    rw [List.length_append]
    simp only [Route.new, List.length_nil]
    omega)
  obtain ⟨⟨temp, rfl⟩, -⟩ := receive_eq arrives
  let first := processRecv pl P (some dispatch)
    { Route.new 0 [] [] with dataStreamReceive := [] ++ (p.bytes ++ behind), tempBuffer := temp }
  let second := processRecv pl P (some dispatch) first.route
  have runs : (routeMachine pl P).run (Route.new 0 [] [])
      ([.receive (p.bytes ++ behind)] ++ [dispatch, dispatch].map .processRecv) =
      some (second.route, [] ++ (first.events ++ (second.events ++ []))) := by
    refine Machine.run_cons_eq_some.mpr ⟨_, [], _, congrArg (Option.map _) arrives, ?_, rfl⟩
    exact Machine.run_cons_eq_some.mpr ⟨_, _, _, rfl, Machine.run_cons_eq_some.mpr ⟨_, _, [], rfl, rfl, rfl⟩, rfl⟩
  refine ⟨_, _, runs, ?_⟩
  have opens : first = _ := @processRecv_packet pl P _
    { Route.new 0 [] [] with dataStreamReceive := [] ++ (p.bytes ++ behind), tempBuffer := temp } p behind
    (Int.le_refl 0) rfl
  obtain ⟨n, four, stream, zero, silent⟩ := @overrun_takes pl P dispatch
    { Route.new 0 [] [] with dataStreamReceive := p.payload ++ behind, tempBuffer := temp } p behind rfl overruns
  have firstSilent : dispatched first.events = [] := by rw [opens]; exact silent
  have left : first.route.dataStreamReceive = behind.drop n := by rw [opens]; exact stream
  have idle : first.route.preRecivesTotalLen = 0 := by rw [opens]; exact zero
  -- The second call stands inside the frame behind, where there is no magic.
  have secondSilent : dispatched second.events = [] := by
    by_cases eight : first.route.dataStreamReceive.length < 8
    · simp only [second, processRecv_short eight]
      rfl
    · have other : first.route.dataStreamReceive.take 4 ≠ head := by rw [left]; exact once n four
      simp only [second, processRecv_skip (Int.le_of_eq idle) (Nat.le_of_not_lt eight) other]
      rfl
  rw [List.nil_append, List.append_nil, dispatched_append, firstSilent, secondSilent]
  rfl

theorem reqMove_magic_once {n : Nat} (inside : 0 < n) :
    ((frame .baseCmd (Message.reqMove ⟨0, 0⟩)).drop n).take 4 ≠ head := by
  by_cases short : n < 29
  · have all : ∀ n < 29, 0 < n → ((frame .baseCmd (Message.reqMove ⟨0, 0⟩)).drop n).take 4 ≠ head := by decide +kernel
    exact all n short inside
  · have length : (frame .baseCmd (Message.reqMove ⟨0, 0⟩)).length = 29 := by decide +kernel
    rw [List.drop_eq_nil_of_le (by omega)]
    decide

/-- A packet leaves all its neighbours alone, whatever they are, exactly when its inner head length
is over the limit or ends inside it. -/
theorem survives_iff_contained (p : Packet) : Survives pl .baseCmd p ↔ p.Contained := by
  constructor
  · intro survives
    by_contra overruns
    obtain ⟨used, behind⟩ := not_or.mp overruns
    unfold tempBufferSize at used
    let move : Pool.baseCmd.Message := Message.reqMove ⟨0, 0⟩
    have length : (frame .baseCmd move).length = 29 := by decide +kernel
    have room : p.bytes.length + (frame .baseCmd move).length < 2 ^ 31 := by
      rw [Packet.length_bytes, length]
      omega
    have formed : ∀ m ∈ [move], WellFormed .baseCmd m := by
      intro m member
      obtain rfl := List.mem_singleton.mp member
      exact wellFormed_baseCmd (by decide) (by decide +kernel)
    let calls : List (Dispatch .baseCmd) := [silent, silent]
    have quiet : QuietRun ([.receive (p.bytes ++ frame .baseCmd move)] ++ calls.map .processRecv) := by
      intro dispatch member
      obtain rfl : dispatch = silent := by simpa [calls] using member
      exact silent_quiet
    obtain ⟨t, events, runs, nothing⟩ :=
      @overrun_loses .baseCmd pl silent p _ overruns room fun n four => reqMove_magic_once (by omega)
    obtain ⟨own, -, all⟩ := survives [] [move] _ t _ calls events
      (fun m present => ⟨(formed m present).named, (formed m present).small⟩) rfl rfl quiet (by simp [received])
      (Nat.le_refl 2) runs
    rw [nothing, decoded_of_wellFormed formed] at all
    exact absurd (congrArg List.length all) (by simp [titled])
  · exact fun contained => contained.survives

/-- Twelve bytes that claim a header of five take eight bytes of the next frame with them, and the
rest of it is skipped. -/
theorem corrupt_head_loses_next :
    let corrupt : Bytes := head ++ (le32 8 ++ le32 5)
    let calls : List (Dispatch .baseCmd) := [silent, silent, silent, silent, silent]
    ∃ t events,
      (routeMachine .x64 .baseCmd).run (Route.new 0 [] [])
        ([.receive (corrupt ++ frame .baseCmd (Message.reqMove ⟨0, 0⟩))] ++ calls.map .processRecv) = some (t, events) ∧
      dispatched events = [] ∧
      ∀ calls : List (Dispatch .baseCmd),
        (routeMachine .x64 .baseCmd).run t (calls.map .processRecv) = some (t, []) := by
  intro corrupt calls
  have evaluates : ((routeMachine .x64 .baseCmd).run (Route.new 0 [] [])
      ([.receive (corrupt ++ frame .baseCmd (Message.reqMove ⟨0, 0⟩))] ++ calls.map .processRecv)).any
      (fun (t, events) => t.dataStreamReceive.length < 8 ∧ (dispatched events).length = 0) = true := by
    decide +kernel
  obtain ⟨t, events, runs, seen⟩ := Machine.exists_run evaluates
  obtain ⟨short, none⟩ := of_decide_eq_true seen
  exact ⟨t, events, runs, List.eq_nil_of_length_eq_zero none, fun calls => calls_short short calls⟩

end MiniProtobuf
