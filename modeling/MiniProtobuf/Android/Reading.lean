import MiniProtobuf.Android.Format

/-!
# The reads of `Parse`

`Parse` does not look at what `read` returns, and takes its array for filled: a short read is made up
with zeros, and the rest of the frame is then taken for the next one. The two lengths go into array
sizes as they come, and what `parseDynamic` makes of the type name is dereferenced as it comes.
-/

namespace MiniProtobuf
open Wire BaseCmd

variable {P : Pool} {J : JavaRuntime P}

/-! ### Short reads -/

def javaDispatched (log : List (Parsed P)) : List (JavaString × P.Message) :=
  log.filterMap fun
    | .dispatched typeName msg => some (typeName, msg)
    | _ => none

theorem javaDispatched_append (log later : List (Parsed P)) :
    javaDispatched (log ++ later) = javaDispatched log ++ javaDispatched later := List.filterMap_append

/-- The step condition: the five reads of a frame at the front of the stream are granted in full. -/
def ReadsFill (input : JavaInput) (_ : Unit) : Prop :=
  ∀ header body rest : Bytes, 8 + header.length + body.length < 2 ^ 31 → input.stream = frameOf header body ++ rest →
    Granted [4, 4, 4, header.length, body.length] input.grants

theorem parse_empty (J : JavaRuntime P) (grants : List Nat) :
    parse J ⟨[], grants⟩ = (.headNotRight, ⟨[], grants.tail⟩) := by
  have zeros : List.replicate 4 (0 : UInt8) ≠ getBytes headString := by decide
  simp only [parse, JavaInput.read, List.length_nil, Nat.min_zero, List.take_nil, List.nil_append, Nat.sub_zero, ne_eq,
    zeros, not_false_eq_true, if_true, List.drop_nil]

/-- However the grants are spread, calls of `Parse` whose reads are granted in full make of a stream of
frames what calls whose reads are never short make of it. -/
theorem filled_reads_same {sent : List (Bytes × Bytes)} {grants : List Nat} {n : Nat}
    (small : ∀ f ∈ sent, 8 + f.1.length + f.2.length < 2 ^ 31)
    (fills : (parseMachine J).Meets ReadsFill ⟨sent.flatMap fun f => frameOf f.1 f.2, grants⟩ (List.replicate n ())) :
    ∃ left left' log,
      (parseMachine J).run ⟨sent.flatMap fun f => frameOf f.1 f.2, grants⟩ (List.replicate n ()) = some (left, log) ∧
      (parseMachine J).run ⟨sent.flatMap fun f => frameOf f.1 f.2, []⟩ (List.replicate n ()) = some (left', log) ∧
      javaDispatched log = javaDispatched ((sent.take n).map fun f => parsedOf J f.1 f.2) := by
  have step {input next : JavaInput} {parsed : Parsed P} (taken : parse J input = (parsed, next)) :
      (parseMachine J).step input () = some (next, [parsed]) := by
    rw [step_parse, taken]
  induction n generalizing sent grants with
  | zero => exact ⟨_, _, [], rfl, rfl, rfl⟩
  | succ n ih =>
    rw [List.replicate_succ] at fills ⊢
    obtain ⟨first, beyond⟩ := fills
    cases sent with
      -- At the end of the stream the head reads as zeros, and the call gives up after one read.
    | nil =>
      have taken := step (parse_empty J grants)
      obtain ⟨left, left', log, runs, runs', hands⟩ :=
        @ih [] grants.tail (fun _ member => absurd member List.not_mem_nil) (beyond _ _ taken)
      refine ⟨left, left', [.headNotRight] ++ log, ?_, ?_, ?_⟩
      · exact Machine.run_cons_eq_some.mpr ⟨_, _, _, taken, runs, rfl⟩
      · exact Machine.run_cons_eq_some.mpr ⟨_, _, _, step (parse_empty J []), runs', rfl⟩
      · rw [javaDispatched_append, hands, List.take_nil, List.take_nil]
        rfl
    | cons f sent =>
      have fits := small f List.mem_cons_self
      rw [List.flatMap_cons] at first beyond ⊢
      have granted := first _ _ _ fits rfl
      have taken := step (parse_frame J fits (sent.flatMap fun f => frameOf f.1 f.2) granted)
      have full := step (parse_frame J fits (sent.flatMap fun f => frameOf f.1 f.2) (granted_nil _))
      obtain ⟨left, left', log, runs, runs', hands⟩ :=
        ih (fun g member => small g (List.mem_cons_of_mem f member)) (beyond _ _ taken)
      refine ⟨left, left', [parsedOf J f.1 f.2] ++ log, ?_, ?_, ?_⟩
      · exact Machine.run_cons_eq_some.mpr ⟨_, _, _, taken, runs, rfl⟩
      · exact Machine.run_cons_eq_some.mpr ⟨_, _, _, full, runs', rfl⟩
      · rw [javaDispatched_append, hands, ← javaDispatched_append]
        rfl

theorem filled_reads_same_move :
    let m : Pool.baseCmd.Message := Message.reqMove ⟨1, 2⟩
    let stream := frameOf (headerOf .baseCmd m) (Message.serialize m)
    ∃ left left' log, (parseMachine javaBaseCmd).run ⟨stream, [4, 4, 4, 41, 41]⟩ [()] = some (left, log) ∧
      (parseMachine javaBaseCmd).run ⟨stream, []⟩ [()] = some (left', log) ∧ (javaDispatched log).length = 1 := by
  intro m stream
  have whole : stream.length = 41 := by decide +kernel
  have fills : (parseMachine javaBaseCmd).Meets ReadsFill ⟨stream ++ [], [4, 4, 4, 41, 41]⟩ (List.replicate 1 ()) := by
    refine ⟨fun header body rest small same => ?_, fun _ _ _ => trivial⟩
    have lengths := congrArg List.length same
    simp only [List.append_nil, whole, frameOf, List.length_append, length_le32] at lengths
    exact ⟨by decide, by decide, by decide, by omega, by omega, trivial⟩
  obtain ⟨left, left', log, runs, runs', hands⟩ :=
    @filled_reads_same .baseCmd javaBaseCmd [(headerOf .baseCmd m, Message.serialize m)] [4, 4, 4, 41, 41] 1
      (by decide +kernel) fills
  have one : (javaDispatched [parsedOf javaBaseCmd (headerOf .baseCmd m) (Message.serialize m)]).length = 1 := by
    decide +kernel
  refine ⟨left, left', log, (List.append_nil stream) ▸ runs, (List.append_nil stream) ▸ runs', ?_⟩
  rw [hands]
  exact one

/-- The fourth read of a frame comes back with ten of nineteen bytes. With reads that fill their arrays
the message is dispatched; now it never is, and the bytes that were left over are taken for the next
frame. -/
theorem short_read_loses_frame :
    let m : Pool.baseCmd.Message := Message.reqMove ⟨1, 2⟩
    let stream := frame .baseCmd m
    ∃ full short left left', (parseMachine javaBaseCmd).run ⟨stream, []⟩ [(), (), ()] = some (left, full) ∧
      (parseMachine javaBaseCmd).run ⟨stream, [4, 4, 4, 10]⟩ [(), (), ()] = some (left', short) ∧
      WellFormed .baseCmd m ∧ (javaDispatched full).length = 1 ∧ javaDispatched short = [] := by
  intro m stream
  have fills : ((parseMachine javaBaseCmd).run ⟨stream, []⟩ [(), (), ()]).any
      (fun (_, log) => (javaDispatched log).length = 1) = true := by
    decide +kernel
  have shorts : ((parseMachine javaBaseCmd).run ⟨stream, [4, 4, 4, 10]⟩ [(), (), ()]).any
      (fun (_, log) => (javaDispatched log).isEmpty) = true := by
    decide +kernel
  obtain ⟨left, full, runs, one⟩ := Machine.exists_run fills
  obtain ⟨left', short, runs', none⟩ := Machine.exists_run shorts
  exact ⟨full, short, left, left', runs, runs', wellFormed_baseCmd (by decide +kernel) (by decide +kernel),
    of_decide_eq_true one, List.isEmpty_iff.mp none⟩

/-! ### Exceptions -/

def filled (size : Nat) (stream : Bytes) : Bytes := stream.take size ++ List.replicate (size - stream.length) 0

/-- `Parse` declares `IOException`; the others are unchecked. -/
def Parsed.unchecked : Parsed P → Bool
  | .thrown .invalidProtocolBuffer => false
  | .thrown _ => true
  | _ => false

/-- The class that `parseDynamic` asks the loader for. -/
def lookupName (type : JavaString) : JavaString :=
  Pattern.replaceAll (Pattern.literal "class ".toList) [] (protoTypeName2JavaClassName type)

end MiniProtobuf
