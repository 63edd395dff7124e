import MiniProtobuf.Android.Format

/-!
# The receiving thread of the Android client

`ConnectAndProcess` calls `Parse` until an exception ends the thread. `Parse` hands what it made to the dispatcher under
the name of its class, and the processors cast it to the class that they are registered for. What a processor shows is
the text that it broadcasts. The classes are generated when the app is built: they are a parameter, as the runtime is.
-/

namespace MiniProtobuf
open Wire BaseCmd Machine

namespace Android

/-! ### The response classes -/

/-- What the client uses of the generated classes. A cast has no result when it throws. -/
structure Responses (P : Pool) where
  /-- `Cmd.rspSignin.newBuilder().build()`. -/
  rspSignin : P.Message
  /-- `Cmd.rspMove.newBuilder().build()`. -/
  rspMove : P.Message
  /-- Whether the cast to `GeneratedMessageLite` succeeds. -/
  isLite : P.Message → Bool
  /-- The cast to `Cmd.rspSignin`, with `getName` and `getSucc`. -/
  toSignin : P.Message → Option (JavaString × Bool)
  /-- The cast to `Cmd.rspMove`, with `getError`. -/
  toMove : P.Message → Option JavaString

/-- The two are different final classes below `GeneratedMessageLite`: an object can be cast to one of them just when
its class has that name. -/
structure Responses.Lawful {P : Pool} (R : Responses P) (J : JavaRuntime P) : Prop where
  apart : J.getName R.rspSignin ≠ J.getName R.rspMove
  signin : ∀ m, (R.toSignin m).isSome ↔ J.getName m = J.getName R.rspSignin
  move : ∀ m, (R.toMove m).isSome ↔ J.getName m = J.getName R.rspMove
  lite : ∀ m, (R.toSignin m).isSome ∨ (R.toMove m).isSome → R.isLite m = true

section Model

variable {P : Pool} (J : JavaRuntime P) (R : Responses P)

/-- `Process` of a processor: the text of its broadcast. There is no result when the cast throws. -/
abbrev Processor (P : Pool) := P.Message → Option JavaString

def signinProcessor : Processor P := fun msg =>
  (R.toSignin msg).map fun (name, succ) => name ++ " ".toList ++ if succ then "true".toList else "false".toList

def moveProcessor : Processor P := R.toMove

abbrev ProcessorMap (P : Pool) := JavaString → Option (Processor P)

/-- `m_ProcessorMap.put(msg.getClass().toString(), processor)`. -/
def ProcessorMap.put (map : ProcessorMap P) (msg : P.Message) (processor : Processor P) : ProcessorMap P :=
  Function.update map (classString J msg) (some processor)

def clientMessageDispatcher : ProcessorMap P :=
  ProcessorMap.put J (ProcessorMap.put J (fun _ => none) R.rspSignin (signinProcessor R)) R.rspMove (moveProcessor R)

/-- `BaseMessageDispatcher.Dispatcher`. -/
def ProcessorMap.dispatcher (map : ProcessorMap P) (typeName : JavaString) (msg : P.Message) :
    Option (List JavaString) :=
  match map typeName with
  | none => some []
  | some processor => (processor msg).map fun text => [text]

/-- Why the thread has ended. -/
inductive Ending where
  | thrown (e : JavaException)
  /-- The `ClassCastException` of `Parse`, of an object that is no `GeneratedMessageLite`. -/
  | castInParse
  /-- The `ClassCastException` of a processor. -/
  | castInProcess
  deriving DecidableEq

structure Thread where
  input : JavaInput
  ended : Option Ending

/-- A step of `ConnectAndProcess`: one turn of its loop. -/
def clientMachine : Machine Thread Unit JavaString where
  step thread _ :=
    if thread.ended.isSome then none
    else
      match parse J thread.input with
      | (.headNotRight, input) => some ({ thread with input }, [])
      | (.thrown e, input) => some (⟨input, some (.thrown e)⟩, [])
      | (.dispatched typeName msg, input) =>
        -- The message is cast to `GeneratedMessageLite` where it is passed to the dispatcher.
        if R.isLite msg then
          match ProcessorMap.dispatcher (clientMessageDispatcher J R) typeName msg with
          | none => some (⟨input, some .castInProcess⟩, [])
          | some texts => some ({ thread with input }, texts)
        else some (⟨input, some .castInParse⟩, [])

/-- What the user is told of a message: the text of a response, and nothing of any other message. -/
def broadcast (msg : P.Message) : Option JavaString := (signinProcessor R msg).or (moveProcessor R msg)

end Model

/-! ### The dispatcher -/

variable {P : Pool} {J : JavaRuntime P} {R : Responses P}

theorem classString_inj {m m' : P.Message} : classString J m = classString J m' ↔ J.getName m = J.getName m' := by
  unfold classString
  exact List.append_right_inj _

theorem lookup_signin (lawful : R.Lawful J) {m : P.Message} (named : J.getName m = J.getName R.rspSignin) :
    clientMessageDispatcher J R (classString J m) = some (signinProcessor R) := by
  have other : classString J R.rspSignin ≠ classString J R.rspMove := mt classString_inj.mp lawful.apart
  unfold clientMessageDispatcher ProcessorMap.put
  rw [classString_inj.mpr named, Function.update_of_ne other, Function.update_self]

theorem lookup_move {m : P.Message} (named : J.getName m = J.getName R.rspMove) :
    clientMessageDispatcher J R (classString J m) = some (moveProcessor R) := by
  unfold clientMessageDispatcher ProcessorMap.put
  rw [classString_inj.mpr named, Function.update_self]

theorem lookup_other {m : P.Message} (signin : J.getName m ≠ J.getName R.rspSignin)
    (move : J.getName m ≠ J.getName R.rspMove) : clientMessageDispatcher J R (classString J m) = none := by
  unfold clientMessageDispatcher ProcessorMap.put
  rw [Function.update_of_ne (mt classString_inj.mp move), Function.update_of_ne (mt classString_inj.mp signin)]

namespace Responses.Lawful

variable (lawful : R.Lawful J) {m : P.Message}
include lawful

theorem isSome_signinProcessor : (signinProcessor R m).isSome ↔ J.getName m = J.getName R.rspSignin := by
  unfold signinProcessor
  rw [Option.isSome_map]
  exact lawful.signin m

theorem isSome_moveProcessor : (moveProcessor R m).isSome ↔ J.getName m = J.getName R.rspMove := lawful.move m

theorem broadcast_eq_none (stranger : R.isLite m = false) : broadcast R m = none := by
  have neither : ¬ ((R.toSignin m).isSome ∨ (R.toMove m).isSome) := by
    intro either
    have lite := lawful.lite m either
    rw [stranger] at lite
    cases lite
  obtain ⟨signin, move⟩ := not_or.mp neither
  unfold broadcast signinProcessor moveProcessor
  rw [Option.not_isSome_iff_eq_none.mp signin, Option.not_isSome_iff_eq_none.mp move]
  rfl

/-- The name of a class leads to the processor that casts to it, and to no other. -/
theorem dispatcher_classString :
    ProcessorMap.dispatcher (clientMessageDispatcher J R) (classString J m) m = some (broadcast R m).toList := by
  unfold ProcessorMap.dispatcher broadcast
  by_cases signin : J.getName m = J.getName R.rspSignin
  · obtain ⟨text, shown⟩ := Option.isSome_iff_exists.mp (lawful.isSome_signinProcessor.mpr signin)
    rw [lookup_signin lawful signin]
    dsimp only
    rw [shown]
    rfl
  have first := Option.not_isSome_iff_eq_none.mp (mt lawful.isSome_signinProcessor.mp signin)
  rw [first, Option.none_or]
  by_cases move : J.getName m = J.getName R.rspMove
  · obtain ⟨text, shown⟩ := Option.isSome_iff_exists.mp (lawful.isSome_moveProcessor.mpr move)
    rw [lookup_move move]
    dsimp only
    rw [shown]
    rfl
  · rw [lookup_other signin move, Option.not_isSome_iff_eq_none.mp (mt lawful.isSome_moveProcessor.mp move)]
    rfl

end Responses.Lawful

theorem parsedOf_dispatched {header body : Bytes} {typeName : JavaString} {msg : P.Message}
    (parsed : parsedOf J header body = .dispatched typeName msg) : typeName = classString J msg := by
  unfold parsedOf at parsed
  split at parsed
  · cases parsed
  split at parsed
  · cases parsed
  · cases parsed
  · cases parsed
    rfl

/-- What `Parse` dispatches, it dispatches under the name of its class. -/
theorem parse_dispatched {input left : JavaInput} {typeName : JavaString} {msg : P.Message}
    (parsed : parse J input = (.dispatched typeName msg, left)) : typeName = classString J msg := by
  rw [parse_eq] at parsed
  rcases first : input.read 4 with ⟨magic, input₁⟩
  rcases second : input₁.read 4 with ⟨btotallen, input₂⟩
  rcases third : input₂.read 4 with ⟨bheadlen, input₃⟩
  simp only [first, second, third] at parsed
  split at parsed
  · cases parsed
  split at parsed
  · cases parsed
  · exact parsedOf_dispatched (congrArg Prod.fst parsed)

/-! ### The classes of the package -/

def responses : Responses .baseCmd where
  rspSignin := .rspSignin {}
  rspMove := .rspMove []
  isLite _ := true
  toSignin
    | .rspSignin m => some (asText m.name, m.succ)
    | _ => none
  toMove
    | .rspMove error => some (asText error)
    | _ => none

theorem getName_fresh (m : Message) : javaBaseCmd.getName m.fresh = javaBaseCmd.getName m := by
  cases m <;> rfl

theorem getName_prototypes : ∀ q ∈ Message.prototypes,
    (javaBaseCmd.getName q = javaBaseCmd.getName (.rspSignin {}) ↔ q = .rspSignin {}) ∧
      (javaBaseCmd.getName q = javaBaseCmd.getName (.rspMove []) ↔ q = .rspMove []) := by
  decide +kernel

theorem lawful_responses : responses.Lawful javaBaseCmd := by
  have named (m : Message) := getName_prototypes m.fresh (List.mem_of_find?_eq_some m.createMessage_getTypeName)
  simp only [getName_fresh] at named
  constructor
  · intro same
    cases (named (.rspSignin {})).2.mp same
  · intro m
    refine Iff.trans ?_ (named m).1.symm
    cases m <;> simp [responses, Message.fresh]
  · intro m
    refine Iff.trans ?_ (named m).2.symm
    cases m <;> simp [responses, Message.fresh]
  · exact fun _ _ => rfl

/-! ### Runs -/

variable (R) in
def endingOf : Parsed P → Option Ending
  | .thrown e => some (.thrown e)
  | .dispatched _ msg => if R.isLite msg then none else some .castInParse
  | .headNotRight => none

variable (R) in
def textsOf : Parsed P → List JavaString
  | .dispatched _ msg => (broadcast R msg).toList
  | _ => []

theorem step_client (lawful : R.Lawful J) (input : JavaInput) :
    (clientMachine J R).step ⟨input, none⟩ () =
      some (⟨(parse J input).2, endingOf R (parse J input).1⟩, textsOf R (parse J input).1) := by
  rcases parsed : parse J input with ⟨result, left⟩
  simp only [clientMachine, Option.isSome_none, Bool.false_eq_true, if_false, parsed]
  cases result with
  | headNotRight => rfl
  | thrown e => rfl
  | dispatched typeName msg =>
    dsimp only [endingOf, textsOf]
    rw [parse_dispatched parsed, lawful.dispatcher_classString]
    cases lite : R.isLite msg with
    | true => rfl
    | false =>
      rw [lawful.broadcast_eq_none lite]
      rfl

/-- The thread ends with the first exception, and until then it does what the calls of `Parse` do. -/
theorem run_client (lawful : R.Lawful J) {input : JavaInput} {n : Nat} {t : Thread} {texts : List JavaString}
    (runs : (clientMachine J R).run ⟨input, none⟩ (List.replicate n ()) = some (t, texts)) :
    ∃ log, (parseMachine J).run input (List.replicate n ()) = some (t.input, log) ∧
      texts = log.flatMap (textsOf R) ∧ t.ended = log.getLast?.bind (endingOf R) := by
  induction n generalizing input texts with
  | zero =>
    cases runs
    exact ⟨[], rfl, rfl, rfl⟩
  | succ n ih =>
    rw [List.replicate_succ] at runs ⊢
    obtain ⟨u, seen, later, taken, rest, rfl⟩ := run_cons_eq_some.mp runs
    cases (step_client lawful input).symm.trans taken
    have parses := step_parse J input
    cases ending : endingOf R (parse J input).1 with
    | none =>
      rw [ending] at rest
      obtain ⟨log, ran, shown, ended⟩ := ih rest
      refine ⟨[(parse J input).1] ++ log, run_cons_eq_some.mpr ⟨_, _, _, parses, ran, rfl⟩, ?_, ?_⟩
      · rw [shown, List.flatMap_append, List.flatMap_singleton]
      · rw [ended]
        cases log with
        | nil => exact ending.symm
        | cons first log => rw [List.singleton_append, List.getLast?_cons_cons]
    -- No turn follows one that has thrown.
    | some reason =>
      rw [ending] at rest
      cases n with
      | zero =>
        cases rest
        exact ⟨[(parse J input).1], run_cons_eq_some.mpr ⟨_, _, _, parses, rfl, rfl⟩, by simp, ending.symm⟩
      | succ n =>
        rw [List.replicate_succ] at rest
        obtain ⟨_, _, _, again, -, -⟩ := run_cons_eq_some.mp rest
        cases again

theorem flatMap_textsOf (log : List (Parsed P)) :
    log.flatMap (textsOf R) = log.filterMap fun
      | .dispatched _ msg => broadcast R msg
      | _ => none := by
  induction log with
  | nil => rfl
  | cons parsed log ih =>
    rw [List.flatMap_cons, ih]
    cases parsed with
    | dispatched typeName msg => cases shown : broadcast R msg <;> simp [textsOf, shown]
    | headNotRight => rfl
    | thrown e => rfl

theorem endingOf_ne_castInProcess (parsed : Parsed P) : endingOf R parsed ≠ some .castInProcess := by
  cases parsed with
  | headNotRight => rintro ⟨⟩
  | thrown e => rintro ⟨⟩
  | dispatched typeName msg =>
    cases lite : R.isLite msg <;> simp [endingOf, lite]

theorem endingOf_castInParse {parsed : Parsed P} (ends : endingOf R parsed = some .castInParse) :
    ∃ typeName msg, parsed = .dispatched typeName msg ∧ R.isLite msg = false := by
  cases parsed with
  | headNotRight => cases ends
  | thrown e => cases ends
  | dispatched typeName msg =>
    refine ⟨typeName, msg, rfl, ?_⟩
    cases lite : R.isLite msg with
    | false => rfl
    | true =>
      simp only [endingOf, lite, if_true] at ends
      cases ends

/-- Whatever bytes arrive and however they are spread over the reads, no processor is handed a message of another class,
and the thread broadcasts, in order, the texts of the responses that `Parse` made, up to the first exception. A cast
fails only in `Parse`, where the peer has named a class whose `parseFrom` gives no message. -/
theorem android_never_miscasts (lawful : R.Lawful J) (stream : Bytes) (grants : List Nat) (n : Nat) (t : Thread)
    (texts : List JavaString)
    (runs : (clientMachine J R).run ⟨⟨stream, grants⟩, none⟩ (List.replicate n ()) = some (t, texts)) :
    t.ended ≠ some .castInProcess ∧
      ∃ log, (parseMachine J).run ⟨stream, grants⟩ (List.replicate n ()) = some (t.input, log) ∧
        (texts = log.filterMap fun
          | .dispatched _ msg => broadcast R msg
          | _ => none) ∧
        (t.ended = some .castInParse →
          ∃ typeName msg, log.getLast? = some (.dispatched typeName msg) ∧ R.isLite msg = false) := by
  obtain ⟨log, ran, shown, ended⟩ := run_client lawful runs
  refine ⟨?_, log, ran, shown.trans (flatMap_textsOf log), ?_⟩
  · rw [ended]
    cases log.getLast? with
    | none => rintro ⟨⟩
    | some last => exact endingOf_ne_castInProcess last
  · rw [ended]
    intro fails
    obtain ⟨last, isLast, ends⟩ := Option.bind_eq_some_iff.mp fails
    obtain ⟨typeName, msg, rfl, stranger⟩ := endingOf_castInParse ends
    exact ⟨typeName, msg, isLast, stranger⟩

theorem android_never_miscasts_other_class :
    let stream := frame .baseCmd (Message.reqAlarm (ascii "a")) ++ frame .baseCmd (Message.rspMove (ascii "b"))
    ∃ t texts, (clientMachine javaBaseCmd responses).run ⟨⟨stream, []⟩, none⟩ [(), ()] = some (t, texts) ∧
      t.ended ≠ some .castInProcess ∧ texts = ["b".toList] := by
  intro stream
  have shows : ((clientMachine javaBaseCmd responses).run ⟨⟨stream, []⟩, none⟩ [(), ()]).any
      (fun (_, texts) => texts = ["b".toList]) = true := by
    decide +kernel
  obtain ⟨t, texts, runs, same⟩ := exists_run shows
  exact ⟨t, texts, runs, (android_never_miscasts lawful_responses stream [] 2 t texts runs).1, of_decide_eq_true same⟩

theorem run_client_of_parse (lawful : R.Lawful J) {input left : JavaInput} {n : Nat} {log : List (Parsed P)}
    (ran : (parseMachine J).run input (List.replicate n ()) = some (left, log))
    (quiet : ∀ parsed ∈ log, endingOf R parsed = none) :
    (clientMachine J R).run ⟨input, none⟩ (List.replicate n ()) = some (⟨left, none⟩, log.flatMap (textsOf R)) := by
  induction n generalizing input log with
  | zero =>
    cases ran
    rfl
  | succ n ih =>
    rw [List.replicate_succ] at ran ⊢
    obtain ⟨u, seen, later, taken, rest, rfl⟩ := run_cons_eq_some.mp ran
    cases (step_parse J input).symm.trans taken
    have goesOn : endingOf R (parse J input).1 = none := quiet _ (by simp)
    have step := step_client lawful input
    rw [goesOn] at step
    have run := ih rest fun parsed member => quiet parsed (List.mem_append_right _ member)
    refine run_cons_eq_some.mpr ⟨_, _, _, step, run, ?_⟩
    rw [List.flatMap_append, List.flatMap_singleton]

/-- From what `Send` of the C++ side appends for any messages on which the runtimes agree, with reads that are not
short, the thread broadcasts the text of every response, in order, and goes on. -/
theorem android_hears_all (lawful : R.Lawful J) {typed : List (JavaString × P.Message)} {sender : Route}
    (agrees : ∀ p ∈ typed, Agrees J p.1 p.2) (lite : ∀ p ∈ typed, R.isLite p.2 = true)
    (fits : ∀ p ∈ typed, totalOf P p.2 < 2 ^ 31) (empty : sender.dataStreamSend = []) :
    (clientMachine J R).run
        ⟨⟨((typed.map Prod.snd).foldl (fun r m => (send P r m).1) sender).dataStreamSend, []⟩, none⟩
        (List.replicate typed.length ()) =
      some (⟨⟨[], []⟩, none⟩, typed.filterMap fun p => broadcast R p.2) := by
  have ran := run_parse fun p member rest => (agrees p member).parse (fits p member) rest
  have run := run_client_of_parse lawful ran fun parsed member => by
    obtain ⟨p, sent, rfl⟩ := List.mem_map.mp member
    dsimp only [endingOf]
    rw [if_pos (lite p sent)]
  rw [foldl_send, empty]
  dsimp only
  rw [List.nil_append, List.flatMap_map]
  refine run.trans ?_
  rw [flatMap_textsOf, List.filterMap_map]
  rfl

theorem android_hears_all_three :
    let messages : List Pool.baseCmd.Message :=
      [Message.rspSignin { name := ascii "ann", succ := true }, Message.reqMove ⟨1, 2⟩, Message.rspMove (ascii "ok")]
    let sender := messages.foldl (fun r m => (send .baseCmd r m).1) (Route.new 0 [] [])
    (clientMachine javaBaseCmd responses).run ⟨⟨sender.dataStreamSend, []⟩, none⟩ [(), (), ()] =
      some (⟨⟨[], []⟩, none⟩, ["ann true".toList, "ok".toList]) := by
  intro messages sender
  have valid : ∀ m ∈ messages, Message.Valid m ∧ totalOf .baseCmd m < 2 ^ 31 := by decide +kernel
  have top : ∀ m ∈ messages, ∀ p, m ≠ Message.ePhoneNumber p := by
    intro m member p same
    rw [same] at member
    simp [messages] at member
  have agrees := agrees_typed top valid
  exact @android_hears_all .baseCmd javaBaseCmd responses lawful_responses (messages.map typed) (Route.new 0 [] [])
    (fun p sent => (agrees p sent).1) (fun _ _ => rfl) (fun p sent => (agrees p sent).2) rfl

end Android

end MiniProtobuf
