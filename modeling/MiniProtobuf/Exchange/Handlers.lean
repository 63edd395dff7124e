import MiniProtobuf.Exchange.Replies
import MiniProtobuf.Route.Front

/-!
# What a server handler assumes

The map of processors is keyed by type names and `createMessage` makes a message of the very type that is
named, so the cast in a handler is always right. The number of users in a sign-in is the peer's choice.
-/

namespace MiniProtobuf
open Wire BaseCmd

variable {pl : Platform}

/-- The cast in a processor of the server is to the type of the message. -/
inductive CastRight : Processor → Message → Prop
  | signin (req : ReqSignin) : CastRight Server.signinProcessor (.reqSignin req)
  | move (req : ReqMove) : CastRight Server.moveProcessor (.reqMove req)

/-- A server handler that is registered for the name finds in the message what it asks for. -/
def Handles (typeName : Bytes) (msg : Message) : Prop :=
  ∀ processor, serverMessageDispatcher typeName = some processor → (processor msg).isSome = true

/-- Slices that name `reqSignin` hold a user. -/
def SignsIn (slices : Bytes × Bytes) : Prop :=
  (CmdType.parseFromArray slices.1).1.type = (Message.reqSignin {}).getTypeName →
    (parseArray ReqSignin.field {} slices.2).1.user ≠ []

theorem serverMessageDispatcher_eq (typeName : Bytes) :
    serverMessageDispatcher typeName =
      if typeName = (Message.reqMove {}).getTypeName then some Server.moveProcessor
      else if typeName = (Message.reqSignin {}).getTypeName then some Server.signinProcessor
      else none := by
  unfold serverMessageDispatcher ProcessorMap.assign ProcessorMap.empty
  rw [Function.update_apply, Function.update_apply, Function.update_apply]
  split <;> rfl

theorem fresh_of_getTypeName {m n : Message} (same : m.getTypeName = n.getTypeName) : m.fresh = n.fresh := by
  have found := m.createMessage_getTypeName
  rw [same, n.createMessage_getTypeName] at found
  exact (Option.some.inj found).symm

theorem exists_reqSignin {msg : Message} (named : msg.getTypeName = (Message.reqSignin {}).getTypeName) :
    ∃ req, msg = .reqSignin req := by
  have fresh := fresh_of_getTypeName named
  cases msg with
  | reqSignin req => exact ⟨req, rfl⟩
  | _ => cases fresh

theorem exists_reqMove {msg : Message} (named : msg.getTypeName = (Message.reqMove {}).getTypeName) :
    ∃ req, msg = .reqMove req := by
  have fresh := fresh_of_getTypeName named
  cases msg with
  | reqMove req => exact ⟨req, rfl⟩
  | _ => cases fresh

theorem castRight_of_getTypeName {msg : Message} {processor : Processor}
    (registered : serverMessageDispatcher msg.getTypeName = some processor) : CastRight processor msg := by
  rw [serverMessageDispatcher_eq] at registered
  split at registered
  · rename_i named
    obtain ⟨req, rfl⟩ := exists_reqMove named
    cases registered
    exact .move req
  · split at registered
    · rename_i named
      obtain ⟨req, rfl⟩ := exists_reqSignin named
      cases registered
      exact .signin req
    · cases registered

theorem handles_iff (msg : Message) :
    Handles msg.getTypeName msg ↔ ∀ req, msg = .reqSignin req → req.user ≠ [] := by
  constructor
  · rintro handles req rfl
    have registered : serverMessageDispatcher (Message.reqSignin req).getTypeName = some Server.signinProcessor := by
      have other : (Message.reqSignin req).getTypeName ≠ (Message.reqMove {}).getTypeName := by
        show (Message.reqSignin {}).getTypeName ≠ (Message.reqMove {}).getTypeName
        decide
      rw [serverMessageDispatcher_eq, if_neg other]
      exact if_pos rfl
    have answered := handles _ registered
    obtain ⟨user⟩ := req
    cases user with
    | nil => cases answered
    | cons first others => exact List.cons_ne_nil first others
  · intro users processor registered
    cases castRight_of_getTypeName registered with
    | signin req =>
      obtain ⟨user⟩ := req
      cases user with
      | nil => exact absurd rfl (users _ rfl)
      | cons first others => rfl
    | move req => rfl

theorem getTypeName_of_createMessage {typeName : Bytes} {m : Message}
    (found : Message.createMessage typeName = some m) :
    m.getTypeName = typeName := by
  have passes := List.find?_some found
  exact beq_iff_eq.mp passes

theorem getTypeName_made {slices : Bytes × Bytes} {typeName : Bytes} {msg : Message}
    (makes : made .baseCmd slices = some (typeName, msg)) :
    typeName = (CmdType.parseFromArray slices.1).1.type ∧ msg.getTypeName = typeName ∧
      msg = (msg.fresh.parseFromArray slices.2).1 := by
  obtain ⟨prototype, found, same⟩ := Option.map_eq_some_iff.mp makes
  cases same
  have named := getTypeName_of_createMessage found
  refine ⟨rfl, ?_, ?_⟩
  · rw [← named]
    cases prototype <;> rfl
  · cases prototype <;> rfl

theorem signsIn_iff (slices : Bytes × Bytes) :
    SignsIn slices ↔ ∀ typeName msg, made .baseCmd slices = some (typeName, msg) → Handles typeName msg := by
  constructor
  · intro signsIn typeName msg makes
    obtain ⟨type, rfl, parsed⟩ := getTypeName_made makes
    refine (handles_iff msg).mpr fun req same => ?_
    subst same
    rw [Message.reqSignin.inj parsed]
    exact signsIn type.symm
  · intro handles type
    have makes : made .baseCmd slices =
        some ((Message.reqSignin {}).getTypeName, .reqSignin (parseArray ReqSignin.field {} slices.2).1) := by
      have found := (Message.reqSignin {}).createMessage_getTypeName
      rw [← type] at found ⊢
      exact congrArg (Option.map _) found
    exact (handles_iff (.reqSignin _)).mp (handles _ _ makes) _ rfl

/-- A handler of the server always gets the type that it casts to, whatever arrives. It finds what it asks
for just when every sign-in at the front of the buffer has a user. -/
theorem handlers_safe_iff_users {r t : Route} {actions : List (Action .baseCmd)} {events : List (Event .baseCmd)}
    (idle : r.preRecivesTotalLen = 0) (runs : (routeMachine pl .baseCmd).run r actions = some (t, events)) :
    (∀ typeName msg processor, (typeName, msg) ∈ dispatched events →
      serverMessageDispatcher typeName = some processor → CastRight processor msg) ∧
    ((∀ typeName msg, (typeName, msg) ∈ dispatched events → Handles typeName msg) ↔
      (routeMachine pl .baseCmd).Meets (OnFront SignsIn) r actions) := by
  have content := run_dispatched runs
  constructor
  · intro typeName msg processor handed registered
    rw [content] at handed
    obtain ⟨slices, -, makes⟩ := List.mem_filterMap.mp handed
    obtain ⟨-, rfl, -⟩ := getTypeName_made makes
    exact castRight_of_getTypeName registered
  · rw [← run_frames_iff (by rw [idle]; exact Int.pow_pos (by decide)) runs, content]
    constructor
    · intro handles slices framed
      refine (signsIn_iff slices).mpr fun typeName msg makes => handles typeName msg ?_
      exact List.mem_filterMap.mpr ⟨slices, framed, makes⟩
    · intro signsIn typeName msg handed
      obtain ⟨slices, framed, makes⟩ := List.mem_filterMap.mp handed
      exact (signsIn_iff slices).mp (signsIn slices framed) typeName msg makes

theorem handlers_safe_iff_users_signin :
    let actions : List (Action .baseCmd) :=
      [.receive (frame .baseCmd (.reqSignin ⟨[{ name := [97] }]⟩) ++ frame .baseCmd (.reqMove ⟨1, 2⟩)),
        .processRecv (dispatcher .server), .processRecv (dispatcher .server)]
    ∃ t events, (routeMachine .x64 .baseCmd).run (Route.new 0 [] []) actions = some (t, events) ∧
      dispatched events = [(ascii "BaseCmd.reqSignin", .reqSignin ⟨[{ name := [97] }]⟩),
        (ascii "BaseCmd.reqMove", .reqMove ⟨1, 2⟩)] ∧
      (routeMachine .x64 .baseCmd).Meets (OnFront SignsIn) (Route.new 0 [] []) actions := by
  intro actions
  have evaluates : ((routeMachine .x64 .baseCmd).run (Route.new 0 [] []) actions).any
      (fun (_, events) => dispatched events = [(ascii "BaseCmd.reqSignin", .reqSignin ⟨[{ name := [97] }]⟩),
        (ascii "BaseCmd.reqMove", .reqMove ⟨1, 2⟩)]) = true := by
    decide +kernel
  obtain ⟨t, events, runs, seen⟩ := Machine.exists_run evaluates
  have content := of_decide_eq_true seen
  refine ⟨t, events, runs, content, (handlers_safe_iff_users rfl runs).2.mp fun typeName msg handed => ?_⟩
  rw [content] at handed
  rcases List.mem_pair.mp handed with same | same <;> cases same
  · exact (handles_iff (.reqSignin ⟨[{ name := [97] }]⟩)).mpr fun req same => by cases same; decide
  · exact (handles_iff (.reqMove ⟨1, 2⟩)).mpr fun req same => by cases same

/-- A sign-in with no body reaches `user(0)`. -/
theorem signin_without_user :
    ∃ t events,
      (routeMachine .x64 .baseCmd).run (Route.new 0 [] [])
        [.receive (frame .baseCmd (.reqSignin {})), .processRecv (dispatcher .server)] = some (t, events) ∧
      dispatched events = [(ascii "BaseCmd.reqSignin", .reqSignin {})] ∧
      serverMessageDispatcher (ascii "BaseCmd.reqSignin") = some Server.signinProcessor ∧
      Server.signinProcessor (.reqSignin {}) = none := by
  have evaluates : ((routeMachine .x64 .baseCmd).run (Route.new 0 [] [])
      [.receive (frame .baseCmd (.reqSignin {})), .processRecv (dispatcher .server)]).any
      (fun (_, events) => dispatched events = [(ascii "BaseCmd.reqSignin", .reqSignin {})]) = true := by
    decide +kernel
  obtain ⟨t, events, runs, seen⟩ := Machine.exists_run evaluates
  refine ⟨t, events, runs, of_decide_eq_true seen, ?_, rfl⟩
  rw [serverMessageDispatcher_eq, if_neg (by decide)]
  exact if_pos rfl

end MiniProtobuf
