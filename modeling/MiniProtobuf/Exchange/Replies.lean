import MiniProtobuf.Exchange.Model
import MiniProtobuf.Route.Framing

/-!
# What the server makes of a request

The name of the first user survives the parse of a request whatever else is wrong with its strings,
and a reply is never longer than the request that carried the name.
-/

namespace MiniProtobuf
open Wire BaseCmd

/-- A move, or a sign-in of at least one user. The name of user 0 is text, as proto3 has it. -/
inductive Request : Message → Prop
  | move (req : ReqMove) : Request (.reqMove req)
  | signin (user : SUser) (others : List SUser) (text : Text user.name) : Request (.reqSignin ⟨user :: others⟩)

def response : Message → Message
  | .reqSignin ⟨user :: _⟩ => .rspSignin { name := user.name, succ := true }
  | _ => .rspMove Server.moveSuccess

/-! ### Sizes -/

theorem length_getTypeName (m : Message) : m.getTypeName.length ≤ 30 := by
  cases m <;> exact Nat.le_of_ble_eq_true rfl

theorem small_baseCmd {m : Message} (body : m.serialize.length ≤ tempBufferSize) : Small .baseCmd m := by
  refine ⟨?_, body⟩
  have name := length_getTypeName m
  have text := length_stringField_le 10 m.getTypeName
  have size := length_int32Field_le 16 (cmdTypeOf .baseCmd m).size
  have fromip : (stringField 26 (cmdTypeOf .baseCmd m).fromip).length = 0 := rfl
  have toip : (stringField 34 (cmdTypeOf .baseCmd m).toip).length = 0 := rfl
  have type : (cmdTypeOf .baseCmd m).type = m.getTypeName := rfl
  rw [headerOf, CmdType.serialize, List.length_append, List.length_append, List.length_append, fromip, toip, type,
    tempBufferSize]
  omega

theorem serialize_signin (user : SUser) (others : List SUser) :
    (Message.reqSignin ⟨user :: others⟩).serialize =
      messageField 10 user.serialize ++ (others.flatMap fun u => messageField 10 u.serialize) := by
  rw [Message.serialize, ReqSignin.serialize, List.flatMap_cons]

/-- The name is wrapped in a user and the user in the request; the reply wraps it once and adds a
flag of two bytes. -/
theorem length_response (user : SUser) (others : List SUser) :
    (response (.reqSignin ⟨user :: others⟩)).serialize.length ≤
      (Message.reqSignin ⟨user :: others⟩).serialize.length := by
  have reply : (response (.reqSignin ⟨user :: others⟩)).serialize = stringField 10 user.name ++ [16, 1] := rfl
  have inside : (stringField 10 user.name).length ≤ user.serialize.length := by
    rw [SUser.serialize, List.length_append]
    omega
  have digits := length_writeVarint_pos user.serialize.length
  rw [serialize_signin, reply, List.length_append, List.length_append, length_messageField]
  have flag : ([16, 1] : Bytes).length = 2 := rfl
  omega

theorem Request.response_small {m : Message} (request : Request m) (body : m.serialize.length ≤ tempBufferSize) :
    Small .baseCmd (response m) := by
  cases request with
  | move req =>
    have short : (Message.rspMove Server.moveSuccess).serialize.length ≤ tempBufferSize := by decide +kernel
    exact small_baseCmd short
  | signin user others text => exact small_baseCmd ((length_response user others).trans body)

theorem Request.response_valid {m : Message} (request : Request m) : (response m).Valid := by
  cases request with
  | move req =>
    have text : Text Server.moveSuccess := by decide +kernel
    exact text
  | signin user others text => exact text

/-! ### The first user -/

/-- A user keeps its name through a parse, wherever the parse stops. -/
theorem SUser.leaves_name {user : SUser} {budget : Nat} (fits : user.serialize.length < 2 ^ 31) :
    Leaves SUser.field (budget + 1) {} user.serialize fun u => u.name = user.name := by
  have nameLen := length_stringField 10 user.name
  have emailLen := length_stringField 26 user.email
  simp only [SUser.serialize, List.length_append] at fits
  have phones (phones : List EPhoneNumber) (u : SUser) (name : u.name = user.name)
      (fits : (phones.flatMap fun p => messageField 34 p.serialize).length < 2 ^ 31) :
      Leaves SUser.field (budget + 1) u (phones.flatMap fun p => messageField 34 p.serialize)
        fun u => u.name = user.name := by
    induction phones generalizing u with
    | nil => exact leaves_nil name
    | cons p phones ih =>
      rw [List.flatMap_cons] at fits ⊢
      rw [List.length_append, length_messageField] at fits
      have any : Leaves EPhoneNumber.field budget {} p.serialize fun _ => True := fun _ _ => trivial
      exact leaves_message (by decide) (by decide) rfl (by omega) any (fun _ _ => name) fun _ _ => ih _ name (by omega)
  have rest (u : SUser) (name : u.name = user.name) := phones user.phones u name (by omega)
  have email (u : SUser) (name : u.name = user.name) :
      Leaves SUser.field (budget + 1) u
        (stringField 26 user.email ++ user.phones.flatMap fun p => messageField 34 p.serialize)
        fun u => u.name = user.name := by
    by_cases empty : user.email = []
    · rw [stringField, if_pos empty]
      exact rest u name
    · exact leaves_string (by decide) (by decide) rfl (by omega) (fun none => absurd none empty) name (rest _ name)
  refine leaves_string (by decide) (by decide) rfl (by omega) (fun empty => by rw [empty]) rfl ?_
  exact leaves_int32 (by decide) (by decide) rfl (fun _ => rfl) (email _ rfl) fun _ => email _ rfl

theorem ReqSignin.parse_first {user : SUser} {others : List SUser}
    (fits : (Message.reqSignin ⟨user :: others⟩).serialize.length < 2 ^ 31) :
    ∃ first rest, (parseArray ReqSignin.field {} (Message.reqSignin ⟨user :: others⟩).serialize).1.user =
      first :: rest ∧
      first.name = user.name := by
  rw [serialize_signin] at fits ⊢
  rw [List.length_append, length_messageField] at fits
  apply @Leaves.parseArray _ _ fun r : ReqSignin => ∃ first rest, r.user = first :: rest ∧ first.name = user.name
  refine leaves_message (by decide) (by decide) rfl (by omega) (SUser.leaves_name (by omega)) ?_ ?_
  · intro first name
    exact ⟨first, [], rfl, name⟩
  · intro first name
    refine leaves_of_kept ?_ ⟨first, [], rfl, name⟩
    -- The only reader of the type appends a user.
    rintro tag read known m bs ⟨first, rest, users, name⟩
    unfold ReqSignin.field at known
    split at known
    · cases known
      obtain ⟨u, added⟩ := @readMessage_adds ReqSignin _ m SUser SUser.field {} (fun m u => ⟨m.user ++ [u]⟩) bs
      rw [added]
      exact ⟨first, rest ++ [u], by rw [users, List.cons_append], name⟩
    · cases known

/-! ### Dispatch -/

theorem assign_dispatch (map : ProcessorMap) (key : Message) (processor : Processor) (typeName : Bytes)
    (msg : Message) :
    (map.assign key processor).dispatch typeName msg =
      if typeName = key.getTypeName then (processor msg).getD ⟨[], false⟩ else map.dispatch typeName msg := by
  unfold ProcessorMap.dispatch ProcessorMap.assign
  rw [Function.update_apply]
  by_cases same : typeName = key.getTypeName
  · rw [if_pos same, if_pos same]
  · rw [if_neg same, if_neg same]

theorem server_dispatch (typeName : Bytes) (msg : Message) :
    dispatcher .server typeName msg =
      if typeName = (Message.reqMove {}).getTypeName then (Server.moveProcessor msg).getD ⟨[], false⟩
      else if typeName = (Message.reqSignin {}).getTypeName then (Server.signinProcessor msg).getD ⟨[], false⟩
      else ⟨[], false⟩ := by
  rw [dispatcher, serverMessageDispatcher, assign_dispatch, assign_dispatch, assign_dispatch]
  split
  · rfl
  · rfl

theorem server_quiet : Quiet (dispatcher .server) := by
  intro typeName msg
  rw [server_dispatch]
  split
  · unfold Server.moveProcessor
    split <;> rfl
  · split
    · unfold Server.signinProcessor
      split <;> rfl
    · rfl

theorem client_silent (typeName : Bytes) (msg : Message) : dispatcher .client typeName msg = ⟨[], false⟩ := by
  rw [dispatcher, clientMessageDispatcher, assign_dispatch, assign_dispatch]
  split
  · unfold Client.moveProcessor
    split <;> rfl
  · split
    · unfold Client.signinProcessor
      split <;> rfl
    · rfl

theorem Request.served {m : Message} (request : Request m) (body : m.serialize.length ≤ tempBufferSize) :
    ∃ msg, decode .baseCmd m.getTypeName m.serialize = some (m.getTypeName, msg) ∧
      dispatcher .server m.getTypeName msg = ⟨[response m], false⟩ := by
  have found (prototype : Message) (known : Message.createMessage m.getTypeName = some prototype) :
      decode .baseCmd m.getTypeName m.serialize = some (m.getTypeName, (prototype.parseFromArray m.serialize).1) := by
    exact congrArg (Option.map fun prototype => (m.getTypeName, (prototype.parseFromArray m.serialize).1)) known
  have named := m.createMessage_getTypeName
  cases request with
  | move req =>
    refine ⟨_, found _ named, ?_⟩
    have same : (Message.reqMove req).getTypeName = (Message.reqMove {}).getTypeName := rfl
    rw [server_dispatch, if_pos same]
    rfl
  | signin user others text =>
    unfold tempBufferSize at body
    obtain ⟨first, rest, users, name⟩ := @ReqSignin.parse_first user others (by omega)
    refine ⟨_, found _ named, ?_⟩
    have other : (Message.reqSignin ⟨user :: others⟩).getTypeName ≠ (Message.reqMove {}).getTypeName := by
      show (Message.reqSignin {}).getTypeName ≠ (Message.reqMove {}).getTypeName
      decide
    have same : (Message.reqSignin ⟨user :: others⟩).getTypeName = (Message.reqSignin {}).getTypeName := rfl
    rw [server_dispatch, if_neg other, if_pos same, Message.fresh, Message.parseFromArray]
    generalize parseArray ReqSignin.field {} (Message.reqSignin ⟨user :: others⟩).serialize = parsed at users
    obtain ⟨⟨list⟩, ok⟩ := parsed
    obtain rfl : list = first :: rest := users
    exact congrArg (fun name => (⟨[Message.rspSignin ⟨name, true⟩], false⟩ : Handled .baseCmd)) name

end MiniProtobuf
