import MiniProtobuf.Wire.Proto3

/-!
# The messages of package `BaseCmd`

The types of `BaseCmd.proto` with the serializers and parsers of `BaseCmd.pb.cc`. A string is the
bytes of a `std::string`, an enum is open, a `float` is its bits. Unknown fields are read past and
not kept, since no code here serializes a message that it parsed.
`Message.parseFromArray_serialize` is the round trip.
-/

namespace MiniProtobuf
open Wire

/-- The bytes of an ASCII literal. -/
def ascii (s : String) : Bytes := s.toList.map fun c => UInt8.ofNat c.toNat

namespace BaseCmd

structure CmdType where
  type : Bytes := []
  size : Int := 0
  fromip : Bytes := []
  toip : Bytes := []
  deriving DecidableEq

def CmdType.field : Nat → Option (FieldReader CmdType)
  | 10 => some (readString fun m s => { m with type := s })
  | 16 => some (readInt32 fun m n => { m with size := n })
  | 26 => some (readString fun m s => { m with fromip := s })
  | 34 => some (readString fun m s => { m with toip := s })
  | _ => none

def CmdType.serialize (m : CmdType) : Bytes :=
  stringField 10 m.type ++ (int32Field 16 m.size ++ (stringField 26 m.fromip ++ stringField 34 m.toip))

def CmdType.parseFromArray (bs : Bytes) : CmdType × Bool := parseArray CmdType.field {} bs

structure NotifyConnectionStatus where
  status : Int := 0
  deriving DecidableEq

def NotifyConnectionStatus.field : Nat → Option (FieldReader NotifyConnectionStatus)
  | 8 => some (readInt32 fun _ n => ⟨n⟩)
  | _ => none

def NotifyConnectionStatus.serialize (m : NotifyConnectionStatus) : Bytes := int32Field 8 m.status

structure EPhoneNumber where
  number : Bytes := []
  type : Int := 0
  deriving DecidableEq

def EPhoneNumber.field : Nat → Option (FieldReader EPhoneNumber)
  | 10 => some (readString fun m s => { m with number := s })
  | 16 => some (readInt32 fun m n => { m with type := n })
  | _ => none

def EPhoneNumber.serialize (m : EPhoneNumber) : Bytes := stringField 10 m.number ++ int32Field 16 m.type

structure SUser where
  name : Bytes := []
  id : Int := 0
  email : Bytes := []
  phones : List EPhoneNumber := []
  deriving DecidableEq

def SUser.field : Nat → Option (FieldReader SUser)
  | 10 => some (readString fun m s => { m with name := s })
  | 16 => some (readInt32 fun m n => { m with id := n })
  | 26 => some (readString fun m s => { m with email := s })
  | 34 => some (readMessage EPhoneNumber.field {} fun m p => { m with phones := m.phones ++ [p] })
  | _ => none

def SUser.serialize (m : SUser) : Bytes :=
  stringField 10 m.name ++ (int32Field 16 m.id ++ (stringField 26 m.email ++
    m.phones.flatMap fun p => messageField 34 p.serialize))

structure ReqSignin where
  user : List SUser := []
  deriving DecidableEq

def ReqSignin.field : Nat → Option (FieldReader ReqSignin)
  | 10 => some (readMessage SUser.field {} fun m u => ⟨m.user ++ [u]⟩)
  | _ => none

def ReqSignin.serialize (m : ReqSignin) : Bytes := m.user.flatMap fun u => messageField 10 u.serialize

structure RspSignin where
  name : Bytes := []
  succ : Bool := false
  deriving DecidableEq

def RspSignin.field : Nat → Option (FieldReader RspSignin)
  | 10 => some (readString fun m s => { m with name := s })
  | 16 => some (readBool fun m b => { m with succ := b })
  | _ => none

def RspSignin.serialize (m : RspSignin) : Bytes := stringField 10 m.name ++ boolField 16 m.succ

structure ReqMove where
  forward : Nat := 0
  angle : Nat := 0
  deriving DecidableEq

def ReqMove.field : Nat → Option (FieldReader ReqMove)
  | 13 => some (readFloat fun m x => { m with forward := x })
  | 21 => some (readFloat fun m x => { m with angle := x })
  | _ => none

def ReqMove.serialize (m : ReqMove) : Bytes := floatField 13 m.forward ++ floatField 21 m.angle

/-- A message type with one string field, number 1. -/
def textField : Nat → Option (FieldReader Bytes)
  | 10 => some (readString fun _ s => s)
  | _ => none

/-- A message of the package. The three last types have one text field each. -/
inductive Message where
  | cmdType (m : CmdType)
  | notifyConnectionStatus (m : NotifyConnectionStatus)
  | ePhoneNumber (m : EPhoneNumber)
  | sUser (m : SUser)
  | reqSignin (m : ReqSignin)
  | rspSignin (m : RspSignin)
  | reqMove (m : ReqMove)
  | rspMove (error : Bytes)
  | reqAlarm (infomessage : Bytes)
  | rspAlarm (error : Bytes)
  deriving DecidableEq

namespace Message

def getTypeName : Message → Bytes
  | cmdType _ => ascii "BaseCmd.CmdType"
  | notifyConnectionStatus _ => ascii "BaseCmd.notifyConnectionStatus"
  | ePhoneNumber _ => ascii "BaseCmd.sUser.ePhoneNumber"
  | sUser _ => ascii "BaseCmd.sUser"
  | reqSignin _ => ascii "BaseCmd.reqSignin"
  | rspSignin _ => ascii "BaseCmd.rspSignin"
  | reqMove _ => ascii "BaseCmd.reqMove"
  | rspMove _ => ascii "BaseCmd.rspMove"
  | reqAlarm _ => ascii "BaseCmd.reqAlarm"
  | rspAlarm _ => ascii "BaseCmd.rspAlarm"

/-- What `SerializeToCodedStream` writes. -/
def serialize : Message → Bytes
  | cmdType m => m.serialize
  | notifyConnectionStatus m => m.serialize
  | ePhoneNumber m => m.serialize
  | sUser m => m.serialize
  | reqSignin m => m.serialize
  | rspSignin m => m.serialize
  | reqMove m => m.serialize
  | rspMove s | reqAlarm s | rspAlarm s => stringField 10 s

/-- The default instance of the same type. -/
def fresh : Message → Message
  | cmdType _ => cmdType {}
  | notifyConnectionStatus _ => notifyConnectionStatus {}
  | ePhoneNumber _ => ePhoneNumber {}
  | sUser _ => sUser {}
  | reqSignin _ => reqSignin {}
  | rspSignin _ => rspSignin {}
  | reqMove _ => reqMove {}
  | rspMove _ => rspMove []
  | reqAlarm _ => reqAlarm []
  | rspAlarm _ => rspAlarm []

def prototypes : List Message :=
  [cmdType {}, notifyConnectionStatus {}, ePhoneNumber {}, sUser {}, reqSignin {}, rspSignin {}, reqMove {},
    rspMove [], reqAlarm [], rspAlarm []]

/-- `createMessage`: a new message of the type with that name. -/
def createMessage (typeName : Bytes) : Option Message :=
  prototypes.find? fun m => m.getTypeName == typeName

/-- `ParseFromArray` clears the message first, so only its type matters. -/
def parseFromArray (m : Message) (bs : Bytes) : Message × Bool :=
  match m with
  | cmdType _ => (parseArray CmdType.field {} bs).map cmdType id
  | notifyConnectionStatus _ => (parseArray NotifyConnectionStatus.field {} bs).map notifyConnectionStatus id
  | ePhoneNumber _ => (parseArray EPhoneNumber.field {} bs).map ePhoneNumber id
  | sUser _ => (parseArray SUser.field {} bs).map sUser id
  | reqSignin _ => (parseArray ReqSignin.field {} bs).map reqSignin id
  | rspSignin _ => (parseArray RspSignin.field {} bs).map rspSignin id
  | reqMove _ => (parseArray ReqMove.field {} bs).map reqMove id
  | rspMove _ => (parseArray textField [] bs).map rspMove id
  | reqAlarm _ => (parseArray textField [] bs).map reqAlarm id
  | rspAlarm _ => (parseArray textField [] bs).map rspAlarm id

end Message

/-! ### Round trips -/

/-- What proto3 promises of a `string` field. -/
def Text (s : Bytes) : Prop := isStructurallyValidUTF8 s = true

instance (s : Bytes) : Decidable (Text s) := inferInstanceAs (Decidable (_ = true))

/-- The range of an `int32` field and of an open enum. -/
def IsInt32 (n : Int) : Prop := -2 ^ 31 ≤ n ∧ n < 2 ^ 31

instance (n : Int) : Decidable (IsInt32 n) := inferInstanceAs (Decidable (_ ∧ _))

/-- The bits of a `float` other than the negative zero, which is not told from the positive one. -/
def IsFloat (bits : Nat) : Prop := bits < 2 ^ 32 ∧ bits ≠ 2 ^ 31

instance (bits : Nat) : Decidable (IsFloat bits) := inferInstanceAs (Decidable (_ ∧ _))

def EPhoneNumber.Valid (m : EPhoneNumber) : Prop := Text m.number ∧ IsInt32 m.type

instance (m : EPhoneNumber) : Decidable m.Valid := inferInstanceAs (Decidable (_ ∧ _))

def SUser.Valid (m : SUser) : Prop :=
  Text m.name ∧ IsInt32 m.id ∧ Text m.email ∧ ∀ p ∈ m.phones, p.Valid

instance (m : SUser) : Decidable m.Valid := inferInstanceAs (Decidable (_ ∧ _ ∧ _ ∧ ∀ p ∈ m.phones, p.Valid))

/-- Field values that proto3 allows and that are written: a negative zero compares equal to zero and is left out. -/
def Message.Valid : Message → Prop
  | .cmdType m => Text m.type ∧ IsInt32 m.size ∧ Text m.fromip ∧ Text m.toip
  | .notifyConnectionStatus m => IsInt32 m.status
  | .ePhoneNumber m => m.Valid
  | .sUser m => m.Valid
  | .reqSignin m => ∀ u ∈ m.user, u.Valid
  | .rspSignin m => Text m.name
  | .reqMove m => IsFloat m.forward ∧ IsFloat m.angle
  | .rspMove s | .reqAlarm s | .rspAlarm s => Text s

instance : (m : Message) → Decidable m.Valid
  | .cmdType _ => inferInstanceAs (Decidable (_ ∧ _ ∧ _ ∧ _))
  | .notifyConnectionStatus m => inferInstanceAs (Decidable (IsInt32 m.status))
  | .ePhoneNumber m => inferInstanceAs (Decidable m.Valid)
  | .sUser m => inferInstanceAs (Decidable m.Valid)
  | .reqSignin m => inferInstanceAs (Decidable (∀ u ∈ m.user, u.Valid))
  | .rspSignin m => inferInstanceAs (Decidable (Text m.name))
  | .reqMove _ => inferInstanceAs (Decidable (_ ∧ _))
  | .rspMove s | .reqAlarm s | .rspAlarm s => inferInstanceAs (Decidable (Text s))

theorem length_stringField (tag : UInt8) (s : Bytes) : s.length ≤ (stringField tag s).length := by
  unfold stringField
  split
  · rename_i empty
    simp [empty]
  · simp only [List.length_cons, List.length_append]
    omega

theorem length_stringField_of_ne {s : Bytes} (tag : UInt8) (present : s ≠ []) :
    (stringField tag s).length = 1 + (writeVarint s.length).length + s.length := by
  rw [stringField, if_neg present, List.length_cons, List.length_append]
  omega

theorem length_messageField (tag : UInt8) (body : Bytes) :
    (messageField tag body).length = 1 + (writeVarint body.length).length + body.length := by
  simp only [messageField, List.length_cons, List.length_append]
  omega

theorem IsFloat.zero {bits : Nat} (float : IsFloat bits) (zero : bits % 2 ^ 31 = 0) : bits = 0 := by
  obtain ⟨word, positive⟩ := float
  omega

theorem EPhoneNumber.parses {m : EPhoneNumber} {budget : Nat} (valid : m.Valid) (fits : m.serialize.length < 2 ^ 31) :
    Parses EPhoneNumber.field budget {} m.serialize m := by
  obtain ⟨text, low, high⟩ := valid
  have len := length_stringField 10 m.number
  simp only [EPhoneNumber.serialize, List.length_append] at fits
  refine parses_string (by decide) (by decide) rfl (by omega) text (fun empty => by rw [empty]) ?_
  rw [← List.append_nil (int32Field _ _)]
  exact parses_int32 (by decide) (by decide) rfl low high (fun zero => by rw [zero]) (parses_nil _)

theorem SUser.parses_phones {u : SUser} {phones : List EPhoneNumber} {budget : Nat} (valid : ∀ p ∈ phones, p.Valid)
    (fits : (phones.flatMap fun p => messageField 34 p.serialize).length < 2 ^ 31) :
    Parses SUser.field (budget + 1) u (phones.flatMap fun p => messageField 34 p.serialize)
      { u with phones := u.phones ++ phones } := by
  induction phones generalizing u with
  | nil => simpa using parses_nil u
  | cons p phones ih =>
    rw [List.flatMap_cons] at fits ⊢
    rw [List.length_append, length_messageField] at fits
    have tail := ih (u := { u with phones := u.phones ++ [p] })
      (fun q member => valid q (List.mem_cons_of_mem _ member))
      (by omega)
    rw [List.append_assoc, List.singleton_append] at tail
    exact parses_message (by decide) (by decide) rfl (by omega)
      (EPhoneNumber.parses (valid p List.mem_cons_self) (by omega)) tail

theorem SUser.parses {m : SUser} {budget : Nat} (valid : m.Valid) (fits : m.serialize.length < 2 ^ 31) :
    Parses SUser.field (budget + 1) {} m.serialize m := by
  obtain ⟨nameText, ⟨low, high⟩, emailText, phonesValid⟩ := valid
  have nameLen := length_stringField 10 m.name
  have emailLen := length_stringField 26 m.email
  simp only [SUser.serialize, List.length_append] at fits
  refine parses_string (by decide) (by decide) rfl (by omega) nameText (fun empty => by rw [empty]) ?_
  refine parses_int32 (by decide) (by decide) rfl low high (fun zero => by rw [zero]) ?_
  refine parses_string (by decide) (by decide) rfl (by omega) emailText (fun empty => by rw [empty]) ?_
  exact SUser.parses_phones (u := ⟨m.name, m.id, m.email, []⟩) phonesValid (by omega)

theorem ReqSignin.parses_users {r : ReqSignin} {users : List SUser} {budget : Nat} (valid : ∀ u ∈ users, u.Valid)
    (fits : (users.flatMap fun u => messageField 10 u.serialize).length < 2 ^ 31) :
    Parses ReqSignin.field (budget + 2) r (users.flatMap fun u => messageField 10 u.serialize) ⟨r.user ++ users⟩ := by
  induction users generalizing r with
  | nil => simpa using parses_nil r
  | cons u users ih =>
    rw [List.flatMap_cons] at fits ⊢
    rw [List.length_append, length_messageField] at fits
    have tail := ih (r := ⟨r.user ++ [u]⟩) (fun q member => valid q (List.mem_cons_of_mem _ member)) (by omega)
    rw [List.append_assoc, List.singleton_append] at tail
    exact parses_message (by decide) (by decide) rfl (by omega)
      (SUser.parses (valid u List.mem_cons_self) (by omega)) tail

theorem CmdType.parses {m : CmdType} {budget : Nat} (type : Text m.type) (size : IsInt32 m.size)
    (fromip : Text m.fromip) (toip : Text m.toip) (fits : m.serialize.length < 2 ^ 31) :
    Parses CmdType.field budget {} m.serialize m := by
  have typeLen := length_stringField 10 m.type
  have fromipLen := length_stringField 26 m.fromip
  have toipLen := length_stringField 34 m.toip
  simp only [CmdType.serialize, List.length_append] at fits
  refine parses_string (by decide) (by decide) rfl (by omega) type (fun empty => by rw [empty]) ?_
  refine parses_int32 (by decide) (by decide) rfl size.1 size.2 (fun zero => by rw [zero]) ?_
  refine parses_string (by decide) (by decide) rfl (by omega) fromip (fun empty => by rw [empty]) ?_
  rw [← List.append_nil (stringField _ m.toip)]
  exact parses_string (by decide) (by decide) rfl (by omega) toip (fun empty => by rw [empty]) (parses_nil _)

theorem RspSignin.parses {m : RspSignin} {budget : Nat} (text : Text m.name) (fits : m.serialize.length < 2 ^ 31) :
    Parses RspSignin.field budget {} m.serialize m := by
  have len := length_stringField 10 m.name
  simp only [RspSignin.serialize, List.length_append] at fits
  refine parses_string (by decide) (by decide) rfl (by omega) text (fun empty => by rw [empty]) ?_
  rw [← List.append_nil (boolField _ _)]
  exact parses_bool (by decide) (by decide) rfl (fun unset => by rw [unset]) (parses_nil _)

theorem ReqMove.parses {m : ReqMove} {budget : Nat} (forward : IsFloat m.forward) (angle : IsFloat m.angle) :
    Parses ReqMove.field budget {} m.serialize m := by
  refine parses_float (by decide) (by decide) rfl forward.1 (fun zero => by rw [forward.zero zero]) ?_
  rw [← List.append_nil (floatField _ _)]
  exact parses_float (by decide) (by decide) rfl angle.1 (fun zero => by rw [angle.zero zero]) (parses_nil _)

theorem NotifyConnectionStatus.parses {m : NotifyConnectionStatus} {budget : Nat} (range : IsInt32 m.status) :
    Parses NotifyConnectionStatus.field budget {} m.serialize m := by
  rw [← List.append_nil m.serialize]
  exact parses_int32 (by decide) (by decide) rfl range.1 range.2 (fun zero => by rw [zero]) (parses_nil _)

theorem parses_text {s : Bytes} {budget : Nat} (text : Text s) (fits : (stringField 10 s).length < 2 ^ 31) :
    Parses textField budget [] (stringField 10 s) s := by
  have len := length_stringField 10 s
  have whole : Parses textField budget [] (stringField 10 s ++ []) s :=
    parses_string (by decide) (by decide) rfl (by omega) text (fun empty => empty) (parses_nil _)
  rwa [List.append_nil] at whole

/-- Parsing undoes serializing, for every message of the package that proto3 allows. -/
theorem Message.parseFromArray_serialize {m : Message} (valid : m.Valid) (fits : m.serialize.length < 2 ^ 31) :
    m.fresh.parseFromArray m.serialize = (m, true) := by
  cases m with
  | cmdType m =>
    obtain ⟨type, size, fromip, toip⟩ := valid
    simp [fresh, parseFromArray, serialize, (CmdType.parses type size fromip toip fits).parseArray]
  | notifyConnectionStatus m =>
    simp [fresh, parseFromArray, serialize, (NotifyConnectionStatus.parses valid).parseArray]
  | ePhoneNumber m => simp [fresh, parseFromArray, serialize, (EPhoneNumber.parses valid fits).parseArray]
  | sUser m =>
    have parses : Parses SUser.field defaultRecursionLimit {} m.serialize m := SUser.parses valid fits
    simp [fresh, parseFromArray, serialize, parses.parseArray]
  | reqSignin m =>
    have parses : Parses ReqSignin.field defaultRecursionLimit {} m.serialize m :=
      ReqSignin.parses_users valid fits
    simp [fresh, parseFromArray, serialize, parses.parseArray]
  | rspSignin m => simp [fresh, parseFromArray, serialize, (RspSignin.parses valid fits).parseArray]
  | reqMove m => simp [fresh, parseFromArray, serialize, (ReqMove.parses valid.1 valid.2).parseArray]
  | rspMove s | reqAlarm s | rspAlarm s =>
    simp [fresh, parseFromArray, serialize, (parses_text valid fits).parseArray]

theorem Message.createMessage_getTypeName (m : Message) : createMessage m.getTypeName = some m.fresh := by
  cases m <;> rfl

/-- A parse that gives up on the size or on the text of the type still has the type that was written. -/
theorem CmdType.parseFromArray_type {c : CmdType} (fits : c.type.length < 2 ^ 31) (range : IsInt32 c.size)
    (plain : c.fromip = [] ∧ c.toip = []) : (CmdType.parseFromArray c.serialize).1.type = c.type := by
  have shape : c.serialize = stringField 10 c.type ++ (int32Field 16 c.size ++ []) := by
    simp [CmdType.serialize, plain.1, plain.2, stringField]
  have sizes (m : CmdType) (unset : m.size = 0) :
      Parses CmdType.field defaultRecursionLimit m (int32Field 16 c.size ++ []) { m with size := c.size } :=
    parses_int32 (by decide) (by decide) rfl range.1 range.2 (fun zero => by rw [zero, ← unset]) (parses_nil _)
  by_cases text : Text c.type
  · have whole : Parses CmdType.field defaultRecursionLimit {} (stringField 10 c.type ++ (int32Field 16 c.size ++ []))
        { type := c.type, size := c.size } :=
      parses_string (by decide) (by decide) rfl fits text (fun empty => by rw [empty]) (sizes _ rfl)
    rw [CmdType.parseFromArray, shape, whole.parseArray]
  · -- Not UTF-8: the loop stops at the first field, which it has stored.
    have present : c.type ≠ [] := fun empty => text (by rw [empty]; rfl)
    have reads := @readString_write CmdType defaultRecursionLimit (fun m s => { m with type := s }) c.type fits {}
      (int32Field 16 c.size ++ [])
    rw [Text] at text
    rw [if_neg text] at reads
    rw [CmdType.parseFromArray, shape, stringField, if_neg present, parseArray, mergePartial, List.cons_append,
      mergeLoop, readTag_cons (by decide)]
    simp only [reduceCtorEq, if_false, CmdType.field, UInt8.reduceToNat, OfNat.ofNat_ne_zero, reads]

end BaseCmd

end MiniProtobuf
