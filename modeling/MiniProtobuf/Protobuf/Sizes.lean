import MiniProtobuf.Protobuf.BaseCmd
import MiniProtobuf.Wire.Fields

/-!
# Sizes and merges of the messages

`ByteSizeLong` and `MergeFrom` of the messages of `BaseCmd.pb.cc`. A nested message is written behind the size that was
cached for it, in a buffer of that size, so what is written is right only because the sizes are. Reading two encodings
one after the other is merging the second message into the first.
-/

namespace MiniProtobuf.BaseCmd
open Wire

/-! ### Sizes -/

def CmdType.byteSizeLong (m : CmdType) : Nat :=
  stringSize m.type + stringSize m.fromip + stringSize m.toip + int32FieldSize m.size

def NotifyConnectionStatus.byteSizeLong (m : NotifyConnectionStatus) : Nat := int32FieldSize m.status

def EPhoneNumber.byteSizeLong (m : EPhoneNumber) : Nat := stringSize m.number + int32FieldSize m.type

def SUser.byteSizeLong (m : SUser) : Nat :=
  repeatedSize (m.phones.map EPhoneNumber.byteSizeLong) + stringSize m.name + stringSize m.email + int32FieldSize m.id

def ReqSignin.byteSizeLong (m : ReqSignin) : Nat := repeatedSize (m.user.map SUser.byteSizeLong)

def RspSignin.byteSizeLong (m : RspSignin) : Nat := stringSize m.name + boolSize m.succ

def ReqMove.byteSizeLong (m : ReqMove) : Nat := floatSize m.forward + floatSize m.angle

def Message.byteSizeLong : Message → Nat
  | .cmdType m => m.byteSizeLong
  | .notifyConnectionStatus m => m.byteSizeLong
  | .ePhoneNumber m => m.byteSizeLong
  | .sUser m => m.byteSizeLong
  | .reqSignin m => m.byteSizeLong
  | .rspSignin m => m.byteSizeLong
  | .reqMove m => m.byteSizeLong
  | .rspMove s | .reqAlarm s | .rspAlarm s => stringSize s

/-- `SerializeWithCachedSizes` with the sizes that `ByteSizeLong` has cached. Only a message with nested ones reads
them. -/
def SUser.serializeWithCachedSizes (m : SUser) : Bytes :=
  stringField 10 m.name ++ (int32Field 16 m.id ++ (stringField 26 m.email ++
    m.phones.flatMap fun p => cachedField 34 p.byteSizeLong p.serialize))

def ReqSignin.serializeWithCachedSizes (m : ReqSignin) : Bytes :=
  m.user.flatMap fun u => cachedField 10 u.byteSizeLong u.serializeWithCachedSizes

def Message.serializeWithCachedSizes : Message → Bytes
  | .sUser m => m.serializeWithCachedSizes
  | .reqSignin m => m.serializeWithCachedSizes
  | m => m.serialize

/-- Every `int32` and every enum is in its range. -/
def SUser.Typed (m : SUser) : Prop := IsInt32 m.id ∧ ∀ p ∈ m.phones, IsInt32 p.type

def Message.Typed : Message → Prop
  | .cmdType m => IsInt32 m.size
  | .notifyConnectionStatus m => IsInt32 m.status
  | .ePhoneNumber m => IsInt32 m.type
  | .sUser m => m.Typed
  | .reqSignin m => ∀ u ∈ m.user, u.Typed
  | _ => True

theorem EPhoneNumber.byteSizeLong_eq {m : EPhoneNumber} (typed : IsInt32 m.type) (fits : m.serialize.length < 2 ^ 31) :
    m.byteSizeLong = m.serialize.length := by
  have number := length_stringField 10 m.number
  simp only [EPhoneNumber.serialize, List.length_append] at fits ⊢
  rw [EPhoneNumber.byteSizeLong, stringSize_eq 10 (by omega), int32FieldSize_eq 16 typed.1 typed.2]

/-- An element of a repeated field is shorter than the message around it. -/
theorem length_lt_of_mem {α : Type} {tag : UInt8} {write : α → Bytes} {x : α} {xs : List α} (member : x ∈ xs) :
    (write x).length < (xs.flatMap fun x => messageField tag (write x)).length := by
  have whole := length_le_of_mem_flatMap (fun x => messageField tag (write x)) member
  simp only [length_messageField] at whole
  omega

theorem SUser.byteSizeLong_eq {m : SUser} (typed : m.Typed) (fits : m.serialize.length < 2 ^ 31) :
    m.byteSizeLong = m.serialize.length ∧ m.serializeWithCachedSizes = m.serialize := by
  obtain ⟨id, phones⟩ := typed
  have name := length_stringField 10 m.name
  have email := length_stringField 26 m.email
  simp only [SUser.serialize, List.length_append] at fits ⊢
  have short : ∀ p ∈ m.phones, p.serialize.length < 2 ^ 31 := by
    intro p member
    have inside := @length_lt_of_mem _ 34 EPhoneNumber.serialize _ _ member
    omega
  have right : ∀ p ∈ m.phones, p.byteSizeLong = p.serialize.length :=
    fun p member => EPhoneNumber.byteSizeLong_eq (phones p member) (short p member)
  refine ⟨?_, ?_⟩
  · rw [SUser.byteSizeLong, stringSize_eq 10 (by omega), stringSize_eq 26 (by omega), int32FieldSize_eq 16 id.1 id.2,
      repeatedSize_eq 34 _ _ _ right fun p member => Nat.lt_of_lt_of_le (short p member) (by decide)]
    omega
  · have nested : (m.phones.flatMap fun p => cachedField 34 p.byteSizeLong p.serialize) =
        m.phones.flatMap fun p => messageField 34 p.serialize :=
      List.flatMap_congr fun p member => cachedField_eq 34 (short p member) (right p member)
    rw [SUser.serializeWithCachedSizes, nested]

theorem ReqSignin.byteSizeLong_eq {m : ReqSignin} (typed : ∀ u ∈ m.user, u.Typed) (fits : m.serialize.length < 2 ^ 31) :
    m.byteSizeLong = m.serialize.length ∧ m.serializeWithCachedSizes = m.serialize := by
  have short : ∀ u ∈ m.user, u.serialize.length < 2 ^ 31 :=
    fun u member => Nat.lt_trans (length_lt_of_mem member) fits
  have right (u : SUser) (member : u ∈ m.user) := SUser.byteSizeLong_eq (typed u member) (short u member)
  refine ⟨?_, ?_⟩
  · exact repeatedSize_eq 10 _ _ _ (fun u member => (right u member).1)
      fun u member => Nat.lt_of_lt_of_le (short u member) (by decide)
  · refine List.flatMap_congr fun u member => ?_
    rw [(right u member).2]
    exact cachedField_eq 10 (short u member) (right u member).1

/-- For every message below 2 GiB, `ByteSizeLong` is the number of bytes that are written, and what is written with the
cached sizes is the encoding of the message. -/
theorem byteSizeLong_exact (m : Message) (typed : m.Typed) (fits : m.serialize.length < 2 ^ 31) :
    m.byteSizeLong = m.serialize.length ∧ m.serializeWithCachedSizes = m.serialize := by
  cases m with
  | cmdType m =>
    have type := length_stringField 10 m.type
    have fromip := length_stringField 26 m.fromip
    have toip := length_stringField 34 m.toip
    refine ⟨?_, rfl⟩
    simp only [Message.serialize, CmdType.serialize, List.length_append] at fits ⊢
    rw [Message.byteSizeLong, CmdType.byteSizeLong, stringSize_eq 10 (by omega), stringSize_eq 26 (by omega),
      stringSize_eq 34 (by omega), int32FieldSize_eq 16 typed.1 typed.2]
    omega
  | notifyConnectionStatus m => exact ⟨int32FieldSize_eq 8 typed.1 typed.2, rfl⟩
  | ePhoneNumber m => exact ⟨EPhoneNumber.byteSizeLong_eq typed fits, rfl⟩
  | sUser m => exact SUser.byteSizeLong_eq typed fits
  | reqSignin m => exact ReqSignin.byteSizeLong_eq typed fits
  | rspSignin m =>
    have name := length_stringField 10 m.name
    refine ⟨?_, rfl⟩
    simp only [Message.serialize, RspSignin.serialize, List.length_append] at fits ⊢
    rw [Message.byteSizeLong, RspSignin.byteSizeLong, stringSize_eq 10 (by omega), boolSize_eq 16]
  | reqMove m =>
    refine ⟨?_, rfl⟩
    rw [Message.byteSizeLong, ReqMove.byteSizeLong, floatSize_eq 13, floatSize_eq 21, ← List.length_append]
    rfl
  | rspMove s | reqAlarm s | rspAlarm s =>
    have text := length_stringField 10 s
    exact ⟨stringSize_eq 10 (Nat.lt_of_le_of_lt text (Nat.lt_trans fits (by decide))), rfl⟩

theorem byteSizeLong_exact_negative :
    let user : SUser := { name := ascii "ann", id := -1, phones := [{ number := ascii "5", type := 1 }] }
    let m : Message := .reqSignin ⟨[user]⟩
    m.Typed ∧ m.byteSizeLong = 25 ∧ m.byteSizeLong = m.serialize.length := by
  intro user m
  have typed : m.Typed := by
    intro u member
    rw [List.mem_singleton.mp member]
    refine ⟨by decide, fun p phone => ?_⟩
    rw [List.mem_singleton.mp phone]
    decide
  exact ⟨typed, by decide, (byteSizeLong_exact m typed (by decide)).1⟩

/-! ### Merges -/

def CmdType.mergeFrom (m source : CmdType) : CmdType where
  type := mergeString m.type source.type
  fromip := mergeString m.fromip source.fromip
  toip := mergeString m.toip source.toip
  size := mergeInt32 m.size source.size

def NotifyConnectionStatus.mergeFrom (m source : NotifyConnectionStatus) : NotifyConnectionStatus where
  status := mergeInt32 m.status source.status

def EPhoneNumber.mergeFrom (m source : EPhoneNumber) : EPhoneNumber where
  number := mergeString m.number source.number
  type := mergeInt32 m.type source.type

def SUser.mergeFrom (m source : SUser) : SUser where
  phones := m.phones ++ source.phones
  name := mergeString m.name source.name
  email := mergeString m.email source.email
  id := mergeInt32 m.id source.id

def ReqSignin.mergeFrom (m source : ReqSignin) : ReqSignin where
  user := m.user ++ source.user

def RspSignin.mergeFrom (m source : RspSignin) : RspSignin where
  name := mergeString m.name source.name
  succ := mergeBool m.succ source.succ

def ReqMove.mergeFrom (m source : ReqMove) : ReqMove where
  forward := mergeFloat m.forward source.forward
  angle := mergeFloat m.angle source.angle

/-- `MergeFrom` of a `Message`. Messages of two types cannot be merged. -/
def Message.mergeFrom : Message → Message → Option Message
  | .cmdType m, .cmdType source => some (.cmdType (m.mergeFrom source))
  | .notifyConnectionStatus m, .notifyConnectionStatus source => some (.notifyConnectionStatus (m.mergeFrom source))
  | .ePhoneNumber m, .ePhoneNumber source => some (.ePhoneNumber (m.mergeFrom source))
  | .sUser m, .sUser source => some (.sUser (m.mergeFrom source))
  | .reqSignin m, .reqSignin source => some (.reqSignin (m.mergeFrom source))
  | .rspSignin m, .rspSignin source => some (.rspSignin (m.mergeFrom source))
  | .reqMove m, .reqMove source => some (.reqMove (m.mergeFrom source))
  | .rspMove s, .rspMove source => some (.rspMove (mergeString s source))
  | .reqAlarm s, .reqAlarm source => some (.reqAlarm (mergeString s source))
  | .rspAlarm s, .rspAlarm source => some (.rspAlarm (mergeString s source))
  | _, _ => none

/-- `CopyFrom` of another message: `Clear`, and then `MergeFrom`. -/
def Message.copyFrom (m source : Message) : Option Message := m.fresh.mergeFrom source

section Merging

variable {budget : Nat}

theorem CmdType.merges {source : CmdType} (valid : (Message.cmdType source).Valid)
    (fits : source.serialize.length < 2 ^ 31) :
    Merges CmdType.field budget CmdType.serialize CmdType.mergeFrom source := by
  intro m rest m' tail
  obtain ⟨type, size, fromip, toip⟩ := valid
  have typeLen := length_stringField 10 source.type
  have fromipLen := length_stringField 26 source.fromip
  have toipLen := length_stringField 34 source.toip
  simp only [CmdType.serialize, List.length_append] at fits
  simp only [CmdType.serialize, List.append_assoc]
  refine parses_mergeString m.type (by decide) (by decide) rfl (by omega) type rfl ?_
  refine parses_mergeInt32 m.size (by decide) (by decide) rfl size.1 size.2 rfl ?_
  refine parses_mergeString m.fromip (by decide) (by decide) rfl (by omega) fromip rfl ?_
  exact parses_mergeString m.toip (by decide) (by decide) rfl (by omega) toip rfl tail

theorem NotifyConnectionStatus.merges {source : NotifyConnectionStatus} (range : IsInt32 source.status) :
    Merges NotifyConnectionStatus.field budget NotifyConnectionStatus.serialize NotifyConnectionStatus.mergeFrom
      source := by
  intro m rest m' tail
  exact parses_mergeInt32 m.status (by decide) (by decide) rfl range.1 range.2 rfl tail

theorem EPhoneNumber.merges {source : EPhoneNumber} (valid : source.Valid)
    (fits : source.serialize.length < 2 ^ 31) :
    Merges EPhoneNumber.field budget EPhoneNumber.serialize EPhoneNumber.mergeFrom source := by
  intro m rest m' tail
  obtain ⟨number, type⟩ := valid
  have numberLen := length_stringField 10 source.number
  simp only [EPhoneNumber.serialize, List.length_append] at fits
  simp only [EPhoneNumber.serialize, List.append_assoc]
  refine parses_mergeString m.number (by decide) (by decide) rfl (by omega) number rfl ?_
  exact parses_mergeInt32 m.type (by decide) (by decide) rfl type.1 type.2 rfl tail

theorem foldl_phones (u : SUser) (phones : List EPhoneNumber) :
    phones.foldl (fun m p => { m with phones := m.phones ++ [p] }) u = { u with phones := u.phones ++ phones } := by
  induction phones generalizing u with
  | nil => simp
  | cons p phones ih => simp [ih]

theorem SUser.merges {source : SUser} (valid : source.Valid) (fits : source.serialize.length < 2 ^ 31) :
    Merges SUser.field (budget + 1) SUser.serialize SUser.mergeFrom source := by
  intro m rest m' tail
  obtain ⟨name, id, email, phones⟩ := valid
  have nameLen := length_stringField 10 source.name
  have emailLen := length_stringField 26 source.email
  simp only [SUser.serialize, List.length_append] at fits
  have short : ∀ p ∈ source.phones, p.serialize.length < 2 ^ 31 := by
    intro p member
    have inside := @length_lt_of_mem _ 34 EPhoneNumber.serialize _ _ member
    omega
  simp only [SUser.serialize, List.append_assoc]
  refine parses_mergeString m.name (by decide) (by decide) rfl (by omega) name rfl ?_
  refine parses_mergeInt32 m.id (by decide) (by decide) rfl id.1 id.2 rfl ?_
  refine parses_mergeString m.email (by decide) (by decide) rfl (by omega) email rfl ?_
  refine parses_repeated (by decide) (by decide) rfl short
    (fun p member => EPhoneNumber.parses (phones p member) (short p member)) ?_
  rw [foldl_phones]
  exact tail

theorem foldl_users (m : ReqSignin) (users : List SUser) :
    users.foldl (fun m u => ⟨m.user ++ [u]⟩) m = ⟨m.user ++ users⟩ := by
  induction users generalizing m with
  | nil => simp
  | cons u users ih => simp [ih]

theorem ReqSignin.merges {source : ReqSignin} (valid : ∀ u ∈ source.user, u.Valid)
    (fits : source.serialize.length < 2 ^ 31) :
    Merges ReqSignin.field (budget + 2) ReqSignin.serialize ReqSignin.mergeFrom source := by
  intro m rest m' tail
  have short : ∀ u ∈ source.user, u.serialize.length < 2 ^ 31 :=
    fun u member => Nat.lt_trans (length_lt_of_mem member) fits
  refine parses_repeated (by decide) (by decide) rfl short
    (fun u member => SUser.parses (valid u member) (short u member)) ?_
  rw [foldl_users]
  exact tail

theorem RspSignin.merges {source : RspSignin} (text : Text source.name)
    (fits : source.serialize.length < 2 ^ 31) :
    Merges RspSignin.field budget RspSignin.serialize RspSignin.mergeFrom source := by
  intro m rest m' tail
  have nameLen := length_stringField 10 source.name
  simp only [RspSignin.serialize, List.length_append] at fits
  simp only [RspSignin.serialize, List.append_assoc]
  refine parses_mergeString m.name (by decide) (by decide) rfl (by omega) text rfl ?_
  exact parses_mergeBool m.succ (by decide) (by decide) rfl rfl tail

theorem ReqMove.merges {source : ReqMove} (forward : IsFloat source.forward) (angle : IsFloat source.angle) :
    Merges ReqMove.field budget ReqMove.serialize ReqMove.mergeFrom source := by
  intro m rest m' tail
  simp only [ReqMove.serialize, List.append_assoc]
  refine parses_mergeFloat m.forward (by decide) (by decide) rfl forward.1 rfl ?_
  exact parses_mergeFloat m.angle (by decide) (by decide) rfl angle.1 rfl tail

theorem merges_text {source : Bytes} (text : Text source) (fits : (stringField 10 source).length < 2 ^ 31) :
    Merges textField budget (stringField 10) mergeString source := by
  intro s rest m' tail
  have textLen := length_stringField 10 source
  exact parses_mergeString s (by decide) (by decide) rfl (by omega) text rfl tail

end Merging

theorem CmdType.clear_mergeFrom (m : CmdType) : ({} : CmdType).mergeFrom m = m := by
  simp [CmdType.mergeFrom, mergeString_nil, mergeInt32_zero]

theorem NotifyConnectionStatus.clear_mergeFrom (m : NotifyConnectionStatus) :
    ({} : NotifyConnectionStatus).mergeFrom m = m := by
  simp [NotifyConnectionStatus.mergeFrom, mergeInt32_zero]

theorem EPhoneNumber.clear_mergeFrom (m : EPhoneNumber) : ({} : EPhoneNumber).mergeFrom m = m := by
  simp [EPhoneNumber.mergeFrom, mergeString_nil, mergeInt32_zero]

theorem SUser.clear_mergeFrom (m : SUser) : ({} : SUser).mergeFrom m = m := by
  simp [SUser.mergeFrom, mergeString_nil, mergeInt32_zero]

theorem ReqSignin.clear_mergeFrom (m : ReqSignin) : ({} : ReqSignin).mergeFrom m = m := rfl

theorem RspSignin.clear_mergeFrom (m : RspSignin) : ({} : RspSignin).mergeFrom m = m := by
  simp [RspSignin.mergeFrom, mergeString_nil, mergeBool_false]

/-- The negative zero is not copied: it is not told from the positive one. -/
theorem ReqMove.clear_mergeFrom {m : ReqMove} (forward : IsFloat m.forward) (angle : IsFloat m.angle) :
    ({} : ReqMove).mergeFrom m = m := by
  have zero {bits : Nat} (float : IsFloat bits) : mergeFloat 0 bits = bits := by
    unfold mergeFloat
    split
    · rfl
    · rename_i none
      exact (float.zero (not_not.mp none)).symm
  simp [ReqMove.mergeFrom, zero forward, zero angle]

/-- A copy is the same message. -/
theorem Message.copyFrom_eq (m : Message) {source : Message} (valid : source.Valid) (alike : m.fresh = source.fresh) :
    m.copyFrom source = some source := by
  rw [copyFrom, alike]
  cases source with
  | cmdType source => exact congrArg (some ∘ cmdType) source.clear_mergeFrom
  | notifyConnectionStatus source => exact congrArg (some ∘ notifyConnectionStatus) source.clear_mergeFrom
  | ePhoneNumber source => exact congrArg (some ∘ ePhoneNumber) source.clear_mergeFrom
  | sUser source => exact congrArg (some ∘ sUser) source.clear_mergeFrom
  | reqSignin source => exact congrArg (some ∘ reqSignin) source.clear_mergeFrom
  | rspSignin source => exact congrArg (some ∘ rspSignin) source.clear_mergeFrom
  | reqMove source => exact congrArg (some ∘ reqMove) (ReqMove.clear_mergeFrom valid.1 valid.2)
  | rspMove s => exact congrArg (some ∘ rspMove) (mergeString_nil s)
  | reqAlarm s => exact congrArg (some ∘ reqAlarm) (mergeString_nil s)
  | rspAlarm s => exact congrArg (some ∘ rspAlarm) (mergeString_nil s)

theorem Message.fresh_eq_of_mergeFrom {a b m : Message} (merged : a.mergeFrom b = some m) : a.fresh = b.fresh := by
  cases a <;> cases b <;> first | rfl | cases merged

theorem concatenation {M : Type} {field : Nat → Option (FieldReader M)} {write : M → Bytes} {merge : M → M → M}
    {clear a b : M} (type : M → Message) (first : Merges field defaultRecursionLimit write merge a)
    (second : Merges field defaultRecursionLimit write merge b) (copies : merge clear a = a) :
    (parseArray field clear (write a ++ write b)).map type id = (type (merge a b), true) := by
  rw [first.parseArray second copies]
  rfl

/-- Parsing the encodings of two messages of a type, one behind the other, gives the second merged into the first; and
a copy of a message is that message. -/
theorem concatenation_merges (a b m : Message) (valid : a.Valid) (valid' : b.Valid) (merged : a.mergeFrom b = some m)
    (fits : (a.serialize ++ b.serialize).length < 2 ^ 31) :
    a.fresh.parseFromArray (a.serialize ++ b.serialize) = (m, true) ∧ a.copyFrom b = some b := by
  refine ⟨?_, Message.copyFrom_eq a valid' (Message.fresh_eq_of_mergeFrom merged)⟩
  rw [List.length_append] at fits
  have short : a.serialize.length < 2 ^ 31 := by omega
  have short' : b.serialize.length < 2 ^ 31 := by omega
  match a, b, merged with
  | .cmdType a, .cmdType b, rfl =>
    exact concatenation .cmdType (CmdType.merges valid short) (CmdType.merges valid' short') a.clear_mergeFrom
  | .notifyConnectionStatus a, .notifyConnectionStatus b, rfl =>
    exact concatenation .notifyConnectionStatus (NotifyConnectionStatus.merges valid)
      (NotifyConnectionStatus.merges valid') a.clear_mergeFrom
  | .ePhoneNumber a, .ePhoneNumber b, rfl =>
    exact concatenation .ePhoneNumber (EPhoneNumber.merges valid short) (EPhoneNumber.merges valid' short')
      a.clear_mergeFrom
  | .sUser a, .sUser b, rfl =>
    exact concatenation .sUser (SUser.merges valid short) (SUser.merges valid' short') a.clear_mergeFrom
  | .reqSignin a, .reqSignin b, rfl =>
    exact concatenation .reqSignin (ReqSignin.merges valid short) (ReqSignin.merges valid' short') a.clear_mergeFrom
  | .rspSignin a, .rspSignin b, rfl =>
    exact concatenation .rspSignin (RspSignin.merges valid short) (RspSignin.merges valid' short') a.clear_mergeFrom
  | .reqMove a, .reqMove b, rfl =>
    exact concatenation .reqMove (ReqMove.merges valid.1 valid.2) (ReqMove.merges valid'.1 valid'.2)
      (ReqMove.clear_mergeFrom valid.1 valid.2)
  | .rspMove a, .rspMove b, rfl =>
    exact concatenation .rspMove (merges_text valid short) (merges_text valid' short') (mergeString_nil a)
  | .reqAlarm a, .reqAlarm b, rfl =>
    exact concatenation .reqAlarm (merges_text valid short) (merges_text valid' short') (mergeString_nil a)
  | .rspAlarm a, .rspAlarm b, rfl =>
    exact concatenation .rspAlarm (merges_text valid short) (merges_text valid' short') (mergeString_nil a)

theorem concatenation_merges_users :
    let a : Message := .sUser { name := ascii "ann", id := 3, phones := [{ number := ascii "5" }] }
    let b : Message := .sUser { id := -1, email := ascii "b@c", phones := [{ number := ascii "7", type := 1 }] }
    let phones : List EPhoneNumber := [{ number := ascii "5" }, { number := ascii "7", type := 1 }]
    let m : Message := .sUser { name := ascii "ann", id := -1, email := ascii "b@c", phones }
    a.Valid ∧ b.Valid ∧ a.mergeFrom b = some m ∧ a.fresh.parseFromArray (a.serialize ++ b.serialize) = (m, true) := by
  intro a b phones m
  have valid : a.Valid := by decide +kernel
  have valid' : b.Valid := by decide +kernel
  exact ⟨valid, valid', by decide +kernel,
    (concatenation_merges a b m valid valid' (by decide +kernel) (by decide +kernel)).1⟩

end MiniProtobuf.BaseCmd
