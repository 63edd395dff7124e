import MiniProtobuf.Android.BaseCmd
import MiniProtobuf.Route.Framing

/-!
# One format on both sides

The pieces that the Android client writes are the frame of the C++ `Send`, and `Parse` takes the
frames of `Send` off a stream one by one.
-/

namespace MiniProtobuf
open Wire BaseCmd

/-! ### Words -/

theorem toByte_shift (v : BitVec 32) {k : Nat} (inside : k + 8 ≤ 32) :
    toByte (v.sshiftRight k &&& 0xFF) = UInt8.ofNat (v.toNat / 2 ^ k) := by
  apply UInt8.toBitVec_inj.mp
  apply BitVec.eq_of_getLsbD_eq
  intro i bound
  have low : (0xFF : BitVec 32).getLsbD i = true := by
    revert i
    decide
  have right : (v.toNat / 2 ^ k % 2 ^ 8).testBit i = v.toNat.testBit (k + i) := by
    rw [Nat.testBit_mod_two_pow, Nat.testBit_div_two_pow, decide_eq_true bound, Bool.true_and, Nat.add_comm]
  have inWord : k + i < 32 := by omega
  have inByte : ¬ 32 ≤ i := by omega
  simp only [toByte, BitVec.getLsbD_setWidth, BitVec.getLsbD_and, low, BitVec.getLsbD_sshiftRight, bound, inWord]
  simp only [inByte, decide_true, decide_false, Bool.not_false, Bool.true_and, Bool.and_true, if_true]
  exact right.symm

theorem intToBytesLittle_ofNat {n : Nat} (word : n < 2 ^ 32) : intToBytesLittle (BitVec.ofNat 32 n) = le32 n := by
  have value : (BitVec.ofNat 32 n).toNat = n := by
    rw [BitVec.toNat_ofNat, Nat.mod_eq_of_lt word]
  have first := @toByte_shift (BitVec.ofNat 32 n) 0 (by decide)
  rw [BitVec.sshiftRight_zero] at first
  rw [intToBytesLittle, first, toByte_shift _ (by decide), toByte_shift _ (by decide), toByte_shift _ (by decide),
    value]
  simp [le32, le, Nat.div_div_eq_div_mul]

theorem masked_toNat (b : UInt8) : (masked b).toNat = b.toNat := by
  have all : ∀ v : BitVec 8, (v.signExtend 32 &&& 0xFF).toNat = v.toNat := by decide
  exact all b.toBitVec

theorem bytesToIntLittle_le32 (n : Nat) : bytesToIntLittle (le32 n) 0 = BitVec.ofNat 32 n := by
  have shifted (b : UInt8) {k : Nat} (inside : k + 8 ≤ 32) : (masked b <<< k).toNat = b.toNat <<< k := by
    have byte := b.toNat_lt
    have power : 2 ^ 8 * 2 ^ k ≤ 2 ^ 32 := by
      rw [← Nat.pow_add]
      exact Nat.pow_le_pow_right (by decide) (by omega)
    rw [BitVec.toNat_shiftLeft, masked_toNat, Nat.shiftLeft_eq]
    apply Nat.mod_eq_of_lt
    calc b.toNat * 2 ^ k < 2 ^ 8 * 2 ^ k := Nat.mul_lt_mul_of_pos_right byte (Nat.two_pow_pos k)
      _ ≤ 2 ^ 32 := power
  have join {low high k : Nat} (below : low < 2 ^ k) : low ||| high <<< k = low + high * 2 ^ k := by
    rw [Nat.or_comm, ← Nat.shiftLeft_add_eq_or_of_lt below, Nat.shiftLeft_eq, Nat.add_comm]
  have digit (m : Nat) : (UInt8.ofNat m).toNat = m % 256 := UInt8.toNat_ofNat'
  apply BitVec.eq_of_toNat_eq
  simp only [bytesToIntLittle, le32, le, List.getD_cons_zero, List.getD_cons_succ, BitVec.toNat_or, masked_toNat,
    shifted _ (show 8 + 8 ≤ 32 by decide), shifted _ (show 16 + 8 ≤ 32 by decide),
    shifted _ (show 24 + 8 ≤ 32 by decide), digit, BitVec.toNat_ofNat]
  rw [@join (n % 256) _ 8 (by omega), @join _ (n / 256 / 256 % 256) 16 (by omega), join (by omega)]
  omega

/-! ### Names -/

def Identifier (X : JavaString) : Prop := ∀ c ∈ X, c.isAlphanum = true ∨ c = '_'

instance (X : JavaString) : Decidable (Identifier X) := List.decidableBAll _ X

theorem Identifier.ne {X : JavaString} (identifier : Identifier X) {c : Char} (other : c.isAlphanum = false)
    (plain : c ≠ '_') : ∀ a ∈ X, (a == c) = false := by
  intro a member
  apply beq_false_of_ne
  rintro rfl
  rcases identifier a member with letter | underscore
  · rw [other] at letter
    cases letter
  · exact plain underscore

theorem javaClass2ProtoTypeName_class {X : JavaString} (spaceless : ∀ a ∈ X, (a == ' ') = false) :
    javaClass2ProtoTypeName ("class BaseCmd.Cmd$".toList ++ X) = "BaseCmd.".toList ++ X := by
  refine @Pattern.replaceAll_front _ _ _ _ _ (fun a => a == ' ') (by decide) (by decide) ?_ spaceless
  simp [Pattern.literal]

theorem protoTypeName2JavaClassName_type {X : JavaString} (identifier : Identifier X) :
    protoTypeName2JavaClassName ("BaseCmd.".toList ++ X) = "class BaseCmd.Cmd$".toList ++ X := by
  refine @Pattern.replaceAll_front _ _ _ _ _ (fun a => a == '.') (by decide) (by decide) ?_ ?_
  · simp [Pattern.literal]
  · exact identifier.ne (by decide) (by decide)

theorem class_parts (X : JavaString) :
    "class BaseCmd.Cmd$".toList ++ X = "class ".toList ++ ("BaseCmd.Cmd$".toList ++ X) := by
  have parts : "class BaseCmd.Cmd$".toList = "class ".toList ++ "BaseCmd.Cmd$".toList := by decide
  exact (congrArg (· ++ X) parts).trans (List.append_assoc _ _ _)

theorem strip_class {X : JavaString} (identifier : Identifier X) :
    Pattern.replaceAll (Pattern.literal "class ".toList) [] ("class BaseCmd.Cmd$".toList ++ X) =
      "BaseCmd.Cmd$".toList ++ X := by
  refine (congrArg (Pattern.replaceAll _ []) (class_parts X)).trans ?_
  refine @Pattern.replaceAll_front _ _ _ _ _ (fun a => a == ' ') (by decide) (by decide) ?_ ?_
  · simp [Pattern.literal]
  · have none : ∀ a ∈ "BaseCmd.Cmd$".toList, (a == ' ') = false := by simp
    intro a member
    rcases List.mem_append.mp member with front | back
    · exact none a front
    · exact identifier.ne (by decide) (by decide) a back

/-! ### Reads that fill their array -/

/-- The next calls of `read` are granted what they ask for. -/
def Granted : List Nat → List Nat → Prop
  | size :: sizes, n :: grants => size ≤ max 1 n ∧ Granted sizes grants
  | _, _ => True

theorem granted_nil (sizes : List Nat) : Granted sizes [] := by
  cases sizes <;> trivial

theorem Granted.tail {size : Nat} {sizes grants : List Nat} (granted : Granted (size :: sizes) grants) :
    Granted sizes grants.tail := by
  cases grants with
  | nil => exact granted_nil sizes
  | cons n grants => exact granted.2

theorem read_granted {front rest : Bytes} {size : Nat} {sizes grants : List Nat} (filled : front.length = size)
    (granted : Granted (size :: sizes) grants) :
    (JavaInput.mk (front ++ rest) grants).read size = (front, ⟨rest, grants.tail⟩) := by
  subst filled
  have inside {n : Nat} (enough : front.length ≤ n) :
      min n (min front.length (front ++ rest).length) = front.length := by
    rw [List.length_append]
    omega
  cases grants with
  | nil =>
    simp only [JavaInput.read, inside (Nat.le_refl _), List.take_left, List.drop_left, Nat.sub_self,
      List.replicate_zero, List.append_nil]
  | cons n grants =>
    simp only [JavaInput.read, inside granted.1, List.take_left, List.drop_left, Nat.sub_self, List.replicate_zero,
      List.append_nil]

/-! ### A message on both sides -/

variable {P : Pool}

def frameOf (header body : Bytes) : Bytes :=
  head ++ (le32 (8 + header.length + body.length) ++ (le32 header.length ++ (header ++ body)))

theorem frame_eq {m : P.Message} (fits : totalOf P m < 2 ^ 31) :
    frame P m = frameOf (headerOf P m) (P.serialize m) := by
  have total : (packetOf m fits).total = 8 + (headerOf P m).length + (P.serialize m).length := by
    rw [Packet.total, length_packetOf]
    omega
  rw [← @packetOf_bytes P m fits, Packet.bytes, total, packetOf, frameOf]

def parsedOf (J : JavaRuntime P) (header body : Bytes) : Parsed P :=
  match J.cmdTypeOf header with
  | none => .thrown .invalidProtocolBuffer
  | some type =>
    match parseDynamic J type body with
    | .error e => .thrown e
    | .ok none => .thrown .nullPointer
    | .ok (some msg) => .dispatched (classString J msg) msg

theorem parse_eq (J : JavaRuntime P) (input : JavaInput) :
    parse J input =
      let (magic, input) := input.read 4
      if magic ≠ getBytes headString then (.headNotRight, input)
      else
        let (btotallen, input) := input.read 4
        let (bheadlen, input) := input.read 4
        let headlen := bytesToIntLittle bheadlen 0
        let bodylen := bytesToIntLittle btotallen 0 - headlen - 8
        if headlen.toInt < 0 ∨ bodylen.toInt < 0 then (.thrown .negativeArraySize, input)
        else
          let (header, input) := input.read headlen.toNat
          let (body, input) := input.read bodylen.toNat
          (parsedOf J header body, input) := by
  rcases first : input.read 4 with ⟨magic, input₁⟩
  rcases second : input₁.read 4 with ⟨btotallen, input₂⟩
  rcases third : input₂.read 4 with ⟨bheadlen, input₃⟩
  simp only [parse, first, second, third]
  split
  · rfl
  split
  · rfl
  obtain ⟨header, input₄⟩ := input₃.read (bytesToIntLittle bheadlen 0).toNat
  obtain ⟨body, input₅⟩ := input₄.read (bytesToIntLittle btotallen 0 - bytesToIntLittle bheadlen 0 - 8).toNat
  simp only [parsedOf]
  cases J.cmdTypeOf header with
  | none => rfl
  | some type =>
    dsimp only
    cases parseDynamic J type body with
    | error e => rfl
    | ok found => cases found <;> rfl

theorem parse_frame (J : JavaRuntime P) {header body : Bytes} {grants : List Nat}
    (int : 8 + header.length + body.length < 2 ^ 31) (rest : Bytes)
    (granted : Granted [4, 4, 4, header.length, body.length] grants) :
    parse J ⟨frameOf header body ++ rest, grants⟩ = (parsedOf J header body, ⟨rest, grants.drop 5⟩) := by
  have magic : getBytes headString = head := by decide
  have four : head.length = 4 := rfl
  have headlen : (BitVec.ofNat 32 header.length).toNat = header.length := by
    rw [BitVec.toNat_ofNat, Nat.mod_eq_of_lt (by omega)]
  have bodylen : BitVec.ofNat 32 (8 + header.length + body.length) - BitVec.ofNat 32 header.length - 8 =
      BitVec.ofNat 32 body.length := by
    have eight : (8 : BitVec 32).toNat = 8 := rfl
    apply BitVec.eq_of_toNat_eq
    simp only [BitVec.toNat_sub, BitVec.toNat_ofNat, eight]
    omega
  have bodylen' : (BitVec.ofNat 32 body.length).toNat = body.length := by
    rw [BitVec.toNat_ofNat, Nat.mod_eq_of_lt (by omega)]
  have positive : ¬ ((BitVec.ofNat 32 header.length).toInt < 0 ∨ (BitVec.ofNat 32 body.length).toInt < 0) := by
    rw [BitVec.toInt_eq_toNat_cond, BitVec.toInt_eq_toNat_cond, headlen, bodylen']
    omega
  have dropped : grants.drop 5 = grants.tail.tail.tail.tail.tail := by
    simp only [← List.drop_one, List.drop_drop, Nat.reduceAdd]
  rw [parse_eq, frameOf, dropped]
  simp only [List.append_assoc, read_granted four granted, magic, read_granted (length_le32 _) granted.tail,
    read_granted (length_le32 _) granted.tail.tail, bytesToIntLittle_le32, bodylen, positive, headlen, bodylen',
    read_granted rfl granted.tail.tail.tail, read_granted rfl granted.tail.tail.tail.tail, ne_eq, not_true_eq_false,
    if_false]

/-- The runtimes agree on a message of the top-level type `X`: its names, its bytes, and that
parsing undoes serialising. -/
structure Agrees (J : JavaRuntime P) (X : JavaString) (m : P.Message) : Prop where
  identifier : Identifier X
  getTypeName : P.getTypeName m = getBytes ("BaseCmd.".toList ++ X)
  getName : J.getName m = "BaseCmd.Cmd$".toList ++ X
  toByteArray : J.toByteArray m = P.serialize m
  parseFrom : ∃ clazz parseFrom, J.forName ("BaseCmd.Cmd$".toList ++ X) = some clazz ∧
    clazz.parseFrom = some parseFrom ∧ parseFrom (P.serialize m) = some m
  cmdType : ∀ size, J.cmdType ("BaseCmd.".toList ++ X) size =
    CmdType.serialize { type := getBytes ("BaseCmd.".toList ++ X), size := size.toInt }
  cmdTypeOf : ∀ size, J.cmdTypeOf (J.cmdType ("BaseCmd.".toList ++ X) size) = some ("BaseCmd.".toList ++ X)

namespace Agrees

variable {J : JavaRuntime P} {X : JavaString} {m : P.Message}

theorem classString (agrees : Agrees J X m) : MiniProtobuf.classString J m = "class BaseCmd.Cmd$".toList ++ X :=
  calc "class ".toList ++ J.getName m = "class ".toList ++ ("BaseCmd.Cmd$".toList ++ X) :=
        congrArg ("class ".toList ++ ·) agrees.getName
    _ = "class BaseCmd.Cmd$".toList ++ X := (class_parts X).symm

theorem header (agrees : Agrees J X m) :
    J.cmdType ("BaseCmd.".toList ++ X) (BitVec.ofNat 32 (P.serialize m).length) = headerOf P m := by
  have size : (BitVec.ofNat 32 (P.serialize m).length).toInt = toInt32 (P.serialize m).length := BitVec.toInt_ofNat' _
  rw [agrees.cmdType, ← agrees.getTypeName, size, headerOf, MiniProtobuf.cmdTypeOf]

theorem writes (agrees : Agrees J X m) (fits : totalOf P m < 2 ^ 31) : (writeRunnable J m).flatten = frame P m := by
  have bound := fits
  rw [totalOf] at bound
  have total : 8 + BitVec.ofNat 32 (headerOf P m).length + BitVec.ofNat 32 (P.serialize m).length =
      BitVec.ofNat 32 (packetOf m fits).total := by
    rw [Packet.total, length_packetOf]
    have eight : (8 : BitVec 32).toNat = 8 := rfl
    apply BitVec.eq_of_toNat_eq
    simp only [BitVec.toNat_add, BitVec.toNat_ofNat, eight]
    omega
  have word : (packetOf m fits).total < 2 ^ 32 := by
    rw [Packet.total, length_packetOf]
    omega
  have magic : (getBytes headString).take 4 = head := by decide
  rw [writeRunnable, agrees.classString,
    javaClass2ProtoTypeName_class (agrees.identifier.ne (by decide) (by decide)), agrees.toByteArray]
  simp only [agrees.header, total, intToBytesLittle_ofNat word, magic,
    intToBytesLittle_ofNat (show (headerOf P m).length < 2 ^ 32 by omega)]
  rw [← @packetOf_bytes P m fits, Packet.bytes, packetOf]
  simp

theorem parseDynamic (agrees : Agrees J X m) :
    MiniProtobuf.parseDynamic J ("BaseCmd.".toList ++ X) (P.serialize m) = .ok (some m) := by
  obtain ⟨clazz, parseFrom, found, method, parsed⟩ := agrees.parseFrom
  simp only [MiniProtobuf.parseDynamic, protoTypeName2JavaClassName_type agrees.identifier,
    strip_class agrees.identifier, found, method, parsed]

theorem parsedOf (agrees : Agrees J X m) :
    MiniProtobuf.parsedOf J (headerOf P m) (P.serialize m) = .dispatched ("class BaseCmd.Cmd$".toList ++ X) m := by
  have header : J.cmdTypeOf (headerOf P m) = some ("BaseCmd.".toList ++ X) := by
    rw [← agrees.header, agrees.cmdTypeOf]
  simp only [MiniProtobuf.parsedOf, header, agrees.parseDynamic, agrees.classString]

theorem parse (agrees : Agrees J X m) (fits : totalOf P m < 2 ^ 31) (rest : Bytes) :
    MiniProtobuf.parse J ⟨frame P m ++ rest, []⟩ = (.dispatched ("class BaseCmd.Cmd$".toList ++ X) m, ⟨rest, []⟩) := by
  rw [frame_eq fits, parse_frame J fits rest (granted_nil _), agrees.parsedOf, List.drop_nil]

end Agrees

/-! ### The package -/

theorem prototypes_named : ∀ q ∈ Message.prototypes, q ≠ .ePhoneNumber {} →
    Identifier (simpleName q.getTypeName) ∧ asText q.getTypeName = "BaseCmd.".toList ++ simpleName q.getTypeName ∧
      getBytes (asText q.getTypeName) = q.getTypeName ∧
      javaName q.getTypeName = "BaseCmd.Cmd$".toList ++ simpleName q.getTypeName ∧
      Text q.getTypeName ∧ q.getTypeName.length < 100 ∧ javaName q.getTypeName ≠ "BaseCmd.Cmd".toList ∧
      (Message.prototypes.find? fun r => javaName r.getTypeName == javaName q.getTypeName) = some q := by
  decide +kernel

/-- What is asked of the runtimes holds of the messages of the package. -/
theorem agrees_baseCmd {m : Message} (top : ∀ p, m ≠ .ePhoneNumber p) (valid : m.Valid)
    (fits : m.serialize.length < 2 ^ 31) : Agrees javaBaseCmd (simpleName m.getTypeName) m := by
  have member : m.fresh ∈ Message.prototypes := List.mem_of_find?_eq_some m.createMessage_getTypeName
  have other : m.fresh ≠ .ePhoneNumber {} := by
    cases m with
    | ePhoneNumber p => exact absurd rfl (top p)
    | _ => exact fun same => Message.noConfusion same
  have name : m.fresh.getTypeName = m.getTypeName := by cases m <;> rfl
  have named := prototypes_named m.fresh member other
  rw [name] at named
  obtain ⟨identifier, text, bytes, full, utf8, short, inner, found⟩ := named
  constructor
  · exact identifier
  · exact bytes.symm.trans (congrArg getBytes text)
  · exact full
  · rfl
  · have parsed := Message.parseFromArray_serialize valid fits
    refine ⟨⟨some (javaParseFrom m.fresh)⟩, javaParseFrom m.fresh, ?_, rfl, ?_⟩
    · rw [← full]
      exact forName_javaName inner found
    · exact javaParseFrom_ok parsed
  · exact fun _ => rfl
  · intro size
    have range : IsInt32 size.toInt := ⟨size.le_toInt, size.toInt_lt⟩
    have length : (CmdType.serialize { type := m.getTypeName, size := size.toInt }).length < 2 ^ 31 := by
      have header := length_stringField_le 10 m.getTypeName
      have number := length_int32Field_le 16 size.toInt
      have absent (tag : UInt8) : (stringField tag []).length = 0 := rfl
      simp only [CmdType.serialize, List.length_append, absent]
      omega
    have parses := @CmdType.parses { type := m.getTypeName, size := size.toInt } defaultRecursionLimit utf8 range
      rfl rfl length
    rw [← text]
    exact cmdTypeOf_cmdType bytes parses.parseArray

def typed (m : Message) : JavaString × Pool.baseCmd.Message := (simpleName m.getTypeName, m)

theorem agrees_typed {messages : List Message} (top : ∀ m ∈ messages, ∀ p, m ≠ .ePhoneNumber p)
    (valid : ∀ m ∈ messages, m.Valid ∧ totalOf .baseCmd m < 2 ^ 31) :
    ∀ p ∈ messages.map typed, Agrees javaBaseCmd p.1 p.2 ∧ totalOf .baseCmd p.2 < 2 ^ 31 := by
  intro p sent
  obtain ⟨m, member, rfl⟩ := List.mem_map.mp sent
  obtain ⟨allowed, fits⟩ := valid m member
  have short : m.serialize.length < 2 ^ 31 := Nat.lt_of_le_of_lt (Nat.le_add_left _ _) fits
  exact ⟨agrees_baseCmd (top m member) allowed short, fits⟩

/-! ### Streams -/

theorem step_parse (J : JavaRuntime P) (input : JavaInput) :
    (parseMachine J).step input () = some ((parse J input).2, [(parse J input).1]) := rfl

theorem run_parse {J : JavaRuntime P} {T : Type} {piece : T → Bytes} {gives : T → Parsed P} {ts : List T}
    (takes : ∀ t ∈ ts, ∀ rest, parse J ⟨piece t ++ rest, []⟩ = (gives t, ⟨rest, []⟩)) :
    (parseMachine J).run ⟨ts.flatMap piece, []⟩ (List.replicate ts.length ()) = some (⟨[], []⟩, ts.map gives) := by
  induction ts with
  | nil => rfl
  | cons t ts ih =>
    have rest := ih fun u later => takes u (List.mem_cons_of_mem t later)
    have first := takes t List.mem_cons_self (ts.flatMap piece)
    rw [List.flatMap_cons, List.length_cons, List.replicate_succ]
    refine Machine.run_cons_eq_some.mpr ⟨⟨ts.flatMap piece, []⟩, [gives t], ts.map gives, ?_, rest, rfl⟩
    rw [step_parse, first]

/-- What the Android client writes for a message is what `Send` appends for it, and from what `Send`
appends for any messages, `Parse` dispatches them in order and leaves nothing. -/
theorem java_speaks_cpp {J : JavaRuntime P} {typed : List (JavaString × P.Message)} {sender : Route}
    (agrees : ∀ p ∈ typed, Agrees J p.1 p.2) (fits : ∀ p ∈ typed, totalOf P p.2 < 2 ^ 31)
    (empty : sender.dataStreamSend = []) :
    (∀ p ∈ typed, ∀ r, (send P r p.2).1.dataStreamSend = r.dataStreamSend ++ (writeRunnable J p.2).flatten) ∧
      (parseMachine J).run ⟨((typed.map Prod.snd).foldl (fun r m => (send P r m).1) sender).dataStreamSend, []⟩
          (List.replicate typed.length ()) =
        some (⟨[], []⟩, typed.map fun p => .dispatched ("class BaseCmd.Cmd$".toList ++ p.1) p.2) := by
  constructor
  · intro p member r
    rw [(agrees p member).writes (fits p member), send]
  · rw [foldl_send]
    dsimp only
    rw [empty, List.nil_append, List.flatMap_map]
    exact run_parse fun p member rest => (agrees p member).parse (fits p member) rest

theorem java_speaks_cpp_moves :
    let messages : List Pool.baseCmd.Message := [Message.reqMove ⟨1, 2⟩, Message.rspMove (ascii "ok")]
    let sender := messages.foldl (fun r m => (send .baseCmd r m).1) (Route.new 0 [] [])
    (∀ m ∈ messages, (send .baseCmd (Route.new 0 [] []) m).1.dataStreamSend = (writeRunnable javaBaseCmd m).flatten) ∧
      (parseMachine javaBaseCmd).run ⟨sender.dataStreamSend, []⟩ [(), ()] =
        some (⟨[], []⟩, [.dispatched ("class BaseCmd.Cmd$".toList ++ simpleName (ascii "BaseCmd.reqMove"))
            (Message.reqMove ⟨1, 2⟩),
          .dispatched ("class BaseCmd.Cmd$".toList ++ simpleName (ascii "BaseCmd.rspMove"))
            (Message.rspMove (ascii "ok"))]) := by
  intro messages sender
  have valid : ∀ m ∈ messages, Message.Valid m ∧ totalOf .baseCmd m < 2 ^ 31 := by decide +kernel
  have top : ∀ m ∈ messages, ∀ p, m ≠ Message.ePhoneNumber p := by
    intro m member p
    rcases List.mem_pair.mp member with rfl | rfl
    · exact fun same => Message.noConfusion same
    · exact fun same => Message.noConfusion same
  have agrees := agrees_typed top valid
  have both := @java_speaks_cpp .baseCmd javaBaseCmd (messages.map typed) (Route.new 0 [] [])
    (fun p sent => (agrees p sent).1) (fun p sent => (agrees p sent).2) rfl
  exact ⟨fun m member => both.1 _ (List.mem_map_of_mem member) _, both.2⟩

end MiniProtobuf
