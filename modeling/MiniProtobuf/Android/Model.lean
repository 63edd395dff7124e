import MiniProtobuf.Machine.Writers
import MiniProtobuf.Route.Model
import MiniProtobuf.Wire.Pattern

/-!
# `MessageRoute.java`

The Android client's route: the thread that writes a frame in five pieces, and `Parse` with the
exceptions that leave it. What the Java protobuf runtime and the class loader do is a parameter; an
`int` is 32 bits.
-/

namespace MiniProtobuf
open Wire BaseCmd Machine

abbrev JavaString := List Char

/-- `String.getBytes`, in UTF-8. -/
def getBytes (s : JavaString) : Bytes := s.flatMap String.utf8EncodeChar

def headString : JavaString := "pbh\x00".toList

/-! ### Names -/

/-- A dot in a regular expression: anything but a line terminator. -/
def dot (c : Char) : Bool := !([10, 13, 0x85, 0x2028, 0x2029].contains c.toNat)

/-- The pattern is `class BaseCmd.Cmd\$`, with its first dot as it stands. -/
def javaClass2ProtoTypeName (className : JavaString) : JavaString :=
  Pattern.replaceAll (Pattern.literal "class BaseCmd".toList ++ dot :: Pattern.literal "Cmd$".toList) "BaseCmd.".toList
    className

def protoTypeName2JavaClassName (typeName : JavaString) : JavaString :=
  Pattern.replaceAll (Pattern.literal "BaseCmd.".toList) "class BaseCmd.Cmd$".toList typeName

/-! ### Integers -/

def toByte (v : BitVec 32) : UInt8 := UInt8.ofBitVec (v.setWidth 8)

/-- A `byte` is signed, and is promoted to `int` before the mask. -/
def masked (b : UInt8) : BitVec 32 := b.toBitVec.signExtend 32 &&& 0xFF

def intToBytesLittle (value : BitVec 32) : Bytes :=
  [toByte (value &&& 0xFF), toByte (value.sshiftRight 8 &&& 0xFF), toByte (value.sshiftRight 16 &&& 0xFF),
    toByte (value.sshiftRight 24 &&& 0xFF)]

def bytesToIntLittle (src : Bytes) (offset : Nat) : BitVec 32 :=
  masked (src.getD offset 0) ||| masked (src.getD (offset + 1) 0) <<< 8 ||| masked (src.getD (offset + 2) 0) <<< 16 |||
    masked (src.getD (offset + 3) 0) <<< 24

/-! ### The runtime -/

/-- A class that the loader finds, and its static `parseFrom(byte[])` if it has one. -/
structure JavaClass (P : Pool) where
  parseFrom : Option (Bytes → Option P.Message)

/-- The messages of a pool as the Java runtime has them. -/
structure JavaRuntime (P : Pool) where
  /-- `msg.getClass().getName()`. -/
  getName : P.Message → JavaString
  toByteArray : P.Message → Bytes
  forName : JavaString → Option (JavaClass P)
  /-- `toByteArray` of a `CmdType` built with a type and a size. -/
  cmdType : JavaString → BitVec 32 → Bytes
  /-- `CmdType.parseFrom(bytes).getType()`. -/
  cmdTypeOf : Bytes → Option JavaString

variable {P : Pool} (J : JavaRuntime P)

/-- `msg.getClass().toString()`. -/
def classString (msg : P.Message) : JavaString := "class ".toList ++ J.getName msg

/-! ### Sending -/

/-- The calls of `write` that `WriteRunnable.run` makes on a connected socket. -/
def writeRunnable (msg : P.Message) : List Bytes :=
  let bbody := J.toByteArray msg
  let stype := javaClass2ProtoTypeName (classString J msg)
  let bodylen := BitVec.ofNat 32 bbody.length
  let bhead := J.cmdType stype bodylen
  let headlen := BitVec.ofNat 32 bhead.length
  let totallen := 8 + headlen + bodylen
  [(getBytes headString).take 4, intToBytesLittle totallen, intToBytesLittle headlen, bhead, bbody]

/-- A step of the threads: `Send` starts one, or one makes its next call of `write`. -/
inductive WriteAction (P : Pool) where
  | send (msg : P.Message)
  | write (i : Nat)

def writeMachine : Machine (Writers UInt8) (WriteAction P) P.Message where
  step s
    | .send msg => some (s.start (writeRunnable J msg), [msg])
    | .write i => (s.write i).map fun s => (s, [])

/-! ### Receiving -/

/-- An input stream: the bytes that come, and how many of them each call of `read` is granted. -/
structure JavaInput where
  stream : Bytes
  grants : List Nat

/-- `read` into a new array. With no grant left it is filled as far as the stream goes. -/
def JavaInput.read (input : JavaInput) (size : Nat) : Bytes × JavaInput :=
  let granted := match input.grants with
    | [] => size
    | n :: _ => max 1 n
  let n := min granted (min size input.stream.length)
  (input.stream.take n ++ List.replicate (size - n) 0, ⟨input.stream.drop n, input.grants.tail⟩)

inductive JavaException where
  | negativeArraySize
  /-- An `IOException`, which `Parse` declares. -/
  | invalidProtocolBuffer
  | illegalArgument
  | nullPointer
  deriving DecidableEq

/-- `null` when there is no such class. -/
def parseDynamic (type : JavaString) (bytes : Bytes) : Except JavaException (Option P.Message) :=
  let type := protoTypeName2JavaClassName type
  let type := Pattern.replaceAll (Pattern.literal "class ".toList) [] type
  match J.forName type with
  | none => .ok none
  | some clazz =>
    match clazz.parseFrom with
    | none => .error .illegalArgument
    | some parseFrom =>
      match parseFrom bytes with
      | none => .error .illegalArgument
      | some msg => .ok (some msg)

inductive Parsed (P : Pool) where
  | dispatched (typeName : JavaString) (msg : P.Message)
  | headNotRight
  | thrown (e : JavaException)

/-- `MessageRoute.Parse`. A head decodes to `HeadString` only from its own four bytes. -/
def parse (input : JavaInput) : Parsed P × JavaInput :=
  let (head, input) := input.read 4
  if head ≠ getBytes headString then (.headNotRight, input)
  else
    let (btotallen, input) := input.read 4
    let totallen := bytesToIntLittle btotallen 0
    let (bheadlen, input) := input.read 4
    let headlen := bytesToIntLittle bheadlen 0
    let bodylen := totallen - headlen - 8
    if headlen.toInt < 0 ∨ bodylen.toInt < 0 then (.thrown .negativeArraySize, input)
    else
      let (bheaddata, input) := input.read headlen.toNat
      let (bbodydata, input) := input.read bodylen.toNat
      match J.cmdTypeOf bheaddata with
      | none => (.thrown .invalidProtocolBuffer, input)
      | some type =>
        match parseDynamic J type bbodydata with
        | .error e => (.thrown e, input)
        | .ok none => (.thrown .nullPointer, input)
        | .ok (some msg) => (.dispatched (classString J msg) msg, input)

/-- A step of the receiving thread is a call of `Parse`. -/
def parseMachine : Machine JavaInput Unit (Parsed P) where
  step input _ :=
    let (parsed, input) := parse J input
    some (input, [parsed])

end MiniProtobuf
