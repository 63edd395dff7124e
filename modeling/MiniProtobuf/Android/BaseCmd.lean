import MiniProtobuf.Android.Model

/-!
# The classes of `BaseCmd.Cmd`

The Java side of the package: a type is a nested class of `BaseCmd.Cmd`, and its bytes are those of
the C++ side.
-/

namespace MiniProtobuf
open Wire BaseCmd

def asText (bytes : Bytes) : JavaString := bytes.map fun b => Char.ofNat b.toNat

def simpleName (typeName : Bytes) : JavaString := (asText typeName).drop 8

/-- `BaseCmd.Cmd$A$B` for the type `BaseCmd.A.B`. -/
def javaName (typeName : Bytes) : JavaString :=
  "BaseCmd.Cmd$".toList ++ (simpleName typeName).map fun c => if c = '.' then '$' else c

/-- The `parseFrom` of a generated class, which throws when the bytes do not parse. -/
def javaParseFrom (prototype : Message) (bytes : Bytes) : Option Message :=
  match prototype.parseFromArray bytes with
  | (msg, true) => some msg
  | (_, false) => none

def javaBaseCmd : JavaRuntime .baseCmd where
  getName m := javaName m.getTypeName
  toByteArray := Message.serialize
  forName name :=
    if name = "BaseCmd.Cmd".toList then some ⟨none⟩
    else (Message.prototypes.find? fun m => javaName m.getTypeName == name).map fun m => ⟨some (javaParseFrom m)⟩
  cmdType type size := CmdType.serialize { type := getBytes type, size := size.toInt }
  cmdTypeOf bytes :=
    match CmdType.parseFromArray bytes with
    | (header, true) => some (asText header.type)
    | (_, false) => none

theorem javaParseFrom_ok {prototype msg : Message} {bytes : Bytes}
    (parsed : prototype.parseFromArray bytes = (msg, true)) :
    javaParseFrom prototype bytes = some msg := by
  rw [javaParseFrom, parsed]

theorem forName_javaName {name : JavaString} {prototype : Message} (inner : name ≠ "BaseCmd.Cmd".toList)
    (found : (Message.prototypes.find? fun m => javaName m.getTypeName == name) = some prototype) :
    javaBaseCmd.forName name = some ⟨some (javaParseFrom prototype)⟩ := by
  unfold javaBaseCmd
  dsimp only
  rw [if_neg inner, found, Option.map_some]

theorem cmdTypeOf_cmdType {type : JavaString} {typeName : Bytes} {size : BitVec 32} (bytes : getBytes type = typeName)
    (parsed : CmdType.parseFromArray (CmdType.serialize { type := typeName, size := size.toInt }) =
      ({ type := typeName, size := size.toInt }, true)) :
    javaBaseCmd.cmdTypeOf (javaBaseCmd.cmdType type size) = some (asText typeName) := by
  unfold javaBaseCmd
  dsimp only
  rw [bytes, parsed]

end MiniProtobuf
