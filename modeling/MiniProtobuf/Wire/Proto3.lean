import MiniProtobuf.Wire.Bytes

/-!
# The proto3 wire format

Varints, tags, field readers and the merge loop that protobuf generates for every message type.
A reader works on the bytes up to the current limit and keeps what it stored when it fails, so a
failed parse leaves a partial message. `Parses` is the statement that a byte string merges into a
message completely; each kind of field has one rule for it.
-/

namespace Wire

/-! ### Varints -/

/-- Seven bits a byte, least significant first, the high bit set on all but the last. -/
def varint : Nat → Nat → Bytes
  | 0, _ => []
  | k + 1, n => if n < 128 then [UInt8.ofNat n] else UInt8.ofNat (n % 128 + 128) :: varint k (n / 128)

def writeVarint (n : Nat) : Bytes := varint 10 n

/-- A varint of at most `k` bytes, and the bytes after it. -/
def unvarint : Nat → Bytes → Option (Nat × Bytes)
  | 0, _ => none
  | _ + 1, [] => none
  | k + 1, b :: bs =>
    if b.toNat < 128 then some (b.toNat, bs)
    else
      match unvarint k bs with
      | none => none
      | some (high, rest) => some (b.toNat - 128 + 128 * high, rest)

/-- `ReadVarint64`: ten bytes at most, bits past the 64th dropped. -/
def readVarint64 (bs : Bytes) : Option (Nat × Bytes) :=
  match unvarint 10 bs with
  | none => none
  | some (n, rest) => some (n % 2 ^ 64, rest)

/-- `ReadVarint32` reads as far and keeps the low word. -/
def readVarint32 (bs : Bytes) : Option (Nat × Bytes) :=
  match unvarint 10 bs with
  | none => none
  | some (n, rest) => some (n % 2 ^ 32, rest)

theorem unvarint_varint {k n : Nat} (rest : Bytes) (pos : 0 < k) (fits : n < 128 ^ k) :
    unvarint k (varint k n ++ rest) = some (n, rest) := by
  induction k generalizing n with
  | zero => omega
  | succ k ih =>
    rw [varint]
    split
    · rename_i small
      have byte : (UInt8.ofNat n).toNat = n := by rw [UInt8.toNat_ofNat']; omega
      simp [unvarint, byte, small]
    · rename_i large
      have byte : (UInt8.ofNat (n % 128 + 128)).toNat = n % 128 + 128 := by rw [UInt8.toNat_ofNat']; omega
      have kpos : 0 < k := by
        rcases Nat.eq_zero_or_pos k with rfl | kpos
        · simp at fits; omega
        · exact kpos
      have high : n / 128 < 128 ^ k := by
        rw [Nat.pow_succ] at fits
        exact Nat.div_lt_of_lt_mul (by omega)
      have continues : ¬ n % 128 + 128 < 128 := by omega
      have value : n % 128 + 128 - 128 + 128 * (n / 128) = n := by omega
      simp only [List.cons_append, unvarint, byte, continues, if_false, ih kpos high, value]

theorem readVarint64_write {n : Nat} (rest : Bytes) (fits : n < 2 ^ 64) :
    readVarint64 (writeVarint n ++ rest) = some (n, rest) := by
  have raw := unvarint_varint (k := 10) rest (by omega) (show n < 128 ^ 10 by omega)
  simp only [readVarint64, writeVarint, raw, Nat.mod_eq_of_lt fits]

theorem readVarint32_write {n : Nat} (rest : Bytes) (fits : n < 2 ^ 64) :
    readVarint32 (writeVarint n ++ rest) = some (n % 2 ^ 32, rest) := by
  have raw := unvarint_varint (k := 10) rest (by omega) (show n < 128 ^ 10 by omega)
  simp only [readVarint32, writeVarint, raw]

theorem length_varint_pos {k n : Nat} (pos : 0 < k) : 0 < (varint k n).length := by
  obtain ⟨j, rfl⟩ := Nat.exists_eq_add_one.mpr pos
  rw [varint]
  split <;> simp

theorem length_writeVarint_pos (n : Nat) : 0 < (writeVarint n).length := length_varint_pos (by omega)

theorem length_varint_le {k n : Nat} : (varint k n).length ≤ k := by
  induction k generalizing n with
  | zero => exact Nat.le_refl 0
  | succ k ih =>
    rw [varint]
    split
    · simp
    · exact Nat.succ_le_succ ih

/-! ### Fields that a message type does not know -/

/-- `ReadTag`. The value 0 stands for the end of the input as well as for a malformed tag. -/
def readTag (bs : Bytes) : Nat × Bytes :=
  match readVarint32 bs with
  | none => (0, [])
  | some (tag, rest) => (tag, rest)

mutual

def skipField : Nat → Nat → Nat → Bytes → Option Bytes
  | 0, _, _, _ => none
  | fuel + 1, budget, tag, bs =>
    if tag / 8 = 0 then none
    else match tag % 8 with
      | 0 => (readVarint64 bs).map Prod.snd
      | 1 => if 8 ≤ bs.length then some (bs.drop 8) else none
      | 2 =>
        match readVarint32 bs with
        | none => none
        | some (length, rest) =>
          if length < 2 ^ 31 ∧ length ≤ rest.length then some (rest.drop length) else none
      | 3 =>
        match budget with
        | 0 => none
        | budget + 1 => skipGroup fuel budget (tag + 1) bs
      | 5 => if 4 ≤ bs.length then some (bs.drop 4) else none
      | _ => none

/-- `WireFormat::SkipMessage` up to the end-group tag that closes the group. -/
def skipGroup : Nat → Nat → Nat → Bytes → Option Bytes
  | 0, _, _, _ => none
  | fuel + 1, budget, endTag, bs =>
    let (tag, rest) := readTag bs
    if tag = 0 then none
    else if tag % 8 = 4 then if tag = endTag then some rest else none
    else
      match skipField fuel budget tag rest with
      | none => none
      | some rest' => skipGroup fuel budget endTag rest'

end

/-! ### The merge loop -/

/-- Reads one field into a message under a recursion budget: the message after it, and the bytes
that follow unless the read failed. -/
abbrev FieldReader (M : Type) := Nat → M → Bytes → M × Option Bytes

/-- What `MergePartialFromCodedStream` leaves: the message, its result, and
`legitimate_message_end_`. -/
structure Merged (M : Type) where
  msg : M
  ok : Bool
  atEnd : Bool
  deriving DecidableEq

/-- The generated loop. `field` gives the reader of each tag that the message type knows. -/
def mergeLoop {M : Type} (field : Nat → Option (FieldReader M)) (budget : Nat) : Nat → M → Bytes → Merged M
  | 0, m, _ => ⟨m, false, false⟩
  | fuel + 1, m, bs =>
    if bs = [] then ⟨m, true, true⟩
    else
      let (tag, rest) := readTag bs
      if tag = 0 then ⟨m, true, false⟩
      else
        match field tag with
        | some read =>
          match read budget m rest with
          | (m', some rest') => mergeLoop field budget fuel m' rest'
          | (m', none) => ⟨m', false, false⟩
        | none =>
          match skipField (2 * rest.length + 2) budget tag rest with
          | some rest' => mergeLoop field budget fuel m rest'
          | none => ⟨m, false, false⟩

/-- Every round reads at least the byte of a tag, so the length is fuel enough. -/
def mergePartial {M : Type} (field : Nat → Option (FieldReader M)) (budget : Nat) (m : M) (bs : Bytes) : Merged M :=
  mergeLoop field budget (bs.length + 1) m bs

def defaultRecursionLimit : Nat := 100

/-- `ParseFromArray` of a cleared message: what it left there, and its result. -/
def parseArray {M : Type} (field : Nat → Option (FieldReader M)) (clear : M) (bs : Bytes) : M × Bool :=
  let merged := mergePartial field defaultRecursionLimit clear bs
  (merged.msg, merged.ok && merged.atEnd)

/-! ### Field readers and writers -/

/-- `IsStructurallyValidUTF8`: no overlong form, no surrogate, nothing past U+10FFFF. -/
def isStructurallyValidUTF8 : Bytes → Bool
  | [] => true
  | a :: bs =>
    if a < 0x80 then isStructurallyValidUTF8 bs
    else match bs with
      | [] => false
      | b :: cs =>
        if 0xC2 ≤ a ∧ a ≤ 0xDF then (0x80 ≤ b ∧ b ≤ 0xBF) && isStructurallyValidUTF8 cs
        else match cs with
          | [] => false
          | c :: ds =>
            if 0xE0 ≤ a ∧ a ≤ 0xEF then
              ((if a = 0xE0 then 0xA0 else 0x80) ≤ b ∧ b ≤ (if a = 0xED then 0x9F else 0xBF) ∧
                0x80 ≤ c ∧ c ≤ 0xBF) && isStructurallyValidUTF8 ds
            else match ds with
              | [] => false
              | d :: es =>
                (0xF0 ≤ a ∧ a ≤ 0xF4 ∧
                  (if a = 0xF0 then 0x90 else 0x80) ≤ b ∧ b ≤ (if a = 0xF4 then 0x8F else 0xBF) ∧
                  0x80 ≤ c ∧ c ≤ 0xBF ∧ 0x80 ≤ d ∧ d ≤ 0xBF) && isStructurallyValidUTF8 es

section Fields

variable {M : Type}

/-- `ReadString` and `VerifyUtf8String`. A string cut short, or not UTF-8, is stored all the same. -/
def readString (set : M → Bytes → M) : FieldReader M := fun _ m bs =>
  match readVarint32 bs with
  | none => (m, none)
  | some (length, rest) =>
    if 2 ^ 31 ≤ length then (m, none)
    else if rest.length < length then (set m rest, none)
    else
      let value := rest.take length
      (set m value, if isStructurallyValidUTF8 value then some (rest.drop length) else none)

/-- `ReadPrimitive` of an `int32` or of an open enum. -/
def readInt32 (set : M → Int → M) : FieldReader M := fun _ m bs =>
  match readVarint32 bs with
  | none => (m, none)
  | some (n, rest) => (set m (toInt32 n), some rest)

def readBool (set : M → Bool → M) : FieldReader M := fun _ m bs =>
  match readVarint64 bs with
  | none => (m, none)
  | some (n, rest) => (set m (n != 0), some rest)

/-- A `float` is its 32 bits. -/
def readFloat (set : M → Nat → M) : FieldReader M := fun _ m bs =>
  if 4 ≤ bs.length then (set m (ofLe (bs.take 4)), some (bs.drop 4)) else (m, none)

/-- `ReadMessage` into the element that `add_…` has just appended. A length past the limit leaves
the limit where it was. -/
def readMessage {S : Type} (field : Nat → Option (FieldReader S)) (clear : S) (add : M → S → M) : FieldReader M :=
  fun budget m bs =>
    match readVarint64 bs with
    | none => (add m clear, none)
    | some (length, rest) =>
      if 2 ^ 31 ≤ length then (add m clear, none)
      else
        match budget with
        | 0 => (add m clear, none)
        | budget + 1 =>
          let merged := mergePartial field budget clear (rest.take length)
          (add m merged.msg, if merged.ok && merged.atEnd then some (rest.drop length) else none)

/-- Proto3 writes no field that holds its default. -/
def stringField (tag : UInt8) (s : Bytes) : Bytes :=
  if s = [] then [] else tag :: (writeVarint s.length ++ s)

/-- An `int32` is sign-extended to 64 bits. -/
def int32Field (tag : UInt8) (n : Int) : Bytes :=
  if n = 0 then [] else tag :: writeVarint (n % 2 ^ 64).toNat

def boolField (tag : UInt8) (b : Bool) : Bytes := if b then [tag, 1] else []

/-- The test `!= 0` is the one of floating point, which takes both zeros for the default. -/
def floatField (tag : UInt8) (bits : Nat) : Bytes :=
  if bits % 2 ^ 31 = 0 then [] else tag :: le32 bits

def messageField (tag : UInt8) (body : Bytes) : Bytes := tag :: (writeVarint body.length ++ body)

theorem length_stringField_le (tag : UInt8) (s : Bytes) : (stringField tag s).length ≤ 11 + s.length := by
  rw [stringField]
  split
  · exact Nat.zero_le _
  · have digits := @length_varint_le 10 s.length
    rw [List.length_cons, List.length_append, writeVarint]
    omega

theorem length_int32Field_le (tag : UInt8) (n : Int) : (int32Field tag n).length ≤ 11 := by
  rw [int32Field]
  split
  · exact Nat.zero_le _
  · have digits := @length_varint_le 10 (n % 2 ^ 64).toNat
    rw [List.length_cons, writeVarint]
    omega

/-! ### Complete merges -/

variable {field : Nat → Option (FieldReader M)} {budget : Nat} {tag : UInt8} {m m' : M} {rest : Bytes}

/-- Merging `bs` into `m` ends in `m'`, at the end of the input. -/
def Parses (field : Nat → Option (FieldReader M)) (budget : Nat) (m : M) (bs : Bytes) (m' : M) : Prop :=
  ∀ fuel, bs.length < fuel → mergeLoop field budget fuel m bs = ⟨m', true, true⟩

theorem parses_nil (m : M) : Parses field budget m [] m := by
  intro fuel enough
  obtain ⟨k, rfl⟩ := Nat.exists_eq_add_one.mpr (Nat.zero_lt_of_lt enough)
  simp [mergeLoop]

theorem readTag_cons (small : tag.toNat < 128) (bs : Bytes) : readTag (tag :: bs) = (tag.toNat, bs) := by
  have word : tag.toNat % 4294967296 = tag.toNat := Nat.mod_eq_of_lt (by omega)
  simp [readTag, readVarint32, unvarint, small, word]

theorem mergeLoop_read {read : FieldReader M} {value : Bytes} {fuel : Nat} (nonzero : 0 < tag.toNat)
    (small : tag.toNat < 128) (known : field tag.toNat = some read)
    (reads : read budget m value = (m', some rest)) :
    mergeLoop field budget (fuel + 1) m (tag :: value) = mergeLoop field budget fuel m' rest := by
  have present : tag.toNat ≠ 0 := by omega
  rw [mergeLoop, readTag_cons small]
  simp only [reduceCtorEq, if_false, present, known, reads]

theorem parses_field {read : FieldReader M} {value : Bytes} {m'' : M} (nonzero : 0 < tag.toNat)
    (small : tag.toNat < 128) (known : field tag.toNat = some read)
    (reads : read budget m (value ++ rest) = (m', some rest)) (tail : Parses field budget m' rest m'') :
    Parses field budget m (tag :: (value ++ rest)) m'' := by
  intro fuel enough
  obtain ⟨k, rfl⟩ := Nat.exists_eq_add_one.mpr (Nat.zero_lt_of_lt enough)
  rw [mergeLoop_read nonzero small known reads]
  exact tail k (by simp only [List.length_cons, List.length_append] at enough; omega)

theorem readString_write {set : M → Bytes → M} {s : Bytes} (fits : s.length < 2 ^ 31) (m : M) (rest : Bytes) :
    readString set budget m (writeVarint s.length ++ s ++ rest) =
      (set m s, if isStructurallyValidUTF8 s then some rest else none) := by
  have word : s.length % 2 ^ 32 = s.length := Nat.mod_eq_of_lt (by omega)
  have inRange : ¬ 2 ^ 31 ≤ s.length := by omega
  have enough : ¬ (s ++ rest).length < s.length := by simp
  simp only [readString, List.append_assoc, readVarint32_write (s ++ rest) (show s.length < 2 ^ 64 by omega), word,
    inRange, if_false, enough, List.take_left, List.drop_left]

/-- The rule of a string field: written or left out, it reads back. -/
theorem parses_string {set : M → Bytes → M} {s : Bytes} {m'' : M} (nonzero : 0 < tag.toNat)
    (small : tag.toNat < 128) (known : field tag.toNat = some (readString set))
    (fits : s.length < 2 ^ 31) (text : isStructurallyValidUTF8 s = true) (default : s = [] → set m s = m)
    (tail : Parses field budget (set m s) rest m'') :
    Parses field budget m (stringField tag s ++ rest) m'' := by
  unfold stringField
  split
  · rename_i empty
    rw [default empty] at tail
    exact tail
  · have reads : readString set budget m _ = _ := readString_write fits m rest
    rw [text, if_pos rfl] at reads
    exact parses_field nonzero small known reads tail

theorem parses_int32 {set : M → Int → M} {n : Int} {m'' : M} (nonzero : 0 < tag.toNat)
    (small : tag.toNat < 128) (known : field tag.toNat = some (readInt32 set))
    (low : -2 ^ 31 ≤ n) (high : n < 2 ^ 31) (default : n = 0 → set m n = m)
    (tail : Parses field budget (set m n) rest m'') :
    Parses field budget m (int32Field tag n ++ rest) m'' := by
  unfold int32Field
  split
  · rename_i zero
    rw [default zero] at tail
    exact tail
  · have word : (n % 2 ^ 64).toNat < 2 ^ 64 := by omega
    have value : toInt32 (((n % 2 ^ 64).toNat % 2 ^ 32 : Nat) : Int) = n := by
      unfold toInt32
      rw [Int.bmod_def]
      split <;> omega
    refine parses_field nonzero small known ?_ tail
    simp only [readInt32, readVarint32_write rest word, value]

theorem parses_bool {set : M → Bool → M} {b : Bool} {m'' : M} (nonzero : 0 < tag.toNat)
    (small : tag.toNat < 128) (known : field tag.toNat = some (readBool set)) (default : b = false → set m b = m)
    (tail : Parses field budget (set m b) rest m'') : Parses field budget m (boolField tag b ++ rest) m'' := by
  cases b with
  | false =>
    rw [default rfl] at tail
    exact tail
  | true =>
    have reads : readBool set budget m ([1] ++ rest) = (set m true, some rest) := by
      simp [readBool, readVarint64, unvarint]
    exact parses_field nonzero small known reads tail

theorem parses_float {set : M → Nat → M} {bits : Nat} {m'' : M} (nonzero : 0 < tag.toNat)
    (small : tag.toNat < 128) (known : field tag.toNat = some (readFloat set)) (word : bits < 2 ^ 32)
    (default : bits % 2 ^ 31 = 0 → set m bits = m) (tail : Parses field budget (set m bits) rest m'') :
    Parses field budget m (floatField tag bits ++ rest) m'' := by
  unfold floatField
  split
  · rename_i zero
    rw [default zero] at tail
    exact tail
  · refine parses_field nonzero small known ?_ tail
    have four : (le32 bits).length = 4 := length_le32 bits
    simp [readFloat, List.take_left' four, List.drop_left' four, ofLe_le32 word]

theorem Parses.mergePartial {bs : Bytes} (parses : Parses field budget m bs m') :
    Wire.mergePartial field budget m bs = ⟨m', true, true⟩ :=
  parses _ (Nat.lt_succ_self _)

/-- The rule of a nested message, appended to the message around it. -/
theorem parses_message {S : Type} {subfield : Nat → Option (FieldReader S)} {clear sub : S} {add : M → S → M}
    {body : Bytes} {m'' : M} (nonzero : 0 < tag.toNat) (small : tag.toNat < 128)
    (known : field tag.toNat = some (readMessage subfield clear add)) (fits : body.length < 2 ^ 31)
    (inner : Parses subfield budget clear body sub) (tail : Parses field (budget + 1) (add m sub) rest m'') :
    Parses field (budget + 1) m (messageField tag body ++ rest) m'' := by
  have inRange : ¬ 2 ^ 31 ≤ body.length := by omega
  have reads : readMessage subfield clear add (budget + 1) m (writeVarint body.length ++ body ++ rest) =
      (add m sub, some rest) := by
    simp only [readMessage, List.append_assoc, readVarint64_write (body ++ rest) (show body.length < 2 ^ 64 by omega),
      inRange, if_false, List.take_left, List.drop_left, inner.mergePartial, Bool.and_self, if_true]
  exact parses_field nonzero small known reads tail

theorem Parses.parseArray {bs : Bytes} {clear : M} (parses : Parses field defaultRecursionLimit clear bs m') :
    Wire.parseArray field clear bs = (m', true) := by
  simp [Wire.parseArray, parses.mergePartial]

/-! ### Merges that may stop -/

/-- Merging `bs` into `m`, to its end or as far as it goes, leaves a message with `Q`. -/
def Leaves (field : Nat → Option (FieldReader M)) (budget : Nat) (m : M) (bs : Bytes) (Q : M → Prop) : Prop :=
  ∀ fuel, bs.length < fuel → Q (mergeLoop field budget fuel m bs).msg

variable {Q : M → Prop}

theorem leaves_nil (holds : Q m) : Leaves field budget m [] Q := by
  intro fuel enough
  rw [parses_nil m fuel enough]
  exact holds

theorem Leaves.parseArray {bs : Bytes} {clear : M} (leaves : Leaves field defaultRecursionLimit clear bs Q) :
    Q (Wire.parseArray field clear bs).1 := by
  apply leaves
  exact Nat.lt_succ_self _

/-- A known field in front, which is stored whether or not its value is accepted. -/
theorem leaves_field {read : FieldReader M} {value : Bytes} {accepted : Bool} (nonzero : 0 < tag.toNat)
    (small : tag.toNat < 128) (known : field tag.toNat = some read)
    (reads : read budget m (value ++ rest) = (m', if accepted then some rest else none)) (stored : Q m')
    (tail : Leaves field budget m' rest Q) : Leaves field budget m (tag :: (value ++ rest)) Q := by
  intro fuel enough
  obtain ⟨k, rfl⟩ := Nat.exists_eq_add_one.mpr (Nat.zero_lt_of_lt enough)
  have present : tag.toNat ≠ 0 := by omega
  cases accepted with
  | true =>
    rw [mergeLoop_read nonzero small known reads]
    apply tail
    simp only [List.length_cons, List.length_append] at enough
    omega
  | false =>
    rw [mergeLoop, readTag_cons small]
    simp only [reduceCtorEq, if_false, present, known, reads, Bool.false_eq_true]
    exact stored

theorem leaves_string {set : M → Bytes → M} {s : Bytes} (nonzero : 0 < tag.toNat) (small : tag.toNat < 128)
    (known : field tag.toNat = some (readString set)) (fits : s.length < 2 ^ 31) (default : s = [] → set m s = m)
    (stored : Q (set m s)) (tail : Leaves field budget (set m s) rest Q) :
    Leaves field budget m (stringField tag s ++ rest) Q := by
  unfold stringField
  split
  · rename_i empty
    rw [default empty] at tail
    exact tail
  · exact leaves_field nonzero small known (readString_write fits m rest) stored tail

theorem leaves_int32 {set : M → Int → M} {n : Int} (nonzero : 0 < tag.toNat) (small : tag.toNat < 128)
    (known : field tag.toNat = some (readInt32 set)) (stored : ∀ n, Q (set m n)) (unset : Leaves field budget m rest Q)
    (tail : ∀ n, Leaves field budget (set m n) rest Q) : Leaves field budget m (int32Field tag n ++ rest) Q := by
  unfold int32Field
  split
  · exact unset
  · have word : (n % 2 ^ 64).toNat < 2 ^ 64 := by omega
    have reads : readInt32 set budget m (writeVarint (n % 2 ^ 64).toNat ++ rest) =
        (set m (toInt32 (((n % 2 ^ 64).toNat % 2 ^ 32 : Nat) : Int)), if true then some rest else none) := by
      simp only [readInt32, readVarint32_write rest word, if_true]
    exact leaves_field nonzero small known reads (stored _) (tail _)

theorem leaves_message {S : Type} {subfield : Nat → Option (FieldReader S)} {clear : S} {add : M → S → M} {R : S → Prop}
    {body : Bytes} (nonzero : 0 < tag.toNat) (small : tag.toNat < 128)
    (known : field tag.toNat = some (readMessage subfield clear add)) (fits : body.length < 2 ^ 31)
    (inner : Leaves subfield budget clear body R) (stored : ∀ sub, R sub → Q (add m sub))
    (tail : ∀ sub, R sub → Leaves field (budget + 1) (add m sub) rest Q) :
    Leaves field (budget + 1) m (messageField tag body ++ rest) Q := by
  have inRange : ¬ 2 ^ 31 ≤ body.length := by omega
  have reads : readMessage subfield clear add (budget + 1) m (writeVarint body.length ++ body ++ rest) =
      let merged := mergePartial subfield budget clear body
      (add m merged.msg, if merged.ok && merged.atEnd then some rest else none) := by
    simp only [readMessage, List.append_assoc, readVarint64_write (body ++ rest) (show body.length < 2 ^ 64 by omega),
      inRange, if_false, List.take_left, List.drop_left]
  have left : R (mergePartial subfield budget clear body).msg := inner _ (Nat.lt_succ_self _)
  exact leaves_field nonzero small known reads (stored _ left) (tail _ left)

/-- What every reader keeps, a merge of any bytes keeps. -/
theorem leaves_of_kept {bs : Bytes}
    (kept : ∀ tag read, field tag = some read → ∀ m bs, Q m → Q (read budget m bs).1) (holds : Q m) :
    Leaves field budget m bs Q := by
  intro fuel enough
  clear enough
  induction fuel generalizing m bs with
  | zero => exact holds
  | succ fuel ih =>
    rw [mergeLoop]
    split
    · exact holds
    · dsimp only
      split
      · exact holds
      · split
        · rename_i read known
          have next := kept _ read known m (readTag bs).2 holds
          split
          · rename_i found
            rw [found] at next
            exact ih next
          · rename_i found
            rw [found] at next
            exact next
        · split
          · exact ih holds
          · exact holds

theorem readMessage_adds {S : Type} {subfield : Nat → Option (FieldReader S)} {clear : S} {add : M → S → M}
    {bs : Bytes} :
    ∃ sub, (readMessage subfield clear add budget m bs).1 = add m sub := by
  unfold readMessage
  split
  · exact ⟨clear, rfl⟩
  · split
    · exact ⟨clear, rfl⟩
    · split
      · exact ⟨clear, rfl⟩
      · exact ⟨_, rfl⟩

end Fields

end Wire
