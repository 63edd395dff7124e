import MiniProtobuf.Wire.Proto3

/-!
# Sizes and merges of fields

What protobuf says the size of a field is, before it writes the field, and what is left of two values of a field that
are read one after the other. `length_writeVarint` is the formula of `VarintSize32` and `VarintSize64`.
-/

namespace Wire

/-! ### Sizes -/

/-- `VarintSize32` and `VarintSize64`. The quotient by seven is taken by a multiplication. -/
def varintSize (n : Nat) : Nat := (Nat.log2 (n ||| 1) * 9 + 73) / 64

/-- `LengthDelimitedSize`. The length is cut to 32 bits before its varint is measured. -/
def lengthDelimitedSize (length : Nat) : Nat := length + varintSize (length % 2 ^ 32)

/-- `Int32Size` and `EnumSize`. -/
def int32Size (n : Int) : Nat := if n < 0 then 10 else varintSize n.toNat

theorem half_or_one (n : Nat) : (n ||| 1) / 2 = n / 2 := by
  have halves := @Nat.or_div_two_pow n 1 1
  simpa using halves

theorem log2_or_one (n : Nat) : Nat.log2 (n ||| 1) = Nat.log2 n := by
  rw [Nat.log2_def, Nat.log2_def n, half_or_one]
  have parity := half_or_one n
  by_cases two : 2 ≤ n
  · rw [if_pos two, if_pos (by omega)]
  · rw [if_neg two, if_neg (by omega)]

theorem log2_lt_of_lt {n k : Nat} (positive : 0 < k) (small : n < 2 ^ k) : Nat.log2 n < k := by
  by_cases zero : n = 0
  · rwa [zero, Nat.log2_zero]
  · exact (Nat.log2_lt zero).mpr small

theorem log2_of_two_le {n : Nat} (two : 2 ≤ n) : Nat.log2 n = Nat.log2 (n / 2) + 1 := by
  rw [Nat.log2_def, if_pos two]

/-- A group of seven bits. -/
theorem log2_div_128 {n : Nat} (more : 128 ≤ n) : Nat.log2 n = Nat.log2 (n / 128) + 7 := by
  rw [log2_of_two_le (n := n) (by omega), log2_of_two_le (n := n / 2) (by omega),
    log2_of_two_le (n := n / 2 / 2) (by omega), log2_of_two_le (n := n / 2 / 2 / 2) (by omega),
    log2_of_two_le (n := n / 2 / 2 / 2 / 2) (by omega), log2_of_two_le (n := n / 2 / 2 / 2 / 2 / 2) (by omega),
    log2_of_two_le (n := n / 2 / 2 / 2 / 2 / 2 / 2) (by omega)]
  have groups : n / 2 / 2 / 2 / 2 / 2 / 2 / 2 = n / 128 := by omega
  rw [groups]

theorem length_varint {k n : Nat} (fits : n < 128 ^ (k + 1)) : (varint (k + 1) n).length = Nat.log2 n / 7 + 1 := by
  induction k generalizing n with
  | zero =>
    have small : n < 128 := by simpa using fits
    have few : Nat.log2 n < 7 := log2_lt_of_lt (by decide) small
    rw [varint, if_pos small, Nat.div_eq_of_lt few]
    rfl
  | succ k ih =>
    rw [varint]
    split
    · rename_i small
      have few : Nat.log2 n < 7 := log2_lt_of_lt (by decide) small
      rw [Nat.div_eq_of_lt few]
      rfl
    · rename_i more
      have high : n / 128 < 128 ^ (k + 1) := by
        rw [Nat.pow_succ] at fits
        exact Nat.div_lt_of_lt_mul (by omega)
      rw [List.length_cons, ih high, log2_div_128 (Nat.le_of_not_lt more)]
      omega

theorem length_writeVarint {n : Nat} (word : n < 2 ^ 64) : (writeVarint n).length = varintSize n := by
  have bits : Nat.log2 n < 64 := log2_lt_of_lt (by decide) word
  rw [writeVarint, length_varint (show n < 128 ^ 10 by omega), varintSize, log2_or_one]
  omega

theorem length_writeVarint_int32 {n : Int} (low : -2 ^ 31 ≤ n) (high : n < 2 ^ 31) :
    (writeVarint (n % 2 ^ 64).toNat).length = int32Size n := by
  rw [length_writeVarint (by omega), int32Size]
  split
  · have bits : Nat.log2 (n % 2 ^ 64).toNat = 63 := by
      apply Nat.le_antisymm
      · exact Nat.le_of_lt_succ (log2_lt_of_lt (by decide) (by omega))
      · exact (Nat.le_log2 (by omega)).mpr (by omega)
    rw [varintSize, log2_or_one, bits]
  · have same : (n % 2 ^ 64).toNat = n.toNat := by omega
    rw [same]

/-- The size of a string field as the generated code adds it up. -/
def stringSize (s : Bytes) : Nat := if 0 < s.length then 1 + lengthDelimitedSize s.length else 0

def int32FieldSize (n : Int) : Nat := if n ≠ 0 then 1 + int32Size n else 0

def boolSize (b : Bool) : Nat := if b then 1 + 1 else 0

def floatSize (bits : Nat) : Nat := if bits % 2 ^ 31 ≠ 0 then 1 + 4 else 0

/-- A repeated message field: the tags first, and then every element. -/
def repeatedSize (sizes : List Nat) : Nat := 1 * sizes.length + (sizes.map lengthDelimitedSize).sum

theorem lengthDelimitedSize_eq {length : Nat} (word : length < 2 ^ 32) :
    lengthDelimitedSize length = length + (writeVarint length).length := by
  rw [lengthDelimitedSize, Nat.mod_eq_of_lt word, length_writeVarint (by omega)]

theorem stringSize_eq (tag : UInt8) {s : Bytes} (word : s.length < 2 ^ 32) :
    stringSize s = (stringField tag s).length := by
  unfold stringSize stringField
  by_cases empty : s = []
  · simp [empty]
  · rw [if_pos (List.length_pos_iff.mpr empty), if_neg empty, lengthDelimitedSize_eq word, List.length_cons,
      List.length_append]
    omega

theorem int32FieldSize_eq (tag : UInt8) {n : Int} (low : -2 ^ 31 ≤ n) (high : n < 2 ^ 31) :
    int32FieldSize n = (int32Field tag n).length := by
  unfold int32FieldSize int32Field
  by_cases zero : n = 0
  · simp [zero]
  · rw [if_pos zero, if_neg zero, List.length_cons, length_writeVarint_int32 low high, Nat.add_comm]

theorem boolSize_eq (tag : UInt8) (b : Bool) : boolSize b = (boolField tag b).length := by
  cases b <;> rfl

theorem floatSize_eq (tag : UInt8) (bits : Nat) : floatSize bits = (floatField tag bits).length := by
  unfold floatSize floatField
  by_cases zero : bits % 2 ^ 31 = 0
  · rw [if_neg (not_not_intro zero), if_pos zero]
    rfl
  · rw [if_pos zero, if_neg zero, List.length_cons, length_le32]

/-- A nested message is written with the size that was cached for it, an `int`. -/
def cachedField (tag : UInt8) (size : Nat) (body : Bytes) : Bytes :=
  tag :: (writeVarint (toUInt32 (toInt32 size)) ++ body)

theorem cachedField_eq (tag : UInt8) {size : Nat} {body : Bytes} (fits : body.length < 2 ^ 31)
    (right : size = body.length) : cachedField tag size body = messageField tag body := by
  have int : toInt32 (body.length : Int) = body.length := by
    unfold toInt32
    rw [Int.bmod_def]
    split <;> omega
  have word : toUInt32 (body.length : Int) = body.length := by
    unfold toUInt32
    omega
  rw [cachedField, messageField, right, int, word]

theorem length_le_of_mem_flatMap {α : Type} (write : α → Bytes) {x : α} {xs : List α} (member : x ∈ xs) :
    (write x).length ≤ (xs.flatMap write).length := by
  rw [List.flatMap_def]
  exact (List.sublist_flatten_of_mem (List.mem_map_of_mem member)).length_le

theorem repeatedSize_eq {α : Type} (tag : UInt8) (size : α → Nat) (write : α → Bytes) (xs : List α)
    (right : ∀ x ∈ xs, size x = (write x).length) (word : ∀ x ∈ xs, (write x).length < 2 ^ 32) :
    repeatedSize (xs.map size) = (xs.flatMap fun x => messageField tag (write x)).length := by
  induction xs with
  | nil => rfl
  | cons x xs ih =>
    have rest := ih (fun y member => right y (List.mem_cons_of_mem _ member))
      (fun y member => word y (List.mem_cons_of_mem _ member))
    have first := lengthDelimitedSize_eq (word x List.mem_cons_self)
    simp only [repeatedSize, List.map_cons, List.length_cons, List.sum_cons, List.flatMap_cons, List.length_append,
      messageField, right x List.mem_cons_self, first] at rest ⊢
    omega

/-! ### Merges -/

section Merges

variable {M : Type} {field : Nat → Option (FieldReader M)} {budget : Nat} {tag : UInt8} {m m' : M} {rest : Bytes}

/-- `MergeFrom` on a string field. -/
def mergeString (old s : Bytes) : Bytes := if 0 < s.length then s else old

def mergeInt32 (old n : Int) : Int := if n ≠ 0 then n else old

def mergeBool (old b : Bool) : Bool := if b then b else old

def mergeFloat (old bits : Nat) : Nat := if bits % 2 ^ 31 ≠ 0 then bits else old

theorem mergeString_nil (s : Bytes) : mergeString [] s = s := by
  cases s <;> rfl

theorem mergeInt32_zero (n : Int) : mergeInt32 0 n = n := by
  unfold mergeInt32
  split
  · rfl
  · rename_i zero
    exact (not_not.mp zero).symm

theorem mergeBool_false (b : Bool) : mergeBool false b = b := by
  cases b <;> rfl

/-- A string field is read into a message that has a value for it already. -/
theorem parses_mergeString {set : M → Bytes → M} (old : Bytes) {s : Bytes} (nonzero : 0 < tag.toNat)
    (small : tag.toNat < 128) (known : field tag.toNat = some (readString set)) (fits : s.length < 2 ^ 31)
    (text : isStructurallyValidUTF8 s = true) (holds : set m old = m)
    (tail : Parses field budget (set m (mergeString old s)) rest m') :
    Parses field budget m (stringField tag s ++ rest) m' := by
  by_cases empty : s = []
  · subst empty
    rw [show mergeString old [] = old from rfl, holds] at tail
    exact tail
  · rw [mergeString, if_pos (List.length_pos_iff.mpr empty)] at tail
    exact parses_string nonzero small known fits text (fun none => absurd none empty) tail

theorem parses_mergeInt32 {set : M → Int → M} (old : Int) {n : Int} (nonzero : 0 < tag.toNat)
    (small : tag.toNat < 128) (known : field tag.toNat = some (readInt32 set)) (low : -2 ^ 31 ≤ n)
    (high : n < 2 ^ 31) (holds : set m old = m) (tail : Parses field budget (set m (mergeInt32 old n)) rest m') :
    Parses field budget m (int32Field tag n ++ rest) m' := by
  by_cases zero : n = 0
  · subst zero
    rw [show mergeInt32 old 0 = old from rfl, holds] at tail
    exact tail
  · rw [mergeInt32, if_pos zero] at tail
    exact parses_int32 nonzero small known low high (fun none => absurd none zero) tail

theorem parses_mergeBool {set : M → Bool → M} (old : Bool) {b : Bool} (nonzero : 0 < tag.toNat)
    (small : tag.toNat < 128) (known : field tag.toNat = some (readBool set)) (holds : set m old = m)
    (tail : Parses field budget (set m (mergeBool old b)) rest m') :
    Parses field budget m (boolField tag b ++ rest) m' := by
  cases b with
  | false =>
    rw [show mergeBool old false = old from rfl, holds] at tail
    exact tail
  | true => exact parses_bool nonzero small known (by rintro ⟨⟩) tail

theorem parses_mergeFloat {set : M → Nat → M} (old : Nat) {bits : Nat} (nonzero : 0 < tag.toNat)
    (small : tag.toNat < 128) (known : field tag.toNat = some (readFloat set)) (word : bits < 2 ^ 32)
    (holds : set m old = m) (tail : Parses field budget (set m (mergeFloat old bits)) rest m') :
    Parses field budget m (floatField tag bits ++ rest) m' := by
  by_cases zero : bits % 2 ^ 31 = 0
  · rw [mergeFloat, if_neg (not_not_intro zero), holds] at tail
    rw [floatField, if_pos zero]
    exact tail
  · rw [mergeFloat, if_pos zero] at tail
    exact parses_float nonzero small known word (fun none => absurd none zero) tail

/-- The rule of a repeated message field. -/
theorem parses_repeated {S : Type} {subfield : Nat → Option (FieldReader S)} {clear : S} {add : M → S → M}
    {write : S → Bytes} {xs : List S} (nonzero : 0 < tag.toNat) (small : tag.toNat < 128)
    (known : field tag.toNat = some (readMessage subfield clear add)) (fits : ∀ x ∈ xs, (write x).length < 2 ^ 31)
    (inner : ∀ x ∈ xs, Parses subfield budget clear (write x) x)
    (tail : Parses field (budget + 1) (xs.foldl add m) rest m') :
    Parses field (budget + 1) m ((xs.flatMap fun x => messageField tag (write x)) ++ rest) m' := by
  induction xs generalizing m with
  | nil => exact tail
  | cons x xs ih =>
    rw [List.flatMap_cons, List.append_assoc]
    refine parses_message nonzero small known (fits x List.mem_cons_self) (inner x List.mem_cons_self) ?_
    exact ih (fun y member => fits y (List.mem_cons_of_mem _ member))
      (fun y member => inner y (List.mem_cons_of_mem _ member)) tail

/-- Reading what is written for `source` is merging it into the message so far. -/
def Merges (field : Nat → Option (FieldReader M)) (budget : Nat) (write : M → Bytes) (merge : M → M → M)
    (source : M) : Prop :=
  ∀ {m rest m'}, Parses field budget (merge m source) rest m' → Parses field budget m (write source ++ rest) m'

/-- Two messages of a type that are written one after the other read as the second merged into the first. -/
theorem Merges.parseArray {write : M → Bytes} {merge : M → M → M} {clear a b : M}
    (first : Merges field defaultRecursionLimit write merge a)
    (second : Merges field defaultRecursionLimit write merge b) (copies : merge clear a = a) :
    Wire.parseArray field clear (write a ++ write b) = (merge a b, true) := by
  have whole : Parses field defaultRecursionLimit clear (write a ++ (write b ++ [])) (merge a b) := by
    apply first
    rw [copies]
    exact second (parses_nil _)
  rw [List.append_nil] at whole
  exact whole.parseArray

end Merges

end Wire
