import MiniProtobuf.Wire.Bytes

/-!
# Reading a stream buffer in blocks

`CodedInputStream` over `IstreamInputStream`, as the route opens them on its receive buffer. The
adaptor takes whole blocks off the buffer. What it took and did not hand out is lost when the two
objects go out of scope, so the block size decides how many bytes disappear.
`readRaw_eq` and `readLittleEndian32_eq` give both readers in closed form.
-/

namespace MiniProtobuf
open Wire

/-- A coded stream: the unread part of the current block, and the bytes still in the stream buffer. -/
structure CodedInputStream where
  buffer : Bytes
  source : Bytes
  blockSize : Nat
  blockSize_pos : 0 < blockSize

namespace CodedInputStream

def kDefaultBlockSize : Nat := 8192

/-- `CopyingInputStreamAdaptor` falls back to the default for a block size that is not positive. -/
def blockSizeOf (block_size : Int) : Nat := if 0 < block_size then block_size.toNat else kDefaultBlockSize

theorem blockSizeOf_pos (block_size : Int) : 0 < blockSizeOf block_size := by
  unfold blockSizeOf kDefaultBlockSize
  split <;> omega

/-- `Refresh`: the next block, or failure at the end of the input. -/
def refresh (s : CodedInputStream) : CodedInputStream × Bool :=
  if s.source = [] then ({ s with buffer := [] }, false)
  else ({ s with buffer := s.source.take s.blockSize, source := s.source.drop s.blockSize }, true)

/-- The constructor refreshes eagerly. -/
def new (source : Bytes) (block_size : Int) : CodedInputStream :=
  (refresh ⟨[], source, blockSizeOf block_size, blockSizeOf_pos block_size⟩).1

/-- `InternalReadRawInline`: copies what the block holds and refreshes until `size` bytes are there. -/
def readRawLoop : Nat → CodedInputStream → Nat → Bytes × CodedInputStream × Bool
  | 0, s, _ => ([], s, false)
  | fuel + 1, s, size =>
    if s.buffer.length < size then
      match s.refresh with
      | (s', true) =>
        let (copied, s'', ok) := readRawLoop fuel s' (size - s.buffer.length)
        (s.buffer ++ copied, s'', ok)
      | (s', false) => (s.buffer, s', false)
    else (s.buffer.take size, { s with buffer := s.buffer.drop size }, true)

/-- `ReadRaw`: the bytes copied to the destination, the stream after it and the result. Every refresh
that succeeds shortens the source, so the fuel is enough. -/
def readRaw (s : CodedInputStream) (size : Nat) : Bytes × CodedInputStream × Bool :=
  readRawLoop (s.source.length + 1) s size

/-- `ReadLittleEndian32` into a variable that holds `value`, which a failed read leaves alone. -/
def readLittleEndian32 (s : CodedInputStream) (value : Nat) : Nat × CodedInputStream × Bool :=
  if 4 ≤ s.buffer.length then (ofLe (s.buffer.take 4), { s with buffer := s.buffer.drop 4 }, true)
  else
    let (bytes, s', ok) := s.readRaw 4
    (if ok then ofLe bytes else value, s', ok)

/-! ### Closed forms -/

/-- How many blocks of size `b` it takes to supply `d` bytes. -/
def blocks (d b : Nat) : Nat := (d + (b - 1)) / b

@[simp] theorem blocks_zero {b : Nat} (pos : 0 < b) : blocks 0 b = 0 := by
  unfold blocks
  exact Nat.div_eq_of_lt (by omega)

theorem blocks_of_sub {d b : Nat} (pos : 0 < b) (need : 0 < d) : blocks d b = blocks (d - b) b + 1 := by
  unfold blocks
  by_cases short : d ≤ b
  · rw [Nat.sub_eq_zero_of_le short, Nat.div_eq_of_lt (show 0 + (b - 1) < b by omega)]
    exact Nat.div_eq_of_lt_le (by omega) (by omega)
  · rw [show d + (b - 1) = d - b + (b - 1) + b by omega, Nat.add_div_right _ pos]

theorem le_blocks_mul {d b : Nat} (pos : 0 < b) : d ≤ blocks d b * b := by
  unfold blocks
  have split := Nat.div_add_mod (d + (b - 1)) b
  have rem := Nat.mod_lt (d + (b - 1)) pos
  rw [Nat.mul_comm] at split
  omega

/-- The stream after `size` bytes were asked of it. -/
def pull (s : CodedInputStream) (size : Nat) : CodedInputStream :=
  let taken := blocks (size - s.buffer.length) s.blockSize * s.blockSize
  { s with buffer := (s.buffer ++ s.source.take taken).drop size, source := s.source.drop taken }

def avail (s : CodedInputStream) : Bytes := s.buffer ++ s.source

@[simp] theorem pull_blockSize (s : CodedInputStream) (size : Nat) : (s.pull size).blockSize = s.blockSize := rfl

theorem pull_source (s : CodedInputStream) (size : Nat) :
    (s.pull size).source = s.source.drop (blocks (size - s.buffer.length) s.blockSize * s.blockSize) := rfl

theorem pull_source_suffix (s : CodedInputStream) (size : Nat) : (s.pull size).source <:+ s.source :=
  List.drop_suffix _ _

/-- A read that the current block satisfies takes nothing off the stream buffer. -/
theorem pull_of_le {s : CodedInputStream} {size : Nat} (enough : size ≤ s.buffer.length) :
    s.pull size = { s with buffer := s.buffer.drop size } := by
  simp [pull, Nat.sub_eq_zero_of_le enough, blocks_zero s.blockSize_pos]

theorem pull_source_of_le {s : CodedInputStream} {size : Nat} (enough : size ≤ s.buffer.length) :
    (s.pull size).source = s.source := by
  rw [pull_of_le enough]

theorem pull_buffer_of_le {s : CodedInputStream} {size : Nat} (enough : size ≤ s.buffer.length) :
    (s.pull size).buffer = s.buffer.drop size := by
  rw [pull_of_le enough]

theorem pull_avail (s : CodedInputStream) (size : Nat) : (s.pull size).avail = s.avail.drop size := by
  have supply := le_blocks_mul (d := size - s.buffer.length) s.blockSize_pos
  simp only [pull, avail]
  generalize blocks (size - s.buffer.length) s.blockSize * s.blockSize = taken at supply ⊢
  by_cases fits : size ≤ (s.buffer ++ s.source.take taken).length
  · rw [← List.drop_append_of_le_length fits, List.append_assoc, List.take_append_drop]
  · have all : s.source.length ≤ taken := by
      simp only [List.length_append, List.length_take] at fits
      omega
    rw [List.take_of_length_le all, List.drop_eq_nil_of_le all, List.append_nil]

theorem readRawLoop_eq {fuel : Nat} {s : CodedInputStream} {size : Nat} (enough : s.source.length < fuel) :
    readRawLoop fuel s size = (s.avail.take size, s.pull size, decide (size ≤ s.avail.length)) := by
  induction fuel generalizing s size with
  | zero => omega
  | succ fuel ih =>
    unfold readRawLoop
    split
    · rename_i short
      have need : 0 < size - s.buffer.length := by omega
      have pos := s.blockSize_pos
      by_cases empty : s.source = []
      · have refused : ¬ size ≤ s.buffer.length := by omega
        simp [refresh, empty, avail, pull, refused, List.take_of_length_le (Nat.le_of_lt short),
          List.drop_eq_nil_of_le (Nat.le_of_lt short)]
      -- The next block, which is cut short at the end of the source.
      · have grows : 0 < s.source.length := List.length_pos_iff.mpr empty
        simp only [refresh, empty, if_false]
        rw [ih (by simp only [List.length_drop]; omega)]
        have again := blocks_of_sub pos need
        have enoughTaken := le_blocks_mul (d := size - s.buffer.length - s.blockSize) pos
        simp only [avail, List.take_append_drop, pull, Prod.mk.injEq, List.length_take]
        refine ⟨?_, ?_, ?_⟩
        · rw [List.take_append, List.take_of_length_le (Nat.le_of_lt short)]
        · by_cases full : s.blockSize ≤ s.source.length
          · rw [Nat.min_eq_left full, again, Nat.add_mul, Nat.one_mul, List.drop_drop,
              Nat.add_comm s.blockSize]
            generalize blocks (size - s.buffer.length - s.blockSize) s.blockSize * s.blockSize = k
            have parts : s.source.take (k + s.blockSize) =
                s.source.take s.blockSize ++ (s.source.drop s.blockSize).take k := by
              rw [Nat.add_comm, List.take_add]
            rw [parts, @List.drop_append _ s.buffer, List.drop_eq_nil_of_le (Nat.le_of_lt short),
              List.nil_append]
          · have whole : s.source.length ≤ s.blockSize := by omega
            rw [Nat.min_eq_right whole, again, Nat.add_mul, Nat.one_mul, List.take_of_length_le whole,
              List.drop_eq_nil_of_le whole, List.take_nil, List.append_nil, List.drop_nil]
            have beyond : s.source.length ≤
                blocks (size - s.buffer.length - s.blockSize) s.blockSize * s.blockSize + s.blockSize := by omega
            rw [List.take_of_length_le beyond, List.drop_eq_nil_of_le beyond,
              @List.drop_append _ s.buffer, List.drop_eq_nil_of_le (Nat.le_of_lt short), List.nil_append]
        · simp only [List.length_append, decide_eq_decide]
          omega
    · rename_i enough'
      have within : size ≤ s.buffer.length := by omega
      rw [pull_of_le within, avail, List.take_append_of_le_length within]
      simp only [List.length_append, Prod.mk.injEq, true_and]
      exact (decide_eq_true (by omega)).symm

theorem readRaw_eq (s : CodedInputStream) (size : Nat) :
    s.readRaw size = (s.avail.take size, s.pull size, decide (size ≤ s.avail.length)) :=
  readRawLoop_eq (Nat.lt_succ_self _)

theorem readLittleEndian32_eq (s : CodedInputStream) (value : Nat) :
    s.readLittleEndian32 value =
      (if 4 ≤ s.avail.length then ofLe (s.avail.take 4) else value, s.pull 4, decide (4 ≤ s.avail.length)) := by
  unfold readLittleEndian32
  split
  · rename_i enough
    have total : 4 ≤ s.avail.length := by simp only [avail, List.length_append]; omega
    rw [pull_of_le enough, if_pos total, avail, List.take_append_of_le_length enough]
    simp only [Prod.mk.injEq, true_and]
    exact (decide_eq_true total).symm
  · rw [readRaw_eq]
    simp only [decide_eq_true_eq]

theorem new_avail (source : Bytes) (block_size : Int) : (new source block_size).avail = source := by
  unfold new refresh
  split
  · rename_i empty
    simp only at empty
    simp [avail, empty]
  · simp [avail]

@[simp] theorem new_blockSize (source : Bytes) (block_size : Int) :
    (new source block_size).blockSize = blockSizeOf block_size := by
  unfold new refresh
  split <;> rfl

@[simp] theorem new_buffer (source : Bytes) (block_size : Int) :
    (new source block_size).buffer = source.take (blockSizeOf block_size) := by
  unfold new refresh
  split
  · rename_i empty
    simp only at empty
    simp [empty]
  · rfl

@[simp] theorem new_source (source : Bytes) (block_size : Int) :
    (new source block_size).source = source.drop (blockSizeOf block_size) := by
  unfold new refresh
  split
  · rename_i empty
    simp only at empty
    simp [empty]
  · rfl

end CodedInputStream

end MiniProtobuf
