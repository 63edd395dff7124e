import MiniProtobuf.Route.Model

/-!
# What one call does

`receive_eq` says that `Receive` appends. `processRecv_eq` and `processPayload_eq` state
`ProcessRecv` on the bytes of the receive buffer, without the coded streams. The later modules use
these and never unfold the functions again.
-/

namespace MiniProtobuf
open Wire BaseCmd CodedInputStream

variable {pl : Platform} {P : Pool}

/-! ### The length arithmetic -/

theorem Platform.word_le_size (pl : Platform) : 2 ^ 32 ≤ 2 ^ pl.sizeBits :=
  Nat.pow_le_pow_right (by omega) pl.word_le

theorem Platform.minusInt_of_le {totalLen : Nat} (four : 4 ≤ totalLen) (word : totalLen < 2 ^ 32) :
    pl.minusInt totalLen = totalLen - 4 := by
  have size := pl.word_le_size
  rw [Platform.minusInt, show totalLen + (2 ^ pl.sizeBits - 4) = totalLen - 4 + 2 ^ pl.sizeBits by omega,
    Nat.add_mod_right]
  exact Nat.mod_eq_of_lt (by omega)

/-- Below four the subtraction wraps past everything that a buffer can hold. -/
theorem Platform.maxSize_lt_minusInt {totalLen : Nat} (pos : 0 < totalLen) (small : totalLen < 4) :
    pl.maxSize < pl.minusInt totalLen := by
  have size := pl.word_le_size
  have bound := pl.maxSize_lt
  rw [Platform.minusInt, Nat.mod_eq_of_lt (by omega)]
  omega

/-- The block of a frame is its payload, when that is not empty and its length is an `int`. -/
theorem blockSize_payload {totalLen : Nat} (five : 5 ≤ totalLen) (int : totalLen < 2 ^ 31 + 4) :
    blockSizeOf (toInt32 (pl.minusInt totalLen)) = totalLen - 4 := by
  rw [Platform.minusInt_of_le (by omega) (by omega), toInt32_of_range (by omega) (by omega), blockSizeOf]
  split <;> omega

theorem toUInt32_pending {r : Route} {totalLen : Nat} (pending : r.preRecivesTotalLen = totalLen)
    (int : totalLen < 2 ^ 31) : toUInt32 r.preRecivesTotalLen = totalLen := by
  have nonneg := toUInt32_of_nonneg (Int.natCast_nonneg totalLen) (by omega)
  rw [pending]
  exact_mod_cast nonneg

/-! ### Closed forms -/

/-- The chunks of at most `TEMP_BUFFER_SIZE` bytes add up to the whole input buffer. -/
theorem receiveLoop_eq {fuel : Nat} {buf : Bytes} (r : Route) (enough : buf.length ≤ fuel) :
    ∃ temp, receiveLoop fuel buf r =
      { r with dataStreamReceive := r.dataStreamReceive ++ buf, tempBuffer := temp } := by
  induction fuel generalizing buf r with
  | zero =>
    obtain rfl := List.eq_nil_of_length_eq_zero (Nat.le_zero.mp enough)
    exact ⟨r.tempBuffer, by simp [receiveLoop]⟩
  | succ fuel ih =>
    rw [receiveLoop]
    split
    · rename_i empty
      obtain rfl := List.eq_nil_of_length_eq_zero empty
      exact ⟨r.tempBuffer, by simp⟩
    · have step : 0 < min buf.length tempBufferSize := by unfold tempBufferSize; omega
      have copied : (buf.take (min buf.length tempBufferSize)).length = min buf.length tempBufferSize := by
        rw [List.length_take]
        omega
      simp only [take_overwrite copied]
      obtain ⟨temp, rest⟩ := ih
        { r with
          tempBuffer := overwrite r.tempBuffer (buf.take (min buf.length tempBufferSize))
          dataStreamReceive := r.dataStreamReceive ++ buf.take (min buf.length tempBufferSize) }
        (show (buf.drop (min buf.length tempBufferSize)).length ≤ fuel by rw [List.length_drop]; omega)
      exact ⟨temp, by rw [rest, List.append_assoc, List.take_append_drop]⟩

theorem receive_of_room {r : Route} {buf : Bytes} (int : buf.length < 2 ^ 31)
    (room : r.dataStreamReceive.length + buf.length ≤ pl.maxSize) : ∃ t, receive pl r buf = some t :=
  ⟨_, if_pos ⟨int, room⟩⟩

theorem receive_eq {r t : Route} {buf : Bytes} (room : receive pl r buf = some t) :
    (∃ temp, t = { r with dataStreamReceive := r.dataStreamReceive ++ buf, tempBuffer := temp }) ∧
      buf.length < 2 ^ 31 ∧ r.dataStreamReceive.length + buf.length ≤ pl.maxSize := by
  unfold receive at room
  split at room
  · rename_i fits
    obtain ⟨temp, eq⟩ := receiveLoop_eq r (Nat.le_refl buf.length)
    exact ⟨⟨temp, by rw [← eq]; exact (Option.some.inj room).symm⟩, fits⟩
  · cases room

/-- The head length that `ReadLittleEndian32` finds, which stays zero when the bytes run out. -/
def headLenOf (stream : Bytes) : Nat := if 4 ≤ stream.length then ofLe (stream.take 4) else 0

def bodyLenOf (stream : Bytes) (totalLen : Nat) : Int := toInt32 ((totalLen : Int) - headLenOf stream - 8)

theorem processPayload_eq (dispatcher : Option (Dispatch P)) (r : Route) (totalLen : Nat) :
    processPayload pl P dispatcher r totalLen =
      let stream := r.dataStreamReceive
      let cis := CodedInputStream.new stream (toInt32 (pl.minusInt totalLen))
      let headLen := headLenOf stream
      let bodyLen := bodyLenOf stream totalLen
      let temp := overwrite r.tempBufferProcess ((stream.drop 4).take headLen)
      let temp' := overwrite temp (((stream.drop 4).drop headLen).take bodyLen.toNat)
      if tempBufferSize < headLen then
        ⟨{ r with preRecivesTotalLen := 0, dataStreamReceive := (cis.pull 4).source }, false, []⟩
      else if bodyLen < 0 ∨ tempBufferSize < bodyLen then
        ⟨{ r with
            preRecivesTotalLen := 0
            dataStreamReceive := ((cis.pull 4).pull headLen).source
            tempBufferProcess := temp }, false, [.readRaw headLen]⟩
      else
        let rest := deliver P dispatcher
          { r with
            dataStreamReceive := (((cis.pull 4).pull headLen).pull bodyLen.toNat).source
            tempBufferProcess := temp' }
          (CmdType.parseFromArray (temp.take headLen)).1.type (temp'.take bodyLen.toNat)
        { rest with
          events := [.readRaw headLen, .readRaw bodyLen, .frame (temp.take headLen) (temp'.take bodyLen.toNat)] ++
            rest.events } := by
  have lead : (if 4 ≤ r.dataStreamReceive.length then ofLe (r.dataStreamReceive.take 4) else 0) =
      headLenOf r.dataStreamReceive := rfl
  have body : toInt32 ((totalLen : Int) - headLenOf r.dataStreamReceive - 8) =
    bodyLenOf r.dataStreamReceive totalLen := rfl
  simp only [processPayload, readLittleEndian32_eq, readRaw_eq, pull_avail, new_avail, lead, body]

theorem processRecv_eq (dispatcher : Option (Dispatch P)) (r : Route) :
    processRecv pl P dispatcher r =
      let stream := r.dataStreamReceive
      if stream.length < 8 then ⟨r, false, []⟩
      else if 0 < r.preRecivesTotalLen then
        if stream.length < pl.minusInt (toUInt32 r.preRecivesTotalLen) then ⟨r, false, []⟩
        else processPayload pl P dispatcher r (toUInt32 r.preRecivesTotalLen)
      else if stream.take 4 ≠ head then
        ⟨{ r with preRecivesTotalLen := 0, dataStreamReceive := stream.drop 4 }, false, [.readRaw 4]⟩
      else
        let totalLen := ofLe ((stream.drop 4).take 4)
        if stream.length - 8 < pl.minusInt totalLen then
          ⟨{ r with preRecivesTotalLen := toInt32 totalLen, dataStreamReceive := stream.drop 8 }, false, [.readRaw 4]⟩
        else
          let rest := processPayload pl P dispatcher { r with dataStreamReceive := stream.drop 8 } totalLen
          { rest with events := .readRaw 4 :: rest.events } := by
  unfold processRecv
  split
  · rename_i short
    simp [show r.dataStreamReceive.length < 8 from short]
  · rename_i long
    have eight : ¬ r.dataStreamReceive.length < 8 := long
    have block : blockSizeOf 4 = 4 := rfl
    have firstFour : (new r.dataStreamReceive 4).buffer.length = 4 := by
      rw [new_buffer, block, List.length_take]
      omega
    have nextFour : (new (r.dataStreamReceive.drop 4) 4).buffer.length = 4 := by
      rw [new_buffer, block, List.length_take, List.length_drop]
      omega
    have whole : overwrite [0, 0, 0, 0] (r.dataStreamReceive.take 4) = r.dataStreamReceive.take 4 := by
      have four : (r.dataStreamReceive.take 4).length = 4 := by rw [List.length_take]; omega
      rw [overwrite, four]
      simp
    have rest : 4 ≤ r.dataStreamReceive.length - 4 := by omega
    simp only [eight, if_false, readRaw_eq, readLittleEndian32_eq, new_avail, pull_of_le (Nat.le_of_eq firstFour.symm),
      new_source, block, whole, rest, if_true, pull_of_le (Nat.le_of_eq nextFour.symm), List.drop_drop,
      List.length_drop, Nat.reduceAdd]

theorem processRecv_arrived {dispatcher : Option (Dispatch P)} {r : Route} (eight : 8 ≤ r.dataStreamReceive.length)
    (pending : 0 < r.preRecivesTotalLen)
    (arrived : pl.minusInt (toUInt32 r.preRecivesTotalLen) ≤ r.dataStreamReceive.length) :
    processRecv pl P dispatcher r = processPayload pl P dispatcher r (toUInt32 r.preRecivesTotalLen) := by
  have long : ¬ r.dataStreamReceive.length < 8 := by omega
  have enough : ¬ r.dataStreamReceive.length < pl.minusInt (toUInt32 r.preRecivesTotalLen) := by omega
  rw [processRecv_eq]
  simp only [long, pending, enough, if_false, if_true]

theorem processRecv_unmet {dispatcher : Option (Dispatch P)} {r : Route} {totalLen : Nat}
    (pending : r.preRecivesTotalLen = totalLen) (four : 4 ≤ totalLen) (int : totalLen < 2 ^ 31)
    (short : r.dataStreamReceive.length < totalLen - 4) : processRecv pl P dispatcher r = ⟨r, false, []⟩ := by
  have positive : 0 < r.preRecivesTotalLen := by omega
  have unmet : r.dataStreamReceive.length < pl.minusInt (toUInt32 r.preRecivesTotalLen) := by
    rw [toUInt32_pending pending int, Platform.minusInt_of_le four (by omega)]
    exact short
  rw [processRecv_eq]
  simp only [positive, unmet, if_true, ite_self]

theorem eq_prefix_append {stream : Bytes} (eight : 8 ≤ stream.length) (magic : stream.take 4 = head) :
    stream = head ++ le32 (ofLe ((stream.drop 4).take 4)) ++ stream.drop 8 := by
  have four : ((stream.drop 4).take 4).length = 4 := by
    rw [List.length_take, List.length_drop]
    omega
  have rest : stream.drop 8 = (stream.drop 4).drop 4 := by rw [List.drop_drop]
  rw [le32_ofLe four, ← magic, rest, List.append_assoc, List.take_append_drop, List.take_append_drop]

/-- A prefix whose payload has not arrived leaves its length behind. -/
theorem processRecv_prefixed {dispatcher : Option (Dispatch P)} {r : Route} {totalLen : Nat} {rest : Bytes}
    (idle : r.preRecivesTotalLen ≤ 0) (word : totalLen < 2 ^ 32)
    (stream : r.dataStreamReceive = head ++ (le32 totalLen ++ rest)) (short : rest.length < pl.minusInt totalLen) :
    processRecv pl P dispatcher r =
      ⟨{ r with preRecivesTotalLen := toInt32 totalLen, dataStreamReceive := rest }, false, [.readRaw 4]⟩ := by
  have four : head.length = 4 := rfl
  have size := length_le32 totalLen
  have length : r.dataStreamReceive.length = rest.length + 8 := by
    rw [stream, List.length_append, List.length_append, size]
    omega
  have eight : ¬ r.dataStreamReceive.length < 8 := by omega
  have none : ¬ 0 < r.preRecivesTotalLen := by omega
  have magic : r.dataStreamReceive.take 4 = head := by rw [stream, List.take_left' four]
  have total : (r.dataStreamReceive.drop 4).take 4 = le32 totalLen := by
    rw [stream, List.drop_left' four, List.take_left' size]
  have behind : r.dataStreamReceive.drop 8 = rest := by
    rw [stream, ← List.append_assoc, List.drop_left' (by rw [List.length_append, size, four])]
  have unmet : r.dataStreamReceive.length - 8 < pl.minusInt totalLen := by omega
  rw [processRecv_eq]
  simp only [eight, none, if_false, magic, ne_eq, not_true_eq_false, total, ofLe_le32 word, unmet, if_true, behind]

theorem totalLen_lt {stream : Bytes} (eight : 8 ≤ stream.length) : ofLe ((stream.drop 4).take 4) < 2 ^ 32 :=
  ofLe_lt_word (by rw [List.length_take, List.length_drop]; omega)

/-- The four shapes of a call, without the conditions that choose between them. -/
theorem processRecv_cases (dispatcher : Option (Dispatch P)) (r : Route) :
    processRecv pl P dispatcher r = ⟨r, false, []⟩ ∨
      (∃ pending rest, processRecv pl P dispatcher r =
        ⟨{ r with preRecivesTotalLen := pending, dataStreamReceive := rest }, false, [.readRaw 4]⟩) ∨
      (∃ totalLen, processRecv pl P dispatcher r = processPayload pl P dispatcher r totalLen) ∨
      ∃ totalLen rest, processRecv pl P dispatcher r =
        let result := processPayload pl P dispatcher { r with dataStreamReceive := rest } totalLen
        { result with events := .readRaw 4 :: result.events } := by
  rw [processRecv_eq]
  dsimp only
  split
  · exact .inl rfl
  split
  · split
    · exact .inl rfl
    · exact .inr (.inr (.inl ⟨_, rfl⟩))
  split
  · exact .inr (.inl ⟨_, _, rfl⟩)
  split
  · exact .inr (.inl ⟨_, _, rfl⟩)
  · exact .inr (.inr (.inr ⟨_, _, rfl⟩))

theorem processRecv_short {dispatcher : Option (Dispatch P)} {r : Route} (short : r.dataStreamReceive.length < 8) :
    processRecv pl P dispatcher r = ⟨r, false, []⟩ := by
  rw [processRecv_eq]
  simp only [short, if_true]

end MiniProtobuf
