import MiniProtobuf.Http.Grammar

/-!
# Replies on the wire

A reader of replies, as a client would write it: the status line, the header lines up to an empty one, and as
many bytes of content as `Content-Length` says. It reads every reply that the server sends back from its
buffers, and leaves what follows.
-/

namespace MiniProtobuf.Http
open Wire

/-! ### Reading -/

/-- A line up to its CRLF, and what follows. -/
def readLine : Bytes → Option (Bytes × Bytes)
  | [] => none
  | c :: rest =>
    if crlf <+: c :: rest then some ([], rest.drop 1)
    else (readLine rest).map fun (line, rest) => (c :: line, rest)

def readStatus (line : Bytes) : Option StatusType :=
  [StatusType.ok, .created, .accepted, .noContent, .multipleChoices, .movedPermanently, .movedTemporarily, .notModified,
    .badRequest, .unauthorized, .forbidden, .notFound, .internalServerError, .notImplemented, .badGateway,
    .serviceUnavailable].find? fun status => status.toBuffer = line ++ crlf

def readHeader (line : Bytes) : Option Header :=
  let name := line.takeWhile (· ≠ chr ':')
  if nameValueSeparator <+: line.drop name.length then some ⟨name, line.drop (name.length + 2)⟩ else none

/-- The header lines up to an empty one; `fuel` bounds their number. -/
def readHeaders : Nat → Bytes → Option (List Header × Bytes)
  | 0, _ => none
  | fuel + 1, input => do
    let (line, rest) ← readLine input
    if line = [] then some ([], rest)
    else
      let header ← readHeader line
      let (headers, rest) ← readHeaders fuel rest
      some (header :: headers, rest)

def contentLength (headers : List Header) : Option Nat :=
  (headers.find? fun h => h.name = ascii "Content-Length").map fun h => ofDecimal 0 h.value

def readReply (input : Bytes) : Option (Reply × Bytes) := do
  let (line, rest) ← readLine input
  let status ← readStatus line
  let (headers, rest) ← readHeaders input.length rest
  let length ← contentLength headers
  if length ≤ rest.length then some (⟨status, headers, rest.take length⟩, rest.drop length) else none

/-! ### What the reader makes of the buffers -/

/-- A line without a carriage return is read back. -/
theorem readLine_append {line : Bytes} (plain : chr '\r' ∉ line) (rest : Bytes) :
    readLine (line ++ crlf ++ rest) = some (line, rest) := by
  induction line with
  | nil => rfl
  | cons c line ih =>
    obtain ⟨other, plain⟩ := not_or.mp (fun either => plain (List.mem_cons.mpr either))
    have inside : ¬ crlf <+: c :: (line ++ crlf ++ rest) := fun start =>
      other (List.cons_prefix_cons.mp start).1
    rw [List.cons_append, List.cons_append, readLine, if_neg inside, ih plain]
    rfl

structure Header.Plain (h : Header) : Prop where
  name : chr '\r' ∉ h.name
  colon : chr ':' ∉ h.name
  value : chr '\r' ∉ h.value

def Header.render (h : Header) : Bytes := h.name ++ nameValueSeparator ++ h.value

theorem readHeader_render {h : Header} (plain : h.Plain) : readHeader h.render = some h := by
  have name : h.render.takeWhile (· ≠ chr ':') = h.name := by
    rw [Header.render, List.append_assoc, List.takeWhile_append_of_pos]
    · rw [nameValueSeparator, List.cons_append, List.takeWhile_cons_of_neg (by decide), List.append_nil]
    · intro c member
      have other : c ≠ chr ':' := fun same => plain.colon (same ▸ member)
      simpa using other
  have behind : h.render.drop h.name.length = nameValueSeparator ++ h.value := by
    rw [Header.render, List.append_assoc, List.drop_left]
  have value : h.render.drop (h.name.length + 2) = h.value := by
    rw [← List.drop_drop, behind]
    rfl
  simp only [readHeader, name, behind, value]
  exact if_pos (List.prefix_append _ _)

theorem not_mem_render {h : Header} (plain : h.Plain) : chr '\r' ∉ h.render := by
  rw [Header.render, List.mem_append, List.mem_append]
  rintro ((name | separator) | value)
  · exact plain.name name
  · exact absurd separator (by decide)
  · exact plain.value value

theorem render_ne_nil {h : Header} : h.render ≠ [] := by
  simp [Header.render, nameValueSeparator]

theorem readHeaders_render {headers : List Header} (plain : ∀ h ∈ headers, h.Plain) {fuel : Nat}
    (enough : headers.length < fuel) (rest : Bytes) :
    readHeaders fuel (headers.flatMap (fun h => h.render ++ crlf) ++ (crlf ++ rest)) = some (headers, rest) := by
  induction headers generalizing fuel with
  | nil =>
    obtain ⟨fuel, rfl⟩ := Nat.exists_eq_succ_of_ne_zero (Nat.ne_zero_of_lt enough)
    rfl
  | cons h headers ih =>
    obtain ⟨first, others⟩ := List.forall_mem_cons.mp plain
    obtain ⟨fuel, rfl⟩ := Nat.exists_eq_succ_of_ne_zero (Nat.ne_zero_of_lt enough)
    rw [List.length_cons] at enough
    rw [List.flatMap_cons, List.append_assoc, readHeaders, readLine_append (not_mem_render first)]
    simp only [Option.bind_eq_bind, Option.bind_some, if_neg render_ne_nil, readHeader_render first,
      ih others (by omega : headers.length < fuel)]

/-! ### Lengths -/

theorem chr_toNat {c : Char} (digit : c.isDigit = true) : (chr c).toNat = c.toNat := by
  have range : c.toNat ≤ 57 := by
    simp only [Char.isDigit, Bool.and_eq_true, decide_eq_true_eq] at digit
    exact digit.2
  rw [chr, UInt8.toNat_ofNat']
  exact Nat.mod_eq_of_lt (by omega)

theorem isDigit_of_mem {n : Nat} {c : Char} (member : c ∈ Nat.toDigits 10 n) : c.isDigit = true :=
  Nat.isDigit_of_mem_toDigits (by decide) (by decide) member

theorem ofDecimal_map {digits : List Char} (digit : ∀ c ∈ digits, c.isDigit = true) (n : Nat) :
    ofDecimal n (digits.map chr) = Nat.ofDigitChars 10 digits n := by
  induction digits generalizing n with
  | nil => rfl
  | cons c digits ih =>
    obtain ⟨first, others⟩ := List.forall_mem_cons.mp digit
    have here : (chr c).toNat - 48 = c.toNat - 48 := by rw [chr_toNat first]
    rw [List.map_cons]
    show ofDecimal (10 * n + ((chr c).toNat - 48)) (digits.map chr) =
      Nat.ofDigitChars 10 digits (10 * n + (c.toNat - 48))
    rw [here, ih others]

theorem ofDecimal_decimal (n : Nat) : ofDecimal 0 (decimal n) = n := by
  rw [decimal, ofDecimal_map fun c member => isDigit_of_mem member]
  exact Nat.ofDigitChars_ten_toDigits

theorem return_not_mem_decimal (n : Nat) : chr '\r' ∉ decimal n := by
  intro member
  obtain ⟨c, digit, same⟩ := List.mem_map.mp member
  have digit := isDigit_of_mem digit
  have low : 48 ≤ c.toNat := by
    simp only [Char.isDigit, Bool.and_eq_true, decide_eq_true_eq] at digit
    exact digit.1
  have value := chr_toNat digit
  rw [same] at value
  have : (chr '\r').toNat = 13 := by decide
  omega

/-! ### The replies of the server -/

theorem toBuffers_flatten (rep : Reply) :
    rep.toBuffers.flatten =
      rep.status.toBuffer ++ (rep.headers.flatMap (fun h => h.render ++ crlf) ++ (crlf ++ rep.content)) := by
  have lines (headers : List Header) :
      (headers.flatMap fun h => [h.name, nameValueSeparator, h.value, crlf]).flatten =
        headers.flatMap fun h => h.render ++ crlf := by
    induction headers with
    | nil => rfl
    | cons h headers ih => simp [List.flatMap_cons, ih, Header.render]
  simp [Reply.toBuffers, lines]

/-- A status line is a line, and says which status it is. -/
theorem readStatus_toBuffer (status : StatusType) :
    ∃ line, chr '\r' ∉ line ∧ status.toBuffer = line ++ crlf ∧ readStatus line = some status := by
  refine ⟨status.toBuffer.dropLast.dropLast, ?_⟩
  cases status <;> decide

/-- A reply with plain headers, the first of which gives the length of its content. -/
structure Framed (rep : Reply) : Prop where
  plain : ∀ h ∈ rep.headers, h.Plain
  length : contentLength rep.headers = some rep.content.length

theorem readReply_toBuffers {rep : Reply} (framed : Framed rep) (rest : Bytes) :
    readReply (rep.toBuffers.flatten ++ rest) = some (rep, rest) := by
  obtain ⟨line, plain, buffer, status⟩ := readStatus_toBuffer rep.status
  have shape : rep.toBuffers.flatten ++ rest =
      line ++ crlf ++ (rep.headers.flatMap (fun h => h.render ++ crlf) ++ (crlf ++ (rep.content ++ rest))) := by
    rw [toBuffers_flatten, buffer]
    simp only [List.append_assoc]
  have enough : rep.headers.length < (rep.toBuffers.flatten ++ rest).length := by
    have many (headers : List Header) : headers.length ≤ (headers.flatMap fun h => h.render ++ crlf).length := by
      induction headers with
      | nil => exact Nat.le_refl 0
      | cons h headers ih =>
        simp only [List.flatMap_cons, List.length_append, List.length_cons]
        have : crlf.length = 2 := rfl
        omega
    have := many rep.headers
    have : crlf.length = 2 := rfl
    rw [shape]
    simp only [List.length_append]
    omega
  rw [readReply, shape, readLine_append plain]
  simp only [Option.bind_eq_bind, Option.bind_some, status]
  rw [← shape, readHeaders_render framed.plain enough]
  simp only [Option.bind_some, framed.length]
  rw [if_pos (by rw [List.length_append]; omega), List.take_left, List.drop_left]

theorem framed_page {status : StatusType} {content type : Bytes} (plain : chr '\r' ∉ type) :
    Framed ⟨status, [⟨ascii "Content-Length", decimal content.length⟩, ⟨ascii "Content-Type", type⟩], content⟩ where
  plain := by
    have name : chr '\r' ∉ ascii "Content-Length" ∧ chr ':' ∉ ascii "Content-Length" := by decide
    have type_ : chr '\r' ∉ ascii "Content-Type" ∧ chr ':' ∉ ascii "Content-Type" := by decide
    intro h member
    rcases List.mem_cons.mp member with rfl | member
    · exact ⟨name.1, name.2, return_not_mem_decimal _⟩
    · obtain rfl := List.mem_singleton.mp member
      exact ⟨type_.1, type_.2, plain⟩
  length := by
    show some (ofDecimal 0 (decimal content.length)) = some content.length
    rw [ofDecimal_decimal]

theorem framed_stockReply (status : StatusType) : Framed (stockReply status) := framed_page (by decide)

theorem return_not_mem_extensionToType (extension : Bytes) : chr '\r' ∉ extensionToType extension := by
  rw [extensionToType]
  split
  · rename_i m found
    have every : ∀ m ∈ mappings, chr '\r' ∉ m.2 := by decide
    exact every m (List.mem_of_find?_eq_some found)
  · decide

theorem framed_handleRequest (docRoot : Bytes) (files : FileSystem) (req : Request) (rep : Reply) :
    Framed (handleRequest docRoot files req rep) := by
  rw [handleRequest]
  split
  · exact framed_stockReply _
  · split
    · exact framed_stockReply _
    · dsimp only
      split
      · exact framed_stockReply _
      · exact framed_page (return_not_mem_extensionToType _)

/-- The replies that the server sends: what the handler fills in, and stock replies. -/
inductive Sent (docRoot : Bytes) (files : FileSystem) : Reply → Prop where
  | handled (req : Request) (rep : Reply) : Sent docRoot files (handleRequest docRoot files req rep)
  | stock (status : StatusType) : Sent docRoot files (stockReply status)

/-- Every reply is read back whole from its buffers, whatever the request put into it and whatever follows. -/
theorem reply_read_back (docRoot : Bytes) (files : FileSystem) (rep : Reply) (sent : Sent docRoot files rep)
    (rest : Bytes) : readReply (rep.toBuffers.flatten ++ rest) = some (rep, rest) := by
  cases sent with
  | handled req rep => exact readReply_toBuffers (framed_handleRequest docRoot files req rep) rest
  | stock status => exact readReply_toBuffers (framed_stockReply status) rest

theorem reply_read_back_not_found :
    readReply ((stockReply .notFound).toBuffers.flatten ++ ascii "HTTP/1.0") =
      some (stockReply .notFound, ascii "HTTP/1.0") :=
  reply_read_back [] (fun _ => none) (stockReply .notFound) (.stock .notFound) (ascii "HTTP/1.0")

end MiniProtobuf.Http
