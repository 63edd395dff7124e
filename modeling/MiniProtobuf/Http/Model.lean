import MiniProtobuf.Protobuf.BaseCmd

/-!
# The HTTP server's request parser, handler and reply

`request_parser`, `request_handler`, `reply` and `mime_types` of the server's HTTP part. A result `none` of
the parser is undefined behaviour: a signed overflow in a version number, or `back()` of an empty vector.
-/

namespace MiniProtobuf.Http
open Wire

def chr (c : Char) : UInt8 := UInt8.ofNat c.toNat

/-- A `char` passed as an `int`, where `char` is signed. -/
def toSigned (input : UInt8) : Int := if input.toNat < 128 then input.toNat else input.toNat - 256

structure Header where
  name : Bytes := []
  value : Bytes := []
  deriving Repr, DecidableEq

structure Request where
  method : Bytes := []
  uri : Bytes := []
  httpVersionMajor : Int
  httpVersionMinor : Int
  headers : List Header := []
  deriving Repr, DecidableEq

/-! ### `request_parser` -/

inductive ResultType where
  | good | bad | indeterminate
  deriving Repr, DecidableEq

inductive State where
  | methodStart | method | uri
  | httpVersionH | httpVersionT1 | httpVersionT2 | httpVersionP | httpVersionSlash
  | httpVersionMajorStart | httpVersionMajor | httpVersionMinorStart | httpVersionMinor
  | expectingNewline1
  | headerLineStart | headerLws | headerName | spaceBeforeHeaderValue | headerValue
  | expectingNewline2 | expectingNewline3
  deriving Repr, DecidableEq

def isChar (c : Int) : Bool := 0 ≤ c && c ≤ 127

def isCtl (c : Int) : Bool := (0 ≤ c && c ≤ 31) || c = 127

def isTspecial (c : Int) : Bool :=
  c ∈ (ascii "()<>@,;:\\\"/[]?=\x7b\x7d \t").map toSigned

def isDigit (c : Int) : Bool := toSigned (chr '0') ≤ c && c ≤ toSigned (chr '9')

/-- A result of `int` arithmetic, which is undefined when it does not fit. -/
def int (value : Int) : Option Int := if -2 ^ 31 ≤ value ∧ value < 2 ^ 31 then some value else none

/-- `version * 10 + input - '0'`, each operation in `int`. -/
def addDigit (version : Int) (input : UInt8) : Option Int := do
  let product ← int (version * 10)
  let sum ← int (product + toSigned input)
  int (sum - toSigned (chr '0'))

/-- `headers.back()`, changed in place. -/
def modifyBack (change : Header → Header) : List Header → Option (List Header)
  | [] => none
  | [last] => some [change last]
  | h :: hs => (modifyBack change hs).map (h :: ·)

/-- The test that the method and the header names make on each character. -/
def refused (input : UInt8) : Bool :=
  !isChar (toSigned input) || isCtl (toSigned input) || isTspecial (toSigned input)

/-- The states that ask for one character. -/
def expect (asked : Char) (state next : State) (req : Request) (input : UInt8) : ResultType × State × Request :=
  if input = chr asked then (.indeterminate, next, req) else (.bad, state, req)

def consume (state : State) (req : Request) (input : UInt8) : Option (ResultType × State × Request) :=
  match state with
  | .methodStart =>
    if refused input then some (.bad, state, req)
    else some (.indeterminate, .method, { req with method := req.method ++ [input] })
  | .method =>
    if input = chr ' ' then some (.indeterminate, .uri, req)
    else if refused input then some (.bad, state, req)
    else some (.indeterminate, state, { req with method := req.method ++ [input] })
  | .uri =>
    if input = chr ' ' then some (.indeterminate, .httpVersionH, req)
    else if isCtl (toSigned input) then some (.bad, state, req)
    else some (.indeterminate, state, { req with uri := req.uri ++ [input] })
  | .httpVersionH => some (expect 'H' state .httpVersionT1 req input)
  | .httpVersionT1 => some (expect 'T' state .httpVersionT2 req input)
  | .httpVersionT2 => some (expect 'T' state .httpVersionP req input)
  | .httpVersionP => some (expect 'P' state .httpVersionSlash req input)
  | .httpVersionSlash =>
    if input = chr '/' then
      some (.indeterminate, .httpVersionMajorStart, { req with httpVersionMajor := 0, httpVersionMinor := 0 })
    else some (.bad, state, req)
  | .httpVersionMajorStart =>
    if isDigit (toSigned input) then do
      let version ← addDigit req.httpVersionMajor input
      some (.indeterminate, .httpVersionMajor, { req with httpVersionMajor := version })
    else some (.bad, state, req)
  | .httpVersionMajor =>
    if input = chr '.' then some (.indeterminate, .httpVersionMinorStart, req)
    else if isDigit (toSigned input) then do
      let version ← addDigit req.httpVersionMajor input
      some (.indeterminate, state, { req with httpVersionMajor := version })
    else some (.bad, state, req)
  | .httpVersionMinorStart =>
    if isDigit (toSigned input) then do
      let version ← addDigit req.httpVersionMinor input
      some (.indeterminate, .httpVersionMinor, { req with httpVersionMinor := version })
    else some (.bad, state, req)
  | .httpVersionMinor =>
    if input = chr '\r' then some (.indeterminate, .expectingNewline1, req)
    else if isDigit (toSigned input) then do
      let version ← addDigit req.httpVersionMinor input
      some (.indeterminate, state, { req with httpVersionMinor := version })
    else some (.bad, state, req)
  | .expectingNewline1 => some (expect '\n' state .headerLineStart req input)
  | .headerLineStart =>
    if input = chr '\r' then some (.indeterminate, .expectingNewline3, req)
    else if !req.headers.isEmpty && (input = chr ' ' || input = chr '\t') then
      some (.indeterminate, .headerLws, req)
    else if refused input then some (.bad, state, req)
    else do
      let headers ← modifyBack (fun h => { h with name := h.name ++ [input] }) (req.headers ++ [{}])
      some (.indeterminate, .headerName, { req with headers })
  | .headerLws =>
    if input = chr '\r' then some (.indeterminate, .expectingNewline2, req)
    else if input = chr ' ' || input = chr '\t' then some (.indeterminate, state, req)
    else if isCtl (toSigned input) then some (.bad, state, req)
    else do
      let headers ← modifyBack (fun h => { h with value := h.value ++ [input] }) req.headers
      some (.indeterminate, .headerValue, { req with headers })
  | .headerName =>
    if input = chr ':' then some (.indeterminate, .spaceBeforeHeaderValue, req)
    else if refused input then some (.bad, state, req)
    else do
      let headers ← modifyBack (fun h => { h with name := h.name ++ [input] }) req.headers
      some (.indeterminate, state, { req with headers })
  | .spaceBeforeHeaderValue => some (expect ' ' state .headerValue req input)
  | .headerValue =>
    if input = chr '\r' then some (.indeterminate, .expectingNewline2, req)
    else if isCtl (toSigned input) then some (.bad, state, req)
    else do
      let headers ← modifyBack (fun h => { h with value := h.value ++ [input] }) req.headers
      some (.indeterminate, state, { req with headers })
  | .expectingNewline2 => some (expect '\n' state .headerLineStart req input)
  | .expectingNewline3 => some (if input = chr '\n' then .good else .bad, state, req)

/-- The loop of `parse`, with the input behind the returned iterator. -/
def parse (state : State) (req : Request) : Bytes → Option (ResultType × Bytes × State × Request)
  | [] => some (.indeterminate, [], state, req)
  | input :: rest =>
    match consume state req input with
    | none => none
    | some (.indeterminate, state, req) => parse state req rest
    | some (result, state, req) => some (result, rest, state, req)

/-! ### `reply` -/

inductive StatusType where
  | ok | created | accepted | noContent
  | multipleChoices | movedPermanently | movedTemporarily | notModified
  | badRequest | unauthorized | forbidden | notFound
  | internalServerError | notImplemented | badGateway | serviceUnavailable
  deriving Repr, DecidableEq

structure Reply where
  status : StatusType
  headers : List Header := []
  content : Bytes := []
  deriving Repr, DecidableEq

/-- `status_strings::to_buffer`. -/
def StatusType.toBuffer : StatusType → Bytes
  | .ok => ascii "HTTP/1.0 200 OK\r\n"
  | .created => ascii "HTTP/1.0 201 Created\r\n"
  | .accepted => ascii "HTTP/1.0 202 Accepted\r\n"
  | .noContent => ascii "HTTP/1.0 204 No Content\r\n"
  | .multipleChoices => ascii "HTTP/1.0 300 Multiple Choices\r\n"
  | .movedPermanently => ascii "HTTP/1.0 301 Moved Permanently\r\n"
  | .movedTemporarily => ascii "HTTP/1.0 302 Moved Temporarily\r\n"
  | .notModified => ascii "HTTP/1.0 304 Not Modified\r\n"
  | .badRequest => ascii "HTTP/1.0 400 Bad Request\r\n"
  | .unauthorized => ascii "HTTP/1.0 401 Unauthorized\r\n"
  | .forbidden => ascii "HTTP/1.0 403 Forbidden\r\n"
  | .notFound => ascii "HTTP/1.0 404 Not Found\r\n"
  | .internalServerError => ascii "HTTP/1.0 500 Internal Server Error\r\n"
  | .notImplemented => ascii "HTTP/1.0 501 Not Implemented\r\n"
  | .badGateway => ascii "HTTP/1.0 502 Bad Gateway\r\n"
  | .serviceUnavailable => ascii "HTTP/1.0 503 Service Unavailable\r\n"

def nameValueSeparator : Bytes := [chr ':', chr ' ']

def crlf : Bytes := [chr '\r', chr '\n']

def Reply.toBuffers (rep : Reply) : List Bytes :=
  rep.status.toBuffer :: rep.headers.flatMap (fun h => [h.name, nameValueSeparator, h.value, crlf]) ++
    [crlf, rep.content]

def page (title heading : String) : Bytes :=
  ascii "<html>" ++ ascii "<head><title>" ++ ascii title ++ ascii "</title></head>" ++
    ascii "<body><h1>" ++ ascii heading ++ ascii "</h1></body>" ++ ascii "</html>"

/-- `stock_replies::to_string`. -/
def StatusType.toString : StatusType → Bytes
  | .ok => []
  | .created => page "Created" "201 Created"
  | .accepted => page "Accepted" "202 Accepted"
  -- The heading of the source, which drops the word "No".
  | .noContent => page "No Content" "204 Content"
  | .multipleChoices => page "Multiple Choices" "300 Multiple Choices"
  | .movedPermanently => page "Moved Permanently" "301 Moved Permanently"
  | .movedTemporarily => page "Moved Temporarily" "302 Moved Temporarily"
  | .notModified => page "Not Modified" "304 Not Modified"
  | .badRequest => page "Bad Request" "400 Bad Request"
  | .unauthorized => page "Unauthorized" "401 Unauthorized"
  | .forbidden => page "Forbidden" "403 Forbidden"
  | .notFound => page "Not Found" "404 Not Found"
  | .internalServerError => page "Internal Server Error" "500 Internal Server Error"
  | .notImplemented => page "Not Implemented" "501 Not Implemented"
  | .badGateway => page "Bad Gateway" "502 Bad Gateway"
  | .serviceUnavailable => page "Service Unavailable" "503 Service Unavailable"

/-- `std::to_string` of a size. -/
def decimal (n : Nat) : Bytes := (Nat.toDigits 10 n).map chr

def stockReply (status : StatusType) : Reply :=
  let content := status.toString
  { status
    headers := [⟨ascii "Content-Length", decimal content.length⟩, ⟨ascii "Content-Type", ascii "text/html"⟩]
    content }

/-! ### `mime_types` -/

def mappings : List (Bytes × Bytes) :=
  [(ascii "gif", ascii "image/gif"), (ascii "htm", ascii "text/html"), (ascii "html", ascii "text/html"),
    (ascii "jpg", ascii "image/jpeg"), (ascii "png", ascii "image/png")]

def extensionToType (extension : Bytes) : Bytes :=
  match mappings.find? (fun m => m.1 = extension) with
  | some m => m.2
  | none => ascii "text/plain"

/-! ### `request_handler` -/

/-- `std::isspace` in the classic locale. -/
def isSpace (c : UInt8) : Bool := c = chr ' ' || (9 ≤ c.toNat && c.toNat ≤ 13)

def hexDigit (c : UInt8) : Option Nat :=
  let n := c.toNat
  if 48 ≤ n ∧ n ≤ 57 then some (n - 48)
  else if 65 ≤ n ∧ n ≤ 70 then some (n - 55)
  else if 97 ≤ n ∧ n ≤ 102 then some (n - 87)
  else none

/-- The digits up to the first other character; none at all is a failure. -/
def hexDigits (text : Bytes) : Option Nat :=
  match text.map hexDigit |>.takeWhile Option.isSome with
  | [] => none
  | digits => some (digits.foldl (fun n d => 16 * n + d.getD 0) 0)

def hexNumber (text : Bytes) : Option Nat :=
  match text with
  | zero :: x :: digits =>
    if zero = chr '0' ∧ (x = chr 'x' ∨ x = chr 'X') then hexDigits digits else hexDigits text
  | _ => hexDigits text

/-- `is >> std::hex >> value` on a stream over two characters, which cannot overflow. -/
def extractHex (text : Bytes) : Option Int :=
  match text.dropWhile isSpace with
  | [] => none
  | sign :: digits =>
    if sign = chr '-' then (hexNumber digits).map fun (n : Nat) => -(n : Int)
    else if sign = chr '+' then (hexNumber digits).map Int.ofNat
    else (hexNumber (sign :: digits)).map Int.ofNat

/-- `static_cast<char>(value)`. -/
def toChar (value : Int) : UInt8 := UInt8.ofNat (value % 256).toNat

/-- The loop of `url_decode` from the character at `i`, where `out` holds what was decoded before it. -/
def urlDecodeFrom (out : Bytes) : Bytes → Option Bytes
  | [] => some out
  | c :: rest =>
    if c = chr '%' then
      match rest with
      | first :: second :: rest =>
        match extractHex [first, second] with
        | some value => urlDecodeFrom (out ++ [toChar value]) rest
        | none => none
      | _ => none
    else if c = chr '+' then urlDecodeFrom (out ++ [chr ' ']) rest
    else urlDecodeFrom (out ++ [c]) rest

def urlDecode (text : Bytes) : Option Bytes := urlDecodeFrom [] text

/-- `find_last_of` one character; `none` is `npos`. -/
def findLastOf (c : UInt8) (text : Bytes) : Option Nat :=
  (text.reverse.findIdx? (· = c)).map fun i => text.length - 1 - i

def extensionOf (path : Bytes) : Bytes :=
  match findLastOf (chr '.') path, findLastOf (chr '/') path with
  | some dot, some slash => if slash < dot then path.drop (dot + 1) else []
  | _, _ => []

/-- What `std::ifstream` finds behind a path: the bytes that it reads, when it opens. -/
abbrev FileSystem := Bytes → Option Bytes

/-- The string that `c_str()` denotes to a C function. -/
def cStr (text : Bytes) : Bytes := text.takeWhile (· ≠ 0)

/-- The read loop, which appends the bytes in chunks of `size`. -/
def readLoop (size : Nat) (positive : 0 < size) (content stream : Bytes) : Bytes :=
  if stream.length = 0 then content
  else readLoop size positive (content ++ stream.take size) (stream.drop size)
termination_by stream.length
decreasing_by
  rw [List.length_drop]
  omega

def hasDotDot : Bytes → Bool
  | a :: b :: rest => (a = chr '.' && b = chr '.') || hasDotDot (b :: rest)
  | _ => false

def handleRequest (docRoot : Bytes) (files : FileSystem) (req : Request) (rep : Reply) : Reply :=
  match urlDecode req.uri with
  | none => stockReply .badRequest
  | some requestPath =>
    if requestPath = [] ∨ requestPath.head? ≠ some (chr '/') ∨ hasDotDot requestPath then stockReply .badRequest
    else
      let requestPath :=
        if requestPath.getLast? = some (chr '/') then requestPath ++ ascii "index.html" else requestPath
      match files (cStr (docRoot ++ requestPath)) with
      | none => stockReply .notFound
      | some stream =>
        let content := readLoop 512 (by decide) rep.content stream
        { status := .ok
          headers := [⟨ascii "Content-Length", decimal content.length⟩,
            ⟨ascii "Content-Type", extensionToType (extensionOf requestPath)⟩]
          content }

end MiniProtobuf.Http
