import MiniProtobuf.Http.Server

/-!
# One reply for each connection

Whatever the segments in which a request arrives, whatever the other connections do meanwhile and however the
operations end, a connection makes no reply before its request is complete or refused, makes then the one that
its bytes call for, and puts nothing else on the wire.
-/

namespace MiniProtobuf.Http
open Wire Machine

/-! ### Segments -/

theorem parse_append (state : State) (req : Request) (first second : Bytes) :
    parse state req (first ++ second) =
      match parse state req first with
      | none => none
      | some (.indeterminate, _, state, req) => parse state req second
      | some (result, rest, state, req) => some (result, rest ++ second, state, req) := by
  induction first generalizing state req with
  | nil => rfl
  | cons c first ih =>
    rw [List.cons_append, parse, parse]
    rcases consume state req c with _ | ⟨_ | _ | _, next, req⟩
    · rfl
    · rfl
    · rfl
    · exact ih next req

theorem parse_indeterminate {state state' : State} {req req' : Request} {input rest : Bytes}
    (parsed : parse state req input = some (.indeterminate, rest, state', req')) : rest = [] := by
  induction input generalizing state req with
  | nil =>
    cases parsed
    rfl
  | cons c input ih =>
    rw [parse] at parsed
    rcases consumed : consume state req c with _ | ⟨_ | _ | _, next, req⟩ <;> rw [consumed] at parsed
    · cases parsed
    · cases parsed
    · cases parsed
    · exact ih parsed

/-! ### What was in the version numbers -/

/-- The states before the version numbers are set. -/
def early : State → Bool
  | .methodStart | .method | .uri | .httpVersionH | .httpVersionT1 | .httpVersionT2 | .httpVersionP
  | .httpVersionSlash => true
  | _ => false

def setVersions (major minor : Int) (req : Request) : Request :=
  { req with httpVersionMajor := major, httpVersionMinor := minor }

theorem consume_early {state : State} (isEarly : early state = true) (major minor : Int) (req : Request) (c : UInt8) :
    consume state (setVersions major minor req) c = (consume state req c).map fun (result, next, req) =>
      (result, next, if early next then setVersions major minor req else req) := by
  cases state <;> cases isEarly <;> simp only [consume, expect] <;> repeat' split
  all_goals rfl

theorem consume_late {state next : State} {req req' : Request} {c : UInt8} {result : ResultType}
    (late : early state = false) (consumed : consume state req c = some (result, next, req')) : early next = false := by
  cases state <;> cases late <;> simp only [consume, expect, Option.bind_eq_bind] at consumed
  all_goals repeat' split at consumed
  all_goals simp only [Option.bind_eq_some_iff, Option.some.injEq, Prod.mk.injEq] at consumed
  all_goals grind [early]

theorem parse_late {state next : State} {req req' : Request} {input rest : Bytes} {result : ResultType}
    (late : early state = false) (parsed : parse state req input = some (result, rest, next, req')) :
    early next = false := by
  induction input generalizing state req with
  | nil =>
    cases parsed
    exact late
  | cons c input ih =>
    rw [parse] at parsed
    rcases consumed : consume state req c with _ | ⟨_ | _ | _, s, q⟩ <;> rw [consumed] at parsed
    · cases parsed
    · cases parsed
      exact consume_late late consumed
    · cases parsed
      exact consume_late late consumed
    · exact ih (consume_late late consumed) parsed

/-- What was in the version numbers stays there until they are set, and shows nowhere else. -/
theorem parse_early {state : State} (isEarly : early state = true) (major minor : Int) (req : Request) (input : Bytes) :
    parse state (setVersions major minor req) input = (parse state req input).map fun (result, rest, next, req) =>
      (result, rest, next, if early next then setVersions major minor req else req) := by
  induction input generalizing state req with
  | nil =>
    simp only [parse, Option.map_some, isEarly, if_true]
  | cons c input ih =>
    rw [parse, parse, consume_early isEarly]
    rcases consume state req c with _ | ⟨_ | _ | _, next, q⟩
    · rfl
    · rfl
    · rfl
    · simp only [Option.map_some]
      by_cases still : early next = true
      · rw [if_pos still]
        exact ih still q
      · rw [if_neg still]
        rcases parsed : parse next q input with _ | ⟨result, rest, s, q'⟩
        · rfl
        · simp only [Option.map_some, parse_late (Bool.eq_false_iff.mpr still) parsed, Bool.false_eq_true, if_false]

theorem good_late {state next : State} {req req' : Request} {input rest : Bytes}
    (parsed : parse state req input = some (.good, rest, next, req')) : early next = false := by
  induction input generalizing state req with
  | nil => cases parsed
  | cons c input ih =>
    rw [parse] at parsed
    rcases consumed : consume state req c with _ | ⟨_ | _ | _, s, q⟩ <;> rw [consumed] at parsed
    · cases parsed
    · cases parsed
      by_contra isEarly
      have isEarly : early next = true := by simpa using isEarly
      revert consumed
      cases state <;> simp only [consume, expect, Option.bind_eq_bind] <;> repeat' split
      all_goals simp only [Option.bind_eq_some_iff, Option.some.injEq, Prod.mk.injEq]
      all_goals grind [early]
    · cases parsed
    · exact ih parsed

/-! ### Replies -/

def receivedBytes (log : List HttpEvent) : Bytes :=
  log.flatMap fun
    | .received data _ => data
    | _ => []

/-- The files as they were when the last segment arrived. -/
def lastFiles (log : List HttpEvent) : FileSystem :=
  log.foldl (fun files event =>
    match event with
    | .received _ files => files
    | _ => files) fun _ => none

def replies (log : List HttpEvent) : List Reply :=
  log.filterMap fun
    | .replied rep => some rep
    | _ => none

def transmitted (log : List HttpEvent) : Bytes :=
  log.flatMap fun
    | .transmitted data => data
    | _ => []

/-- The reply that the bytes of a client call for, if they do yet. -/
def answer (docRoot : Bytes) (files : FileSystem) (input : Bytes) : Option Reply :=
  match parse .methodStart { httpVersionMajor := 0, httpVersionMinor := 0 } input with
  | some (.good, _, _, req) => some (handleRequest docRoot files req { status := .ok })
  | some (.bad, _, _, _) => some (stockReply .badRequest)
  | _ => none

/-- A new connection answers so, whatever its uninitialised members hold. -/
theorem answer_eq (docRoot : Bytes) (files : FileSystem) (input : Bytes) (major minor : Int) (status : StatusType) :
    answer docRoot files input =
      match parse .methodStart { httpVersionMajor := major, httpVersionMinor := minor } input with
      | some (.good, _, _, req) => some (handleRequest docRoot files req { status })
      | some (.bad, _, _, _) => some (stockReply .badRequest)
      | _ => none := by
  have same := parse_early (show early .methodStart = true from rfl) major minor
    { httpVersionMajor := 0, httpVersionMinor := 0 } input
  rw [show setVersions major minor { httpVersionMajor := 0, httpVersionMinor := 0 } =
    { httpVersionMajor := major, httpVersionMinor := minor } from rfl] at same
  rw [answer, same]
  rcases parsed : parse .methodStart { httpVersionMajor := 0, httpVersionMinor := 0 } input with
    _ | ⟨_ | _ | _, rest, next, req⟩
  · rfl
  · simp only [Option.map_some, good_late parsed, Bool.false_eq_true, if_false]
    rfl
  · rfl
  · rfl

section

variable {docRoot : Bytes} {major minor : Int} {status : StatusType} {c c' : HttpConnection} {log seen : List HttpEvent}

theorem receivedBytes_append (first second : List HttpEvent) :
    receivedBytes (first ++ second) = receivedBytes first ++ receivedBytes second := List.flatMap_append

theorem replies_append (first second : List HttpEvent) : replies (first ++ second) = replies first ++ replies second :=
  List.filterMap_append

theorem transmitted_append (first second : List HttpEvent) :
    transmitted (first ++ second) = transmitted first ++ transmitted second := List.flatMap_append

/-- Where a connection stands, after the events that it has shown. -/
inductive Tracks (docRoot : Bytes) (major minor : Int) (status : StatusType) (log : List HttpEvent)
    (c : HttpConnection) : Prop where
  | reading (reply : c.reply = { status })
      (parsed : parse .methodStart { httpVersionMajor := major, httpVersionMinor := minor } (receivedBytes log) =
        some (.indeterminate, [], c.parser, c.request))
      (silent : replies log = []) (unsent : transmitted log = [])
      (operation : ∀ live, c.operation ≠ some (.write, live))
  | answered (made : answer docRoot (lastFiles log) (receivedBytes log) = some c.reply)
      (once : replies log = [c.reply]) (operation : ∀ live, c.operation ≠ some (.read, live))
      (unsent : c.operation ≠ none → transmitted log = []) (sent : transmitted log <+: c.output)

theorem tracks_start : Tracks docRoot major minor status [] (.start major minor status) :=
  .reading rfl rfl rfl rfl fun live => by rintro ⟨⟩

/-- A reply is made, and its write starts. -/
theorem tracks_doWrite {files : FileSystem} {data : Bytes} (silent : replies log = []) (unsent : transmitted log = [])
    (answers : answer docRoot files (receivedBytes log ++ data) = some c.reply) :
    Tracks docRoot major minor status (log ++ [.received data files, .replied c.reply]) c.doWrite := by
  have none_sent : transmitted (log ++ [.received data files, .replied c.reply]) = [] := by
    rw [transmitted_append, unsent]
    rfl
  refine .answered ?_ ?_ (fun live => by rintro ⟨⟩) (fun _ => none_sent) (by rw [none_sent]; exact List.nil_prefix)
  · have bytes : receivedBytes (log ++ [.received data files, .replied c.reply]) = receivedBytes log ++ data := by
      rw [receivedBytes_append]
      simp [receivedBytes]
    rw [lastFiles, List.foldl_append, bytes]
    exact answers
  · rw [replies_append, silent]
    rfl

/-- The handler of a read, in a connection that was reading. -/
theorem tracks_handleRead {files : FileSystem} {data : Bytes} (reply : c.reply = { status })
    (parsed : parse .methodStart { httpVersionMajor := major, httpVersionMinor := minor } (receivedBytes log) =
      some (.indeterminate, [], c.parser, c.request))
    (silent : replies log = []) (unsent : transmitted log = [])
    (handled : HttpConnection.handleRead docRoot files data c = some (c', seen)) :
    Tracks docRoot major minor status (log ++ seen) c' := by
  have whole := parse_append .methodStart { httpVersionMajor := major, httpVersionMinor := minor } (receivedBytes log)
    data
  have answers := answer_eq docRoot files (receivedBytes log ++ data) major minor status
  rw [parsed] at whole
  dsimp only at whole
  rw [HttpConnection.handleRead] at handled
  rcases read : parse c.parser c.request data with _ | ⟨_ | _ | _, rest, parser, request⟩ <;>
    rw [read] at handled whole <;> rw [whole] at answers <;> cases handled
  · dsimp only at answers
    rw [← reply] at answers
    exact @tracks_doWrite docRoot major minor status
      { c with parser, request, reply := handleRequest docRoot files request c.reply } log files data silent unsent
      answers
  · exact @tracks_doWrite docRoot major minor status
      { c with parser, request, reply := stockReply .badRequest } log files data silent unsent answers
  · obtain rfl := parse_indeterminate read
    refine .reading reply ?_ ?_ ?_ fun live => by rintro ⟨⟩
    · rw [receivedBytes_append]
      simpa [receivedBytes, HttpConnection.doRead] using whole
    · rw [replies_append, silent]
      rfl
    · rw [transmitted_append, unsent]
      rfl

/-- A write that ends, with the bytes that it has put on the wire. -/
theorem Tracks.finished {n : Nat} (tracks : Tracks docRoot major minor status log c) {live : Bool}
    (was : c.operation = some (.write, live)) (reply : c'.reply = c.reply) (operation : c'.operation = none) :
    Tracks docRoot major minor status (log ++ [.transmitted (c.output.take n)]) c' := by
  cases tracks with
  | reading _ _ _ _ other => exact absurd was (other live)
  | answered made once _ unsent _ =>
    have unsent := unsent (by rw [was]; rintro ⟨⟩)
    refine .answered ?_ ?_ (fun live => by rw [operation]; rintro ⟨⟩) (fun busy => absurd operation busy) ?_
    · simpa [receivedBytes, lastFiles, reply] using made
    · simpa [replies_append, reply, replies] using once
    · have whole : c'.output = c.output := by rw [HttpConnection.output, reply, HttpConnection.output]
      rw [transmitted_append, unsent, List.nil_append, whole]
      simpa [transmitted] using List.take_prefix n c.output

/-- A step that shows nothing and leaves the parser and the reply alone. -/
theorem Tracks.quiet (tracks : Tracks docRoot major minor status log c) (parser : c'.parser = c.parser)
    (request : c'.request = c.request) (reply : c'.reply = c.reply)
    (operation : c'.operation = none ∨ c'.operation = c.operation) :
    Tracks docRoot major minor status (log ++ []) c' := by
  rw [List.append_nil]
  cases tracks with
  | reading fresh parsed silent unsent other =>
    refine .reading (reply.trans fresh) (by rw [parser, request]; exact parsed) silent unsent fun live => ?_
    rcases operation with none_ | same
    · rw [none_]
      rintro ⟨⟩
    · rw [same]
      exact other live
  | answered made once other unsent sent =>
    refine .answered (by rw [reply]; exact made) (by rw [reply]; exact once) (fun live => ?_) (fun busy => ?_) ?_
    · rcases operation with none_ | same
      · rw [none_]
        rintro ⟨⟩
      · rw [same]
        exact other live
    · rcases operation with none_ | same
      · exact absurd none_ busy
      · exact unsent (same ▸ busy)
    · rw [HttpConnection.output, reply]
      exact sent

theorem Tracks.step {action : HttpAction} (tracks : Tracks docRoot major minor status log c)
    (taken : (httpConnectionMachine docRoot).step c action = some (c', seen)) :
    Tracks docRoot major minor status (log ++ seen) c' := by
  cases action with
  | received data files =>
    simp only [httpConnectionMachine] at taken
    split at taken
    · rename_i enabled
      cases tracks with
      | reading reply parsed silent unsent _ => exact tracks_handleRead reply parsed silent unsent taken
      | answered _ _ other _ _ => exact absurd enabled.1 (other true)
    · cases taken
  | readFailed =>
    simp only [httpConnectionMachine] at taken
    split at taken
    · cases taken
      exact tracks.quiet rfl rfl rfl (.inl rfl)
    · cases taken
  | readAborted =>
    simp only [httpConnectionMachine] at taken
    split at taken
    · cases taken
      exact tracks.quiet rfl rfl rfl (.inl rfl)
    · cases taken
  | written =>
    simp only [httpConnectionMachine] at taken
    split at taken
    · rename_i was
      cases taken
      have all := @Tracks.finished docRoot major minor status c { c with operation := none }.stop log c.output.length
        tracks true was rfl rfl
      rwa [List.take_length] at all
    · cases taken
  | writeFailed n =>
    simp only [httpConnectionMachine] at taken
    split at taken
    · rename_i live was
      split at taken
      · cases taken
        exact tracks.finished was rfl rfl
      · cases taken
    · cases taken
  | writeAborted n =>
    simp only [httpConnectionMachine] at taken
    split at taken
    · rename_i enabled
      cases taken
      exact tracks.finished enabled.1 rfl rfl
    · cases taken
  | stopAll =>
    cases taken
    split
    · exact tracks.quiet rfl rfl rfl (.inr rfl)
    · exact tracks.quiet rfl rfl rfl (.inr rfl)

theorem tracks_run {as : List HttpAction}
    (runs : (httpConnectionMachine docRoot).run (.start major minor status) as = some (c, log)) :
    Tracks docRoot major minor status log c := by
  have always : (httpConnectionMachine docRoot).Meets (fun _ _ => True) (.start major minor status) as :=
    meets_of_forall fun _ _ _ => trivial
  exact run_induct (fun _ log c => Tracks docRoot major minor status log c) (fun tracks _ taken => tracks.step taken)
    tracks_start always runs

end

/-- In every run of the server, whatever the segments and the order of events, a connection has made just the reply
that the bytes it received call for, and put on the wire no more than that reply. -/
theorem server_answers (docRoot : Bytes) (as : List ServerAction) (s : HttpServer) (events : List (Nat × HttpEvent))
    (runs : (httpServerMachine docRoot).run HttpServer.new as = some (s, events)) (i : Nat) (c : HttpConnection)
    (there : s.connections[i]? = some c) :
    replies (eventsOf i events) =
        (answer docRoot (lastFiles (eventsOf i events)) (receivedBytes (eventsOf i events))).toList ∧
      transmitted (eventsOf i events) <+: (replies (eventsOf i events)).flatMap fun rep => rep.toBuffers.flatten := by
  obtain ⟨bs, allowed, family⟩ := server_refines_family runs
  obtain ⟨start, spawned, own⟩ := run_member (Nat.zero_le i) family there
  obtain ⟨major, minor, status, rfl⟩ := allowed _ spawned
  cases tracks_run own with
  | reading reply parsed silent unsent operation =>
    rw [answer_eq docRoot _ _ major minor status, parsed, silent, unsent]
    exact ⟨rfl, List.nil_prefix⟩
  | answered made once operation unsent sent =>
    rw [made, once]
    refine ⟨rfl, ?_⟩
    rw [List.flatMap_singleton]
    exact sent

/-- A request in two segments, with a failed read of another connection between them. -/
theorem server_answers_two_segments :
    ∃ s events, (httpServerMachine []).run .new [.accepted 9 9 .ok, .accepted 0 0 .ok,
      .connection 0 (.received (ascii "G / HT") fun _ => none), .connection 1 .readFailed,
      .connection 0 (.received (ascii "TP/1.0\r\n\r\nmore") fun _ => none)] = some (s, events) ∧
      replies (eventsOf 0 events) = [stockReply .notFound] := by
  refine ⟨_, _, rfl, ?_⟩
  exact (server_answers [] [.accepted 9 9 .ok, .accepted 0 0 .ok,
    .connection 0 (.received (ascii "G / HT") fun _ => none), .connection 1 .readFailed,
    .connection 0 (.received (ascii "TP/1.0\r\n\r\nmore") fun _ => none)] _ _ rfl 0 _ rfl).1.trans rfl

end MiniProtobuf.Http
