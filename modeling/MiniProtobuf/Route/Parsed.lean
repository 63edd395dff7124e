import MiniProtobuf.Route.Framing
import MiniProtobuf.Route.Front

/-!
# Messages that did not parse

`ProcessRecv` looks at neither result of `ParseFromArray`. What is dispatched has parsed just when the
slices at the front of the buffer parse wherever they name a known type.
-/

namespace MiniProtobuf
open Wire BaseCmd

variable {pl : Platform} {P : Pool}

/-- Both calls of `ParseFromArray` succeed. -/
def FullyParsed (P : Pool) (slices : Bytes × Bytes) : Prop :=
  (CmdType.parseFromArray slices.1).2 = true ∧
    ∀ prototype, P.createMessage (CmdType.parseFromArray slices.1).1.type = some prototype →
      (P.parseFromArray prototype slices.2).2 = true

def ParsedIfMade (P : Pool) (slices : Bytes × Bytes) : Prop := (made P slices).isSome = true → FullyParsed P slices

/-- Every message that is dispatched comes from two slices, and they have all parsed just when the slices
at the front of every call parse wherever they make a message. -/
theorem dispatches_parsed_iff {r t : Route} {actions : List (Action P)} {events : List (Event P)}
    (idle : r.preRecivesTotalLen = 0) (runs : (routeMachine pl P).run r actions = some (t, events)) :
    dispatched events = (frames events).filterMap (made P) ∧
      ((∀ slices ∈ frames events, (made P slices).isSome = true → FullyParsed P slices) ↔
        (routeMachine pl P).Meets (OnFront (ParsedIfMade P)) r actions) :=
  ⟨run_dispatched runs, run_frames_iff (by rw [idle]; exact Int.pow_pos (by decide)) runs⟩

theorem dispatches_parsed_iff_move :
    let actions : List (Action .baseCmd) := [.receive (frame .baseCmd (Message.reqMove ⟨1, 2⟩)), .processRecv silent]
    ∃ t events, (routeMachine .x64 .baseCmd).run (Route.new 0 [] []) actions = some (t, events) ∧
      (dispatched events).length = 1 ∧
      (routeMachine .x64 .baseCmd).Meets (OnFront (ParsedIfMade .baseCmd)) (Route.new 0 [] []) actions := by
  intro actions
  have evaluates : ((routeMachine .x64 .baseCmd).run (Route.new 0 [] []) actions).any
      (fun (_, events) => (dispatched events).length = 1 ∧
        ∀ slices ∈ frames events, (CmdType.parseFromArray slices.1).2 = true ∧
          (Message.createMessage (CmdType.parseFromArray slices.1).1.type).all
            fun prototype => (prototype.parseFromArray slices.2).2) = true := by
    decide +kernel
  obtain ⟨t, events, runs, seen⟩ := Machine.exists_run evaluates
  obtain ⟨one, parsed⟩ := of_decide_eq_true seen
  refine ⟨t, events, runs, one, (dispatches_parsed_iff rfl runs).2.mp fun slices framed _ => ?_⟩
  obtain ⟨header, body⟩ := parsed slices framed
  refine ⟨header, fun prototype found => ?_⟩
  have known : Message.createMessage (CmdType.parseFromArray slices.1).1.type = some prototype := found
  rw [known] at body
  exact body

/-- A header with a stray byte behind its fields, and a body that ends inside its first field: neither
parses, and both are dispatched. -/
theorem unparsed_frames_dispatched :
    let header := headerOf .baseCmd (Message.reqMove ⟨0, 0⟩)
    let packet (header body : Bytes) :=
      head ++ (le32 (8 + header.length + body.length) ++ (le32 header.length ++ (header ++ body)))
    ∃ t events,
      (routeMachine .x64 .baseCmd).run (Route.new 0 [] [])
        [.receive (packet (header ++ [255]) [] ++ packet header [13]), .processRecv silent, .processRecv silent] =
          some (t, events) ∧
      (dispatched events).length = 2 ∧ ∀ slices ∈ frames events, ¬ FullyParsed .baseCmd slices := by
  intro header packet
  have evaluates : ((routeMachine .x64 .baseCmd).run (Route.new 0 [] [])
      [.receive (packet (header ++ [255]) [] ++ packet header [13]), .processRecv silent, .processRecv silent]).any
      (fun (_, events) => (dispatched events).length = 2 ∧
        ∀ slices ∈ frames events, (CmdType.parseFromArray slices.1).2 = false ∨
          (Message.createMessage (CmdType.parseFromArray slices.1).1.type).any
            fun prototype => !(prototype.parseFromArray slices.2).2) = true := by
    decide +kernel
  obtain ⟨t, events, runs, seen⟩ := Machine.exists_run evaluates
  obtain ⟨two, failed⟩ := of_decide_eq_true seen
  refine ⟨t, events, runs, two, ?_⟩
  rintro slices framed ⟨header, body⟩
  rcases failed slices framed with unparsed | unparsed
  · rw [header] at unparsed
    cases unparsed
  · cases found : Message.createMessage (CmdType.parseFromArray slices.1).1.type with
    | none =>
      rw [found] at unparsed
      cases unparsed
    | some prototype =>
      have parses : (prototype.parseFromArray slices.2).2 = true := body prototype found
      rw [found, Option.any_some, parses] at unparsed
      cases unparsed

end MiniProtobuf
