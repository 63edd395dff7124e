import Mathlib.Algebra.Order.Group.Multiset
import Mathlib.Tactic.Abel
import MiniProtobuf.Eventpp.EventQueue
import MiniProtobuf.Machine.Family

/-!
# No event is lost

Whatever calls are made on an event queue, and however the threads that make them are interleaved, every event is at
each moment in one place: on its way into the queue, in it, in the hands of one call, handled, or destroyed by an
exception that left a call. The assertions on the items hold throughout; what can go wrong is the `--it` of `processIf`.
-/

namespace MiniProtobuf.Eventpp
open Machine

variable {E : Type} {q q' : EventQueue E} {call call' : QueueCall E} {seen : List (QueueEvent E)} {func : Bool}
  {s t : QueueCalls E} {action : QueueAction E} {as : List (QueueAction E)} {log events : List (Nat × QueueEvent E)}

/-! ### Items -/

def Full (items : List (QueuedItem E)) : Prop := ∀ item ∈ items, item.isSome = true

def Cleared (items : List (QueuedItem E)) : Prop := ∀ item ∈ items, item = none

theorem Full.append {items more : List (QueuedItem E)} (first : Full items) (second : Full more) :
    Full (items ++ more) :=
  fun item member => (List.mem_append.mp member).elim (first item) (second item)

theorem Cleared.append {items more : List (QueuedItem E)} (first : Cleared items) (second : Cleared more) :
    Cleared (items ++ more) :=
  fun item member => (List.mem_append.mp member).elim (first item) (second item)

theorem full_cons {item : QueuedItem E} {items : List (QueuedItem E)} :
    Full (item :: items) ↔ item.isSome = true ∧ Full items := List.forall_mem_cons

theorem full_nil : Full ([] : List (QueuedItem E)) := fun _ member => absurd member List.not_mem_nil

theorem cleared_nil : Cleared ([] : List (QueuedItem E)) := fun _ member => absurd member List.not_mem_nil

theorem cleared_one : Cleared [(none : QueuedItem E)] := fun _ member => List.mem_singleton.mp member

structure EventQueue.Sound (q : EventQueue E) : Prop where
  queue : Full q.queueList
  free : Cleared q.freeList

def QueueCall.Sound : QueueCall E → Prop
  | .filled item => item.isSome = true
  | .loop _ kept idle todo => Full kept ∧ Cleared idle ∧ Full todo
  | .dispatching _ kept idle item todo => Full kept ∧ Cleared idle ∧ item.isSome = true ∧ Full todo
  | .putting _ kept idle => Full kept ∧ Cleared idle
  | .freeing _ idle => Cleared idle
  | _ => True

/-- `processIf` is about to step back from the first item of its list. -/
def QueueCall.atFront : QueueCall E → Bool
  | .dispatching .processIf [] _ _ _ => true
  | _ => false

/-! ### What a step of a call does -/

/-- What a call has taken out of the queue and not yet handled. -/
def QueueCall.left : QueueCall E → List E
  | .loop _ kept _ todo | .dispatching _ kept _ _ todo => contents kept ++ contents todo
  | .putting _ kept _ => contents kept
  | .unwinding items | .destroying items => contents items
  | _ => []

/-- What a call has in hand. -/
def QueueCall.held : QueueCall E → List E
  | .enqueue event | .reusing event => [event]
  | .filled item => contents [item]
  | call => call.left

/-- The call counts in `queueEmptyCounter`. -/
def QueueCall.inGuard : QueueCall E → Bool
  | .taking kind | .loop kind _ _ _ | .dispatching kind _ _ _ _ => kind.guarded
  | .putting kind _ _ | .freeing kind _ | .leaving kind _ => kind.guarded
  | .unwinding _ => true
  | _ => false

theorem contents_append (items more : List (QueuedItem E)) :
    contents (items ++ more) = contents items ++ contents more := List.filterMap_append

/-- An exception leaves a call with what it had, and in its guard. -/
theorem throws_eq (thrown : call.throws = some call') :
    ∃ items, call' = .unwinding items ∧ call.left = contents items ∧ call.held = contents items ∧
      call.inGuard = true := by
  unfold QueueCall.throws at thrown
  split at thrown
  · cases thrown
    exact ⟨_, rfl, (contents_append _ _).symm, (contents_append _ _).symm, rfl⟩
  · rename_i kind kept idle item todo
    split at thrown
    · rename_i guarded
      cases thrown
      exact ⟨_, rfl, (contents_append _ _).symm, (contents_append _ _).symm, guarded⟩
    · cases thrown
  · cases thrown

/-- The steps that are defined. -/
inductive Advances (q : EventQueue E) : QueueCall E → EventQueue E → QueueCall E → List (QueueEvent E) → Prop
  | makes (event : E) : Advances q (.enqueue event) q (.filled (some event)) []
  | finds (event : E) : Advances q (.enqueue event) q (.reusing event) []
  | misses (event : E) : Advances q (.reusing event) q (.filled (some event)) []
  | reuses (event : E) {freeList : List (QueuedItem E)} (free : q.freeList = none :: freeList) :
    Advances q (.reusing event) { q with freeList } (.filled (some event)) []
  | queues (item : QueuedItem E) :
    Advances q (.filled item) { q with queueList := q.queueList ++ [item] } (.returned true)
      ((contents [item]).map .queued)
  | guards {kind : Kind} (guarded : kind.guarded = true) :
    Advances q (.entered kind) { q with queueEmptyCounter := q.queueEmptyCounter + 1 } (.taking kind) []
  | passes {kind : Kind} (free : kind.guarded = false) : Advances q (.entered kind) q (.taking kind) []
  | late (kind : Kind) : Advances q (.taking kind) q (.leaving kind false) []
  | peeks : Advances q (.taking .peekEvent) q (.leaving .peekEvent true) []
  | takes (kind : Kind) {batch rest : List (QueuedItem E)} (split : q.queueList = batch ++ rest) :
    Advances q (.taking kind) { q with queueList := rest } (.loop kind [] [] batch) [.took (contents batch)]
  | destroys (event : E) (kept idle todo : List (QueuedItem E)) :
    Advances q (.loop .clearEvents kept idle (some event :: todo)) q (.loop .clearEvents kept (idle ++ [none]) todo)
      [.handled .clearEvents event]
  | keeps (event : E) (kept idle todo : List (QueuedItem E)) :
    Advances q (.loop .processIf kept idle (some event :: todo)) q
      (.loop .processIf (kept ++ [some event]) idle todo) []
  | handles (kind : Kind) (event : E) (kept idle todo : List (QueuedItem E)) :
    Advances q (.loop kind kept idle (some event :: todo)) q (.dispatching kind kept idle (some event) todo)
      [.handled kind event]
  | clears {kind : Kind} (event : E) {kept : List (QueuedItem E)} (idle todo : List (QueuedItem E))
    (room : ¬ (kind = .processIf ∧ kept = [])) :
    Advances q (.dispatching kind kept idle (some event) todo) q (.loop kind kept (idle ++ [none]) todo) []
  | ends (kind : Kind) (idle : List (QueuedItem E)) : Advances q (.loop kind [] idle []) q (.freeing kind idle) []
  | wanted_none (kind : Kind) : Advances q (.loop kind [] [] []) q (.leaving kind false) []
  | wanted_some (kind : Kind) {kept : List (QueuedItem E)} (idle : List (QueuedItem E)) (some_kept : kept ≠ []) :
    Advances q (.loop kind kept idle []) q (.putting kind kept idle) []
  | returns (kind : Kind) (kept : List (QueuedItem E)) :
    Advances q (.putting kind kept []) { q with queueList := kept ++ q.queueList } (.leaving kind false) []
  | puts (kind : Kind) (kept idle : List (QueuedItem E)) :
    Advances q (.putting kind kept idle) { q with queueList := kept ++ q.queueList } (.freeing kind idle) []
  | frees (kind : Kind) (idle : List (QueuedItem E)) :
    Advances q (.freeing kind idle) { q with freeList := q.freeList ++ idle } (.leaving kind true) []
  | unguards {kind : Kind} (guarded : kind.guarded = true) (result : Bool) :
    Advances q (.leaving kind result) { q with queueEmptyCounter := q.queueEmptyCounter - 1 } (.returned result) []
  | leaves {kind : Kind} (free : kind.guarded = false) (result : Bool) :
    Advances q (.leaving kind result) q (.returned result) []
  | unwinds (items : List (QueuedItem E)) :
    Advances q (.unwinding items) { q with queueEmptyCounter := q.queueEmptyCounter - 1 } (.destroying items) []
  | drops (items : List (QueuedItem E)) : Advances q (.destroying items) q .thrown [.destroyed (contents items)]

theorem advances_of_advance (running : call.isReturned = false)
    (taken : call.advance q func = some (q', call', seen)) : Advances q call q' call' seen := by
  cases call with
  | enqueue event =>
    simp only [QueueCall.advance] at taken
    split at taken <;> cases taken
    · exact .makes event
    · exact .finds event
  | reusing event =>
    simp only [QueueCall.advance] at taken
    split at taken
    · cases taken
      exact .misses event
    · rename_i item freeList free
      obtain ⟨set, filled, same⟩ := Option.bind_eq_some_iff.mp taken
      cases item with
      | none =>
        cases filled
        cases same
        exact .reuses event free
      | some old => cases filled
  | filled item =>
    cases taken
    exact .queues item
  | entered kind =>
    simp only [QueueCall.advance] at taken
    split at taken <;> rename_i guarded <;> cases taken
    · exact .guards guarded
    · exact .passes (Bool.eq_false_iff.mpr guarded)
  | taking kind =>
    simp only [QueueCall.advance] at taken
    split at taken
    · cases taken
      exact .late kind
    · rename_i item rest queue
      cases kind with
      | peekEvent =>
        obtain ⟨event, -, same⟩ := Option.map_eq_some_iff.mp taken
        cases same
        exact .peeks
      | processOne | takeEvent =>
        cases taken
        exact .takes _ queue
      | clearEvents | process | processIf =>
        cases taken
        exact .takes _ (queue.trans (List.append_nil _).symm)
  | loop kind kept idle todo =>
    cases todo with
    | nil =>
      simp only [QueueCall.advance] at taken
      split at taken
      · rename_i none_kept
        obtain rfl := List.isEmpty_iff.mp none_kept
        split at taken <;> rename_i none_idle <;> cases taken
        · obtain rfl := List.isEmpty_iff.mp none_idle
          exact .wanted_none kind
        · exact .ends kind idle
      · rename_i some_kept
        cases taken
        exact .wanted_some kind idle fun none_kept => some_kept (List.isEmpty_iff.mpr none_kept)
    | cons item todo =>
      cases item with
      | none => cases kind <;> cases taken
      | some event =>
        cases kind with
        | clearEvents =>
          cases taken
          exact .destroys event kept idle todo
        | processIf =>
          cases func <;> cases taken
          · exact .keeps event kept idle todo
          · exact .handles .processIf event kept idle todo
        | process | processOne | peekEvent | takeEvent =>
          cases taken
          exact .handles _ event kept idle todo
  | dispatching kind kept idle item todo =>
    simp only [QueueCall.advance] at taken
    cases item with
    | none => cases taken
    | some event =>
      obtain ⟨cleared, clears, rest⟩ := Option.bind_eq_some_iff.mp taken
      cases clears
      split at rest
      · cases rest
      · rename_i room
        cases rest
        exact .clears event idle todo room
  | putting kind kept idle =>
    simp only [QueueCall.advance] at taken
    split at taken <;> rename_i none_idle <;> cases taken
    · obtain rfl := List.isEmpty_iff.mp none_idle
      exact .returns kind kept
    · exact .puts kind kept idle
  | freeing kind idle =>
    cases taken
    exact .frees kind idle
  | leaving kind result =>
    simp only [QueueCall.advance] at taken
    split at taken <;> rename_i guarded <;> cases taken
    · exact .unguards guarded result
    · exact .leaves (Bool.eq_false_iff.mpr guarded) result
  | unwinding items =>
    cases taken
    exact .unwinds items
  | destroying items =>
    cases taken
    exact .drops items
  | returned result => cases running
  | thrown => cases running

/-! ### Assertions -/

theorem Advances.sound (step : Advances q call q' call' seen) (sound : q.Sound) (own : call.Sound) :
    q'.Sound ∧ call'.Sound := by
  cases step with
  | makes | misses => exact ⟨sound, rfl⟩
  | finds | guards | passes | late | peeks | wanted_none | unguards | leaves | unwinds | drops =>
    exact ⟨⟨sound.queue, sound.free⟩, trivial⟩
  | reuses event free =>
    refine ⟨⟨sound.queue, fun item member => sound.free item ?_⟩, rfl⟩
    rw [free]
    exact List.mem_cons_of_mem _ member
  | queues item => exact ⟨⟨sound.queue.append (full_cons.mpr ⟨own, full_nil⟩), sound.free⟩, trivial⟩
  | @takes kind batch rest split =>
    have queue : Full (batch ++ rest) := split ▸ sound.queue
    refine ⟨⟨fun item member => queue item (List.mem_append_right _ member), sound.free⟩, full_nil, cleared_nil, ?_⟩
    exact fun item member => queue item (List.mem_append_left _ member)
  | destroys event kept idle todo =>
    obtain ⟨kept, idle, todo⟩ := own
    exact ⟨sound, kept, idle.append cleared_one, (full_cons.mp todo).2⟩
  | keeps event kept idle todo =>
    obtain ⟨kept, idle, todo⟩ := own
    exact ⟨sound, kept.append (full_cons.mpr ⟨rfl, full_nil⟩), idle, (full_cons.mp todo).2⟩
  | handles kind event kept idle todo =>
    obtain ⟨kept, idle, todo⟩ := own
    exact ⟨sound, kept, idle, rfl, (full_cons.mp todo).2⟩
  | clears event idle todo room =>
    obtain ⟨kept, idle, -, todo⟩ := own
    exact ⟨sound, kept, idle.append cleared_one, todo⟩
  | ends kind idle => exact ⟨sound, own.2.1⟩
  | wanted_some kind idle some_kept => exact ⟨sound, own.1, own.2.1⟩
  | returns kind kept => exact ⟨⟨own.1.append sound.queue, sound.free⟩, trivial⟩
  | puts kind kept idle => exact ⟨⟨own.1.append sound.queue, sound.free⟩, own.2⟩
  | frees kind idle => exact ⟨⟨sound.queue, sound.free.append own⟩, trivial⟩

/-- No assertion fails. What is not defined is only the step back from the first item. -/
theorem advance_eq_none (sound : q.Sound) (own : call.Sound) : call.advance q func = none ↔ call.atFront = true := by
  cases call with
  | enqueue event =>
    simp only [QueueCall.advance]
    split <;> simp [QueuedItem.set, QueueCall.atFront]
  | reusing event =>
    simp only [QueueCall.advance]
    split
    · simp [QueuedItem.set, QueueCall.atFront]
    · rename_i item freeList free
      have cleared : item = none := sound.free item (free ▸ List.mem_cons_self)
      simp [cleared, QueuedItem.set, QueueCall.atFront]
  | taking kind =>
    simp only [QueueCall.advance]
    split
    · simp [QueueCall.atFront]
    · rename_i item rest queue
      have full : item.isSome = true := sound.queue item (queue ▸ List.mem_cons_self)
      cases kind <;> simp [QueueCall.atFront, Option.isSome_iff_ne_none.mp full]
  | loop kind kept idle todo =>
    cases todo with
    | nil =>
      simp only [QueueCall.advance]
      split <;> simp [QueueCall.atFront]
    | cons item todo =>
      obtain ⟨event, rfl⟩ := Option.isSome_iff_exists.mp (full_cons.mp own.2.2).1
      cases kind <;> cases func <;> simp [QueueCall.advance, QueueCall.atFront, QueuedItem.clear]
  | dispatching kind kept idle item todo =>
    obtain ⟨event, rfl⟩ := Option.isSome_iff_exists.mp own.2.2.1
    cases kind <;> cases kept <;> simp [QueueCall.advance, QueueCall.atFront, QueuedItem.clear]
  | _ => simp [QueueCall.advance, QueueCall.atFront]

structure QueueCalls.Sound (s : QueueCalls E) : Prop where
  queue : s.queue.Sound
  calls : ∀ call ∈ s.calls, call.Sound

theorem sound_begun (sound : s.Sound) (own : call.Sound) :
    QueueCalls.Sound { s with calls := s.calls ++ [call] } := by
  refine ⟨sound.queue, fun other member => ?_⟩
  rcases List.mem_append.mp member with before | new
  · exact sound.calls other before
  · rw [List.mem_singleton.mp new]
    exact own

theorem sound_moved {i : Nat} {queue : EventQueue E} (sound : s.Sound) (shared : queue.Sound) (own : call.Sound) :
    QueueCalls.Sound { s with queue, calls := s.calls.set i call } := by
  refine ⟨shared, fun other member => ?_⟩
  rcases List.mem_or_eq_of_mem_set member with before | rfl
  · exact sound.calls other before
  · exact own

/-- What a step is: a call begins, a call moves, a step back from the first item, or an exception. -/
inductive QueueStep (s : QueueCalls E) : QueueAction E → QueueCalls E → List (Nat × QueueEvent E) → Prop
  | enqueues (event : E) : QueueStep s (.enqueue event) { s with calls := s.calls ++ [.enqueue event] } []
  | returns (kind : Kind) : QueueStep s (.call kind) { s with calls := s.calls ++ [.returned false] } []
  | enters (kind : Kind) : QueueStep s (.call kind) { s with calls := s.calls ++ [.entered kind] } []
  | advances {i : Nat} {func : Bool} {call call' : QueueCall E} {queue : EventQueue E} {seen : List (QueueEvent E)}
    (found : s.calls[i]? = some call) (step : Advances s.queue call queue call' seen) :
    QueueStep s (.advance i func) { s with queue, calls := s.calls.set i call' } (seen.map (i, ·))
  | fails {i : Nat} {func : Bool} {call : QueueCall E} (found : s.calls[i]? = some call)
    (undefined : call.advance s.queue func = none) : QueueStep s (.advance i func) { s with failed := true } []
  | throws {i : Nat} {call call' : QueueCall E} (found : s.calls[i]? = some call) (thrown : call.throws = some call') :
    QueueStep s (.throw i) { s with calls := s.calls.set i call' } []

theorem queueStep_of_step {seen : List (Nat × QueueEvent E)} (taken : (queueMachine E).step s action = some (t, seen)) :
    s.failed = false ∧ QueueStep s action t seen := by
  simp only [queueMachine] at taken
  split at taken
  · cases taken
  rename_i running
  refine ⟨Bool.eq_false_iff.mpr running, ?_⟩
  cases action with
  | enqueue event =>
    cases taken
    exact .enqueues event
  | call kind =>
    dsimp only at taken
    split at taken <;> cases taken
    · exact .returns kind
    · exact .enters kind
  | advance i func =>
    obtain ⟨call, found, rest⟩ := Option.bind_eq_some_iff.mp taken
    split at rest
    · cases rest
    rename_i going
    split at rest
    · rename_i undefined
      cases rest
      exact .fails found undefined
    · rename_i queue call' seen advanced
      cases rest
      exact .advances found (advances_of_advance (Bool.eq_false_iff.mpr going) advanced)
  | throw i =>
    obtain ⟨call, found, rest⟩ := Option.bind_eq_some_iff.mp taken
    obtain ⟨call', thrown, same⟩ := Option.bind_eq_some_iff.mp rest
    cases same
    exact .throws found thrown

theorem QueueCalls.Sound.step {seen : List (Nat × QueueEvent E)} (sound : s.Sound) (step : QueueStep s action t seen) :
    t.Sound := by
  cases step with
  | enqueues | returns | enters => exact sound_begun sound trivial
  | @advances i func call call' queue seen found step =>
    obtain ⟨shared, own⟩ := step.sound sound.queue (sound.calls call (List.mem_of_getElem? found))
    exact sound_moved sound shared own
  | fails found undefined => exact ⟨sound.queue, sound.calls⟩
  | throws found thrown =>
    obtain ⟨items, rfl, -⟩ := throws_eq thrown
    exact sound_moved sound sound.queue trivial

/-- `processIf` clears an event that is the first of its list, and steps back from it. -/
def stepsBack (s : QueueCalls E) : QueueAction E → Bool
  | .advance i _ => s.calls[i]?.any QueueCall.atFront
  | _ => false

theorem Advances.atFront (step : Advances q call q' call' seen) : call.atFront = false := by
  cases step with
  | @clears kind event kept idle todo room => cases kind <;> cases kept <;> simp_all [QueueCall.atFront]
  | _ => rfl

theorem step_failed {seen : List (Nat × QueueEvent E)} (sound : s.Sound) (running : s.failed = false)
    (step : QueueStep s action t seen) : t.failed = stepsBack s action := by
  cases step with
  | enqueues | returns | enters | throws => exact running
  | @advances i func call call' queue seen found step =>
    rw [stepsBack, found, Option.any_some, step.atFront]
    exact running
  | @fails i func call found undefined =>
    rw [stepsBack, found, Option.any_some]
    exact ((advance_eq_none sound.queue (sound.calls call (List.mem_of_getElem? found))).mp undefined).symm

theorem failed_run (failed : s.failed = true) (runs : (queueMachine E).run s as = some (t, events)) :
    t.failed = true := by
  cases as with
  | nil =>
    cases runs
    exact failed
  | cons action as =>
    obtain ⟨u, seen, later, taken, -, -⟩ := run_cons_eq_some.mp runs
    cases failed.symm.trans (queueStep_of_step taken).1

theorem sound_start : (QueueCalls.start : QueueCalls E).Sound :=
  ⟨⟨full_nil, cleared_nil⟩, fun _ member => absurd member List.not_mem_nil⟩

theorem run_failed_iff (sound : s.Sound) (running : s.failed = false)
    (runs : (queueMachine E).run s as = some (t, events)) :
    t.failed = false ↔ (queueMachine E).Meets (fun s a => stepsBack s a = false) s as := by
  induction as generalizing s events with
  | nil =>
    cases runs
    exact ⟨fun _ => trivial, fun _ => running⟩
  | cons action as ih =>
    obtain ⟨u, seen, later, taken, rest, rfl⟩ := run_cons_eq_some.mp runs
    obtain ⟨-, step⟩ := queueStep_of_step taken
    have failed := step_failed sound running step
    cases back : stepsBack s action with
    | true =>
      rw [failed_run (failed.trans back) rest]
      exact ⟨by rintro ⟨⟩, fun meets => absurd (back.symm.trans meets.1) (by decide)⟩
    | false =>
      rw [ih (sound.step step) (failed.trans back) rest]
      refine ⟨fun meets => ⟨back, fun v seen' again => ?_⟩, fun meets => meets.2 u seen taken⟩
      cases taken.symm.trans again
      exact meets

/-- In every run the assertions on the items hold, and all that is not defined is a `processIf` that takes the first
event of its list. -/
theorem queue_safe_iff (as : List (QueueAction E)) (t : QueueCalls E) (events : List (Nat × QueueEvent E))
    (runs : (queueMachine E).run .start as = some (t, events)) :
    t.failed = false ↔ (queueMachine E).Meets (fun s a => stepsBack s a = false) .start as :=
  run_failed_iff sound_start rfl runs

theorem queue_safe_iff_unwanted_first :
    let as : List (QueueAction Nat) :=
      [.enqueue 1, .advance 0 false, .advance 0 false, .enqueue 2, .advance 1 false, .advance 1 false, .call .processIf,
        .advance 2 false, .advance 2 false, .advance 2 false, .advance 2 true, .advance 2 false]
    ∃ t events, (queueMachine Nat).run .start as = some (t, events) ∧ t.failed = false ∧
      (queueMachine Nat).Meets (fun s a => stepsBack s a = false) .start as := by
  intro as
  refine ⟨_, _, rfl, rfl, ?_⟩
  exact (queue_safe_iff as _ _ rfl).mp rfl

/-- The first event is wanted. -/
example :
    let as : List (QueueAction Nat) :=
      [.enqueue 1, .advance 0 false, .advance 0 false, .call .processIf, .advance 1 false, .advance 1 false,
        .advance 1 true, .advance 1 false]
    ((queueMachine Nat).run .start as).any (fun (t, _) => t.failed) = true := by
  decide

/-! ### Conservation -/

def handledIn (seen : List (QueueEvent E)) : List E :=
  seen.filterMap fun
    | .handled _ event => some event
    | _ => none

/-- What has been handled, or destroyed by an exception, in this order. -/
def settledIn (seen : List (QueueEvent E)) : List E :=
  seen.flatMap fun
    | .handled _ event => [event]
    | .destroyed events => events
    | _ => []

def QueueCalls.held (s : QueueCalls E) : List E := s.calls.flatMap QueueCall.held

/-- The events that calls of `enqueue` were made with. -/
def enqueued (as : List (QueueAction E)) : List E :=
  as.filterMap fun
    | .enqueue event => some event
    | _ => none

theorem contents_nil : contents ([] : List (QueuedItem E)) = [] := rfl

theorem contents_cons_some (event : E) (items : List (QueuedItem E)) :
    contents (some event :: items) = [event] ++ contents items := rfl

theorem settledIn_handled (kind : Kind) (event : E) : settledIn [.handled kind event] = [event] := rfl

theorem settledIn_destroyed (events : List E) : settledIn [.destroyed events] = events := List.append_nil events

theorem settledIn_took (events : List E) : settledIn [.took events] = [] := rfl

theorem settledIn_queued (item : QueuedItem E) : settledIn ((contents [item]).map .queued) = [] := by
  cases item <;> rfl

theorem settledIn_nil : settledIn ([] : List (QueueEvent E)) = [] := rfl

theorem Advances.conserves (step : Advances q call q' call' seen) :
    (settledIn seen + call'.held + contents q'.queueList : Multiset E) = call.held + contents q.queueList := by
  cases step with
  | takes kind split =>
    simp only [split, settledIn_took, QueueCall.held, QueueCall.left, contents_append, contents_nil, ← Multiset.coe_add,
      Multiset.coe_nil]
    abel
  | _ =>
    simp only [settledIn_nil, settledIn_queued, settledIn_handled, settledIn_destroyed, QueueCall.held, QueueCall.left,
      contents_append, contents_cons_some, contents_nil, ← Multiset.coe_add, Multiset.coe_nil]
    all_goals abel

/-- One call of several moves. -/
theorem flatMap_set {α β : Type} (f : α → List β) {xs : List α} {i : Nat} {x : α} (y : α) (found : xs[i]? = some x) :
    ((xs.set i y).flatMap f + f x : Multiset β) = xs.flatMap f + f y := by
  induction xs generalizing i with
  | nil => cases found
  | cons first xs ih =>
    cases i with
    | zero =>
      cases found
      simp only [List.set_cons_zero, List.flatMap_cons, ← Multiset.coe_add]
      abel
    | succ i =>
      have rest := ih found
      simp only [List.set_cons_succ, List.flatMap_cons, ← Multiset.coe_add]
      rw [add_assoc, rest, add_assoc]

def eventsIn (events : List (Nat × QueueEvent E)) : List (QueueEvent E) := events.map Prod.snd

theorem eventsIn_map (i : Nat) (seen : List (QueueEvent E)) : eventsIn (seen.map (i, ·)) = seen := by
  simp [eventsIn]

/-- The call at `i` moves, and with it some events. -/
theorem held_set {i : Nat} {queue : EventQueue E} (found : s.calls[i]? = some call)
    (own : (settledIn seen + call'.held + contents queue.queueList : Multiset E) =
      call.held + contents s.queue.queueList) :
    (settledIn seen + (s.calls.set i call').flatMap QueueCall.held + contents queue.queueList : Multiset E) =
      s.held + contents s.queue.queueList := by
  have others := flatMap_set QueueCall.held call' found
  refine add_right_cancel (b := (call.held : Multiset E)) ?_
  calc
    (settledIn seen + (s.calls.set i call').flatMap QueueCall.held + contents queue.queueList + call.held : Multiset E)
    _ = settledIn seen + contents queue.queueList + ((s.calls.set i call').flatMap QueueCall.held + call.held) := by
      abel
    _ = s.held + (settledIn seen + call'.held + contents queue.queueList) := by
      rw [others, QueueCalls.held]
      abel
    _ = s.held + contents s.queue.queueList + call.held := by
      rw [own]
      abel

theorem step_conserves {seen : List (Nat × QueueEvent E)} (step : QueueStep s action t seen) :
    (settledIn (eventsIn seen) + t.held + contents t.queue.queueList : Multiset E) =
      enqueued [action] + s.held + contents s.queue.queueList := by
  cases step with
  | enqueues event =>
    simp only [QueueCalls.held, List.flatMap_append, ← Multiset.coe_add]
    show (0 + (_ + ([event] : Multiset E)) + _ : Multiset E) = [event] + _ + _
    abel
  | returns kind | enters kind =>
    simp only [QueueCalls.held, List.flatMap_append, ← Multiset.coe_add]
    show (0 + (_ + 0) + _ : Multiset E) = 0 + _ + _
    abel
  | @advances i func call call' queue seen found step =>
    rw [eventsIn_map]
    exact (held_set found step.conserves).trans (congrArg (· + _) (zero_add _).symm)
  | fails found undefined => rfl
  | @throws i call call' found thrown =>
    obtain ⟨items, rfl, -, held, -⟩ := throws_eq thrown
    have own : (settledIn ([] : List (QueueEvent E)) + QueueCall.held (.unwinding items) + contents s.queue.queueList :
        Multiset E) = call.held + contents s.queue.queueList := by
      rw [held]
      exact congrArg (· + _) (zero_add _)
    exact (held_set found own).trans (congrArg (· + _) (zero_add _).symm)

/-! ### The guard -/

theorem Advances.counter (step : Advances q call q' call' seen)
    (counted : call.inGuard = true → 0 < q.queueEmptyCounter) :
    q'.queueEmptyCounter + (if call.inGuard then 1 else 0) = q.queueEmptyCounter + if call'.inGuard then 1 else 0 := by
  cases step with
  | guards guarded => simp [QueueCall.inGuard, guarded]
  | passes free => simp [QueueCall.inGuard, free]
  | unguards guarded result =>
    have positive := counted guarded
    simp only [QueueCall.inGuard, guarded, if_true, Bool.false_eq_true, if_false]
    omega
  | leaves free result => simp [QueueCall.inGuard, free]
  | unwinds items =>
    have positive := counted rfl
    simp only [QueueCall.inGuard, if_true, Bool.false_eq_true, if_false]
    omega
  | _ => rfl

theorem step_counter {seen : List (Nat × QueueEvent E)} (step : QueueStep s action t seen)
    (counts : s.queue.queueEmptyCounter = s.calls.countP QueueCall.inGuard) :
    t.queue.queueEmptyCounter = t.calls.countP QueueCall.inGuard := by
  cases step with
  | enqueues | returns | enters =>
    rw [List.countP_append, ← counts]
    rfl
  | @advances i func call call' queue seen found step =>
    obtain ⟨inside, here⟩ := List.getElem?_eq_some_iff.mp found
    have member : call ∈ s.calls := List.mem_of_getElem? found
    have counted : call.inGuard = true → 0 < s.queue.queueEmptyCounter := by
      intro guarded
      rw [counts]
      exact List.countP_pos_iff.mpr ⟨call, member, guarded⟩
    have own := step.counter counted
    show queue.queueEmptyCounter = (s.calls.set i call').countP QueueCall.inGuard
    rw [List.countP_set inside, here, ← counts]
    by_cases guarded : call.inGuard = true
    · have positive := counted guarded
      simp only [guarded, if_true] at own ⊢
      omega
    · simp only [guarded, Bool.false_eq_true, if_false] at own ⊢
      omega
  | fails found undefined => exact counts
  | @throws i call call' found thrown =>
    obtain ⟨items, rfl, -, -, guarded⟩ := throws_eq thrown
    obtain ⟨inside, here⟩ := List.getElem?_eq_some_iff.mp found
    have positive : 0 < s.calls.countP QueueCall.inGuard :=
      List.countP_pos_iff.mpr ⟨call, List.mem_of_getElem? found, guarded⟩
    show s.queue.queueEmptyCounter = (s.calls.set i (.unwinding items)).countP QueueCall.inGuard
    rw [List.countP_set inside, here, counts, guarded]
    simp only [QueueCall.inGuard, if_true]
    omega

theorem settledIn_append (seen later : List (QueueEvent E)) :
    settledIn (seen ++ later) = settledIn seen ++ settledIn later := List.flatMap_append

theorem handledIn_append (seen later : List (QueueEvent E)) :
    handledIn (seen ++ later) = handledIn seen ++ handledIn later := List.filterMap_append

theorem enqueued_append (as later : List (QueueAction E)) : enqueued (as ++ later) = enqueued as ++ enqueued later :=
  List.filterMap_append

theorem eventsIn_append (log later : List (Nat × QueueEvent E)) :
    eventsIn (log ++ later) = eventsIn log ++ eventsIn later := List.map_append

/-- Every event is in one place, and the counter counts the guards. -/
structure QueueCalls.Accounted (hist : List (QueueAction E)) (log : List (Nat × QueueEvent E)) (s : QueueCalls E) :
    Prop where
  events : (settledIn (eventsIn log) + s.held + contents s.queue.queueList : Multiset E) = enqueued hist
  guards : s.queue.queueEmptyCounter = s.calls.countP QueueCall.inGuard

theorem QueueCalls.Accounted.step {hist : List (QueueAction E)} {seen : List (Nat × QueueEvent E)}
    (accounted : s.Accounted hist log) (step : QueueStep s action t seen) :
    t.Accounted (hist ++ [action]) (log ++ seen) := by
  refine ⟨?_, step_counter step accounted.guards⟩
  rw [eventsIn_append, settledIn_append, enqueued_append, ← Multiset.coe_add, ← Multiset.coe_add, ← accounted.events,
    add_assoc, add_assoc, ← add_assoc (settledIn (eventsIn seen) : Multiset E), step_conserves step]
  abel

/-! ### Without exceptions -/

def QueueCall.unwinds : QueueCall E → Bool
  | .unwinding _ | .destroying _ => true
  | _ => false

/-- What is settled is handled, but for the last step of an exception. -/
theorem Advances.settled (step : Advances q call q' call' seen) :
    settledIn seen = handledIn seen ∨ call.unwinds = true ∧ call' = .thrown ∧ handledIn seen = [] := by
  cases step with
  | drops items => exact .inr ⟨rfl, rfl, rfl⟩
  | queues item => exact .inl (by cases item <;> rfl)
  | _ => exact .inl rfl

theorem Advances.calm (step : Advances q call q' call' seen) (calm : call.unwinds = false) :
    call'.unwinds = false := by
  cases step with
  | unwinds | drops => cases calm
  | _ => rfl

theorem step_calm {seen : List (Nat × QueueEvent E)} (calm : ∀ call ∈ s.calls, call.unwinds = false)
    (returns : ∀ i, action ≠ .throw i) (step : QueueStep s action t seen) :
    (∀ call ∈ t.calls, call.unwinds = false) ∧ settledIn (eventsIn seen) = handledIn (eventsIn seen) := by
  cases step with
  | enqueues | returns | enters =>
    refine ⟨fun call member => ?_, rfl⟩
    rcases List.mem_append.mp member with before | new
    · exact calm call before
    · rw [List.mem_singleton.mp new]
      rfl
  | @advances i func call call' queue seen found step =>
    have before := calm call (List.mem_of_getElem? found)
    rw [eventsIn_map]
    refine ⟨fun other member => ?_, step.settled.resolve_right fun dropped => ?_⟩
    · rcases List.mem_or_eq_of_mem_set member with old | rfl
      · exact calm other old
      · exact step.calm before
    · exact absurd (before.symm.trans dropped.1) (by decide)
  | fails found undefined => exact ⟨calm, rfl⟩
  | @throws i call call' found thrown => exact absurd rfl (returns i)

theorem run_calm (returns : ∀ a ∈ as, ∀ i, a ≠ .throw i) (runs : (queueMachine E).run .start as = some (t, events)) :
    settledIn (eventsIn events) = handledIn (eventsIn events) := by
  refine (run_induct (fun _ log s => (∀ call ∈ s.calls, call.unwinds = false) ∧
    settledIn (eventsIn log) = handledIn (eventsIn log)) (fun inv returns taken => ?_)
    ⟨fun _ member => absurd member List.not_mem_nil, rfl⟩ (meets_of_forall fun _ => returns) runs).2
  obtain ⟨calm, settled⟩ := step_calm inv.1 returns (queueStep_of_step taken).2
  refine ⟨calm, ?_⟩
  rw [eventsIn_append, settledIn_append, handledIn_append, inv.2, settled]

/-- Whatever calls are made in any number of threads, every event that was passed to `enqueue` has been handled, has
been destroyed by an exception that left a call, is in the queue or is in the hands of one call, and only once; none has
been destroyed if nothing throws; and when `empty` finds the queue empty, no call is processing. -/
theorem queue_conserves (as : List (QueueAction E)) (t : QueueCalls E) (events : List (Nat × QueueEvent E))
    (runs : (queueMachine E).run .start as = some (t, events)) :
    (settledIn (eventsIn events) ++ t.held ++ contents t.queue.queueList).Perm (enqueued as) ∧
      ((∀ a ∈ as, ∀ i, a ≠ .throw i) → settledIn (eventsIn events) = handledIn (eventsIn events)) ∧
      (t.queue.empty = true → contents t.queue.queueList = [] ∧ ∀ call ∈ t.calls, call.inGuard = false) := by
  have always : (queueMachine E).Meets (fun _ _ => True) .start as := meets_of_forall fun _ _ _ => trivial
  have accounted : t.Accounted as events := by
    refine run_induct (fun hist log s => s.Accounted hist log) (fun inv _ taken => ?_) ⟨rfl, rfl⟩ always runs
    exact inv.step (queueStep_of_step taken).2
  refine ⟨Multiset.coe_eq_coe.mp ?_, fun returns => run_calm returns runs, fun empty => ?_⟩
  · rw [← Multiset.coe_add, ← Multiset.coe_add]
    exact accounted.events
  · rw [EventQueue.empty, Bool.and_eq_true, List.isEmpty_iff, beq_iff_eq, accounted.guards] at empty
    refine ⟨by rw [empty.1]; rfl, fun call member => ?_⟩
    exact Bool.eq_false_iff.mpr (List.countP_eq_zero.mp empty.2 call member)

/-- A listener throws at the first of two events, with a third on its way into the queue. -/
theorem queue_conserves_two_threads :
    let as : List (QueueAction Nat) :=
      [.enqueue 1, .advance 0 false, .advance 0 false, .enqueue 2, .advance 1 false, .advance 1 false, .enqueue 3,
        .call .process, .advance 3 false, .advance 3 false, .advance 3 false, .throw 3, .advance 3 false,
        .advance 3 false]
    ∃ t events, (queueMachine Nat).run .start as = some (t, events) ∧ t.held = [3] ∧
      settledIn (eventsIn events) = [1, 2] ∧ handledIn (eventsIn events) = [1] ∧
      (settledIn (eventsIn events) ++ t.held ++ contents t.queue.queueList).Perm (enqueued as) := by
  intro as
  refine ⟨_, _, rfl, rfl, rfl, rfl, ?_⟩
  exact (queue_conserves as _ _ rfl).1

end MiniProtobuf.Eventpp
