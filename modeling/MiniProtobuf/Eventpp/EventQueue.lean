import MiniProtobuf.Machine.Run

/-!
# `EventQueue`

The event queue of eventpp with the calls on it that are under way, in any number of threads. Items go from the free
list to the queue and back; a step is what is done under one of the two mutexes, one access to `queueEmptyCounter`, one
look at whether a list is empty, or what is done on the list of items that a call has to itself. The first look of
`doEnqueue` and of the functions that look for events is made without the mutex, and is taken as atomic. Listeners and
the function of a `processIf` may throw; allocating, copying and moving an event do not fail.
-/

namespace MiniProtobuf.Eventpp

/-- The event of the item, if `allocated`. -/
abbrev QueuedItem (E : Type) := Option E

structure EventQueue (E : Type) where
  queueList : List (QueuedItem E)
  freeList : List (QueuedItem E)
  queueEmptyCounter : Nat

/-- `empty`, read in one moment. -/
def EventQueue.empty {E : Type} (q : EventQueue E) : Bool := q.queueList.isEmpty && q.queueEmptyCounter == 0

/-- The functions that look for events. -/
inductive Kind where
  | clearEvents
  | process
  | processOne
  | processIf
  | peekEvent
  | takeEvent
  deriving DecidableEq

/-- Those that hold a `CounterGuard`. -/
def Kind.guarded : Kind → Bool
  | .process | .processOne | .processIf => true
  | .clearEvents | .peekEvent | .takeEvent => false

/-- Where a call stands. Its own lists are kept apart by what has become of the items: `kept` for those that the
function of `processIf` did not want, `idle` for those that are cleared, and `todo`. -/
inductive QueueCall (E : Type) where
  /-- `doEnqueue`, before it looks at the free list. -/
  | enqueue (event : E)
  /-- The free list was not empty, and its mutex is still to be taken. -/
  | reusing (event : E)
  /-- The item is set, and the mutex of the queue is still to be taken. -/
  | filled (item : QueuedItem E)
  /-- The queue was not empty. -/
  | entered (kind : Kind)
  /-- The guard is made, and the mutex of the queue is still to be taken. -/
  | taking (kind : Kind)
  | loop (kind : Kind) (kept idle todo : List (QueuedItem E))
  /-- Inside `doDispatchQueuedEvent`, or after the event has been moved out. -/
  | dispatching (kind : Kind) (kept idle : List (QueuedItem E)) (item : QueuedItem E) (todo : List (QueuedItem E))
  /-- The items that `processIf` keeps are to be put back. -/
  | putting (kind : Kind) (kept idle : List (QueuedItem E))
  /-- The mutex of the free list is still to be taken. -/
  | freeing (kind : Kind) (idle : List (QueuedItem E))
  /-- The guard is still to be destroyed. -/
  | leaving (kind : Kind) (result : Bool)
  | returned (result : Bool)
  /-- An exception leaves the function with these items not handled. The guard is destroyed first. -/
  | unwinding (items : List (QueuedItem E))
  /-- The lists are still to be destroyed. -/
  | destroying (items : List (QueuedItem E))
  | thrown

/-- What can be seen of a call: an event goes into the queue, events are taken out of it, one is dispatched, handed to
the caller of `takeEvent` or destroyed by `clearEvents`, and events are destroyed with the lists that hold them. -/
inductive QueueEvent (E : Type) where
  | queued (event : E)
  | took (events : List E)
  | handled (kind : Kind) (event : E)
  | destroyed (events : List E)

namespace QueuedItem

variable {E : Type}

/-- There is no result when the assertion fails. -/
def set (item : QueuedItem E) (event : E) : Option (QueuedItem E) := if item.isSome then none else some (some event)

def clear (item : QueuedItem E) : Option (QueuedItem E) := if item.isSome then some none else none

end QueuedItem

variable {E : Type}

def contents (items : List (QueuedItem E)) : List E := items.filterMap id

/-- The step of a call, with what `func` of a `processIf` returns. There is no result when an assertion fails, or
when `--it` is done on the first iterator of a list. -/
def QueueCall.advance (q : EventQueue E) (func : Bool) :
    QueueCall E → Option (EventQueue E × QueueCall E × List (QueueEvent E))
  | .enqueue event =>
    if q.freeList.isEmpty then do some (q, .filled (← QueuedItem.set none event), [])
    else some (q, .reusing event, [])
  | .reusing event =>
    match q.freeList with
    | [] => do some (q, .filled (← QueuedItem.set none event), [])
    | item :: freeList => do some ({ q with freeList }, .filled (← QueuedItem.set item event), [])
  | .filled item =>
    some ({ q with queueList := q.queueList ++ [item] }, .returned true, (contents [item]).map .queued)
  | .entered kind =>
    some (if kind.guarded then { q with queueEmptyCounter := q.queueEmptyCounter + 1 } else q, .taking kind, [])
  | .taking kind =>
    match q.queueList with
    | [] => some (q, .leaving kind false, [])
    | item :: rest =>
      match kind with
      | .peekEvent => item.map fun _ => (q, .leaving kind true, [])
      | .processOne | .takeEvent =>
        some ({ q with queueList := rest }, .loop kind [] [] [item], [.took (contents [item])])
      | .clearEvents | .process | .processIf =>
        some ({ q with queueList := [] }, .loop kind [] [] (item :: rest), [.took (contents (item :: rest))])
  | .loop kind kept idle (item :: todo) =>
    match kind with
    | .clearEvents => do
      let event ← item
      some (q, .loop kind kept (idle ++ [← QueuedItem.clear item]) todo, [.handled kind event])
    | .processIf => do
      let event ← item
      if func then some (q, .dispatching kind kept idle item todo, [.handled kind event])
      else some (q, .loop kind (kept ++ [item]) idle todo, [])
    | .process | .processOne | .peekEvent | .takeEvent => do
      let event ← item
      some (q, .dispatching kind kept idle item todo, [.handled kind event])
  | .dispatching kind kept idle item todo => do
    let item ← QueuedItem.clear item
    if kind = .processIf ∧ kept = [] then none else some (q, .loop kind kept (idle ++ [item]) todo, [])
  | .loop kind kept idle [] =>
    if kept.isEmpty then some (q, if idle.isEmpty then .leaving kind false else .freeing kind idle, [])
    else some (q, .putting kind kept idle, [])
  | .putting kind kept idle =>
    some ({ q with queueList := kept ++ q.queueList },
      if idle.isEmpty then .leaving kind false else .freeing kind idle, [])
  | .freeing kind idle => some ({ q with freeList := q.freeList ++ idle }, .leaving kind true, [])
  | .leaving kind result =>
    some (if kind.guarded then { q with queueEmptyCounter := q.queueEmptyCounter - 1 } else q, .returned result, [])
  | .unwinding items => some ({ q with queueEmptyCounter := q.queueEmptyCounter - 1 }, .destroying items, [])
  | .destroying items => some (q, .thrown, [.destroyed (contents items)])
  -- A call that has returned takes no step.
  | .returned result => some (q, .returned result, [])
  | .thrown => some (q, .thrown, [])

/-- A listener throws, or the function of a `processIf`. Listeners are called by the functions that hold a guard. The
item of the event that is being dispatched goes with the lists as well. -/
def QueueCall.throws : QueueCall E → Option (QueueCall E)
  | .loop .processIf kept _ (item :: todo) => some (.unwinding (kept ++ item :: todo))
  | .dispatching kind kept _ _ todo => if kind.guarded then some (.unwinding (kept ++ todo)) else none
  | _ => none

def QueueCall.isReturned : QueueCall E → Bool
  | .returned _ | .thrown => true
  | _ => false

/-- The queue with the calls on it. -/
structure QueueCalls (E : Type) where
  queue : EventQueue E
  calls : List (QueueCall E)
  /-- An assertion has failed, or something else was not defined. -/
  failed : Bool

def QueueCalls.start : QueueCalls E := ⟨⟨[], [], 0⟩, [], false⟩

inductive QueueAction (E : Type) where
  | enqueue (event : E)
  /-- A function is called and looks whether the queue is empty. -/
  | call (kind : Kind)
  | advance (i : Nat) (func : Bool)
  | throw (i : Nat)

def queueMachine (E : Type) : Machine (QueueCalls E) (QueueAction E) (Nat × QueueEvent E) where
  step s action :=
    if s.failed then none
    else
      match action with
      | .enqueue event => some ({ s with calls := s.calls ++ [.enqueue event] }, [])
      | .call kind =>
        some ({ s with calls := s.calls ++ [if s.queue.queueList.isEmpty then .returned false else .entered kind] }, [])
      | .advance i func => do
        let call ← s.calls[i]?
        if call.isReturned then none
        else
          match call.advance s.queue func with
          | none => some ({ s with failed := true }, [])
          | some (queue, call, seen) => some ({ s with queue, calls := s.calls.set i call }, seen.map (i, ·))
      | .throw i => do
        let call ← s.calls[i]?
        let call ← call.throws
        some ({ s with calls := s.calls.set i call }, [])

end MiniProtobuf.Eventpp
