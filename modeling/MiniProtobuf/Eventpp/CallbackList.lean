import Mathlib.Algebra.Group.Nat.Defs
import MiniProtobuf.Machine.Cursor
import MiniProtobuf.Machine.Run

/-!
# `CallbackList`

The callback list of eventpp: nodes with shared pointers to their neighbours, weak handles to them, and loops that
call the callbacks while callbacks are added and removed, by the callbacks themselves and by other threads. A step
is what is done under the mutex, one access to `currentCounter`, one read of `node->counter` by a loop, or the call of a
callback. The reads of `node->counter` are made without the mutex and are taken as atomic.
-/

namespace MiniProtobuf.Eventpp

/-- A pointer to a node is null or the node's number, in the order in which nodes are made. -/
abbrev NodePtr := Option Nat

def removedCounter : Nat := 0

/-- The members of the nodes are kept one by one: `previous` and `next` in `links`, with `head` and `tail`. -/
structure CallbackList (C : Type) where
  links : Links Nat
  callbacks : List C
  counter : Nat → Nat
  currentCounter : Nat

namespace CallbackList

variable {C : Type}

def new : CallbackList C := ⟨.empty, [], fun _ => 0, 0⟩

/-- The nodes from `head` on. -/
def members (s : CallbackList C) : List Nat := s.links.walk s.callbacks.length s.links.head

def getNextCounter (s : CallbackList C) : CallbackList C × Nat :=
  let s := { s with currentCounter := (s.currentCounter + 1) % 2 ^ 64 }
  if s.currentCounter = 0 then
    let s := { s with counter := fun node => if node ∈ s.members then 1 else s.counter node }
    let s := { s with currentCounter := (s.currentCounter + 1) % 2 ^ 64 }
    (s, s.currentCounter)
  else (s, s.currentCounter)

def doAllocateNode (s : CallbackList C) (callback : C) : CallbackList C × Nat :=
  let (s, counter) := s.getNextCounter
  let node := s.callbacks.length
  ({ s with callbacks := s.callbacks ++ [callback], counter := Function.update s.counter node counter }, node)

def doInsert (s : CallbackList C) (node beforeNode : Nat) : CallbackList C :=
  { s with links := s.links.insertBefore node beforeNode }

/-- The pointers of the node itself stay as they are, because a loop may stand on it. -/
def doFreeNode (s : CallbackList C) (node : Nat) : CallbackList C :=
  { s with links := s.links.unlink node, counter := Function.update s.counter node removedCounter }

end CallbackList

inductive Place where
  | append
  | prepend
  | before (node : Nat)
  deriving DecidableEq

/-- `append`, `prepend` and `insert` from the lock of the mutex on. -/
def CallbackList.link {C : Type} (s : CallbackList C) (node : Nat) : Place → Option (CallbackList C)
  | .append => (s.links.pushBack node).map fun links => { s with links }
  | .prepend => some { s with links := s.links.pushFront node }
  | .before beforeNode => some (s.doInsert node beforeNode)

/-- A call of `doForEachIf`. -/
inductive Loop where
  /-- `node` is set and the counter is not yet loaded. -/
  | fetched (node : NodePtr)
  /-- At the head of the `while`. -/
  | testing (node : NodePtr) (counter : Nat)
  /-- `node->counter` was not `removedCounter`, and is read again. -/
  | comparing (node : Nat) (counter : Nat)
  /-- Both tests are passed, and `f(node)` is still to be called. -/
  | entering (node : Nat) (counter : Nat)
  /-- Inside `f(node)`. -/
  | calling (node : Nat) (counter : Nat)
  /-- Before `node = node->next`. -/
  | passed (node : Nat) (counter : Nat)
  | returned (result : Bool)
  deriving DecidableEq

/-- A list with the calls on it that are under way: those that have made a node and wait for the mutex, and the
loops. -/
structure CallbackCalls (C : Type) where
  list : CallbackList C
  waiting : List (Nat × Place)
  loops : List Loop

def CallbackCalls.start {C : Type} : CallbackCalls C := ⟨.new, [], []⟩

inductive CallbackAction (C : Type) where
  | append (callback : C)
  | prepend (callback : C)
  /-- `insert`, with what the handle's `lock` gave. -/
  | insert (callback : C) (before : Nat) (locked : Bool)
  /-- A call that waits gets the mutex. -/
  | link (i : Nat)
  | remove (handle : Nat) (locked : Bool)
  | forEachIf
  | load (i : Nat)
  /-- `while(node)`, and `node->counter != removedCounter`. -/
  | test (i : Nat)
  /-- `counter >= node->counter`. -/
  | compare (i : Nat)
  | invoke (i : Nat)
  /-- `f(node)` returns. -/
  | back (i : Nat) (result : Bool)
  | advance (i : Nat)

/-- A loop has called the callback of a node. -/
structure Invoked (C : Type) where
  loop : Nat
  node : Nat
  callback : C
  deriving DecidableEq

namespace CallbackCalls

variable {C : Type}

/-- `doAllocateNode`, in a call that links the node later. -/
def allocate (s : CallbackCalls C) (callback : C) (place : Place) : CallbackCalls C :=
  let (list, node) := s.list.doAllocateNode callback
  { s with list, waiting := s.waiting ++ [(node, place)] }

/-- Whether `lock` of a handle can end as it is said to. A handle is there once the node is linked, and the list
holds its nodes. Whether a removed node is still held by someone is not followed here. -/
def canLock (s : CallbackCalls C) (handle : Nat) (locked : Bool) : Bool :=
  if locked then decide (handle < s.list.callbacks.length) && decide (handle ∉ s.waiting.map Prod.fst)
  else decide (handle ∉ s.list.members)

def setLoop (s : CallbackCalls C) (i : Nat) (loop : Loop) : CallbackCalls C := { s with loops := s.loops.set i loop }

end CallbackCalls

open CallbackCalls in
def callbackMachine (C : Type) : Machine (CallbackCalls C) (CallbackAction C) (Invoked C) where
  step s
    | .append callback => some (s.allocate callback .append, [])
    | .prepend callback => some (s.allocate callback .prepend, [])
    | .insert callback before locked =>
      if s.canLock before locked then some (s.allocate callback (if locked then .before before else .append), [])
      else none
    | .link i => do
      let (node, place) ← s.waiting[i]?
      let list ← s.list.link node place
      some ({ s with list, waiting := s.waiting.eraseIdx i }, [])
    | .remove handle locked =>
      if s.canLock handle locked then some (if locked then { s with list := s.list.doFreeNode handle } else s, [])
      else none
    | .forEachIf => some ({ s with loops := s.loops ++ [.fetched s.list.links.head] }, [])
    | .load i =>
      match s.loops[i]? with
      | some (.fetched node) => some (s.setLoop i (.testing node s.list.currentCounter), [])
      | _ => none
    | .test i =>
      match s.loops[i]? with
      | some (.testing none _) => some (s.setLoop i (.returned true), [])
      | some (.testing (some node) counter) =>
        some (s.setLoop i
          (if s.list.counter node ≠ removedCounter then .comparing node counter else .passed node counter), [])
      | _ => none
    | .compare i =>
      match s.loops[i]? with
      | some (.comparing node counter) =>
        some (s.setLoop i (if s.list.counter node ≤ counter then .entering node counter else .passed node counter), [])
      | _ => none
    | .invoke i =>
      match s.loops[i]? with
      | some (.entering node counter) =>
        (s.list.callbacks[node]?).map fun callback => (s.setLoop i (.calling node counter), [⟨i, node, callback⟩])
      | _ => none
    | .back i result =>
      match s.loops[i]? with
      | some (.calling node counter) =>
        some (s.setLoop i (if result then .passed node counter else .returned false), [])
      | _ => none
    | .advance i =>
      match s.loops[i]? with
      | some (.passed node counter) => some (s.setLoop i (.testing (s.list.links.next node) counter), [])
      | _ => none

/-- What users of the list must keep to: a callback is removed only while it is in the list; one that another one is
inserted before is in the list when the insert gets the mutex, so that it has neither been removed before, with a loop
still holding its node, nor since the handle was locked; and fewer than 2⁶⁴ callbacks are added. -/
def disciplined {C : Type} (s : CallbackCalls C) : CallbackAction C → Bool
  | .append _ | .prepend _ | .insert _ _ _ => decide (s.list.currentCounter + 1 < 2 ^ 64)
  | .link i =>
    match s.waiting[i]? with
    | some (_, .before node) => decide (node ∈ s.list.members)
    | _ => true
  | .remove handle true => decide (handle ∈ s.list.members)
  | _ => true

end MiniProtobuf.Eventpp
