import MiniProtobuf.Eventpp.Queueing

/-!
# The order of events

Without `processIf`, events leave the queue in the order in which they went in, and a call handles those that it took in
that order until it has no more or an exception destroys the rest. Calls that take events while others still have some
can overtake them; when none does, the order is kept altogether.
-/

namespace MiniProtobuf.Eventpp
open Machine

variable {E : Type} {q q' : EventQueue E} {call call' : QueueCall E} {seen : List (QueueEvent E)} {s t : QueueCalls E}
  {action : QueueAction E} {log : List (Nat × QueueEvent E)}

/-! ### Each call -/

def queuedIn (seen : List (QueueEvent E)) : List E :=
  seen.filterMap fun
    | .queued event => some event
    | _ => none

def tookIn (seen : List (QueueEvent E)) : List E :=
  seen.flatMap fun
    | .took events => events
    | _ => []

theorem queuedIn_append (seen later : List (QueueEvent E)) :
    queuedIn (seen ++ later) = queuedIn seen ++ queuedIn later := List.filterMap_append

theorem tookIn_append (seen later : List (QueueEvent E)) : tookIn (seen ++ later) = tookIn seen ++ tookIn later :=
  List.flatMap_append

/-- The call is not one of `processIf`. -/
def QueueCall.Ordinary : QueueCall E → Prop
  | .entered kind | .taking kind => kind ≠ .processIf
  | .loop kind kept _ _ | .dispatching kind kept _ _ _ => kind ≠ .processIf ∧ kept = []
  | .putting _ _ _ => False
  | _ => True

/-- What is put in goes to the end, and what is taken comes from the front. -/
theorem Advances.ordered (step : Advances q call q' call' seen) (ordinary : call.Ordinary) :
    call'.Ordinary ∧ contents q.queueList ++ queuedIn seen = tookIn seen ++ contents q'.queueList ∧
      call.left ++ tookIn seen = settledIn seen ++ call'.left := by
  cases step with
  | queues item =>
    refine ⟨trivial, ?_, ?_⟩
    · cases item <;> simp [contents, queuedIn, tookIn]
    · cases item <;> rfl
  | @takes kind batch rest split =>
    refine ⟨⟨ordinary, rfl⟩, ?_, ?_⟩
    · rw [split, contents_append]
      simp [queuedIn, tookIn]
    · simp [QueueCall.left, tookIn, settledIn, contents]
  | keeps => exact absurd rfl ordinary.1
  | destroys event kept idle todo | handles kind event kept idle todo =>
    obtain ⟨other, rfl⟩ := ordinary
    exact ⟨⟨other, rfl⟩, List.append_nil _, List.append_nil _⟩
  | clears | guards | passes => exact ⟨ordinary, List.append_nil _, List.append_nil _⟩
  | wanted_some kind idle some_kept => exact absurd ordinary.2 some_kept
  | returns | puts => exact ordinary.elim
  | drops items => exact ⟨trivial, List.append_nil _, by simp [QueueCall.left, tookIn, settledIn]⟩
  | _ => exact ⟨trivial, List.append_nil _, List.append_nil _⟩

/-- What the call at `i` has left to handle. -/
def QueueCalls.leftAt (s : QueueCalls E) (i : Nat) : List E := (s.calls[i]?.map QueueCall.left).getD []

theorem leftAt_of_found {i : Nat} (found : s.calls[i]? = some call) : s.leftAt i = call.left := by
  rw [QueueCalls.leftAt, found]
  rfl

theorem leftAt_begun (none_left : call.left = []) (i : Nat) :
    QueueCalls.leftAt { s with calls := s.calls ++ [call] } i = s.leftAt i := by
  unfold QueueCalls.leftAt
  rcases Nat.lt_trichotomy i s.calls.length with before | here | after
  · rw [List.getElem?_append_left before]
  · simp [here, none_left]
  · rw [List.getElem?_eq_none (by rw [List.length_append]; exact after), List.getElem?_eq_none (Nat.le_of_lt after)]

theorem leftAt_set {i : Nat} (found : s.calls[i]? = some call) (queue : EventQueue E) (call' : QueueCall E) (j : Nat) :
    QueueCalls.leftAt { s with queue, calls := s.calls.set i call' } j = if i = j then call'.left else s.leftAt j := by
  obtain ⟨inside, -⟩ := List.getElem?_eq_some_iff.mp found
  unfold QueueCalls.leftAt
  by_cases same : i = j
  · subst same
    simp [inside]
  · simp [List.getElem?_set_ne same, same]

structure QueueCalls.Ordered (log : List (Nat × QueueEvent E)) (s : QueueCalls E) : Prop where
  ordinary : ∀ call ∈ s.calls, call.Ordinary
  queue : queuedIn (eventsIn log) = tookIn (eventsIn log) ++ contents s.queue.queueList
  own (i : Nat) : tookIn (eventsOf i log) = settledIn (eventsOf i log) ++ s.leftAt i

theorem QueueCalls.Ordered.begins (ordered : s.Ordered log) (ordinary : call.Ordinary) (none_left : call.left = []) :
    QueueCalls.Ordered (log ++ []) { s with calls := s.calls ++ [call] } := by
  rw [List.append_nil]
  refine ⟨fun other member => ?_, ordered.queue, fun i => ?_⟩
  · rcases List.mem_append.mp member with before | new
    · exact ordered.ordinary other before
    · rw [List.mem_singleton.mp new]
      exact ordinary
  · rw [leftAt_begun none_left]
    exact ordered.own i

theorem QueueCalls.Ordered.moves {i : Nat} {queue : EventQueue E} (ordered : s.Ordered log)
    (found : s.calls[i]? = some call) (ordinary : call'.Ordinary)
    (moved : contents s.queue.queueList ++ queuedIn seen = tookIn seen ++ contents queue.queueList)
    (settled : call.left ++ tookIn seen = settledIn seen ++ call'.left) :
    QueueCalls.Ordered (log ++ seen.map (i, ·)) { s with queue, calls := s.calls.set i call' } := by
  refine ⟨fun other member => ?_, ?_, fun j => ?_⟩
  · rcases List.mem_or_eq_of_mem_set member with before | rfl
    · exact ordered.ordinary other before
    · exact ordinary
  · rw [eventsIn_append, eventsIn_map, queuedIn_append, tookIn_append, ordered.queue, List.append_assoc, moved,
      List.append_assoc]
  · rw [eventsOf_append, leftAt_set found]
    by_cases same : i = j
    · subst same
      rw [eventsOf_map_self, tookIn_append, settledIn_append, ordered.own, leftAt_of_found found, if_pos rfl,
        List.append_assoc, settled, List.append_assoc]
    · rw [eventsOf_map_other same, List.append_nil, if_neg same]
      exact ordered.own j

theorem QueueCalls.Ordered.step {seen : List (Nat × QueueEvent E)} (ordered : s.Ordered log)
    (other : action ≠ .call .processIf) (step : QueueStep s action t seen) : t.Ordered (log ++ seen) := by
  cases step with
  | enqueues | returns => exact ordered.begins trivial rfl
  | enters kind => exact ordered.begins (fun same => other (congrArg _ same)) rfl
  | @advances i func call call' queue seen found step =>
    obtain ⟨ordinary, moved, settled⟩ := step.ordered (ordered.ordinary call (List.mem_of_getElem? found))
    exact ordered.moves found ordinary moved settled
  | fails found undefined =>
    rw [List.append_nil]
    exact ⟨ordered.ordinary, ordered.queue, ordered.own⟩
  | @throws i call call' found thrown =>
    obtain ⟨items, rfl, left, -, -⟩ := throws_eq thrown
    show QueueCalls.Ordered (log ++ ([] : List (QueueEvent E)).map (i, ·)) _
    exact ordered.moves found trivial (List.append_nil _) ((List.append_nil _).trans left)

/-- What each call has handled comes before what an exception destroys. -/
structure QueueCalls.Unbroken (log : List (Nat × QueueEvent E)) (s : QueueCalls E) : Prop where
  first (i : Nat) : handledIn (eventsOf i log) <+: settledIn (eventsOf i log)
  going (i : Nat) : s.calls[i]? ≠ some .thrown → settledIn (eventsOf i log) = handledIn (eventsOf i log)

theorem QueueCalls.Unbroken.begins (unbroken : s.Unbroken log) :
    QueueCalls.Unbroken (log ++ []) { s with calls := s.calls ++ [call] } := by
  rw [List.append_nil]
  refine ⟨unbroken.first, fun i running => unbroken.going i fun thrown => running ?_⟩
  exact (List.getElem?_append_left (List.getElem?_eq_some_iff.mp thrown).1).trans thrown

theorem QueueCalls.Unbroken.moves {i : Nat} {queue : EventQueue E} (unbroken : s.Unbroken log)
    (found : s.calls[i]? = some call) (running : call ≠ .thrown)
    (settled : settledIn seen = handledIn seen ∨ call' = .thrown ∧ handledIn seen = []) :
    QueueCalls.Unbroken (log ++ seen.map (i, ·)) { s with queue, calls := s.calls.set i call' } := by
  have so_far := unbroken.going i fun thrown => running (Option.some.inj (found.symm.trans thrown))
  have here : (s.calls.set i call')[i]? = some call' :=
    List.getElem?_set_self (List.getElem?_eq_some_iff.mp found).1
  refine ⟨fun j => ?_, fun j still => ?_⟩ <;> rw [eventsOf_append]
  all_goals by_cases same : i = j
  · subst same
    rw [eventsOf_map_self, handledIn_append, settledIn_append, so_far]
    rcases settled with all | ⟨-, none_handled⟩
    · exact ⟨[], by rw [List.append_nil, all]⟩
    · rw [none_handled, List.append_nil]
      exact List.prefix_append _ _
  · rw [eventsOf_map_other same, List.append_nil]
    exact unbroken.first j
  · subst same
    rw [eventsOf_map_self, handledIn_append, settledIn_append, so_far]
    rcases settled with all | ⟨thrown, -⟩
    · rw [all]
    · exact absurd (here.trans (congrArg some thrown)) still
  · rw [eventsOf_map_other same, List.append_nil]
    exact unbroken.going j fun thrown => still ((List.getElem?_set_ne same).trans thrown)

theorem QueueCalls.Unbroken.step {seen : List (Nat × QueueEvent E)} (unbroken : s.Unbroken log)
    (step : QueueStep s action t seen) : t.Unbroken (log ++ seen) := by
  cases step with
  | enqueues | returns | enters => exact unbroken.begins
  | @advances i func call call' queue seen found step =>
    refine unbroken.moves found ?_ (step.settled.imp_right And.right)
    rintro rfl
    cases step
  | fails found undefined =>
    rw [List.append_nil]
    exact ⟨unbroken.first, unbroken.going⟩
  | @throws i call call' found thrown =>
    show QueueCalls.Unbroken (log ++ ([] : List (QueueEvent E)).map (i, ·)) _
    refine unbroken.moves found ?_ (.inl rfl)
    rintro rfl
    cases thrown

/-! ### One consumer at a time -/

def QueueCall.isTaking : QueueCall E → Bool
  | .taking _ => true
  | _ => false

/-- No call takes events while another has some left to handle. -/
def takesAlone (s : QueueCalls E) : QueueAction E → Bool
  | .advance i _ => !s.calls[i]?.any QueueCall.isTaking || s.calls.all fun call => call.left.isEmpty
  | _ => true

def QueueCalls.left (s : QueueCalls E) : List E := s.calls.flatMap QueueCall.left

theorem Advances.tookIn_eq_nil (step : Advances q call q' call' seen) (other : call.isTaking = false) :
    tookIn seen = [] := by
  cases step with
  | takes => cases other
  | queues item => cases item <;> rfl
  | _ => rfl

/-- Only one of the lists is not empty. -/
theorem flatMap_eq_of_alone {α β : Type} (f : α → List β) (xs : List α) (i : Nat)
    (alone : ∀ j, j ≠ i → (xs[j]?.map f).getD [] = []) : xs.flatMap f = (xs[i]?.map f).getD [] := by
  induction xs generalizing i with
  | nil => rfl
  | cons first xs ih =>
    rw [List.flatMap_cons]
    cases i with
    | zero =>
      have rest : xs.flatMap f = [] := by
        refine List.flatMap_eq_nil_iff.mpr fun y member => ?_
        obtain ⟨j, there⟩ := List.getElem?_of_mem member
        have empty := alone (j + 1) (Nat.succ_ne_zero j)
        rwa [List.getElem?_cons_succ, there] at empty
      rw [rest, List.append_nil]
      rfl
    | succ i =>
      have empty : f first = [] := alone 0 (Nat.succ_ne_zero i).symm
      rw [empty, List.nil_append]
      exact ih i fun j other => alone (j + 1) fun same => other (Nat.succ_inj.mp same)

theorem left_of_alone {i : Nat} (alone : ∀ j, j ≠ i → s.leftAt j = []) : s.left = s.leftAt i :=
  flatMap_eq_of_alone QueueCall.left s.calls i alone

structure QueueCalls.InTurn (log : List (Nat × QueueEvent E)) (s : QueueCalls E) : Prop where
  alone : ∀ i j, s.leftAt i ≠ [] → j ≠ i → s.leftAt j = []
  settled : tookIn (eventsIn log) = settledIn (eventsIn log) ++ s.left

theorem QueueCalls.InTurn.begins (turn : s.InTurn log) (none_left : call.left = []) :
    QueueCalls.InTurn (log ++ []) { s with calls := s.calls ++ [call] } := by
  rw [List.append_nil]
  refine ⟨fun i j => ?_, ?_⟩
  · rw [leftAt_begun none_left, leftAt_begun none_left]
    exact turn.alone i j
  · rw [turn.settled]
    simp [QueueCalls.left, none_left]

/-- The call at `i` moves, and nobody else has anything to handle. -/
theorem QueueCalls.InTurn.moves_alone {i : Nat} {queue : EventQueue E} (turn : s.InTurn log)
    (found : s.calls[i]? = some call) (others : ∀ j, j ≠ i → s.leftAt j = [])
    (settled : call.left ++ tookIn seen = settledIn seen ++ call'.left) :
    QueueCalls.InTurn (log ++ seen.map (i, ·)) { s with queue, calls := s.calls.set i call' } := by
  have others' : ∀ j, j ≠ i → QueueCalls.leftAt { s with queue, calls := s.calls.set i call' } j = [] := by
    intro j other
    rw [leftAt_set found, if_neg other.symm]
    exact others j other
  have before : s.left = call.left := by
    rw [← leftAt_of_found found]
    exact left_of_alone others
  have after : QueueCalls.left { s with queue, calls := s.calls.set i call' } = call'.left := by
    have own := leftAt_set found queue call' i
    rw [if_pos rfl] at own
    rw [← own]
    exact left_of_alone others'
  refine ⟨fun j k some_left apart => ?_, ?_⟩
  · obtain rfl : j = i := by
      by_contra other
      exact some_left (others' j other)
    exact others' k apart
  · rw [eventsIn_append, eventsIn_map, tookIn_append, settledIn_append, turn.settled, before, after, List.append_assoc,
      settled, List.append_assoc]

/-- The call at `i` moves and takes nothing, unless nobody else has anything to handle. -/
theorem QueueCalls.InTurn.moves {i : Nat} {queue : EventQueue E} (turn : s.InTurn log) (found : s.calls[i]? = some call)
    (settled : call.left ++ tookIn seen = settledIn seen ++ call'.left)
    (alone : tookIn seen = [] ∨ ∀ j, j ≠ i → s.leftAt j = []) :
    QueueCalls.InTurn (log ++ seen.map (i, ·)) { s with queue, calls := s.calls.set i call' } := by
  by_cases others : ∀ j, j ≠ i → s.leftAt j = []
  · exact turn.moves_alone found others settled
  -- Another call has events to handle, so this one neither takes any nor has any.
  · have none_taken := alone.resolve_right others
    obtain ⟨j, other⟩ := not_forall.mp others
    obtain ⟨apart, some_left⟩ := Classical.not_imp.mp other
    have none_left : call.left = [] := by
      rw [← leftAt_of_found found]
      exact turn.alone j i some_left apart.symm
    rw [none_left, none_taken, List.append_nil] at settled
    obtain ⟨none_settled, none_left'⟩ := List.append_eq_nil_iff.mp settled.symm
    have same : ∀ k, QueueCalls.leftAt { s with queue, calls := s.calls.set i call' } k = s.leftAt k := by
      intro k
      rw [leftAt_set found]
      split
      · rename_i here
        rw [none_left', ← here, leftAt_of_found found, none_left]
      · rfl
    have kept : QueueCalls.left { s with queue, calls := s.calls.set i call' } = s.left := by
      rw [left_of_alone fun k => turn.alone j k some_left, left_of_alone fun k other => ?_, same]
      rw [same]
      exact turn.alone j k some_left other
    refine ⟨fun k l => ?_, ?_⟩
    · rw [same, same]
      exact turn.alone k l
    · rw [eventsIn_append, eventsIn_map, tookIn_append, settledIn_append, none_settled, none_taken, kept,
        List.append_nil, List.append_nil]
      exact turn.settled

theorem QueueCalls.InTurn.step {seen : List (Nat × QueueEvent E)} (turn : s.InTurn log) (ordered : s.Ordered log)
    (alone : takesAlone s action = true) (step : QueueStep s action t seen) : t.InTurn (log ++ seen) := by
  cases step with
  | enqueues | returns | enters => exact turn.begins rfl
  | @advances i func call call' queue seen found step =>
    obtain ⟨-, -, settled⟩ := step.ordered (ordered.ordinary call (List.mem_of_getElem? found))
    refine turn.moves found settled ?_
    cases taking : call.isTaking with
    | false => exact .inl (step.tookIn_eq_nil taking)
    | true =>
      rw [takesAlone, found, Option.any_some, taking, Bool.not_true, Bool.false_or, List.all_eq_true] at alone
      refine .inr fun j _ => ?_
      unfold QueueCalls.leftAt
      cases there : s.calls[j]? with
      | none => rfl
      | some other => exact List.isEmpty_iff.mp (alone other (List.mem_of_getElem? there))
  | fails found undefined =>
    rw [List.append_nil]
    exact ⟨turn.alone, turn.settled⟩
  | @throws i call call' found thrown =>
    obtain ⟨items, rfl, left, -, -⟩ := throws_eq thrown
    show QueueCalls.InTurn (log ++ ([] : List (QueueEvent E)).map (i, ·)) _
    exact turn.moves found ((List.append_nil _).trans left) (.inl rfl)

/-- Without `processIf`, events leave the queue in the order in which they went in, and each call handles those that
it took in that order, up to an exception, which destroys the rest. When no call takes events while another has some
left, they are handled or destroyed in that order altogether. -/
theorem queue_fifo (as : List (QueueAction E)) (t : QueueCalls E) (events : List (Nat × QueueEvent E))
    (runs : (queueMachine E).run .start as = some (t, events)) (ordinary : ∀ a ∈ as, a ≠ .call .processIf) :
    queuedIn (eventsIn events) = tookIn (eventsIn events) ++ contents t.queue.queueList ∧
      (∀ i, tookIn (eventsOf i events) = settledIn (eventsOf i events) ++ t.leftAt i ∧
        handledIn (eventsOf i events) <+: tookIn (eventsOf i events)) ∧
      ((queueMachine E).Meets (fun s a => takesAlone s a = true) .start as →
        queuedIn (eventsIn events) = settledIn (eventsIn events) ++ t.left ++ contents t.queue.queueList) := by
  have begins : QueueCalls.Ordered [] (.start : QueueCalls E) :=
    ⟨fun _ member => absurd member List.not_mem_nil, rfl, fun _ => rfl⟩
  have ordered : t.Ordered events := by
    refine run_induct (fun _ log s => s.Ordered log) (fun inv other taken => ?_) begins
      (meets_of_forall fun _ => ordinary) runs
    exact inv.step other (queueStep_of_step taken).2
  have unbroken : t.Unbroken events := by
    refine run_induct (fun _ log s => s.Unbroken log) (fun inv _ taken => ?_)
      ⟨fun _ => List.prefix_refl _, fun _ _ => rfl⟩ (meets_of_forall fun _ => ordinary) runs
    exact inv.step (queueStep_of_step taken).2
  refine ⟨ordered.queue, fun i => ⟨ordered.own i, ?_⟩, fun alone => ?_⟩
  · rw [ordered.own i]
    exact (unbroken.first i).trans (List.prefix_append _ _)
  have turn : t.InTurn events := by
    refine (run_induct (fun _ log s => s.Ordered log ∧ s.InTurn log) (fun inv both taken => ?_)
      ⟨begins, fun _ _ _ _ => rfl, rfl⟩ (meets_and alone (meets_of_forall fun _ => ordinary)) runs).2
    have step := (queueStep_of_step taken).2
    exact ⟨inv.1.step both.2 step, inv.2.step inv.1 both.1 step⟩
  rw [ordered.queue, turn.settled]

theorem queue_fifo_two_consumers :
    let as : List (QueueAction Nat) :=
      [.enqueue 1, .advance 0 false, .advance 0 false, .enqueue 2, .advance 1 false, .advance 1 false,
        .call .processOne, .advance 2 false, .advance 2 false, .advance 2 false, .advance 2 false, .call .process,
        .advance 3 false, .advance 3 false]
    ∃ t events, (queueMachine Nat).run .start as = some (t, events) ∧ (∀ a ∈ as, a ≠ .call .processIf) ∧
      queuedIn (eventsIn events) = settledIn (eventsIn events) ++ t.left ++ contents t.queue.queueList ∧
      settledIn (eventsIn events) = [1] ∧ t.left = [2] := by
  intro as
  have ordinary : ∀ a ∈ as, a ≠ .call .processIf := by simp [as]
  refine ⟨_, _, rfl, ordinary, ?_, rfl, rfl⟩
  exact (queue_fifo as _ _ rfl ordinary).2.2 (meets_of_checks (fun _ _ alone => alone) (by decide))

end MiniProtobuf.Eventpp
