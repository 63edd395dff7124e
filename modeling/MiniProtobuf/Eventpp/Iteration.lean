import MiniProtobuf.Eventpp.Linking

/-!
# Loops over a changing list

Callbacks are added and removed while loops are under way. A loop that runs to its end has called every callback that
was in the list from its beginning to its end, each once and in the order of the list, and none that was removed before
the loop looked at it.
-/

namespace MiniProtobuf.Eventpp
open Machine

variable {C : Type} {s t : CallbackCalls C} {xs ys start visited : List Nat} {i : Nat} {loop loop' : Loop}
  {action : CallbackAction C} {seen events : List (Invoked C)} {as : List (CallbackAction C)}

/-- The nodes whose callbacks one loop has called. -/
def invokedBy (i : Nat) (events : List (Invoked C)) : List Nat :=
  events.filterMap fun e => if e.loop = i then some e.node else none

theorem invokedBy_append (events later : List (Invoked C)) :
    invokedBy i (events ++ later) = invokedBy i events ++ invokedBy i later := List.filterMap_append

theorem invokedBy_nil : invokedBy i ([] : List (Invoked C)) = [] := rfl

theorem invokedBy_self (node : Nat) (callback : C) : invokedBy i [⟨i, node, callback⟩] = [node] := by
  simp [invokedBy]

/-! ### What a loop does -/

/-- A step of one loop. The list stays as it is. -/
inductive LoopStep (s : CallbackCalls C) (i : Nat) : Loop → Loop → List (Invoked C) → Prop
  | load (node : NodePtr) : LoopStep s i (.fetched node) (.testing node s.list.currentCounter) []
  | ends (counter : Nat) : LoopStep s i (.testing none counter) (.returned true) []
  | finds {node counter : Nat} (live : s.list.counter node ≠ removedCounter) :
    LoopStep s i (.testing (some node) counter) (.comparing node counter) []
  | misses {node counter : Nat} (gone : s.list.counter node = removedCounter) :
    LoopStep s i (.testing (some node) counter) (.passed node counter) []
  | admits {node counter : Nat} (early : s.list.counter node ≤ counter) :
    LoopStep s i (.comparing node counter) (.entering node counter) []
  | refuses {node counter : Nat} (late : counter < s.list.counter node) :
    LoopStep s i (.comparing node counter) (.passed node counter) []
  | calls {node counter : Nat} {callback : C} :
    LoopStep s i (.entering node counter) (.calling node counter) [⟨i, node, callback⟩]
  | goesOn (node counter : Nat) : LoopStep s i (.calling node counter) (.passed node counter) []
  | stops (node counter : Nat) : LoopStep s i (.calling node counter) (.returned false) []
  | advance (node counter : Nat) :
    LoopStep s i (.passed node counter) (.testing (s.list.links.next node) counter) []

/-- A step is one of the list, with no loop moving; or a loop begins; or one loop moves. -/
inductive LoopsStep (s t : CallbackCalls C) (seen : List (Invoked C)) : Prop
  | other (loops : t.loops = s.loops) (silent : seen = [])
  | begins (silent : seen = []) (after : t = { s with loops := s.loops ++ [.fetched s.list.links.head] })
  | moves {i : Nat} {loop loop' : Loop} (found : s.loops[i]? = some loop) (step : LoopStep s i loop loop' seen)
    (after : t = s.setLoop i loop')

theorem step_loops (taken : (callbackMachine C).step s action = some (t, seen)) : LoopsStep s t seen := by
  cases action with
  | append callback | prepend callback =>
    cases taken
    exact .other rfl rfl
  | insert callback before locked =>
    simp only [callbackMachine] at taken
    split at taken <;> cases taken
    exact .other rfl rfl
  | link i =>
    obtain ⟨⟨node, place⟩, -, rest⟩ := Option.bind_eq_some_iff.mp taken
    obtain ⟨list, -, same⟩ := Option.bind_eq_some_iff.mp rest
    cases same
    exact .other rfl rfl
  | remove handle locked =>
    simp only [callbackMachine] at taken
    split at taken
    · cases locked <;> cases taken <;> exact .other rfl rfl
    · cases taken
  | forEachIf =>
    cases taken
    exact .begins rfl rfl
  | load i =>
    simp only [callbackMachine] at taken
    split at taken
    · rename_i node found
      cases taken
      exact .moves found (.load node) rfl
    · cases taken
  | test i =>
    simp only [callbackMachine] at taken
    split at taken
    · rename_i counter found
      cases taken
      exact .moves found (.ends counter) rfl
    · rename_i node counter found
      cases taken
      split
      · exact .moves found (.finds ‹_›) rfl
      · exact .moves found (.misses (not_not.mp ‹_›)) rfl
    · cases taken
  | compare i =>
    simp only [callbackMachine] at taken
    split at taken
    · rename_i node counter found
      cases taken
      split
      · exact .moves found (.admits ‹_›) rfl
      · exact .moves found (.refuses (Nat.lt_of_not_le ‹_›)) rfl
    · cases taken
  | invoke i =>
    simp only [callbackMachine] at taken
    split at taken
    · rename_i node counter found
      obtain ⟨callback, -, same⟩ := Option.map_eq_some_iff.mp taken
      cases same
      exact .moves found .calls rfl
    · cases taken
  | back i result =>
    simp only [callbackMachine] at taken
    split at taken
    · rename_i node counter found
      cases taken
      cases result with
      | true => exact .moves found (.goesOn node counter) rfl
      | false => exact .moves found (.stops node counter) rfl
    · cases taken
  | advance i =>
    simp only [callbackMachine] at taken
    split at taken
    · rename_i node counter found
      cases taken
      exact .moves found (.advance node counter) rfl
    · cases taken

theorem LoopStep.seen_other (step : LoopStep s i loop loop' seen) {j : Nat} (other : j ≠ i) :
    invokedBy j seen = [] := by
  cases step with
  | calls => simp [invokedBy, other.symm]
  | _ => rfl

/-- What a step is for one of the loops. -/
theorem step_loop (taken : (callbackMachine C).step s action = some (t, seen)) (found : s.loops[i]? = some loop) :
    ∃ loop', t.loops[i]? = some loop' ∧
      ((loop' = loop ∧ invokedBy i seen = []) ∨ LoopStep s i loop loop' seen) := by
  cases step_loops taken with
  | other loops silent => exact ⟨loop, loops ▸ found, .inl ⟨rfl, by rw [silent]; rfl⟩⟩
  | begins silent after =>
    subst after
    refine ⟨loop, ?_, .inl ⟨rfl, by rw [silent]; rfl⟩⟩
    exact (List.getElem?_append_left (List.getElem?_eq_some_iff.mp found).1).trans found
  | @moves j before loop' there step after =>
    subst after
    by_cases same : j = i
    · subst same
      obtain rfl := Option.some.inj (there.symm.trans found)
      exact ⟨loop', List.getElem?_set_self (List.getElem?_eq_some_iff.mp found).1, .inr step⟩
    · exact ⟨loop, (List.getElem?_set_ne same).trans found, .inl ⟨rfl, step.seen_other (Ne.symm same)⟩⟩

/-! ### Following one loop -/

/-- A node that was in the list and has been removed. -/
def CallbackCalls.Gone (s : CallbackCalls C) (node : Nat) : Prop :=
  node < s.list.callbacks.length ∧ s.list.counter node = removedCounter

def Loop.counter : Loop → Option Nat
  | .testing _ counter | .comparing _ counter | .entering _ counter | .calling _ counter | .passed _ counter =>
    some counter
  | .fetched _ | .returned _ => none

/-- The node that a loop has found not to be removed, and whose callback it may still call. -/
def Loop.checked : Loop → Option Nat
  | .comparing node _ | .entering node _ => some node
  | _ => none

/-- Where a loop stands as a cursor. One that has been stopped may stand anywhere. -/
def Loop.Fits : Loop → Links.Spot Nat → Prop
  | .fetched node, spot | .testing node _, spot => spot = .holding node
  | .comparing node _, spot | .entering node _, spot | .calling node _, spot | .passed node _, spot => spot = .past node
  | .returned result, spot => result = true → spot = .holding none

/-- A loop stands in the list as a cursor that has visited some nodes. -/
def Standing (s : CallbackCalls C) (xs start visited : List Nat) (loop : Loop) : Prop :=
  ∃ spot, s.list.links.Cursor s.Gone xs start visited spot ∧ loop.Fits spot

/-- The node that a loop has checked counts as visited already. If the loop passes it over after all, it was not there
at the start. -/
structure Follows (s : CallbackCalls C) (xs start visited : List Nat) (loop : Loop) : Prop where
  standing : Standing s xs start (visited ++ loop.checked.toList) loop
  spare : ∀ node, loop.checked = some node → node ∉ start → Standing s xs start visited loop
  known : ∀ node, node ∈ start ∨ node ∈ visited ++ loop.checked.toList → node < s.list.callbacks.length ∧ node ∉ s.waits
  bound : ∀ counter, loop.counter = some counter → ∀ node ∈ start, s.list.counter node ≤ counter

theorem Linking.gone_off {node : Nat} (linking : Linking s xs) (gone : s.Gone node) : node ∉ xs ∧ node ∉ s.waits := by
  have live := (linking.live node).not
  rw [not_not] at live
  exact not_or.mp (live.mp gone.2)

theorem Linking.made_of_live {node : Nat} (linking : Linking s xs) (live : s.list.counter node ≠ removedCounter) :
    node < s.list.callbacks.length :=
  ((linking.live node).mp live).elim (linking.inside node) fun wait => (linking.apart node wait).1

/-- What is removed stays removed. -/
theorem Change.gone {node : Nat} (change : Change s xs t ys) (gone : s.Gone node) : t.Gone node := by
  cases change with
  | same loops => exact gone
  | made callback place =>
    refine ⟨by simpa using Nat.lt_succ_of_lt gone.1, ?_⟩
    exact (Function.update_of_ne (Nat.ne_of_lt gone.1) _ _).trans gone.2
  | linked found split holds agree => exact gone
  | @removed removed links member holds agree =>
    refine ⟨gone.1, ?_⟩
    show Function.update s.list.counter removed removedCounter node = removedCounter
    rw [Function.update_apply]
    split
    · rfl
    · exact gone.2

theorem Follows.begin (linking : Linking s xs) : Follows s xs xs [] (.fetched s.list.links.head) := by
  refine ⟨⟨_, Links.cursor_begin _ _ xs, by rw [linking.holds.head]; rfl⟩, by rintro _ ⟨⟩, ?_, by rintro _ ⟨⟩⟩
  rintro node (member | ⟨⟨⟩⟩)
  exact ⟨linking.inside node member, fun wait => (linking.apart node wait).2 member⟩

/-- A step that calls nothing and leaves the loop with no checked node. -/
theorem Follows.onward (follows : Follows s xs start visited loop) (standing : Standing s xs start visited loop')
    (silent : invokedBy i seen = []) (unchecked : loop'.checked = none)
    (bound : ∀ counter, loop'.counter = some counter → ∀ node ∈ start, s.list.counter node ≤ counter) :
    Follows s xs start (visited ++ invokedBy i seen) loop' := by
  rw [silent, List.append_nil]
  refine ⟨by simpa [unchecked] using standing, fun node has => absurd has (by simp [unchecked]), ?_, bound⟩
  intro node before
  exact follows.known node (before.imp_right fun seen => List.mem_append_left _ (by simpa [unchecked] using seen))

theorem Follows.stands (follows : Follows s xs start visited loop) (unchecked : loop.checked = none) :
    Standing s xs start visited loop := by
  have standing := follows.standing
  rw [unchecked, Option.toList_none, List.append_nil] at standing
  exact standing

/-- A loop moves. -/
theorem Follows.move (linking : Linking s xs) (follows : Follows s xs start visited loop)
    (step : LoopStep s i loop loop' seen) : Follows s xs start (visited ++ invokedBy i seen) loop' := by
  cases step with
  | load node =>
    obtain ⟨spot, cursor, fits⟩ := follows.stands rfl
    refine follows.onward ⟨spot, cursor, fits⟩ rfl rfl ?_
    rintro _ ⟨⟩ node first
    exact linking.counted node (follows.known node (.inl first)).1
  | ends counter =>
    obtain ⟨spot, cursor, fits⟩ := follows.stands rfl
    exact follows.onward ⟨spot, cursor, fun _ => fits⟩ rfl rfl (by rintro _ ⟨⟩)
  | @finds node counter live =>
    obtain ⟨spot, cursor, fits⟩ := follows.stands rfl
    subst fits
    rcases cursor.pass linking.holds with ⟨gone, -⟩ | ⟨member, -, visits, skip⟩
    · exact absurd gone.2 live
    rw [invokedBy_nil, List.append_nil]
    refine ⟨⟨_, visits, rfl⟩, ?_, ?_, follows.bound⟩
    · rintro _ ⟨⟩ later
      exact ⟨_, skip later, rfl⟩
    · rintro other (first | seen)
      · exact follows.known other (.inl first)
      · rcases List.mem_append.mp seen with earlier | here
        · exact follows.known other (.inr (List.mem_append_left _ earlier))
        · cases List.mem_singleton.mp here
          exact ⟨linking.inside node member, fun wait => (linking.apart node wait).2 member⟩
  | @misses node counter gone =>
    obtain ⟨spot, cursor, fits⟩ := follows.stands rfl
    subst fits
    rcases cursor.pass linking.holds with ⟨-, passes⟩ | ⟨member, -⟩
    · exact follows.onward ⟨_, passes, rfl⟩ rfl rfl follows.bound
    · exact absurd gone ((linking.live node).mpr (.inl member))
  | admits early =>
    rw [invokedBy_nil, List.append_nil]
    obtain ⟨spot, cursor, fits⟩ := follows.standing
    exact ⟨⟨spot, cursor, fits⟩, fun other has later => follows.spare other has later, follows.known, follows.bound⟩
  | @refuses node counter late =>
    -- A node that is passed over for its counter has been added after the loop began.
    have later : node ∉ start := fun first => Nat.not_le.mpr late (follows.bound counter rfl node first)
    exact follows.onward (follows.spare node rfl later) rfl rfl follows.bound
  | @calls node counter callback =>
    obtain ⟨spot, cursor, fits⟩ := follows.standing
    rw [invokedBy_self]
    refine ⟨⟨spot, by rw [List.append_assoc]; exact cursor, fits⟩, by rintro _ ⟨⟩, ?_, follows.bound⟩
    intro other before
    rw [show (Loop.calling node counter).checked.toList = [] from rfl, List.append_nil] at before
    exact follows.known other before
  | goesOn node counter =>
    obtain ⟨spot, cursor, fits⟩ := follows.stands rfl
    exact follows.onward ⟨spot, cursor, fits⟩ rfl rfl follows.bound
  | stops node counter =>
    obtain ⟨spot, cursor, fits⟩ := follows.stands rfl
    exact follows.onward ⟨spot, cursor, by rintro ⟨⟩⟩ rfl rfl (by rintro _ ⟨⟩)
  | advance node counter =>
    obtain ⟨spot, cursor, fits⟩ := follows.stands rfl
    subst fits
    exact follows.onward ⟨_, cursor.advance linking.holds, rfl⟩ rfl rfl follows.bound

theorem Standing.change (linking : Linking s xs) (change : Change s xs t ys)
    (known : ∀ node, node ∈ start ∨ node ∈ visited → node ∉ s.waits) (standing : Standing s xs start visited loop) :
    Standing t ys start visited loop := by
  obtain ⟨spot, cursor, fits⟩ := standing
  have stays := fun node => @Change.gone _ _ _ _ _ node change
  refine ⟨spot, ?_, fits⟩
  cases change with
  | same loops => exact cursor
  | made callback place => exact cursor.mono stays
  | @linked j node place a b links found split holds agree =>
    subst split
    have wait : node ∈ s.waits := (waits_eraseIdx found).symm.subset List.mem_cons_self
    refine cursor.insert ?_ ?_
    · rintro other before rfl
      exact known other before wait
    · intro other gone
      obtain ⟨outside, idle⟩ := linking.gone_off gone
      have different : other ≠ node := by rintro rfl; exact idle wait
      exact (agree other (by simpa [different] using outside)).1
  | @removed node links member holds agree =>
    refine cursor.remove linking.holds ?_ ?_
    · rintro other (gone | rfl)
      · exact stays other gone
      · exact ⟨linking.inside other member, Function.update_self other _ _⟩
    · rintro other unlinked
      refine (agree other fun still => ?_).1
      obtain ⟨inside, different⟩ := List.mem_filter.mp still
      rcases unlinked with gone | rfl
      · exact (linking.gone_off gone).1 inside
      · simp at different

/-- A node that is there and does not wait stays so, and its counter does not grow. -/
theorem Change.known {node : Nat} (change : Change s xs t ys) (inside : node < s.list.callbacks.length)
    (idle : node ∉ s.waits) :
    (node < t.list.callbacks.length ∧ node ∉ t.waits) ∧ t.list.counter node ≤ s.list.counter node := by
  cases change with
  | same loops => exact ⟨⟨inside, idle⟩, Nat.le_refl _⟩
  | made callback place =>
    refine ⟨⟨by simpa using Nat.lt_succ_of_lt inside, ?_⟩, Nat.le_of_eq ?_⟩
    · simp only [CallbackCalls.waits, List.map_append, List.map_cons, List.map_nil, List.mem_append, List.mem_singleton]
      exact not_or.mpr ⟨idle, Nat.ne_of_lt inside⟩
    · exact Function.update_of_ne (Nat.ne_of_lt inside) _ _
  | linked found split holds agree =>
    refine ⟨⟨inside, fun still => idle ?_⟩, Nat.le_refl _⟩
    exact (waits_eraseIdx found).symm.subset (List.mem_cons_of_mem _ still)
  | @removed removed links member holds agree =>
    refine ⟨⟨inside, idle⟩, ?_⟩
    show Function.update s.list.counter removed removedCounter node ≤ s.list.counter node
    rw [Function.update_apply]
    split
    · exact Nat.zero_le _
    · exact Nat.le_refl _

/-- The list changes while a loop stands. -/
theorem Follows.change (linking : Linking s xs) (follows : Follows s xs start visited loop)
    (change : Change s xs t ys) : Follows t ys start visited loop := by
  obtain ⟨standing, spare, known, bound⟩ := follows
  refine ⟨standing.change linking change fun node before => (known node before).2, fun node has later => ?_,
    fun node before => ?_, fun counter loaded node first => ?_⟩
  · exact (spare node has later).change linking change fun other before =>
      (known other (before.imp_right (List.mem_append_left _))).2
  · obtain ⟨inside, idle⟩ := known node before
    exact (change.known inside idle).1
  · obtain ⟨inside, idle⟩ := known node (.inl first)
    exact Nat.le_trans (change.known inside idle).2 (bound counter loaded node first)

/-! ### Runs -/

/-- What every change of the list and every step keeps, a run of a list whose pointers are right keeps. -/
theorem run_keeps (Inv : List (Invoked C) → CallbackCalls C → Prop)
    (preserved : ∀ {log s action t seen}, Linking s s.list.members → Inv log s →
      Change s s.list.members t t.list.members → (callbackMachine C).step s action = some (t, seen) →
      Inv (log ++ seen) t)
    (linking : Linking s s.list.members) (initial : Inv [] s)
    (kept : (callbackMachine C).Meets (fun s a => disciplined s a = true) s as)
    (runs : (callbackMachine C).run s as = some (t, events)) : Inv events t := by
  refine (run_induct (fun _ log u => Linking u u.list.members ∧ Inv log u) ?_ ⟨linking, initial⟩ kept runs).2
  rintro hist log u action v seen ⟨linking, inv⟩ kept taken
  obtain ⟨ys, change, -⟩ := step_change linking kept taken
  have next := linking.change change
  obtain rfl := next.members
  exact ⟨next, preserved linking inv change taken⟩

/-- One loop over a step of the whole. -/
theorem Follows.step (linking : Linking s xs) (found : s.loops[i]? = some loop)
    (follows : Follows s xs start visited loop) (change : Change s xs t ys)
    (taken : (callbackMachine C).step s action = some (t, seen)) :
    ∃ loop', t.loops[i]? = some loop' ∧ Follows t ys start (visited ++ invokedBy i seen) loop' := by
  obtain ⟨loop', after, ⟨rfl, silent⟩ | step⟩ := step_loop taken found
  · rw [silent, List.append_nil]
    exact ⟨loop', after, follows.change linking change⟩
  · exact ⟨loop', after, (follows.move linking step).change linking change⟩

theorem run_follows (linking : Linking s s.list.members) (found : s.loops[i]? = some loop)
    (follows : Follows s s.list.members start [] loop)
    (kept : (callbackMachine C).Meets (fun s a => disciplined s a = true) s as)
    (runs : (callbackMachine C).run s as = some (t, events)) :
    ∃ loop', t.loops[i]? = some loop' ∧ Follows t t.list.members start (invokedBy i events) loop' := by
  refine run_keeps (fun log u => ∃ loop', u.loops[i]? = some loop' ∧
    Follows u u.list.members start (invokedBy i log) loop') ?_ linking ⟨loop, found, follows⟩ kept runs
  rintro log u action v seen linking ⟨loop, found, follows⟩ change taken
  rw [invokedBy_append]
  exact follows.step linking found change taken

/-- Whatever is added and removed while a loop runs, by its own callbacks, by other loops or threads: it calls no
callback twice and keeps to the order of the list, and when it ends it has called every callback that was in the list
from its beginning to its end. -/
theorem iteration_exact (before during : List (CallbackAction C)) (s t : CallbackCalls C)
    (log events : List (Invoked C))
    (kept : (callbackMachine C).Meets (fun s a => disciplined s a = true) .start (before ++ .forEachIf :: during))
    (reaches : (callbackMachine C).run .start before = some (s, log))
    (runs : (callbackMachine C).run s (.forEachIf :: during) = some (t, events)) :
    let invoked := invokedBy s.loops.length events
    invoked.Nodup ∧ (invoked.filter (· ∈ t.list.members)).Sublist t.list.members ∧
      (t.loops[s.loops.length]? = some (.returned true) →
        ∀ node ∈ s.list.members, node ∈ t.list.members → node ∈ invoked) := by
  obtain ⟨keptBefore, -, keptDuring⟩ := meets_append kept reaches
  have linking := (run_linking keptBefore reaches).1
  obtain ⟨u, seen, later, begins, goesOn, rfl⟩ := run_cons_eq_some.mp runs
  have meets := keptDuring u seen begins
  cases begins
  have change : Change s s.list.members _ s.list.members := .same (s.loops ++ [.fetched s.list.links.head])
  obtain ⟨loop, found, follows⟩ := run_follows (linking.change change) List.getElem?_concat_length
    ((Follows.begin linking).change linking change) meets goesOn
  obtain ⟨spot, cursor, fits⟩ := follows.standing
  obtain ⟨nodup, order⟩ := cursor.ordered
  rw [List.filter_append] at order
  refine ⟨nodup.of_append_left, (List.sublist_append_left _ _).trans order, fun returned node first still => ?_⟩
  obtain rfl := Option.some.inj (found.symm.trans returned)
  obtain rfl := fits rfl
  have visited := cursor.finished node first still
  rwa [show (Loop.returned true).checked.toList = [] from rfl, List.append_nil] at visited

/-- The first callback removes itself and adds another one while the second waits for its turn. -/
theorem iteration_exact_self_removal :
    let before : List (CallbackAction Char) := [.append 'a', .append 'b', .link 0, .link 0]
    let during : List (CallbackAction Char) :=
      [.load 0, .test 0, .compare 0, .invoke 0, .remove 0 true, .append 'c', .link 0, .back 0 true, .advance 0, .test 0,
        .compare 0, .invoke 0, .back 0 true, .advance 0, .test 0, .compare 0, .advance 0, .test 0]
    ∃ s t log events, (callbackMachine Char).run .start before = some (s, log) ∧
      (callbackMachine Char).run s (.forEachIf :: during) = some (t, events) ∧ t.list.members = [1, 2] ∧
      invokedBy 0 events = [0, 1] ∧ ∀ node ∈ s.list.members, node ∈ t.list.members → node ∈ invokedBy 0 events := by
  intro before during
  have kept : (callbackMachine Char).Meets (fun s a => disciplined s a = true) .start
      (before ++ .forEachIf :: during) :=
    meets_of_checks (fun _ _ passes => passes) (by decide +kernel)
  have evaluates : ((callbackMachine Char).run .start (before ++ .forEachIf :: during)).any (fun (t, events) =>
      t.list.members = [1, 2] ∧ invokedBy 0 events = [0, 1] ∧ t.loops = [.returned true]) = true := by
    decide +kernel
  obtain ⟨t, all, runs, seen⟩ := exists_run evaluates
  obtain ⟨members, invoked, returned⟩ := of_decide_eq_true seen
  obtain ⟨s, log, events, first, rest, rfl⟩ := run_append_eq_some.mp runs
  have none_yet : s.loops = [] ∧ log = [] := by
    have same : (callbackMachine Char).run .start before = some (_, []) := rfl
    cases first.symm.trans same
    exact ⟨rfl, rfl⟩
  obtain ⟨loops, rfl⟩ := none_yet
  have exact_loop := iteration_exact before during s t [] events kept first rest
  rw [loops] at exact_loop
  exact ⟨s, t, [], events, first, rest, members, invoked, exact_loop.2.2 (by rw [returned]; rfl)⟩

/-! ### What is not called -/

/-- Every loop has loaded a counter that the list has reached, and has checked a node of it. -/
structure Loaded (s : CallbackCalls C) (loop : Loop) : Prop where
  counter : ∀ counter, loop.counter = some counter → counter ≤ s.list.currentCounter
  made : ∀ node, loop.checked = some node → node < s.list.callbacks.length

theorem Change.grows (change : Change s xs t ys) :
    s.list.currentCounter ≤ t.list.currentCounter ∧ s.list.callbacks.length ≤ t.list.callbacks.length := by
  cases change with
  | made callback place => exact ⟨Nat.le_succ _, by simp⟩
  | _ => exact ⟨Nat.le_refl _, Nat.le_refl _⟩

theorem LoopStep.counter {counter : Nat} (step : LoopStep s i loop loop' seen) (loaded : loop'.counter = some counter) :
    loop.counter = some counter ∨ counter = s.list.currentCounter := by
  cases step with
  | load node => exact .inr (Option.some.inj loaded).symm
  | ends | stops => cases loaded
  | finds | misses | admits | refuses | calls | goesOn | advance => exact .inl loaded

theorem LoopStep.checked {node : Nat} (step : LoopStep s i loop loop' seen) (has : loop'.checked = some node) :
    loop.checked = some node ∨ s.list.counter node ≠ removedCounter := by
  cases step with
  | finds live =>
    cases has
    exact .inr live
  | admits early => exact .inl has
  | load | ends | misses | refuses | calls | goesOn | stops | advance => cases has

theorem Loaded.move (linking : Linking s xs) (loaded : Loaded s loop) (step : LoopStep s i loop loop' seen) :
    Loaded s loop' where
  counter counter has := (step.counter has).elim (loaded.counter counter) Nat.le_of_eq
  made node has := (step.checked has).elim (loaded.made node) linking.made_of_live

theorem Loaded.change (loaded : Loaded s loop) (change : Change s xs t ys) : Loaded t loop where
  counter counter has := Nat.le_trans (loaded.counter counter has) change.grows.1
  made node has := Nat.lt_of_lt_of_le (loaded.made node has) change.grows.2

theorem loaded_step (linking : Linking s xs) (loaded : ∀ loop ∈ s.loops, Loaded s loop) (change : Change s xs t ys)
    (taken : (callbackMachine C).step s action = some (t, seen)) : ∀ loop ∈ t.loops, Loaded t loop := by
  intro loop member
  apply Loaded.change _ change
  cases step_loops taken with
  | other loops silent => exact loaded loop (loops ▸ member)
  | begins silent after =>
    subst after
    rcases List.mem_append.mp member with before | new
    · exact loaded loop before
    · cases List.mem_singleton.mp new
      exact ⟨by rintro _ ⟨⟩, by rintro _ ⟨⟩⟩
  | @moves i before loop' found step after =>
    subst after
    rcases List.mem_or_eq_of_mem_set member with old | rfl
    · exact loaded loop old
    · exact (loaded before (List.mem_of_getElem? found)).move linking step

theorem run_loaded (kept : (callbackMachine C).Meets (fun s a => disciplined s a = true) .start as)
    (runs : (callbackMachine C).run .start as = some (t, events)) : ∀ loop ∈ t.loops, Loaded t loop :=
  run_keeps (fun _ s => ∀ loop ∈ s.loops, Loaded s loop) (fun linking loaded change taken =>
    loaded_step linking loaded change taken) linking_start (by rintro _ ⟨⟩) kept runs

/-- A removed node stays unchecked, and its callback uncalled. -/
theorem step_unchecked {node : Nat} (taken : (callbackMachine C).step s action = some (t, seen)) (gone : s.Gone node)
    (unchecked : ∀ loop, s.loops[i]? = some loop → loop.checked ≠ some node) :
    (∀ loop, t.loops[i]? = some loop → loop.checked ≠ some node) ∧ node ∉ invokedBy i seen := by
  cases step_loops taken with
  | other loops silent => exact ⟨by rw [loops]; exact unchecked, by rw [silent]; rintro ⟨⟩⟩
  | begins silent after =>
    subst after
    refine ⟨fun loop found => ?_, by rw [silent]; rintro ⟨⟩⟩
    by_cases old : i < s.loops.length
    · exact unchecked loop ((List.getElem?_append_left old).symm.trans found)
    · have new := (List.getElem?_append_right (Nat.le_of_not_lt old)).symm.trans found
      cases List.mem_singleton.mp (List.mem_of_getElem? new)
      rintro ⟨⟩
  | @moves j before loop' there step after =>
    subst after
    by_cases same : j = i
    · subst same
      refine ⟨fun loop found has => ?_, fun called => ?_⟩
      · have here : (s.setLoop j loop').loops[j]? = some loop' :=
          List.getElem?_set_self (List.getElem?_eq_some_iff.mp there).1
        obtain rfl := Option.some.inj (here.symm.trans found)
        exact (step.checked has).elim (unchecked before there) fun live => live gone.2
      · cases step with
        | calls =>
          rw [invokedBy_self, List.mem_singleton] at called
          subst called
          exact unchecked _ there rfl
        | _ => cases called
    · refine ⟨fun loop found => ?_, by rw [step.seen_other (Ne.symm same)]; rintro ⟨⟩⟩
      exact unchecked loop ((List.getElem?_set_ne same).symm.trans found)

/-- A loop's counter is below those of the nodes from a number on, unless they have been removed. -/
structure Late (s : CallbackCalls C) (limit counter : Nat) (loop : Loop) : Prop where
  tied : ∀ c, loop.counter = some c → c = counter
  loaded : ∀ node, loop ≠ .fetched node
  low : counter ≤ s.list.currentCounter
  late : ∀ node, limit ≤ node → node < s.list.callbacks.length →
    s.list.counter node = removedCounter ∨ counter < s.list.counter node
  made : ∀ node, loop.checked = some node → node < s.list.callbacks.length
  admitted : ∀ node c, loop = .entering node c → node < limit ∨ s.Gone node

theorem Late.change {limit counter : Nat} (late : Late s limit counter loop) (change : Change s xs t ys) :
    Late t limit counter loop := by
  obtain ⟨tied, loaded, low, late, made, admitted⟩ := late
  refine ⟨tied, loaded, Nat.le_trans low change.grows.1, fun node beyond inside => ?_,
    fun node has => Nat.lt_of_lt_of_le (made node has) change.grows.2,
    fun node c same => (admitted node c same).imp_right change.gone⟩
  cases change with
  | same | linked => exact late node beyond inside
  | made callback place =>
    simp only [List.length_append, List.length_singleton] at inside
    dsimp only
    by_cases new : node = s.list.callbacks.length
    · rw [new, Function.update_self]
      exact .inr (Nat.lt_succ_of_le low)
    · rw [Function.update_of_ne new]
      exact late node beyond (by omega)
  | @removed removed links member holds agree =>
    dsimp only
    by_cases here : node = removed
    · rw [here, Function.update_self]
      exact .inl rfl
    · rw [Function.update_of_ne here]
      exact late node beyond inside

theorem Late.move {limit counter : Nat} (linking : Linking s xs) (late : Late s limit counter loop)
    (step : LoopStep s i loop loop' seen) :
    Late s limit counter loop' ∧ ∀ node ∈ invokedBy i seen, node < limit ∨ s.Gone node := by
  obtain ⟨tied, loaded, low, late, made, admitted⟩ := late
  have checked : ∀ node, loop'.checked = some node → node < s.list.callbacks.length :=
    fun node has => (step.checked has).elim (made node) linking.made_of_live
  cases step with
  | load node => exact absurd rfl (loaded node)
  | ends | stops => exact ⟨⟨by rintro _ ⟨⟩, by rintro _ ⟨⟩, low, late, checked, by rintro _ _ ⟨⟩⟩, by rintro _ ⟨⟩⟩
  | finds | misses | refuses | goesOn | advance =>
    exact ⟨⟨tied, by rintro _ ⟨⟩, low, late, checked, by rintro _ _ ⟨⟩⟩, by rintro _ ⟨⟩⟩
  | @admits node c early =>
    refine ⟨⟨tied, by rintro _ ⟨⟩, low, late, checked, ?_⟩, by rintro _ ⟨⟩⟩
    rintro _ _ ⟨⟩
    -- A node that was added later passes the second test only when it has been removed since the first.
    refine or_iff_not_imp_left.mpr fun beyond => ⟨checked node rfl, ?_⟩
    have same := tied c rfl
    exact (late node (Nat.le_of_not_lt beyond) (checked node rfl)).resolve_right (by omega)
  | @calls node c callback =>
    refine ⟨⟨tied, by rintro _ ⟨⟩, low, late, checked, by rintro _ _ ⟨⟩⟩, fun other called => ?_⟩
    rw [invokedBy_self, List.mem_singleton] at called
    exact called ▸ admitted node c rfl

theorem Late.step {limit counter : Nat} (linking : Linking s xs) (found : s.loops[i]? = some loop)
    (late : Late s limit counter loop) (change : Change s xs t ys)
    (taken : (callbackMachine C).step s action = some (t, seen)) :
    ∃ loop', t.loops[i]? = some loop' ∧ Late t limit counter loop' ∧
      ∀ node ∈ invokedBy i seen, node < limit ∨ t.Gone node := by
  obtain ⟨loop', after, ⟨rfl, silent⟩ | step⟩ := step_loop taken found
  · rw [silent]
    exact ⟨loop', after, late.change change, by rintro _ ⟨⟩⟩
  · obtain ⟨next, early⟩ := late.move linking step
    exact ⟨loop', after, next.change change, fun node called => (early node called).imp_right change.gone⟩

/-- From any point on, a loop calls a callback that has been removed by then only if it had already checked its node;
and a loop that has loaded its counter calls one that is added later only if that one has been removed again. -/
theorem stale_never_called (before later : List (CallbackAction C)) (s t : CallbackCalls C)
    (log events : List (Invoked C))
    (kept : (callbackMachine C).Meets (fun s a => disciplined s a = true) .start (before ++ later))
    (reaches : (callbackMachine C).run .start before = some (s, log))
    (runs : (callbackMachine C).run s later = some (t, events)) (i : Nat) :
    (∀ node < s.list.callbacks.length, node ∉ s.list.members → node ∉ s.waits →
        (∀ loop, s.loops[i]? = some loop → loop.checked ≠ some node) → node ∉ invokedBy i events) ∧
      ∀ loop counter, s.loops[i]? = some loop → loop.counter = some counter →
        ∀ node ∈ invokedBy i events, s.list.callbacks.length ≤ node → node ∉ t.list.members ∧ node ∉ t.waits := by
  obtain ⟨keptBefore, keptLater⟩ := meets_append kept reaches
  have linking := (run_linking keptBefore reaches).1
  refine ⟨fun node inside outside idle unchecked => ?_, fun loop counter found has node called beyond => ?_⟩
  · have gone : s.Gone node := by
      refine ⟨inside, ?_⟩
      by_contra live
      exact ((linking.live node).mp live).elim outside idle
    refine (run_keeps (fun log u => u.Gone node ∧ (∀ loop, u.loops[i]? = some loop → loop.checked ≠ some node) ∧
      node ∉ invokedBy i log) ?_ linking ⟨gone, unchecked, by rintro ⟨⟩⟩ keptLater runs).2.2
    rintro log u action v seen linking ⟨gone, unchecked, uncalled⟩ change taken
    obtain ⟨still, silent⟩ := step_unchecked taken gone unchecked
    refine ⟨change.gone gone, still, ?_⟩
    rw [invokedBy_append, List.mem_append]
    exact not_or.mpr ⟨uncalled, silent⟩
  · have reached := run_loaded keptBefore reaches loop (List.mem_of_getElem? found)
    have late : Late s s.list.callbacks.length counter loop := by
      refine ⟨fun c same => Option.some.inj (same.symm.trans has), ?_, reached.counter counter has,
        fun node beyond inside => by omega, reached.made, ?_⟩
      · rintro node rfl
        cases has
      · rintro node c rfl
        exact .inl (reached.made node rfl)
    have early : ∀ node ∈ invokedBy i events, node < s.list.callbacks.length ∨ t.Gone node := by
      refine (run_keeps (fun log u => (∃ loop, u.loops[i]? = some loop ∧ Late u s.list.callbacks.length counter loop) ∧
        ∀ node ∈ invokedBy i log, node < s.list.callbacks.length ∨ u.Gone node) ?_ linking
        ⟨⟨loop, found, late⟩, by rintro _ ⟨⟩⟩ keptLater runs).2
      rintro log u action v seen linking ⟨⟨loop, found, late⟩, early⟩ change taken
      obtain ⟨loop', after, later, here⟩ := late.step linking found change taken
      refine ⟨⟨loop', after, later⟩, fun node called => ?_⟩
      rw [invokedBy_append, List.mem_append] at called
      exact called.elim (fun earlier => (early node earlier).imp_right change.gone) (here node)
    have gone := (early node called).resolve_left (Nat.not_lt.mpr beyond)
    exact (run_linking kept (run_append_eq_some.mpr ⟨s, log, events, reaches, runs, rfl⟩)).1.gone_off gone

/-- The second callback is removed by the first one, which also adds a third. -/
theorem stale_never_called_removed :
    let before : List (CallbackAction Char) :=
      [.append 'a', .append 'b', .link 0, .link 0, .forEachIf, .load 0, .test 0, .compare 0, .invoke 0, .remove 1 true]
    let later : List (CallbackAction Char) :=
      [.append 'c', .link 0, .back 0 true, .advance 0, .test 0, .compare 0, .advance 0, .test 0]
    ∃ s t log events, (callbackMachine Char).run .start before = some (s, log) ∧
      (callbackMachine Char).run s later = some (t, events) ∧ s.list.members = [0] ∧ 1 ∉ invokedBy 0 events := by
  intro before later
  have kept : (callbackMachine Char).Meets (fun s a => disciplined s a = true) .start (before ++ later) :=
    meets_of_checks (fun _ _ passes => passes) (by decide +kernel)
  have evaluates : ((callbackMachine Char).run .start before).any (fun (s, _) => s.list.members = [0] ∧ s.waits = [] ∧
      s.list.callbacks = ['a', 'b'] ∧ s.loops = [.calling 0 2]) = true := by
    decide +kernel
  have goesOn : ((callbackMachine Char).run .start (before ++ later)).any (fun _ => true) = true := by decide +kernel
  obtain ⟨s, log, reaches, seen⟩ := exists_run evaluates
  obtain ⟨members, waits, callbacks, loops⟩ := of_decide_eq_true seen
  obtain ⟨t, all, runs, -⟩ := exists_run goesOn
  obtain ⟨u, first, events, again, rest, rfl⟩ := run_append_eq_some.mp runs
  cases reaches.symm.trans again
  refine ⟨s, t, log, events, reaches, rest, members, ?_⟩
  refine (stale_never_called before later s t log events kept reaches rest 0).1 1 ?_ ?_ ?_ ?_
  · rw [callbacks]; decide
  · rw [members]; decide
  · rw [waits]; decide
  · rw [loops]
    rintro loop ⟨⟩ ⟨⟩

/-- Another thread removes the callback between the loop's test and its call, and it is called all the same. -/
example :
    let before : List (CallbackAction Char) :=
      [.append 'a', .link 0, .forEachIf, .load 0, .test 0, .compare 0, .remove 0 true]
    ((callbackMachine Char).run .start (before ++ [.invoke 0])).any (fun (t, events) =>
      t.list.members = [] ∧ invokedBy 0 events = [0]) = true := by
  decide +kernel

end MiniProtobuf.Eventpp
