import Mathlib.Data.List.Perm.Subperm
import MiniProtobuf.Eventpp.CallbackList

/-!
# The list behind the pointers

However the calls on a callback list are interleaved, its pointers hold the list that a plain sequence of callbacks
would be, as long as no callback is removed twice and none is inserted before one that is not in the list any more.
-/

namespace MiniProtobuf.Eventpp
open Machine

variable {C : Type}

/-! ### The plain sequence -/

def Place.put (place : Place) (node : Nat) (members : List Nat) : List Nat :=
  match place with
  | .append => members ++ [node]
  | .prepend => node :: members
  | .before other => members.takeWhile (· ≠ other) ++ node :: members.dropWhile (· ≠ other)

/-- A callback list without pointers: the callbacks by number, those that are in the list, in order, and those that
are still to be put in. -/
structure Plan (C : Type) where
  members : List Nat
  waiting : List (Nat × Place)
  callbacks : List C

def Plan.allocate (plan : Plan C) (callback : C) (place : Place) : Plan C :=
  { plan with callbacks := plan.callbacks ++ [callback], waiting := plan.waiting ++ [(plan.callbacks.length, place)] }

def planMachine (C : Type) : Machine (Plan C) (CallbackAction C) Empty where
  step plan
    | .append callback => some (plan.allocate callback .append, [])
    | .prepend callback => some (plan.allocate callback .prepend, [])
    | .insert callback before locked =>
      some (plan.allocate callback (if locked then .before before else .append), [])
    | .link i => do
      let (node, place) ← plan.waiting[i]?
      some ({ plan with members := place.put node plan.members, waiting := plan.waiting.eraseIdx i }, [])
    | .remove handle locked =>
      some (if locked then { plan with members := plan.members.filter (· ≠ handle) } else plan, [])
    | _ => some (plan, [])

def CallbackCalls.plan (s : CallbackCalls C) : Plan C := ⟨s.list.members, s.waiting, s.list.callbacks⟩

/-! ### What a step does -/

def CallbackCalls.waits (s : CallbackCalls C) : List Nat := s.waiting.map Prod.fst

/-- The pointers hold a list of nodes, and a node's counter is that of a removed one just when it is neither in the
list nor on its way into it. -/
structure Linking (s : CallbackCalls C) (xs : List Nat) : Prop where
  holds : s.list.links.Holds xs
  inside : ∀ node ∈ xs, node < s.list.callbacks.length
  distinct : s.waits.Nodup
  apart : ∀ node ∈ s.waits, node < s.list.callbacks.length ∧ node ∉ xs
  null : ∀ node, node ∈ s.waits ∨ s.list.callbacks.length ≤ node →
    s.list.links.next node = none ∧ s.list.links.previous node = none
  counted : ∀ node < s.list.callbacks.length, s.list.counter node ≤ s.list.currentCounter
  live : ∀ node, s.list.counter node ≠ removedCounter ↔ node ∈ xs ∨ node ∈ s.waits

/-- What a step can do to the list and the nodes that wait. -/
inductive Change (s : CallbackCalls C) (xs : List Nat) : CallbackCalls C → List Nat → Prop
  | same (loops : List Loop) : Change s xs { s with loops } xs
  | made (callback : C) (place : Place) :
    Change s xs { s with
      list := { s.list with
        callbacks := s.list.callbacks ++ [callback]
        counter := Function.update s.list.counter s.list.callbacks.length (s.list.currentCounter + 1)
        currentCounter := s.list.currentCounter + 1 }
      waiting := s.waiting ++ [(s.list.callbacks.length, place)] } xs
  | linked {i node : Nat} {place : Place} {a b : List Nat} {links : Links Nat}
    (found : s.waiting[i]? = some (node, place)) (split : xs = a ++ b) (holds : links.Holds (a ++ node :: b))
    (agree : Links.AgreeOff (a ++ node :: b) s.list.links links) :
    Change s xs { s with list := { s.list with links }, waiting := s.waiting.eraseIdx i } (a ++ node :: b)
  | removed {node : Nat} {links : Links Nat} (member : node ∈ xs) (holds : links.Holds (xs.filter (· ≠ node)))
    (agree : Links.AgreeOff (xs.filter (· ≠ node)) s.list.links links) :
    Change s xs
      { s with list := { s.list with links, counter := Function.update s.list.counter node removedCounter } }
      (xs.filter (· ≠ node))

variable {s t : CallbackCalls C} {xs ys : List Nat} {action : CallbackAction C} {seen events : List (Invoked C)}
  {as : List (CallbackAction C)}

theorem Linking.members (linking : Linking s xs) : s.list.members = xs := by
  have bound : xs.length ≤ s.list.callbacks.length := by
    have inside : xs ⊆ List.range s.list.callbacks.length :=
      fun node member => List.mem_range.mpr (linking.inside node member)
    have few := (linking.holds.nodup.subperm inside).length_le
    rwa [List.length_range] at few
  unfold CallbackList.members
  rw [linking.holds.head]
  exact linking.holds.row.walk bound

theorem doAllocateNode_eq {list : CallbackList C} (room : list.currentCounter + 1 < 2 ^ 64) (callback : C) :
    list.doAllocateNode callback =
      ({ list with
        callbacks := list.callbacks ++ [callback]
        counter := Function.update list.counter list.callbacks.length (list.currentCounter + 1)
        currentCounter := list.currentCounter + 1 }, list.callbacks.length) := by
  have counter : (list.currentCounter + 1) % 2 ^ 64 = list.currentCounter + 1 := Nat.mod_eq_of_lt room
  unfold CallbackList.doAllocateNode CallbackList.getNextCounter
  simp only [counter, Nat.add_one_ne_zero, if_false]

theorem change_allocate {callback : C} {place : Place} (room : s.list.currentCounter + 1 < 2 ^ 64) :
    Change s xs (s.allocate callback place) xs := by
  unfold CallbackCalls.allocate
  rw [doAllocateNode_eq room]
  exact .made callback place

theorem takeWhile_ne {a b : List Nat} {other : Nat} (absent : other ∉ a) :
    (a ++ other :: b).takeWhile (· ≠ other) = a ∧ (a ++ other :: b).dropWhile (· ≠ other) = other :: b := by
  have all : ∀ x ∈ a, decide (x ≠ other) = true := by
    intro x member
    apply decide_eq_true
    rintro rfl
    exact absent member
  rw [List.takeWhile_append_of_pos all, List.dropWhile_append_of_pos all]
  simp

theorem filter_ne_middle {a b : List Nat} {node : Nat} (nodup : (a ++ node :: b).Nodup) :
    (a ++ node :: b).filter (· ≠ node) = a ++ b := by
  have absent := (List.nodup_cons.mp (List.nodup_middle.mp nodup)).1
  rw [List.filter_append, List.filter_cons_of_neg (by simp), ← List.filter_append]
  exact Links.filter_ne_of_not_mem absent

theorem link_callbacks {list linked : CallbackList C} {node : Nat} {place : Place}
    (taken : list.link node place = some linked) : linked.callbacks = list.callbacks := by
  cases place with
  | append =>
    obtain ⟨links, -, rfl⟩ := Option.map_eq_some_iff.mp taken
    rfl
  | prepend =>
    cases taken
    rfl
  | before other =>
    cases taken
    rfl

/-- A node that waits is put in its place. -/
theorem change_link {i node : Nat} {place : Place} {list : CallbackList C} (linking : Linking s xs)
    (found : s.waiting[i]? = some (node, place)) (kept : ∀ other, place = .before other → other ∈ xs)
    (taken : s.list.link node place = some list) :
    Change s xs { s with list, waiting := s.waiting.eraseIdx i } (place.put node xs) := by
  have wait : node ∈ s.waits := List.mem_map_of_mem (List.mem_of_getElem? found)
  obtain ⟨-, fresh⟩ := linking.apart node wait
  obtain ⟨next, previous⟩ := linking.null node (.inl wait)
  cases place with
  | append =>
    obtain ⟨links, pushed, holds, agree⟩ := linking.holds.pushBack fresh next previous
    rw [CallbackList.link, pushed] at taken
    cases taken
    exact .linked found (List.append_nil xs).symm holds agree
  | prepend =>
    obtain ⟨holds, agree⟩ := linking.holds.pushFront fresh next previous
    cases taken
    exact @Change.linked _ s xs i node .prepend [] xs _ found rfl holds agree
  | before other =>
    obtain ⟨a, b, rfl⟩ := List.append_of_mem (kept other rfl)
    obtain ⟨holds, agree⟩ := linking.holds.insertBefore fresh
    have absent : other ∉ a := by
      intro member
      exact (List.nodup_append.mp linking.holds.nodup).2.2 other member other List.mem_cons_self rfl
    rw [Place.put, (takeWhile_ne absent).1, (takeWhile_ne absent).2]
    cases taken
    exact .linked found rfl holds agree

theorem change_remove {node : Nat} (linking : Linking s xs) (member : node ∈ xs) :
    Change s xs { s with list := s.list.doFreeNode node } (xs.filter (· ≠ node)) := by
  obtain ⟨a, b, rfl⟩ := List.append_of_mem member
  obtain ⟨holds, agree⟩ := linking.holds.unlink
  rw [← filter_ne_middle linking.holds.nodup] at holds agree
  exact .removed member holds agree

/-- A step changes the list as the plain sequence is changed. -/
theorem step_change (linking : Linking s xs) (kept : disciplined s action = true)
    (taken : (callbackMachine C).step s action = some (t, seen)) :
    ∃ ys, Change s xs t ys ∧ (planMachine C).step ⟨xs, s.waiting, s.list.callbacks⟩ action =
      some (⟨ys, t.waiting, t.list.callbacks⟩, []) := by
  have members := linking.members
  have allocates {callback : C} {place : Place} (room : s.list.currentCounter + 1 < 2 ^ 64)
      (allocated : s.allocate callback place = t) :
      Change s xs t xs ∧ (⟨xs, s.waiting, s.list.callbacks⟩ : Plan C).allocate callback place =
        ⟨xs, t.waiting, t.list.callbacks⟩ := by
    subst allocated
    refine ⟨change_allocate room, ?_⟩
    unfold CallbackCalls.allocate
    rw [doAllocateNode_eq room]
    rfl
  cases action with
  | append callback =>
    obtain ⟨change, plan⟩ := allocates (of_decide_eq_true kept) (congrArg Prod.fst (Option.some.inj taken))
    exact ⟨xs, change, congrArg (fun plan => some (plan, [])) plan⟩
  | prepend callback =>
    obtain ⟨change, plan⟩ := allocates (of_decide_eq_true kept) (congrArg Prod.fst (Option.some.inj taken))
    exact ⟨xs, change, congrArg (fun plan => some (plan, [])) plan⟩
  | insert callback before locked =>
    simp only [callbackMachine] at taken
    split at taken
    · obtain ⟨change, plan⟩ := allocates (of_decide_eq_true kept) (congrArg Prod.fst (Option.some.inj taken))
      exact ⟨xs, change, congrArg (fun plan => some (plan, [])) plan⟩
    · cases taken
  | link i =>
    obtain ⟨⟨node, place⟩, found, rest⟩ := Option.bind_eq_some_iff.mp taken
    obtain ⟨list, linked, same⟩ := Option.bind_eq_some_iff.mp rest
    cases same
    refine ⟨place.put node xs, change_link linking found ?_ linked, ?_⟩
    · rintro other rfl
      rw [← members]
      simp only [disciplined, found] at kept
      exact of_decide_eq_true kept
    · simp only [planMachine, found, Option.bind_eq_bind, Option.bind_some, link_callbacks linked]
  | remove handle locked =>
    simp only [callbackMachine] at taken
    split at taken
    · cases locked with
      | false =>
        cases taken
        exact ⟨xs, .same _, rfl⟩
      | true =>
        cases taken
        have member : handle ∈ s.list.members := of_decide_eq_true kept
        rw [members] at member
        exact ⟨_, change_remove linking member, rfl⟩
    · cases taken
  | forEachIf =>
    cases taken
    exact ⟨xs, .same _, rfl⟩
  | load i | compare i | back i result | advance i =>
    simp only [callbackMachine] at taken
    split at taken <;> cases taken
    exact ⟨xs, .same _, rfl⟩
  | test i =>
    simp only [callbackMachine] at taken
    split at taken <;> cases taken <;> exact ⟨xs, .same _, rfl⟩
  | invoke i =>
    simp only [callbackMachine] at taken
    split at taken
    · obtain ⟨callback, -, same⟩ := Option.map_eq_some_iff.mp taken
      cases same
      exact ⟨xs, .same _, rfl⟩
    · cases taken

theorem waits_eraseIdx {i node : Nat} {place : Place} (found : s.waiting[i]? = some (node, place)) :
    s.waits.Perm (node :: (s.waiting.eraseIdx i).map Prod.fst) := by
  obtain ⟨inside, here⟩ := List.getElem?_eq_some_iff.mp found
  have perm := List.getElem_cons_eraseIdx_perm inside
  rw [here] at perm
  exact (perm.map Prod.fst).symm

theorem Linking.made (linking : Linking s xs) (callback : C) (place : Place) :
    Linking { s with
      list := { s.list with
        callbacks := s.list.callbacks ++ [callback]
        counter := Function.update s.list.counter s.list.callbacks.length (s.list.currentCounter + 1)
        currentCounter := s.list.currentCounter + 1 }
      waiting := s.waiting ++ [(s.list.callbacks.length, place)] } xs := by
  have absent : s.list.callbacks.length ∉ s.waits := fun wait => Nat.lt_irrefl _ (linking.apart _ wait).1
  have outside : s.list.callbacks.length ∉ xs := fun member => Nat.lt_irrefl _ (linking.inside _ member)
  refine ⟨linking.holds, ?_, ?_, ?_, ?_, ?_, ?_⟩
  all_goals simp only [CallbackCalls.waits, List.map_append, List.map_cons, List.map_nil, List.length_append,
    List.length_singleton]
  · exact fun node member => Nat.lt_succ_of_lt (linking.inside node member)
  · refine List.nodup_append.mpr ⟨linking.distinct, List.nodup_singleton _, ?_⟩
    rintro node wait other single rfl
    exact absent (List.mem_singleton.mp single ▸ wait)
  · intro node wait
    rcases List.mem_append.mp wait with before | here
    · exact (linking.apart node before).imp Nat.lt_succ_of_lt id
    · rw [List.mem_singleton.mp here]
      exact ⟨Nat.lt_succ_self _, outside⟩
  · rintro node (wait | beyond)
    · rcases List.mem_append.mp wait with before | here
      · exact linking.null node (.inl before)
      · exact linking.null node (.inr (Nat.le_of_eq (List.mem_singleton.mp here).symm))
    · exact linking.null node (.inr (Nat.le_of_succ_le beyond))
  · intro node inside
    by_cases new : node = s.list.callbacks.length
    · exact Nat.le_of_eq (by rw [new, Function.update_self])
    · rw [Function.update_of_ne new]
      exact Nat.le_succ_of_le (linking.counted node (by omega))
  · intro node
    by_cases new : node = s.list.callbacks.length
    · rw [new, Function.update_self]
      simp [removedCounter]
    · rw [Function.update_of_ne new, linking.live node]
      simp [CallbackCalls.waits, new]

theorem Linking.linked {i node : Nat} {place : Place} {a b : List Nat} {links : Links Nat}
    (linking : Linking s (a ++ b))
    (found : s.waiting[i]? = some (node, place)) (holds : links.Holds (a ++ node :: b))
    (agree : Links.AgreeOff (a ++ node :: b) s.list.links links) :
    Linking { s with list := { s.list with links }, waiting := s.waiting.eraseIdx i } (a ++ node :: b) := by
  have perm := waits_eraseIdx found
  have wait : node ∈ s.waits := perm.symm.subset List.mem_cons_self
  obtain ⟨absent, distinct⟩ := List.nodup_cons.mp (perm.nodup_iff.mp linking.distinct)
  have waits : ∀ other, other ∈ s.waits ↔ other = node ∨ other ∈ (s.waiting.eraseIdx i).map Prod.fst :=
    fun other => perm.mem_iff.trans List.mem_cons
  have middle : ∀ other, other ∈ a ++ node :: b ↔ other = node ∨ other ∈ a ++ b := by simp [or_left_comm]
  have off : ∀ other, other ∈ (s.waiting.eraseIdx i).map Prod.fst → other ∉ a ++ node :: b := by
    intro other still member
    rcases (middle other).mp member with rfl | member
    · exact absent still
    · exact (linking.apart other ((waits other).mpr (.inr still))).2 member
  refine ⟨holds, ?_, distinct, ?_, ?_, linking.counted, ?_⟩
  · intro other member
    rcases (middle other).mp member with rfl | member
    · exact (linking.apart _ wait).1
    · exact linking.inside other member
  · exact fun other still => ⟨(linking.apart other ((waits other).mpr (.inr still))).1, off other still⟩
  · intro other unlinked
    have before : other ∈ s.waits ∨ s.list.callbacks.length ≤ other :=
      unlinked.imp_left fun still => (waits other).mpr (.inr still)
    have outside : other ∉ a ++ node :: b := by
      rcases unlinked with still | beyond
      · exact off other still
      · intro member
        rcases (middle other).mp member with rfl | member
        · exact Nat.lt_irrefl _ (Nat.lt_of_lt_of_le (linking.apart _ wait).1 beyond)
        · exact Nat.lt_irrefl _ (Nat.lt_of_lt_of_le (linking.inside other member) beyond)
    show links.next other = none ∧ links.previous other = none
    rw [(agree other outside).1, (agree other outside).2]
    exact linking.null other before
  · intro other
    rw [linking.live other, middle, waits]
    show _ ↔ _ ∨ other ∈ (s.waiting.eraseIdx i).map Prod.fst
    tauto

theorem Linking.removed {node : Nat} {links : Links Nat} (linking : Linking s xs) (member : node ∈ xs)
    (holds : links.Holds (xs.filter (· ≠ node))) (agree : Links.AgreeOff (xs.filter (· ≠ node)) s.list.links links) :
    Linking { s with list := { s.list with links, counter := Function.update s.list.counter node removedCounter } }
      (xs.filter (· ≠ node)) := by
  have fewer : ∀ other, other ∈ xs.filter (· ≠ node) ↔ other ∈ xs ∧ other ≠ node := by simp
  refine ⟨holds, ?_, linking.distinct, ?_, ?_, ?_, ?_⟩
  · exact fun other still => linking.inside other ((fewer other).mp still).1
  · exact fun other wait => (linking.apart other wait).imp id fun outside still => outside ((fewer other).mp still).1
  · intro other unlinked
    have outside : other ∉ xs := by
      rcases unlinked with wait | beyond
      · exact (linking.apart other wait).2
      · exact fun inside => Nat.lt_irrefl _ (Nat.lt_of_lt_of_le (linking.inside other inside) beyond)
    have off : other ∉ xs.filter (· ≠ node) := fun still => outside ((fewer other).mp still).1
    show links.next other = none ∧ links.previous other = none
    rw [(agree other off).1, (agree other off).2]
    exact linking.null other unlinked
  · intro other inside
    show Function.update s.list.counter node removedCounter other ≤ s.list.currentCounter
    rw [Function.update_apply]
    split
    · exact Nat.zero_le _
    · exact linking.counted other inside
  · intro other
    show Function.update s.list.counter node removedCounter other ≠ removedCounter ↔ _
    rw [fewer, Function.update_apply]
    split
    · subst other
      have apart : node ∉ s.waits := fun wait => (linking.apart node wait).2 member
      simp only [ne_eq, not_true_eq_false, and_false, false_or, false_iff]
      exact apart
    · rename_i other_ne
      rw [linking.live other]
      simp only [ne_eq, other_ne, not_false_eq_true, and_true]
      rfl

theorem Linking.change (linking : Linking s xs) (change : Change s xs t ys) : Linking t ys := by
  cases change with
  | same loops =>
    exact ⟨linking.holds, linking.inside, linking.distinct, linking.apart, linking.null, linking.counted, linking.live⟩
  | made callback place => exact linking.made callback place
  | linked found split holds agree =>
    subst split
    exact linking.linked found holds agree
  | removed member holds agree => exact linking.removed member holds agree

/-! ### Runs -/

theorem linking_start : Linking (CallbackCalls.start : CallbackCalls C) [] := by
  refine ⟨Links.holds_empty, ?_, List.nodup_nil, ?_, fun _ _ => ⟨rfl, rfl⟩, ?_, fun node => ?_⟩
  any_goals rintro node ⟨⟩
  simp [CallbackCalls.start, CallbackList.new, CallbackCalls.waits, removedCounter]

theorem run_linking (kept : (callbackMachine C).Meets (fun s a => disciplined s a = true) .start as)
    (runs : (callbackMachine C).run .start as = some (t, events)) :
    Linking t t.list.members ∧ (planMachine C).run ⟨[], [], []⟩ as = some (t.plan, []) := by
  refine run_induct (fun hist _ s => Linking s s.list.members ∧
    (planMachine C).run ⟨[], [], []⟩ hist = some (s.plan, [])) ?_ ⟨linking_start, rfl⟩ kept runs
  rintro hist log s action t seen ⟨linking, plan⟩ kept taken
  obtain ⟨ys, change, planned⟩ := step_change linking kept taken
  have next := linking.change change
  have members := next.members
  subst members
  refine ⟨next, run_append_eq_some.mpr ⟨_, _, _, plan, ?_, rfl⟩⟩
  rw [run_single]
  exact planned

/-- In every interleaving of the calls, the pointers of the list hold, forwards and backwards, the sequence that the
same calls make of a plain sequence of callbacks. -/
theorem callbacks_refine_sequence (as : List (CallbackAction C)) (t : CallbackCalls C) (events : List (Invoked C))
    (kept : (callbackMachine C).Meets (fun s a => disciplined s a = true) .start as)
    (runs : (callbackMachine C).run .start as = some (t, events)) :
    (planMachine C).run ⟨[], [], []⟩ as = some (t.plan, []) ∧ t.list.links.Holds t.list.members := by
  obtain ⟨linking, plan⟩ := run_linking kept runs
  exact ⟨plan, linking.holds⟩

/-- Two threads add callbacks and a third one is put between theirs, before one is removed. -/
theorem callbacks_refine_sequence_three :
    let as : List (CallbackAction Char) :=
      [.append 'a', .append 'b', .link 1, .link 0, .insert 'c' 0 true, .link 0, .remove 1 true]
    ∃ t events, (callbackMachine Char).run .start as = some (t, events) ∧
      (planMachine Char).run ⟨[], [], []⟩ as = some (⟨[2, 0], [], ['a', 'b', 'c']⟩, []) := by
  intro as
  have kept : (callbackMachine Char).Meets (fun s a => disciplined s a = true) .start as :=
    meets_of_checks (fun _ _ passes => passes) (by decide +kernel)
  have evaluates : ((callbackMachine Char).run .start as).any (fun (t, _) => t.list.members = [2, 0] ∧ t.waiting = [] ∧
      t.list.callbacks = ['a', 'b', 'c']) = true := by
    decide +kernel
  obtain ⟨t, events, runs, seen⟩ := exists_run evaluates
  obtain ⟨members, waiting, callbacks⟩ := of_decide_eq_true seen
  have plan := (callbacks_refine_sequence as t events kept runs).1
  rw [CallbackCalls.plan, members, waiting, callbacks] at plan
  exact ⟨t, events, runs, plan⟩

/-- The discipline is needed. A loop stands on the second of three callbacks and keeps it alive; it is removed, a new
one takes its place, and a second removal through the old handle throws the new one out. -/
example :
    let as : List (CallbackAction Char) :=
      [.append 'a', .link 0, .append 'b', .link 0, .append 'c', .link 0, .forEachIf, .load 0, .test 0, .compare 0,
        .invoke 0, .back 0 true, .advance 0, .test 0, .remove 1 true, .insert 'd' 2 true, .link 0, .remove 1 true]
    ((callbackMachine Char).run .start as).any (fun (t, _) => t.list.members = [0, 2]) = true := by
  decide +kernel

/-- A callback at the head removes itself and inserts another one before its own handle, which the loop keeps alive:
`doInsert` does not see that the node is not the head any more, and the new one is lost. -/
example :
    let as : List (CallbackAction Char) :=
      [.append 'a', .link 0, .append 'b', .link 0, .forEachIf, .load 0, .test 0, .compare 0, .invoke 0, .remove 0 true,
        .insert 'c' 0 true, .link 0]
    ((callbackMachine Char).run .start as).any (fun (t, _) => t.list.members = [1]) = true := by
  decide +kernel

end MiniProtobuf.Eventpp
