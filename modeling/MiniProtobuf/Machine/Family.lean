import Mathlib.Data.List.Forall2
import MiniProtobuf.Machine.Run

/-!
# Families of machines

Any number of machines of one kind, started one after the other, each of which takes its own steps; some steps
are taken by all of them at once. `run_member` is what a run of the family says about one member: it has taken a
run of its own, with the events that the family shows under its number. `run_refines` carries the runs of a
machine to those of another that it refines.
-/

namespace Machine

variable {State Action Event : Type}

/-- When every step of a machine is a run of another on a view of the state, so is every run. `Inv` is kept
meanwhile, and `Becomes` says what an action can become. -/
theorem run_refines {State' Action' Event' : Type} {N : Machine State' Action' Event'} {M : Machine State Action Event}
    (view : State' → State) (shown : Event' → Option Event) (Inv : State' → Prop)
    (Becomes : Action' → List Action → Prop) {t u : State'} {bs : List Action'} {events : List Event'}
    (step : ∀ {t b u seen}, Inv t → N.step t b = some (u, seen) →
      Inv u ∧ ∃ as, Becomes b as ∧ M.run (view t) as = some (view u, seen.filterMap shown))
    (initial : Inv t) (runs : N.run t bs = some (u, events)) :
    Inv u ∧ ∃ groups, List.Forall₂ Becomes bs groups ∧
      M.run (view t) (List.flatten groups) = some (view u, events.filterMap shown) := by
  induction bs generalizing t events with
  | nil =>
    cases runs
    exact ⟨initial, [], .nil, rfl⟩
  | cons b bs ih =>
    obtain ⟨v, seen, later, first, rest, rfl⟩ := run_cons_eq_some.mp runs
    obtain ⟨next, as, here, start⟩ := step initial first
    obtain ⟨last, groups, there, finish⟩ := ih next rest
    refine ⟨last, as :: groups, .cons here there, ?_⟩
    rw [List.filterMap_append, List.flatten_cons]
    exact run_append_eq_some.mpr ⟨view v, _, _, start, finish, rfl⟩

inductive FamilyAction (State Action : Type) where
  | spawn (s : State)
  | one (i : Nat) (a : Action)
  | every (a : Action)

/-- How many members the action adds. -/
def FamilyAction.spawned : FamilyAction State Action → Nat
  | .spawn _ => 1
  | .one _ _ => 0
  | .every _ => 0

variable (M : Machine State Action Event)

/-- All members take `a`; `k` is the number of the first. -/
def stepEvery (a : Action) (k : Nat) : List State → Option (List State × List (Nat × Event))
  | [] => some ([], [])
  | s :: ss => do
    let (t, seen) ← M.step s a
    let (ts, later) ← stepEvery a (k + 1) ss
    some (t :: ts, seen.map (k, ·) ++ later)

def family : Machine (List State) (FamilyAction State Action) (Nat × Event) where
  step ss
    | .spawn s => some (ss ++ [s], [])
    | .one i a => do
      let s ← ss[i]?
      let (t, seen) ← M.step s a
      some (ss.set i t, seen.map (i, ·))
    | .every a => M.stepEvery a 0 ss

/-- The events under one number. -/
def eventsOf (i : Nat) (events : List (Nat × Event)) : List Event :=
  events.filterMap fun (j, e) => if j = i then some e else none

/-- The actions that member `i` takes, when there are `n` members before them. -/
def actionsOf (i : Nat) : Nat → List (FamilyAction State Action) → List Action
  | _, [] => []
  | n, .spawn _ :: as => actionsOf i (n + 1) as
  | n, .one j a :: as => if j = i then a :: actionsOf i n as else actionsOf i n as
  | n, .every a :: as => if i < n then a :: actionsOf i n as else actionsOf i n as

theorem eventsOf_append (i : Nat) (first second : List (Nat × Event)) :
    eventsOf i (first ++ second) = eventsOf i first ++ eventsOf i second := List.filterMap_append

theorem eventsOf_map_self (i : Nat) (seen : List Event) : eventsOf i (seen.map (i, ·)) = seen := by
  rw [eventsOf, List.filterMap_map]
  simp

theorem eventsOf_map_other {i j : Nat} (other : j ≠ i) (seen : List Event) : eventsOf i (seen.map (j, ·)) = [] := by
  rw [eventsOf, List.filterMap_map, List.filterMap_eq_nil_iff]
  intro e _
  exact if_neg other

variable {M} {ss ts : List State} {a : Action} {k i : Nat} {events : List (Nat × Event)}

theorem stepEvery_member (taken : M.stepEvery a k ss = some (ts, events)) :
    ts.length = ss.length ∧ (∀ j, (∀ i < ss.length, k + i ≠ j) → eventsOf j events = []) ∧ ∀ i s, ss[i]? = some s →
      ∃ t, ts[i]? = some t ∧ M.step s a = some (t, eventsOf (k + i) events) := by
  induction ss generalizing ts k events with
  | nil =>
    cases taken
    exact ⟨rfl, fun _ _ => rfl, fun i s member => by simp at member⟩
  | cons s ss ih =>
    obtain ⟨⟨t, seen⟩, first, rest⟩ := Option.bind_eq_some_iff.mp taken
    obtain ⟨⟨ts, later⟩, others, same⟩ := Option.bind_eq_some_iff.mp rest
    cases same
    obtain ⟨length, outside, each⟩ := ih others
    refine ⟨by simp [length], fun j apart => ?_, fun i s' member => ?_⟩
    · have first : k ≠ j := apart 0 (Nat.zero_lt_succ _)
      rw [eventsOf_append, eventsOf_map_other first, outside j, List.nil_append]
      intro i small
      rw [Nat.add_right_comm, Nat.add_assoc]
      exact apart (i + 1) (by simpa using small)
    · cases i with
      | zero =>
        cases member
        refine ⟨t, rfl, ?_⟩
        rw [Nat.add_zero, eventsOf_append, eventsOf_map_self, outside k (fun i _ => by omega), List.append_nil, first]
      | succ i =>
        obtain ⟨t', found, taken⟩ := each i s' member
        refine ⟨t', found, ?_⟩
        rw [eventsOf_append, eventsOf_map_other (by omega), List.nil_append, taken, Nat.add_right_comm, Nat.add_assoc]

/-- One step of the family, as a member that was there before sees it. -/
theorem family_step_member {action : FamilyAction State Action} {s : State}
    (taken : M.family.step ss action = some (ts, events)) (member : ss[i]? = some s) :
    ∃ t, ts[i]? = some t ∧ M.run s (actionsOf i ss.length [action]) = some (t, eventsOf i events) := by
  have present : i < ss.length := (List.getElem?_eq_some_iff.mp member).1
  cases action with
  | spawn s' =>
    cases taken
    exact ⟨s, by rw [List.getElem?_append_left present, member], rfl⟩
  | one j a =>
    obtain ⟨s', found, rest⟩ := Option.bind_eq_some_iff.mp taken
    obtain ⟨⟨t, seen⟩, step, same⟩ := Option.bind_eq_some_iff.mp rest
    cases same
    by_cases here : j = i
    · subst here
      cases found.symm.trans member
      refine ⟨t, by simp [List.getElem?_set_self present], ?_⟩
      rw [eventsOf_map_self, actionsOf, if_pos rfl]
      exact run_single.trans step
    · refine ⟨s, by rw [List.getElem?_set_ne here, member], ?_⟩
      rw [eventsOf_map_other here, actionsOf, if_neg here]
      rfl
  | every a =>
    obtain ⟨-, -, each⟩ := stepEvery_member taken
    obtain ⟨t, found, step⟩ := each i s member
    refine ⟨t, found, ?_⟩
    rw [actionsOf, if_pos present]
    rw [Nat.zero_add] at step
    exact run_single.trans step

theorem family_step_length {action : FamilyAction State Action}
    (taken : M.family.step ss action = some (ts, events)) :
    ts.length = ss.length + action.spawned := by
  cases action with
  | spawn s =>
    cases taken
    exact List.length_append
  | one j a =>
    obtain ⟨s', found, rest⟩ := Option.bind_eq_some_iff.mp taken
    obtain ⟨⟨t, seen⟩, step, same⟩ := Option.bind_eq_some_iff.mp rest
    cases same
    exact List.length_set
  | every a => exact (stepEvery_member taken).1

theorem actionsOf_cons (i n : Nat) (action : FamilyAction State Action) (as : List (FamilyAction State Action)) :
    actionsOf i n (action :: as) =
      actionsOf i n [action] ++ actionsOf i (n + action.spawned) as := by
  cases action with
  | spawn s => rfl
  | one j a => by_cases here : j = i <;> simp [actionsOf, FamilyAction.spawned, here]
  | every a => by_cases present : i < n <;> simp [actionsOf, FamilyAction.spawned, present]

/-- A member that was there at the start has taken a run of its own. -/
theorem run_member_from {as : List (FamilyAction State Action)} {s : State}
    (runs : M.family.run ss as = some (ts, events)) (member : ss[i]? = some s) :
    ∃ t, ts[i]? = some t ∧ M.run s (actionsOf i ss.length as) = some (t, eventsOf i events) := by
  induction as generalizing ss s events with
  | nil =>
    cases runs
    exact ⟨s, member, rfl⟩
  | cons action as ih =>
    obtain ⟨us, seen, later, first, rest, rfl⟩ := run_cons_eq_some.mp runs
    obtain ⟨u, there, step⟩ := family_step_member first member
    obtain ⟨t, found, tail⟩ := ih rest there
    refine ⟨t, found, ?_⟩
    rw [family_step_length first] at tail
    rw [eventsOf_append, actionsOf_cons]
    exact run_append_eq_some.mpr ⟨u, _, _, step, tail, rfl⟩

/-- A step of the family shows nothing under the number of a member that is still to come. -/
theorem family_step_absent {action : FamilyAction State Action} (absent : ss.length ≤ i)
    (taken : M.family.step ss action = some (ts, events)) :
    eventsOf i events = [] ∧ actionsOf i ss.length [action] = ([] : List Action) := by
  cases action with
  | spawn s =>
    cases taken
    exact ⟨rfl, rfl⟩
  | one j a =>
    obtain ⟨s', found, rest⟩ := Option.bind_eq_some_iff.mp taken
    obtain ⟨⟨t, seen⟩, step, same⟩ := Option.bind_eq_some_iff.mp rest
    cases same
    have other : j ≠ i := by
      have := (List.getElem?_eq_some_iff.mp found).1
      omega
    exact ⟨eventsOf_map_other other seen, by rw [actionsOf, if_neg other]; rfl⟩
  | every a =>
    refine ⟨(stepEvery_member taken).2.1 i fun j small => by omega, ?_⟩
    rw [actionsOf, if_neg (by omega)]
    rfl

/-- A member that was started in the run has taken a run of its own from its start. -/
theorem run_member {as : List (FamilyAction State Action)} {t : State} (absent : ss.length ≤ i)
    (runs : M.family.run ss as = some (ts, events)) (member : ts[i]? = some t) :
    ∃ s, FamilyAction.spawn s ∈ as ∧ M.run s (actionsOf i ss.length as) = some (t, eventsOf i events) := by
  induction as generalizing ss events with
  | nil =>
    cases runs
    rw [List.getElem?_eq_none absent] at member
    cases member
  | cons action as ih =>
    obtain ⟨us, seen, later, first, rest, rfl⟩ := run_cons_eq_some.mp runs
    have length := family_step_length first
    obtain ⟨unseen, untaken⟩ := family_step_absent absent first
    rw [eventsOf_append, unseen, List.nil_append, actionsOf_cons, untaken, List.nil_append, ← length]
    by_cases still : us.length ≤ i
    · obtain ⟨s, spawned, runs⟩ := ih still rest
      exact ⟨s, List.mem_cons_of_mem _ spawned, runs⟩
    · cases action with
      | spawn s =>
        cases first
        have last : i = ss.length := by
          simp only [List.length_append, List.length_singleton] at still
          omega
        obtain ⟨t', found, runs⟩ := run_member_from rest (show (ss ++ [s])[i]? = some s by rw [last]; simp)
        cases found.symm.trans member
        exact ⟨s, List.mem_cons_self, runs⟩
      | one j a => exact absurd (by rw [length]; exact absent) still
      | every a => exact absurd (by rw [length]; exact absent) still

end Machine
