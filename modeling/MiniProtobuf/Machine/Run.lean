import Mathlib.Data.List.Basic

/-!
# Partial machines with events

A machine takes actions, some of which are not enabled, and shows events. `run_induct` is the one
induction over runs: a property of the actions taken, the events seen and the state that every
step meeting a condition preserves, holds at the end of every run whose steps all meet it.
-/

structure Machine (State Action Event : Type) where
  /-- `none` when the action cannot be taken. -/
  step : State → Action → Option (State × List Event)

namespace Machine

variable {State Action Event : Type} (M : Machine State Action Event)

def run (s : State) : List Action → Option (State × List Event)
  | [] => some (s, [])
  | a :: as =>
    match M.step s a with
    | none => none
    | some (t, seen) =>
      match run t as with
      | none => none
      | some (u, later) => some (u, seen ++ later)

/-- Every step of the run from `s` meets `cond` in the state before it. -/
def Meets (cond : State → Action → Prop) (s : State) : List Action → Prop
  | [] => True
  | a :: as => cond s a ∧ ∀ t seen, M.step s a = some (t, seen) → Meets cond t as

def checks (test : State → Action → Bool) (s : State) : List Action → Bool
  | [] => true
  | a :: as =>
    test s a &&
      match M.step s a with
      | none => true
      | some (t, _) => checks test t as

/-- A state that some run of allowed actions from `s` ends in. -/
def ReachableBy (allowed : Action → Prop) (s t : State) : Prop :=
  ∃ as events, (∀ a ∈ as, allowed a) ∧ M.run s as = some (t, events)

variable {M} {s t : State} {a : Action} {as bs : List Action} {events : List Event}

theorem run_cons_eq_some :
    M.run s (a :: as) = some (t, events) ↔
      ∃ u seen later, M.step s a = some (u, seen) ∧ M.run u as = some (t, later) ∧ events = seen ++ later := by
  rw [run]
  constructor
  · intro runs
    split at runs
    · contradiction
    · rename_i u seen first
      split at runs
      · contradiction
      · rename_i v later rest
        cases runs
        exact ⟨u, seen, later, first, rest, rfl⟩
  · rintro ⟨u, seen, later, first, rest, rfl⟩
    rw [first]
    simp only [rest]

theorem run_append_eq_some :
    M.run s (as ++ bs) = some (t, events) ↔
      ∃ u seen later, M.run s as = some (u, seen) ∧ M.run u bs = some (t, later) ∧ events = seen ++ later := by
  induction as generalizing s events with
  | nil =>
    constructor
    · intro runs
      exact ⟨s, [], events, rfl, runs, rfl⟩
    · rintro ⟨u, seen, later, first, rest, rfl⟩
      cases first
      exact rest
  | cons a as ih =>
    rw [List.cons_append]
    constructor
    · intro runs
      obtain ⟨u, seen, later, first, rest, rfl⟩ := run_cons_eq_some.mp runs
      obtain ⟨v, middle, last, before, after, rfl⟩ := ih.mp rest
      exact ⟨v, seen ++ middle, last, run_cons_eq_some.mpr ⟨u, seen, middle, first, before, rfl⟩, after,
        (List.append_assoc _ _ _).symm⟩
    · rintro ⟨v, seen, later, first, rest, rfl⟩
      obtain ⟨u, start, middle, enter, before, rfl⟩ := run_cons_eq_some.mp first
      exact run_cons_eq_some.mpr ⟨u, start, middle ++ later, enter, ih.mpr ⟨v, middle, later, before, rest, rfl⟩,
        List.append_assoc _ _ _⟩

theorem run_single : M.run s [a] = M.step s a := by
  rw [run]
  split
  · rename_i refused
    exact refused.symm
  · rename_i u seen taken
    simp [run, taken]

theorem exists_run {p : State × List Event → Bool} (evaluates : (M.run s as).any p = true) :
    ∃ t events, M.run s as = some (t, events) ∧ p (t, events) = true := by
  cases result : M.run s as with
  | none => simp [result] at evaluates
  | some last =>
    rw [result] at evaluates
    exact ⟨last.1, last.2, rfl, evaluates⟩

theorem ReachableBy.trans {allowed : Action → Prop} {u : State} (first : M.ReachableBy allowed s t)
    (second : M.ReachableBy allowed t u) : M.ReachableBy allowed s u := by
  obtain ⟨as, seen, here, runs⟩ := first
  obtain ⟨bs, later, there, rest⟩ := second
  refine ⟨as ++ bs, seen ++ later, fun a member => ?_, run_append_eq_some.mpr ⟨t, seen, later, runs, rest, rfl⟩⟩
  exact (List.mem_append.mp member).elim (here a) (there a)

variable (a) in
theorem ReachableBy.single {allowed : Action → Prop} {seen : List Event} (permitted : allowed a)
    (taken : M.step s a = some (t, seen)) : M.ReachableBy allowed s t := by
  refine ⟨[a], seen, fun b member => ?_, by rw [run_single, taken]⟩
  obtain rfl := List.mem_singleton.mp member
  exact permitted

theorem meets_append {cond : State → Action → Prop} (all : M.Meets cond s (as ++ bs))
    (runs : M.run s as = some (t, events)) : M.Meets cond s as ∧ M.Meets cond t bs := by
  induction as generalizing s events with
  | nil =>
    cases runs
    exact ⟨trivial, all⟩
  | cons a as ih =>
    obtain ⟨u, seen, later, first, rest, rfl⟩ := run_cons_eq_some.mp runs
    obtain ⟨here, beyond⟩ := all
    refine ⟨⟨here, fun v seen' taken => ?_⟩, (ih (beyond u seen first) rest).2⟩
    rw [first] at taken
    cases taken
    exact (ih (beyond u seen first) rest).1

theorem meets_append_of {cond : State → Action → Prop} (front : M.Meets cond s as)
    (back : ∀ t events, M.run s as = some (t, events) → M.Meets cond t bs) : M.Meets cond s (as ++ bs) := by
  induction as generalizing s with
  | nil => exact back s [] rfl
  | cons a as ih =>
    refine ⟨front.1, fun u seen taken => ih (front.2 u seen taken) fun t events runs => ?_⟩
    exact back t (seen ++ events) (run_cons_eq_some.mpr ⟨u, seen, events, taken, runs, rfl⟩)

theorem meets_of_forall {cond : State → Action → Prop} (always : ∀ s, ∀ a ∈ as, cond s a) : M.Meets cond s as := by
  induction as generalizing s with
  | nil => trivial
  | cons a as ih =>
    exact ⟨always s a List.mem_cons_self, fun t _ _ => ih fun s a member => always s a (List.mem_cons_of_mem _ member)⟩

theorem meets_and {first second : State → Action → Prop} (one : M.Meets first s as) (other : M.Meets second s as) :
    M.Meets (fun s a => first s a ∧ second s a) s as := by
  induction as generalizing s with
  | nil => trivial
  | cons a as ih => exact ⟨⟨one.1, other.1⟩, fun t seen taken => ih (one.2 t seen taken) (other.2 t seen taken)⟩

theorem run_induct_from {cond : State → Action → Prop} (Inv : List Action → List Event → State → Prop)
    (preserved : ∀ {hist log s a t seen}, Inv hist log s → cond s a → M.step s a = some (t, seen) →
      Inv (hist ++ [a]) (log ++ seen) t)
    (hist : List Action) (log : List Event) (initial : Inv hist log s) (all : M.Meets cond s as)
    (runs : M.run s as = some (t, events)) : Inv (hist ++ as) (log ++ events) t := by
  induction as generalizing s hist log events with
  | nil =>
    cases runs
    simpa using initial
  | cons a as ih =>
    obtain ⟨u, seen, later, first, rest, rfl⟩ := run_cons_eq_some.mp runs
    have next := ih (hist ++ [a]) (log ++ seen) (preserved initial all.1 first) (all.2 u seen first) rest
    simpa using next

theorem meets_of_checks {cond : State → Action → Prop} {test : State → Action → Bool}
    (sound : ∀ s a, test s a = true → cond s a) (passes : M.checks test s as = true) : M.Meets cond s as := by
  induction as generalizing s with
  | nil => trivial
  | cons a as ih =>
    rw [checks, Bool.and_eq_true] at passes
    refine ⟨sound s a passes.1, fun t seen taken => ih ?_⟩
    simpa only [taken] using passes.2

/-- The induction over runs, with the actions and events so far as history variables. -/
theorem run_induct {cond : State → Action → Prop} (Inv : List Action → List Event → State → Prop)
    (preserved : ∀ {hist log s a t seen}, Inv hist log s → cond s a → M.step s a = some (t, seen) →
      Inv (hist ++ [a]) (log ++ seen) t)
    (initial : Inv [] [] s) (all : M.Meets cond s as) (runs : M.run s as = some (t, events)) : Inv as events t :=
  run_induct_from Inv preserved [] [] initial all runs

/-- When the events of a step are good just under the condition, those of a run are just when every step
meets it. -/
theorem run_events_iff {Inv : State → Prop} {cond : State → Action → Prop} {Good : Event → Prop}
    (preserved : ∀ {s a t seen}, Inv s → M.step s a = some (t, seen) → Inv t)
    (exact : ∀ {s a t seen}, Inv s → M.step s a = some (t, seen) → ((∀ e ∈ seen, Good e) ↔ cond s a))
    (initial : Inv s) (runs : M.run s as = some (t, events)) : (∀ e ∈ events, Good e) ↔ M.Meets cond s as := by
  induction as generalizing s events with
  | nil =>
    cases runs
    exact ⟨fun _ => trivial, fun _ e member => absurd member List.not_mem_nil⟩
  | cons a as ih =>
    obtain ⟨u, seen, later, first, rest, rfl⟩ := run_cons_eq_some.mp runs
    rw [List.forall_mem_append, exact initial first, ih (preserved initial first) rest, Meets]
    refine and_congr_right fun _ => ⟨fun beyond v seen' taken => ?_, fun beyond => beyond u seen first⟩
    rw [first] at taken
    cases taken
    exact beyond

/-- When the steps of one kind lower a measure and no step raises it, a run has no more of that kind
than the measure allows. -/
theorem run_measure {Inv : State → Prop} {own : Action → Bool} {measure : State → Nat}
    (lowers : ∀ {s a t seen}, Inv s → M.step s a = some (t, seen) →
      Inv t ∧ measure t + (if own a then 1 else 0) ≤ measure s)
    (initial : Inv s) (runs : M.run s as = some (t, events)) : Inv t ∧ as.countP own + measure t ≤ measure s := by
  induction as generalizing s events with
  | nil =>
    cases runs
    exact ⟨initial, Nat.le_of_eq (Nat.zero_add _)⟩
  | cons a as ih =>
    obtain ⟨u, seen, later, first, rest, rfl⟩ := run_cons_eq_some.mp runs
    obtain ⟨next, less⟩ := lowers initial first
    obtain ⟨last, bound⟩ := ih next rest
    refine ⟨last, ?_⟩
    rw [List.countP_cons]
    omega

/-! ### Experiments on two states -/

variable (M) in
/-- No experiment tells two states apart: they take the same actions and show the same events. -/
def Indistinct (s t : State) : Prop := ∀ as, (M.run s as).map Prod.snd = (M.run t as).map Prod.snd

theorem run_cons_events (s : State) (a : Action) (as : List Action) :
    (M.run s (a :: as)).map Prod.snd =
      (M.step s a).bind fun next => ((M.run next.1 as).map Prod.snd).map (next.2 ++ ·) := by
  rw [run]
  cases M.step s a with
  | none => rfl
  | some next =>
    obtain ⟨t, seen⟩ := next
    rw [Option.bind_some]
    cases rest : M.run t as <;> simp only [rest, Option.map_none, Option.map_some]

theorem Indistinct.symm {u : State} (same : M.Indistinct s u) : M.Indistinct u s := fun as => (same as).symm

/-- States that are related step by step are not told apart. -/
theorem indistinct_of_related {u : State} {Rel : State → State → Prop}
    (matched : ∀ {s t} a, Rel s t → (M.step s a = none ∧ M.step t a = none) ∨
      ∃ s' t' seen, M.step s a = some (s', seen) ∧ M.step t a = some (t', seen) ∧ Rel s' t')
    (related : Rel s u) : M.Indistinct s u := by
  intro as
  induction as generalizing s u with
  | nil => rfl
  | cons a as ih =>
    rw [run_cons_events, run_cons_events]
    rcases matched a related with ⟨left, right⟩ | ⟨s', u', seen, left, right, next⟩
    · rw [left, right]
    · rw [left, right, Option.bind_some, Option.bind_some]
      dsimp only
      rw [ih next]

/-- An experiment goes on from the states that a common action leads to. -/
theorem Indistinct.step {u s' : State} {seen : List Event} (same : M.Indistinct s u)
    (taken : M.step s a = some (s', seen)) : ∃ u', M.step u a = some (u', seen) ∧ M.Indistinct s' u' := by
  have one := same [a]
  rw [run_single, run_single, taken] at one
  obtain ⟨⟨u', seen'⟩, right, events⟩ := Option.map_eq_some_iff.mp one.symm
  obtain rfl : seen' = seen := events
  refine ⟨u', right, fun as => ?_⟩
  have rest := same (a :: as)
  rw [run_cons_events, run_cons_events, taken, right, Option.bind_some, Option.bind_some] at rest
  exact Option.map_injective (List.append_right_injective seen') rest

end Machine
