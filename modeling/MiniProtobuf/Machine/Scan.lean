import Mathlib.Data.List.Basic

/-!
# Scanners

A scanner reads elements one at a time until a step ends it with a result. `stops_one` says what a scan has
read in a state that asks for one element, `Loop.stops_iff` in a state that collects elements up to a
terminator. A step that collects may fail, which ends the scan with a result of its own.
-/

namespace Scanner

variable {σ α β κ : Type}

/-- Where the scan ends, with the elements that it did not read. -/
def scan (step : σ → α → σ ⊕ β) (s : σ) : List α → (σ ⊕ β) × List α
  | [] => (.inl s, [])
  | a :: as =>
    match step s a with
    | .inl t => scan step t as
    | .inr b => (.inr b, as)

def Stops (step : σ → α → σ ⊕ β) (s : σ) (as : List α) (b : β) (rest : List α) : Prop :=
  scan step s as = (.inr b, rest)

variable {step : σ → α → σ ⊕ β} {s t : σ} {a : α} {as rest : List α} {b : β}

theorem not_stops_nil : ¬ Stops step s [] b rest := by
  rintro ⟨⟩

theorem stops_cons_inl (taken : step s a = .inl t) : Stops step s (a :: as) b rest ↔ Stops step t as b rest := by
  rw [Stops, scan, taken]
  rfl

theorem stops_cons_inr {c : β} (taken : step s a = .inr c) : Stops step s (a :: as) b rest ↔ c = b ∧ as = rest := by
  rw [Stops, scan, taken]
  simp only [Prod.mk.injEq, Sum.inr.injEq]

/-- A state that asks for one element, and has a result outside `wanted` for every other. -/
theorem stops_one {wanted : β → Prop} {asked : α} (takes : step s asked = .inl t)
    (refuses : ∀ a, a ≠ asked → ∃ c, step s a = .inr c ∧ ¬ wanted c) (want : wanted b) :
    Stops step s as b rest ↔ ∃ behind, as = asked :: behind ∧ Stops step t behind b rest := by
  constructor
  · intro stops
    cases as with
    | nil => exact absurd stops not_stops_nil
    | cons a as =>
      by_cases same : a = asked
      · subst same
        exact ⟨as, rfl, (stops_cons_inl takes).mp stops⟩
      · obtain ⟨c, refused, unwanted⟩ := refuses a same
        obtain ⟨rfl, -⟩ := (stops_cons_inr refused).mp stops
        exact absurd want unwanted
  · rintro ⟨behind, rfl, stops⟩
    exact (stops_cons_inl takes).mpr stops

/-- A state that collects the elements of `inside` up to a terminator. -/
structure Loop (step : σ → α → σ ⊕ β) (wanted : β → Prop) (κ : Type) where
  collecting : κ → σ
  next : κ → σ
  push : κ → α → Option κ
  inside : α → Prop
  terminator : α
  failed : β
  leaves : ∀ k, step (collecting k) terminator = .inl (next k)
  stays : ∀ k a, a ≠ terminator → inside a →
    step (collecting k) a = (push k a).elim (.inr failed) (fun k => .inl (collecting k))
  refuses : ∀ k a, a ≠ terminator → ¬ inside a → ∃ c, step (collecting k) a = .inr c ∧ ¬ wanted c

namespace Loop

variable {wanted : β → Prop} (L : Loop step wanted κ) {k k' : κ} {front : List α}

def Inside (a : α) : Prop := a ≠ L.terminator ∧ L.inside a

structure Collects (k : κ) (front : List α) (k' : κ) : Prop where
  inside : ∀ a ∈ front, L.Inside a
  folds : front.foldlM L.push k = some k'

variable {L}

theorem collects_nil : L.Collects k [] k :=
  ⟨fun _ member => absurd member List.not_mem_nil, rfl⟩

theorem collects_cons : L.Collects k (a :: front) k' ↔
    L.Inside a ∧ ∃ next, L.push k a = some next ∧ L.Collects next front k' := by
  constructor
  · rintro ⟨inside, folds⟩
    obtain ⟨first, others⟩ := List.forall_mem_cons.mp inside
    rw [List.foldlM_cons] at folds
    obtain ⟨next, pushed, folds⟩ := Option.bind_eq_some_iff.mp folds
    exact ⟨first, next, pushed, others, folds⟩
  · rintro ⟨first, next, pushed, others, folds⟩
    refine ⟨List.forall_mem_cons.mpr ⟨first, others⟩, ?_⟩
    rw [List.foldlM_cons, pushed]
    exact folds

theorem step_pushed (within : L.Inside a) (pushed : L.push k a = some k') :
    step (L.collecting k) a = .inl (L.collecting k') := by
  rw [L.stays k a within.1 within.2, pushed]
  rfl

theorem step_failed (within : L.Inside a) (pushed : L.push k a = none) :
    step (L.collecting k) a = .inr L.failed := by
  rw [L.stays k a within.1 within.2, pushed]
  rfl

theorem stops_collected (collects : L.Collects k front k') :
    Stops step (L.collecting k) (front ++ as) b rest ↔ Stops step (L.collecting k') as b rest := by
  induction front generalizing k with
  | nil =>
    cases collects.folds
    rfl
  | cons a front ih =>
    obtain ⟨within, next, pushed, collects⟩ := collects_cons.mp collects
    rw [List.cons_append, stops_cons_inl (step_pushed within pushed), ih collects]

/-- Either the scan goes on behind the terminator with what was collected, or an element inside could not be
collected and the scan ended there. -/
theorem stops_iff (want : wanted b) :
    Stops step (L.collecting k) as b rest ↔
      (∃ front behind k', as = front ++ L.terminator :: behind ∧ L.Collects k front k' ∧
        Stops step (L.next k') behind b rest) ∨
      (L.failed = b ∧ ∃ front a k', as = front ++ a :: rest ∧ L.Collects k front k' ∧ L.Inside a ∧
        L.push k' a = none) := by
  constructor
  · intro stops
    induction as generalizing k with
    | nil => exact absurd stops not_stops_nil
    | cons a as ih =>
      by_cases last : a = L.terminator
      · subst last
        exact .inl ⟨[], as, k, rfl, collects_nil, (stops_cons_inl (L.leaves k)).mp stops⟩
      by_cases within : L.inside a
      · cases pushed : L.push k a with
        | none =>
          obtain ⟨same, rfl⟩ := (stops_cons_inr (step_failed ⟨last, within⟩ pushed)).mp stops
          exact .inr ⟨same, [], a, k, rfl, collects_nil, ⟨last, within⟩, pushed⟩
        | some next =>
          rcases ih ((stops_cons_inl (step_pushed ⟨last, within⟩ pushed)).mp stops) with
            ⟨front, behind, k', rfl, collects, stops⟩ | ⟨same, front, c, k', rfl, collects, inside, failed⟩
          · exact .inl ⟨a :: front, behind, k', rfl, collects_cons.mpr ⟨⟨last, within⟩, next, pushed, collects⟩, stops⟩
          · exact .inr ⟨same, a :: front, c, k', rfl, collects_cons.mpr ⟨⟨last, within⟩, next, pushed, collects⟩,
              inside, failed⟩
      · obtain ⟨c, refused, unwanted⟩ := L.refuses k a last within
        obtain ⟨rfl, -⟩ := (stops_cons_inr refused).mp stops
        exact absurd want unwanted
  · rintro (⟨front, behind, k', rfl, collects, stops⟩ | ⟨same, front, a, k', rfl, collects, within, failed⟩)
    · rw [stops_collected collects, stops_cons_inl (L.leaves k')]
      exact stops
    · rw [stops_collected collects, stops_cons_inr (step_failed within failed)]
      exact ⟨same, rfl⟩

/-- A state that enters the loop with its first element, which has to be inside. -/
theorem stops_first {start : σ} (want : wanted b)
    (enters : ∀ a, L.Inside a → step start a = step (L.collecting k) a)
    (refuses : ∀ a, ¬ L.Inside a → ∃ c, step start a = .inr c ∧ ¬ wanted c) :
    Stops step start as b rest ↔
      (∃ front behind k', front ≠ [] ∧ as = front ++ L.terminator :: behind ∧ L.Collects k front k' ∧
        Stops step (L.next k') behind b rest) ∨
      (L.failed = b ∧ ∃ front a k', as = front ++ a :: rest ∧ L.Collects k front k' ∧ L.Inside a ∧
        L.push k' a = none) := by
  cases as with
  | nil =>
    refine ⟨fun stops => absurd stops not_stops_nil, ?_⟩
    rintro (⟨front, behind, -, -, same, -⟩ | ⟨-, front, a, -, same, -⟩) <;>
      exact absurd same.symm (List.append_ne_nil_of_right_ne_nil _ (List.cons_ne_nil _ _))
  | cons a as =>
    by_cases within : L.Inside a
    · have same : Stops step start (a :: as) b rest ↔ Stops step (L.collecting k) (a :: as) b rest := by
        rw [Stops, Stops, scan, scan, enters a within]
      rw [same, stops_iff want]
      refine or_congr ⟨?_, ?_⟩ Iff.rfl
      · rintro ⟨front, behind, k', split, collects, stops⟩
        refine ⟨front, behind, k', ?_, split, collects, stops⟩
        rintro rfl
        cases split
        exact within.1 rfl
      · rintro ⟨front, behind, k', -, split, collects, stops⟩
        exact ⟨front, behind, k', split, collects, stops⟩
    · obtain ⟨c, refused, unwanted⟩ := refuses a within
      rw [stops_cons_inr refused]
      constructor
      · rintro ⟨rfl, -⟩
        exact absurd want unwanted
      · rintro (⟨front, behind, k', some, split, collects, -⟩ | ⟨-, front, d, k', split, collects, inside, -⟩)
        · obtain ⟨e, front, rfl⟩ := List.exists_cons_of_ne_nil some
          cases split
          exact absurd (collects.inside a List.mem_cons_self) within
        · cases front with
          | nil =>
            cases split
            exact absurd inside within
          | cons e front =>
            cases split
            exact absurd (collects.inside a List.mem_cons_self) within

end Loop

theorem foldlM_some_append (k front : List α) : front.foldlM (fun k a => some (k ++ [a])) k = some (k ++ front) := by
  induction front generalizing k with
  | nil => rw [List.append_nil]; rfl
  | cons a front ih =>
    rw [List.foldlM_cons]
    exact (ih (k ++ [a])).trans (by rw [List.append_assoc]; rfl)

theorem foldlM_eq_none {push : κ → α → Option κ} {k : κ} (none_ : as.foldlM push k = none) :
    ∃ front a behind k', as = front ++ a :: behind ∧ front.foldlM push k = some k' ∧ push k' a = none := by
  induction as generalizing k with
  | nil => cases none_
  | cons a as ih =>
    rw [List.foldlM_cons] at none_
    cases pushed : push k a with
    | none => exact ⟨[], a, as, k, rfl, rfl, pushed⟩
    | some next =>
      rw [pushed] at none_
      obtain ⟨front, c, behind, k', rfl, folds, failed⟩ := ih none_
      refine ⟨a :: front, c, behind, k', rfl, ?_, failed⟩
      rw [List.foldlM_cons, pushed]
      exact folds

section Text

variable {wanted : β → Prop} (collecting next : List α → σ) (inside : α → Prop) (terminator : α)

/-- A loop that keeps the elements it reads. It cannot fail, so any result serves as the one of a failure. -/
def textLoop (leaves : ∀ k, step (collecting k) terminator = .inl (next k))
    (stays : ∀ k a, a ≠ terminator → inside a → step (collecting k) a = .inl (collecting (k ++ [a])))
    (refuses : ∀ k a, a ≠ terminator → ¬ inside a → ∃ c, step (collecting k) a = .inr c ∧ ¬ wanted c) (b : β) :
    Loop step wanted (List α) :=
  { collecting, next, push := fun k a => some (k ++ [a]), inside, terminator, failed := b, leaves, stays, refuses }

variable (leaves : ∀ k, step (collecting k) terminator = .inl (next k))
  (stays : ∀ k a, a ≠ terminator → inside a → step (collecting k) a = .inl (collecting (k ++ [a])))
  (refuses : ∀ k a, a ≠ terminator → ¬ inside a → ∃ c, step (collecting k) a = .inr c ∧ ¬ wanted c)

include leaves stays refuses

theorem stops_text (want : wanted b) (k : List α) :
    Stops step (collecting k) as b rest ↔
      ∃ front behind, as = front ++ terminator :: behind ∧ (∀ a ∈ front, a ≠ terminator ∧ inside a) ∧
        Stops step (next (k ++ front)) behind b rest := by
  refine ((textLoop collecting next inside terminator leaves stays refuses b).stops_iff want).trans ⟨?_, ?_⟩
  · rintro (⟨front, behind, k', split, ⟨within, folds⟩, stops⟩ | ⟨-, _, _, _, -, -, -, failed⟩)
    · cases (foldlM_some_append k front).symm.trans folds
      exact ⟨front, behind, split, within, stops⟩
    · cases failed
  · rintro ⟨front, behind, split, within, stops⟩
    exact .inl ⟨front, behind, k ++ front, split, ⟨within, foldlM_some_append k front⟩, stops⟩

theorem stops_first_text {start : σ} (want : wanted b)
    (enters : ∀ a, a ≠ terminator → inside a → step start a = step (collecting []) a)
    (refuse : ∀ a, ¬ (a ≠ terminator ∧ inside a) → ∃ c, step start a = .inr c ∧ ¬ wanted c) :
    Stops step start as b rest ↔
      ∃ front behind, front ≠ [] ∧ as = front ++ terminator :: behind ∧ (∀ a ∈ front, a ≠ terminator ∧ inside a) ∧
        Stops step (next front) behind b rest := by
  refine ((textLoop collecting next inside terminator leaves stays refuses b).stops_first want
    (fun a within => enters a within.1 within.2) refuse).trans ⟨?_, ?_⟩
  · rintro (⟨front, behind, k', some, split, ⟨within, folds⟩, stops⟩ | ⟨-, _, _, _, -, -, -, failed⟩)
    · cases (foldlM_some_append [] front).symm.trans folds
      exact ⟨front, behind, some, split, within, stops⟩
    · cases failed
  · rintro ⟨front, behind, some, split, within, stops⟩
    exact .inl ⟨front, behind, front, some, split, ⟨within, foldlM_some_append [] front⟩, stops⟩

end Text

end Scanner
