import Mathlib.Data.List.Basic

/-!
# Replacing the matches of a pattern

A pattern is one test for each element. Matches are replaced from the left, and do not overlap.
-/

namespace Pattern

variable {α : Type}

def literal [BEq α] (s : List α) : List (α → Bool) := s.map fun a b => b == a

/-- What follows a match at the front. -/
def strip : List (α → Bool) → List α → Option (List α)
  | [], s => some s
  | _ :: _, [] => none
  | test :: tests, a :: s => if test a then strip tests s else none

def replaceLoop (pattern : List (α → Bool)) (replacement : List α) : Nat → List α → List α
  | 0, s => s
  | _ + 1, [] => []
  | fuel + 1, a :: s =>
    match strip pattern (a :: s) with
    | some rest => replacement ++ replaceLoop pattern replacement fuel rest
    | none => a :: replaceLoop pattern replacement fuel s

/-- The pattern is not empty, so every round moves on. -/
def replaceAll (pattern : List (α → Bool)) (replacement s : List α) : List α :=
  replaceLoop pattern replacement s.length s

variable {pattern : List (α → Bool)} {replacement front s : List α} {test : α → Bool}

theorem strip_append {rest : List α} (whole : strip pattern front = some []) :
    strip pattern (front ++ rest) = some rest := by
  induction pattern generalizing front with
  | nil =>
    cases whole
    rfl
  | cons test tests ih =>
    cases front with
    | nil => cases whole
    | cons a front =>
      rw [strip] at whole
      rw [List.cons_append, strip]
      split at whole
      · rename_i passes
        rw [if_pos passes]
        exact ih whole
      · cases whole

/-- Text in which some test never passes has no match. -/
theorem strip_none (member : test ∈ pattern) (fails : ∀ a ∈ s, test a = false) : strip pattern s = none := by
  induction pattern generalizing s with
  | nil => cases member
  | cons first tests ih =>
    cases s with
    | nil => rfl
    | cons a s =>
      rw [strip]
      rcases List.mem_cons.mp member with rfl | later
      · rw [if_neg (by rw [fails a List.mem_cons_self]; exact Bool.false_ne_true)]
      · rw [ih later fun b inside => fails b (List.mem_cons_of_mem _ inside), ite_self]

theorem replaceLoop_none {fuel : Nat} (member : test ∈ pattern) (fails : ∀ a ∈ s, test a = false) :
    replaceLoop pattern replacement fuel s = s := by
  induction fuel generalizing s with
  | zero => rfl
  | succ fuel ih =>
    cases s with
    | nil => rfl
    | cons a s =>
      rw [replaceLoop, strip_none member fails]
      exact congrArg (a :: ·) (ih fun b inside => fails b (List.mem_cons_of_mem _ inside))

theorem replaceAll_front (whole : strip pattern front = some []) (present : front ≠ []) (member : test ∈ pattern)
    (fails : ∀ a ∈ s, test a = false) : replaceAll pattern replacement (front ++ s) = replacement ++ s := by
  cases front with
  | nil => exact absurd rfl present
  | cons a front =>
    have found : strip pattern (a :: (front ++ s)) = some s := strip_append whole
    rw [replaceAll, List.cons_append, List.length_cons, replaceLoop, found]
    exact congrArg (replacement ++ ·) (replaceLoop_none member fails)

section Literal

variable [BEq α] [LawfulBEq α] {text rest : List α}

theorem strip_literal (found : strip (literal text) s = some rest) : s = text ++ rest := by
  induction text generalizing s with
  | nil => exact Option.some.inj found
  | cons a text ih =>
    cases s with
    | nil => cases found
    | cons b s =>
      rw [literal, List.map_cons, strip] at found
      split at found
      · rename_i same
        rw [eq_of_beq same, ih found, List.cons_append]
      · cases found

theorem count_replaceLoop {fuel : Nat} {c : α} (same : replacement.count c = text.count c) :
    (replaceLoop (literal text) replacement fuel s).count c = s.count c := by
  induction fuel generalizing s with
  | zero => rfl
  | succ fuel ih =>
    cases s with
    | nil => rfl
    | cons a s =>
      rw [replaceLoop]
      split
      · rename_i rest found
        rw [strip_literal found, List.count_append, List.count_append, ih, same]
      · rw [List.count_cons, List.count_cons, ih]

/-- A replacement that has as many of an element as what it replaces. -/
theorem count_replaceAll {c : α} (same : replacement.count c = text.count c) :
    (replaceAll (literal text) replacement s).count c = s.count c := count_replaceLoop same

end Literal

end Pattern
