import Mathlib.Data.List.Infix

/-!
Paths as lists of components between separators, and their lexical resolution: `here` and empty components
are dropped, and `up` takes back the component before it.
-/

namespace Path

variable {α : Type} (sep : α → Bool)

def split : List α → List (List α)
  | [] => [[]]
  | a :: as =>
    if sep a then [] :: split as
    else
      match split as with
      | [] => [[a]]
      | c :: cs => (a :: c) :: cs

theorem split_ne_nil (as : List α) : split sep as ≠ [] := by
  cases as with
  | nil => exact List.cons_ne_nil _ _
  | cons a as =>
    rw [split]
    split
    · exact List.cons_ne_nil _ _
    · cases split sep as <;> exact List.cons_ne_nil _ _

variable {sep}

theorem split_cons_sep {a : α} (isSep : sep a = true) (as : List α) : split sep (a :: as) = [] :: split sep as := by
  rw [split, if_pos isSep]

theorem exists_split_cons {a : α} (other : ¬ sep a = true) (as : List α) :
    ∃ first others, split sep as = first :: others ∧ split sep (a :: as) = (a :: first) :: others := by
  obtain ⟨first, others, shape⟩ := List.exists_cons_of_ne_nil (split_ne_nil sep as)
  exact ⟨first, others, shape, by rw [split, if_neg other, shape]⟩

theorem split_append_sep {a : α} (isSep : sep a = true) (as bs : List α) :
    split sep (as ++ a :: bs) = split sep as ++ split sep bs := by
  induction as with
  | nil => exact split_cons_sep isSep bs
  | cons c as ih =>
    by_cases other : sep c = true
    · rw [List.cons_append, split_cons_sep other, split_cons_sep other, ih, List.cons_append]
    · rw [List.cons_append, split, split, ih, if_neg other, if_neg other]
      obtain ⟨first, others, shape, -⟩ := exists_split_cons other as
      rw [shape]
      rfl

/-- The first component is where the path starts. -/
theorem isPrefix_of_split {as first : List α} {others : List (List α)} (shape : split sep as = first :: others) :
    first <+: as := by
  induction as generalizing first others with
  | nil =>
    cases shape
    exact List.prefix_rfl
  | cons a as ih =>
    by_cases isSep : sep a = true
    · cases (split_cons_sep isSep as).symm.trans shape
      exact List.nil_prefix
    · obtain ⟨inner, _, inside, whole⟩ := exists_split_cons isSep as
      cases whole.symm.trans shape
      exact (List.prefix_cons_inj a).mpr (ih inside)

theorem isInfix_of_mem_split {c as : List α} (member : c ∈ split sep as) : c <:+: as := by
  induction as generalizing c with
  | nil =>
    obtain rfl := List.mem_singleton.mp member
    exact List.infix_rfl
  | cons a as ih =>
    have later {d : List α} (inside : d ∈ split sep as) : d <:+: a :: as :=
      (ih inside).trans (List.suffix_cons a as).isInfix
    by_cases isSep : sep a = true
    · rw [split_cons_sep isSep] at member
      rcases List.mem_cons.mp member with rfl | member
      · exact List.nil_infix
      · exact later member
    · obtain ⟨first, others, inside, whole⟩ := exists_split_cons isSep as
      rw [whole] at member
      rcases List.mem_cons.mp member with rfl | member
      · exact (isPrefix_of_split whole).isInfix
      · exact later (by rw [inside]; exact List.mem_cons_of_mem _ member)

variable [DecidableEq α] (up here : List α)

/-- One component, taken from the directory that `stack` names. -/
def enter (stack : List (List α)) (c : List α) : List (List α) :=
  if c = [] ∨ c = here then stack
  else if c = up then if stack = [] ∨ stack.getLast? = some up then stack ++ [up] else stack.dropLast
  else stack ++ [c]

variable (sep)

def resolve (path : List α) : List (List α) := (split sep path).foldl (enter up here) []

/-- The path is absolute when the root is, and resolves to something below it. -/
def Inside (root path : List α) : Prop :=
  root.head?.map sep = path.head?.map sep ∧ resolve sep up here root <+: resolve sep up here path

instance (root path : List α) : Decidable (Inside sep up here root path) :=
  inferInstanceAs (Decidable (_ ∧ _))

variable {sep up here}

theorem foldl_enter {components : List (List α)} (stays : up ∉ components) (stack : List (List α)) :
    stack <+: components.foldl (enter up here) stack := by
  induction components generalizing stack with
  | nil => exact List.prefix_rfl
  | cons c components ih =>
    obtain ⟨other, stays⟩ := not_or.mp (fun either => stays (List.mem_cons.mpr either))
    refine List.IsPrefix.trans ?_ (ih stays _)
    rw [enter]
    split
    · exact List.prefix_rfl
    · rw [if_neg (fun same => other same.symm)]
      exact List.prefix_append _ _

/-- A path that goes on behind a root with a separator, and never goes up there, stays inside the root. -/
theorem inside_append {a : α} (isSep : sep a = true) {root rest : List α} (rooted : root ≠ [])
    (stays : up ∉ split sep rest) : Inside sep up here root (root ++ a :: rest) := by
  obtain ⟨c, root, rfl⟩ := List.exists_cons_of_ne_nil rooted
  refine ⟨rfl, ?_⟩
  rw [resolve, resolve, split_append_sep isSep, List.foldl_append]
  exact foldl_enter stays _

end Path
