import Mathlib.Data.List.Nodup
import Mathlib.Data.List.Basic
import Mathlib.Logic.Function.Basic

/-!
# Doubly linked lists

Nodes with pointers to their neighbours, and the list that the pointers hold. A node that is unlinked keeps its own
pointers, so that a cursor which stands on it can still go on: `Cursor` says what such a cursor has passed and what
it will still meet while nodes are linked and unlinked around it.
-/

/-- The pointers of a list and of its nodes. -/
structure Links (α : Type*) where
  head : Option α
  tail : Option α
  next : α → Option α
  previous : α → Option α

namespace Links

variable {α : Type*}

def empty : Links α := ⟨none, none, fun _ => none, fun _ => none⟩

section Operations

variable [DecidableEq α]

def setNext (l : Links α) (x : α) (p : Option α) : Links α := { l with next := Function.update l.next x p }

def setPrevious (l : Links α) (x : α) (p : Option α) : Links α := { l with previous := Function.update l.previous x p }

/-- There is no result where a null pointer would be followed. -/
def pushBack (l : Links α) (node : α) : Option (Links α) :=
  if l.head.isSome then do
    let l := l.setPrevious node l.tail
    let tail ← l.tail
    let l := l.setNext tail (some node)
    some { l with tail := some node }
  else some { l with head := some node, tail := some node }

def pushFront (l : Links α) (node : α) : Links α :=
  match l.head with
  | some head =>
    let l := l.setNext node (some head)
    let l := l.setPrevious head (some node)
    { l with head := some node }
  | none => { l with head := some node, tail := some node }

/-- The `next` of the node behind a pointer, if there is one. -/
def setNextAt (l : Links α) (node p : Option α) : Links α :=
  { l with next := fun y => if some y = node then p else l.next y }

/-- The `previous` of the node behind a pointer, if there is one. -/
def setPreviousAt (l : Links α) (node p : Option α) : Links α :=
  { l with previous := fun y => if some y = node then p else l.previous y }

def insertBefore (l : Links α) (node before : α) : Links α :=
  let l := l.setPrevious node (l.previous before)
  let l := l.setNext node (some before)
  let l := l.setNextAt (l.previous before) (some node)
  let l := l.setPrevious before (some node)
  { l with head := if some before = l.head then some node else l.head }

def unlink (l : Links α) (node : α) : Links α :=
  let l := l.setPreviousAt (l.next node) (l.previous node)
  let l := l.setNextAt (l.previous node) (l.next node)
  let l := { l with head := if l.head = some node then l.next node else l.head }
  { l with tail := if l.tail = some node then l.previous node else l.tail }

end Operations

/-- The nodes that the pointers lead to, up to a number of them. -/
def walk (l : Links α) : Nat → Option α → List α
  | fuel + 1, some x => x :: walk l fuel (l.next x)
  | _, _ => []

/-! ### The list that is held -/

/-- The pointers run along the nodes, between two pointers. -/
def Row (l : Links α) : Option α → List α → Option α → Prop
  | _, [], _ => True
  | before, x :: xs, after => l.previous x = before ∧ l.next x = xs.head?.or after ∧ Row l (some x) xs after

structure Holds (l : Links α) (xs : List α) : Prop where
  nodup : xs.Nodup
  head : l.head = xs.head?
  tail : l.tail = xs.getLast?
  row : l.Row none xs none

variable {l m : Links α} {xs ys : List α} {before after : Option α} {x y node : α}

theorem row_append :
    l.Row before (xs ++ ys) after ↔
      l.Row before xs (ys.head?.or after) ∧ l.Row (xs.getLast?.or before) ys after := by
  induction xs generalizing before with
  | nil => simp [Row]
  | cons x xs ih =>
    have last : (x :: xs).getLast?.or before = xs.getLast?.or (some x) := by
      rw [List.getLast?_cons, Option.some_or, Option.or_some]
    rw [List.cons_append, Row, Row, ih, last, List.head?_append, Option.or_assoc]
    tauto

/-- A row depends on the pointers of its own nodes only. -/
theorem Row.congr (row : l.Row before xs after) (next : ∀ y ∈ xs, m.next y = l.next y)
    (previous : ∀ y ∈ xs, m.previous y = l.previous y) : m.Row before xs after := by
  induction xs generalizing before with
  | nil => trivial
  | cons x xs ih =>
    obtain ⟨back, forth, rest⟩ := row
    refine ⟨?_, ?_, ?_⟩
    · rw [previous x List.mem_cons_self, back]
    · rw [next x List.mem_cons_self, forth]
    · exact ih rest (fun y member => next y (List.mem_cons_of_mem _ member))
        fun y member => previous y (List.mem_cons_of_mem _ member)

theorem Holds.next {a b : List α} (holds : l.Holds (a ++ x :: b)) : l.next x = b.head? := by
  obtain ⟨-, row⟩ := row_append.mp holds.row
  exact row.2.1.trans (Option.or_none)

theorem Holds.previous {a b : List α} (holds : l.Holds (a ++ x :: b)) : l.previous x = a.getLast? := by
  obtain ⟨-, row⟩ := row_append.mp holds.row
  exact row.1.trans Option.or_none

theorem Row.walk {fuel : Nat} (row : l.Row before xs none) (room : xs.length ≤ fuel) : l.walk fuel xs.head? = xs := by
  induction xs generalizing before fuel with
  | nil => cases fuel <;> rfl
  | cons x xs ih =>
    obtain ⟨-, forth, rest⟩ := row
    cases fuel with
    | zero => cases room
    | succ fuel =>
      rw [List.head?_cons, Links.walk, forth, Option.or_none, ih rest (Nat.le_of_succ_le_succ room)]

theorem holds_empty : (empty : Links α).Holds [] := ⟨List.nodup_nil, rfl, rfl, trivial⟩

/-- Two sets of pointers agree on the nodes outside a list. -/
def AgreeOff (xs : List α) (l m : Links α) : Prop := ∀ y ∉ xs, m.next y = l.next y ∧ m.previous y = l.previous y

section Rules

variable [DecidableEq α]

/-- The pointer from the last node of a row goes elsewhere. -/
theorem Row.redirect_last {p : Option α} (row : l.Row before xs after) (nodup : xs.Nodup)
    (next : ∀ y ∈ xs, m.next y = if some y = xs.getLast? then p else l.next y)
    (previous : ∀ y ∈ xs, m.previous y = l.previous y) : m.Row before xs p := by
  rcases List.eq_nil_or_concat' xs with rfl | ⟨front, last, rfl⟩
  · trivial
  obtain ⟨start, back, -, -⟩ := row_append.mp row
  obtain ⟨-, -, apart⟩ := List.nodup_append.mp nodup
  simp only [List.getLast?_concat, Option.some.injEq] at next
  refine row_append.mpr ⟨start.congr (fun y member => ?_) fun y member => ?_, ?_, ?_, trivial⟩
  · rw [next y (List.mem_append_left _ member), if_neg (apart y member last List.mem_cons_self)]
  · exact previous y (List.mem_append_left _ member)
  · rw [previous last (by simp), back]
  · rw [next last (by simp), if_pos rfl]
    rfl

/-- The pointer back from the first node of a row goes elsewhere. -/
theorem Row.redirect_first {p : Option α} (row : l.Row before xs after) (nodup : xs.Nodup)
    (next : ∀ y ∈ xs, m.next y = l.next y)
    (previous : ∀ y ∈ xs, m.previous y = if some y = xs.head? then p else l.previous y) : m.Row p xs after := by
  cases xs with
  | nil => trivial
  | cons first rest =>
    obtain ⟨-, forth, row⟩ := row
    obtain ⟨absent, -⟩ := List.nodup_cons.mp nodup
    simp only [List.head?_cons, Option.some.injEq] at previous
    refine ⟨?_, ?_, row.congr (fun y member => ?_) fun y member => ?_⟩
    · rw [previous first List.mem_cons_self, if_pos rfl]
    · rw [next first List.mem_cons_self, forth]
    · exact next y (List.mem_cons_of_mem _ member)
    · have other : y ≠ first := by rintro rfl; exact absent member
      rw [previous y (List.mem_cons_of_mem _ member), if_neg other]

/-- A node is put between two parts of the list. -/
theorem Holds.insert {a b : List α} (holds : l.Holds (a ++ b)) (fresh : node ∉ a ++ b)
    (head : m.head = (a ++ node :: b).head?) (tail : m.tail = (a ++ node :: b).getLast?)
    (own : m.next node = b.head? ∧ m.previous node = a.getLast?)
    (next : ∀ y ∈ a ++ b, m.next y = if some y = a.getLast? then some node else l.next y)
    (previous : ∀ y ∈ a ++ b, m.previous y = if some y = b.head? then some node else l.previous y) :
    m.Holds (a ++ node :: b) := by
  obtain ⟨front, rear⟩ := row_append.mp holds.row
  obtain ⟨frontNodup, rearNodup, apart⟩ := List.nodup_append.mp holds.nodup
  refine ⟨List.nodup_middle.mpr (List.nodup_cons.mpr ⟨fresh, holds.nodup⟩), head, tail, row_append.mpr ⟨?_, ?_, ?_, ?_⟩⟩
  · refine front.redirect_last frontNodup (fun y member => next y (List.mem_append_left _ member)) fun y member => ?_
    rw [previous y (List.mem_append_left _ member), if_neg]
    intro first
    exact apart y member y (List.mem_of_mem_head? first.symm) rfl
  · rw [own.2, Option.or_none]
  · rw [own.1, Option.or_none]
  · refine rear.redirect_first rearNodup (fun y member => ?_) fun y member =>
      previous y (List.mem_append_right _ member)
    rw [next y (List.mem_append_right _ member), if_neg]
    intro last
    exact apart y (List.mem_of_getLast? last.symm) y member rfl

/-- A node between two parts of the list is taken out. -/
theorem Holds.remove {a b : List α} (holds : l.Holds (a ++ x :: b))
    (head : m.head = (a ++ b).head?) (tail : m.tail = (a ++ b).getLast?)
    (next : ∀ y ∈ a ++ b, m.next y = if some y = a.getLast? then b.head? else l.next y)
    (previous : ∀ y ∈ a ++ b, m.previous y = if some y = b.head? then a.getLast? else l.previous y) :
    m.Holds (a ++ b) := by
  obtain ⟨front, -, -, rear⟩ := row_append.mp holds.row
  have nodup : (a ++ b).Nodup := (List.nodup_cons.mp (List.nodup_middle.mp holds.nodup)).2
  obtain ⟨frontNodup, rearNodup, apart⟩ := List.nodup_append.mp nodup
  refine ⟨nodup, head, tail, row_append.mpr ⟨?_, ?_⟩⟩
  · rw [Option.or_none]
    refine front.redirect_last frontNodup (fun y member => next y (List.mem_append_left _ member)) fun y member => ?_
    rw [previous y (List.mem_append_left _ member), if_neg]
    intro first
    exact apart y member y (List.mem_of_mem_head? first.symm) rfl
  · rw [Option.or_none]
    refine rear.redirect_first rearNodup (fun y member => ?_) fun y member =>
      previous y (List.mem_append_right _ member)
    rw [next y (List.mem_append_right _ member), if_neg]
    intro last
    exact apart y (List.mem_of_getLast? last.symm) y member rfl

/-! ### The operations -/

theorem Holds.pushBack (holds : l.Holds xs) (fresh : node ∉ xs) (next : l.next node = none)
    (previous : l.previous node = none) :
    ∃ m, l.pushBack node = some m ∧ m.Holds (xs ++ [node]) ∧ AgreeOff (xs ++ [node]) l m := by
  have split : l.Holds (xs ++ []) := by rw [List.append_nil]; exact holds
  have absent : node ∉ xs ++ [] := by rw [List.append_nil]; exact fresh
  unfold Links.pushBack
  cases last : xs.getLast? with
  | none =>
    obtain rfl := List.getLast?_eq_none_iff.mp last
    rw [holds.head]
    exact ⟨_, rfl, split.insert absent rfl rfl ⟨next, previous⟩ (by simp) (by simp), fun _ _ => ⟨rfl, rfl⟩⟩
  | some tail =>
    have inside : tail ∈ xs := List.mem_of_getLast? last
    have starts : l.head.isSome = true := by
      rw [holds.head, List.isSome_head?]
      exact List.ne_nil_of_mem inside
    have apart : node ≠ tail := by rintro rfl; exact fresh inside
    rw [if_pos starts]
    simp only [setPrevious, setNext, holds.tail, last, Option.bind_eq_bind, Option.bind_some]
    refine ⟨_, rfl, split.insert absent ?_ ?_ ?_ ?_ ?_, ?_⟩
    · rw [holds.head, List.head?_append_of_ne_nil _ (List.ne_nil_of_mem inside)]
    · rw [List.getLast?_concat]
    · simp [apart, next, last]
    · intro y member
      simp [Function.update_apply, last]
    · intro y member
      have other : y ≠ node := by rintro rfl; exact absent member
      simp [other]
    · intro y off
      simp only [List.mem_append, List.mem_singleton, not_or] at off
      have other : y ≠ tail := by rintro rfl; exact off.1 inside
      simp [off.2, other]

theorem Holds.pushFront (holds : l.Holds xs) (fresh : node ∉ xs) (next : l.next node = none)
    (previous : l.previous node = none) :
    (l.pushFront node).Holds (node :: xs) ∧ AgreeOff (node :: xs) l (l.pushFront node) := by
  unfold Links.pushFront
  cases xs with
  | nil =>
    rw [holds.head]
    exact ⟨@Holds.insert _ _ _ _ _ [] [] holds fresh rfl rfl ⟨next, previous⟩ (by simp) (by simp),
      fun _ _ => ⟨rfl, rfl⟩⟩
  | cons first rest =>
    have apart : node ≠ first := by rintro rfl; exact fresh List.mem_cons_self
    simp only [setPrevious, setNext, holds.head, List.head?_cons]
    refine ⟨@Holds.insert _ _ _ _ _ [] (first :: rest) holds fresh rfl ?_ ?_ ?_ ?_, ?_⟩
    · rw [holds.tail, List.nil_append, List.getLast?_cons_cons]
    · simp [apart, previous]
    · intro y member
      have other : y ≠ node := by rintro rfl; exact fresh member
      simp [other]
    · intro y member
      simp [Function.update_apply]
    · intro y off
      simp only [List.mem_cons, not_or] at off
      simp [off.1, off.2.1]

theorem insertBefore_next (apart : x ≠ node) (y : α) :
    (l.insertBefore node x).next y =
      if some y = l.previous x then some node else if y = node then some x else l.next y := by
  unfold Links.insertBefore
  simp only [setPrevious, setNext, setNextAt, Function.update_apply, if_neg apart]

theorem insertBefore_previous (y : α) :
    (l.insertBefore node x).previous y =
      if y = x then some node else if y = node then l.previous x else l.previous y := by
  unfold Links.insertBefore
  simp only [setPrevious, setNext, setNextAt, Function.update_apply]

theorem Holds.insertBefore {a b : List α} (holds : l.Holds (a ++ x :: b)) (fresh : node ∉ a ++ x :: b) :
    (l.insertBefore node x).Holds (a ++ node :: x :: b) ∧
      AgreeOff (a ++ node :: x :: b) l (l.insertBefore node x) := by
  have apart : x ≠ node := by rintro rfl; exact fresh (by simp)
  have other : ∀ y ∈ a ++ x :: b, y ≠ node := by rintro y member rfl; exact fresh member
  obtain ⟨-, -, disjoint⟩ := List.nodup_append.mp holds.nodup
  refine ⟨holds.insert fresh ?_ ?_ ⟨?_, ?_⟩ ?_ ?_, ?_⟩
  · show (if some x = l.head then some node else l.head) = _
    rw [holds.head]
    cases a with
    | nil => exact if_pos rfl
    | cons first rest =>
      have different : x ≠ first := by
        rintro rfl
        exact disjoint x List.mem_cons_self x List.mem_cons_self rfl
      simp [different]
  · show l.tail = _
    rw [holds.tail]
    simp
  · have unlike : ¬ some node = a.getLast? := by
      intro last
      exact fresh (List.mem_append_left _ (List.mem_of_getLast? last.symm))
    rw [insertBefore_next apart, holds.previous, if_neg unlike, if_pos rfl]
    rfl
  · rw [insertBefore_previous, if_neg apart.symm, if_pos rfl, holds.previous]
  · intro y member
    rw [insertBefore_next apart, holds.previous, if_neg (other y member)]
  · intro y member
    rw [insertBefore_previous, if_neg (other y member)]
    simp
  · intro y off
    have unlike : ¬ some y = a.getLast? := by
      intro last
      exact off (List.mem_append_left _ (List.mem_of_getLast? last.symm))
    have notNode : y ≠ node := by rintro rfl; exact off (by simp)
    have notHere : y ≠ x := by rintro rfl; exact off (by simp)
    rw [insertBefore_next apart, holds.previous, if_neg unlike, if_neg notNode, insertBefore_previous,
      if_neg notHere, if_neg notNode]
    exact ⟨rfl, rfl⟩

theorem unlink_next (forth : l.next x ≠ some x) (y : α) :
    (l.unlink x).next y = if some y = l.previous x then l.next x else l.next y := by
  unfold Links.unlink
  simp only [setPreviousAt, setNextAt, if_neg forth.symm]

theorem unlink_previous (y : α) :
    (l.unlink x).previous y = if some y = l.next x then l.previous x else l.previous y := by
  unfold Links.unlink
  simp only [setPreviousAt, setNextAt]

theorem unlink_head (forth : l.next x ≠ some x) (back : l.previous x ≠ some x) :
    (l.unlink x).head = if l.head = some x then l.next x else l.head := by
  unfold Links.unlink
  simp only [setPreviousAt, setNextAt, if_neg forth.symm, if_neg back.symm]

theorem unlink_tail (forth : l.next x ≠ some x) :
    (l.unlink x).tail = if l.tail = some x then l.previous x else l.tail := by
  unfold Links.unlink
  simp only [setPreviousAt, setNextAt, if_neg forth.symm]

theorem Holds.unlink {a b : List α} (holds : l.Holds (a ++ x :: b)) :
    (l.unlink x).Holds (a ++ b) ∧ AgreeOff (a ++ b) l (l.unlink x) := by
  have next := holds.next
  have previous := holds.previous
  obtain ⟨absent, -⟩ := List.nodup_cons.mp (List.nodup_middle.mp holds.nodup)
  have forth : l.next x ≠ some x := by
    intro loop
    exact absent (List.mem_append_right _ (List.mem_of_mem_head? (next ▸ loop)))
  have back : l.previous x ≠ some x := by
    intro loop
    exact absent (List.mem_append_left _ (List.mem_of_getLast? (previous ▸ loop)))
  refine ⟨holds.remove ?_ ?_ ?_ ?_, ?_⟩
  · rw [unlink_head forth back, holds.head, next]
    cases a with
    | nil => exact if_pos rfl
    | cons first rest =>
      have different : first ≠ x := by rintro rfl; exact absent List.mem_cons_self
      simp [different]
  · rw [unlink_tail forth, holds.tail, previous]
    rcases List.eq_nil_or_concat' b with rfl | ⟨front, last, rfl⟩
    · simp
    · have different : last ≠ x := by rintro rfl; exact absent (by simp)
      rw [← List.cons_append, ← List.append_assoc, ← List.append_assoc, List.getLast?_concat, List.getLast?_concat,
        if_neg (fun same => different (Option.some.inj same))]
  · intro y member
    rw [unlink_next forth, previous, next]
  · intro y member
    rw [unlink_previous, previous, next]
  · intro y off
    have notLast : ¬ some y = a.getLast? := by
      intro last
      exact off (List.mem_append_left _ (List.mem_of_getLast? last.symm))
    have notFirst : ¬ some y = b.head? := by
      intro first
      exact off (List.mem_append_right _ (List.mem_of_mem_head? first.symm))
    rw [unlink_next forth, unlink_previous, next, previous, if_neg notLast, if_neg notFirst]
    exact ⟨rfl, rfl⟩

end Rules

end Links
