import MiniProtobuf.Machine.Linked

/-!
# Cursors

A cursor goes along the pointers of a linked list while nodes are linked and unlinked around it. What it still has
ahead of it is a part of the list, to which unlinked nodes may have to lead first; what it has visited lies behind
it, in the order of the list.
-/

namespace Links

variable {α : Type*} {l m : Links α} {gone gone' : α → Prop} {p q : Option α} {x : α}

/-- Unlinked nodes lead from one pointer to another. -/
inductive Leads (l : Links α) (gone : α → Prop) : Option α → Option α → Prop
  | here (p : Option α) : Leads l gone p p
  | beyond {x : α} {q : Option α} (unlinked : gone x) (rest : Leads l gone (l.next x) q) : Leads l gone (some x) q

theorem Leads.of_none (leads : Leads l gone none q) : q = none := by
  cases leads
  rfl

theorem Leads.mono (leads : Leads l gone p q) (more : ∀ y, gone y → gone' y)
    (kept : ∀ y, gone y → m.next y = l.next y) : Leads m gone' p q := by
  induction leads with
  | here p => exact .here p
  | beyond unlinked _ ih =>
    refine .beyond (more _ unlinked) ?_
    rw [kept _ unlinked]
    exact ih

theorem Leads.onward (leads : Leads l gone p (some x)) (unlinked : gone x) : Leads l gone p (l.next x) := by
  generalize target : some x = q at leads
  induction leads with
  | here p =>
    subst target
    exact .beyond unlinked (.here _)
  | beyond unlinked _ ih => exact .beyond unlinked (ih target)

/-- A cursor holds the pointer to go to, or is still on the node whose pointer it will take. -/
inductive Spot (α : Type*) where
  | holding (p : Option α)
  | past (x : α)

/-- Where a cursor is, between two parts of the list. -/
inductive Placed (l : Links α) (gone : α → Prop) (behind ahead : List α) : Spot α → Prop
  | holding {p : Option α} (leads : Leads l gone p ahead.head?) : Placed l gone behind ahead (.holding p)
  | past {x : α} (last : behind.getLast? = some x) : Placed l gone behind ahead (.past x)
  /-- The node has been unlinked under the cursor. -/
  | left {x : α} (unlinked : gone x) (leads : Leads l gone (l.next x) ahead.head?) :
    Placed l gone behind ahead (.past x)

theorem Placed.grow {behind ahead behind' ahead' : List α} {spot : Spot α} (placed : Placed l gone behind ahead spot)
    (kept : ∀ y, gone y → m.next y = l.next y) (same : ahead'.head? = ahead.head?)
    (last : ∀ x, behind.getLast? = some x → behind'.getLast? = some x) : Placed m gone behind' ahead' spot := by
  cases placed with
  | holding leads => exact .holding (same ▸ leads.mono (fun _ unlinked => unlinked) kept)
  | past here => exact .past (last _ here)
  | left unlinked leads =>
    refine .left unlinked ?_
    rw [kept _ unlinked, same]
    exact leads.mono (fun _ unlinked => unlinked) kept

variable [DecidableEq α] {xs ys start visited behind ahead : List α} {spot : Spot α} {node : α}

/-- What was visited and is still in the list is behind, and nothing of the start was missed. -/
structure Sweep (xs start visited behind ahead : List α) : Prop where
  split : xs = behind ++ ahead
  nodup : visited.Nodup
  order : (visited.filter (· ∈ xs)).Sublist behind
  met : ∀ x ∈ start, x ∈ xs → x ∈ visited ∨ x ∈ ahead

def Cursor (l : Links α) (gone : α → Prop) (xs start visited : List α) (spot : Spot α) : Prop :=
  ∃ behind ahead, Sweep xs start visited behind ahead ∧ Placed l gone behind ahead spot

theorem cursor_begin (l : Links α) (gone : α → Prop) (xs : List α) : Cursor l gone xs xs [] (.holding xs.head?) :=
  ⟨[], xs, ⟨rfl, List.nodup_nil, .slnil, fun _ _ member => .inr member⟩, .holding (.here _)⟩

theorem Cursor.mono (cursor : Cursor l gone xs start visited spot) (more : ∀ y, gone y → gone' y) :
    Cursor l gone' xs start visited spot := by
  obtain ⟨behind, ahead, sweep, placed⟩ := cursor
  refine ⟨behind, ahead, sweep, ?_⟩
  cases placed with
  | holding leads => exact .holding (leads.mono more fun _ _ => rfl)
  | past last => exact .past last
  | left unlinked leads => exact .left (more _ unlinked) (leads.mono more fun _ _ => rfl)

theorem Cursor.ordered (cursor : Cursor l gone xs start visited spot) :
    visited.Nodup ∧ (visited.filter (· ∈ xs)).Sublist xs := by
  obtain ⟨behind, ahead, sweep, -⟩ := cursor
  refine ⟨sweep.nodup, sweep.order.trans ?_⟩
  rw [sweep.split]
  exact List.sublist_append_left _ _

theorem Cursor.finished (cursor : Cursor l gone xs start visited (.holding none)) (x : α) (first : x ∈ start)
    (still : x ∈ xs) : x ∈ visited := by
  obtain ⟨behind, ahead, sweep, placed⟩ := cursor
  cases placed with
  | holding leads =>
    obtain rfl := List.head?_eq_none_iff.mp leads.of_none
    exact (sweep.met x first still).resolve_right List.not_mem_nil

/-! ### The cursor moves -/

theorem Cursor.advance (holds : l.Holds xs) (cursor : Cursor l gone xs start visited (.past x)) :
    Cursor l gone xs start visited (.holding (l.next x)) := by
  obtain ⟨behind, ahead, sweep, placed⟩ := cursor
  refine ⟨behind, ahead, sweep, ?_⟩
  cases placed with
  | past last =>
    obtain ⟨front, rfl⟩ := List.getLast?_eq_some_iff.mp last
    rw [sweep.split, List.append_assoc, List.singleton_append] at holds
    rw [holds.next]
    exact .holding (.here _)
  | left unlinked leads => exact .holding leads

theorem Sweep.visit (sweep : Sweep xs start visited behind (x :: ahead)) (nodup : xs.Nodup) :
    x ∉ visited ∧ Sweep xs start (visited ++ [x]) (behind ++ [x]) ahead := by
  have here : x ∈ xs := by simp [sweep.split]
  have unseen : x ∉ visited := by
    intro seen
    have back : x ∈ behind := sweep.order.subset (List.mem_filter.mpr ⟨seen, decide_eq_true here⟩)
    have split := sweep.split ▸ nodup
    exact (List.nodup_append.mp split).2.2 x back x List.mem_cons_self rfl
  refine ⟨unseen, ?_, ?_, ?_, fun y first still => ?_⟩
  · rw [sweep.split, List.append_assoc, List.singleton_append]
  · exact List.nodup_append.mpr ⟨sweep.nodup, List.nodup_singleton _, by
      rintro y seen z single rfl
      exact unseen (List.mem_singleton.mp single ▸ seen)⟩
  · rw [List.filter_append, show [x].filter (· ∈ xs) = [x] by simp [here]]
    exact sweep.order.append (List.Sublist.refl _)
  · rcases sweep.met y first still with seen | left
    · exact .inl (List.mem_append_left _ seen)
    · exact (List.mem_cons.mp left).imp (by rintro rfl; simp) id

theorem Sweep.skip (sweep : Sweep xs start visited behind (x :: ahead)) (later : x ∉ start) :
    Sweep xs start visited (behind ++ [x]) ahead := by
  refine ⟨?_, sweep.nodup, sweep.order.trans (List.sublist_append_left _ _), fun y first still => ?_⟩
  · rw [sweep.split, List.append_assoc, List.singleton_append]
  · refine (sweep.met y first still).imp id fun left => (List.mem_cons.mp left).resolve_left ?_
    rintro rfl
    exact later first

/-- A cursor comes to an unlinked node, or to a node of the list that it has not visited. -/
theorem Cursor.pass (holds : l.Holds xs) (cursor : Cursor l gone xs start visited (.holding (some x))) :
    (gone x ∧ Cursor l gone xs start visited (.past x)) ∨
      (x ∈ xs ∧ x ∉ visited ∧ Cursor l gone xs start (visited ++ [x]) (.past x) ∧
        (x ∉ start → Cursor l gone xs start visited (.past x))) := by
  obtain ⟨behind, ahead, sweep, placed⟩ := cursor
  obtain ⟨leads⟩ := placed
  generalize target : ahead.head? = q at leads
  cases leads with
  | here =>
    obtain ⟨rest, rfl⟩ := List.head?_eq_some_iff.mp target
    obtain ⟨unseen, seen⟩ := sweep.visit holds.nodup
    have last : (behind ++ [x]).getLast? = some x := List.getLast?_concat
    refine .inr ⟨by simp [sweep.split], unseen, ⟨_, rest, seen, .past last⟩, fun later => ?_⟩
    exact ⟨_, rest, sweep.skip later, .past last⟩
  | beyond unlinked rest =>
    subst target
    exact .inl ⟨unlinked, behind, ahead, sweep, .left unlinked rest⟩

/-! ### The list changes -/

/-- Nodes that the cursor does not know are added. -/
theorem Sweep.grow {behind' ahead' : List α} (sweep : Sweep xs start visited behind ahead)
    (split : ys = behind' ++ ahead')
    (back : behind.Sublist behind') (front : ahead ⊆ ahead')
    (known : ∀ x, x ∈ start ∨ x ∈ visited → (x ∈ ys ↔ x ∈ xs)) : Sweep ys start visited behind' ahead' := by
  refine ⟨split, sweep.nodup, ?_, fun x first still => ?_⟩
  · have same : visited.filter (· ∈ ys) = visited.filter (· ∈ xs) := by
      apply List.filter_congr
      intro x seen
      rw [decide_eq_decide]
      exact known x (.inr seen)
    rw [same]
    exact sweep.order.trans back
  · exact (sweep.met x first ((known x (.inl first)).mp still)).imp id fun left => front left

/-- A node is put right where the cursor is: in front of the node on which it stands, or out of its way. -/
theorem Sweep.insert (sweep : Sweep (behind ++ ahead) start visited behind ahead)
    (placed : Placed l gone behind ahead spot)
    (known : ∀ x, x ∈ start ∨ x ∈ visited → x ≠ node) (kept : ∀ y, gone y → m.next y = l.next y) :
    Cursor m gone (behind ++ node :: ahead) start visited spot := by
  have same : ∀ x, x ∈ start ∨ x ∈ visited → (x ∈ behind ++ node :: ahead ↔ x ∈ behind ++ ahead) := by
    intro x before
    simp [known x before]
  have around : Sweep (behind ++ node :: ahead) start visited (behind ++ [node]) ahead :=
    sweep.grow (by simp) (List.sublist_append_left _ _) (List.Subset.refl _) same
  cases placed with
  | holding leads => exact ⟨_, _, around, .holding (leads.mono (fun _ unlinked => unlinked) kept)⟩
  | past last =>
    exact ⟨_, _, sweep.grow rfl (List.Sublist.refl _) (List.subset_cons_self _ _) same, .past last⟩
  | left unlinked leads =>
    refine ⟨_, _, around, .left unlinked ?_⟩
    rw [kept _ unlinked]
    exact leads.mono (fun _ unlinked => unlinked) kept

theorem Cursor.insert {a b : List α} (cursor : Cursor l gone (a ++ b) start visited spot)
    (known : ∀ x, x ∈ start ∨ x ∈ visited → x ≠ node) (kept : ∀ y, gone y → m.next y = l.next y) :
    Cursor m gone (a ++ node :: b) start visited spot := by
  obtain ⟨behind, ahead, sweep, placed⟩ := cursor
  have same : ∀ x, x ∈ start ∨ x ∈ visited → (x ∈ a ++ node :: b ↔ x ∈ a ++ b) := by
    intro x before
    simp [known x before]
  rcases List.append_eq_append_iff.mp sweep.split with ⟨c, rfl, rfl⟩ | ⟨c, rfl, rfl⟩
  · cases c with
    | nil =>
      rw [List.append_nil] at sweep placed
      exact sweep.insert placed known kept
    | cons first c =>
      refine ⟨a ++ node :: first :: c, ahead, sweep.grow (by simp) ?_ (List.Subset.refl _) same,
        placed.grow kept rfl ?_⟩
      · exact (List.Sublist.refl a).append (List.sublist_cons_self _ _)
      · simp
  · cases c with
    | nil =>
      rw [List.nil_append, List.append_nil] at *
      exact sweep.insert placed known kept
    | cons first c =>
      refine ⟨behind, first :: c ++ node :: b, sweep.grow (by simp) (List.Sublist.refl _) ?_ same,
        placed.grow kept rfl fun _ last => last⟩
      intro x
      simp
      tauto

theorem Sweep.shrink (sweep : Sweep xs start visited behind ahead) (x : α) :
    Sweep (xs.filter (· ≠ x)) start visited (behind.filter (· ≠ x)) (ahead.filter (· ≠ x)) := by
  refine ⟨?_, sweep.nodup, ?_, fun y first still => ?_⟩
  · rw [sweep.split, List.filter_append]
  · have fewer : visited.filter (· ∈ xs.filter (· ≠ x)) = (visited.filter (· ∈ xs)).filter (· ≠ x) := by
      rw [List.filter_filter]
      apply List.filter_congr
      intro y _
      simp [List.mem_filter, and_comm]
    rw [fewer]
    exact sweep.order.filter _
  · obtain ⟨still, other⟩ := List.mem_filter.mp still
    exact (sweep.met y first still).imp id fun left => List.mem_filter.mpr ⟨left, other⟩

theorem filter_ne_of_not_mem (absent : x ∉ ys) : ys.filter (· ≠ x) = ys := by
  apply List.filter_eq_self.mpr
  rintro y member
  simp only [decide_eq_true_eq]
  rintro rfl
  exact absent member

/-- A node of the list is unlinked, which may be the one that the cursor stands on or the one that it comes to next. -/
theorem Cursor.remove (holds : l.Holds xs) (cursor : Cursor l gone xs start visited spot)
    (more : ∀ y, gone y ∨ y = x → gone' y) (kept : ∀ y, gone y ∨ y = x → m.next y = l.next y) :
    Cursor m gone' (xs.filter (· ≠ x)) start visited spot := by
  obtain ⟨behind, ahead, sweep, placed⟩ := cursor
  rw [sweep.split] at holds
  have onward {p : Option α} (leads : Leads l gone p ahead.head?) :
      Leads m gone' p (ahead.filter (· ≠ x)).head? := by
    have later := leads.mono (fun y unlinked => more y (.inl unlinked)) fun y unlinked => kept y (.inl unlinked)
    cases ahead with
    | nil => exact later
    | cons first rest =>
      by_cases same : first = x
      · subst same
        have absent : first ∉ rest := (List.nodup_cons.mp (List.nodup_append.mp holds.nodup).2.1).1
        rw [List.filter_cons_of_neg (by simp), filter_ne_of_not_mem absent, ← holds.next, ← kept first (.inr rfl)]
        exact later.onward (more first (.inr rfl))
      · rw [List.filter_cons_of_pos (by simpa using same)]
        exact later
  refine ⟨_, _, sweep.shrink x, ?_⟩
  cases placed with
  | holding leads => exact .holding (onward leads)
  | @past y last =>
    obtain ⟨front, rfl⟩ := List.getLast?_eq_some_iff.mp last
    rw [List.append_assoc, List.singleton_append] at holds
    by_cases same : y = x
    · subst same
      refine .left (more y (.inr rfl)) ?_
      rw [kept y (.inr rfl), holds.next]
      exact onward (.here _)
    · refine .past ?_
      rw [List.filter_append, List.filter_cons_of_pos (by simpa using same), List.filter_nil, List.getLast?_concat]
  | left unlinked leads =>
    refine .left (more _ (.inl unlinked)) ?_
    rw [kept _ (.inl unlinked)]
    exact onward leads

end Links
