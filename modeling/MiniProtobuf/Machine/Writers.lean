import Mathlib.Data.List.Basic
import Mathlib.Data.List.Perm.Basic

/-!
# Writers that share a wire

Each writer puts its pieces on the wire one by one, and nothing orders the pieces of different
writers. `Sound` is what holds as long as no writer puts anything between the pieces of another:
the wire has the wholes of the finished writers, in some order, and the start of at most one more.
-/

namespace Machine

structure Writer (α : Type) where
  done : List α
  left : List (List α)

namespace Writer

variable {α : Type}

def whole (w : Writer α) : List α := w.done ++ w.left.flatten

def finished (w : Writer α) : Bool := w.left.flatten.isEmpty

/-- Some of it is on the wire, and some is not. -/
def midway (w : Writer α) : Bool := !w.done.isEmpty && !w.finished

theorem whole_of_finished {w : Writer α} (finished : w.finished = true) : w.whole = w.done := by
  rw [whole, List.isEmpty_iff.mp finished, List.append_nil]

theorem not_midway_of_finished {w : Writer α} (finished : w.finished = true) : w.midway = false := by
  simp [midway, finished]

theorem done_of_fresh {w : Writer α} (unfinished : w.finished = false) (fresh : w.midway = false) : w.done = [] := by
  simpa [midway, unfinished] using fresh

end Writer

structure Writers (α : Type) where
  writers : List (Writer α)
  wire : List α

namespace Writers

variable {α : Type}

def start (s : Writers α) (pieces : List (List α)) : Writers α := { s with writers := s.writers ++ [⟨[], pieces⟩] }

def write (s : Writers α) (i : Nat) : Option (Writers α) :=
  match s.writers.drop i with
  | ⟨done, piece :: left⟩ :: rest => some ⟨s.writers.take i ++ ⟨done ++ piece, left⟩ :: rest, s.wire ++ piece⟩
  | _ => none

/-- That piece is empty, or no other writer is midway. -/
def alone (s : Writers α) (i : Nat) : Bool :=
  match s.writers.drop i with
  | ⟨_, piece :: _⟩ :: rest => piece.isEmpty || (s.writers.take i ++ rest).all fun w => !w.midway
  | _ => true

def Done (s : Writers α) : Prop := ∀ w ∈ s.writers, w.left = []

theorem write_eq_some {s t : Writers α} {i : Nat} (taken : s.write i = some t) :
    ∃ before done piece left after, s.writers = before ++ ⟨done, piece :: left⟩ :: after ∧
      t = ⟨before ++ ⟨done ++ piece, left⟩ :: after, s.wire ++ piece⟩ ∧
      (s.alone i = true → piece = [] ∨ ∀ w ∈ before ++ after, w.midway = false) := by
  unfold write at taken
  split at taken
  · rename_i done piece left rest found
    cases taken
    refine ⟨s.writers.take i, done, piece, left, rest, by rw [← found, List.take_append_drop], rfl, fun alone => ?_⟩
    simp only [Writers.alone, found, Bool.or_eq_true, List.isEmpty_iff, List.all_eq_true, Bool.not_eq_eq_eq_not,
      Bool.not_true] at alone
    exact alone
  · cases taken

theorem wholes_write {s t : Writers α} {i : Nat} (taken : s.write i = some t) :
    t.writers.map Writer.whole = s.writers.map Writer.whole := by
  obtain ⟨before, done, piece, left, after, parts, rfl, -⟩ := write_eq_some taken
  rw [parts]
  simp [Writer.whole]

structure Sound (s : Writers α) : Prop where
  ordered : ∃ order : List (List α), order.Perm ((s.writers.filter Writer.finished).map Writer.whole) ∧
    s.wire = order.flatten ++ (s.writers.filter Writer.midway).flatMap Writer.done
  alone : s.writers.Pairwise fun v w => v.midway = false ∨ w.midway = false

theorem sound_empty : Sound (⟨[], []⟩ : Writers α) := ⟨⟨[], List.Perm.nil, rfl⟩, List.Pairwise.nil⟩

namespace Sound

variable {s t : Writers α}

/-- Once every writer is done, the wire is their wholes in some order. -/
theorem settled (sound : Sound s) (done : s.Done) :
    ∃ order : List (List α), order.Perm (s.writers.map Writer.whole) ∧ s.wire = order.flatten := by
  obtain ⟨order, perm, wire⟩ := sound.ordered
  have finished : ∀ w ∈ s.writers, w.finished = true := by
    intro w member
    rw [Writer.finished, done w member]
    rfl
  have none : s.writers.filter Writer.midway = [] := by
    apply List.filter_eq_nil_iff.mpr
    intro w member
    rw [Writer.not_midway_of_finished (finished w member)]
    exact Bool.false_ne_true
  rw [List.filter_eq_self.mpr finished] at perm
  rw [none, List.flatMap_nil, List.append_nil] at wire
  exact ⟨order, perm, wire⟩

theorem start (sound : Sound s) (pieces : List (List α)) : Sound (s.start pieces) := by
  obtain ⟨⟨order, perm, wire⟩, alone⟩ := sound
  have fresh : (Writer.mk [] pieces).midway = false := rfl
  constructor
  · cases finished : (Writer.mk [] pieces).finished with
    | true =>
      refine ⟨order ++ [[]], ?_, ?_⟩
      · rw [Writers.start, List.filter_append, List.map_append, List.filter_cons_of_pos finished]
        have whole := Writer.whole_of_finished finished
        rw [List.filter_nil, List.map_singleton, whole]
        exact perm.append_right _
      · rw [Writers.start, List.filter_append, List.filter_cons_of_neg (by simp [fresh])]
        simpa using wire
    | false =>
      refine ⟨order, ?_, ?_⟩
      · rw [Writers.start, List.filter_append, List.filter_cons_of_neg (by simp [finished])]
        simpa using perm
      · rw [Writers.start, List.filter_append, List.filter_cons_of_neg (by simp [fresh])]
        simpa using wire
  · refine List.pairwise_append.mpr ⟨alone, List.pairwise_singleton _ _, ?_⟩
    intro v old w new
    obtain rfl := List.mem_singleton.mp new
    exact .inr fresh

theorem same {before after : List (Writer α)} {v w : Writer α} (sound : Sound s) (done : w.done = v.done)
    (left : w.left.flatten = v.left.flatten) (parts : s.writers = before ++ v :: after) :
    Sound ⟨before ++ w :: after, s.wire⟩ := by
  obtain ⟨⟨order, perm, wire⟩, alone⟩ := sound
  rw [parts] at perm wire alone
  have finished : w.finished = v.finished := by rw [Writer.finished, Writer.finished, left]
  have midway : w.midway = v.midway := by rw [Writer.midway, Writer.midway, done, finished]
  have whole : w.whole = v.whole := by rw [Writer.whole, Writer.whole, done, left]
  refine ⟨⟨order, ?_, ?_⟩, ?_⟩
  · cases holds : v.finished <;> simpa [List.filter_cons, finished, holds, whole] using perm
  · cases holds : v.midway <;> simpa [List.filter_cons, midway, holds, done] using wire
  · rw [List.pairwise_append, List.pairwise_cons] at alone ⊢
    obtain ⟨front, ⟨first, back⟩, cross⟩ := alone
    rw [midway]
    refine ⟨front, ⟨first, back⟩, fun u old x member => ?_⟩
    rcases List.mem_cons.mp member with rfl | later
    · rw [midway]
      exact cross u old v List.mem_cons_self
    · exact cross u old x (List.mem_cons_of_mem _ later)

theorem write {i : Nat} (sound : Sound s) (alone : s.alone i = true) (taken : s.write i = some t) : Sound t := by
  obtain ⟨before, done, piece, left, after, parts, rfl, clear⟩ := write_eq_some taken
  by_cases empty : piece = []
  · subst empty
    rw [List.append_nil, List.append_nil]
    exact sound.same (v := ⟨done, [] :: left⟩) rfl rfl parts
  · obtain ⟨⟨order, perm, wire⟩, pairwise⟩ := sound
    rw [parts] at perm wire pairwise
    have others := (clear alone).resolve_left empty
    have unfinished : (Writer.mk done (piece :: left)).finished = false := by simp [Writer.finished, empty]
    have still (w : Writer α) (member : w ∈ before ++ after) : ¬ w.midway = true := by
      rw [others w member]
      exact Bool.false_ne_true
    have noBefore : before.filter Writer.midway = [] :=
      List.filter_eq_nil_iff.mpr fun w member => still w (List.mem_append_left after member)
    have noAfter : after.filter Writer.midway = [] :=
      List.filter_eq_nil_iff.mpr fun w member => still w (List.mem_append_right before member)
    -- The open part of the wire, if any, is what this writer has put there.
    have front : s.wire = order.flatten ++ done := by
      cases midway : (Writer.mk done (piece :: left)).midway with
      | true => simpa [noBefore, noAfter, List.filter_cons, midway] using wire
      | false =>
        have none : done = [] := Writer.done_of_fresh unfinished midway
        rw [none, List.append_nil]
        simpa [noBefore, noAfter, List.filter_cons, midway] using wire
    have pairwise' (w : Writer α) : (before ++ w :: after).Pairwise fun v w => v.midway = false ∨ w.midway = false := by
      refine List.pairwise_append.mpr ⟨?_, List.pairwise_cons.mpr ⟨?_, ?_⟩, ?_⟩
      · exact (List.pairwise_append.mp pairwise).1
      · exact fun v later => .inr (others v (List.mem_append_right before later))
      · exact (List.pairwise_cons.mp (List.pairwise_append.mp pairwise).2.1).2
      · exact fun v old _ _ => .inl (others v (List.mem_append_left after old))
    refine ⟨?_, pairwise' _⟩
    cases finished : (Writer.mk (done ++ piece) left).finished with
    | true =>
      have closed := Writer.not_midway_of_finished finished
      have whole := Writer.whole_of_finished finished
      refine ⟨order ++ [done ++ piece], ?_, ?_⟩
      · simp only [List.filter_append, List.filter_cons, unfinished, finished, Bool.false_eq_true, if_false, if_true,
          List.map_append, List.map_cons, whole] at perm ⊢
        exact (perm.append_right _).trans (by
          rw [List.append_assoc]
          exact List.Perm.append_left _ List.perm_append_comm)
      · simp [noBefore, noAfter, closed, front]
    | false =>
      have midway : (Writer.mk (done ++ piece) left).midway = true := by simp [Writer.midway, finished, empty]
      refine ⟨order, ?_, ?_⟩
      · simpa [List.filter_cons, unfinished, finished] using perm
      · simp [noBefore, noAfter, midway, front]

end Sound

end Writers

end Machine
