import Mathlib.Data.List.Basic

/-!
# A buffer drained by asynchronous writes

A write takes a snapshot of the buffer when it starts, puts it on the wire piece by piece, and
takes as much off the buffer when it completes. Nothing keeps two writes from starting on the same
bytes. `Sound` is what holds as long as no two writes with anything to say overlap: the wire has a
prefix of all that was appended.
-/

namespace Machine

/-- The elements a write has to transmit, and how many it has. -/
structure Write (α : Type) where
  bytes : List α
  sent : Nat

def Write.part {α : Type} (w : Write α) : List α := w.bytes.take w.sent

structure Outbox (α : Type) where
  buffer : List α
  writes : List (Write α)
  written : List α

namespace Outbox

variable {α : Type}

def append (o : Outbox α) (xs : List α) : Outbox α := { o with buffer := o.buffer ++ xs }

def start (o : Outbox α) : Outbox α := { o with writes := o.writes ++ [⟨o.buffer, 0⟩] }

def transmit (o : Outbox α) (i n : Nat) : Option (Outbox α) :=
  match o.writes.drop i with
  | [] => none
  | w :: rest =>
    if w.sent + n ≤ w.bytes.length then
      some { o with
        writes := o.writes.take i ++ { w with sent := w.sent + n } :: rest
        written := o.written ++ (w.bytes.drop w.sent).take n }
    else none

/-- The write at index `i` completes, and takes off the buffer what it transmitted: everything it
had when it succeeds, maybe less when it fails. -/
def complete (o : Outbox α) (i : Nat) (ok : Bool) : Option (Outbox α) :=
  match o.writes.drop i with
  | [] => none
  | w :: rest =>
    if ok = true → w.sent = w.bytes.length then
      some { o with writes := o.writes.take i ++ rest, buffer := o.buffer.drop w.sent }
    else none

theorem transmit_eq_some {o p : Outbox α} {i n : Nat} (taken : o.transmit i n = some p) :
    ∃ before w after, o.writes = before ++ w :: after ∧ w.sent + n ≤ w.bytes.length ∧
      p = { o with
        writes := before ++ { w with sent := w.sent + n } :: after
        written := o.written ++ (w.bytes.drop w.sent).take n } := by
  unfold transmit at taken
  split at taken
  · cases taken
  · rename_i w rest found
    split at taken
    · rename_i fits
      cases taken
      exact ⟨o.writes.take i, w, rest, by rw [← found, List.take_append_drop], fits, rfl⟩
    · cases taken

theorem complete_eq_some {o p : Outbox α} {i : Nat} {ok : Bool} (taken : o.complete i ok = some p) :
    ∃ before w after, o.writes = before ++ w :: after ∧ (ok = true → w.sent = w.bytes.length) ∧
      p = { o with writes := before ++ after, buffer := o.buffer.drop w.sent } := by
  unfold complete at taken
  split at taken
  · cases taken
  · rename_i w rest found
    split at taken
    · rename_i whole
      cases taken
      exact ⟨o.writes.take i, w, rest, by rw [← found, List.take_append_drop], whole, rfl⟩
    · cases taken

/-- What was appended, what is on the wire and what is in the buffer fit together, and at most one
write has anything to transmit. -/
structure Sound (o : Outbox α) (appended : List α) : Prop where
  gone : ∃ gone, appended = gone ++ o.buffer ∧ o.written = gone ++ o.writes.flatMap Write.part
  bounded : ∀ w ∈ o.writes, w.bytes <+: o.buffer ∧ w.sent ≤ w.bytes.length
  alone : o.writes.Pairwise fun v w => v.bytes = [] ∨ w.bytes = []

theorem sound_empty : Sound (⟨[], [], []⟩ : Outbox α) [] :=
  ⟨⟨[], rfl, rfl⟩, fun _ member => absurd member List.not_mem_nil, List.Pairwise.nil⟩

theorem parts_nil {writes : List (Write α)} (empty : ∀ w ∈ writes, w.bytes = []) : writes.flatMap Write.part = [] := by
  rw [List.flatMap_eq_nil_iff]
  intro w member
  rw [Write.part, empty w member, List.take_nil]

theorem others_empty {before after : List (Write α)} {w : Write α}
    (alone : (before ++ w :: after).Pairwise fun v w => v.bytes = [] ∨ w.bytes = []) (some : w.bytes ≠ []) :
    (∀ v ∈ before, v.bytes = []) ∧ ∀ v ∈ after, v.bytes = [] := by
  obtain ⟨-, right, cross⟩ := List.pairwise_append.mp alone
  refine ⟨fun v member => (cross v member w List.mem_cons_self).resolve_right some, fun v member => ?_⟩
  exact ((List.pairwise_cons.mp right).1 v member).resolve_left some

namespace Sound

variable {o p : Outbox α} {appended : List α}

theorem written_prefix (sound : Sound o appended) : o.written <+: appended := by
  obtain ⟨⟨gone, rfl, written⟩, bounded, alone⟩ := sound
  rw [written]
  refine (List.prefix_append_right_inj gone).mpr ?_
  by_cases empty : ∀ w ∈ o.writes, w.bytes = []
  · rw [parts_nil empty]
    exact List.nil_prefix
  · obtain ⟨w, member, some⟩ : ∃ w ∈ o.writes, w.bytes ≠ [] := by
      by_contra none
      exact empty fun w member => by_contra fun some => none ⟨w, member, some⟩
    have bound := (bounded w member).1
    obtain ⟨before, after, split⟩ := List.append_of_mem member
    rw [split] at alone ⊢
    obtain ⟨left, right⟩ := others_empty alone some
    rw [List.flatMap_append, List.flatMap_cons, parts_nil left, parts_nil right, List.nil_append, List.append_nil]
    exact (List.take_prefix _ _).trans bound

/-- With nothing in the buffer and no write under way, the wire has it all. -/
theorem settled (sound : Sound o appended) (empty : o.buffer = []) (none : o.writes = []) : o.written = appended := by
  obtain ⟨⟨gone, rfl, written⟩, -, -⟩ := sound
  rw [written, empty, none, List.flatMap_nil]

theorem append (sound : Sound o appended) (xs : List α) : Sound (o.append xs) (appended ++ xs) := by
  obtain ⟨⟨gone, rfl, written⟩, bounded, alone⟩ := sound
  refine ⟨⟨gone, List.append_assoc _ _ _, written⟩, fun w member => ⟨?_, (bounded w member).2⟩, alone⟩
  exact (bounded w member).1.trans (List.prefix_append _ _)

theorem start (sound : Sound o appended) (quiet : ∀ w ∈ o.writes, w.bytes = []) : Sound o.start appended := by
  obtain ⟨⟨gone, rfl, written⟩, bounded, alone⟩ := sound
  refine ⟨⟨gone, rfl, ?_⟩, fun w member => ?_, ?_⟩
  · rw [Outbox.start, List.flatMap_append, written]
    simp [Write.part]
  · rcases List.mem_append.mp member with old | new
    · exact bounded w old
    · obtain rfl := List.mem_singleton.mp new
      exact ⟨List.prefix_refl _, Nat.zero_le _⟩
  · refine List.pairwise_append.mpr ⟨alone, List.pairwise_singleton _ _, fun v old w _ => .inl (quiet v old)⟩

theorem transmit {i n : Nat} (sound : Sound o appended) (taken : o.transmit i n = some p) : Sound p appended := by
  obtain ⟨before, w, after, split, fits, rfl⟩ := transmit_eq_some taken
  obtain ⟨⟨gone, rfl, written⟩, bounded, alone⟩ := sound
  rw [split] at written bounded alone
  refine ⟨⟨gone, rfl, ?_⟩, fun v member => ?_, ?_⟩
  · have further : (Write.mk w.bytes (w.sent + n)).part = w.part ++ (w.bytes.drop w.sent).take n := List.take_add
    -- The new part belongs behind `w`, and goes to the end of the wire: nothing stands in between.
    have last : after.flatMap Write.part ++ (w.bytes.drop w.sent).take n =
        (w.bytes.drop w.sent).take n ++ after.flatMap Write.part := by
      by_cases empty : w.bytes = []
      · rw [empty, List.drop_nil, List.take_nil, List.append_nil, List.nil_append]
      · rw [parts_nil (others_empty alone empty).2, List.append_nil, List.nil_append]
    rw [written, List.flatMap_append, List.flatMap_append, List.flatMap_cons, List.flatMap_cons, further]
    simp only [List.append_assoc, last]
  · rcases List.mem_append.mp member with left | right
    · exact bounded v (List.mem_append_left _ left)
    · rcases List.mem_cons.mp right with rfl | right
      · exact ⟨(bounded w (List.mem_append_right _ List.mem_cons_self)).1, fits⟩
      · exact bounded v (List.mem_append_right _ (List.mem_cons_of_mem _ right))
  · rw [List.pairwise_append, List.pairwise_cons] at alone ⊢
    obtain ⟨left, right, cross⟩ := alone
    refine ⟨left, right, fun u first v member => ?_⟩
    rcases List.mem_cons.mp member with rfl | later
    · exact cross u first w List.mem_cons_self
    · exact cross u first v (List.mem_cons_of_mem _ later)

theorem complete {i : Nat} {ok : Bool} (sound : Sound o appended) (taken : o.complete i ok = some p) :
    Sound p appended := by
  obtain ⟨before, w, after, split, -, rfl⟩ := complete_eq_some taken
  obtain ⟨⟨gone, rfl, written⟩, bounded, alone⟩ := sound
  rw [split] at written bounded alone
  obtain ⟨held, fits⟩ := bounded w (List.mem_append_right _ List.mem_cons_self)
  have rest : (before ++ after).Sublist (before ++ w :: after) := (List.sublist_cons_self w after).append_left before
  have front : o.buffer = w.part ++ o.buffer.drop w.sent := by
    obtain ⟨behind, whole⟩ := held
    rw [Write.part, ← List.take_append_of_le_length fits, whole, List.take_append_drop]
  refine ⟨⟨gone ++ w.part, ?_, ?_⟩, fun v member => ?_, alone.sublist rest⟩
  · rw [List.append_assoc, ← front]
  · rw [written, List.flatMap_append, List.flatMap_append, List.flatMap_cons]
    by_cases empty : w.bytes = []
    · rw [Write.part, empty, List.take_nil, List.nil_append, List.append_nil]
    · obtain ⟨left, right⟩ := others_empty alone empty
      rw [parts_nil left, parts_nil right]
      simp
  · obtain ⟨inside, bound⟩ := bounded v (rest.subset member)
    refine ⟨?_, bound⟩
    by_cases empty : w.bytes = []
    · have zero : w.sent = 0 := by simpa [empty] using fits
      rw [zero, List.drop_zero]
      exact inside
    · obtain ⟨left, right⟩ := others_empty alone empty
      rw [(List.mem_append.mp member).elim (left v) (right v)]
      exact List.nil_prefix

end Sound

end Outbox

end Machine
