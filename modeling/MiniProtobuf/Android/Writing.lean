import MiniProtobuf.Android.Model
import MiniProtobuf.Android.BaseCmd

/-!
# Concurrent sends

Every call of `Send` has a thread of its own, and the five pieces of its frame go out without a lock.
The frames stay whole as long as no thread writes while another one is in the middle of its frame.
-/

namespace MiniProtobuf
open Wire BaseCmd Machine

variable {P : Pool} {J : JavaRuntime P}

/-- The step condition: a thread writes nothing while another one has a frame half written. -/
def WritesAlone (s : Writers UInt8) : WriteAction P → Prop
  | .send _ => True
  | .write i => s.alone i = true

theorem step_writes {s t : Writers UInt8} {a : WriteAction P} {log seen : List P.Message} (sound : s.Sound)
    (frames : s.writers.map Writer.whole = log.map fun m => (writeRunnable J m).flatten) (alone : WritesAlone s a)
    (taken : (writeMachine J).step s a = some (t, seen)) :
    t.Sound ∧ t.writers.map Writer.whole = (log ++ seen).map fun m => (writeRunnable J m).flatten := by
  cases a with
  | send msg =>
    cases taken
    refine ⟨sound.start _, ?_⟩
    rw [Writers.start, List.map_append, List.map_append, frames]
    rfl
  | write i =>
    obtain ⟨t, some, same⟩ := Option.map_eq_some_iff.mp taken
    cases same
    rw [List.append_nil, Writers.wholes_write some]
    exact ⟨sound.write alone some, frames⟩

/-- Once all threads are done, the wire has the frame of every message sent, each whole. -/
theorem writes_alone_whole {s : Writers UInt8} {actions : List (WriteAction P)} {messages : List P.Message}
    (alone : (writeMachine J).Meets WritesAlone ⟨[], []⟩ actions)
    (runs : (writeMachine J).run ⟨[], []⟩ actions = some (s, messages)) (done : s.Done) :
    ∃ order : List Bytes, order.Perm (messages.map fun m => (writeRunnable J m).flatten) ∧ s.wire = order.flatten := by
  let Inv (_ : List (WriteAction P)) (log : List P.Message) (s : Writers UInt8) : Prop :=
    s.Sound ∧ s.writers.map Writer.whole = log.map fun m => (writeRunnable J m).flatten
  have initial : Inv [] [] ⟨[], []⟩ := ⟨Writers.sound_empty, rfl⟩
  have last : Inv actions messages s := by
    refine Machine.run_induct Inv ?_ initial alone runs
    intro hist log s a t seen before cond taken
    exact step_writes before.1 before.2 cond taken
  obtain ⟨sound, frames⟩ := last
  rw [← frames]
  exact sound.settled done

theorem writes_alone_whole_two_moves :
    let first : Pool.baseCmd.Message := Message.reqMove ⟨1, 2⟩
    let second : Pool.baseCmd.Message := Message.reqMove ⟨3, 4⟩
    let actions : List (WriteAction .baseCmd) :=
      [.send first, .write 0, .send second] ++ List.replicate 4 (.write 0) ++ List.replicate 5 (.write 1)
    ∃ s, (writeMachine javaBaseCmd).run ⟨[], []⟩ actions = some (s, [first, second]) ∧
      ∃ order : List Bytes,
        order.Perm ([first, second].map fun m => (writeRunnable javaBaseCmd m).flatten) ∧ s.wire = order.flatten := by
  intro first second actions
  have evaluates : ((writeMachine javaBaseCmd).run ⟨[], []⟩ actions).any
      (fun (s, log) => s.writers.all (fun w => w.left.isEmpty) ∧ log = [first, second]) = true := by
    decide +kernel
  obtain ⟨s, log, runs, seen⟩ := Machine.exists_run evaluates
  obtain ⟨finished, rfl⟩ := of_decide_eq_true seen
  have done : s.Done := fun w member => List.isEmpty_iff.mp (List.all_eq_true.mp finished w member)
  have alone : (writeMachine javaBaseCmd).Meets WritesAlone ⟨[], []⟩ actions := by
    refine @Machine.meets_of_checks _ _ _ _ _ _ _ (fun s a => match a with
      | .send _ => true
      | .write i => s.alone i) ?_ (by decide +kernel)
    intro s a passes
    cases a with
    | send msg => trivial
    | write i => exact passes
  exact ⟨s, runs, writes_alone_whole alone runs done⟩

/-- Two threads write the head of the same message one after the other, and then the rest: the wire
is not the two frames. -/
theorem interleaved_writes_mix_frames :
    let m : Pool.baseCmd.Message := Message.reqMove ⟨1, 2⟩
    let actions : List (WriteAction .baseCmd) :=
      [.send m, .send m, .write 0, .write 1] ++ List.replicate 4 (.write 0) ++ List.replicate 4 (.write 1)
    ∃ s, (writeMachine javaBaseCmd).run ⟨[], []⟩ actions = some (s, [m, m]) ∧ s.Done ∧
      ¬ ∃ order : List Bytes,
        order.Perm ([m, m].map fun m => (writeRunnable javaBaseCmd m).flatten) ∧ s.wire = order.flatten := by
  intro m actions
  let frame := (writeRunnable javaBaseCmd m).flatten
  have evaluates : ((writeMachine javaBaseCmd).run ⟨[], []⟩ actions).any
      (fun (s, log) => s.writers.all (fun w => w.left.isEmpty) ∧ log = [m, m] ∧ s.wire ≠ frame ++ frame) = true := by
    decide +kernel
  obtain ⟨s, log, runs, seen⟩ := Machine.exists_run evaluates
  obtain ⟨finished, rfl, mixed⟩ := of_decide_eq_true seen
  refine ⟨s, runs, fun w member => List.isEmpty_iff.mp (List.all_eq_true.mp finished w member), ?_⟩
  rintro ⟨order, perm, wire⟩
  have both : order = [frame, frame] := List.perm_replicate.mp (show order.Perm (List.replicate 2 frame) from perm)
  apply mixed
  rw [wire, both]
  exact congrArg (frame ++ ·) (List.append_nil frame)

end MiniProtobuf
