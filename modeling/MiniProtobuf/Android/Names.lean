import MiniProtobuf.Android.Reading

/-!
# Names of nested types

A nested type has dots in its proto name and dollar signs in its class name. The two translations
only rewrite the package, so they are inverse to each other on the top-level types alone.
-/

namespace MiniProtobuf
open Wire BaseCmd

/-- The proto name of a type, given by its path. -/
def protoName (path : List JavaString) : JavaString := "BaseCmd.".toList ++ ['.'].intercalate path

def className (path : List JavaString) : JavaString := "BaseCmd.Cmd$".toList ++ ['$'].intercalate path

theorem count_intercalate {separator c : Char} {path : List JavaString} (absent : ∀ A ∈ path, A.count c = 0) :
    ([separator].intercalate path).count c = if separator = c then path.length - 1 else 0 := by
  induction path with
  | nil => simp
  | cons A path ih =>
    have first := absent A List.mem_cons_self
    cases path with
    | nil => simp [first]
    | cons B path =>
      have rest := ih fun X member => absent X (List.mem_cons_of_mem A member)
      rw [List.intercalate_cons_cons, List.count_append, List.count_append, first, rest]
      split
      · rename_i same
        subst same
        simp
        omega
      · rename_i other
        simp [other]

theorem Identifier.count {A : JavaString} (identifier : Identifier A) {c : Char} (other : c.isAlphanum = false)
    (plain : c ≠ '_') : A.count c = 0 := by
  apply List.count_eq_zero.mpr
  intro member
  have differs := identifier.ne other plain c member
  rw [beq_self_eq_true] at differs
  cases differs

theorem count_named {front : JavaString} {separator c : Char} {path : List JavaString} {n : Nat}
    (identifiers : ∀ A ∈ path, Identifier A) (other : c.isAlphanum = false) (plain : c ≠ '_')
    (first : front.count c = n) :
    (front ++ [separator].intercalate path).count c = n + if separator = c then path.length - 1 else 0 := by
  rw [List.count_append, first, count_intercalate fun A member => (identifiers A member).count other plain]

section Path

variable {path : List JavaString}

theorem count_protoName (identifiers : ∀ A ∈ path, Identifier A) (some : path ≠ []) :
    (protoName path).count '.' = path.length := by
  have positive := List.length_pos_of_ne_nil some
  have parts : (protoName path).count '.' = 1 + (path.length - 1) :=
    count_named identifiers (by decide) (by decide) (by decide)
  omega

theorem count_className (identifiers : ∀ A ∈ path, Identifier A) : (className path).count '.' = 1 :=
  count_named identifiers (by decide) (by decide) (by decide)

theorem count_protoTypeName2JavaClassName (type : JavaString) :
    (protoTypeName2JavaClassName type).count '.' = type.count '.' :=
  Pattern.count_replaceAll (by decide)

theorem count_lookupName (type : JavaString) : (lookupName type).count '.' = type.count '.' := by
  have stripped : (lookupName type).count '.' = (protoTypeName2JavaClassName type).count '.' :=
    Pattern.count_replaceAll (by decide)
  exact stripped.trans (count_protoTypeName2JavaClassName type)

/-- The way back rewrites the package and leaves the dollar signs. -/
theorem javaClass2ProtoTypeName_path (identifiers : ∀ A ∈ path, Identifier A) :
    javaClass2ProtoTypeName ("class ".toList ++ className path) = "BaseCmd.".toList ++ ['$'].intercalate path := by
  have spaceless : ∀ a ∈ ['$'].intercalate path, (a == ' ') = false := by
    have none := @count_intercalate '$' ' ' path fun A member => (identifiers A member).count (by decide) (by decide)
    intro a member
    apply beq_false_of_ne
    rintro rfl
    exact List.count_eq_zero.mp none member
  calc javaClass2ProtoTypeName ("class ".toList ++ className path) =
        javaClass2ProtoTypeName ("class BaseCmd.Cmd$".toList ++ ['$'].intercalate path) :=
        congrArg javaClass2ProtoTypeName (class_parts _).symm
    _ = _ := javaClass2ProtoTypeName_class spaceless

theorem intercalate_eq_iff (identifiers : ∀ A ∈ path, Identifier A) (some : path ≠ []) :
    ['$'].intercalate path = ['.'].intercalate path ↔ path.length = 1 := by
  have positive := List.length_pos_of_ne_nil some
  constructor
  · intro same
    have counts := congrArg (List.count '.') same
    rw [count_intercalate fun A member => (identifiers A member).count (by decide) (by decide),
      count_intercalate fun A member => (identifiers A member).count (by decide) (by decide)] at counts
    simp at counts
    omega
  · intro one
    obtain ⟨X, rfl⟩ := List.length_eq_one_iff.mp one
    rw [List.intercalate_singleton, List.intercalate_singleton]

theorem protoName_single (X : JavaString) : protoName [X] = "BaseCmd.".toList ++ X :=
  congrArg ("BaseCmd.".toList ++ ·) List.intercalate_singleton

theorem className_single (X : JavaString) : className [X] = "BaseCmd.Cmd$".toList ++ X :=
  congrArg ("BaseCmd.Cmd$".toList ++ ·) List.intercalate_singleton

theorem protoTypeName2JavaClassName_single {X : JavaString} (identifier : Identifier X) :
    protoTypeName2JavaClassName (protoName [X]) = "class BaseCmd.Cmd$".toList ++ X :=
  (congrArg protoTypeName2JavaClassName (protoName_single X)).trans (protoTypeName2JavaClassName_type identifier)

end Path

/-- The three translations that a message goes through give the names of the other side just for the
types that are not nested. -/
theorem names_survive_iff_top {path : List JavaString} (some : path ≠ []) (identifiers : ∀ A ∈ path, Identifier A) :
    (protoTypeName2JavaClassName (protoName path) = "class ".toList ++ className path ↔ path.length = 1) ∧
      (javaClass2ProtoTypeName ("class ".toList ++ className path) = protoName path ↔ path.length = 1) ∧
      (lookupName (protoName path) = className path ↔ path.length = 1) := by
  have dots := count_protoName identifiers some
  have dot := count_className identifiers
  refine ⟨⟨fun same => ?_, fun one => ?_⟩, ?_, ⟨fun same => ?_, fun one => ?_⟩⟩
  -- The rewriting keeps every dot, and a class name has one: a nested proto name has too many.
  · have counts := congrArg (List.count '.') same
    have front : ("class ".toList).count '.' = 0 := by decide
    have whole : ("class ".toList ++ className path).count '.' = 0 + 1 :=
      List.count_append.trans (congrArg₂ (· + ·) front dot)
    have kept := count_protoTypeName2JavaClassName (protoName path)
    omega
  · obtain ⟨X, rfl⟩ := List.length_eq_one_iff.mp one
    calc protoTypeName2JavaClassName (protoName [X]) = "class BaseCmd.Cmd$".toList ++ X :=
          protoTypeName2JavaClassName_single (identifiers X List.mem_cons_self)
      _ = "class ".toList ++ ("BaseCmd.Cmd$".toList ++ X) := class_parts X
      _ = "class ".toList ++ className [X] := congrArg _ (className_single X).symm
  -- The way back keeps every dollar sign.
  · refine Iff.trans ⟨fun same => ?_, fun same => ?_⟩ (intercalate_eq_iff identifiers some)
    · exact List.append_cancel_left ((javaClass2ProtoTypeName_path identifiers).symm.trans same)
    · exact (javaClass2ProtoTypeName_path identifiers).trans (congrArg _ same)
  · have counts := congrArg (List.count '.') same
    have kept := count_lookupName (protoName path)
    omega
  · obtain ⟨X, rfl⟩ := List.length_eq_one_iff.mp one
    have identifier := identifiers X List.mem_cons_self
    calc lookupName (protoName [X]) =
          Pattern.replaceAll (Pattern.literal "class ".toList) [] ("class BaseCmd.Cmd$".toList ++ X) :=
          congrArg (Pattern.replaceAll _ []) (protoTypeName2JavaClassName_single identifier)
      _ = "BaseCmd.Cmd$".toList ++ X := strip_class identifier
      _ = className [X] := (className_single X).symm

theorem names_survive_iff_top_reqMove :
    protoTypeName2JavaClassName (protoName ["reqMove".toList]) = "class ".toList ++ className ["reqMove".toList] ∧
      javaClass2ProtoTypeName ("class ".toList ++ className ["reqMove".toList]) = protoName ["reqMove".toList] := by
  have all := @names_survive_iff_top ["reqMove".toList] (by decide) fun A member =>
    (List.mem_singleton.mp member) ▸ (by decide)
  exact ⟨all.1.mpr rfl, all.2.1.mpr rfl⟩

/-- The names of `sUser.ePhoneNumber` are not translated either way: C++ does not know the type that the
Android client names, and the Android client does not find the class of the type that C++ names. -/
theorem nested_type_lost :
    let path := ["sUser".toList, "ePhoneNumber".toList]
    let m : Pool.baseCmd.Message := Message.ePhoneNumber {}
    asText (Message.getTypeName m) = protoName path ∧ javaBaseCmd.getName m = className path ∧
      (Message.createMessage (getBytes (javaClass2ProtoTypeName (classString javaBaseCmd m)))).isNone = true ∧
      (javaBaseCmd.forName (lookupName (asText (Message.getTypeName m)))).isNone = true ∧
      (parse javaBaseCmd ⟨frame .baseCmd m, []⟩).1.unchecked = true := by
  decide +kernel

end MiniProtobuf
