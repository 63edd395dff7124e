import Mathlib.Data.List.TakeWhile
import MiniProtobuf.Machine.Scan
import MiniProtobuf.Http.Model

/-!
# The requests that the parser accepts

`RequestText` is the text of a request: a request line, and fields whose values may go on over lines that
start with blanks. The parser accepts a text exactly when it is one of these and its version numbers stay
inside `int`; outside it, the arithmetic of a version number is undefined behaviour.
-/

namespace MiniProtobuf.Http
open Wire Scanner

/-! ### The texts -/

def IsToken (c : UInt8) : Prop := refused c = false

def IsText (c : UInt8) : Prop := isCtl (toSigned c) = false

def IsBlank (c : UInt8) : Prop := c = chr ' ' ∨ c = chr '\t'

def IsDigit (c : UInt8) : Prop := isDigit (toSigned c) = true

instance (c : UInt8) : Decidable (IsToken c) := inferInstanceAs (Decidable (_ = _))

instance (c : UInt8) : Decidable (IsText c) := inferInstanceAs (Decidable (_ = _))

instance (c : UInt8) : Decidable (IsBlank c) := inferInstanceAs (Decidable (_ ∨ _))

instance (c : UInt8) : Decidable (IsDigit c) := inferInstanceAs (Decidable (_ = _))

/-- A line that continues a value: blanks, which are dropped, and text. -/
structure FoldText where
  blanks : Bytes
  text : Bytes
  some_blank : blanks ≠ []
  blank : ∀ c ∈ blanks, IsBlank c
  plain : ∀ c ∈ text, IsText c
  starts : text.head? ≠ some (chr ' ')

structure FieldText where
  name : Bytes
  value : Bytes
  folds : List FoldText
  some_name : name ≠ []
  token : ∀ c ∈ name, IsToken c
  plain : ∀ c ∈ value, IsText c

/-- What stands before the version number. -/
structure StartText where
  method : Bytes
  uri : Bytes
  some_method : method ≠ []
  token : ∀ c ∈ method, IsToken c
  plain : ∀ c ∈ uri, c ≠ chr ' ' ∧ IsText c

structure NumberText where
  digits : Bytes
  some_digit : digits ≠ []
  digit : ∀ c ∈ digits, IsDigit c

structure RequestText extends StartText where
  major : NumberText
  minor : NumberText
  fields : List FieldText

def FoldText.render (fold : FoldText) : Bytes := fold.blanks ++ fold.text ++ crlf

def FieldText.render (field : FieldText) : Bytes :=
  field.name ++ nameValueSeparator ++ field.value ++ crlf ++ field.folds.flatMap FoldText.render

def StartText.render (start : StartText) : Bytes :=
  start.method ++ [chr ' '] ++ start.uri ++ [chr ' '] ++ ascii "HTTP/"

def RequestText.render (text : RequestText) : Bytes :=
  text.toStartText.render ++ text.major.digits ++ [chr '.'] ++ text.minor.digits ++ crlf ++
    text.fields.flatMap FieldText.render ++ crlf

def FieldText.header (field : FieldText) : Header :=
  ⟨field.name, field.value ++ field.folds.flatMap FoldText.text⟩

def ofDecimal (n : Nat) (digits : Bytes) : Nat := digits.foldl (fun n c => 10 * n + (c.toNat - 48)) n

def NumberText.value (number : NumberText) : Nat := ofDecimal 0 number.digits

/-- The number stays inside `int`, also before `'0'` is subtracted from its last digit. -/
def NumberText.Fits (number : NumberText) : Prop := number.value + 48 < 2 ^ 31

def RequestText.request (text : RequestText) : Request :=
  { method := text.method, uri := text.uri, httpVersionMajor := text.major.value,
    httpVersionMinor := text.minor.value, headers := text.fields.map FieldText.header }

/-! ### Version numbers -/

theorem toSigned_digit {c : UInt8} (digit : IsDigit c) : toSigned c = 48 + ((c.toNat - 48 : Nat) : Int) := by
  have low : toSigned (chr '0') = 48 := by decide
  have high : toSigned (chr '9') = 57 := by decide
  simp only [IsDigit, isDigit, low, high, Bool.and_eq_true, decide_eq_true_eq] at digit
  have byte := c.toNat_lt
  by_cases small : c.toNat < 128
  · simp only [toSigned, if_pos small] at digit ⊢
    omega
  · simp only [toSigned, if_neg small] at digit
    omega

theorem int_of_fits {value : Int} (low : -2 ^ 31 ≤ value) (high : value < 2 ^ 31) : int value = some value :=
  if_pos ⟨low, high⟩

theorem int_of_overflow {value : Int} (high : 2 ^ 31 ≤ value) : int value = none :=
  if_neg fun fits => absurd fits.2 (by omega)

theorem addDigit_eq (n : Nat) {c : UInt8} (digit : IsDigit c) :
    addDigit n c =
      if 10 * n + (c.toNat - 48) + 48 < 2 ^ 31 then some ((10 * n + (c.toNat - 48) : Nat) : Int) else none := by
  have zero : toSigned (chr '0') = 48 := by decide
  rw [addDigit, toSigned_digit digit, zero]
  by_cases fits : 10 * n + (c.toNat - 48) + 48 < 2 ^ 31
  · rw [if_pos fits, int_of_fits (by omega) (by omega), Option.bind_eq_bind, Option.bind_some,
      int_of_fits (by omega) (by omega), Option.bind_some, int_of_fits (by omega) (by omega)]
    exact congrArg some (by omega)
  rw [if_neg fits]
  by_cases product : (n : Int) * 10 < 2 ^ 31
  · rw [int_of_fits (by omega) product, Option.bind_eq_bind, Option.bind_some, int_of_overflow (by omega),
      Option.bind_none]
  · rw [int_of_overflow (by omega), Option.bind_eq_bind, Option.bind_none]

theorem le_ofDecimal (n : Nat) (digits : Bytes) : n ≤ ofDecimal n digits := by
  induction digits generalizing n with
  | nil => exact Nat.le_refl n
  | cons c digits ih =>
    have step := ih (10 * n + (c.toNat - 48))
    exact Nat.le_trans (by omega) step

theorem foldlM_addDigit (n : Nat) {digits : Bytes} (digit : ∀ c ∈ digits, IsDigit c) (some_digit : digits ≠ []) :
    digits.foldlM addDigit (n : Int) =
      if ofDecimal n digits + 48 < 2 ^ 31 then some (ofDecimal n digits : Int) else none := by
  induction digits generalizing n with
  | nil => exact absurd rfl some_digit
  | cons c digits ih =>
    obtain ⟨first, others⟩ := List.forall_mem_cons.mp digit
    have unfolded : ofDecimal n (c :: digits) = ofDecimal (10 * n + (c.toNat - 48)) digits := rfl
    have grows := le_ofDecimal (10 * n + (c.toNat - 48)) digits
    rw [List.foldlM_cons, addDigit_eq n first, unfolded]
    by_cases fits : 10 * n + (c.toNat - 48) + 48 < 2 ^ 31
    · rw [if_pos fits, Option.bind_eq_bind, Option.bind_some]
      cases digits with
      | nil => exact (if_pos fits).symm
      | cons d digits => exact ih _ others (List.cons_ne_nil _ _)
    · rw [if_neg fits, if_neg (by omega)]
      rfl

/-! ### The parser as a scanner -/

abbrev Outcome := Option (ResultType × State × Request)

def step (at_ : State × Request) (input : UInt8) : (State × Request) ⊕ Outcome :=
  match consume at_.1 at_.2 input with
  | none => .inr none
  | some (.indeterminate, state, req) => .inl (state, req)
  | some (result, state, req) => .inr (some (result, state, req))

/-- Not a refusal: the request is accepted, or the behaviour is undefined. -/
def Wanted : Outcome → Prop
  | some (result, _, _) => result ≠ .bad
  | none => True

theorem wanted_none : Wanted none := trivial

theorem parse_good_iff {state : State} {req : Request} {input rest : Bytes} {state' : State} {req' : Request} :
    parse state req input = some (.good, rest, state', req') ↔
      Stops step (state, req) input (some (.good, state', req')) rest := by
  induction input generalizing state req with
  | nil => simp [parse, Stops, scan]
  | cons c input ih =>
    rw [parse, Stops, scan, step]
    rcases consume state req c with _ | ⟨_ | _ | _, s, r⟩
    · simp
    · simp only [Option.some.injEq, Prod.mk.injEq, Sum.inr.injEq, true_and]
      grind
    · simp
    · exact ih

theorem parse_none_iff {state : State} {req : Request} {input : Bytes} :
    parse state req input = none ↔ ∃ rest, Stops step (state, req) input none rest := by
  induction input generalizing state req with
  | nil => simp [parse, Stops, scan]
  | cons c input ih =>
    simp only [parse, Stops, scan, step]
    rcases consume state req c with _ | ⟨_ | _ | _, s, r⟩
    · simp
    · simp
    · simp
    · exact ih

/-! ### The request line -/

section

variable {req : Request} {as rest : Bytes} {b : Outcome}

theorem step_goes {state state' : State} {req req' : Request} {c : UInt8}
    (consumed : consume state req c = some (.indeterminate, state', req')) :
    step (state, req) c = .inl (state', req') := by
  simp only [step, consumed]

theorem step_refuses {state : State} {req : Request} {c : UInt8}
    (consumed : consume state req c = some (.bad, state, req)) :
    ∃ outcome, step (state, req) c = .inr outcome ∧ ¬ Wanted outcome :=
  ⟨some (.bad, state, req), by simp only [step, consumed], fun wanted => wanted rfl⟩

theorem refused_of_not_token {c : UInt8} (other : ¬ IsToken c) : refused c = true := by
  simpa only [IsToken, Bool.not_eq_false] using other

theorem isCtl_of_not_text {c : UInt8} (other : ¬ IsText c) : isCtl (toSigned c) = true := by
  simpa only [IsText, Bool.not_eq_false] using other

theorem IsToken.ne_space {c : UInt8} (token : IsToken c) : c ≠ chr ' ' := by
  rintro rfl
  revert token
  decide

theorem IsToken.ne_colon {c : UInt8} (token : IsToken c) : c ≠ chr ':' := by
  rintro rfl
  revert token
  decide

theorem IsToken.ne_return {c : UInt8} (token : IsToken c) : c ≠ chr '\r' := by
  rintro rfl
  revert token
  decide

theorem IsToken.not_blank {c : UInt8} (token : IsToken c) : ¬ IsBlank c := by
  rintro (rfl | rfl) <;> revert token <;> decide

theorem IsText.ne_return {c : UInt8} (text : IsText c) : c ≠ chr '\r' := by
  rintro rfl
  revert text
  decide

theorem IsDigit.ne_dot {c : UInt8} (digit : IsDigit c) : c ≠ chr '.' := by
  rintro rfl
  revert digit
  decide

theorem IsDigit.ne_return {c : UInt8} (digit : IsDigit c) : c ≠ chr '\r' := by
  rintro rfl
  revert digit
  decide

theorem stops_expect {asked : Char} {state next : State} (want : Wanted b)
    (asks : ∀ input, consume state req input = some (expect asked state next req input)) :
    Stops step (state, req) as b rest ↔ ∃ behind, as = chr asked :: behind ∧ Stops step (next, req) behind b rest := by
  refine stops_one (step_goes ?_) (fun c other => step_refuses ?_) want
  · rw [asks, expect, if_pos rfl]
  · rw [asks, expect, if_neg other]

theorem stops_method (want : Wanted b) (fresh : req.method = []) :
    Stops step (.methodStart, req) as b rest ↔
      ∃ method behind, method ≠ [] ∧ as = method ++ chr ' ' :: behind ∧ (∀ c ∈ method, c ≠ chr ' ' ∧ IsToken c) ∧
        Stops step (.uri, { req with method }) behind b rest := by
  refine stops_first_text (fun method => (State.method, { req with method }))
    (fun method => (State.uri, { req with method })) IsToken (chr ' ') (fun k => step_goes ?_)
    (fun k c other token => step_goes ?_) (fun k c other outside => step_refuses ?_) want
    (fun c other token => ?_) (fun c outside => step_refuses ?_)
  · rw [consume, if_pos rfl]
  · rw [consume, if_neg other, if_neg (by rw [token]; decide)]
  · rw [consume, if_neg other, if_pos (refused_of_not_token outside)]
  · rw [step, step, consume, consume, if_neg other, if_neg (by rw [token]; decide), if_neg (by rw [token]; decide),
      fresh]
  · rw [consume, if_pos (refused_of_not_token fun token => outside ⟨token.ne_space, token⟩)]

theorem stops_uri (want : Wanted b) (fresh : req.uri = []) :
    Stops step (.uri, req) as b rest ↔
      ∃ uri behind, as = uri ++ chr ' ' :: behind ∧ (∀ c ∈ uri, c ≠ chr ' ' ∧ IsText c) ∧
        Stops step (.httpVersionH, { req with uri }) behind b rest := by
  have same : req = { req with uri := [] } := by rw [← fresh]
  rw [same]
  refine stops_text (fun uri => (State.uri, { req with uri })) (fun uri => (State.httpVersionH, { req with uri }))
    IsText (chr ' ') (fun k => step_goes ?_) (fun k c other text => step_goes ?_)
    (fun k c other outside => step_refuses ?_) want []
  · rw [consume, if_pos rfl]
  · rw [consume, if_neg other, if_neg (by rw [text]; decide)]
  · rw [consume, if_neg other, if_pos (isCtl_of_not_text outside)]

theorem stops_slash (want : Wanted b) :
    Stops step (.httpVersionSlash, req) as b rest ↔ ∃ behind, as = chr '/' :: behind ∧
      Stops step (.httpVersionMajorStart, { req with httpVersionMajor := 0, httpVersionMinor := 0 }) behind b rest := by
  refine stops_one (step_goes ?_) (fun c other => step_refuses ?_) want
  · rw [consume, if_pos rfl]
  · rw [consume, if_neg other]

/-- From the first character to the version number. -/
theorem stops_start (want : Wanted b) (method : req.method = []) (uri : req.uri = []) :
    Stops step (.methodStart, req) as b rest ↔ ∃ (start : StartText) (behind : Bytes),
      as = start.render ++ behind ∧ Stops step (.httpVersionMajorStart,
        { req with method := start.method, uri := start.uri, httpVersionMajor := 0, httpVersionMinor := 0 })
        behind b rest := by
  have http : ascii "HTTP/" = [chr 'H', chr 'T', chr 'T', chr 'P', chr '/'] := by decide
  constructor
  · intro stops
    obtain ⟨method, _, some_method, rfl, token, inUri⟩ := (stops_method want method).mp stops
    obtain ⟨uri, _, rfl, plain, atH⟩ :=
      (stops_uri want (show ({ req with method } : Request).uri = [] from uri)).mp inUri
    obtain ⟨_, rfl, atT⟩ := (stops_expect want fun _ => rfl).mp atH
    obtain ⟨_, rfl, atT'⟩ := (stops_expect want fun _ => rfl).mp atT
    obtain ⟨_, rfl, atP⟩ := (stops_expect want fun _ => rfl).mp atT'
    obtain ⟨_, rfl, atSlash⟩ := (stops_expect want fun _ => rfl).mp atP
    obtain ⟨behind, rfl, atVersion⟩ := (stops_slash want).mp atSlash
    refine ⟨⟨method, uri, some_method, fun c member => (token c member).2, plain⟩, behind, ?_, atVersion⟩
    simp [StartText.render, http]
  · rintro ⟨start, behind, rfl, stops⟩
    refine (stops_method want method).mpr ⟨start.method, start.uri ++ [chr ' '] ++ ascii "HTTP/" ++ behind,
      start.some_method, by simp [StartText.render], fun c member => ⟨(start.token c member).ne_space,
      start.token c member⟩, ?_⟩
    refine (stops_uri want (show ({ req with method := start.method } : Request).uri = [] from uri)).mpr
      ⟨start.uri, ascii "HTTP/" ++ behind, by simp, start.plain, ?_⟩
    rw [http]
    refine (stops_expect want fun _ => rfl).mpr ⟨_, rfl, ?_⟩
    refine (stops_expect want fun _ => rfl).mpr ⟨_, rfl, ?_⟩
    refine (stops_expect want fun _ => rfl).mpr ⟨_, rfl, ?_⟩
    refine (stops_expect want fun _ => rfl).mpr ⟨_, rfl, ?_⟩
    exact (stops_slash want).mpr ⟨behind, rfl, stops⟩

/-- The digits before `rest` are the shortest that leave `int`. -/
def Overflows (as rest : Bytes) : Prop :=
  ∃ front c n, as = front ++ c :: rest ∧ (∀ c ∈ front, IsDigit c) ∧ IsDigit c ∧
    front.foldlM addDigit 0 = some n ∧ addDigit n c = none

theorem NumberText.folds (number : NumberText) :
    number.digits.foldlM addDigit 0 = if number.value + 48 < 2 ^ 31 then some (number.value : Int) else none :=
  foldlM_addDigit 0 number.digit number.some_digit

theorem exists_overflows_iff :
    (∃ rest, Overflows as rest) ↔
      ∃ (number : NumberText) (rest : Bytes), ¬ number.Fits ∧ as = number.digits ++ rest := by
  constructor
  · rintro ⟨rest, front, c, n, rfl, digit, last, folds, failed⟩
    let number : NumberText := ⟨front ++ [c], by simp, by
      intro d member
      rcases List.mem_append.mp member with early | late
      · exact digit d early
      · rw [List.mem_singleton.mp late]
        exact last⟩
    refine ⟨number, rest, fun fits => ?_, by simp [number]⟩
    have all : number.digits.foldlM addDigit 0 = none := by
      rw [List.foldlM_append, folds, Option.bind_eq_bind, Option.bind_some, List.foldlM_cons, failed]
      rfl
    rw [number.folds, if_pos (show number.value + 48 < 2 ^ 31 from fits)] at all
    cases all
  · rintro ⟨number, rest, overflows, rfl⟩
    have none_ : number.digits.foldlM addDigit 0 = none :=
      number.folds.trans (if_neg overflows)
    obtain ⟨front, c, behind, n, split, folds, failed⟩ := foldlM_eq_none none_
    have digit := number.digit
    rw [split] at digit
    exact ⟨behind ++ rest, front, c, n, by simp [split], fun d member => digit d (List.mem_append_left _ member),
      digit c (List.mem_append_right _ List.mem_cons_self), folds, failed⟩

/-- A number and the character behind it. `set` puts the number into the request. -/
theorem stops_number {start loop next : State} {terminator : Char} (set : Int → Request) (want : Wanted b)
    (separate : ∀ c, IsDigit c → c ≠ chr terminator)
    (starts : ∀ c, consume start (set 0) c =
      if isDigit (toSigned c) then do
        let version ← addDigit 0 c
        some (.indeterminate, loop, set version)
      else some (.bad, start, set 0))
    (loops : ∀ n c, consume loop (set n) c =
      if c = chr terminator then some (.indeterminate, next, set n)
      else if isDigit (toSigned c) then do
        let version ← addDigit n c
        some (.indeterminate, loop, set version)
      else some (.bad, loop, set n)) :
    Stops step (start, set 0) as b rest ↔
      (∃ (number : NumberText) (behind : Bytes), number.Fits ∧ as = number.digits ++ chr terminator :: behind ∧
        Stops step (next, set number.value) behind b rest) ∨ (b = none ∧ Overflows as rest) := by
  have stays (n : Int) (c : UInt8) (other : c ≠ chr terminator) (digit : IsDigit c) :
      step (loop, set n) c = (addDigit n c).elim (.inr none) (fun n => .inl (loop, set n)) := by
    simp only [step, loops, if_neg other, if_pos (show isDigit (toSigned c) = true from digit)]
    cases addDigit n c <;> rfl
  have enters (c : UInt8) (digit : IsDigit c) : step (start, set 0) c = step (loop, set 0) c := by
    rw [stays 0 c (separate c digit) digit]
    simp only [step, starts, if_pos (show isDigit (toSigned c) = true from digit)]
    cases addDigit 0 c <;> rfl
  let L : Loop step Wanted Int :=
    { collecting := fun n => (loop, set n), next := fun n => (next, set n), push := addDigit, inside := IsDigit,
      terminator := chr terminator, failed := none, stays
      leaves := fun n => step_goes (by rw [loops, if_pos rfl])
      refuses := fun n c other outside => step_refuses (by
        rw [loops, if_neg other, if_neg (show ¬ isDigit (toSigned c) = true from outside)]) }
  have refuse (c : UInt8) (outside : ¬ L.Inside c) : ∃ o, step (start, set 0) c = .inr o ∧ ¬ Wanted o :=
    step_refuses (by
      rw [starts, if_neg (show ¬ isDigit (toSigned c) = true from fun digit => outside ⟨separate c digit, digit⟩)])
  refine (L.stops_first want (fun c within => enters c within.2) refuse).trans (or_congr ⟨?_, ?_⟩ ⟨?_, ?_⟩)
  · rintro ⟨front, behind, n, some_digit, rfl, ⟨within, folds⟩, stops⟩
    let number : NumberText := ⟨front, some_digit, fun c member => (within c member).2⟩
    have read : (if number.value + 48 < 2 ^ 31 then some (number.value : Int) else none) = some n :=
      number.folds.symm.trans folds
    by_cases fits : number.value + 48 < 2 ^ 31
    · rw [if_pos fits] at read
      cases read
      exact ⟨number, behind, fits, rfl, stops⟩
    · rw [if_neg fits] at read
      cases read
  · rintro ⟨number, behind, fits, rfl, stops⟩
    refine ⟨number.digits, behind, number.value, number.some_digit, rfl, ⟨fun c member => ?_, ?_⟩, stops⟩
    · exact ⟨separate c (number.digit c member), number.digit c member⟩
    · exact number.folds.trans (if_pos fits)
  · rintro ⟨same, front, c, n, split, ⟨within, folds⟩, inside, failed⟩
    exact ⟨same.symm, front, c, n, split, fun d member => (within d member).2, inside.2, folds, failed⟩
  · rintro ⟨same, front, c, n, split, digit, last, folds, failed⟩
    exact ⟨same.symm, front, c, n, split, ⟨fun d member => ⟨separate d (digit d member), digit d member⟩, folds⟩,
      ⟨separate c last, last⟩, failed⟩

theorem stops_major (want : Wanted b) (zero : req.httpVersionMajor = 0) :
    Stops step (.httpVersionMajorStart, req) as b rest ↔
      (∃ (major : NumberText) (behind : Bytes), major.Fits ∧ as = major.digits ++ chr '.' :: behind ∧
        Stops step (.httpVersionMinorStart, { req with httpVersionMajor := major.value }) behind b rest) ∨
      (b = none ∧ Overflows as rest) := by
  have same : req = { req with httpVersionMajor := 0 } := by rw [← zero]
  rw [same]
  exact stops_number (fun n => { req with httpVersionMajor := n }) want (fun _ digit => digit.ne_dot) (fun _ => rfl)
    (fun _ _ => rfl)

theorem stops_minor (want : Wanted b) (zero : req.httpVersionMinor = 0) :
    Stops step (.httpVersionMinorStart, req) as b rest ↔
      (∃ (minor : NumberText) (behind : Bytes), minor.Fits ∧ as = minor.digits ++ chr '\r' :: behind ∧
        Stops step (.expectingNewline1, { req with httpVersionMinor := minor.value }) behind b rest) ∨
      (b = none ∧ Overflows as rest) := by
  have same : req = { req with httpVersionMinor := 0 } := by rw [← zero]
  rw [same]
  exact stops_number (fun n => { req with httpVersionMinor := n }) want (fun _ digit => digit.ne_return) (fun _ => rfl)
    (fun _ _ => rfl)

/-! ### The header lines -/

theorem modifyBack_append (change : Header → Header) (headers : List Header) (last : Header) :
    modifyBack change (headers ++ [last]) = some (headers ++ [change last]) := by
  induction headers with
  | nil => rfl
  | cons h headers ih =>
    cases headers with
    | nil => rfl
    | cons h' headers =>
      rw [List.cons_append, List.cons_append, modifyBack, ← List.cons_append, ih]
      · rfl
      · simp

variable {headers : List Header} {name value : Bytes}

theorem stops_newline2 (want : Wanted b) :
    Stops step (.expectingNewline2, req) as b rest ↔
      ∃ behind, as = chr '\n' :: behind ∧ Stops step (.headerLineStart, req) behind b rest :=
  stops_expect want fun _ => rfl

/-- What is left of a value's line, with the value read so far. -/
theorem stops_value (want : Wanted b) :
    Stops step (.headerValue, { req with headers := headers ++ [⟨name, value⟩] }) as b rest ↔
      ∃ text behind, as = text ++ crlf ++ behind ∧ (∀ c ∈ text, IsText c) ∧
        Stops step (.headerLineStart, { req with headers := headers ++ [⟨name, value ++ text⟩] }) behind b rest := by
  refine (stops_text (fun value => (State.headerValue, { req with headers := headers ++ [⟨name, value⟩] }))
    (fun value => (State.expectingNewline2, { req with headers := headers ++ [⟨name, value⟩] }))
    IsText (chr '\r') (fun k => step_goes ?_) (fun k c other text => step_goes ?_)
    (fun k c other outside => step_refuses ?_) want value).trans ⟨?_, ?_⟩
  · rw [consume, if_pos rfl]
  · rw [consume, if_neg other, if_neg (by rw [text]; decide), modifyBack_append]
    rfl
  · rw [consume, if_neg other, if_pos (isCtl_of_not_text outside)]
  · rintro ⟨text, _, rfl, within, stops⟩
    obtain ⟨behind, rfl, next⟩ := (stops_newline2 want).mp stops
    exact ⟨text, behind, by simp [crlf], fun c member => (within c member).2, next⟩
  · rintro ⟨text, behind, rfl, plain, stops⟩
    exact ⟨text, chr '\n' :: behind, by simp [crlf], fun c member => ⟨(plain c member).ne_return, plain c member⟩,
      (stops_newline2 want).mpr ⟨behind, rfl, stops⟩⟩

theorem IsText.not_tab {c : UInt8} (text : IsText c) : c ≠ chr '\t' := by
  rintro rfl
  revert text
  decide

/-- Blanks are skipped, and what comes behind them is read as the rest of a value. -/
theorem stops_lws (want : Wanted b) :
    Stops step (.headerLws, req) as b rest ↔ Stops step (.headerValue, req) (as.dropWhile (IsBlank ·)) b rest := by
  induction as with
  | nil => exact ⟨fun stops => absurd stops not_stops_nil, fun stops => absurd stops not_stops_nil⟩
  | cons c as ih =>
    by_cases blank : IsBlank c
    · have other : c ≠ chr '\r' := by rcases blank with rfl | rfl <;> decide
      have skips : step (.headerLws, req) c = .inl (.headerLws, req) :=
        step_goes (by rw [consume, if_neg other, if_pos (by simpa [IsBlank] using blank)])
      rw [stops_cons_inl skips, ih, List.dropWhile_cons_of_pos (by simpa using blank)]
    · have plain : ¬ (c = chr ' ' || c = chr '\t') = true := by simpa [IsBlank] using blank
      rw [List.dropWhile_cons_of_neg (by simpa using blank)]
      by_cases refusal : c ≠ chr '\r' ∧ isCtl (toSigned c) = true
      · -- Both states refuse a control character, but each stays where it was.
        obtain ⟨_, lws, unwanted⟩ := step_refuses (show consume .headerLws req c = some (.bad, .headerLws, req) by
          rw [consume, if_neg refusal.1, if_neg plain, if_pos refusal.2])
        obtain ⟨_, inValue, unwanted'⟩ := step_refuses (show consume .headerValue req c = some (.bad, _, req) by
          rw [consume, if_neg refusal.1, if_pos refusal.2])
        rw [stops_cons_inr lws, stops_cons_inr inValue]
        constructor
        · rintro ⟨rfl, -⟩
          exact absurd want unwanted
        · rintro ⟨rfl, -⟩
          exact absurd want unwanted'
      · have same : consume .headerLws req c = consume .headerValue req c := by
          rw [consume, consume]
          by_cases last : c = chr '\r'
          · rw [if_pos last, if_pos last]
          · have text : ¬ isCtl (toSigned c) = true := fun ctl => refusal ⟨last, ctl⟩
            simp only [if_neg last, if_neg plain, if_neg text]
        rw [Stops, Stops, scan, scan, step, step, same]

theorem stops_fold (want : Wanted b) :
    Stops step (.headerLws, { req with headers := headers ++ [⟨name, value⟩] }) as b rest ↔
      ∃ blanks text behind, as = blanks ++ text ++ crlf ++ behind ∧ (∀ c ∈ blanks, IsBlank c) ∧
        (∀ c ∈ text, IsText c) ∧ text.head? ≠ some (chr ' ') ∧
        Stops step (.headerLineStart, { req with headers := headers ++ [⟨name, value ++ text⟩] }) behind b rest := by
  rw [stops_lws want, stops_value want]
  constructor
  · rintro ⟨text, behind, split, plain, stops⟩
    refine ⟨as.takeWhile (IsBlank ·), text, behind, ?_, fun c member => ?_, plain, fun first => ?_, stops⟩
    · rw [List.append_assoc, List.append_assoc, ← List.append_assoc text, ← split, List.takeWhile_append_dropWhile]
    · simpa using List.mem_takeWhile_imp member
    · obtain ⟨text, rfl⟩ := List.head?_eq_some_iff.mp first
      have kept := List.head?_dropWhile_not (fun c => decide (IsBlank c)) as
      rw [split] at kept
      exact absurd (show decide (IsBlank (chr ' ')) = false from kept) (by decide)
  · rintro ⟨blanks, text, behind, rfl, blank, plain, starts, stops⟩
    refine ⟨text, behind, ?_, plain, stops⟩
    have all (c : UInt8) (member : c ∈ blanks) : decide (IsBlank c) = true := by simpa using blank c member
    rw [List.append_assoc, List.append_assoc, List.dropWhile_append_of_pos all, List.append_assoc]
    cases text with
    | nil => rfl
    | cons c text =>
      refine List.dropWhile_cons_of_neg ?_
      have space : c ≠ chr ' ' := fun same => starts (by rw [same]; rfl)
      rw [decide_eq_true_eq]
      rintro (same | same)
      · exact space same
      · exact (plain c List.mem_cons_self).not_tab same

/-- A name behind its first character, the separator and the first line of the value. -/
theorem stops_name (want : Wanted b) :
    Stops step (.headerName, { req with headers := headers ++ [⟨name, []⟩] }) as b rest ↔
      ∃ front text behind, as = front ++ nameValueSeparator ++ text ++ crlf ++ behind ∧ (∀ c ∈ front, IsToken c) ∧
        (∀ c ∈ text, IsText c) ∧
        Stops step (.headerLineStart, { req with headers := headers ++ [⟨name ++ front, text⟩] }) behind b rest := by
  refine (stops_text (fun name => (State.headerName, { req with headers := headers ++ [⟨name, []⟩] }))
    (fun name => (State.spaceBeforeHeaderValue, { req with headers := headers ++ [⟨name, []⟩] }))
    IsToken (chr ':') (fun k => step_goes ?_) (fun k c other token => step_goes ?_)
    (fun k c other outside => step_refuses ?_) want name).trans ⟨?_, ?_⟩
  · rw [consume, if_pos rfl]
  · rw [consume, if_neg other, if_neg (by rw [token]; decide), modifyBack_append]
    rfl
  · rw [consume, if_neg other, if_pos (refused_of_not_token outside)]
  · rintro ⟨front, _, rfl, within, atSpace⟩
    obtain ⟨_, rfl, inValue⟩ := (stops_expect want fun _ => rfl).mp atSpace
    obtain ⟨text, behind, rfl, plain, stops⟩ := (stops_value want).mp inValue
    exact ⟨front, text, behind, by simp [nameValueSeparator], fun c member => (within c member).2, plain, stops⟩
  · rintro ⟨front, text, behind, rfl, token, plain, stops⟩
    refine ⟨front, chr ' ' :: (text ++ crlf ++ behind), by simp [nameValueSeparator],
      fun c member => ⟨(token c member).ne_colon, token c member⟩, ?_⟩
    exact (stops_expect want fun _ => rfl).mpr ⟨_, rfl, (stops_value want).mpr ⟨text, behind, rfl, plain, stops⟩⟩

theorem stops_end (want : Wanted b) :
    Stops step (.headerLineStart, req) (chr '\r' :: as) b rest ↔
      as = chr '\n' :: rest ∧ b = some (.good, .expectingNewline3, req) := by
  have goes : step (.headerLineStart, req) (chr '\r') = .inl (.expectingNewline3, req) :=
    step_goes (by rw [consume, if_pos rfl])
  rw [stops_cons_inl goes]
  cases as with
  | nil => exact ⟨fun stops => absurd stops not_stops_nil, fun same => absurd same.1 (List.cons_ne_nil _ _).symm⟩
  | cons c as =>
    by_cases last : c = chr '\n'
    · subst last
      rw [stops_cons_inr (show step (.expectingNewline3, req) (chr '\n') = .inr (some (.good, .expectingNewline3, req))
        from rfl), List.cons_inj_right]
      exact ⟨fun stops => ⟨stops.2, stops.1.symm⟩, fun same => ⟨same.2.symm, same.1⟩⟩
    · obtain ⟨o, refusal, unwanted⟩ := step_refuses (show consume .expectingNewline3 req c = some (.bad, _, req) by
        rw [consume, if_neg last])
      rw [stops_cons_inr refusal]
      refine ⟨?_, fun same => absurd (List.cons.inj same.1).1 last⟩
      rintro ⟨rfl, -⟩
      exact absurd want unwanted

theorem step_fold {c : UInt8} (blank : IsBlank c) (some_header : req.headers ≠ []) :
    step (.headerLineStart, req) c = .inl (.headerLws, req) := by
  have other : c ≠ chr '\r' := by rcases blank with rfl | rfl <;> decide
  refine step_goes ?_
  rw [consume, if_neg other, if_pos]
  simpa [some_header, IsBlank] using blank

theorem step_field {c : UInt8} (token : IsToken c) :
    step (.headerLineStart, req) c = .inl (.headerName, { req with headers := req.headers ++ [⟨[c], []⟩] }) := by
  refine step_goes ?_
  have plain : ¬ (!req.headers.isEmpty && (c = chr ' ' || c = chr '\t')) = true := by
    have blank := token.not_blank
    simp only [IsBlank] at blank
    simp [blank]
  rw [consume, if_neg token.ne_return, if_neg plain, if_neg (by rw [token]; decide), modifyBack_append]
  rfl

theorem step_other {c : UInt8} (other : c ≠ chr '\r') (blank : IsBlank c → req.headers = []) (token : ¬ IsToken c) :
    ∃ outcome, step (.headerLineStart, req) c = .inr outcome ∧ ¬ Wanted outcome := by
  have plain : ¬ (!req.headers.isEmpty && (c = chr ' ' || c = chr '\t')) = true := by
    simp only [Bool.and_eq_true, Bool.not_eq_true', List.isEmpty_eq_false_iff, Bool.or_eq_true, decide_eq_true_eq]
    exact fun fold => fold.1 (blank fold.2)
  exact step_refuses (by rw [consume, if_neg other, if_neg plain, if_pos (refused_of_not_token token)])

/-- The headers once the value of the last goes on with `text`. -/
def continued (headers : List Header) (text : Bytes) : List Header :=
  (modifyBack (fun h => { h with value := h.value ++ text }) headers).getD headers

theorem continued_append (headers : List Header) (last : Header) (text : Bytes) :
    continued (headers ++ [last]) text = headers ++ [⟨last.name, last.value ++ text⟩] := by
  rw [continued, modifyBack_append, Option.getD_some]

theorem continued_nil (headers : List Header) : continued headers [] = headers := by
  rcases List.eq_nil_or_concat headers with rfl | ⟨front, last, rfl⟩
  · rfl
  · rw [List.concat_eq_append, continued_append, List.append_nil]

/-- What the header lines may look like from the start of a line on. -/
def Lines (req : Request) (as : Bytes) (b : Outcome) (rest : Bytes) : Prop :=
  ∃ (folds : List FoldText) (fields : List FieldText), (req.headers = [] → folds = []) ∧
    as = folds.flatMap FoldText.render ++ fields.flatMap FieldText.render ++ crlf ++ rest ∧
    b = some (.good, .expectingNewline3,
      { req with headers := continued req.headers (folds.flatMap FoldText.text) ++ fields.map FieldText.header })

theorem lines_of_stops (want : Wanted b) (stops : Stops step (.headerLineStart, req) as b rest) :
    Lines req as b rest := by
  induction size : as.length using Nat.strongRecOn generalizing as req with
  | ind n ih =>
    cases as with
    | nil => exact absurd stops not_stops_nil
    | cons c as =>
      by_cases last : c = chr '\r'
      · subst last
        obtain ⟨rfl, rfl⟩ := (stops_end want).mp stops
        refine ⟨[], [], fun _ => rfl, rfl, ?_⟩
        simp only [List.flatMap_nil, continued_nil, List.map_nil, List.append_nil]
      by_cases fold : IsBlank c ∧ req.headers ≠ []
      · obtain ⟨front, ⟨name, value⟩, headers⟩ := (List.eq_nil_or_concat req.headers).resolve_left fold.2
        rw [List.concat_eq_append] at headers
        have shape : req = { req with headers := front ++ [⟨name, value⟩] } := by rw [← headers]
        rw [stops_cons_inl (step_fold fold.1 fold.2), shape] at stops
        obtain ⟨blanks, text, behind, rfl, blank, plain, starts, next⟩ := (stops_fold want).mp stops
        obtain ⟨folds, fields, -, rfl, rfl⟩ := ih behind.length (by simp [← size]; omega) next rfl
        let here : FoldText := ⟨c :: blanks, text, List.cons_ne_nil _ _, List.forall_mem_cons.mpr ⟨fold.1, blank⟩,
          plain, starts⟩
        refine ⟨here :: folds, fields, fun empty => absurd empty fold.2, by simp [here, FoldText.render], ?_⟩
        simp only [headers, List.flatMap_cons, continued_append, here, List.append_assoc]
      by_cases token : IsToken c
      · rw [stops_cons_inl (step_field token)] at stops
        obtain ⟨front, text, behind, rfl, tokens, plain, next⟩ := (stops_name want).mp stops
        obtain ⟨folds, fields, -, rfl, rfl⟩ := ih behind.length (by simp [← size]; omega) next rfl
        let here : FieldText := ⟨c :: front, text, folds, List.cons_ne_nil _ _,
          List.forall_mem_cons.mpr ⟨token, tokens⟩, plain⟩
        refine ⟨[], here :: fields, fun _ => rfl, by simp [here, FieldText.render], ?_⟩
        simp only [List.flatMap_nil, continued_nil, continued_append, List.map_cons, here, FieldText.header,
          List.append_assoc, List.cons_append, List.nil_append]
      · obtain ⟨o, refusal, unwanted⟩ := step_other last (fun blank => by
          by_contra some_header
          exact fold ⟨blank, some_header⟩) token
        obtain ⟨rfl, -⟩ := (stops_cons_inr refusal).mp stops
        exact absurd want unwanted

theorem stops_of_fold (want : Wanted b) (fold : FoldText) {front : List Header} {last : Header}
    (stops : Stops step (.headerLineStart, { req with headers := front ++ [⟨last.name, last.value ++ fold.text⟩] })
      as b rest) :
    Stops step (.headerLineStart, { req with headers := front ++ [last] }) (fold.render ++ as) b rest := by
  obtain ⟨c, blanks, split⟩ := List.exists_cons_of_ne_nil fold.some_blank
  have blank := fold.blank
  rw [split] at blank
  obtain ⟨first, others⟩ := List.forall_mem_cons.mp blank
  rw [FoldText.render, split, List.cons_append, List.cons_append, List.cons_append,
    stops_cons_inl (step_fold first (by simp))]
  exact (stops_fold want).mpr ⟨blanks, fold.text, as, by simp, others, fold.plain, fold.starts, stops⟩

theorem stops_of_folds (want : Wanted b) (folds : List FoldText) {front : List Header} {last : Header}
    (stops : Stops step (.headerLineStart,
      { req with headers := front ++ [⟨last.name, last.value ++ folds.flatMap FoldText.text⟩] }) as b rest) :
    Stops step (.headerLineStart, { req with headers := front ++ [last] }) (folds.flatMap FoldText.render ++ as) b
      rest := by
  induction folds generalizing last with
  | nil =>
    rw [List.flatMap_nil, List.append_nil] at stops
    exact stops
  | cons fold folds ih =>
    rw [List.flatMap_cons, List.append_assoc]
    refine stops_of_fold want fold (ih ?_)
    rw [List.append_assoc, ← List.flatMap_cons]
    exact stops

theorem stops_of_field (want : Wanted b) (field : FieldText)
    (stops : Stops step (.headerLineStart, { req with headers := req.headers ++ [field.header] }) as b rest) :
    Stops step (.headerLineStart, req) (field.render ++ as) b rest := by
  obtain ⟨c, front, split⟩ := List.exists_cons_of_ne_nil field.some_name
  have token := field.token
  rw [split] at token
  obtain ⟨first, others⟩ := List.forall_mem_cons.mp token
  rw [FieldText.render, split, List.cons_append, List.cons_append, List.cons_append, List.cons_append, List.cons_append,
    stops_cons_inl (step_field first)]
  refine (stops_name want).mpr ⟨front, field.value, field.folds.flatMap FoldText.render ++ as, by simp, others,
    field.plain, ?_⟩
  refine stops_of_folds want field.folds ?_
  rw [FieldText.header, split] at stops
  exact stops

theorem stops_of_fields (want : Wanted b) (fields : List FieldText)
    (stops : Stops step (.headerLineStart, { req with headers := req.headers ++ fields.map FieldText.header }) as b
      rest) :
    Stops step (.headerLineStart, req) (fields.flatMap FieldText.render ++ as) b rest := by
  induction fields generalizing req with
  | nil =>
    rw [List.map_nil, List.append_nil] at stops
    exact stops
  | cons field fields ih =>
    rw [List.flatMap_cons, List.append_assoc]
    refine stops_of_field want field (ih ?_)
    rw [List.append_assoc, List.singleton_append, ← List.map_cons]
    exact stops

/-- Behind the request line: fields, and an empty line. -/
theorem stops_fields (want : Wanted b) (fresh : req.headers = []) :
    Stops step (.headerLineStart, req) as b rest ↔ ∃ fields : List FieldText,
      as = fields.flatMap FieldText.render ++ crlf ++ rest ∧
      b = some (.good, .expectingNewline3, { req with headers := fields.map FieldText.header }) := by
  constructor
  · intro stops
    obtain ⟨folds, fields, none_, split, outcome⟩ := lines_of_stops want stops
    rw [none_ fresh] at split outcome
    refine ⟨fields, split, ?_⟩
    rw [outcome, fresh, List.flatMap_nil, continued_nil, List.nil_append]
  · rintro ⟨fields, rfl, outcome⟩
    rw [List.append_assoc]
    refine stops_of_fields want fields ?_
    rw [fresh, List.nil_append]
    exact (stops_end want).mpr ⟨rfl, outcome⟩

/-! ### Requests -/

/-- Behind the version number's start: accepted texts, and the two overflows. -/
theorem stops_request (want : Wanted b) (method : req.method = []) (uri : req.uri = []) (headers : req.headers = []) :
    Stops step (.methodStart, req) as b rest ↔
      (∃ text : RequestText, text.major.Fits ∧ text.minor.Fits ∧ as = text.render ++ rest ∧
        b = some (.good, .expectingNewline3, text.request)) ∨
      (b = none ∧ ∃ (start : StartText) (behind : Bytes), as = start.render ++ behind ∧ Overflows behind rest) ∨
      (b = none ∧ ∃ (start : StartText) (major : NumberText) (behind : Bytes), major.Fits ∧
        as = start.render ++ major.digits ++ [chr '.'] ++ behind ∧ Overflows behind rest) := by
  rw [stops_start want method uri]
  constructor
  · rintro ⟨start, behind, rfl, stops⟩
    rcases (stops_major want (by rfl)).mp stops with ⟨major, _, majorFits, rfl, atMinor⟩ | ⟨undefined, overflows⟩
    · rcases (stops_minor want (by rfl)).mp atMinor with ⟨minor, _, minorFits, rfl, atNewline⟩ | ⟨undefined, overflows⟩
      · obtain ⟨_, rfl, atLines⟩ := (stops_expect want fun _ => rfl).mp atNewline
        obtain ⟨fields, rfl, outcome⟩ := (stops_fields want (by exact headers)).mp atLines
        exact .inl ⟨⟨start, major, minor, fields⟩, majorFits, minorFits, by simp [RequestText.render, crlf], outcome⟩
      · exact .inr (.inr ⟨undefined, start, major, _, majorFits, by simp, overflows⟩)
    · exact .inr (.inl ⟨undefined, start, behind, rfl, overflows⟩)
  · rintro (⟨text, majorFits, minorFits, rfl, outcome⟩ | ⟨undefined, start, behind, rfl, overflows⟩ |
      ⟨undefined, start, major, behind, fits, rfl, overflows⟩)
    · refine ⟨text.toStartText, text.major.digits ++ chr '.' :: (text.minor.digits ++ chr '\r' :: chr '\n' ::
        (text.fields.flatMap FieldText.render ++ crlf ++ rest)), by simp [RequestText.render, crlf], ?_⟩
      refine (stops_major want (by rfl)).mpr (.inl ⟨text.major, _, majorFits, rfl, ?_⟩)
      refine (stops_minor want (by rfl)).mpr (.inl ⟨text.minor, _, minorFits, rfl, ?_⟩)
      refine (stops_expect want fun _ => rfl).mpr ⟨_, rfl, ?_⟩
      exact (stops_fields want (by exact headers)).mpr ⟨text.fields, rfl, outcome⟩
    · exact ⟨start, behind, rfl, (stops_major want (by rfl)).mpr (.inr ⟨undefined, overflows⟩)⟩
    · refine ⟨start, major.digits ++ chr '.' :: behind, by simp, ?_⟩
      refine (stops_major want (by rfl)).mpr (.inl ⟨major, behind, fits, rfl, ?_⟩)
      exact (stops_minor want (by rfl)).mpr (.inr ⟨undefined, overflows⟩)

end

/-- The parser accepts exactly the requests of the grammar, and reads from each what it says, whatever stood in
the version numbers before and whatever follows the request. -/
theorem parse_good (major minor : Int) (input rest : Bytes) (state : State) (req : Request) :
    parse .methodStart { httpVersionMajor := major, httpVersionMinor := minor } input = some (.good, rest, state, req) ↔
      ∃ text : RequestText, text.major.Fits ∧ text.minor.Fits ∧ input = text.render ++ rest ∧
        state = .expectingNewline3 ∧ req = text.request := by
  rw [parse_good_iff, stops_request (show Wanted (some (.good, state, req)) by rintro ⟨⟩) rfl rfl rfl]
  simp only [Option.some.injEq, Prod.mk.injEq, true_and, reduceCtorEq, false_and, or_false]

/-- A request makes the parser's arithmetic undefined exactly when one of its version numbers leaves `int`. -/
theorem parse_undefined (major minor : Int) (input : Bytes) :
    parse .methodStart { httpVersionMajor := major, httpVersionMinor := minor } input = none ↔
      (∃ (start : StartText) (number : NumberText) (rest : Bytes), ¬ number.Fits ∧
        input = start.render ++ number.digits ++ rest) ∨
      (∃ (start : StartText) (first number : NumberText) (rest : Bytes), first.Fits ∧ ¬ number.Fits ∧
        input = start.render ++ first.digits ++ [chr '.'] ++ number.digits ++ rest) := by
  rw [parse_none_iff]
  constructor
  · rintro ⟨rest, stops⟩
    rcases (stops_request wanted_none rfl rfl rfl).mp stops with
      ⟨text, -, -, -, outcome⟩ | ⟨-, start, behind, rfl, overflows⟩ | ⟨-, start, first, behind, fits, rfl, overflows⟩
    · cases outcome
    · obtain ⟨number, more, unfit, rfl⟩ := exists_overflows_iff.mp ⟨rest, overflows⟩
      exact .inl ⟨start, number, more, unfit, by simp⟩
    · obtain ⟨number, more, unfit, rfl⟩ := exists_overflows_iff.mp ⟨rest, overflows⟩
      exact .inr ⟨start, first, number, more, fits, unfit, by simp⟩
  · rintro (⟨start, number, more, unfit, rfl⟩ | ⟨start, first, number, more, fits, unfit, rfl⟩)
    · obtain ⟨rest, overflows⟩ := exists_overflows_iff.mpr ⟨number, more, unfit, rfl⟩
      exact ⟨rest, (stops_request wanted_none rfl rfl rfl).mpr (.inr (.inl ⟨rfl, start, _, by simp, overflows⟩))⟩
    · obtain ⟨rest, overflows⟩ := exists_overflows_iff.mpr ⟨number, more, unfit, rfl⟩
      refine ⟨rest, (stops_request wanted_none rfl rfl rfl).mpr (.inr (.inr ?_))⟩
      exact ⟨rfl, start, first, _, fits, by simp, overflows⟩

end MiniProtobuf.Http
