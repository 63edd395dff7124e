import Mathlib.Data.List.Forall2
import MiniProtobuf.Http.Model
import MiniProtobuf.Wire.Path

/-!
# What a request can name

`url_decode` reads a path back from every way to spell it, and takes more spellings than the standard ones: its
number is read by a stream, which skips white space, takes a sign and stops at the first other character. The
handler opens no file outside the document root, so that nothing else can show in a reply.
-/

namespace MiniProtobuf.Http
open Wire

/-! ### `url_decode` -/

/-- The number that the two characters behind a `%` spell. -/
inductive Escape : UInt8 → UInt8 → Int → Prop where
  | digits {first second : UInt8} {high low : Nat} (high_ : hexDigit first = some high)
      (low_ : hexDigit second = some low) : Escape first second ((16 * high + low : Nat) : Int)
  | padded {first second : UInt8} {low : Nat} (space : isSpace first = true) (low_ : hexDigit second = some low) :
      Escape first second low
  | plus {second : UInt8} {low : Nat} (low_ : hexDigit second = some low) : Escape (chr '+') second low
  | minus {second : UInt8} {low : Nat} (low_ : hexDigit second = some low) : Escape (chr '-') second (-(low : Int))
  -- The stream stops at the second character, which the decoder skips all the same.
  | cut {first second : UInt8} {high : Nat} (high_ : hexDigit first = some high) (other : hexDigit second = none)
      (base : ¬ (first = chr '0' ∧ (second = chr 'x' ∨ second = chr 'X'))) : Escape first second high

theorem hexDigit_space {c : UInt8} (space : isSpace c = true) : hexDigit c = none := by
  simp only [isSpace, Bool.or_eq_true, decide_eq_true_eq, Bool.and_eq_true] at space
  rcases space with rfl | ⟨low, high⟩
  · decide
  · simp only [hexDigit]
    rw [if_neg (by omega), if_neg (by omega), if_neg (by omega)]

theorem hexDigits_one (c : UInt8) : hexDigits [c] = hexDigit c := by
  cases digit : hexDigit c <;> simp [hexDigits, digit]

theorem hexNumber_one (c : UInt8) : hexNumber [c] = hexDigit c := hexDigits_one c

theorem hexDigits_two (first second : UInt8) :
    hexDigits [first, second] =
      (hexDigit first).bind fun high => some ((hexDigit second).elim high fun low => 16 * high + low) := by
  cases high : hexDigit first with
  | none => simp [hexDigits, high]
  | some high => cases low : hexDigit second <;> simp [hexDigits, *]

theorem hexNumber_two {first second : UInt8} (base : ¬ (first = chr '0' ∧ (second = chr 'x' ∨ second = chr 'X'))) :
    hexNumber [first, second] = hexDigits [first, second] := if_neg base

/-- White space in front is skipped, and one character is left, which is no sign with a number behind it. -/
theorem extractHex_padded {first second : UInt8} (space : isSpace first = true) :
    extractHex [first, second] = (hexDigit second).map Int.ofNat := by
  rw [extractHex, List.dropWhile_cons_of_pos space]
  by_cases space' : isSpace second = true
  · rw [List.dropWhile_cons_of_pos space', hexDigit_space space']
    rfl
  rw [List.dropWhile_cons_of_neg space']
  by_cases minus : second = chr '-'
  · subst minus
    rfl
  by_cases plus : second = chr '+'
  · subst plus
    rfl
  simp only [if_neg minus, if_neg plus, hexNumber_one]

theorem extractHex_plain {first second : UInt8} (space : ¬ isSpace first = true) :
    extractHex [first, second] =
      if first = chr '-' then (hexDigit second).map fun (n : Nat) => -(n : Int)
      else if first = chr '+' then (hexDigit second).map Int.ofNat
      else (hexNumber [first, second]).map Int.ofNat := by
  rw [extractHex, List.dropWhile_cons_of_neg space]
  simp only [hexNumber_one]

theorem escape_of_extractHex {first second : UInt8} {value : Int} (read : extractHex [first, second] = some value) :
    Escape first second value := by
  by_cases space : isSpace first = true
  · rw [extractHex_padded space] at read
    obtain ⟨low, digit, rfl⟩ := Option.map_eq_some_iff.mp read
    exact .padded space digit
  rw [extractHex_plain space] at read
  by_cases minus : first = chr '-'
  · subst minus
    obtain ⟨low, digit, rfl⟩ := Option.map_eq_some_iff.mp read
    exact .minus digit
  by_cases plus : first = chr '+'
  · subst plus
    obtain ⟨low, digit, rfl⟩ := Option.map_eq_some_iff.mp read
    exact .plus digit
  rw [if_neg minus, if_neg plus] at read
  obtain ⟨number, spelled, rfl⟩ := Option.map_eq_some_iff.mp read
  by_cases base : first = chr '0' ∧ (second = chr 'x' ∨ second = chr 'X')
  · rw [hexNumber, if_pos base] at spelled
    cases spelled
  rw [hexNumber_two base, hexDigits_two] at spelled
  obtain ⟨high, digit, rest⟩ := Option.bind_eq_some_iff.mp spelled
  cases low : hexDigit second with
  | none =>
    rw [low] at rest
    cases rest
    exact .cut digit low base
  | some low' =>
    rw [low] at rest
    cases rest
    exact .digits digit low

/-- A hexadecimal digit is neither white space nor a sign, so that the number starts with it. -/
theorem extractHex_digit {first second : UInt8} {high : Nat} (digit : hexDigit first = some high) :
    extractHex [first, second] = (hexNumber [first, second]).map Int.ofNat := by
  have space : ¬ isSpace first = true := fun space => by
    rw [hexDigit_space space] at digit
    cases digit
  have minus : first ≠ chr '-' := by
    rintro rfl
    cases digit
  have plus : first ≠ chr '+' := by
    rintro rfl
    cases digit
  rw [extractHex_plain space, if_neg minus, if_neg plus]

theorem extractHex_of_escape {first second : UInt8} {value : Int} (escape : Escape first second value) :
    extractHex [first, second] = some value := by
  cases escape with
  | digits high low =>
    have base : ¬ (first = chr '0' ∧ (second = chr 'x' ∨ second = chr 'X')) := by
      rintro ⟨-, rfl | rfl⟩ <;> cases low
    rw [extractHex_digit high, hexNumber_two base, hexDigits_two, high, low]
    rfl
  | padded space low =>
    rw [extractHex_padded space, low]
    rfl
  | plus low =>
    rw [extractHex_plain (by decide), if_neg (by decide), if_pos rfl, low]
    rfl
  | minus low =>
    rw [extractHex_plain (by decide), if_pos rfl, low]
    rfl
  | cut high other base =>
    rw [extractHex_digit high, hexNumber_two base, hexDigits_two, high, other]
    rfl

/-- The ways to write one character of a path. -/
inductive Spells : UInt8 → Bytes → Prop where
  | literal {c : UInt8} (percent : c ≠ chr '%') (plus : c ≠ chr '+') : Spells c [c]
  | plus : Spells (chr ' ') [chr '+']
  | escape {first second : UInt8} {value : Int} (escape : Escape first second value) :
      Spells (toChar value) [chr '%', first, second]

theorem spells_of_urlDecodeFrom {out text path : Bytes} (decoded : urlDecodeFrom out text = some path) :
    ∃ characters pieces, path = out ++ characters ∧ text = List.flatten pieces ∧
      List.Forall₂ Spells characters pieces := by
  fun_induction urlDecodeFrom out text with
  | case1 out =>
    cases decoded
    exact ⟨[], [], (List.append_nil _).symm, rfl, .nil⟩
  | case2 out first second rest value read ih =>
    obtain ⟨characters, pieces, rfl, rfl, spells⟩ := ih decoded
    exact ⟨toChar value :: characters, [chr '%', first, second] :: pieces, by simp, by simp,
      .cons (.escape (escape_of_extractHex read)) spells⟩
  | case3 | case4 => cases decoded
  | case5 out rest percent ih =>
    obtain ⟨characters, pieces, rfl, rfl, spells⟩ := ih decoded
    exact ⟨chr ' ' :: characters, [chr '+'] :: pieces, by simp, by simp, .cons .plus spells⟩
  | case6 out c rest percent plus ih =>
    obtain ⟨characters, pieces, rfl, rfl, spells⟩ := ih decoded
    exact ⟨c :: characters, [c] :: pieces, by simp, by simp, .cons (.literal percent plus) spells⟩

theorem urlDecodeFrom_other {c : UInt8} (percent : c ≠ chr '%') (out rest : Bytes) :
    urlDecodeFrom out (c :: rest) = urlDecodeFrom (out ++ [if c = chr '+' then chr ' ' else c]) rest := by
  conv_lhs => unfold urlDecodeFrom
  by_cases plus : c = chr '+' <;> simp only [if_neg percent, plus, if_true, if_false]
  exact if_neg (by decide)

theorem urlDecodeFrom_of_spells {characters : Bytes} {pieces : List Bytes}
    (spells : List.Forall₂ Spells characters pieces) (out : Bytes) :
    urlDecodeFrom out pieces.flatten = some (out ++ characters) := by
  induction spells generalizing out with
  | nil => rw [List.append_nil]; rfl
  | @cons c piece characters pieces spelled others ih =>
    rw [List.append_cons, ← ih (out ++ [c]), List.flatten_cons]
    cases spelled with
    | literal percent plus => rw [List.singleton_append, urlDecodeFrom_other percent, if_neg plus]
    | plus => rw [List.singleton_append, urlDecodeFrom_other (by decide), if_pos rfl]
    | escape escape =>
      rw [List.cons_append, List.cons_append, List.singleton_append, urlDecodeFrom, if_pos rfl]
      simp only [extractHex_of_escape escape]

/-- `url_decode` succeeds exactly on the spellings of a path, and gives the path that is spelled. -/
theorem urlDecode_spelling (text path : Bytes) :
    urlDecode text = some path ↔ ∃ pieces, text = List.flatten pieces ∧ List.Forall₂ Spells path pieces := by
  constructor
  · intro decoded
    obtain ⟨characters, pieces, rfl, split, spells⟩ := spells_of_urlDecodeFrom decoded
    exact ⟨pieces, split, spells⟩
  · rintro ⟨pieces, rfl, spells⟩
    exact urlDecodeFrom_of_spells spells []

/-! ### The document root -/

def dotDot : Bytes := ascii ".."

def dot : Bytes := ascii "."

/-- The paths below the document root, where `sep` says which characters the file system takes as separators. -/
abbrev BelowRoot (sep : UInt8 → Bool) (docRoot path : Bytes) : Prop := Path.Inside sep dotDot dot docRoot path

theorem hasDotDot_append_left {front back : Bytes} (found : hasDotDot front = true) :
    hasDotDot (front ++ back) = true := by
  induction front with
  | nil => cases found
  | cons a front ih =>
    cases front with
    | nil => cases found
    | cons b front =>
      rw [hasDotDot, Bool.or_eq_true] at found
      rw [List.cons_append, List.cons_append, hasDotDot, Bool.or_eq_true]
      exact found.imp_right ih

theorem hasDotDot_append_right {front back : Bytes} (found : hasDotDot back = true) :
    hasDotDot (front ++ back) = true := by
  induction front with
  | nil => exact found
  | cons a front ih =>
    rw [List.cons_append]
    cases shape : front ++ back with
    | nil =>
      rw [shape] at ih
      cases ih
    | cons b rest =>
      rw [shape] at ih
      rw [hasDotDot, ih, Bool.or_true]

theorem dotDot_not_mem_split {sep : UInt8 → Bool} {path : Bytes} (clean : hasDotDot path = false) :
    dotDot ∉ Path.split sep path := by
  intro member
  obtain ⟨front, back, rfl⟩ := Path.isInfix_of_mem_split member
  have found : hasDotDot (front ++ dotDot ++ back) = true :=
    hasDotDot_append_left (hasDotDot_append_right (by decide))
  rw [clean] at found
  cases found

theorem hasDotDot_cut {front back : Bytes} {c : UInt8} (other : c ≠ chr '.') :
    hasDotDot (front ++ c :: back) = (hasDotDot front || hasDotDot (c :: back)) := by
  induction front with
  | nil => rfl
  | cons a front ih =>
    cases front with
    | nil =>
      rw [List.singleton_append, hasDotDot]
      simp [other, hasDotDot]
    | cons b front =>
      rw [List.cons_append, List.cons_append, hasDotDot, ← List.cons_append, ih, hasDotDot, Bool.or_assoc]

/-- The path that the handler appends to the document root. -/
def filePath (requestPath : Bytes) : Bytes :=
  if requestPath.getLast? = some (chr '/') then requestPath ++ ascii "index.html" else requestPath

theorem hasDotDot_filePath {path : Bytes} (clean : hasDotDot path = false) : hasDotDot (filePath path) = false := by
  have index : ascii "index.html" = chr 'i' :: ascii "ndex.html" := by decide
  rw [filePath]
  split
  · rw [index, hasDotDot_cut (by decide), clean]
    decide
  · exact clean

theorem filePath_cons (path : Bytes) : ∃ rest, filePath (chr '/' :: path) = chr '/' :: rest := by
  rw [filePath]
  split
  · exact ⟨path ++ ascii "index.html", rfl⟩
  · exact ⟨path, rfl⟩

/-- What the handler opens is below the document root, also when a NUL cuts the name short. -/
theorem belowRoot_filePath {sep : UInt8 → Bool} (slash : sep (chr '/') = true) {docRoot path : Bytes}
    (rooted : docRoot ≠ []) (whole : ∀ c ∈ docRoot, c ≠ 0) (clean : hasDotDot (chr '/' :: path) = false) :
    BelowRoot sep docRoot (cStr (docRoot ++ filePath (chr '/' :: path))) := by
  obtain ⟨rest, shape⟩ := filePath_cons path
  have clean := hasDotDot_filePath clean
  rw [shape] at clean ⊢
  have cut : cStr (docRoot ++ chr '/' :: rest) = docRoot ++ chr '/' :: cStr rest := by
    rw [cStr, List.takeWhile_append_of_pos (by simpa using whole), List.takeWhile_cons_of_pos (by decide), cStr]
  rw [cut]
  refine Path.inside_append slash rooted (dotDot_not_mem_split ?_)
  by_contra found
  have found : hasDotDot (cStr rest) = true := by simpa using found
  have everywhere : hasDotDot (chr '/' :: rest) = true := by
    rw [← List.takeWhile_append_dropWhile (p := (· ≠ 0)) (l := rest)]
    exact @hasDotDot_append_right [chr '/'] _ (hasDotDot_append_left found)
  rw [clean] at everywhere
  cases everywhere

/-- No reply depends on a file outside the document root: two file systems that agree below it give every request
the same reply. -/
theorem handleRequest_confined (sep : UInt8 → Bool) (slash : sep (chr '/') = true) (docRoot : Bytes)
    (rooted : docRoot ≠ []) (whole : ∀ c ∈ docRoot, c ≠ 0) (files others : FileSystem)
    (agree : ∀ path, BelowRoot sep docRoot path → files path = others path) (req : Request) (rep : Reply) :
    handleRequest docRoot files req rep = handleRequest docRoot others req rep := by
  rw [handleRequest, handleRequest]
  cases urlDecode req.uri with
  | none => rfl
  | some path =>
    dsimp only
    split
    · rfl
    rename_i absolute
    simp only [not_or, Classical.not_not] at absolute
    obtain ⟨-, first, clean⟩ := absolute
    obtain ⟨path, rfl⟩ := List.head?_eq_some_iff.mp first
    have clean : hasDotDot (chr '/' :: path) = false := by simpa using clean
    have same := agree _ (belowRoot_filePath slash rooted whole clean)
    rw [filePath] at same
    rw [same]

/-- A root served where both slashes separate, a file beside it, and a request that asks for that file. -/
theorem handleRequest_confined_site :
    let files : FileSystem := fun path => if path = ascii "D:/secret" then some (ascii "key") else none
    let req : Request := { uri := ascii "/%2e%2e/secret", httpVersionMajor := 1, httpVersionMinor := 0 }
    handleRequest (ascii "D:/site") (fun _ => none) req ⟨.ok, [], []⟩ =
      handleRequest (ascii "D:/site") files req ⟨.ok, [], []⟩ := by
  intro files req
  refine handleRequest_confined (fun c => c = chr '/' || c = chr '\\') (by decide) (ascii "D:/site")
    (by decide +kernel) (by decide +kernel) (fun _ => none) files (fun path below => ?_) req ⟨.ok, [], []⟩
  by_cases same : path = ascii "D:/secret"
  · subst same
    exact absurd below (by decide +kernel)
  · exact (if_neg same).symm

end MiniProtobuf.Http
