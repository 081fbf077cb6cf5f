import Mathlib

/-! The parser of one line of line protocol: series, field set and timestamp. -/
namespace VarveDB.LineProtocol

abbrev Input := List Char

inductive Error where
  | measurementValueInvalid
  | fieldSetMissing
  | integerValueInvalid (value : Input)
  | uIntegerValueInvalid (value : Input)
  | floatValueInvalid (value : Input)
  | timestampValueInvalid (value : Input)
  | endsWithBackslash
  | cannotParseEntireLine (trailingContent : Input)
  | tagSetMalformed
  | tagSetMalformedWithContext (context : String) (input : Input)
  | genericParsingError
  | context (context : String)
  | expectedSpace (input : Input)
  | expectedTagKey (input : Input)
  | expectedTagValue (input : Input)
  | fieldStringValueTooLarge
  deriving DecidableEq

/-- An `error` lets an alternative be tried; a `failure` does not. -/
inductive Err where
  | error (e : Error)
  | failure (e : Error)
  deriving DecidableEq

abbrev Parser (α : Type) := StateT Input (Except Err) α

inductive FieldValue where
  | i64 (v : Int)
  | u64 (v : Nat)
  | f64 (bits : UInt64)
  | string (v : Input)
  | boolean (v : Bool)
  deriving DecidableEq

structure Series where
  rawInput : Input
  measurement : Input
  tagSet : Option (List (Input × Input))
  deriving DecidableEq

structure ParsedLine where
  series : Series
  fieldSet : List (Input × FieldValue)
  timestamp : Option Int
  deriving DecidableEq

/-- The crate's `large-strings` feature; the server's default features turn it on. -/
class Features where
  largeStrings : Bool

instance Features.server : Features := ⟨true⟩

def stringLengthLimitInBytes [Features] : Nat := if Features.largeStrings then 1048576 else 65536

def isWhitespaceBoundaryChar (c : Char) : Bool := c = ' ' || c = '\t' || c = '\n'

def isNullChar (c : Char) : Bool := c = '\x00'

section Combinators
variable {α β : Type} (p : Parser α)

@[simp] theorem bind_apply (f : α → Parser β) (i : Input) : (p >>= f) i = match p i with
    | .ok (a, rest) => f a rest
    | .error e => .error e := by
  simp only [bind, StateT.bind, Except.bind]
  cases p i <;> rfl

@[simp] theorem map_apply (f : α → β) (i : Input) : (f <$> p) i = match p i with
    | .ok (a, rest) => .ok (f a, rest)
    | .error e => .error e := bind_apply p (pure ∘ f) i

@[simp] theorem pure_apply (a : α) (i : Input) : (pure a : Parser α) i = .ok (a, i) := rfl

theorem bind_eq_ok {p : Parser α} {f : α → Parser β} {i : Input} {r : β × Input} (h : (p >>= f) i = .ok r) :
    ∃ a rest, p i = .ok (a, rest) ∧ f a rest = .ok r := by
  rw [bind_apply] at h
  cases hp : p i with
  | error e => simp [hp] at h
  | ok a => exact ⟨a.1, a.2, rfl, by simpa [hp] using h⟩

def tag (t : String) : Parser Input := fun i =>
  if t.toList.isPrefixOf i then .ok (t.toList, i.drop t.length) else .error (.error .genericParsingError)

def takeWhile1 (p : Char → Bool) : Parser Input := fun i =>
  match i.takeWhile p with
  | [] => .error (.error .genericParsingError)
  | parsed => .ok (parsed, i.drop parsed.length)

def orElse (p q : Parser α) : Parser α := fun i =>
  match p i with
  | .error (.error _) => q i
  | r => r

def opt : Parser (Option α) := fun i =>
  match p i with
  | .ok (a, rest) => .ok (some a, rest)
  | .error (.error _) => .ok (none, i)
  | .error e => .error e

def cut : Parser α := fun i =>
  match p i with
  | .error (.error e) => .error (.failure e)
  | r => r

def mapFail (first : Parser α) (second : α → Except Error β) : Parser β := do
  let value ← first
  match second value with
  | .ok v => pure v
  | .error e => throw (.failure e)

/-- The rounds after the first element; a separator that no element follows is left in the input. The length of the
input is enough fuel. -/
def separatedRounds (f : Parser α) : Nat → List α → Parser (List α)
  | 0, _ => fun _ => .error (.error .genericParsingError)
  | fuel + 1, res => fun i =>
    match tag "," i with
    | .error _ => .ok (res, i)
    | .ok (_, i1) =>
      match f i1 with
      | .error (.error _) => .ok (res, i)
      | .error e => .error e
      | .ok (o, i2) => separatedRounds f fuel (res ++ [o]) i2

def parameterizedSeparatedList (f : Parser α) (res : List α) : Parser (List α) := fun i =>
  match f i with
  | .error (.error _) => .ok (res, i)
  | .error e => .error e
  | .ok (o, i1) => separatedRounds f (i1.length + 1) (res ++ [o]) i1

/-- A separator after the first element is taken whether or not an element follows it. -/
def parameterizedSeparatedList1 (f : Parser α) : Parser (List α) := do
  let first ← f
  match ← opt (tag ",") with
  | none => pure [first]
  | some _ => parameterizedSeparatedList f [first]

end Combinators

def escapeOrFallbackInner (normal : Char → Bool) (escaped : List Char) : Input → Input × Input
  | [] => ([], [])
  | ['\\'] => (['\\'], [])
  | '\\' :: c :: i =>
    let (s, rest) := escapeOrFallbackInner normal escaped i
    (if c ∈ escaped then c :: s else '\\' :: c :: s, rest)
  | c :: i =>
    if normal c then
      let (s, rest) := escapeOrFallbackInner normal escaped i
      (c :: s, rest)
    else ([], c :: i)

variable [Features] (normal : Char → Bool)

def escapeOrFallback (escaped : List Char) : Parser Input := fun i =>
  let (s, rest) := escapeOrFallbackInner normal escaped i
  if rest = i then .error (.error .genericParsingError)
  else if s.getLast? = some '\\' then .error (.failure .endsWithBackslash)
  else if (String.ofList s).utf8ByteSize > stringLengthLimitInBytes then .error (.failure .fieldStringValueTooLarge)
  else .ok (s, rest)

def escapedValue : Parser Input := escapeOrFallback normal ['\\', ',', '=', ' ']

def measurement : Parser Input := fun i =>
  match escapeOrFallback (fun c => !isWhitespaceBoundaryChar c && !isNullChar c && c ≠ ',' && c ≠ '\\')
    [',', ' ', '\\'] i with
  | .error (.error _) => .error (.error .measurementValueInvalid)
  | other => other

def tagKey : Parser Input := fun i =>
  match escapedValue (fun c => !isWhitespaceBoundaryChar c && c ≠ '=' && c ≠ '\\') i with
  | .error (.error .genericParsingError) => .error (.error (.expectedTagKey i))
  | other => other

def tagValue : Parser Input := fun i =>
  match escapedValue (fun c => !isWhitespaceBoundaryChar c && c ≠ ',' && c ≠ '\\') i with
  | .error (.error .genericParsingError) => .error (.error (.expectedTagValue i))
  | other => other

def equalsSign : Parser Input := fun i =>
  match cut (tag "=") i with
  | .error (.error _) => .error (.error (.context "equals sign"))
  | .error (.failure _) => .error (.failure (.context "equals sign"))
  | other => other

def oneTag : Parser (Input × Input) := do
  let key ← cut tagKey
  let _ ← equalsSign
  let value ← cut tagValue
  return (key, value)

def tagSet : Parser (List (Input × Input)) := parameterizedSeparatedList oneTag []

def maybeTagset : Parser (Option (List (Input × Input))) := fun i =>
  match tag "," i with
  | .error (.error _) => .ok (none, i)
  | .error e => .error e
  | .ok (_, remainder) =>
    match tagSet remainder with
    | .ok ([], _) => .error (.error .tagSetMalformed)
    | .ok (ts, i) => .ok (some ts, i)
    | .error (.error _) => .error (.failure .tagSetMalformed)
    | .error (.failure (.context context)) => .error (.failure (.tagSetMalformedWithContext context remainder))
    | .error e => .error e

def series : Parser Series := do
  let input ← get
  let measurement ← measurement
  let tagSet ← maybeTagset
  let rest ← get
  return ⟨input.take (input.length - rest.length), measurement, tagSet⟩

def digit1 : Parser Input := takeWhile1 fun c => '0' ≤ c && c ≤ '9'

def integralValueSigned : Parser Input := do
  let sign ← opt (tag "-")
  let digits ← digit1
  return sign.getD [] ++ digits

def exponentialValue : Parser Input := do
  let whole ← digit1
  let e ← orElse (tag "e") (tag "E")
  let sign ← opt (orElse (tag "-") (tag "+"))
  let digits ← digit1
  return whole ++ e ++ sign.getD [] ++ digits

def withPoint (whole fraction : Parser Input) : Parser Input := do
  let whole ← whole
  let point ← tag "."
  let fraction ← fraction
  return whole ++ point ++ fraction

def fieldFloatValueWithDecimal : Parser Input := withPoint integralValueSigned digit1

def fieldFloatValueWithExponentialAndDecimal : Parser Input := withPoint integralValueSigned exponentialValue

def fieldFloatValueWithExponentialNoDecimal : Parser Input := do
  let sign ← opt (tag "-")
  let exponential ← exponentialValue
  return sign.getD [] ++ exponential

def fieldFloatValueNoDecimal : Parser Input := integralValueSigned

def natOfDigits (digits : Input) : Nat := digits.foldl (fun n c => 10 * n + (c.toNat - '0'.toNat)) 0

def parseI64 (value : Input) : Option Int :=
  let v : Int := match value with
    | '-' :: digits => -natOfDigits digits
    | digits => natOfDigits digits
  if -2 ^ 63 ≤ v ∧ v < 2 ^ 63 then some v else none

def parseU64 (value : Input) : Option Nat := if natOfDigits value < 2 ^ 64 then some (natOfDigits value) else none

def parsedAs {α : Type} (parse : Input → Option α) (error : Input → Error) (value : Input) : Except Error α :=
  (parse value).elim (.error (error value)) .ok

def terminated (p : Parser Input) (t : String) : Parser Input := do
  let value ← p
  let _ ← tag t
  return value

def fieldIntegerValue : Parser Int :=
  mapFail (terminated integralValueSigned "i") (parsedAs parseI64 .integerValueInvalid)

def fieldUintegerValue : Parser Nat := mapFail (terminated digit1 "u") (parsedAs parseU64 .uIntegerValueInvalid)

def stringData : Input → Input × Input
  | [] => ([], [])
  | '\\' :: '"' :: i => let (s, rest) := stringData i; ('"' :: s, rest)
  | '\\' :: '\\' :: i => let (s, rest) := stringData i; ('\\' :: s, rest)
  | '"' :: i => ([], '"' :: i)
  | c :: i => let (s, rest) := stringData i; (c :: s, rest)

def quotedStr : Parser Input := do
  let _ ← tag "\""
  let value ← modifyGet stringData
  let _ ← tag "\""
  return value

def fieldStringValue : Parser Input :=
  mapFail quotedStr fun value =>
    if stringLengthLimitInBytes ≥ (String.ofList value).utf8ByteSize then .ok value else
      .error .fieldStringValueTooLarge

def fieldBoolValue : Parser Bool :=
  let literals := [("true", true), ("True", true), ("TRUE", true), ("t", true), ("T", true), ("false", false),
    ("False", false), ("FALSE", false), ("f", false), ("F", false)]
  literals.foldr (fun l rest => orElse ((fun _ => l.2) <$> tag l.1) rest) fun _ => .error (.error .genericParsingError)

def fieldKey : Parser Input := escapedValue fun c => !isWhitespaceBoundaryChar c && c ≠ '=' && c ≠ '\\'

def whitespace : Parser Input := fun i =>
  match takeWhile1 (fun c => c = ' ') i with
  | .error _ => .error (.error (.expectedSpace i))
  | other => other

def timestamp : Parser Int := mapFail integralValueSigned (parsedAs parseI64 .timestampValueInvalid)

section
variable (parseF64 : Input → Option UInt64)

def fieldFloatValue : Parser UInt64 :=
  mapFail (orElse fieldFloatValueWithExponentialAndDecimal <| orElse fieldFloatValueWithExponentialNoDecimal <|
    orElse fieldFloatValueWithDecimal fieldFloatValueNoDecimal) (parsedAs parseF64 .floatValueInvalid)

def fieldValue : Parser FieldValue :=
  orElse (.i64 <$> fieldIntegerValue) <| orElse (.u64 <$> fieldUintegerValue) <|
    orElse (.f64 <$> fieldFloatValue parseF64) <| orElse (.string <$> fieldStringValue) (.boolean <$> fieldBoolValue)

def oneField : Parser (Input × FieldValue) := do
  let key ← fieldKey
  let _ ← tag "="
  let value ← fieldValue parseF64
  return (key, value)

def fieldSet : Parser (List (Input × FieldValue)) := fun i =>
  match parameterizedSeparatedList1 (oneField parseF64) i with
  | .error (.error _) => .error (.error .fieldSetMissing)
  | other => other

def precededTimestamp : Parser Int := do
  let _ ← whitespace
  let t ← timestamp
  let _ ← opt whitespace
  return t

def parseLine : Parser ParsedLine := do
  let series ← series
  let _ ← whitespace
  let fieldSet ← fieldSet parseF64
  let timestamp ← opt precededTimestamp
  return ⟨series, fieldSet, timestamp⟩

variable {parseF64} {i rest : Input}

theorem series_eq_ok {s : Series} (h : series i = .ok (s, rest)) :
    ∃ r, measurement i = .ok (s.measurement, r) ∧ maybeTagset r = .ok (s.tagSet, rest) ∧ s.rawInput <+: i := by
  obtain ⟨_, _, ⟨⟩, h⟩ := bind_eq_ok h
  obtain ⟨m, r, hmeasurement, h⟩ := bind_eq_ok h
  obtain ⟨tags, _, htags, ⟨⟩⟩ := bind_eq_ok h
  exact ⟨r, hmeasurement, htags, List.take_prefix _ _⟩

theorem parseLine_eq_ok {line : ParsedLine} (h : parseLine parseF64 i = .ok (line, rest)) :
    ∃ r1 r2 r3 blank, series i = .ok (line.series, r1) ∧ whitespace r1 = .ok (blank, r2) ∧
      fieldSet parseF64 r2 = .ok (line.fieldSet, r3) ∧ opt precededTimestamp r3 = .ok (line.timestamp, rest) := by
  obtain ⟨series, r1, hseries, h⟩ := bind_eq_ok h
  obtain ⟨blank, r2, hblank, h⟩ := bind_eq_ok h
  obtain ⟨fields, r3, hfields, h⟩ := bind_eq_ok h
  obtain ⟨time, _, htime, ⟨⟩⟩ := bind_eq_ok h
  exact ⟨r1, r2, r3, blank, hseries, hblank, hfields, htime⟩

end
end VarveDB.LineProtocol
