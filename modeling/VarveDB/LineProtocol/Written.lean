import VarveDB.LineProtocol.Lines

/-! Lines as they are written out, and how they are read back. -/
namespace VarveDB.LineProtocol

open List

/-- A text that is read as a name: characters that need no escape, escapes, and backslashes that are kept since the
character after them needs none. -/
inductive Spelled (stops escaped : List Char) : Input → Input → Prop
  | nil : Spelled stops escaped [] []
  | plain {c : Char} {text s : Input} (h : c ∉ stops) (rest : Spelled stops escaped text s) :
      Spelled stops escaped (c :: text) (c :: s)
  | escaped {c : Char} {text s : Input} (h : c ∈ escaped) (rest : Spelled stops escaped text s) :
      Spelled stops escaped ('\\' :: c :: text) (c :: s)
  | kept {c : Char} {text s : Input} (h : c ∉ escaped) (rest : Spelled stops escaped text s) :
      Spelled stops escaped ('\\' :: c :: text) ('\\' :: c :: s)

/-- What ends a measurement, a key, and the value of a tag. -/
def measurementStops : List Char := [',', ' ', '\t', '\n', '\x00', '\\']
def keyStops : List Char := ['=', ' ', '\t', '\n', '\\']
def valueStops : List Char := [',', ' ', '\t', '\n', '\\']

structure Legible [Features] (s : Input) : Prop where
  nonempty : s ≠ []
  last : s.getLast? ≠ some '\\'
  size : (String.ofList s).utf8ByteSize ≤ stringLengthLimitInBytes

def Names [Features] (stops : List Char) (text s : Input) : Prop :=
  Spelled stops ['\\', ',', '=', ' '] text s ∧ Legible s

section Names
variable {stops escaped : List Char} {normal : Char → Bool} {text s rest : Input}

section
variable (h : Spelled stops escaped text s)
include h

private theorem inner_of_spelled (hslash : '\\' ∈ stops)
    (hnormal : ∀ c ∉ stops, normal c = true) (hrest : ∀ c ∈ rest.head?, normal c = false ∧ c ≠ '\\') :
    escapeOrFallbackInner normal escaped (text ++ rest) = (s, rest) := by
  induction h with
  | nil =>
    cases rest with
    | nil => rfl
    | cons c rest =>
      obtain ⟨hc, hne⟩ := hrest c rfl
      rw [nil_append, escapeOrFallbackInner, hc]
      · rfl
      · exact fun h _ => hne h
      · exact fun _ _ h _ => hne h
  | @plain c text s h _ ih =>
    have hne : c ≠ '\\' := fun hc => h (hc ▸ hslash)
    rw [cons_append, escapeOrFallbackInner, hnormal c h, ih]
    · rfl
    · exact fun h _ => hne h
    · exact fun _ _ h _ => hne h
  | escaped h _ ih | kept h _ ih => simp [escapeOrFallbackInner, ih, h]

theorem Spelled.mono {stops' : List Char} (hstops : stops' ⊆ stops) : Spelled stops' escaped text s := by
  induction h with
  | nil => exact .nil
  | plain h _ ih => exact .plain (fun hc => h (hstops hc)) ih
  | escaped h _ ih => exact .escaped h ih
  | kept h _ ih => exact .kept h ih

private theorem Spelled.head (hs : s ≠ []) : ∃ c t, text = c :: t ∧ (c = '\\' ∨ c ∉ stops ∧ s.head? = some c) := by
  cases h with
  | nil => exact absurd rfl hs
  | plain h _ => exact ⟨_, _, rfl, .inr ⟨h, rfl⟩⟩
  | escaped _ _ | kept _ _ => exact ⟨_, _, rfl, .inl rfl⟩

theorem escapeOrFallback_of_spelled [Features] (hs : Legible s) (hslash : '\\' ∈ stops)
    (hnormal : ∀ c ∉ stops, normal c = true) (hrest : ∀ c ∈ rest.head?, normal c = false ∧ c ≠ '\\') :
    escapeOrFallback normal escaped (text ++ rest) = .ok (s, rest) := by
  have hsome : ¬ rest = text ++ rest := by
    intro heq
    have : text = [] := self_eq_append_left.mp heq
    subst this
    cases h
    exact hs.nonempty rfl
  rw [escapeOrFallback, inner_of_spelled h hslash hnormal hrest]
  dsimp only
  rw [if_neg hsome, if_neg hs.last, if_neg (Nat.not_lt.mpr hs.size)]

end

variable [Features]

private theorem measurement_of_spelled (h : Spelled measurementStops [',', ' ', '\\'] text s) (hs : Legible s)
    (hrest : rest.head? = some ',' ∨ rest.head? = some ' ') : measurement (text ++ rest) = .ok (s, rest) := by
  rw [measurement, escapeOrFallback_of_spelled h hs (by decide)]
  · intro c hc
    simp only [measurementStops, mem_cons, not_mem_nil, or_false, not_or] at hc
    simp [isWhitespaceBoundaryChar, isNullChar, hc]
  · intro c hc
    rcases hrest with hrest | hrest <;> cases hrest.symm.trans hc <;> decide

private theorem fieldKey_of_names (h : Names keyStops text s) (rest : Input) :
    fieldKey (text ++ '=' :: rest) = .ok (s, '=' :: rest) := by
  refine escapeOrFallback_of_spelled h.1 h.2 (by decide) (fun c hc => ?_) (by simp)
  simp only [keyStops, mem_cons, not_mem_nil, or_false, not_or] at hc
  simp [isWhitespaceBoundaryChar, hc]

private theorem tagValue_of_names (h : Names valueStops text s)
    (hrest : rest.head? = some ',' ∨ rest.head? = some ' ') : tagValue (text ++ rest) = .ok (s, rest) := by
  rw [tagValue, escapedValue, escapeOrFallback_of_spelled h.1 h.2 (by decide)]
  · intro c hc
    simp only [valueStops, mem_cons, not_mem_nil, or_false, not_or] at hc
    simp [isWhitespaceBoundaryChar, hc]
  · intro c hc
    rcases hrest with hrest | hrest <;> cases hrest.symm.trans hc <;> decide

end Names

variable {c : Char} {v : Int}

section Division
variable {scan scan' scan'' : Scan} {text text' : Input}

def Keeps (scan : Scan) (text : Input) (scan' : Scan) : Prop :=
  ∀ done line, text.foldl Splitter.push ⟨done, line, scan⟩ = ⟨done, line ++ text, scan'⟩

theorem Keeps.nil (scan : Scan) : Keeps scan [] scan := fun done line => by simp

theorem Keeps.append (h : Keeps scan text scan') (h' : Keeps scan' text' scan'') :
    Keeps scan (text ++ text') scan'' := by
  intro done line
  rw [foldl_append, h, h', append_assoc]

theorem Keeps.cons (h : scan.next c = (scan', false)) (h' : Keeps scan' text scan'') :
    Keeps scan (c :: text) scan'' := by
  intro done line
  rw [foldl_cons, push_of_not_sep h, h', append_assoc]
  rfl

private theorem Keeps.of_chars (h : ∀ c ∈ text, scan.next c = (scan, false)) : Keeps scan text scan := by
  induction text with
  | nil => exact .nil scan
  | cons c text ih => exact .cons (h c mem_cons_self) (ih fun c' hc' => h c' (mem_cons_of_mem c hc'))

theorem Spelled.keeps {stops escaped : List Char} {s : Input} (h : Spelled stops escaped text s)
    (hscan : scan.inEscape = false) (hplain : ∀ c ∉ stops, scan.next c = (scan, false)) : Keeps scan text scan := by
  induction h with
  | nil => exact .nil scan
  | plain h _ ih => exact .cons (hplain _ h) ih
  | escaped h _ ih | kept h _ ih =>
    intro done line
    rw [foldl_cons, foldl_cons, push_escaped done line hscan, ih, append_assoc]
    rfl

structure Outside (s : Scan) : Prop where
  quoted : s.quoted = false
  fields : s.fields = true
  inEscape : s.inEscape = false

/-- In front of a key, or for `n = 1` of a value. Commas may have been counted that belong to a key; then no
string may follow. -/
structure AtField (strings : Prop) (n : Nat) (s : Scan) : Prop extends Outside s where
  le : s.equals ≤ s.commas + n
  eq : strings → s.equals = s.commas + n

section
variable (h : Outside scan)
include h

private theorem Outside.next_plain (hc : c ∉ ['"', ',', '=', ' ', '\n', '\\']) : scan.next c = (scan, false) := by
  simp only [mem_cons, not_mem_nil, or_false, not_or] at hc
  simp [Scan.next, h.inEscape, hc]

private theorem Outside.next_equals : scan.next '=' = ({ scan with equals := scan.equals + 1 }, false) := by
  simp [Scan.next, h.inEscape, h.fields, h.quoted]

private theorem Outside.next_comma : scan.next ',' = ({ scan with commas := scan.commas + 1 }, false) := by
  simp [Scan.next, h.inEscape, h.fields, h.quoted]

end

variable {strings : Prop} {n : Nat} {escaped : List Char} {s : Input}

section
variable (h : AtField strings 0 scan)
include h

private theorem AtField.next_key (hc : c ∉ ',' :: keyStops) : scan.next c = (scan, false) := by
  simp only [keyStops, mem_cons, not_mem_nil, or_false, not_or] at hc
  simp [Scan.next, h.inEscape, hc]
  exact fun _ _ hlt => absurd h.le (Nat.not_le.mpr hlt)

private theorem AtField.keeps_key (hkey : Spelled keyStops escaped text s)
    (hcommas : strings → Spelled (',' :: keyStops) escaped text s) :
    ∃ scan', Keeps scan text scan' ∧ AtField strings 0 scan' := by
  by_cases hstrings : strings
  · exact ⟨scan, (hcommas hstrings).keeps h.inEscape fun _ => h.next_key, h⟩
  clear hcommas
  induction hkey generalizing scan with
  | nil => exact ⟨scan, .nil scan, h⟩
  | @plain c text s hc _ ih =>
    by_cases hcomma : c = ','
    · subst hcomma
      have hnext : AtField strings 0 { scan with commas := scan.commas + 1 } :=
        ⟨⟨h.quoted, h.fields, h.inEscape⟩, Nat.le_succ_of_le h.le, fun hs => absurd hs hstrings⟩
      obtain ⟨scan', hkeeps, hscan'⟩ := ih hnext
      exact ⟨scan', .cons h.next_comma hkeeps, hscan'⟩
    · obtain ⟨scan', hkeeps, hscan'⟩ := ih h
      exact ⟨scan', .cons (h.next_key (not_mem_cons_of_ne_of_not_mem hcomma hc)) hkeeps, hscan'⟩
  | escaped _ _ ih | kept _ _ ih =>
    obtain ⟨scan', hkeeps, hscan'⟩ := ih h
    exact ⟨scan',
      fun done line => by rw [foldl_cons, foldl_cons, push_escaped done line h.inEscape, hkeeps, append_assoc]; rfl,
      hscan'⟩

theorem AtField.equals : AtField strings 1 { scan with equals := scan.equals + 1 } :=
  ⟨⟨h.quoted, h.fields, h.inEscape⟩, Nat.succ_le_succ h.le, fun hs => congrArg (· + 1) (h.eq hs)⟩

end

theorem AtField.comma (h : AtField strings 1 scan) : AtField strings 0 { scan with commas := scan.commas + 1 } :=
  ⟨⟨h.quoted, h.fields, h.inEscape⟩, h.le, h.eq⟩

end Division

section Numbers

def signed (v : Int) : Input := if v < 0 then '-' :: Nat.toDigits 10 v.natAbs else Nat.toDigits 10 v.natAbs

private theorem digit1_toDigits (n : Nat) (rest : Input) (hrest : ∀ c ∈ rest.head?, c.isDigit = false) :
    digit1 (Nat.toDigits 10 n ++ rest) = .ok (Nat.toDigits 10 n, rest) := by
  have hdigit (c : Char) : ('0' ≤ c && c ≤ '9') = c.isDigit := by
    simp only [Char.isDigit, ge_iff_le, Char.le_def]
  have htake : (Nat.toDigits 10 n ++ rest).takeWhile (fun c => '0' ≤ c && c ≤ '9') = Nat.toDigits 10 n := by
    rw [takeWhile_append_of_pos fun c hc => (hdigit c).trans (Nat.isDigit_of_mem_toDigits (by decide) (by decide) hc)]
    cases rest with
    | nil => simp
    | cons c rest => rw [takeWhile_cons_of_neg (by rw [hdigit, hrest c rfl]; decide), append_nil]
  rw [digit1, takeWhile1, htake]
  split
  · rename_i hnil
    exact absurd hnil Nat.toDigits_ne_nil
  · rw [drop_left]

theorem natOfDigits_toDigits (n : Nat) : natOfDigits (Nat.toDigits 10 n) = n :=
  Nat.ofDigitChars_toDigits (by decide) (by decide)

private theorem toDigits_eq_cons (n : Nat) : ∃ c ds, Nat.toDigits 10 n = c :: ds ∧ c ≠ '-' := by
  obtain ⟨c, ds, hcons⟩ := exists_cons_of_ne_nil (Nat.toDigits_ne_nil (n := n) (b := 10))
  have hdigit :
      c.isDigit = true := Nat.isDigit_of_mem_toDigits (b := 10) (n := n) (by decide) (by decide) (by simp [hcons])
  exact ⟨c, ds, hcons, fun hc => by subst hc; revert hdigit; decide⟩

theorem integralValueSigned_signed (v : Int) (rest : Input) (hrest : ∀ c ∈ rest.head?, c.isDigit = false) :
    integralValueSigned (signed v ++ rest) = .ok (signed v, rest) := by
  have hdigits := digit1_toDigits v.natAbs rest hrest
  unfold signed
  split_ifs
  · have hsign : opt (tag "-") ('-' :: (Nat.toDigits 10 v.natAbs ++ rest)) =
      .ok (some ['-'], Nat.toDigits 10 v.natAbs ++ rest) := rfl
    simp [integralValueSigned, hsign, hdigits]
  · have hsign : opt (tag "-") (Nat.toDigits 10 v.natAbs ++ rest) = .ok (none, Nat.toDigits 10 v.natAbs ++ rest) := by
      obtain ⟨c, ds, hcons, hne⟩ := toDigits_eq_cons v.natAbs
      simp [hcons, opt, tag, hne.symm]
    simp [integralValueSigned, hsign, hdigits]

private theorem parseI64_signed (h : -2 ^ 63 ≤ v ∧ v < 2 ^ 63) : parseI64 (signed v) = some v := by
  have hrange (w : Int) (hw : w = v) : (if -2 ^ 63 ≤ w ∧ w < 2 ^ 63 then some w else none) = some v := by
    rw [hw, if_pos h]
  by_cases hneg : v < 0
  · have hsigned : signed v = '-' :: Nat.toDigits 10 v.natAbs := if_pos hneg
    rw [hsigned]
    exact hrange _ (show -(natOfDigits (Nat.toDigits 10 v.natAbs) : Int) = v by rw [natOfDigits_toDigits]; omega)
  · have hsigned : signed v = Nat.toDigits 10 v.natAbs := if_neg hneg
    obtain ⟨c, ds, hcons, hne⟩ := toDigits_eq_cons v.natAbs
    unfold parseI64
    split
    · rename_i heq
      exact absurd (List.cons.inj ((hsigned.trans hcons).symm.trans heq)).1 hne
    · exact hrange _ (by rw [hsigned, natOfDigits_toDigits]; omega)

end Numbers

def FieldValue.InRange : FieldValue → Prop
  | i64 v => -2 ^ 63 ≤ v ∧ v < 2 ^ 63
  | u64 v => v < 2 ^ 64
  | _ => True

section Values

/-- A text that is read as the value of a field, whatever follows it, and in which no line ends; that of a string
has to follow more `=` than commas. -/
structure Valued [Features] (parseF64 : Input → Option UInt64) (text : Input) (v : FieldValue) : Prop where
  reads (rest : Input) : fieldValue parseF64 (text ++ rest) = .ok (v, rest)
  keeps {scan : Scan} (hscan : Outside scan) (hstring : (∃ s, v = .string s) → scan.commas < scan.equals) :
    Keeps scan text scan

variable {parseF64 : Input → Option UInt64}

theorem Outside.keeps_digits {scan : Scan} {text : Input} (hscan : Outside scan)
    (h : ∀ c ∈ text, c.isDigit = true ∨ c = '-' ∨ c = 'i' ∨ c = 'u') : Keeps scan text scan := by
  refine .of_chars fun c hc => hscan.next_plain ?_
  simp only [mem_cons, not_mem_nil, or_false]
  rintro (rfl | rfl | rfl | rfl | rfl | rfl) <;> exact absurd (h _ hc) (by decide)

theorem mem_signed (h : c ∈ signed v) : c.isDigit = true ∨ c = '-' := by
  have hdigit (h : c ∈ Nat.toDigits 10 v.natAbs) : c.isDigit = true :=
    Nat.isDigit_of_mem_toDigits (by decide) (by decide) h
  unfold signed at h
  split_ifs at h
  · exact (mem_cons.mp h).symm.imp_left hdigit
  · exact .inl (hdigit h)

def escape (special src : Input) : Input := src.flatMap fun ch => if ch ∈ special ∨ ch = '\\' then ['\\', ch] else [ch]

def quoted (v : Input) : Input := '"' :: escape ['"'] v ++ ['"']

private theorem stringData_escape (v rest : Input) : stringData (escape ['"'] v ++ '"' :: rest) = (v, '"' :: rest) := by
  induction v with
  | nil => rfl
  | cons c v ih =>
    rw [escape, flatMap_cons, append_assoc, ← escape]
    by_cases hquote : c = '"'
    · subst hquote
      simp [stringData, ih]
    by_cases hslash : c = '\\'
    · subst hslash
      simp [stringData, ih]
    · rw [if_neg (by simp [hquote, hslash]), singleton_append, stringData, ih]
      all_goals simp [hquote, hslash]

private theorem stringText_escape (v : Input) : StringText (escape ['"'] v) := by
  induction v with
  | nil => exact .empty
  | cons c v ih =>
    rw [escape, flatMap_cons, ← escape]
    split_ifs with hc
    · exact .escaped ih
    · exact .char (fun h => hc (.inr h)) (fun h => hc (.inl (h ▸ mem_cons_self))) ih

variable [Features]

private theorem valued_i64 (h : -2 ^ 63 ≤ v ∧ v < 2 ^ 63) : Valued parseF64 (signed v ++ ['i']) (.i64 v) where
  reads rest := by
    have hread := integralValueSigned_signed v ('i' :: rest) (by simp)
    have htag : tag "i" ('i' :: rest) = .ok (['i'], rest) := rfl
    simp [fieldValue, orElse, fieldIntegerValue, mapFail, terminated, hread, htag, parsedAs, parseI64_signed h]
  keeps hscan _ := hscan.keeps_digits fun c hc => by
    rcases mem_append.mp hc with hc | hc
    · exact (mem_signed hc).imp_right .inl
    · exact .inr (.inr (.inl (mem_singleton.mp hc)))

private theorem valued_u64 {v : Nat} (h : v < 2 ^ 64) : Valued parseF64 (Nat.toDigits 10 v ++ ['u']) (.u64 v) where
  reads rest := by
    have hdigits := digit1_toDigits v ('u' :: rest) (by simp)
    have hread : integralValueSigned (Nat.toDigits 10 v ++ 'u' :: rest) = .ok (Nat.toDigits 10 v, 'u' :: rest) :=
      integralValueSigned_signed v ('u' :: rest) (by simp)
    have hi : tag "i" ('u' :: rest) = .error (.error .genericParsingError) := rfl
    have hu : tag "u" ('u' :: rest) = .ok (['u'], rest) := rfl
    have hparse : parseU64 (Nat.toDigits 10 v) = some v := by rw [parseU64, natOfDigits_toDigits, if_pos h]
    simp [fieldValue, orElse, fieldIntegerValue, fieldUintegerValue, mapFail, terminated, hread, hi, hu, hdigits,
      parsedAs, hparse]
  keeps hscan _ := hscan.keeps_digits fun c hc => by
    rcases mem_append.mp hc with hc | hc
    · exact .inl (Nat.isDigit_of_mem_toDigits (by decide) (by decide) hc)
    · exact .inr (.inr (.inr (mem_singleton.mp hc)))

private theorem valued_boolean (v : Bool) : Valued parseF64 (if v then "true" else "false").toList (.boolean v) where
  reads rest := by cases v <;> rfl
  keeps hscan _ := by
    refine .of_chars fun c hc => hscan.next_plain fun h => ?_
    revert c
    cases v <;> exact forall_iff_forall_mem.mp (by decide)

def FieldValue.written (displayF64 : UInt64 → Input) (text : Input → Input) : FieldValue → Input
  | i64 v => signed v ++ ['i']
  | u64 v => Nat.toDigits 10 v ++ ['u']
  | f64 v => displayF64 v
  | string v => text v
  | boolean v => (if v then "true" else "false").toList

theorem valued_written {displayF64 : UInt64 → Input} {text : Input → Input} {v : FieldValue} (hrange : v.InRange)
    (hfloat : ∀ bits, v ≠ .f64 bits) (hstring : ∀ s, v = .string s → Valued parseF64 (text s) v) :
    Valued parseF64 (v.written displayF64 text) v := by
  cases v with
  | i64 v => exact valued_i64 hrange
  | u64 v => exact valued_u64 hrange
  | f64 v => exact absurd rfl (hfloat v)
  | string v => exact hstring v rfl
  | boolean v => exact valued_boolean v

theorem valued_string {v : Input} (h : (String.ofList v).utf8ByteSize ≤ stringLengthLimitInBytes) :
    Valued parseF64 (quoted v) (.string v) where
  reads rest := by
    have hstring : fieldStringValue (quoted v ++ rest) = .ok (v, rest) := by
      have hopen (i : Input) : tag "\"" ('"' :: i) = .ok (['"'], i) := rfl
      simp [fieldStringValue, mapFail, quotedStr, quoted, hopen, modifyGet, MonadStateOf.modifyGet, StateT.modifyGet,
        pure, StateT.pure, Except.pure, stringData_escape, h]
    have hfloat : fieldValue parseF64 (quoted v ++ rest) =
        orElse (.string <$> fieldStringValue) (.boolean <$> fieldBoolValue) (quoted v ++ rest) := rfl
    simp [hfloat, orElse, hstring]
  keeps {scan} hscan hstring := by
    obtain ⟨quoted, fields, equals, commas, inEscape⟩ := scan
    obtain ⟨rfl, rfl, rfl⟩ := hscan
    obtain ⟨hopen, hwithin⟩ := Within.of_opening (hstring ⟨v, rfl⟩)
    refine .cons hopen (.append (fun done line => ?_) (.cons hwithin.next_quote (.nil _)))
    exact foldl_stringText (stringText_escape v) hwithin done line

end Values

structure Spelling where
  measurement : Input → Input
  key : Input → Input
  value : FieldValue → Input

structure Line where
  measurement : Input
  tags : List (Input × Input)
  field : Input × FieldValue
  fields : List (Input × FieldValue)
  timestamp : Option Int

def Line.HasString (line : Line) : Prop := ∃ field ∈ line.field :: line.fields, ∃ s, field.2 = .string s

namespace Spelling
variable (sp : Spelling) (line : Line)

def tagText (tag : Input × Input) : Input := ',' :: (sp.key tag.1 ++ '=' :: sp.key tag.2)

def seriesText : Input := sp.measurement line.measurement ++ line.tags.flatMap sp.tagText

def fieldText (field : Input × FieldValue) : Input := sp.key field.1 ++ '=' :: sp.value field.2

def fieldsText : Input := sp.fieldText line.field ++ line.fields.flatMap fun field => ',' :: sp.fieldText field

def timestampText : Input := line.timestamp.elim [] fun t => ' ' :: signed t

def lineText : Input := sp.seriesText line ++ ' ' :: (sp.fieldsText line ++ timestampText line)

def parsed : ParsedLine where
  series := ⟨sp.seriesText line, line.measurement, if line.tags = [] then none else some line.tags⟩
  fieldSet := line.field :: line.fields
  timestamp := line.timestamp

/-- Every part of the line is read as what it stands for, and the line is no comment. Where there are strings, the
commas in the keys of fields are escaped. -/
structure Faithful [Features] (parseF64 : Input → Option UInt64) : Prop where
  measurement : Spelled measurementStops [',', ' ', '\\'] (sp.measurement line.measurement) line.measurement ∧
    Legible line.measurement
  comment : line.measurement.head? ≠ some '#'
  tags : ∀ tag ∈ line.tags, Names keyStops (sp.key tag.1) tag.1 ∧ Names valueStops (sp.key tag.2) tag.2
  fields : ∀ field ∈ line.field :: line.fields, Names keyStops (sp.key field.1) field.1 ∧
    Valued parseF64 (sp.value field.2) field.2
  commas : line.HasString → ∀ field ∈ line.field :: line.fields,
    Spelled (',' :: keyStops) ['\\', ',', '=', ' '] (sp.key field.1) field.1
  timestamp : ∀ t, line.timestamp = some t → -2 ^ 63 ≤ t ∧ t < 2 ^ 63

end Spelling

section Lines
variable {sp : Spelling} {line : Line} {parseF64 : Input → Option UInt64} {field : Input × FieldValue}

private theorem oneTag_text [Features] {tag : Input × Input} (rest : Input)
    (h : Names keyStops (sp.key tag.1) tag.1 ∧ Names valueStops (sp.key tag.2) tag.2)
    (hrest : rest.head? = some ',' ∨ rest.head? = some ' ') :
    oneTag (sp.key tag.1 ++ '=' :: (sp.key tag.2 ++ rest)) = .ok (tag, rest) := by
  have hkey : tagKey (sp.key tag.1 ++ '=' :: (sp.key tag.2 ++ rest)) = .ok (tag.1, '=' :: (sp.key tag.2 ++ rest)) := by
    have := fieldKey_of_names h.1 (sp.key tag.2 ++ rest)
    rw [fieldKey] at this
    rw [tagKey, this]
  have hequals : equalsSign ('=' :: (sp.key tag.2 ++ rest)) = .ok (['='], sp.key tag.2 ++ rest) := rfl
  have hvalue := tagValue_of_names h.2 hrest
  simp [oneTag, cut, hkey, hequals, hvalue]

section
variable {α : Type} {f : Parser α} {text : α → Input} {rest : Input} {xs : List α}

private theorem next_text (xs : List α) : xs.flatMap (fun x => ',' :: text x) ++ rest = rest ∨
    (xs.flatMap (fun x => ',' :: text x) ++ rest).head? = some ',' := by
  cases xs with
  | nil => exact .inl rfl
  | cons y ys => exact .inr rfl

private theorem separatedRounds_text
    (hf : ∀ x ∈ xs, ∀ r, r = rest ∨ r.head? = some ',' → f (text x ++ r) = .ok (x, r)) (hrest : rest.head? ≠ some ',')
    {fuel : Nat} (hfuel : xs.length < fuel) (found : List α) :
    separatedRounds f fuel found (xs.flatMap (fun x => ',' :: text x) ++ rest) = .ok (found ++ xs, rest) := by
  induction xs generalizing fuel found with
  | nil =>
    obtain ⟨fuel, rfl⟩ := Nat.exists_eq_succ_of_ne_zero (Nat.ne_of_gt hfuel)
    have htag : ∃ e, tag "," rest = .error e := by
      cases rest with
      | nil => exact ⟨_, rfl⟩
      | cons c rest => exact ⟨.error .genericParsingError, by simp [tag, show ',' ≠ c from fun h => hrest (h ▸ rfl)]⟩
    obtain ⟨e, he⟩ := htag
    simp [separatedRounds, he]
  | cons x xs ih =>
    obtain ⟨fuel, rfl⟩ := Nat.exists_eq_succ_of_ne_zero (Nat.ne_of_gt (Nat.zero_lt_of_lt hfuel))
    obtain ⟨hx, hxs⟩ := forall_mem_cons.mp hf
    have htag (i : Input) : tag "," (',' :: i) = .ok ([','], i) := rfl
    rw [flatMap_cons, append_assoc, cons_append]
    simp only [separatedRounds, htag, hx _ (next_text xs), ih hxs (Nat.lt_of_succ_lt_succ hfuel), append_assoc,
      singleton_append]

private theorem separatedList_text (text : α → Input) (rest : Input) {x : α}
    (hf : ∀ y ∈ x :: xs, ∀ r, r = rest ∨ r.head? = some ',' → f (text y ++ r) = .ok (y, r))
    (hrest : rest.head? ≠ some ',')
    (found : List α) : parameterizedSeparatedList f found (text x ++ (xs.flatMap (fun x => ',' :: text x) ++ rest)) =
      .ok (found ++ x :: xs, rest) := by
  obtain ⟨hx, hxs⟩ := forall_mem_cons.mp hf
  have hfuel : xs.length < (xs.flatMap (fun x => ',' :: text x) ++ rest).length + 1 := by
    have hle (xs : List α) : xs.length ≤ (xs.flatMap (fun x => ',' :: text x)).length := by
      induction xs with
      | nil => exact Nat.le_refl 0
      | cons y ys ih =>
        simp only [length_cons, flatMap_cons, length_append]
        omega
    have := hle xs
    rw [length_append]
    omega
  simp only [parameterizedSeparatedList, hx _ (next_text xs), separatedRounds_text hxs hrest hfuel, append_assoc,
    singleton_append]

end

theorem whitespace_cons {text : Input} (h : ∀ c ∈ text.head?, c ≠ ' ') :
    whitespace (' ' :: text) = .ok ([' '], text) := by
  have hnone : text.takeWhile (fun c => c = ' ') = [] := by
    cases text with
    | nil => rfl
    | cons c text => exact takeWhile_cons_of_neg (by simpa using h c rfl)
  simp [whitespace, takeWhile1, hnone]

open Spelling

private theorem oneField_text [Features] (h : Names keyStops (sp.key field.1) field.1 ∧
      Valued parseF64 (sp.value field.2) field.2) (rest : Input) :
    oneField parseF64 (sp.fieldText field ++ rest) = .ok (field, rest) := by
  have hkey := fieldKey_of_names h.1 (sp.value field.2 ++ rest)
  have hequals : tag "=" ('=' :: (sp.value field.2 ++ rest)) = .ok (['='], sp.value field.2 ++ rest) := rfl
  rw [fieldText, append_assoc, cons_append]
  simp [oneField, hkey, hequals, h.2.reads]

section
variable [Features] {strings : Prop} {scan : Scan} {fields : List (Input × FieldValue)}
  (h : ∀ field ∈ fields, (Names keyStops (sp.key field.1) field.1 ∧ Valued parseF64 (sp.value field.2) field.2) ∧
    (strings → Spelled (',' :: keyStops) ['\\', ',', '=', ' '] (sp.key field.1) field.1) ∧
    ((∃ s, field.2 = .string s) → strings))
include h

private theorem keeps_fieldText (hfield : field ∈ fields) (hscan : AtField strings 0 scan) :
    ∃ scan', Keeps scan (sp.fieldText field) scan' ∧ AtField strings 1 scan' := by
  obtain ⟨⟨hkey, hvalue⟩, hcommas, hstring⟩ := h field hfield
  obtain ⟨scan', hkeeps, hscan'⟩ := hscan.keeps_key hkey.1 hcommas
  refine ⟨_, hkeeps.append (.cons hscan'.next_equals (hvalue.keeps hscan'.equals.toOutside fun hs => ?_)),
    hscan'.equals⟩
  exact Nat.lt_of_lt_of_eq (Nat.lt_succ_self _) (hscan'.equals.eq (hstring hs)).symm

private theorem keeps_fields (hscan : AtField strings 1 scan) :
    ∃ scan', Keeps scan (fields.flatMap fun field => ',' :: sp.fieldText field) scan' ∧ AtField strings 1 scan' := by
  induction fields generalizing scan with
  | nil => exact ⟨scan, .nil _, hscan⟩
  | cons field fields ih =>
    obtain ⟨mid, hfield, hmid⟩ := keeps_fieldText h mem_cons_self hscan.comma
    obtain ⟨scan', hfields, hscan'⟩ := ih (fun field hfield => h field (mem_cons_of_mem _ hfield)) hmid
    exact ⟨scan', (Keeps.cons hscan.next_comma hfield).append hfields, hscan'⟩

end

theorem next_start (hc : c ∉ [' ', '\n', '\\']) : Scan.start.next c = (.start, false) := by
  simp only [mem_cons, not_mem_nil, or_false, not_or] at hc
  simp [Scan.next, Scan.start, hc]

private theorem Spelled.keeps_start {stops escaped : List Char} {text s : Input} (h : Spelled stops escaped text s)
    (hstops : [' ', '\n', '\\'] ⊆ stops) : Keeps .start text .start :=
  h.keeps rfl fun _ hc => next_start fun hin => hc (hstops hin)

variable [Features]

private theorem keeps_tags {tags : List (Input × Input)}
    (h : ∀ tag ∈ tags, Names keyStops (sp.key tag.1) tag.1 ∧ Names valueStops (sp.key tag.2) tag.2) :
    Keeps .start (tags.flatMap sp.tagText) .start := by
  induction tags with
  | nil => exact .nil _
  | cons tag tags ih =>
    obtain ⟨⟨hkey, hvalue⟩, htags⟩ := forall_mem_cons.mp h
    refine Keeps.append (.cons (next_start (by decide)) ?_) (ih htags)
    exact (hkey.1.keeps_start (by decide)).append (.cons (next_start (by decide)) (hvalue.1.keeps_start (by decide)))

section
variable (h : sp.Faithful line parseF64)
include h

private theorem maybeTagset_text (rest : Input) (hrest : rest.head? = some ' ') :
    maybeTagset (line.tags.flatMap sp.tagText ++ rest) =
      .ok (if line.tags = [] then none else some line.tags, rest) := by
  have htags := h.tags
  generalize line.tags = tags at htags
  cases tags with
  | nil =>
    cases rest with
    | nil => cases hrest
    | cons c rest =>
      cases hrest
      rfl
  | cons tag tags =>
    have htag (i : Input) : LineProtocol.tag "," (',' :: i) = .ok ([','], i) := rfl
    have hlist := separatedList_text (f := oneTag) (fun t => sp.key t.1 ++ '=' :: sp.key t.2) rest
      (fun t ht r hr => by
        have := oneTag_text r (htags t ht) (hr.elim (fun h => .inr (h ▸ hrest)) .inl)
        simpa using this) (by simp [hrest]) []
    have htext : (tag :: tags).flatMap sp.tagText ++ rest = ',' :: (sp.key tag.1 ++ '=' :: sp.key tag.2 ++
        (tags.flatMap (fun t => ',' :: (sp.key t.1 ++ '=' :: sp.key t.2)) ++ rest)) := by
      rw [flatMap_cons, append_assoc]
      rfl
    simp only [htext, maybeTagset, htag, tagSet, hlist, nil_append, reduceCtorEq, if_false]

private theorem fieldSet_text (rest : Input) (hrest : rest.head? ≠ some ',') :
    fieldSet parseF64 (sp.fieldsText line ++ rest) = .ok (line.field :: line.fields, rest) := by
  have hone := fun field hfield rest => oneField_text (h.fields field hfield) rest
  unfold fieldsText
  generalize line.field = field, line.fields = fields at hone
  cases fields with
  | nil =>
    have htag : opt (tag ",") rest = .ok (none, rest) := by
      cases rest with
      | nil => rfl
      | cons c rest => simp [opt, tag, show ',' ≠ c from fun h => hrest (h ▸ rfl)]
    simp [fieldSet, parameterizedSeparatedList1, hone field (by simp), htag]
  | cons next fields =>
    have htag (i : Input) : opt (tag ",") (',' :: i) = .ok (some [','], i) := rfl
    have hlist := separatedList_text (f := oneField parseF64) sp.fieldText rest
      (fun y (hy : y ∈ next :: fields) r _ => hone y (mem_cons_of_mem _ hy) r) hrest [field]
    simp [fieldSet, parameterizedSeparatedList1, hone field (by simp), htag, hlist]

private theorem opt_timestamp : opt precededTimestamp (timestampText line) = .ok (line.timestamp, []) := by
  have htime := h.timestamp
  unfold timestampText
  generalize line.timestamp = time at htime
  cases time with
  | none => rfl
  | some t =>
    have hblank : whitespace (' ' :: signed t) = .ok ([' '], signed t) := by
      refine whitespace_cons fun c hc hblank => ?_
      have hmem := mem_signed (mem_of_mem_head? hc)
      rw [hblank] at hmem
      exact absurd hmem (by decide)
    have hread := integralValueSigned_signed t [] (by simp)
    rw [append_nil] at hread
    have htimestamp : timestamp (signed t) = .ok (t, []) := by
      simp [timestamp, mapFail, parsedAs, hread, parseI64_signed (htime t rfl)]
    simp only [opt, precededTimestamp, bind_apply, Option.elim_some, hblank, htimestamp, pure_apply]
    rfl

private theorem parseLine_text : parseLine parseF64 (sp.lineText line) = .ok (sp.parsed line, []) := by
  have hmeasurement : measurement (sp.lineText line) = .ok (line.measurement,
      line.tags.flatMap sp.tagText ++ ' ' :: (sp.fieldsText line ++ timestampText line)) := by
    rw [lineText, seriesText, append_assoc]
    refine measurement_of_spelled h.measurement.1 h.measurement.2 ?_
    cases line.tags with
    | nil => exact .inr rfl
    | cons tag tags => exact .inl rfl
  have htags := maybeTagset_text h (' ' :: (sp.fieldsText line ++ timestampText line)) rfl
  have hseries : series (sp.lineText line) = .ok ((sp.parsed line).series,
      ' ' :: (sp.fieldsText line ++ timestampText line)) := by
    simp only [series, MonadState.get, getThe, MonadStateOf.get, StateT.get, bind_apply, pure, StateT.pure, Except.pure,
      hmeasurement, htags, parsed]
    rw [lineText, length_append, Nat.add_sub_cancel, take_left]
  have hblank : whitespace (' ' :: (sp.fieldsText line ++ timestampText line)) =
      .ok ([' '], sp.fieldsText line ++ timestampText line) := by
    refine whitespace_cons fun c hc hblank => ?_
    obtain ⟨⟨hkey, hlegible⟩, -⟩ := h.fields line.field mem_cons_self
    obtain ⟨first, text, htext, hfirst⟩ := hkey.head hlegible.nonempty
    rw [fieldsText, fieldText, htext] at hc
    obtain rfl : first = c := Option.some.inj hc
    rw [hblank] at hfirst
    exact absurd (hfirst.imp_right And.left) (by decide)
  have hfields := fieldSet_text h (timestampText line) (by
    unfold timestampText
    cases line.timestamp <;> simp)
  simp only [parseLine, bind_apply, pure_apply, hseries, hblank, hfields, opt_timestamp h]
  rfl

private theorem trimLeading_text : trimLeading (sp.lineText line) = sp.lineText line := by
  obtain ⟨first, text, htext, hfirst⟩ := h.measurement.1.head h.measurement.2.nonempty
  have hplain : isWhitespaceBoundaryChar first = false ∧ first ≠ '#' := by
    rcases hfirst with rfl | ⟨hstop, hhead⟩
    · decide
    · simp only [measurementStops, mem_cons, not_mem_nil, or_false, not_or] at hstop
      refine ⟨by simp [isWhitespaceBoundaryChar, hstop], fun hcomment => h.comment (hcomment ▸ hhead)⟩
  refine trimLeading_of_head fun c hc => ?_
  rw [lineText, seriesText, htext] at hc
  exact Option.some.inj hc ▸ hplain

private theorem keeps_lineText : ∃ scan, Keeps .start (sp.lineText line) scan ∧ Outside scan := by
  have hfield : ∀ field ∈ line.field :: line.fields, _ ∧ (line.HasString → _) ∧ ((∃ s, field.2 = .string s) →
      line.HasString) :=
    fun field hfield => ⟨h.fields field hfield, fun hs => h.commas hs field hfield, fun hs => ⟨field, hfield, hs⟩⟩
  have hstart : AtField line.HasString 0 ⟨false, true, 0, 0, false⟩ := ⟨⟨rfl, rfl, rfl⟩, le_rfl, fun _ => rfl⟩
  obtain ⟨mid, hfirst, hmid⟩ := keeps_fieldText hfield mem_cons_self hstart
  obtain ⟨scan, hfields, hscan⟩ := keeps_fields (fun f hf => hfield f (mem_cons_of_mem _ hf)) hmid
  have htime : Keeps scan (timestampText line) scan := by
    unfold timestampText
    cases line.timestamp with
    | none => exact .nil _
    | some t =>
      have hblank : scan.next ' ' = (scan, false) := by
        obtain ⟨quoted, fields, equals, commas, inEscape⟩ := scan
        obtain ⟨⟨rfl, rfl, rfl⟩, -, -⟩ := hscan
        rfl
      exact .cons hblank (hscan.keeps_digits fun c hc => (mem_signed hc).imp_right .inl)
  exact ⟨scan, ((h.measurement.1.keeps_start (by decide)).append (keeps_tags h.tags)).append
    (.cons rfl ((hfirst.append hfields).append htime)), hscan.toOutside⟩

end

/-- A line of which every part is read as what it stands for is read as itself, and the next line begins after it. -/
theorem parseLines_text (h : sp.Faithful line parseF64) (rest : Input) :
    parseLines parseF64 (sp.lineText line ++ '\n' :: rest) = .ok (sp.parsed line) :: parseLines parseF64 rest ∧
    parseLines parseF64 (sp.lineText line) = [.ok (sp.parsed line)] := by
  obtain ⟨scan, hkeeps, hscan⟩ := keeps_lineText h
  have hfold : (sp.lineText line).foldl Splitter.push .start = ⟨[], sp.lineText line, scan⟩ := hkeeps [] []
  have hpiece : parsePiece parseF64 (sp.lineText line) = some (.ok (sp.parsed line)) := by
    simp only [parsePiece, trimLeading_text h]
    split
    · rename_i hnil
      simp [lineText] at hnil
    · simp only [parseLine_text h]
  have halone : parseLines parseF64 (sp.lineText line) = [.ok (sp.parsed line)] := by
    simp [parseLines, splitLines, hfold, Splitter.pieces, hpiece]
  refine ⟨?_, halone⟩
  rw [parseLines_append_of_settled
    (hfold ▸ ⟨hscan.quoted, fun hescape => absurd (hscan.inEscape.symm.trans hescape) Bool.false_ne_true⟩), halone]
  rfl

end Lines

end VarveDB.LineProtocol
