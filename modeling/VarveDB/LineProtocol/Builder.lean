import VarveDB.LineProtocol.Recovered

/-! The builder of line protocol, and what the parser makes of the text that it writes. -/
namespace VarveDB.LineProtocol
open List

def FieldValue.text (displayF64 : UInt64 → Input) : FieldValue → Input := written displayF64 quoted

inductive Stage where
  | beforeMeasurement
  | afterMeasurement
  | afterField
  | afterTimestamp

structure LineProtocolBuilder (stage : Stage) where
  buf : Input

variable (b : LineProtocolBuilder stage)

namespace LineProtocolBuilder
variable {stage : Stage}

def new : LineProtocolBuilder .beforeMeasurement := ⟨[]⟩

def write {next : Stage} (args : Input) : LineProtocolBuilder next := ⟨b.buf ++ args⟩

def measurement (b : LineProtocolBuilder .beforeMeasurement) (measurement : Input) :
    LineProtocolBuilder .afterMeasurement :=
  b.write (escape [',', ' '] measurement)

def build (b : LineProtocolBuilder .beforeMeasurement) : Input := b.buf

def tag (b : LineProtocolBuilder .afterMeasurement) (tag : Input × Input) : LineProtocolBuilder .afterMeasurement :=
  b.write (',' :: (escape [',', '=', ' '] tag.1 ++ '=' :: escape [',', '=', ' '] tag.2))

def close : LineProtocolBuilder .beforeMeasurement := b.write ['\n']

def timestamp (b : LineProtocolBuilder .afterField) (ts : Int) : LineProtocolBuilder .afterTimestamp :=
  b.write (' ' :: signed ts)

variable (displayF64 : UInt64 → Input)

def formatField (field : Input × FieldValue) : Input :=
  escape [',', '=', ' '] field.1 ++ '=' :: field.2.text displayF64

def firstField (b : LineProtocolBuilder .afterMeasurement) (field : Input × FieldValue) :
    LineProtocolBuilder .afterField :=
  b.write (' ' :: formatField displayF64 field)

def field (b : LineProtocolBuilder .afterField) (field : Input × FieldValue) : LineProtocolBuilder .afterField :=
  b.write (',' :: formatField displayF64 field)

def line (b : LineProtocolBuilder .beforeMeasurement) (line : Line) : LineProtocolBuilder .beforeMeasurement :=
  let tagged := line.tags.foldl tag (b.measurement line.measurement)
  let b := line.fields.foldl (field displayF64) (tagged.firstField displayF64 line.field)
  match line.timestamp with
  | none => b.close
  | some ts => (b.timestamp ts).close

def batch (lines : List Line) : Input := (lines.foldl (line displayF64) new).build

end LineProtocolBuilder

namespace Line

def names (line : Line) : List Input :=
  line.measurement :: line.tags.flatMap (fun tag => [tag.1, tag.2]) ++ (line.field :: line.fields).map Prod.fst

/-- A line of names that are not empty or too long, and of values that are no floats. -/
structure Given [Features] (line : Line) : Prop where
  names : ∀ name ∈ line.names, name ≠ [] ∧ (String.ofList name).utf8ByteSize ≤ stringLengthLimitInBytes
  values : ∀ field ∈ line.field :: line.fields, field.2.InRange ∧ ∀ bits, field.2 ≠ .f64 bits
  timestamp : ∀ t, line.timestamp = some t → -2 ^ 63 ≤ t ∧ t < 2 ^ 63

/-- Escapes are enough for the names: no blank but the space, no backslash at the end, and no comment. -/
structure Escapable [Features] (line : Line) : Prop where
  names : ∀ name ∈ line.names, Clear name
  measurement : '\x00' ∉ line.measurement ∧ line.measurement.head? ≠ some '#'
  strings : ∀ key v, (key, .string v) ∈ line.field :: line.fields →
    (String.ofList v).utf8ByteSize ≤ stringLengthLimitInBytes

end Line

namespace LineProtocolBuilder
variable {displayF64 : UInt64 → Input} {parseF64 : Input → Option UInt64}

def spelling (displayF64 : UInt64 → Input) : Spelling :=
  ⟨escape [',', ' '], escape [',', '=', ' '], FieldValue.text displayF64⟩

private theorem spelled_escape {special stops escaped name : List Char} (hescaped : ∀ c ∈ '\\' :: special, c ∈ escaped)
    (hplain : ∀ c ∈ name, c ∈ stops → c ∈ '\\' :: special) : Spelled stops escaped (escape special name) name := by
  induction name with
  | nil => exact .nil
  | cons c name ih =>
    obtain ⟨hc, hname⟩ := forall_mem_cons.mp hplain
    rw [escape, flatMap_cons, ← escape]
    split_ifs with hspecial
    · exact .escaped (hescaped c (mem_cons.mpr hspecial.symm)) (ih hname)
    · exact .plain (fun hstop => hspecial (mem_cons.mp (hc hstop)).symm) (ih hname)

private theorem spelled_name {name : Input} (hblank : '\t' ∉ name ∧ '\n' ∉ name) :
    Spelled (',' :: keyStops) ['\\', ',', '=', ' '] (escape [',', '=', ' '] name) name := by
  refine spelled_escape (forall_iff_forall_mem.mp (by decide)) fun c hc hstop => ?_
  simp only [keyStops, mem_cons, not_mem_nil, or_false] at hstop ⊢
  rcases hstop with h | h | h | rfl | rfl | h
  · simp [h]
  · simp [h]
  · simp [h]
  · exact absurd hc hblank.1
  · exact absurd hc hblank.2
  · simp [h]

private theorem spelled_measurement {name : Input} (hblank : '\t' ∉ name ∧ '\n' ∉ name) (hnull : '\x00' ∉ name) :
    Spelled measurementStops [',', ' ', '\\'] (escape [',', ' '] name) name := by
  refine spelled_escape (forall_iff_forall_mem.mp (by decide)) fun c hc hstop => ?_
  simp only [measurementStops, mem_cons, not_mem_nil, or_false] at hstop ⊢
  rcases hstop with h | h | rfl | rfl | rfl | h
  · simp [h]
  · simp [h]
  · exact absurd hc hblank.1
  · exact absurd hc hblank.2
  · exact absurd hc hnull
  · simp [h]

theorem buf_foldl {stage : Stage} {α : Type} {f : LineProtocolBuilder stage → α → LineProtocolBuilder stage}
    {text : α → Input} (hf : ∀ b x, (f b x).buf = b.buf ++ text x) (xs : List α) (b : LineProtocolBuilder stage) :
    (xs.foldl f b).buf = b.buf ++ xs.flatMap text := by
  induction xs generalizing b with
  | nil => simp
  | cons x xs ih => rw [foldl_cons, ih, hf, append_assoc, flatMap_cons]

private theorem buf_line (b : LineProtocolBuilder .beforeMeasurement) (line : Line) :
    (b.line displayF64 line).buf = b.buf ++ ((spelling displayF64).lineText line ++ ['\n']) := by
  have htags := buf_foldl (f := tag) (fun _ _ => rfl) line.tags (b.measurement line.measurement)
  have hfields (b : LineProtocolBuilder .afterField) := buf_foldl (f := field displayF64) (fun _ _ => rfl) line.fields b
  cases htime : line.timestamp <;>
  · simp only [LineProtocolBuilder.line, htime, close, timestamp, write, hfields, firstField, htags]
    simp [measurement, write, Spelling.lineText, Spelling.seriesText, Spelling.fieldsText,
      Spelling.timestampText, htime]
    rfl

variable [Features]

private theorem faithful {line : Line} (h : line.Given) (hesc : line.Escapable) :
    (spelling displayF64).Faithful line parseF64 := by
  have hlegible {name : Input} (hname : name ∈ line.names) : Legible name :=
    ⟨(h.names name hname).1, (hesc.names name hname).2.2, (h.names name hname).2⟩
  have hspelled {name : Input} (hname : name ∈ line.names) :=
    spelled_name ⟨(hesc.names name hname).1, (hesc.names name hname).2.1⟩
  have hmeasurement : line.measurement ∈ line.names := mem_cons_self
  have htag {tag : Input × Input} (htag : tag ∈ line.tags) : tag.1 ∈ line.names ∧ tag.2 ∈ line.names :=
    ⟨mem_cons_of_mem _ (mem_append_left _ (mem_flatMap.mpr ⟨tag, htag, by simp⟩)),
      mem_cons_of_mem _ (mem_append_left _ (mem_flatMap.mpr ⟨tag, htag, by simp⟩))⟩
  have hfield {field : Input × FieldValue} (hfield : field ∈ line.field :: line.fields) : field.1 ∈ line.names :=
    mem_cons_of_mem _ (mem_append_right _ (mem_map_of_mem hfield))
  obtain ⟨htab, hline, -⟩ := hesc.names _ hmeasurement
  refine ⟨⟨spelled_measurement ⟨htab, hline⟩ hesc.measurement.1, hlegible hmeasurement⟩, hesc.measurement.2,
    fun tag ht => ⟨⟨?_, hlegible (htag ht).1⟩, ?_, hlegible (htag ht).2⟩,
      fun field hf => ⟨⟨?_, hlegible (hfield hf)⟩, ?_⟩,
    fun _ field hf => hspelled (hfield hf), h.timestamp⟩
  · exact (hspelled (htag ht).1).mono (subset_cons_self _ _)
  · exact (hspelled (htag ht).2).mono (by decide)
  · exact (hspelled (hfield hf)).mono (subset_cons_self _ _)
  · obtain ⟨hrange, hfloat⟩ := h.values field hf
    exact valued_written hrange hfloat fun v hv => hv ▸ valued_string (hesc.strings field.1 v (hv ▸ hf))

open Spelling

private theorem escapable_of_parseLine {line : Line} {i rest more : Input} (h : line.Given)
    (hcomment : line.measurement.head? ≠ some '#')
    (hi : UpToLineFeed i ((spelling displayF64).lineText line ++ more))
    (hread : parseLine parseF64 i = .ok ((spelling displayF64).parsed line, rest)) : line.Escapable := by
  obtain ⟨r2, r3, r4, _, hseries, hblank, hfields, -⟩ := parseLine_eq_ok hread
  obtain ⟨r1, hmeasurement, htags, -⟩ := series_eq_ok hseries
  rw [lineText, seriesText, append_assoc, append_assoc] at hi
  obtain ⟨⟨hclear, hnull⟩, rfl⟩ := recovers_measurement i r1 _ hi hmeasurement
  obtain ⟨htagsClear, rfl⟩ := recovers_maybeTagset line.tags r1 r2 _ hi.of_append htags
  have hi := hi.of_append.of_append
  have hkey : ((spelling displayF64).fieldsText line ++ timestampText line ++ more).head? ≠ some ' ' := by
    obtain ⟨c, text, htext, hc⟩ := escape_eq_cons [',', '=', ' ']
      (h.names line.field.1 (mem_append_right _ (mem_map_of_mem mem_cons_self))).1
    have hhead : ((spelling displayF64).fieldsText line ++ timestampText line ++ more).head? = some c := by
      simp [fieldsText, fieldText, spelling, htext]
    rw [hhead]
    rintro ⟨⟩
    exact absurd hc (by decide)
  obtain rfl := whitespace_eq_ok hblank hi.isPrefix hkey
  have hi : UpToLineFeed r3 ((spelling displayF64).fieldText line.field ++ (line.fields.flatMap
      (fun field => ',' :: (spelling displayF64).fieldText field) ++ (timestampText line ++ more))) := by
    simpa [fieldsText] using hi.of_append (a := [' '])
  have hfieldsClear := recovered_of_fieldSet h.values hi hfields
  refine ⟨fun name hname => ?_, ⟨hnull, hcomment⟩, fun key v hv => (hfieldsClear _ hv).2 v rfl⟩
  rcases mem_append.mp hname with hname | hname
  · rcases mem_cons.mp hname with rfl | hname
    · exact hclear
    · obtain ⟨tag, htag, hname⟩ := mem_flatMap.mp hname
      obtain ⟨hkey, hvalue⟩ := htagsClear tag htag
      simp only [mem_cons, not_mem_nil, or_false] at hname
      rcases hname with rfl | rfl
      · exact hkey
      · exact hvalue
  · obtain ⟨field, hfield, rfl⟩ := mem_map.mp hname
    exact (hfieldsClear field hfield).1

/-- The text that was read as the series of the line begins like the batch, with a character at which
nothing is trimmed. -/
private theorem escapable_of_parseLines {line : Line} {more : Input} {results : List (Except Error ParsedLine)}
    (h : line.Given) (hread : parseLines parseF64 ((spelling displayF64).lineText line ++ more) =
      .ok ((spelling displayF64).parsed line) :: results) : line.Escapable := by
  obtain ⟨c, z, hname, -⟩ := escape_eq_cons [',', ' '] (h.names line.measurement mem_cons_self).1
  have hseries : (spelling displayF64).seriesText line = c :: (z ++ line.tags.flatMap (spelling displayF64).tagText) :=
    congrArg (· ++ _) hname
  have hc : isWhitespaceBoundaryChar c = false ∧ c ≠ '#' := by
    obtain ⟨piece, -, hpiece⟩ := mem_filterMap.mp (hread ▸ mem_cons_self : _ ∈ parseLines parseF64 _)
    obtain ⟨_, _, _, _, hparsed, -⟩ := parseLine_eq_ok (parseLine_of_parsePiece hpiece)
    obtain ⟨_, -, -, rest, hraw⟩ := series_eq_ok hparsed
    refine head_trimLeading piece c ?_
    rw [← hraw]
    simp [parsed, hseries]
  have hcomment : line.measurement.head? ≠ some '#' := by
    intro hm
    obtain ⟨m, hm⟩ := head?_eq_some_iff.mp hm
    rw [hm, escape_cons, if_neg (by decide)] at hname
    exact hc.2 (cons.inj hname).1.symm
  obtain ⟨text, htext⟩ : ∃ text, (spelling displayF64).lineText line ++ more = c :: text :=
    ⟨_, by rw [lineText, hseries]; rfl⟩
  obtain ⟨i, hi, hparse⟩ := exists_parseLine hc (htext ▸ hread)
  exact escapable_of_parseLine h hcomment (htext ▸ hi) hparse

/-- One line is read for each that was closed, in order and as it was given, if and only if escapes are
enough for the names. -/
theorem parseLines_batch (lines : List Line) (hgiven : ∀ line ∈ lines, line.Given) :
    parseLines parseF64 (batch displayF64 lines) = lines.map (fun line => .ok ((spelling displayF64).parsed line)) ↔
      ∀ line ∈ lines, line.Escapable := by
  rw [batch, build, buf_foldl buf_line, new, nil_append]
  induction lines with
  | nil => exact ⟨fun _ => by simp, fun _ => rfl⟩
  | cons line lines ih =>
    obtain ⟨hline, hlines⟩ := forall_mem_cons.mp hgiven
    have hread (hesc : line.Escapable) (rest : Input) :
        parseLines parseF64 ((spelling displayF64).lineText line ++ '\n' :: rest) =
          .ok ((spelling displayF64).parsed line) :: parseLines parseF64 rest :=
      (parseLines_text (faithful hline hesc) rest).1
    rw [flatMap_cons, append_assoc, singleton_append, map_cons, forall_mem_cons]
    constructor
    · intro h
      have hesc := escapable_of_parseLines hline h
      rw [hread hesc] at h
      exact ⟨hesc, (ih hlines).mp (cons.inj h).2⟩
    · rintro ⟨hesc, hescs⟩
      rw [hread hesc, (ih hlines).mpr hescs]

end LineProtocolBuilder

namespace LineProtocolBuilder

private def sample : Line where
  measurement := "a b".toList
  tags := [("k".toList, "v=\\w".toList)]
  field := ("f".toList, .string "x\ny\"".toList)
  fields := [("g".toList, .i64 (-3)), ("h".toList, .boolean true)]
  timestamp := some 12

theorem parseLines_batch_sample : parseLines (fun _ => none) (batch (fun _ => []) [sample, sample]) =
    [sample, sample].map fun line => .ok ((spelling fun _ => []).parsed line) := by
  have hgiven : sample.Given := ⟨by decide +kernel, by simp [sample, FieldValue.InRange], by simp [sample]⟩
  have hesc : sample.Escapable := ⟨by decide +kernel, by decide +kernel, by simp [sample]; decide +kernel⟩
  exact (parseLines_batch _ (by simp [hgiven])).mpr (by simp [hesc])

/-- A comment is read as no line, a line feed in a tag gives another line, and a backslash at the end of a name a
malformed one. -/
theorem parseLines_batch_differs :
    let read := fun line => parseLines (fun _ => none) (batch (fun _ => []) [line])
    let field := ("f".toList, FieldValue.boolean true)
    read ⟨"#m".toList, [], field, [], none⟩ = [] ∧
    read ⟨"m".toList, [("k".toList, "v\nn".toList)], field, [], none⟩ =
      [.error (.expectedSpace []), .ok ⟨⟨"n".toList, "n".toList, none⟩, [field], none⟩] ∧
    read ⟨"m\\".toList, [], field, [], none⟩ = [.error .endsWithBackslash] := by
  decide +kernel

end LineProtocolBuilder
end VarveDB.LineProtocol
