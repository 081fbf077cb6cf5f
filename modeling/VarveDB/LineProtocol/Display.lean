import VarveDB.LineProtocol.Written

/-! Parsed lines as they are printed, and how the parser reads what is printed. -/
namespace VarveDB.LineProtocol

open List

/-- Writes a value with a backslash before the delimiters; backslashes are written as they are. -/
def escapeAndWriteValue (delimiters value : Input) : Input :=
  value.flatMap fun c => if c ∈ delimiters then ['\\', c] else [c]

variable (displayF64 : UInt64 → Input) {normal : Char → Bool}

def FieldValue.display : FieldValue → Input :=
  written displayF64 (escapeAndWriteValue ['"'])

def printed : Spelling :=
  ⟨escapeAndWriteValue [',', ' '], escapeAndWriteValue [',', '=', ' '], FieldValue.display displayF64⟩

def Series.display (series : Series) : Input :=
  (printed displayF64).measurement series.measurement ++ (series.tagSet.getD []).flatMap (printed displayF64).tagText

def ParsedLine.display (line : ParsedLine) : Input :=
  let fields := match line.fieldSet with
    | [] => []
    | field :: fields => ' ' :: ((printed displayF64).fieldText field ++
        fields.flatMap fun field => ',' :: (printed displayF64).fieldText field)
  line.series.display displayF64 ++ fields ++ line.timestamp.elim [] fun t => ' ' :: signed t

/-- No backslash stands in front of a character that it would escape. -/
abbrev Unambiguous (escaped name : List Char) : Prop := name.IsChain fun a b => a = '\\' → b ∉ escaped

/-- No field is a string, and in no name a backslash that is printed would be read as an escape or end the name; a comma
ends no key, and an equals sign no value. -/
structure ParsedLine.Printable (line : ParsedLine) : Prop where
  strings : ∀ field ∈ line.fieldSet, ∀ v, field.2 ≠ .string v
  measurement : Unambiguous [',', ' ', '\\'] line.series.measurement
  keys : ∀ key ∈ (line.series.tagSet.getD []).map Prod.fst ++ line.fieldSet.map Prod.fst,
    Unambiguous ['\\', '=', ' '] key
  values : ∀ value ∈ (line.series.tagSet.getD []).map Prod.snd, Unambiguous ['\\', ',', ' '] value

section Names
variable {stops escaped : List Char}

private def Read [Features] (stops escaped : List Char) (s : Input) : Prop :=
  (∃ text, Spelled stops escaped text s) ∧ Legible s

theorem last_tail {c : Char} {s : Input} (h : (c :: s).getLast? ≠ some '\\') : s.getLast? ≠ some '\\' := by
  cases s with
  | nil => simp
  | cons d s => rwa [List.getLast?_cons_cons] at h

private theorem spelled_display {delimiters ambiguous : List Char} {text s : Input} (h : Spelled stops escaped text s)
    (hescaped : ∀ c, c ∈ escaped ↔ c = '\\' ∨ c ∈ delimiters) (hslash : '\\' ∉ delimiters)
    (hambiguous : '\\' ∈ ambiguous ∧ ∀ c ∈ delimiters, c ∉ ambiguous → c ∉ stops) (hs : Unambiguous ambiguous s)
    (hlast : s.getLast? ≠ some '\\') : Spelled stops escaped (escapeAndWriteValue delimiters s) s := by
  have hwrite (c : Char) (s : Input) : escapeAndWriteValue delimiters (c :: s) =
      (if c ∈ delimiters then ['\\', c] else [c]) ++ escapeAndWriteValue delimiters s := flatMap_cons ..
  induction h with
  | nil => exact .nil
  | @plain c text s hc _ ih =>
    rw [hwrite]
    split_ifs with hdelimiter
    · exact .escaped ((hescaped c).mpr (.inr hdelimiter)) (ih hs.tail (last_tail hlast))
    · exact .plain hc (ih hs.tail (last_tail hlast))
  | @escaped c text s hc _ ih =>
    have hrest := ih hs.tail (last_tail hlast)
    rcases (hescaped c).mp hc with rfl | hdelimiter
    · cases s with
      | nil => exact absurd rfl hlast
      | cons d s =>
        have hd : d ∉ ambiguous := (isChain_cons_cons.mp hs).1 rfl
        have hne : d ≠ '\\' := fun h => hd (h ▸ hambiguous.1)
        rw [hwrite] at hrest
        rw [hwrite, if_neg hslash, hwrite]
        generalize escapeAndWriteValue delimiters s = printed at hrest ⊢
        split_ifs at hrest ⊢ with hdelimiter
        -- the backslash is printed as it is, and escapes the one of the delimiter, which needs none here
        · cases hrest with
          | plain | kept => exact absurd rfl hne
          | escaped _ hrest => exact .escaped hc (.plain (hambiguous.2 d hdelimiter hd) hrest)
        -- it is kept since the next character needs no escape
        · cases hrest with
          | plain _ hrest => exact .kept (fun h => ((hescaped d).mp h).elim hne hdelimiter) hrest
          | escaped | kept => exact absurd rfl hne
    · rw [hwrite, if_pos hdelimiter]
      exact .escaped hc hrest
  | @kept c text s hc _ ih =>
    rw [hwrite, if_neg hslash, hwrite, if_neg (fun h => hc ((hescaped c).mpr (.inr h)))]
    exact .kept hc (ih hs.tail.tail (last_tail (last_tail hlast)))

private theorem of_inner (hnormal : ∀ c, normal c = true → c ∉ stops) (i : Input)
    (hlast : (escapeOrFallbackInner normal escaped i).1.getLast? ≠ some '\\') :
    ∃ text, Spelled stops escaped text (escapeOrFallbackInner normal escaped i).1 := by
  fun_induction escapeOrFallbackInner normal escaped i with
  | case1 => exact ⟨[], .nil⟩
  | case2 => exact absurd rfl hlast
  | case3 c i s rest hinner ih =>
    rw [hinner] at ih
    split_ifs at hlast ⊢ with hc
    · obtain ⟨text, htext⟩ := ih (last_tail hlast)
      exact ⟨_, .escaped hc htext⟩
    · obtain ⟨text, htext⟩ := ih (last_tail (last_tail hlast))
      exact ⟨_, .kept hc htext⟩
  | case4 c i _ _ hc s rest hinner ih =>
    rw [hinner] at ih
    obtain ⟨text, htext⟩ := ih (last_tail hlast)
    exact ⟨_, .plain (hnormal c hc) htext⟩
  | case5 => exact ⟨[], .nil⟩

end Names

def Yields {α : Type} (p : Parser α) (P : α → Prop) : Prop := ∀ i a rest, p i = .ok (a, rest) → P a

namespace Yields
variable {α β : Type} {p q : Parser α} {P : α → Prop} {Q : β → Prop}

theorem bind {f : α → Parser β} (hp : Yields p P) (hf : ∀ a, P a → Yields (f a) Q) : Yields (p >>= f) Q := by
  intro i b rest h
  obtain ⟨a, r, hpi, h⟩ := bind_eq_ok h
  exact hf a (hp i a r hpi) r b rest h

theorem pure {a : α} (h : P a) : Yields (Pure.pure a) P := by
  rintro i _ rest ⟨⟩
  exact h

theorem any : Yields p fun _ => True := fun _ _ _ _ => trivial

theorem map {f : α → β} (hp : Yields p P) (hf : ∀ a, P a → Q (f a)) : Yields (f <$> p) Q :=
  hp.bind fun a ha => .pure (hf a ha)

theorem orElse (hp : Yields p P) (hq : Yields q P) : Yields (orElse p q) P := by
  intro i a rest h
  unfold LineProtocol.orElse at h
  split at h
  · exact hq i a rest h
  · exact hp i a rest h

theorem cut (hp : Yields p P) : Yields (cut p) P := by
  intro i a rest h
  unfold LineProtocol.cut at h
  split at h
  · cases h
  · exact hp i a rest h

theorem mapFail {f : α → Except Error β} (hf : ∀ a b, f a = .ok b → Q b) : Yields (mapFail p f) Q := by
  refine any.bind fun a _ => ?_
  split
  · rename_i v hv
    exact .pure (hf a v hv)
  · rintro i b rest ⟨⟩

theorem separatedRounds (hp : Yields p P) (fuel : Nat) (res : List α) (hres : ∀ x ∈ res, P x) :
    Yields (separatedRounds p fuel res) fun xs => (res ≠ [] → xs ≠ []) ∧ ∀ x ∈ xs, P x := by
  intro i xs rest h
  induction fuel generalizing res i with
  | zero => cases h
  | succ fuel ih =>
    unfold LineProtocol.separatedRounds at h
    split at h
    · cases h
      exact ⟨id, hres⟩
    · split at h
      · cases h
        exact ⟨id, hres⟩
      · cases h
      · rename_i i1 _ _ o i2 ho
        obtain ⟨hne, hall⟩ := ih (res ++ [o]) (by simpa [or_imp, forall_and] using ⟨hres, hp i1 o i2 ho⟩) _ h
        exact ⟨fun _ => hne (by simp), hall⟩

private theorem separatedList (hp : Yields p P) {res : List α} (hres : ∀ x ∈ res, P x) :
    Yields (parameterizedSeparatedList p res) fun xs => (res ≠ [] → xs ≠ []) ∧ ∀ x ∈ xs, P x := by
  intro i xs rest h
  unfold parameterizedSeparatedList at h
  split at h
  · cases h
    exact ⟨id, hres⟩
  · cases h
  · rename_i o i1 ho
    obtain ⟨hne, hall⟩ := separatedRounds hp _ (res ++ [o]) (by
      simpa [or_imp, forall_and] using ⟨hres, hp i o i1 ho⟩) _ xs rest h
    exact ⟨fun _ => hne (by simp), hall⟩

end Yields

section Accepted
variable {parseF64 : Input → Option UInt64} {displayF64 : UInt64 → Input}

private theorem inRange_of_parseI64 {value : Input} {v : Int} (h : parseI64 value = some v) :
    -2 ^ 63 ≤ v ∧ v < 2 ^ 63 := by
  obtain ⟨hrange, hv⟩ := Option.ite_none_right_eq_some.mp h
  exact Option.some.inj hv ▸ hrange

theorem yields_number {α : Type} {p : Parser Input} {parse : Input → Option α} {error : Input → Error} {P : α → Prop}
    (h : ∀ value v, parse value = some v → P v) : Yields (mapFail p (parsedAs parse error)) P := by
  refine .mapFail fun value v hv => ?_
  unfold parsedAs at hv
  cases hparse : parse value with
  | none => simp [hparse] at hv
  | some w =>
    rw [hparse, Option.elim_some, Except.ok.injEq] at hv
    exact hv ▸ h value w hparse

private theorem yields_timestamp :
    Yields (opt precededTimestamp) fun time => ∀ t, time = some t → -2 ^ 63 ≤ t ∧ t < 2 ^ 63 := by
  have htime : Yields precededTimestamp fun t => -2 ^ 63 ≤ t ∧ t < 2 ^ 63 :=
    Yields.any.bind fun _ _ => (yields_number fun _ _ => inRange_of_parseI64).bind fun t ht =>
      Yields.any.bind fun _ _ => .pure ht
  intro i time rest h t heq
  subst heq
  unfold opt at h
  split at h
  · rename_i a rest' hok
    cases h
    exact htime i t rest hok
  · cases h
  · cases h

variable [Features]

private abbrev ReadName (stops : List Char) : Input → Prop := Read stops ['\\', ',', '=', ' ']

private theorem yields_name {stops escaped : List Char} (hnormal : ∀ c, normal c = true → c ∉ stops) :
    Yields (escapeOrFallback normal escaped) (Read stops escaped) := by
  intro i s rest h
  have hspelled : _ → ∃ text, Spelled stops escaped text _ := of_inner hnormal i
  have hempty : (escapeOrFallbackInner normal escaped i).1 = [] → (escapeOrFallbackInner normal escaped i).2 = i := by
    fun_cases escapeOrFallbackInner normal escaped i <;> simp
    split_ifs <;> simp
  unfold escapeOrFallback at h
  dsimp only at h
  split_ifs at h with hnone hlast hsize
  cases h
  exact ⟨hspelled hlast, fun hs => hnone (hempty hs), hlast, Nat.not_lt.mp hsize⟩

theorem yields_escapedValue {stops : List Char} (hnormal : ∀ c ∈ stops, normal c = false) :
    Yields (escapedValue normal) (ReadName stops) :=
  yields_name fun c hc hstop => by simp [hnormal c hstop] at hc

private theorem yields_oneTag : Yields oneTag fun tag => ReadName keyStops tag.1 ∧ ReadName valueStops tag.2 := by
  have hkey : Yields tagKey (ReadName keyStops) := by
    intro i s rest h
    unfold tagKey at h
    split at h
    · cases h
    · exact yields_escapedValue (forall_iff_forall_mem.mp (by decide)) i s rest h
  have hvalue : Yields tagValue (ReadName valueStops) := by
    intro i s rest h
    unfold tagValue at h
    split at h
    · cases h
    · exact yields_escapedValue (forall_iff_forall_mem.mp (by decide)) i s rest h
  exact hkey.cut.bind fun key hkey => Yields.any.bind fun _ _ =>
    hvalue.cut.bind fun value hvalue => .pure ⟨hkey, hvalue⟩

private theorem yields_fieldValue : Yields (fieldValue parseF64) FieldValue.InRange := by
  refine .orElse (.map (yields_number fun _ _ => inRange_of_parseI64) fun _ => id)
    (.orElse (.map (yields_number fun value v h => ?_)
    fun _ => id) (.orElse (.map .any fun _ => id) (.orElse (.map .any fun _ => id) (.map .any fun _ => id))))
  obtain ⟨hrange, hv⟩ := Option.ite_none_right_eq_some.mp h
  exact Option.some.inj hv ▸ hrange

private theorem yields_fieldSet : Yields (fieldSet parseF64) fun fields => fields ≠ [] ∧
    ∀ field ∈ fields, ReadName keyStops field.1 ∧ field.2.InRange := by
  have hone : Yields (oneField parseF64) fun field => ReadName keyStops field.1 ∧ field.2.InRange :=
    (yields_escapedValue (forall_iff_forall_mem.mp (by decide))).bind fun key hkey => Yields.any.bind fun _ _ =>
      yields_fieldValue.bind fun value hvalue => .pure ⟨hkey, hvalue⟩
  have hlist : Yields (parameterizedSeparatedList1 (oneField parseF64)) fun fields => fields ≠ [] ∧
      ∀ field ∈ fields, ReadName keyStops field.1 ∧ field.2.InRange := by
    refine hone.bind fun first hfirst => Yields.any.bind fun comma _ => ?_
    cases comma with
    | none => exact .pure ⟨by simp, by simpa using hfirst⟩
    | some _ => exact fun i xs rest h =>
        (hone.separatedList (by simpa using hfirst) i xs rest h).imp_left fun hne => hne (by simp)
  intro i xs rest h
  unfold fieldSet at h
  split at h
  · cases h
  · exact hlist i xs rest h

private theorem yields_maybeTagset : Yields maybeTagset fun tags => tags ≠ some [] ∧
    ∀ tag ∈ tags.getD [], ReadName keyStops tag.1 ∧ ReadName valueStops tag.2 := by
  intro i tags rest h
  unfold maybeTagset at h
  split at h
  · cases h
    exact ⟨nofun, nofun⟩
  · cases h
  · split at h
    · cases h
    · rename_i ts _ hne hts
      cases h
      exact ⟨fun hnil => hne (Option.some.inj hnil), (yields_oneTag.separatedList (by simp) _ _ _ hts).2⟩
    all_goals cases h

private theorem head_measurement {i s rest : Input} (h : measurement i = .ok (s, rest)) (hs : s.head? = some '#') :
    i.head? = some '#' := by
  unfold measurement at h
  split at h
  · cases h
  unfold escapeOrFallback at h
  dsimp only at h
  split_ifs at h
  cases h
  revert hs
  fun_cases escapeOrFallbackInner _ _ i <;> simp
  split_ifs with hc <;> simp
  rintro rfl
  exact absurd hc (by decide)

private structure ParsedLine.Accepted (line : ParsedLine) : Prop where
  measurement : Read measurementStops [',', ' ', '\\'] line.series.measurement
  comment : line.series.measurement.head? ≠ some '#'
  tags : line.series.tagSet ≠ some [] ∧
    ∀ tag ∈ line.series.tagSet.getD [], ReadName keyStops tag.1 ∧ ReadName valueStops tag.2
  fields : line.fieldSet ≠ [] ∧ ∀ field ∈ line.fieldSet, ReadName keyStops field.1 ∧ field.2.InRange
  timestamp : ∀ t, line.timestamp = some t → -2 ^ 63 ≤ t ∧ t < 2 ^ 63

private theorem accepted_of_parseLine {i rest : Input} {line : ParsedLine} (hi : i.head? ≠ some '#')
    (h : parseLine parseF64 i = .ok (line, rest)) : line.Accepted := by
  obtain ⟨_, _, _, _, hseries, -, hfields, htime⟩ := parseLine_eq_ok h
  obtain ⟨_, hmeasurement, htags, -⟩ := series_eq_ok hseries
  refine ⟨?_, fun hm => hi (head_measurement hmeasurement hm), yields_maybeTagset _ _ _ htags,
    yields_fieldSet _ _ _ hfields, yields_timestamp _ _ _ htime⟩
  unfold measurement at hmeasurement
  split at hmeasurement
  · cases hmeasurement
  · refine yields_name (fun c hc hstop => ?_) _ _ _ hmeasurement
    simp only [measurementStops, mem_cons, not_mem_nil, or_false] at hstop
    rcases hstop with rfl | rfl | rfl | rfl | rfl | rfl <;> exact absurd hc (by decide)

theorem accepted {text : Input} {line : ParsedLine} (h : .ok line ∈ parseLines parseF64 text) : line.Accepted := by
  obtain ⟨piece, -, hpiece⟩ := mem_filterMap.mp h
  exact accepted_of_parseLine (fun hhead => (head_trimLeading piece _ hhead).2 rfl) (parseLine_of_parsePiece hpiece)

theorem names_display {stops ambiguous : List Char} {name : Input} (h : ReadName stops name)
    (hambiguous : '\\' ∈ ambiguous ∧ ∀ c ∈ [',', '=', ' '], c ∉ ambiguous → c ∉ stops)
    (hname : Unambiguous ambiguous name) : Names stops (escapeAndWriteValue [',', '=', ' '] name) name := by
  obtain ⟨⟨text, htext⟩, hlegible⟩ := h
  exact ⟨spelled_display htext (by simp) (by decide) hambiguous hname hlegible.last, hlegible⟩

private def ParsedLine.line (line : ParsedLine) (field : Input × FieldValue)
    (fields : List (Input × FieldValue)) : Line :=
  ⟨line.series.measurement, line.series.tagSet.getD [], field, fields, line.timestamp⟩

private theorem faithful_display {line : ParsedLine} {field : Input × FieldValue} {fields : List (Input × FieldValue)}
    (h : line.Accepted) (hfields : line.fieldSet = field :: fields) (hp : line.Printable)
    (hfloat : ∀ field ∈ line.fieldSet, ∀ bits, field.2 ≠ .f64 bits) :
    (printed displayF64).Faithful (line.line field fields) parseF64 := by
  have hstrings : ¬ (line.line field fields).HasString := by
    rintro ⟨f, hf, v, hv⟩
    exact hp.strings f (hfields ▸ hf) v hv
  refine ⟨⟨?_, h.measurement.2⟩, h.comment, fun tag htag => ⟨?_, ?_⟩, fun f hf => ⟨?_, ?_⟩,
    fun hs => absurd hs hstrings, h.timestamp⟩
  · obtain ⟨text, htext⟩ := h.measurement.1
    refine spelled_display htext (fun c => ?_) (by decide) (by simp) hp.measurement h.measurement.2.last
    simp only [mem_cons, not_mem_nil, or_false]
    tauto
  · exact names_display (h.tags.2 tag htag).1
      (by simp [keyStops]) (hp.keys tag.1 (mem_append_left _ (mem_map_of_mem htag)))
  · exact names_display (h.tags.2 tag htag).2 (by simp [valueStops]) (hp.values tag.2 (mem_map_of_mem htag))
  · replace hf : f ∈ line.fieldSet := hfields ▸ hf
    exact names_display (h.fields.2 f hf).1 (by simp [keyStops]) (hp.keys f.1 (mem_append_right _ (mem_map_of_mem hf)))
  · replace hf : f ∈ line.fieldSet := hfields ▸ hf
    exact valued_written (h.fields.2 f hf).2 (hfloat f hf) fun v hv => absurd hv (hp.strings f hf v)

/-- What is printed of an accepted line is read as that line, up to the text of its series. -/
theorem parseLines_display (text : Input) (line : ParsedLine) (h : .ok line ∈ parseLines parseF64 text)
    (hfloat : ∀ field ∈ line.fieldSet, ∀ bits, field.2 ≠ .f64 bits) (hp : line.Printable) :
    parseLines parseF64 (line.display displayF64) =
      [.ok { line with series := { line.series with rawInput := line.series.display displayF64 } }] := by
  have haccepted := accepted h
  obtain ⟨field, fields, hfields⟩ := exists_cons_of_ne_nil haccepted.fields.1
  have htext : line.display displayF64 = (printed displayF64).lineText (line.line field fields) := by
    simp only [ParsedLine.display, hfields, Spelling.lineText, Spelling.fieldsText, append_assoc, cons_append]
    rfl
  rw [htext, (parseLines_text (faithful_display haccepted hfields hp hfloat) []).2]
  have htags :
      (if line.series.tagSet.getD [] = [] then none else some (line.series.tagSet.getD [])) = line.series.tagSet := by
    have := haccepted.tags.1
    cases hset : line.series.tagSet with
    | none => rfl
    | some tags => simpa [hset] using this
  simp only [List.cons.injEq, Except.ok.injEq, and_true]
  exact congrArg₂ (fun series fieldSet => ParsedLine.mk series fieldSet line.timestamp)
    (congrArg (Series.mk (line.series.display displayF64) line.series.measurement) htags) hfields.symm

end Accepted

private def sample : ParsedLine :=
  ⟨⟨"a\\,b,k\\\\,l=\\x".toList, "a,b".toList, some [("k\\,l".toList, "\\x".toList)]⟩, [("f".toList, .i64 1)], some 7⟩

theorem parseLines_display_sample : parseLines (fun _ => none) (sample.display fun _ => []) =
    [.ok { sample with series := { sample.series with rawInput := sample.series.display fun _ => [] } }] := by
  have hvalue {field : Input × FieldValue} (h : field ∈ sample.fieldSet) : field.2 = .i64 1 :=
    congrArg Prod.snd (mem_singleton.mp h)
  refine parseLines_display "a\\,b,k\\\\,l=\\x f=1i 7".toList sample (by decide +kernel) (fun _ h _ => hvalue h ▸ nofun)
    ⟨fun _ h _ => hvalue h ▸ nofun, by decide +kernel, by decide +kernel, by decide +kernel⟩

/-- A string is printed without quotes, and a backslash in front of a comma escapes the one that is to
escape the comma. -/
theorem parseLines_display_differs :
    let string : ParsedLine := ⟨⟨"m".toList, "m".toList, none⟩, [("f".toList, .string "a".toList)], none⟩
    let backslash : ParsedLine := ⟨⟨"m\\\\\\,n".toList, "m\\,n".toList, none⟩, [("f".toList, .boolean true)], none⟩
    (parseLines (fun _ => none) "m f=\"a\"".toList = [.ok string] ∧
      parseLines (fun _ => none) (string.display fun _ => []) = [.error .fieldSetMissing]) ∧
    parseLines (fun _ => none) "m\\\\\\,n f=true".toList = [.ok backslash] ∧
      parseLines (fun _ => none) (backslash.display fun _ => []) = [.error .endsWithBackslash] := by
  decide +kernel

end VarveDB.LineProtocol
