import VarveDB.LineProtocol.Written

/-! What the parser makes of a part of a written line, up to some line feed, where it returns what was
written. -/
namespace VarveDB.LineProtocol
open List

namespace UpToLineFeed
variable {a i text : Input}

theorem of_append (h : UpToLineFeed (a ++ i) (a ++ text)) : UpToLineFeed i text := by
  simpa [UpToLineFeed] using h

theorem isPrefix (h : UpToLineFeed i text) : i <+: text := by
  rcases h with rfl | ⟨rest, rfl⟩
  · exact prefix_rfl
  · exact prefix_append i _

/-- A part without line feeds is not cut. -/
theorem exists_append (h : UpToLineFeed i (a ++ text)) (ha : '\n' ∉ a) : ∃ rest, i = a ++ rest := by
  rcases h with rfl | ⟨rest, h⟩
  · exact ⟨text, rfl⟩
  rcases append_eq_append_iff.mp h with ⟨b, rfl, -⟩ | ⟨b, rfl, hb⟩
  · exact ⟨b, rfl⟩
  cases b with
  | nil => exact ⟨[], by simp⟩
  | cons c b =>
    cases hb
    exact absurd (by simp) ha

end UpToLineFeed

section Tokens
variable {i a rest text : Input}

theorem tag_eq_ok {t : String} (h : tag t i = .ok (a, rest)) : i = t.toList ++ rest := by
  unfold tag at h
  split_ifs at h with hprefix
  obtain ⟨z, rfl⟩ := isPrefixOf_iff_prefix.mp hprefix
  cases h
  rw [← String.length_toList, drop_left]

private theorem equalsSign_eq_ok (h : equalsSign i = .ok (a, rest)) : i = '=' :: rest := by
  unfold equalsSign cut at h
  split at h
  · cases h
  · cases h
  · split at h
    · cases h
    · exact tag_eq_ok h

theorem whitespace_eq_ok (h : whitespace i = .ok (a, rest)) (hi : i <+: ' ' :: text) (htext : text.head? ≠ some ' ') :
    i = ' ' :: rest := by
  obtain rfl | ⟨i, rfl, hrest⟩ := prefix_cons_iff.mp hi
  · cases h
  have hhead : ∀ c ∈ i.head?, c ≠ ' ' := by
    rintro c hc rfl
    obtain ⟨z, rfl⟩ := hrest
    cases i with
    | nil => cases hc
    | cons d i => exact htext hc
  rw [whitespace_cons hhead] at h
  cases h
  rfl

end Tokens

section Lines
variable [Features] {parseF64 : Input → Option UInt64}

/-- The first line that is read is the first of the text, up to some line feed, if nothing is trimmed there. -/
theorem exists_parseLine {c : Char} {text : Input} {line : ParsedLine} {results : List (Except Error ParsedLine)}
    (hc : isWhitespaceBoundaryChar c = false ∧ c ≠ '#') (h : parseLines parseF64 (c :: text) = .ok line :: results) :
    ∃ i, UpToLineFeed i (c :: text) ∧ parseLine parseF64 i = .ok (line, []) := by
  obtain ⟨first, others, hsplit, hfirst⟩ := splitLines_eq_cons (c :: text)
  obtain ⟨first, rfl⟩ : ∃ tail, first = c :: tail := by
    cases first with
    | nil =>
      rcases hfirst with h | ⟨rest, h⟩
      · cases h
      · cases h
        exact absurd hc (by decide)
    | cons d first => exact ⟨first, by rw [(cons_prefix_cons.mp hfirst.isPrefix).1]⟩
  have htrim : trimLeading (c :: first) = c :: first := trimLeading_of_head (by simpa using hc)
  have hlength : (parsePiece parseF64 (c :: first)).toList.length = 1 := by
    rw [length_parsePiece, htrim, if_neg (cons_ne_nil _ _)]
  rw [parseLines, hsplit, filterMap_cons] at h
  cases hpiece : parsePiece parseF64 (c :: first) with
  | none => simp [hpiece] at hlength
  | some r =>
    rw [hpiece] at h
    have hline := parseLine_of_parsePiece (hpiece.trans (congrArg some (cons.inj h).1))
    exact ⟨c :: first, hfirst, htrim ▸ hline⟩

end Lines

/-- Where the parser returns the item from a part of what was written for it, it has read all of that text, and the
property holds. -/
def Recovers {α : Type} (p : Parser α) (text : Input) (x : α) (P : Prop) : Prop :=
  ∀ i rest q, UpToLineFeed i (text ++ q) → p i = .ok (x, rest) → P ∧ i = text ++ rest

theorem Recovers.cut {α : Type} {p : Parser α} {text : Input} {x : α} {P : Prop} (h : Recovers p text x P) :
    Recovers (cut p) text x P := by
  intro i rest q hi hx
  unfold LineProtocol.cut at hx
  split at hx
  · cases hx
  · exact h i rest q hi hx

section Lists
variable {α : Type} {f : Parser α} {text : α → Input} {P : α → Prop} {fuel : Nat} {found xs : List α}
  {i rest q : Input} {x : α}

private theorem isPrefix_of_separatedRounds (h : separatedRounds f fuel found i = .ok (xs, rest)) : found <+: xs := by
  induction fuel generalizing found i with
  | zero => cases h
  | succ fuel ih =>
    unfold separatedRounds at h
    split at h
    · cases h
      exact prefix_rfl
    split at h
    · cases h
      exact prefix_rfl
    · cases h
    · exact (prefix_append _ _).trans (ih h)

private theorem recovered_of_rounds (hf : ∀ x ∈ xs, Recovers f (text x) x (P x)) (found : List α)
    (hi : UpToLineFeed i (xs.flatMap (fun x => ',' :: text x) ++ q))
    (h : separatedRounds f fuel found i = .ok (found ++ xs, rest)) :
    (∀ x ∈ xs, P x) ∧ i = xs.flatMap (fun x => ',' :: text x) ++ rest := by
  induction xs generalizing fuel found i with
  | nil =>
    refine ⟨by simp, ?_⟩
    rw [append_nil] at h
    cases fuel with
    | zero => cases h
    | succ fuel =>
      unfold separatedRounds at h
      split at h
      · cases h
        rfl
      split at h
      · cases h
        rfl
      · cases h
      · simpa using (isPrefix_of_separatedRounds h).length_le
  | cons x xs ih =>
    obtain ⟨hx, hxs⟩ := forall_mem_cons.mp hf
    cases fuel with
    | zero => cases h
    | succ fuel =>
      unfold separatedRounds at h
      split at h
      · simp at h
      rename_i i1 hcomma
      obtain rfl : i = ',' :: i1 := tag_eq_ok hcomma
      split at h
      · simp at h
      · cases h
      rename_i o i2 ho
      have hfound : found ++ [o] <+: found ++ x :: xs := isPrefix_of_separatedRounds h
      obtain rfl : o = x := (cons_prefix_cons.mp ((prefix_append_right_inj found).mp hfound)).1
      rw [flatMap_cons, append_assoc, cons_append] at hi
      obtain ⟨hp, rfl⟩ := hx i1 i2 _ (hi.of_append (a := [','])) ho
      obtain ⟨hall, rfl⟩ := ih hxs (found ++ [o]) (hi.of_append (a := ',' :: text o)) (by simpa using h)
      exact ⟨forall_mem_cons.mpr ⟨hp, hall⟩, by simp⟩

private theorem recovered_of_list (hf : ∀ y ∈ x :: xs, Recovers f (text y) y (P y)) (found : List α)
    (hi : UpToLineFeed i (text x ++ (xs.flatMap (fun x => ',' :: text x) ++ q)))
    (h : parameterizedSeparatedList f found i = .ok (found ++ x :: xs, rest)) :
    (∀ y ∈ x :: xs, P y) ∧ i = text x ++ (xs.flatMap (fun x => ',' :: text x) ++ rest) := by
  obtain ⟨hx, hxs⟩ := forall_mem_cons.mp hf
  unfold parameterizedSeparatedList at h
  split at h
  · simp at h
  · cases h
  rename_i o i1 ho
  have hfound : found ++ [o] <+: found ++ x :: xs := isPrefix_of_separatedRounds h
  obtain rfl : o = x := (cons_prefix_cons.mp ((prefix_append_right_inj found).mp hfound)).1
  obtain ⟨hp, rfl⟩ := hx i i1 _ hi ho
  obtain ⟨hall, rfl⟩ := recovered_of_rounds hxs (found ++ [o]) hi.of_append (by simpa using h)
  exact ⟨forall_mem_cons.mpr ⟨hp, hall⟩, rfl⟩

/-- A comma that no element follows is read as well; so nothing is said of the rest. -/
theorem recovered_of_list1 (hf : ∀ y ∈ x :: xs, Recovers f (text y) y (P y))
    (hi : UpToLineFeed i (text x ++ (xs.flatMap (fun x => ',' :: text x) ++ q)))
    (h : parameterizedSeparatedList1 f i = .ok (x :: xs, rest)) : ∀ y ∈ x :: xs, P y := by
  obtain ⟨hx, hxs⟩ := forall_mem_cons.mp hf
  obtain ⟨o, r, ho, h⟩ := bind_eq_ok h
  obtain ⟨comma, r', hcomma, hlist⟩ := bind_eq_ok h
  cases comma with
  | none =>
    cases hlist
    simpa using (hx i r _ hi ho).1
  | some c =>
    have hfirst : o = x := by
      dsimp only [parameterizedSeparatedList] at hlist
      split at hlist
      · cases hlist
        rfl
      · cases hlist
      · exact (cons_prefix_cons.mp (isPrefix_of_separatedRounds hlist)).1
    subst hfirst
    obtain ⟨hp, rfl⟩ := hx i r _ hi ho
    refine forall_mem_cons.mpr ⟨hp, ?_⟩
    cases xs with
    | nil => simp
    | cons y ys =>
      have hr : r = ',' :: r' := by
        unfold opt at hcomma
        split at hcomma
        · rename_i htag
          cases hcomma
          exact tag_eq_ok htag
        · cases hcomma
        · cases hcomma
      subst hr
      have hi := hi.of_append
      rw [flatMap_cons, append_assoc, cons_append] at hi
      exact (recovered_of_list hxs [o] (hi.of_append (a := [','])) hlist).1

end Lists

/-- No blank but the space, and no backslash at the end. -/
abbrev Clear (name : Input) : Prop := '\t' ∉ name ∧ '\n' ∉ name ∧ name.getLast? ≠ some '\\'

section Names
variable {normal : Char → Bool} {special escaped : List Char} {name i rest q : Input}

theorem escape_cons (c : Char) (s : Input) :
    escape special (c :: s) = (if c ∈ special ∨ c = '\\' then ['\\', c] else [c]) ++ escape special s := flatMap_cons ..

theorem escape_eq_cons (special : List Char) (hname : name ≠ []) :
    ∃ c text, escape special name = c :: text ∧ (c = '\\' ∨ c ∉ special) := by
  cases name with
  | nil => exact absurd rfl hname
  | cons c name =>
    rw [escape_cons]
    split_ifs with hc
    · exact ⟨'\\', _, rfl, .inl rfl⟩
    · exact ⟨c, _, rfl, .inr fun h => hc (.inl h)⟩

private theorem recovered_of_inner (hspecial : ∀ c ∈ '\\' :: special, c ∈ escaped) (hi : i <+: escape special name ++ q)
    (hlast : name.getLast? ≠ some '\\') (h : escapeOrFallbackInner normal escaped i = (name, rest)) :
    (∀ c ∈ name, normal c = true ∨ c ∈ '\\' :: special) ∧ i = escape special name ++ rest := by
  induction name generalizing i with
  | nil =>
    refine ⟨by simp, ?_⟩
    revert h
    fun_cases escapeOrFallbackInner normal escaped i <;> simp +contextual [escape]
    split_ifs <;> simp
  | cons c name ih =>
    have hname : name.getLast? ≠ some '\\' := fun h => hlast (by
      cases name with
      | nil => cases h
      | cons d name => rwa [getLast?_cons_cons])
    rw [escape_cons] at hi ⊢
    split_ifs at hi ⊢ with hc
    · have hc : c ∈ '\\' :: special := mem_cons.mpr hc.symm
      obtain rfl | ⟨i, rfl, hslash⟩ := prefix_cons_iff.mp hi
      · cases h
      obtain rfl | ⟨i, rfl, hrest⟩ := prefix_cons_iff.mp hslash
      · cases h
        exact absurd rfl hlast
      have hinner : escapeOrFallbackInner normal escaped i = (name, rest) := by
        simpa [escapeOrFallbackInner, hspecial c hc, Prod.ext_iff] using h
      obtain ⟨hall, rfl⟩ := ih hrest hname hinner
      exact ⟨forall_mem_cons.mpr ⟨.inr hc, hall⟩, rfl⟩
    · obtain rfl | ⟨i, rfl, hrest⟩ := prefix_cons_iff.mp hi
      · cases h
      rw [escapeOrFallbackInner] at h
      · split_ifs at h with hnormal
        · have hinner : escapeOrFallbackInner normal escaped i = (name, rest) := by simpa [Prod.ext_iff] using h
          obtain ⟨hall, rfl⟩ := ih hrest hname hinner
          exact ⟨forall_mem_cons.mpr ⟨.inl hnormal, hall⟩, rfl⟩
        · cases h
      · exact fun h _ => hc (.inr h)
      · exact fun _ _ h _ => hc (.inr h)

variable [Features]

private theorem recovers_name (hspecial : ∀ c ∈ '\\' :: special, c ∈ escaped) :
    Recovers (escapeOrFallback normal escaped) (escape special name) name
      (name.getLast? ≠ some '\\' ∧ ∀ c ∈ name, normal c = true ∨ c ∈ '\\' :: special) := by
  intro i rest q hi h
  unfold escapeOrFallback at h
  dsimp only at h
  split_ifs at h with _ hlast
  cases h
  obtain ⟨hall, hi⟩ := recovered_of_inner hspecial hi.isPrefix hlast rfl
  exact ⟨⟨hlast, hall⟩, hi⟩

private theorem recovers_escapedValue (htab : normal '\t' = false) (hfeed : normal '\n' = false) :
    Recovers (escapedValue normal) (escape [',', '=', ' '] name) name (Clear name) := by
  intro i rest q hi h
  obtain ⟨⟨hlast, hall⟩, hi⟩ := recovers_name (forall_iff_forall_mem.mp (by decide)) i rest q hi h
  exact ⟨⟨fun ht => by simpa [htab] using hall _ ht, fun hn => by simpa [hfeed] using hall _ hn, hlast⟩, hi⟩

theorem recovers_measurement :
    Recovers measurement (escape [',', ' '] name) name (Clear name ∧ '\x00' ∉ name) := by
  intro i rest q hi h
  unfold measurement at h
  split at h
  · cases h
  obtain ⟨⟨hlast, hall⟩, hi⟩ := recovers_name (forall_iff_forall_mem.mp (by decide)) i rest q hi h
  exact ⟨⟨⟨fun ht => absurd (hall _ ht) (by decide), fun hn => absurd (hall _ hn) (by decide), hlast⟩,
    fun h0 => absurd (hall _ h0) (by decide)⟩, hi⟩

private theorem recovers_tagKey : Recovers tagKey (escape [',', '=', ' '] name) name (Clear name) := by
  intro i rest q hi h
  unfold tagKey at h
  split at h
  · cases h
  · exact recovers_escapedValue rfl rfl i rest q hi h

private theorem recovers_tagValue : Recovers tagValue (escape [',', '=', ' '] name) name (Clear name) := by
  intro i rest q hi h
  unfold tagValue at h
  split at h
  · cases h
  · exact recovers_escapedValue rfl rfl i rest q hi h

private theorem recovers_oneTag (tag : Input × Input) :
    Recovers oneTag (escape [',', '=', ' '] tag.1 ++ '=' :: escape [',', '=', ' '] tag.2) tag
      (Clear tag.1 ∧ Clear tag.2) := by
  intro i rest q hi h
  obtain ⟨key, r1, hkey, h⟩ := bind_eq_ok h
  obtain ⟨_, r2, hequals, h⟩ := bind_eq_ok h
  obtain ⟨value, r3, hvalue, ⟨⟩⟩ := bind_eq_ok h
  rw [append_assoc] at hi
  obtain ⟨hclear, rfl⟩ := recovers_tagKey.cut i r1 _ hi hkey
  obtain rfl := equalsSign_eq_ok hequals
  obtain ⟨hclear', rfl⟩ := recovers_tagValue.cut r2 rest q (hi.of_append.of_append (a := ['='])) hvalue
  exact ⟨⟨hclear, hclear'⟩, by simp⟩

theorem recovers_maybeTagset (tags : List (Input × Input)) :
    Recovers maybeTagset
      (tags.flatMap fun tag => ',' :: (escape [',', '=', ' '] tag.1 ++ '=' :: escape [',', '=', ' '] tag.2))
      (if tags = [] then none else some tags) (∀ tag ∈ tags, Clear tag.1 ∧ Clear tag.2) := by
  intro i rest q hi h
  unfold maybeTagset at h
  cases tags with
  | nil =>
    refine ⟨by simp, ?_⟩
    split at h
    · cases h
      rfl
    · cases h
    · split at h <;> cases h
  | cons tag tags =>
    split at h
    · cases h
    · cases h
    rename_i remainder hcomma
    obtain rfl : i = ',' :: remainder := tag_eq_ok hcomma
    split at h
    any_goals cases h
    rename_i hset
    rw [flatMap_cons, append_assoc, cons_append] at hi ⊢
    obtain ⟨hall, rfl⟩ := recovered_of_list (fun tag _ => recovers_oneTag tag) [] (hi.of_append (a := [','])) hset
    exact ⟨hall, by simp⟩

end Names

section Fields
variable {s i rest q : Input}

private theorem recovered_of_stringData (hi : i <+: escape ['"'] s ++ q) (h : stringData i = (s, '"' :: rest)) :
    i = escape ['"'] s ++ '"' :: rest := by
  induction s generalizing i with
  | nil =>
    revert h
    fun_cases stringData i <;> simp +contextual [escape]
  | cons c s ih =>
    rw [escape_cons] at hi ⊢
    split_ifs at hi ⊢ with hc
    · obtain rfl | ⟨i, rfl, hslash⟩ := prefix_cons_iff.mp hi
      · cases h
      obtain rfl | ⟨i, rfl, hrest⟩ := prefix_cons_iff.mp hslash
      · cases h
      have hdata : stringData i = (s, '"' :: rest) := by
        rcases hc with hc | rfl
        · obtain rfl := mem_singleton.mp hc
          simpa [stringData, Prod.ext_iff] using h
        · simpa [stringData, Prod.ext_iff] using h
      rw [ih hrest hdata]
      rfl
    · obtain rfl | ⟨i, rfl, hrest⟩ := prefix_cons_iff.mp hi
      · cases h
      simp only [mem_singleton, not_or] at hc
      have hdata : stringData i = (s, '"' :: rest) := by
        rw [stringData] at h
        · simpa [Prod.ext_iff] using h
        all_goals simp [hc]
      rw [ih hrest hdata]
      rfl

variable [Features] {parseF64 : Input → Option UInt64} {displayF64 : UInt64 → Input}

private theorem recovers_string : Recovers (fieldValue parseF64) (quoted s) (.string s)
    ((String.ofList s).utf8ByteSize ≤ stringLengthLimitInBytes) := by
  intro i rest q hi h
  have hprefix : i <+: '"' :: (escape ['"'] s ++ '"' :: q) := by simpa [quoted] using hi.isPrefix
  obtain rfl | ⟨i, rfl, hrest⟩ := prefix_cons_iff.mp hprefix
  · cases h
  have hvalue : fieldValue parseF64 ('"' :: i) =
      orElse (.string <$> fieldStringValue) (.boolean <$> fieldBoolValue) ('"' :: i) := rfl
  have hbool : (FieldValue.boolean <$> fieldBoolValue) ('"' :: i) = .error (.error .genericParsingError) := rfl
  rw [hvalue, orElse, hbool] at h
  split at h
  · cases h
  rw [map_apply] at h
  split at h
  case h_2 => cases h
  rename_i a r hstring
  cases h
  obtain ⟨v, r, hquoted, h⟩ := bind_eq_ok hstring
  dsimp only at h
  split_ifs at h with hsize
  · cases h
    obtain ⟨_, r1, hopen, hquoted⟩ := bind_eq_ok hquoted
    obtain ⟨v, r2, hdata, hquoted⟩ := bind_eq_ok hquoted
    obtain ⟨_, r3, hclose, ⟨⟩⟩ := bind_eq_ok hquoted
    obtain rfl := tag_eq_ok hclose
    obtain rfl : i = r1 := (cons.inj (tag_eq_ok hopen)).2
    have hdata : stringData i = (s, '"' :: rest) := Except.ok.inj hdata
    exact ⟨hsize, by simp [quoted, recovered_of_stringData hrest hdata]⟩
  · cases h

private theorem recovers_fieldValue {v : FieldValue} (hrange : v.InRange) (hfloat : ∀ bits, v ≠ .f64 bits) :
    Recovers (fieldValue parseF64) (v.written displayF64 quoted) v
      (∀ s, v = .string s → (String.ofList s).utf8ByteSize ≤ stringLengthLimitInBytes) := by
  have hother (hfeed : '\n' ∉ v.written displayF64 quoted) (hstring : ∀ s, v ≠ .string s) :
      Recovers (fieldValue parseF64) (v.written displayF64 quoted) v
        (∀ s, v = .string s → (String.ofList s).utf8ByteSize ≤ stringLengthLimitInBytes) := by
    intro i rest q hi h
    obtain ⟨r, rfl⟩ := hi.exists_append hfeed
    rw [(valued_written hrange hfloat fun s hs => absurd hs (hstring s)).reads] at h
    cases h
    exact ⟨fun s hs => absurd hs (hstring s), rfl⟩
  cases v with
  | i64 v =>
    refine hother (fun hfeed => ?_) nofun
    rcases mem_append.mp hfeed with h | h
    · exact absurd (mem_signed h) (by decide)
    · exact absurd h (by decide)
  | u64 v =>
    refine hother (fun hfeed => ?_) nofun
    rcases mem_append.mp hfeed with h | h
    · exact absurd (Nat.isDigit_of_mem_toDigits (by decide) (by decide) h) (by decide)
    · exact absurd h (by decide)
  | f64 bits => exact absurd rfl (hfloat bits)
  | string s =>
    intro i rest q hi h
    obtain ⟨hsize, hi⟩ := recovers_string i rest q hi h
    exact ⟨fun _ hs => FieldValue.string.inj hs ▸ hsize, hi⟩
  | boolean v => exact hother (by cases v <;> simp [FieldValue.written]) nofun

private theorem recovers_oneField {field : Input × FieldValue} (h : field.2.InRange ∧ ∀ bits, field.2 ≠ .f64 bits) :
    Recovers (oneField parseF64) (escape [',', '=', ' '] field.1 ++ '=' :: field.2.written displayF64 quoted) field
      (Clear field.1 ∧ ∀ s, field.2 = .string s → (String.ofList s).utf8ByteSize ≤ stringLengthLimitInBytes) := by
  intro i rest q hi hread
  obtain ⟨key, r1, hkey, hread⟩ := bind_eq_ok hread
  obtain ⟨_, r2, hequals, hread⟩ := bind_eq_ok hread
  obtain ⟨value, r3, hvalue, ⟨⟩⟩ := bind_eq_ok hread
  rw [append_assoc] at hi
  obtain ⟨hclear, rfl⟩ := recovers_escapedValue rfl rfl i r1 _ hi hkey
  obtain rfl := tag_eq_ok hequals
  obtain ⟨hstring, rfl⟩ := recovers_fieldValue h.1 h.2 r2 rest q (hi.of_append.of_append (a := ['='])) hvalue
  exact ⟨⟨hclear, hstring⟩, by simp⟩

theorem recovered_of_fieldSet {field : Input × FieldValue} {fields : List (Input × FieldValue)}
    (hvalues : ∀ f ∈ field :: fields, f.2.InRange ∧ ∀ bits, f.2 ≠ .f64 bits)
    (hi : UpToLineFeed i (escape [',', '=', ' '] field.1 ++ '=' :: field.2.written displayF64 quoted ++ (fields.flatMap
      (fun field => ',' :: (escape [',', '=', ' '] field.1 ++ '=' :: field.2.written displayF64 quoted)) ++ q)))
    (h : fieldSet parseF64 i = .ok (field :: fields, rest)) : ∀ f ∈ field :: fields,
      Clear f.1 ∧ ∀ s, f.2 = .string s → (String.ofList s).utf8ByteSize ≤ stringLengthLimitInBytes := by
  unfold fieldSet at h
  split at h
  · cases h
  · exact recovered_of_list1 (fun f hf => recovers_oneField (hvalues f hf)) hi h

end Fields
end VarveDB.LineProtocol
