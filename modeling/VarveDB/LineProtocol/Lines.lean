import VarveDB.LineProtocol.Parser

/-! The division of a text into lines, which are then parsed one by one. -/
namespace VarveDB.LineProtocol
open List

structure Scan where
  quoted : Bool
  fields : Bool
  equals : Nat
  commas : Nat
  inEscape : Bool
  deriving DecidableEq

namespace Scan

def start : Scan := ⟨false, false, 0, 0, false⟩

def next (s : Scan) (c : Char) : Scan × Bool :=
  if s.inEscape then ({ s with inEscape := false }, false)
  else if c = '\\' then ({ s with inEscape := true }, false)
  else if c = ' ' then ({ s with fields := true }, false)
  else if s.fields ∧ ¬ s.quoted ∧ c = '=' then ({ s with equals := s.equals + 1 }, false)
  else if s.fields ∧ ¬ s.quoted ∧ c = ',' then ({ s with commas := s.commas + 1 }, false)
  else if s.fields ∧ c = '"' ∧ s.equals > s.commas then ({ s with quoted := !s.quoted }, false)
  else if c = '\n' ∧ ¬ s.quoted then (start, true)
  else (s, false)

end Scan

structure Splitter where
  done : List Input
  line : Input
  scan : Scan

namespace Splitter

def start : Splitter := ⟨[], [], .start⟩

def push (sp : Splitter) (c : Char) : Splitter :=
  if (sp.scan.next c).2 then ⟨sp.done ++ [sp.line], [], (sp.scan.next c).1⟩
  else ⟨sp.done, sp.line ++ [c], (sp.scan.next c).1⟩

def pieces (sp : Splitter) : List Input := sp.done ++ [sp.line]

end Splitter

open Splitter (push)

def splitLines (input : Input) : List Input := (input.foldl Splitter.push .start).pieces

def trimLeadingFrom : Bool → Input → Input
  | _, [] => []
  | true, c :: i => trimLeadingFrom (c ≠ '\n') i
  | false, c :: i =>
    if isWhitespaceBoundaryChar c then trimLeadingFrom false i
    else if c = '#' then trimLeadingFrom true i
    else c :: i

def trimLeading : Input → Input := trimLeadingFrom false

section
variable [Features] (parseF64 : Input → Option UInt64)

def parsePiece (line : Input) : Option (Except Error ParsedLine) :=
  match trimLeading line with
  | [] => none
  | i =>
    match parseLine parseF64 i with
    | .ok (line, []) => some (.ok line)
    | .ok (_, remaining) => some (.error (.cannotParseEntireLine remaining))
    | .error (.error e) | .error (.failure e) => some (.error e)

def parseLines (input : Input) : List (Except Error ParsedLine) := (splitLines input).filterMap (parsePiece parseF64)

end

section Splitting
variable {s : Scan} {c : Char}

/-- A text up to one of its line feeds, or all of it. -/
def UpToLineFeed (i text : Input) : Prop := i = text ∨ ∃ rest, text = i ++ '\n' :: rest

private theorem lineFeed_of_next (h : (s.next c).2 = true) : c = '\n' := by
  unfold Scan.next at h
  split_ifs at h with _ _ _ _ _ _ hc
  exact hc.1

private theorem pieces_foldl (b : Input) (s : Scan) : ∃ first rest, UpToLineFeed first b ∧
    ∀ done line, (b.foldl push ⟨done, line, s⟩).pieces = done ++ (line ++ first) :: rest := by
  induction b generalizing s with
  | nil => exact ⟨[], [], .inl rfl, fun done line => by simp [Splitter.pieces]⟩
  | cons c b ih =>
    obtain ⟨first, rest, hfirst, hall⟩ := ih (s.next c).1
    cases hsep : (s.next c).2 with
    | true =>
      refine ⟨[], first :: rest, .inr ⟨b, by rw [lineFeed_of_next hsep]; rfl⟩, fun done line => ?_⟩
      rw [foldl_cons, push, hsep, if_pos rfl, hall]
      simp
    | false =>
      refine ⟨c :: first, rest, hfirst.imp (congrArg _) fun ⟨z, hz⟩ => ⟨z, congrArg _ hz⟩, fun done line => ?_⟩
      rw [foldl_cons, push, hsep, if_neg Bool.false_ne_true, hall]
      simp

theorem splitLines_eq_cons (text : Input) :
    ∃ first rest, splitLines text = first :: rest ∧ UpToLineFeed first text := by
  obtain ⟨first, rest, hfirst, hall⟩ := pieces_foldl text .start
  exact ⟨first, rest, hall [] [], hfirst⟩

private def Scan.Fresh (s : Scan) : Prop := s.fields = false → s.quoted = false ∧ s.equals = 0 ∧ s.commas = 0

private theorem Scan.Fresh.next (h : s.Fresh) (c : Char) : (s.next c).1.Fresh := by
  intro hf
  unfold Scan.next at hf ⊢
  split_ifs at hf ⊢ <;> simp_all [Scan.Fresh, Scan.start]

variable {sp : Splitter}

private theorem fresh_foldl (h : sp.scan.Fresh) (a : Input) : (a.foldl push sp).scan.Fresh := by
  induction a generalizing sp with
  | nil => exact h
  | cons c a ih =>
    refine ih ?_
    unfold push
    split <;> exact h.next c

theorem next_of_inEscape (h : s.inEscape = true) (c : Char) : s.next c = ({ s with inEscape := false }, false) := by
  simp [Scan.next, h]

theorem next_backslash (h : s.inEscape = false) : s.next '\\' = ({ s with inEscape := true }, false) := by
  simp [Scan.next, h]

theorem next_lineFeed_of_quoted (h : s.quoted = true) : s.next '\n' = ({ s with inEscape := false }, false) := by
  cases hesc : s.inEscape with
  | true => exact next_of_inEscape hesc _
  | false =>
    obtain ⟨quoted, fields, equals, commas, inEscape⟩ := s
    simp only at h hesc
    simp [Scan.next, h, hesc]

theorem next_lineFeed (hquoted : s.quoted = false) (hesc : s.inEscape = false) : s.next '\n' = (.start, true) := by
  simp [Scan.next, hquoted, hesc]

theorem next_m (hesc : s.inEscape = false) : s.next 'm' = (s, false) := by simp [Scan.next, hesc]

theorem push_of_not_sep (h : sp.scan.next c = (s, false)) :
    sp.push c = ⟨sp.done, sp.line ++ [c], s⟩ := by rw [push, h]; rfl

theorem push_of_sep (h : sp.scan.next c = (s, true)) : sp.push c = ⟨sp.done ++ [sp.line], [], s⟩ := by rw [push, h]; rfl

private theorem foldl_equals (n : Nat) (done : List Input) (line : Input) (hquoted : s.quoted = false)
    (hesc : s.inEscape = false) :
    (List.replicate n '=').foldl push ⟨done, line, s⟩ = ⟨done, line ++ List.replicate n '=',
      if s.fields then { s with equals := s.equals + n } else s⟩ := by
  induction n generalizing line s with
  | zero => simp
  | succ n ih =>
    obtain ⟨quoted, fields, equals, commas, inEscape⟩ := s
    obtain rfl : quoted = false := hquoted
    obtain rfl : inEscape = false := hesc
    rw [replicate_succ, foldl_cons]
    cases fields with
    | true =>
      have hnext :
          Scan.next ⟨false, true, equals, commas, false⟩ '=' = (⟨false, true, equals + 1, commas, false⟩, false) := by
        simp [Scan.next]
      rw [push_of_not_sep hnext, ih _ rfl rfl]
      simp [Nat.add_comm, Nat.add_left_comm]
    | false =>
      have hnext :
          Scan.next ⟨false, false, equals, commas, false⟩ '=' = (⟨false, false, equals, commas, false⟩, false) := by
        simp [Scan.next]
      rw [push_of_not_sep hnext, ih _ rfl rfl]
      simp

theorem head_trimLeading (i : Input) : ∀ c ∈ (trimLeading i).head?, isWhitespaceBoundaryChar c = false ∧ c ≠ '#' := by
  have hfrom (comment : Bool) : ∀ c ∈ (trimLeadingFrom comment i).head?, isWhitespaceBoundaryChar c = false ∧
      c ≠ '#' := by
    fun_induction trimLeadingFrom comment i with
    | case1 => simp
    | case2 | case3 | case4 => assumption
    | case5 c i hblank hc => simpa [hc] using hblank
  exact hfrom false

theorem trimLeading_of_head {i : Input} (h : ∀ c ∈ i.head?, isWhitespaceBoundaryChar c = false ∧ c ≠ '#') :
    trimLeading i = i := by
  cases i with
  | nil => rfl
  | cons c i => simp [trimLeading, trimLeadingFrom, h c rfl]

private theorem trimLeading_append {line : Input} (h : trimLeading line = []) (i : Input) :
    trimLeading (line ++ '\n' :: i) = trimLeading i := by
  have hfrom (line : Input) (comment : Bool) (h : trimLeadingFrom comment line = []) :
      trimLeadingFrom comment (line ++ '\n' :: i) = trimLeadingFrom false i := by
    induction line generalizing comment with
    | nil => cases comment <;> simp [trimLeadingFrom, isWhitespaceBoundaryChar]
    | cons c line ih =>
      rw [cons_append]
      cases comment with
      | true => exact ih _ h
      | false =>
        rw [trimLeadingFrom] at h ⊢
        split_ifs at h ⊢
        · exact ih _ h
        · exact ih _ h
  exact hfrom line false h

/-- The divider ends outside of strings and escapes; or else after the backslash of a comment in
which it has not seen a blank. -/
def Splitter.Settled (sp : Splitter) : Prop :=
  sp.scan.quoted = false ∧ (sp.scan.inEscape = true → sp.scan.fields = false ∧ trimLeading sp.line = [])

private theorem foldl_append_lineFeed (a b : Input) : (a ++ '\n' :: b).foldl push .start =
    b.foldl push ((a.foldl push .start).push '\n') := by
  rw [foldl_append, foldl_cons]

end Splitting

section Law
variable [Features] {parseF64 : Input → Option UInt64} {a : Input}

theorem parseLine_of_parsePiece {piece : Input} {line : ParsedLine} (h : parsePiece parseF64 piece = some (.ok line)) :
    parseLine parseF64 (trimLeading piece) = .ok (line, []) := by
  unfold parsePiece at h
  split at h
  · cases h
  · split at h
    · cases h
      assumption
    all_goals cases h

theorem length_parsePiece (line : Input) :
    (parsePiece parseF64 line).toList.length = if trimLeading line = [] then 0 else 1 := by
  unfold parsePiece
  cases trimLeading line with
  | nil => rfl
  | cons c i =>
    dsimp only
    split <;> rfl

private theorem length_parsePiece_le (line : Input) : (parsePiece parseF64 line).toList.length ≤ 1 := by
  rw [length_parsePiece]
  split <;> decide

private theorem parseLines_eq (input : Input) : parseLines parseF64 input =
    (splitLines input).flatMap fun line => (parsePiece parseF64 line).toList := by
  rw [parseLines, filterMap_eq_flatMap_toList]

theorem parseLines_append_of_settled (h : (a.foldl push .start).Settled) (b : Input) :
    parseLines parseF64 (a ++ '\n' :: b) = parseLines parseF64 a ++ parseLines parseF64 b := by
  have hfresh : (a.foldl push .start).scan.Fresh := fresh_foldl (fun _ => ⟨rfl, rfl, rfl⟩) a
  simp only [parseLines_eq, splitLines, foldl_append_lineFeed]
  generalize a.foldl push .start = sp at h hfresh ⊢
  obtain ⟨done, line, s⟩ := sp
  obtain ⟨hquoted, hescape⟩ := h
  obtain ⟨first, rest, -, hall⟩ := pieces_foldl b .start
  have hb : (b.foldl push .start).pieces = first :: rest := hall [] []
  cases hesc : s.inEscape with
  | false =>
    rw [push_of_sep (next_lineFeed hquoted hesc), hall, hb, Splitter.pieces, flatMap_append]
    rfl
  | true =>
    obtain ⟨hfields, htrim⟩ := hescape hesc
    obtain ⟨-, hequals, hcommas⟩ := hfresh hfields
    have hs : { s with inEscape := false } = Scan.start := by
      simp_all [Scan.start]
    have hmerged : parsePiece parseF64 (line ++ ['\n'] ++ first) = parsePiece parseF64 first := by
      rw [append_assoc, singleton_append]
      simp only [parsePiece, trimLeading_append htrim]
    have hnone : parsePiece parseF64 line = none := by simp only [parsePiece, show trimLeading line = [] from htrim]
    rw [push_of_not_sep (next_of_inEscape hesc '\n'), hs, hall, hb, Splitter.pieces]
    simp only [flatMap_append, flatMap_cons, hmerged, hnone, flatMap_nil, Option.toList_none, append_nil]

/-- A text that runs on into the next line has a continuation of which it leaves too little. -/
private theorem settled_of_parseLines_append
    (h : ∀ b, parseLines parseF64 (a ++ '\n' :: b) = parseLines parseF64 a ++ parseLines parseF64 b) :
    (a.foldl push .start).Settled := by
  simp only [parseLines_eq, splitLines, foldl_append_lineFeed] at h
  generalize a.foldl push .start = sp at h ⊢
  obtain ⟨done, line, s⟩ := sp
  -- one line in place of `line` and all lines of `b` yields at most one item
  have hshort (b merged : Input)
      (hmerged : (b.foldl push ((⟨done, line, s⟩ : Splitter).push '\n')).pieces = done ++ [merged]) :
      (parsePiece parseF64 line).toList.length + ((b.foldl push .start).pieces.flatMap fun line =>
        (parsePiece parseF64 line).toList).length ≤ 1 := by
    have hlength := congrArg List.length (h b)
    rw [hmerged] at hlength
    simp only [Splitter.pieces, flatMap_append, flatMap_singleton, length_append] at hlength ⊢
    have hle : (parsePiece parseF64 merged).toList.length ≤ 1 := length_parsePiece_le merged
    omega
  have htwo (b merged p q : Input)
      (hmerged : (b.foldl push ((⟨done, line, s⟩ : Splitter).push '\n')).pieces = done ++ [merged])
      (hb : (b.foldl push .start).pieces = [p, q]) (hp : trimLeading p ≠ []) (hq : trimLeading q ≠ []) : False := by
    have hle := hshort b merged hmerged
    rw [hb] at hle
    simp only [flatMap_cons, flatMap_nil, length_append, length_nil, length_parsePiece, if_neg hp, if_neg hq] at hle
    omega
  have hquoted : s.quoted = false := by
    by_contra hquoted
    rw [Bool.not_eq_false] at hquoted
    have hstill : ({ s with inEscape := false } : Scan).quoted = true := hquoted
    refine htwo ['m', '\n', 'm'] (line ++ ['\n'] ++ ['m'] ++ ['\n'] ++ ['m']) ['m'] ['m'] ?_
      (by decide) (by decide) (by decide)
    rw [push_of_not_sep (next_lineFeed_of_quoted hquoted), foldl_cons, push_of_not_sep (next_m rfl),
      foldl_cons, push_of_not_sep (next_lineFeed_of_quoted hstill), foldl_cons, push_of_not_sep (next_m rfl)]
    rfl
  refine ⟨hquoted, fun hesc => ⟨?_, ?_⟩⟩
  · -- with enough `=` a quote opens a string here, but not at the beginning of a line
    by_contra hfields
    rw [Bool.not_eq_false] at hfields
    have hquote : Scan.next ⟨s.quoted, s.fields, s.equals + (s.commas + 1), s.commas, false⟩ '"' =
        (⟨true, s.fields, s.equals + (s.commas + 1), s.commas, false⟩, false) := by
      have hlt : s.commas < s.equals + (s.commas + 1) := by omega
      simp [Scan.next, hquoted, show s.fields = true from hfields, hlt]
    refine htwo (List.replicate (s.commas + 1) '=' ++ ['"', '\n', 'm'])
      (line ++ ['\n'] ++ List.replicate (s.commas + 1) '=' ++ ['"'] ++ ['\n'] ++ ['m'])
      (List.replicate (s.commas + 1) '=' ++ ['"']) ['m'] ?_ ?_ ?_ (by decide)
    · have hequals := foldl_equals (s := ⟨s.quoted, s.fields, s.equals, s.commas, false⟩) (s.commas + 1) done
        (line ++ ['\n']) hquoted rfl
      rw [if_pos (show s.fields = true from hfields)] at hequals
      rw [push_of_not_sep (next_of_inEscape hesc '\n'), foldl_append]
      rw [hequals, foldl_cons, push_of_not_sep hquote, foldl_cons,
        push_of_not_sep (next_lineFeed_of_quoted rfl), foldl_cons, push_of_not_sep (next_m rfl)]
      rfl
    · rw [foldl_append, Splitter.start, foldl_equals _ _ _ rfl rfl]
      rfl
    · simp [replicate_succ, trimLeading, trimLeadingFrom, isWhitespaceBoundaryChar]
  · by_contra htrim
    have hle := hshort ['m'] (line ++ ['\n'] ++ ['m']) (by
      rw [push_of_not_sep (next_of_inEscape hesc '\n'), foldl_cons, push_of_not_sep (next_m rfl)]
      rfl)
    have hm : (parsePiece parseF64 ['m']).toList.length = 1 := length_parsePiece ['m']
    rw [length_parsePiece, if_neg htrim] at hle
    simp only [show (List.foldl push .start ['m']).pieces = [['m']] from rfl, flatMap_singleton, hm] at hle
    omega

end Law
section Grammar

/-- Where a text stands outside of strings: the current line so far and, after the first blank in
it, how many more `=` than `,` have followed. -/
structure Place where
  line : Input
  balance : Option Int

def Place.start : Place := ⟨[], none⟩

inductive StringText : Input → Prop
  | empty : StringText []
  | escaped {c : Char} {i : Input} (rest : StringText i) : StringText ('\\' :: c :: i)
  | char {c : Char} {i : Input} (notEscape : c ≠ '\\') (notQuote : c ≠ '"') (rest : StringText i) : StringText (c :: i)

/-- A text made of whole parts: escapes, `=` and `,` counted after the first blank of a line, and strings, which open
where more `=` than `,` have come. -/
inductive Reads : Place → Input → Place → Prop
  | done (pl : Place) : Reads pl [] pl
  | escaped {line i : Input} {balance : Option Int} {c : Char} {pl : Place}
      (rest : Reads ⟨line ++ ['\\', c], balance⟩ i pl) : Reads ⟨line, balance⟩ ('\\' :: c :: i) pl
  | lineFeed {pl pl' : Place} {i : Input} (rest : Reads .start i pl') : Reads pl ('\n' :: i) pl'
  | blank {line i : Input} {balance : Option Int} {pl : Place}
      (rest : Reads ⟨line ++ [' '], some (balance.getD 0)⟩ i pl) : Reads ⟨line, balance⟩ (' ' :: i) pl
  | equals {line i : Input} {d : Int} {pl : Place}
      (rest : Reads ⟨line ++ ['='], some (d + 1)⟩ i pl) : Reads ⟨line, some d⟩ ('=' :: i) pl
  | comma {line i : Input} {d : Int} {pl : Place}
      (rest : Reads ⟨line ++ [','], some (d - 1)⟩ i pl) : Reads ⟨line, some d⟩ (',' :: i) pl
  | string {line text i : Input} {d : Int} {pl : Place} (opens : 0 < d) (body : StringText text)
      (rest : Reads ⟨line ++ '"' :: text ++ ['"'], some d⟩ i pl) : Reads ⟨line, some d⟩ ('"' :: (text ++ '"' :: i)) pl
  | other {line i : Input} {balance : Option Int} {c : Char} {pl : Place} (plain : c ∉ ['\\', '\n', ' '])
      (uncounted : ∀ d, balance = some d → c ≠ '=' ∧ c ≠ ',' ∧ (c = '"' → d ≤ 0))
      (rest : Reads ⟨line ++ [c], balance⟩ i pl) : Reads ⟨line, balance⟩ (c :: i) pl

private inductive Known : Option Int → Scan → Prop
  | before : Known none .start
  | after {d : Int} (equals commas : Nat) (balance : d = equals - commas) :
      Known (some d) ⟨false, true, equals, commas, false⟩

structure Within (s : Scan) : Prop where
  quoted : s.quoted = true
  inEscape : s.inEscape = false
  fields : s.fields = true
  opened : s.commas < s.equals

variable {s : Scan} {done : List Input} {line i : Input} {pl pl' : Place} {c : Char} {balance : Option Int}

theorem Known.inEscape (h : Known balance s) : s.inEscape = false := by cases h <;> rfl

private theorem Known.quoted (h : Known balance s) : s.quoted = false := by cases h <;> rfl

private theorem Within.next (h : Within s) (hesc : c ≠ '\\') (hquote : c ≠ '"') : s.next c = (s, false) := by
  obtain ⟨quoted, fields, equals, commas, inEscape⟩ := s
  obtain ⟨hq, he, hf, -⟩ := h
  simp only [Scan.next, hesc, hquote]
  split_ifs <;> simp_all

/-- A quote opens a string where more `=` than `,` have come. -/
theorem Within.of_opening {equals commas : Nat} (h : commas < equals) :
    Scan.next ⟨false, true, equals, commas, false⟩ '"' = (⟨true, true, equals, commas, false⟩, false) ∧
      Within ⟨true, true, equals, commas, false⟩ :=
  ⟨by simp [Scan.next, h], rfl, rfl, rfl, h⟩

theorem Within.next_quote (h : Within s) : s.next '"' = ({ s with quoted := false }, false) := by
  simp [Scan.next, h.quoted, h.inEscape, h.fields, h.opened]

theorem push_escaped (done : List Input) (line : Input) (hesc : s.inEscape = false) (c : Char) :
    (push ⟨done, line, s⟩ '\\').push c = ⟨done, line ++ ['\\', c], s⟩ := by
  obtain ⟨quoted, fields, equals, commas, inEscape⟩ := s
  obtain rfl : inEscape = false := hesc
  simp [push, Scan.next]

theorem foldl_stringText {text : Input} (h : StringText text) (hs : Within s) (done : List Input) (line : Input) :
    text.foldl push ⟨done, line, s⟩ = ⟨done, line ++ text, s⟩ := by
  induction h generalizing line with
  | empty => simp
  | escaped rest ih =>
    rw [foldl_cons, foldl_cons, push_escaped done line hs.inEscape, ih]
    simp
  | char notEscape notQuote rest ih =>
    rw [foldl_cons, push_of_not_sep (hs.next notEscape notQuote), ih]
    simp

private theorem Known.next_blank (h : Known balance s) :
    ∃ s', s.next ' ' = (s', false) ∧ Known (some (balance.getD 0)) s' := by
  cases h with
  | before => exact ⟨_, rfl, .after 0 0 rfl⟩
  | after equals commas hd => exact ⟨_, rfl, .after equals commas hd⟩

private theorem Known.next_other (h : Known balance s) (plain : c ∉ ['\\', '\n', ' '])
    (uncounted : ∀ d, balance = some d → c ≠ '=' ∧ c ≠ ',' ∧ (c = '"' → d ≤ 0)) : s.next c = (s, false) := by
  simp only [mem_cons, not_mem_nil, or_false, not_or] at plain
  obtain ⟨hesc, hfeed, hblank⟩ := plain
  cases h with
  | before => simp [Scan.next, Scan.start, hesc, hfeed, hblank]
  | after equals commas hd =>
    obtain ⟨hequals, hcomma, hquote⟩ := uncounted _ rfl
    have hclosed (hc : c = '"') : equals ≤ commas := by
      have hle := hquote hc
      omega
    simp only [Scan.next, hesc, hfeed, hblank, hequals, hcomma]
    simp
    exact hclosed

private theorem Reads.foldl (h : Reads pl i pl') (hs : Known pl.balance s) (done : List Input) :
    ∃ done' s', i.foldl push ⟨done, pl.line, s⟩ = ⟨done', pl'.line, s'⟩ ∧ Known pl'.balance s' := by
  induction h generalizing s done with
  | done pl => exact ⟨done, s, rfl, hs⟩
  | escaped rest ih =>
    rw [foldl_cons, foldl_cons, push_escaped done _ hs.inEscape]
    exact ih hs done
  | lineFeed rest ih =>
    rw [foldl_cons, push_of_sep (next_lineFeed hs.quoted hs.inEscape)]
    exact ih .before _
  | blank rest ih =>
    obtain ⟨s', hnext, hs'⟩ := hs.next_blank
    rw [foldl_cons, push_of_not_sep hnext]
    exact ih hs' done
  | equals rest ih =>
    cases hs with | after equals commas hd =>
    exact ih (.after (equals + 1) commas (by omega)) done
  | comma rest ih =>
    cases hs with | after equals commas hd =>
    exact ih (.after equals (commas + 1) (by omega)) done
  | string opens body rest ih =>
    cases hs with | after equals commas hd =>
    obtain ⟨hopen, hwithin⟩ := Within.of_opening (by omega : commas < equals)
    rw [foldl_cons, push_of_not_sep hopen, foldl_append, foldl_stringText body hwithin, foldl_cons,
      push_of_not_sep hwithin.next_quote]
    simp only [append_assoc, singleton_append] at ih ⊢
    exact ih (.after equals commas hd) done
  | other plain uncounted rest ih =>
    rw [foldl_cons, push_of_not_sep (hs.next_other plain uncounted)]
    exact ih hs done

theorem Reads.foldl_start (h : Reads .start i pl) :
    ∃ done s, i.foldl push .start = ⟨done, pl.line, s⟩ ∧ Known pl.balance s := h.foldl .before []

private theorem exists_closing_quote (hs : Within s) (hend : (i.foldl push ⟨done, line, s⟩).scan.quoted = false) :
    ∃ text rest, i = text ++ '"' :: rest ∧ StringText text := by
  -- by induction on the length, since an escape is two characters
  induction hn : i.length using Nat.strongRecOn generalizing i line with
  | ind n ih =>
    match i with
    | [] =>
      rw [foldl_nil, hs.quoted] at hend
      cases hend
    | c :: i =>
      by_cases hesc : c = '\\'
      · subst hesc
        match i with
        | [] =>
          rw [foldl_cons, push_of_not_sep (next_backslash hs.inEscape)] at hend
          exact absurd (hs.quoted.symm.trans hend) nofun
        | c :: i =>
          rw [foldl_cons, foldl_cons, push_escaped done line hs.inEscape] at hend
          obtain ⟨text, rest, rfl, htext⟩ := ih i.length (by simp at hn; omega) hend rfl
          exact ⟨'\\' :: c :: text, rest, rfl, .escaped htext⟩
      · by_cases hquote : c = '"'
        · exact ⟨[], i, by rw [hquote]; rfl, .empty⟩
        · rw [foldl_cons, push_of_not_sep (hs.next hesc hquote)] at hend
          obtain ⟨text, rest, rfl, htext⟩ := ih i.length (by simp at hn; omega) hend rfl
          exact ⟨c :: text, rest, rfl, .char hesc hquote htext⟩

/-- A text at whose end the divider is outside of strings and escapes is made of whole parts. -/
theorem exists_reads (hs : Known balance s) (hquoted : (i.foldl push ⟨done, line, s⟩).scan.quoted = false)
    (hescape : (i.foldl push ⟨done, line, s⟩).scan.inEscape = false) : ∃ pl, Reads ⟨line, balance⟩ i pl := by
  induction hn : i.length using Nat.strongRecOn generalizing i done line s balance with
  | ind n ih =>
    match i with
    | [] => exact ⟨_, .done _⟩
    | c :: i =>
      have hlt : i.length < n := by simp at hn; omega
      rw [foldl_cons] at hquoted hescape
      by_cases hesc : c = '\\'
      · subst hesc
        match i with
        | [] =>
          rw [push_of_not_sep (next_backslash hs.inEscape)] at hescape
          cases hescape
        | c :: i =>
          rw [foldl_cons, push_escaped done line hs.inEscape] at hquoted hescape
          obtain ⟨pl, hpl⟩ := ih i.length (by simp at hlt; omega) hs hquoted hescape rfl
          exact ⟨pl, .escaped hpl⟩
      by_cases hfeed : c = '\n'
      · subst hfeed
        rw [push_of_sep (next_lineFeed hs.quoted hs.inEscape)] at hquoted hescape
        obtain ⟨pl, hpl⟩ := ih i.length hlt .before hquoted hescape rfl
        exact ⟨pl, .lineFeed hpl⟩
      by_cases hblank : c = ' '
      · subst hblank
        obtain ⟨s', hnext, hs'⟩ := hs.next_blank
        rw [push_of_not_sep hnext] at hquoted hescape
        obtain ⟨pl, hpl⟩ := ih i.length hlt hs' hquoted hescape rfl
        exact ⟨pl, .blank hpl⟩
      by_cases hother : ∀ d, balance = some d → c ≠ '=' ∧ c ≠ ',' ∧ (c = '"' → d ≤ 0)
      · have hplain : c ∉ ['\\', '\n', ' '] := by simp [hesc, hfeed, hblank]
        rw [push_of_not_sep (hs.next_other hplain hother)] at hquoted hescape
        obtain ⟨pl, hpl⟩ := ih i.length hlt hs hquoted hescape rfl
        exact ⟨pl, .other hplain hother hpl⟩
      -- what is left is counted: `=`, `,` or the quote that opens a string
      cases hs with
      | before => exact absurd (fun d hd => by cases hd) hother
      | after equals commas hd =>
        by_cases hequals : c = '='
        · subst hequals
          obtain ⟨pl, hpl⟩ := ih i.length hlt (.after (equals + 1) commas rfl) hquoted hescape rfl
          exact ⟨pl, .equals (by rwa [hd, show (equals - commas + 1 : Int) = (equals + 1 : Nat) - commas by omega])⟩
        by_cases hcomma : c = ','
        · subst hcomma
          obtain ⟨pl, hpl⟩ := ih i.length hlt (.after equals (commas + 1) rfl) hquoted hescape rfl
          exact ⟨pl, .comma (by rwa [hd, show (equals - commas - 1 : Int) = equals - (commas + 1 : Nat) by omega])⟩
        have hopens : c = '"' ∧ commas < equals := by
          by_contra hno
          refine hother fun d hd' => ⟨hequals, hcomma, fun hc => ?_⟩
          cases hd'
          have hle : ¬ commas < equals := fun hlt => hno ⟨hc, hlt⟩
          omega
        obtain ⟨rfl, hlt'⟩ := hopens
        obtain ⟨hopen, hwithin⟩ := Within.of_opening hlt'
        rw [push_of_not_sep hopen] at hquoted hescape
        obtain ⟨text, rest, rfl, htext⟩ := exists_closing_quote hwithin hquoted
        rw [foldl_append, foldl_stringText htext hwithin, foldl_cons, push_of_not_sep hwithin.next_quote]
          at hquoted hescape
        obtain ⟨pl, hpl⟩ := ih rest.length (by simp at hlt; omega) (.after equals commas hd) hquoted hescape rfl
        refine ⟨pl, .string (by omega) htext ?_⟩
        simpa using hpl

/-- The text ends outside of strings, and not after an unpaired backslash unless that is the end of
a comment without a blank. -/
def EndsOutside (a : Input) : Prop :=
  (∃ pl, Reads .start a pl) ∨
  ∃ i line, a = i ++ ['\\'] ∧ Reads .start i ⟨line, none⟩ ∧ trimLeading (line ++ ['\\']) = []

private theorem next_inEscape (h : (s.next c).1.inEscape = true) : c = '\\' ∧ s.inEscape = false := by
  unfold Scan.next at h
  split_ifs at h <;> simp_all [Scan.start]

private theorem scan_push (sp : Splitter) (c : Char) : (sp.push c).scan = (sp.scan.next c).1 := by
  unfold push
  split <;> rfl

private theorem settled_iff (a : Input) : (a.foldl push .start).Settled ↔ EndsOutside a := by
  constructor
  · rintro ⟨hquoted, hescape⟩
    cases hesc : (a.foldl push .start).scan.inEscape with
    | false => exact .inl (exists_reads .before hquoted hesc)
    | true =>
      obtain ⟨hfields, htrim⟩ := hescape hesc
      rcases eq_nil_or_concat a with rfl | ⟨i, c, rfl⟩
      · cases hesc
      · simp only [concat_eq_append, foldl_append, foldl_cons, foldl_nil] at hquoted hesc hfields htrim
        obtain ⟨rfl, hbefore⟩ := next_inEscape (scan_push .. ▸ hesc)
        rw [push_of_not_sep (next_backslash hbefore)] at hquoted hfields htrim
        obtain ⟨pl, hreads⟩ := exists_reads .before hquoted hbefore
        obtain ⟨done, s, hfold, hknown⟩ := hreads.foldl_start
        rw [hfold] at hfields htrim
        obtain ⟨line, balance⟩ := pl
        cases hknown with
        | before => exact .inr ⟨i, line, concat_eq_append, hreads, htrim⟩
        | after equals commas hd => cases hfields
  · rintro (⟨pl, hreads⟩ | ⟨i, line, rfl, hreads, htrim⟩)
    · obtain ⟨done, s, hfold, hknown⟩ := hreads.foldl_start
      rw [hfold]
      exact ⟨hknown.quoted, fun hesc => absurd (hknown.inEscape.symm.trans hesc) nofun⟩
    · obtain ⟨done, s, hfold, hknown⟩ := hreads.foldl_start
      cases hknown
      rw [foldl_append, hfold, foldl_cons, push_of_not_sep (next_backslash rfl)]
      exact ⟨rfl, fun _ => ⟨rfl, htrim⟩⟩

/-- A text can be followed by any other one after a line feed, and yields its own items and then
those of the other one, if and only if it ends outside of strings and escapes. -/
theorem parseLines_append_iff [Features] (parseF64 : Input → Option UInt64) (a : Input) :
    (∀ b, parseLines parseF64 (a ++ '\n' :: b) = parseLines parseF64 a ++ parseLines parseF64 b) ↔ EndsOutside a := by
  rw [← settled_iff]
  exact ⟨settled_of_parseLines_append, parseLines_append_of_settled⟩

private abbrev Swallows (a : String) : Prop :=
  (∀ r ∈ parseLines (fun _ => none) a.toList, r.toOption.isSome) ∧
  (parseLines (fun _ => none) "m f=1i\nm f=2i".toList).length = 2 ∧
  (parseLines (fun _ => none) (a.toList ++ '\n' :: "m f=1i\nm f=2i".toList)).length = 1 ∧
  parseLines (fun _ => none) (a.toList ++ '\n' :: "m f=1i\nm f=2i".toList) ≠
    parseLines (fun _ => none) a.toList ++ parseLines (fun _ => none) "m f=1i\nm f=2i".toList

/-- A comment with a quote after `=`, a line with `,` in a field key, and one with a blank in front and a quote in a
tag: each is accepted, and takes the next two lines with it. -/
theorem next_lines_swallowed : Swallows "# x=\"" ∧ Swallows "m a,b=\"=\"" ∧ Swallows " m,t=a=\"b f=1i" := by
  decide +kernel

end Grammar
end VarveDB.LineProtocol
