import FleetControl.Proofs.Toml.Number
import FleetControl.Proofs.Toml.Quoted
import FleetControl.Toml.Writer
import Mathlib.Data.List.TakeDrop

/-!
# Documents are read back line by line

What is written for a line is read as the statement of the line (`Toml.Reader.statement_write`), so
a document is read as the statements of its lines (`Toml.Reader.statements_writeLines`).

A written key starts with a character that neither a blank, a bracket nor a comment starts with
(`Toml.isKeyStart`), and is read up to the next character that no bare key has. The readers of keys
and values stop where the writers stopped because of what follows: a dot, a blank or a bracket after
a key, a line end after a value.
-/

namespace FleetControl.Toml

open Text

theorem bareValue_repr {n : Nat} (h : Number.inRange n) (rest : List Char) :
    Reader.bareValue ((Nat.repr n).toList ++ '\n' :: rest) = some (.integer n, '\n' :: rest) := by
  have hmoment := Moment.read_repr n rest
  have hnumber := Number.read_repr h rest
  obtain ⟨c, ds, hrepr, hc, -⟩ := repr_eq_cons n
  rw [hrepr, List.cons_append] at hmoment hnumber ⊢
  unfold Reader.bareValue
  split
  · next heq =>
    obtain ⟨rfl, -⟩ := List.cons.inj heq
    exact absurd hc (by decide)
  · next heq =>
    obtain ⟨rfl, -⟩ := List.cons.inj heq
    exact absurd hc (by decide)
  · rw [hmoment]
    exact hnumber

/-! ### Keys -/

/-- A character that a written key may start with. -/
def isKeyStart (c : Char) : Bool := isBareChar c || c == '"' || c == '\''

theorem writeKey_eq_cons (key : String) : ∃ c t, writeKey key = c :: t ∧ isKeyStart c := by
  unfold writeKey
  dsimp only
  split_ifs with hbare hliteral
  · simp only [Bool.and_eq_true, Bool.not_eq_true', List.all_eq_true] at hbare
    cases hkey : key.toList with
    | nil => simp [hkey] at hbare
    | cons c t => exact ⟨c, t, rfl, by simp [isKeyStart, hbare.2 c (hkey ▸ List.mem_cons_self)]⟩
  · exact ⟨'\'', _, rfl, rfl⟩
  · exact ⟨'"', _, rfl, rfl⟩

theorem isKeyStart_ne {c d : Char} (hc : isKeyStart c) (hd : isKeyStart d = false) : c ≠ d := by
  rintro rfl
  simp [hd] at hc

namespace Reader

theorem skipBlanks_cons {c : Char} (h : isBlankChar c = false) (t : List Char) :
    skipBlanks (c :: t) = c :: t := by
  simp [skipBlanks, h]

theorem isBlankChar_of_isKeyStart {c : Char} (h : isKeyStart c) : isBlankChar c = false := by
  simp only [isBlankChar, Bool.or_eq_false_iff, beq_eq_false_iff_ne]
  exact ⟨isKeyStart_ne h rfl, isKeyStart_ne h rfl⟩

theorem skipBlanks_writeKey (key : String) (t : List Char) :
    skipBlanks (writeKey key ++ t) = writeKey key ++ t := by
  obtain ⟨c, u, hkey, hc⟩ := writeKey_eq_cons key
  rw [hkey, List.cons_append]
  exact skipBlanks_cons (isBlankChar_of_isKeyStart hc) _

/-- A key is read up to a character that no bare key has. -/
theorem simpleKey_writeKey (key : String) {c : Char} (hc : isBareChar c = false) (t : List Char) :
    simpleKey (writeKey key ++ c :: t) = some (key, c :: t) := by
  unfold writeKey
  dsimp only
  split_ifs with hbare hliteral
  · simp only [Bool.and_eq_true, Bool.not_eq_true', List.all_eq_true] at hbare
    have hspan : (key.toList ++ c :: t).span isBareChar = (key.toList, c :: t) := by
      rw [List.span_eq_takeWhile_dropWhile, List.takeWhile_append_of_pos hbare.2,
        List.dropWhile_append_of_pos hbare.2]
      simp [hc]
    rw [simpleKey, hspan]
    -- a bare key is not taken for a quoted one
    obtain ⟨d, u, hkey⟩ := List.exists_cons_of_ne_nil
      (List.isEmpty_eq_false_iff.1 hbare.1)
    have hd := hbare.2 d (hkey ▸ List.mem_cons_self)
    have hshort : readShort (key.toList ++ c :: t) = none := by
      rw [hkey, List.cons_append, readShort]
      · rintro v hv
        obtain ⟨rfl, -⟩ := List.cons.inj hv
        cases hd
      · rintro v hv
        obtain ⟨rfl, -⟩ := List.cons.inj hv
        cases hd
    rw [hshort, hkey]
    simp [← hkey]
  · simp only [Bool.and_eq_true] at hliteral
    rw [simpleKey, readShort_literal hliteral.1]
    simp
  · rw [simpleKey, readShort_basic]
    simp

/-- Keys joined by dots are read up to what follows them. -/
theorem keys_writePath {n : Nat} {path : List String} (hn : path.length < n) (key : String)
    {c : Char} (hc : isBareChar c = false) {t : List Char}
    (hdot : ∀ u, skipBlanks (c :: t) ≠ '.' :: u) :
    keys n (Line.writePath path key ++ c :: t) = some (path ++ [key], skipBlanks (c :: t)) := by
  induction path generalizing n with
  | nil =>
    obtain ⟨n, rfl⟩ := Nat.exists_eq_add_of_lt hn
    simp only [Line.writePath, List.flatMap_nil, List.nil_append, List.length_nil]
    rw [keys, skipBlanks_writeKey, simpleKey_writeKey key hc]
    dsimp only [Option.bind_eq_bind, Option.bind_some]
    split
    · next u hu => exact absurd hu (hdot u)
    · rfl
  | cons k path ih =>
    obtain ⟨n, rfl⟩ := Nat.exists_eq_add_of_lt hn
    have hwrite : Line.writePath (k :: path) key ++ c :: t =
        writeKey k ++ '.' :: (Line.writePath path key ++ c :: t) := by
      simp [Line.writePath]
    rw [hwrite, keys, skipBlanks_writeKey, simpleKey_writeKey k rfl]
    have hrest := ih (n := (k :: path).length + n) (by simp only [List.length_cons]; omega)
    dsimp only [Option.bind_eq_bind, Option.bind_some]
    rw [skipBlanks_cons rfl]
    change (keys ((k :: path).length + n) _).bind _ = _
    rw [hrest]
    rfl

theorem dottedKey_writePath {path : List String} (hpath : path.length < maxDots) (key : String)
    {c : Char} (hc : isBareChar c = false) {t : List Char}
    (hdot : ∀ u, skipBlanks (c :: t) ≠ '.' :: u) :
    dottedKey (Line.writePath path key ++ c :: t) = some (path, key, skipBlanks (c :: t)) := by
  rw [dottedKey, keys_writePath hpath key hc hdot]
  simp

/-! ### Values -/

/-- A value that starts with none of the brackets and quotes. -/
theorem value_of_bare {fuel depth : Nat} {c : Char} {t : List Char}
    (hc : c ≠ '[' ∧ c ≠ '\x7b' ∧ c ≠ '"' ∧ c ≠ '\'') :
    value (fuel + 1) depth (c :: t) = bareValue (c :: t) := by
  obtain ⟨hbracket, hbrace, hquote, hquote'⟩ := hc
  rw [value]
  · simp [hquote, hquote']
  all_goals simp_all

theorem value_text (fuel depth : Nat) (s : String) (t : List Char) :
    value (fuel + 1) depth (writeText s ++ '\n' :: t) = some (.text s, '\n' :: t) := by
  have hread : readText (writeText s ++ '\n' :: t) = some (s.toList, '\n' :: t) :=
    readText_writeText s ⟨by simp, by simp⟩
  obtain ⟨q, u, hs, hq⟩ := writeText_eq_cons s
  rw [hs, List.cons_append] at hread ⊢
  rw [value]
  · rcases hq with rfl | rfl <;> simp [hread]
  all_goals rcases hq with rfl | rfl <;> simp

theorem value_emptyArray (fuel : Nat) {depth : Nat} (hdepth : 0 < depth) (t : List Char) :
    value (fuel + 1) depth ('[' :: ']' :: t) = some (.array [], t) := by
  have hgap : skipGap false (']' :: t) = some (']' :: t) := by
    rw [skipGap] <;> simp [isBlankChar]
  rw [value, hgap]
  simp [Nat.pos_iff_ne_zero.1 hdepth]

/-- A value is read up to the end of its line. -/
theorem frontValue_write {v : Simple} (h : ∀ n, v = .integer n → Number.inRange n)
    (t : List Char) : frontValue (v.write ++ '\n' :: t) = some (v.item, '\n' :: t) := by
  unfold frontValue
  cases v with
  | text s => exact value_text _ _ s t
  | integer n =>
    have hread := bareValue_repr (h n rfl) t
    obtain ⟨c, ds, hrepr, hc, -⟩ := repr_eq_cons n
    rw [hrepr, List.cons_append] at hread
    rw [Simple.write, hrepr, List.cons_append, value_of_bare, hread]
    · rfl
    · refine ⟨?_, ?_, ?_, ?_⟩ <;> rintro rfl <;> exact absurd hc (by decide)
  | bool b =>
    cases b with
    | true => exact value_of_bare (by decide)
    | false => exact value_of_bare (by decide)
  | emptyArray => exact value_emptyArray _ (by decide) ('\n' :: t)

end Reader

/-! ### Lines -/

/-- A line that a reader does not refuse: its number has 64 bits, and its key is not too long. -/
def Line.Readable : Line → Prop
  | .field _ v => ∀ n, v = .integer n → Number.inRange n
  | .header path _ => path.length < Reader.maxDots
  | .element path _ => path.length < Reader.maxDots

namespace Reader

theorem simple_write_eq_cons (v : Simple) :
    ∃ c t, v.write = c :: t ∧ isBlankChar c = false := by
  cases v with
  | text s =>
    obtain ⟨q, t, hs, rfl | rfl⟩ := writeText_eq_cons s
    · exact ⟨_, t, hs, rfl⟩
    · exact ⟨_, t, hs, rfl⟩
  | integer n =>
    obtain ⟨c, ds, hrepr, hc, -⟩ := repr_eq_cons n
    refine ⟨c, ds, hrepr, ?_⟩
    simp only [isBlankChar, Bool.or_eq_false_iff, beq_eq_false_iff_ne]
    constructor <;> rintro rfl <;> cases hc
  | bool b =>
    cases b with
    | true => exact ⟨'t', _, rfl, rfl⟩
    | false => exact ⟨'f', _, rfl, rfl⟩
  | emptyArray => exact ⟨'[', _, rfl, rfl⟩

theorem writePath_eq_cons (path : List String) (key : String) :
    ∃ c t, Line.writePath path key = c :: t ∧ isKeyStart c := by
  cases path with
  | nil =>
    obtain ⟨c, t, hkey, hc⟩ := writeKey_eq_cons key
    exact ⟨c, t, by simp [Line.writePath, hkey], hc⟩
  | cons k path =>
    obtain ⟨c, t, hkey, hc⟩ := writeKey_eq_cons k
    exact ⟨c, t ++ '.' :: Line.writePath path key, by simp [Line.writePath, hkey], hc⟩

/-- A line is read as its statement. -/
theorem statement_write {line : Line} (h : line.Readable) (t : List Char) :
    statement (line.write ++ t) = some (line.statement, '\n' :: t) := by
  cases line with
  | field key v =>
    have hwrite : (Line.field key v).write ++ t =
        Line.writePath [] key ++ ' ' :: '=' :: ' ' :: (v.write ++ '\n' :: t) := by
      simp [Line.write, Line.writePath]
    have hkey : dottedKey (Line.writePath [] key ++ ' ' :: '=' :: ' ' :: (v.write ++ '\n' :: t)) =
        some ([], key, '=' :: ' ' :: (v.write ++ '\n' :: t)) :=
      dottedKey_writePath (by decide) key rfl (by simp [skipBlanks, isBlankChar])
    have hvalue : skipBlanks (' ' :: (v.write ++ '\n' :: t)) = v.write ++ '\n' :: t := by
      obtain ⟨d, w, hd, hblank⟩ := simple_write_eq_cons v
      rw [hd]
      exact skipBlanks_cons hblank _
    obtain ⟨c, u, hc, hstart⟩ := writePath_eq_cons [] key
    have hbracket : c ≠ '[' := isKeyStart_ne hstart rfl
    rw [hc, List.cons_append] at hkey hwrite
    rw [hwrite, statement, hkey]
    · change (frontValue (skipBlanks _)).bind _ = _
      rw [hvalue, frontValue_write h]
      rfl
    all_goals simp [hbracket]
  | header path key =>
    have hwrite : (Line.header path key).write ++ t =
        '[' :: (Line.writePath path key ++ ']' :: '\n' :: t) := by
      simp [Line.write]
    have hkey := dottedKey_writePath h key (c := ']') rfl (t := '\n' :: t)
      (by simp [skipBlanks, isBlankChar])
    obtain ⟨c, u, hc, hstart⟩ := writePath_eq_cons path key
    have hne : c ≠ '[' := isKeyStart_ne hstart rfl
    rw [hwrite, statement, hkey]
    · rw [skipBlanks_cons rfl]
      rfl
    · rw [hc]
      simp [hne]
  | element path key =>
    have hwrite : (Line.element path key).write ++ t =
        '[' :: '[' :: (Line.writePath path key ++ ']' :: ']' :: '\n' :: t) := by
      simp [Line.write]
    have hkey := dottedKey_writePath h key (c := ']') rfl (t := ']' :: '\n' :: t)
      (by simp [skipBlanks, isBlankChar])
    rw [hwrite, statement, hkey, skipBlanks_cons rfl]
    rfl

/-! ### Documents -/

theorem endOfLine_lineEnd (t : List Char) : endOfLine ('\n' :: t) = some t := rfl

/-- A line starts with the start of a key or with a bracket. -/
theorem write_eq_cons (line : Line) :
    ∃ c t, line.write = c :: t ∧ (isKeyStart c ∨ c = '[') := by
  cases line with
  | field key v =>
    obtain ⟨c, t, hc, hstart⟩ := writeKey_eq_cons key
    exact ⟨c, _, by simp only [Line.write, hc]; rfl, .inl hstart⟩
  | header path key => exact ⟨'[', _, rfl, .inr rfl⟩
  | element path key => exact ⟨'[', _, rfl, .inr rfl⟩

theorem statementsIn_endOfLine {n : Nat} {c : Char} {t rest : List Char}
    (hblank : isBlankChar c = false) (hend : endOfLine (c :: t) = some rest) :
    statementsIn (n + 1) (c :: t) = statementsIn n rest := by
  simp only [statementsIn, skipBlanks_cons hblank, hend]

theorem endOfLine_eq_none {c : Char} (hblank : isBlankChar c = false)
    (hc : c ≠ '#' ∧ c ≠ '\n' ∧ c ≠ '\r') (t : List Char) : endOfLine (c :: t) = none := by
  obtain ⟨hcomment, hline, hreturn⟩ := hc
  have hend : lineEnd (c :: t) = none := by
    rw [lineEnd] <;> simp [hline, hreturn]
  rw [← hend, endOfLine, skipBlanks_cons hblank]
  simp [hcomment]

/-- A statement is read from a line, and then what follows. -/
theorem statementsIn_write {line : Line} (h : line.Readable) (n : Nat) (t : List Char) :
    statementsIn (n + 1) (line.write ++ t) = (line.statement :: ·) <$> statementsIn n t := by
  obtain ⟨c, u, hline, hstart⟩ := write_eq_cons line
  have hread := statement_write h t
  rw [hline, List.cons_append] at hread ⊢
  have hblank : isBlankChar c = false := by
    rcases hstart with hstart | rfl
    · exact isBlankChar_of_isKeyStart hstart
    · rfl
  -- the line has no end in front, so it is read as a statement
  have hmore : endOfLine (c :: (u ++ t)) = none := by
    refine endOfLine_eq_none hblank ?_ _
    rcases hstart with hstart | rfl
    · exact ⟨isKeyStart_ne hstart rfl, isKeyStart_ne hstart rfl, isKeyStart_ne hstart rfl⟩
    · decide
  simp only [statementsIn, skipBlanks_cons hblank, hmore, hread, Option.bind_eq_bind,
    Option.bind_some, endOfLine_lineEnd]
  cases statementsIn n t <;> rfl

/-- A header has an empty line in front. -/
theorem writeLater_cases (line : Line) :
    line.writeLater = line.write ∨ line.writeLater = '\n' :: line.write := by
  cases line with
  | field key v => exact .inl rfl
  | header path key => exact .inr rfl
  | element path key => exact .inr rfl

/-- **Lines are read back as their statements.** -/
theorem statementsIn_writeLater {lines : List Line} (h : ∀ line ∈ lines, line.Readable) {n : Nat}
    (hn : (lines.flatMap Line.writeLater).length < n) :
    statementsIn n (lines.flatMap Line.writeLater) = some (lines.map Line.statement) := by
  induction lines generalizing n with
  | nil =>
    obtain ⟨n, rfl⟩ := Nat.exists_eq_add_of_lt hn
    rfl
  | cons line lines ih =>
    have hline := h line List.mem_cons_self
    have hlines := fun {n} => ih (n := n) fun l hl => h l (List.mem_cons_of_mem _ hl)
    -- no line is empty, so each step of the reader has a character to go on
    obtain ⟨c, u, hwrite, -⟩ := write_eq_cons line
    rw [List.flatMap_cons, List.length_append] at hn
    rw [List.flatMap_cons]
    rcases writeLater_cases line with hlater | hlater
    · rw [hlater] at hn ⊢
      rw [hwrite, List.length_cons] at hn
      obtain ⟨n, rfl⟩ : ∃ m, n = m + 1 := ⟨n - 1, by omega⟩
      rw [statementsIn_write hline, hlines (by omega)]
      rfl
    · rw [hlater] at hn ⊢
      rw [hwrite, List.length_cons, List.length_cons] at hn
      obtain ⟨n, rfl⟩ : ∃ m, n = m + 2 := ⟨n - 2, by omega⟩
      rw [List.cons_append, statementsIn_endOfLine rfl (endOfLine_lineEnd _),
        statementsIn_write hline, hlines (by omega)]
      rfl

/-- **A document is read back line by line.** -/
theorem statements_writeLines {lines : List Line} (h : ∀ line ∈ lines, line.Readable) :
    statements (writeLines lines).toList = some (lines.map Line.statement) := by
  cases lines with
  | nil => rfl
  | cons line lines =>
    have hline := h line List.mem_cons_self
    have hlines := fun l hl => h l (List.mem_cons_of_mem _ hl)
    -- the mark of the byte order is dropped, but no line starts with it
    have hmark : (line.write ++ lines.flatMap Line.writeLater).head? ≠ some '\uFEFF' := by
      obtain ⟨c, u, hwrite, hstart⟩ := write_eq_cons line
      rw [hwrite]
      rintro hc
      obtain rfl := Option.some.inj hc
      rcases hstart with hstart | hstart <;> cases hstart
    rw [writeLines, String.toList_ofList, statements, if_neg hmark, statementsIn_write hline,
      statementsIn_writeLater hlines]
    · rfl
    · obtain ⟨c, u, hwrite, -⟩ := write_eq_cons line
      simp only [List.length_append, hwrite, List.length_cons]
      omega

end Reader

end FleetControl.Toml
