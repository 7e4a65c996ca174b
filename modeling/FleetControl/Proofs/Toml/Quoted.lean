import FleetControl.Proofs.Text.Hex
import FleetControl.Toml.Quoted
import Mathlib.Tactic.SplitIfs

/-!
# Quoted texts are read back

A text that is written in a form which can hold it is read back as it was
(`Toml.readText_writeText`): what a basic form writes for a character is undone by `unescape`
(`Toml.unescape_escapeText`), and the reader of a body stops at the closing quotes and not before.

A reader of bodies takes most pieces of a text as they stand, whatever follows (`Toml.Passes`). In
the long forms a quote is such a piece only if two more do not follow, so runs of quotes are looked
at by themselves: the writer leaves at most two in a row (`Toml.escapeText_after_quote`), and a long
literal form is chosen only for a text without a run of three.
-/

namespace FleetControl.Toml

open Text

/-! ### Escapes -/

/-- How a character stands in a basic form: as itself, with a letter after a backslash, or with its
code. -/
theorem escapeChar_cases (form : Form) (quotes : Nat) (c : Char) :
    (escapeChar form quotes c = [c] ∧ c ≠ '\\' ∧ (isControl c → c = '\n' ∧ form = .longBasic) ∧
      (c = '"' → form = .longBasic ∧ quotes < 2)) ∨
    (∃ x, escapeChar form quotes c = ['\\', x] ∧ simpleEscape? x = some c) ∨
    (escapeChar form quotes c = '\\' :: 'u' :: fourHexDigits c.toNat ∧ isControl c) := by
  unfold escapeChar
  split_ifs with hquote hlong hspare hspare hslash hb ht hn hlong hf hr hcontrol
  · subst hquote
    exact .inl ⟨rfl, by decide, fun h => absurd h (by decide), fun _ => ⟨hlong, hspare⟩⟩
  · exact .inr (.inl ⟨'"', rfl, congrArg some hquote.symm⟩)
  · exact absurd hspare (Nat.not_lt_zero _)
  · exact .inr (.inl ⟨'"', rfl, congrArg some hquote.symm⟩)
  · exact .inr (.inl ⟨'\\', rfl, congrArg some hslash.symm⟩)
  · exact .inr (.inl ⟨'b', rfl, congrArg some hb.symm⟩)
  · exact .inr (.inl ⟨'t', rfl, congrArg some ht.symm⟩)
  · exact .inl ⟨rfl, hslash, fun _ => ⟨hn, hlong⟩, fun h => absurd h hquote⟩
  · exact .inr (.inl ⟨'n', rfl, congrArg some hn.symm⟩)
  · exact .inr (.inl ⟨'f', rfl, congrArg some hf.symm⟩)
  · exact .inr (.inl ⟨'r', rfl, congrArg some hr.symm⟩)
  · exact .inr (.inr ⟨rfl, hcontrol⟩)
  · exact .inl ⟨rfl, hslash, fun h => absurd h hcontrol, fun h => absurd h hquote⟩

/-- A letter of an escape is no control character, and does not start a code. -/
theorem simpleEscape?_eq_some {x c : Char} (h : simpleEscape? x = some c) :
    isControl x = false ∧ isBlankChar x = false ∧ x ≠ 'u' ∧ x ≠ 'U' := by
  unfold simpleEscape? at h
  split at h
  all_goals first | exact ⟨rfl, rfl, by decide, by decide⟩ | cases h

theorem ne_of_isControl {c d : Char} (hc : isControl c = false) (hd : isControl d) : c ≠ d := by
  rintro rfl
  simp [hc] at hd

theorem isControl_lt {c : Char} (h : isControl c) : c.toNat < 65536 := by
  simp only [isControl, Bool.or_eq_true, Bool.and_eq_true, decide_eq_true_eq, beq_iff_eq] at h
  omega

theorem lineEnds_cons {c : Char} (hblank : isBlankChar c = false) (hend : c ≠ '\n')
    (t : List Char) : lineEnds (c :: t) = false := by
  simp [lineEnds, hblank, hend]

theorem unescape_plain {c : Char} (h : c ≠ '\\') (t : List Char) :
    unescape false (c :: t) = (c :: ·) <$> unescape false t := by
  simp [unescape, h]

theorem unescape_letter {x c : Char} (h : simpleEscape? x = some c) (t : List Char) :
    unescape false ('\\' :: x :: t) = (c :: ·) <$> unescape false t := by
  obtain ⟨hcontrol, hblank, hu, hU⟩ := simpleEscape?_eq_some h
  have hline := lineEnds_cons hblank (ne_of_isControl hcontrol rfl) t
  rw [unescape]
  · rw [hline, h]
    cases unescape false t <;> rfl
  · simp [hu]
  · simp [hU]

theorem unescape_code {c : Char} (h : isControl c) (t : List Char) :
    unescape false ('\\' :: 'u' :: (fourHexDigits c.toNat ++ t)) =
      (c :: ·) <$> unescape false t := by
  have hcode : escapedCode? (fourHexDigits c.toNat) = some c := by
    rw [escapedCode?, hexNumber?_fourHexDigits (isControl_lt h)]
    exact charOfCode?_toNat c
  unfold fourHexDigits at hcode ⊢
  simp only [List.cons_append, List.nil_append]
  rw [unescape, hcode]
  cases unescape false t <;> rfl

/-- What is written for a character is read as the character. -/
theorem unescape_escapeChar (form : Form) (quotes : Nat) (c : Char) (t : List Char) :
    unescape false (escapeChar form quotes c ++ t) = (c :: ·) <$> unescape false t := by
  rcases escapeChar_cases form quotes c with ⟨hplain, hslash, -⟩ | ⟨x, hletter, hx⟩ | ⟨hcode, hc⟩
  · rw [hplain]
    exact unescape_plain hslash t
  · rw [hletter]
    exact unescape_letter hx t
  · rw [hcode]
    exact unescape_code hc t

theorem unescape_escapeText (form : Form) (quotes : Nat) (s : List Char) :
    unescape false (escapeText form quotes s) = some s := by
  induction s generalizing quotes with
  | nil => rfl
  | cons c s ih => rw [escapeText, unescape_escapeChar, ih]; rfl


/-! ### Bodies -/

/-- A reader of bodies takes a piece of text as it stands, whatever follows. -/
def Passes (read : List Char → Option (List Char × List Char)) (piece : List Char) : Prop :=
  ∀ t, read (piece ++ t) = prepend piece (read t)

@[simp] theorem prepend_some (front body rest : List Char) :
    prepend front (some (body, rest)) = some (front ++ body, rest) := rfl

theorem passes_nil (read : List Char → Option (List Char × List Char)) : Passes read [] := by
  intro t
  cases h : read t <;> simp [prepend, h]

theorem Passes.append {read : List Char → Option (List Char × List Char)} {front back : List Char}
    (h : Passes read front) (h' : Passes read back) : Passes read (front ++ back) := by
  intro t
  rw [List.append_assoc, h, h']
  cases read t <;> simp [prepend]

theorem passes_of_forall {read : List Char → Option (List Char × List Char)} {s : List Char}
    (h : ∀ c ∈ s, Passes read [c]) : Passes read s := by
  induction s with
  | nil => exact passes_nil read
  | cons c s ih =>
    exact (h c List.mem_cons_self).append (ih fun c hc => h c (List.mem_cons_of_mem _ hc))

/-- A character that means nothing to the basic forms. -/
def isInert (c : Char) : Bool := !isControl c && c != '"' && c != '\\'

theorem isInert_iff {c : Char} : isInert c ↔ isControl c = false ∧ c ≠ '"' ∧ c ≠ '\\' := by
  simp [isInert, and_assoc]

theorem isInert_fourHexDigits {n : Nat} : ∀ d ∈ fourHexDigits n, isInert d := by
  have hdigit : ∀ n < 16, isInert (upperHexDigit n) := by decide
  simp only [fourHexDigits, List.mem_cons, List.not_mem_nil, or_false]
  rintro d (rfl | rfl | rfl | rfl) <;> exact hdigit _ (Nat.mod_lt _ (by omega))

/-! #### Short forms -/

theorem passes_basicBody {c : Char} (h : isInert c) : Passes basicBody [c] := by
  obtain ⟨hcontrol, hquote, hslash⟩ := isInert_iff.1 h
  intro t
  simp [basicBody, hcontrol, hslash]

theorem passes_basicBody_escape {x : Char} (hx : isControl x = false) :
    Passes basicBody ['\\', x] := by
  intro t
  simp [basicBody, hx]

theorem passes_basicBody_escapeChar (quotes : Nat) (c : Char) :
    Passes basicBody (escapeChar .basic quotes c) := by
  rcases escapeChar_cases .basic quotes c with ⟨hplain, hslash, hcontrol, hquote⟩ |
    ⟨x, hletter, hx⟩ | ⟨hcode, -⟩
  · rw [hplain]
    refine passes_basicBody (isInert_iff.2 ⟨?_, fun h => ?_, hslash⟩)
    · cases hc : isControl c with
      | false => rfl
      | true => cases (hcontrol hc).2
    · cases (hquote h).1
  · rw [hletter]
    exact passes_basicBody_escape (simpleEscape?_eq_some hx).1
  · rw [hcode]
    exact (passes_basicBody_escape rfl).append
      (passes_of_forall fun d hd => passes_basicBody (isInert_fourHexDigits d hd))

theorem basicBody_escapeText (quotes : Nat) (s rest : List Char) :
    basicBody (escapeText .basic quotes s ++ '"' :: rest) =
      some (escapeText .basic quotes s, rest) := by
  have hpasses : Passes basicBody (escapeText .basic quotes s) := by
    induction s generalizing quotes with
    | nil => exact passes_nil _
    | cons c s ih => exact (passes_basicBody_escapeChar quotes c).append (ih _)
  -- what is left is the closing quote
  rw [hpasses]
  simp [basicBody]

theorem literalBody_append {s : List Char} (h : ∀ c ∈ s, isControl c = false ∧ c ≠ '\'')
    (rest : List Char) : literalBody (s ++ '\'' :: rest) = some (s, rest) := by
  have hpasses : Passes literalBody s := passes_of_forall fun c hc t => by
    obtain ⟨hcontrol, hquote⟩ := h c hc
    simp [literalBody, hcontrol]
  rw [hpasses]
  simp [literalBody]

/-! #### Long forms -/

theorem passes_longBasicBody {c : Char} (h : isInert c ∨ c = '\n') : Passes longBasicBody [c] := by
  intro t
  rw [List.singleton_append]
  rcases h with h | rfl
  · obtain ⟨hcontrol, hquote, hslash⟩ := isInert_iff.1 h
    have hreturn : c ≠ '\r' := ne_of_isControl hcontrol rfl
    rw [longBasicBody] <;> simp_all
  · rw [longBasicBody] <;> simp

theorem passes_longBasicBody_escape {x : Char} (hx : isControl x = false) :
    Passes longBasicBody ['\\', x] := by
  intro t
  have hreturn : x ≠ '\r' := ne_of_isControl hx rfl
  rw [List.cons_append, List.singleton_append, longBasicBody]
  simp [hreturn]

/-- What is written for a character passes, unless it is a quote that is not escaped. -/
theorem passes_longBasicBody_escapeChar (quotes : Nat) (c : Char) :
    escapeChar .longBasic quotes c = ['"'] ∧ quotes < 2 ∨
      Passes longBasicBody (escapeChar .longBasic quotes c) ∧
        ∃ x t, escapeChar .longBasic quotes c = x :: t ∧ x ≠ '"' := by
  rcases escapeChar_cases .longBasic quotes c with ⟨hplain, hslash, hcontrol, hquote⟩ |
    ⟨x, hletter, hx⟩ | ⟨hcode, -⟩
  · rw [hplain]
    by_cases hc : c = '"'
    · exact .inl ⟨by rw [hc], (hquote hc).2⟩
    · refine .inr ⟨passes_longBasicBody ?_, c, [], rfl, hc⟩
      cases hcon : isControl c with
      | false => exact .inl (isInert_iff.2 ⟨hcon, hc, hslash⟩)
      | true => exact .inr (hcontrol hcon).1
  · rw [hletter]
    exact .inr ⟨passes_longBasicBody_escape (simpleEscape?_eq_some hx).1, _, _, rfl, by decide⟩
  · rw [hcode]
    exact .inr ⟨(passes_longBasicBody_escape rfl).append
      (passes_of_forall fun d hd => passes_longBasicBody (.inl (isInert_fourHexDigits d hd))),
      _, _, rfl, by decide⟩

theorem longBasicBody_quote {t : List Char} (h : ∀ u, t ≠ '"' :: '"' :: u) :
    longBasicBody ('"' :: t) = prepend ['"'] (longBasicBody t) := by
  rw [longBasicBody]
  · exact if_neg (by decide)
  all_goals simp_all

theorem escapeText_quote {quotes : Nat} {c : Char} (h : escapeChar .longBasic quotes c = ['"'])
    (s : List Char) :
    escapeText .longBasic quotes (c :: s) = '"' :: escapeText .longBasic (quotes + 1) s := by
  rw [escapeText, h, if_pos rfl]
  rfl

/-- What follows a quote that stands as it is. -/
theorem escapeText_after_quote {quotes : Nat} (hquotes : 0 < quotes) (s : List Char) :
    s = [] ∨ (∃ c, s = [c] ∧ escapeText .longBasic quotes s = ['"']) ∨
      ∀ t u, escapeText .longBasic quotes s ++ t ≠ '"' :: '"' :: u := by
  match s with
  | [] => exact .inl rfl
  | c :: s =>
    rcases passes_longBasicBody_escapeChar quotes c with ⟨hquote, hspare⟩ | ⟨-, x, t', hx, hne⟩
    · rw [escapeText_quote hquote]
      match s with
      | [] => exact .inr (.inl ⟨c, rfl, rfl⟩)
      | c' :: s =>
        rcases passes_longBasicBody_escapeChar (quotes + 1) c' with ⟨-, hspare'⟩ |
          ⟨-, x, t', hx, hne⟩
        · -- it would be the third quote in a row that is not escaped
          omega
        · refine .inr (.inr fun t u h => hne ?_)
          rw [escapeText, hx] at h
          simp only [List.cons_append, List.cons.injEq, true_and] at h
          exact h.1
    · refine .inr (.inr fun t u h => hne ?_)
      rw [escapeText, hx] at h
      simp only [List.cons_append, List.cons.injEq] at h
      exact h.1

/-- A quote may end the body if no third one follows, so a run of up to two stands as it is. -/
theorem longBasicBody_escapeText {quotes : Nat} (s : List Char) {rest : List Char}
    (hrest : rest.head? ≠ some '"') :
    longBasicBody (escapeText .longBasic quotes s ++ '"' :: '"' :: '"' :: rest) =
      some (escapeText .longBasic quotes s, rest) := by
  have hfollow : ∀ u, rest ≠ '"' :: u := by
    rintro u rfl
    exact hrest rfl
  induction s generalizing quotes with
  | nil => rw [escapeText, List.nil_append, longBasicBody] <;> simp_all
  | cons c s ih =>
    rcases passes_longBasicBody_escapeChar quotes c with ⟨hquote, hspare⟩ | ⟨hpasses, x, t, hx, hne⟩
    · rw [escapeText_quote hquote, List.cons_append]
      -- after a quote that is last or last but one the closing quotes make a run of four or five
      rcases escapeText_after_quote quotes.succ_pos s with rfl | ⟨c', rfl, htext⟩ | hfew
      · rw [escapeText, List.nil_append, longBasicBody]
        simp_all
      · rw [htext, List.cons_append, List.nil_append, longBasicBody]
      · rw [longBasicBody_quote (hfew _), ih]
        rfl
    · rw [escapeText, List.append_assoc, hpasses, ih]
      rfl

theorem le_longestRun (q : Char) (n m : Nat) (s : List Char) : max n m ≤ longestRun q n m s := by
  induction s generalizing n m with
  | nil => exact Nat.le_refl _
  | cons c s ih =>
    rw [longestRun]
    split
    · exact Nat.le_trans (by omega) (ih (n + 1) m)
    · exact Nat.le_trans (by omega) (ih 0 (max n m))

theorem longestRun_mono {q : Char} {n n' m m' : Nat} (hn : n ≤ n') (hm : m ≤ m') (s : List Char) :
    longestRun q n m s ≤ longestRun q n' m' s := by
  induction s generalizing n n' m m' with
  | nil => rw [longestRun, longestRun]; omega
  | cons c s ih =>
    rw [longestRun, longestRun]
    split
    · exact ih (by omega) hm
    · exact ih (Nat.le_refl 0) (by omega)

theorem longestRun_tail_le (q c : Char) (s : List Char) :
    longestRun q 0 0 s ≤ longestRun q 0 0 (c :: s) := by
  rw [longestRun]
  split
  · exact longestRun_mono (Nat.zero_le _) (Nat.le_refl 0) s
  · exact longestRun_mono (Nat.le_refl 0) (Nat.zero_le _) s

theorem passes_longLiteralBody {c : Char} (hcontrol : isControl c = false ∨ c = '\n')
    (hquote : c ≠ '\'') : Passes longLiteralBody [c] := by
  intro t
  rw [List.singleton_append]
  rcases hcontrol with h | rfl
  · have hreturn : c ≠ '\r' := ne_of_isControl h rfl
    rw [longLiteralBody] <;> simp_all
  · rw [longLiteralBody] <;> simp

theorem longLiteralBody_quote {t : List Char} (h : ∀ u, t ≠ '\'' :: '\'' :: u) :
    longLiteralBody ('\'' :: t) = prepend ['\''] (longLiteralBody t) := by
  rw [longLiteralBody]
  · exact if_neg (by decide)
  all_goals simp_all

theorem longLiteralBody_append {s : List Char}
    (hcontrol : ∀ c ∈ s, isControl c = false ∨ c = '\n') (hrun : longestRun '\'' 0 0 s < 3)
    {rest : List Char} (hrest : rest.head? ≠ some '\'') :
    longLiteralBody (s ++ '\'' :: '\'' :: '\'' :: rest) = some (s, rest) := by
  have hfollow : ∀ u, rest ≠ '\'' :: u := by
    rintro u rfl
    exact hrest rfl
  induction s with
  | nil => rw [List.nil_append, longLiteralBody] <;> simp_all
  | cons c s ih =>
    have hrest := ih (fun c hc => hcontrol c (List.mem_cons_of_mem _ hc))
      (Nat.lt_of_le_of_lt (longestRun_tail_le _ c s) hrun)
    by_cases hquote : c = '\''
    · subst hquote
      rw [List.cons_append]
      -- the run that starts here ends with the text, or before the closing quotes
      rcases s with _ | ⟨c', s⟩
      · rw [List.nil_append, longLiteralBody]
        simp_all
      · by_cases htwo : c' = '\'' ∧ s = []
        · obtain ⟨rfl, rfl⟩ := htwo
          rw [List.cons_append, List.nil_append, longLiteralBody]
        · rw [longLiteralBody_quote, hrest]
          · rfl
          · intro u h
            simp only [List.cons_append, List.cons.injEq] at h
            obtain ⟨rfl, h⟩ := h
            rcases s with _ | ⟨c'', s⟩
            · exact htwo ⟨rfl, rfl⟩
            · -- three quotes in a row, for which the form would not have been chosen
              simp only [List.cons_append, List.cons.injEq] at h
              obtain ⟨rfl, -⟩ := h
              have hthree := le_longestRun '\'' (0 + 1 + 1 + 1) 0 s
              simp only [longestRun, if_pos] at hrun
              omega
    · rw [← List.singleton_append, List.append_assoc,
        passes_longLiteralBody (hcontrol c List.mem_cons_self) hquote, hrest]
      rfl

/-! ### Forms -/

/-- What a form can hold: a literal form only what suits it, a basic form everything. -/
def Form.Holds (form : Form) (s : List Char) : Prop :=
  match form with
  | .basic | .longBasic => True
  | .literal | .longLiteral => form.suits s = true

theorem suits_literal {s : List Char} (h : Form.literal.suits s) :
    '\n' ∉ s ∧ ∀ c ∈ s, isControl c = false ∧ c ≠ '\'' := by
  simp only [Form.suits, Bool.and_eq_true, Bool.not_eq_true', List.any_eq_false,
    List.contains_eq_mem, decide_eq_false_iff_not, bne_iff_ne, not_and, Decidable.not_not] at h
  obtain ⟨⟨hplain, hquote⟩, hline⟩ := h
  refine ⟨hline, fun c hc => ⟨?_, fun hq => hquote (hq ▸ hc)⟩⟩
  rw [← Bool.not_eq_true]
  exact fun hcontrol => hline (hplain c hc hcontrol ▸ hc)

theorem suits_longLiteral {s : List Char} (h : Form.longLiteral.suits s) :
    (∀ c ∈ s, isControl c = false ∨ c = '\n') ∧ longestRun '\'' 0 0 s < 3 := by
  simp only [Form.suits, Bool.and_eq_true, Bool.not_eq_true', List.any_eq_false,
    decide_eq_true_eq, bne_iff_ne, not_and, Decidable.not_not] at h
  refine ⟨fun c hc => ?_, h.2⟩
  cases hcontrol : isControl c with
  | false => exact .inl rfl
  | true => exact .inr (h.1 c hc hcontrol)

/-- The form that is chosen holds the text. -/
theorem holds_choose (s : List Char) : (Form.choose s).Holds s := by
  unfold Form.choose
  split
  · next form hform =>
    have hsuits := List.find?_some hform
    cases form with
    | basic => trivial
    | longBasic => trivial
    | literal => exact hsuits
    | longLiteral => exact hsuits
  · split_ifs <;> trivial

/-- The text does not go on with a quote. -/
def NoQuote (rest : List Char) : Prop := rest.head? ≠ some '"' ∧ rest.head? ≠ some '\''

/-! ### Texts -/

theorem readShort_basic (s rest : List Char) :
    readShort (Form.basic.write s ++ rest) = some (s, rest) := by
  have hwrite : Form.basic.write s ++ rest = '"' :: (escapeText .basic 0 s ++ '"' :: rest) := by
    simp [Form.write, Form.quotes]
  rw [hwrite, readShort, basicBody_escapeText]
  simp [unescape_escapeText]

theorem readShort_literal {s : List Char} (h : Form.literal.suits s) (rest : List Char) :
    readShort (Form.literal.write s ++ rest) = some (s, rest) := by
  have hwrite : Form.literal.write s ++ rest = '\'' :: (s ++ '\'' :: rest) := by
    simp [Form.write, Form.quotes]
  rw [hwrite, readShort]
  exact literalBody_append (suits_literal h).2 rest

theorem readText_of_short {q : Char} {t : List Char} (h : ∀ u, t ≠ q :: q :: u) :
    readText (q :: t) = readShort (q :: t) := by
  rw [readText]
  · rintro u hu
    obtain ⟨rfl, rfl⟩ := List.cons.inj hu
    exact h u rfl
  · rintro u hu
    obtain ⟨rfl, rfl⟩ := List.cons.inj hu
    exact h u rfl

/-- The first character of a basic body is no quote, so the quote in front of it opens a short
text. -/
theorem escapeText_basic_ne (s : List Char) {rest : List Char} (hrest : rest.head? ≠ some '"')
    (u : List Char) : escapeText .basic 0 s ++ '"' :: rest ≠ '"' :: '"' :: u := by
  intro h
  match s with
  | [] =>
    simp only [escapeText, List.nil_append, List.cons.injEq, true_and] at h
    exact hrest (h ▸ rfl)
  | c :: s =>
    rw [escapeText] at h
    rcases escapeChar_cases .basic 0 c with ⟨hplain, -, -, hquote⟩ | ⟨x, hletter, -⟩ | ⟨hcode, -⟩
    · rw [hplain, List.append_assoc, List.singleton_append, List.cons.injEq] at h
      cases (hquote h.1).1
    · simp [hletter] at h
    · simp [hcode] at h

theorem readText_basic (s : List Char) {rest : List Char} (hrest : rest.head? ≠ some '"') :
    readText (Form.basic.write s ++ rest) = some (s, rest) := by
  have hwrite : Form.basic.write s ++ rest = '"' :: (escapeText .basic 0 s ++ '"' :: rest) := by
    simp [Form.write, Form.quotes]
  rw [← readShort_basic, hwrite]
  exact readText_of_short (escapeText_basic_ne s hrest)

theorem readText_literal {s : List Char} (h : Form.literal.suits s) {rest : List Char}
    (hrest : rest.head? ≠ some '\'') :
    readText (Form.literal.write s ++ rest) = some (s, rest) := by
  have hwrite : Form.literal.write s ++ rest = '\'' :: (s ++ '\'' :: rest) := by
    simp [Form.write, Form.quotes]
  rw [← readShort_literal h, hwrite]
  refine readText_of_short fun u hu => ?_
  match s with
  | [] =>
    simp only [List.nil_append, List.cons.injEq, true_and] at hu
    exact hrest (hu ▸ rfl)
  | c :: s =>
    rw [List.cons_append, List.cons.injEq] at hu
    exact ((suits_literal h).2 c List.mem_cons_self).2 hu.1

theorem dropLineEnd_of_head {c : Char} {t : List Char} (hline : c ≠ '\n') (hreturn : c ≠ '\r') :
    dropLineEnd (c :: t) = c :: t := by
  rw [dropLineEnd] <;> simp_all

/-- The line end that is written in front of a text with line ends is dropped, and no other. -/
theorem dropLineEnd_start {s body : List Char}
    (h : '\n' ∉ s → ∃ c t, body = c :: t ∧ c ≠ '\n' ∧ c ≠ '\r') :
    dropLineEnd ((if s.contains '\n' then ['\n'] else []) ++ body) = body := by
  by_cases hline : '\n' ∈ s
  · simp [hline, dropLineEnd]
  · obtain ⟨c, t, rfl, hc, hc'⟩ := h hline
    simpa [hline] using dropLineEnd_of_head hc hc'

theorem readText_longBasic (s : List Char) {rest : List Char} (hrest : rest.head? ≠ some '"') :
    readText (Form.longBasic.write s ++ rest) = some (s, rest) := by
  have hwrite : Form.longBasic.write s ++ rest = '"' :: '"' :: '"' ::
      ((if s.contains '\n' then ['\n'] else []) ++
        (escapeText .longBasic 0 s ++ '"' :: '"' :: '"' :: rest)) := by
    simp [Form.write, Form.quotes]
  rw [hwrite, readText, dropLineEnd_start, longBasicBody_escapeText s hrest]
  · simp [unescape_escapeText]
  · -- a body without line ends must not start with one, or it would be dropped
    intro hline
    match s with
    | [] => exact ⟨'"', _, rfl, by decide, by decide⟩
    | c :: s =>
      rw [escapeText]
      rcases escapeChar_cases .longBasic 0 c with ⟨hplain, -, hcontrol, -⟩ | ⟨x, hletter, -⟩ |
        ⟨hcode, -⟩
      · have hc : c ≠ '\n' := fun hc => hline (hc ▸ List.mem_cons_self)
        rw [hplain]
        exact ⟨c, _, rfl, hc, fun hr => hc (hcontrol (hr ▸ rfl)).1⟩
      · rw [hletter]
        exact ⟨'\\', _, rfl, by decide, by decide⟩
      · rw [hcode]
        exact ⟨'\\', _, rfl, by decide, by decide⟩

theorem readText_longLiteral {s : List Char} (h : Form.longLiteral.suits s) {rest : List Char}
    (hrest : rest.head? ≠ some '\'') :
    readText (Form.longLiteral.write s ++ rest) = some (s, rest) := by
  have hwrite : Form.longLiteral.write s ++ rest = '\'' :: '\'' :: '\'' ::
      ((if s.contains '\n' then ['\n'] else []) ++ (s ++ '\'' :: '\'' :: '\'' :: rest)) := by
    simp [Form.write, Form.quotes]
  obtain ⟨hcontrol, hrun⟩ := suits_longLiteral h
  rw [hwrite, readText, dropLineEnd_start, longLiteralBody_append hcontrol hrun hrest]
  intro hline
  match s with
  | [] => exact ⟨'\'', _, rfl, by decide, by decide⟩
  | c :: s =>
    have hc : c ≠ '\n' := fun hc => hline (hc ▸ List.mem_cons_self)
    refine ⟨c, _, rfl, hc, ?_⟩
    exact ne_of_isControl ((hcontrol c List.mem_cons_self).resolve_right hc) rfl

/-- **A text is read back in the form that is chosen for it**, if no quote follows. -/
theorem readText_writeText (s : String) {rest : List Char} (hrest : NoQuote rest) :
    readText (writeText s ++ rest) = some (s.toList, rest) := by
  have hholds := holds_choose s.toList
  unfold writeText
  generalize Form.choose s.toList = form at hholds
  cases form with
  | basic => exact readText_basic _ hrest.1
  | literal => exact readText_literal hholds hrest.2
  | longBasic => exact readText_longBasic _ hrest.1
  | longLiteral => exact readText_longLiteral hholds hrest.2

/-- A written text starts with a quote. -/
theorem writeText_eq_cons (s : String) :
    ∃ q t, writeText s = q :: t ∧ (q = '"' ∨ q = '\'') := by
  unfold writeText
  cases Form.choose s.toList with
  | basic => exact ⟨'"', _, rfl, .inl rfl⟩
  | longBasic => exact ⟨'"', _, rfl, .inl rfl⟩
  | literal => exact ⟨'\'', _, rfl, .inr rfl⟩
  | longLiteral => exact ⟨'\'', _, rfl, .inr rfl⟩

end FleetControl.Toml
