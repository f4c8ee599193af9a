import Primer.Proofs.Token.Lexing

/-!
# Primer.Proofs.Token.Spelling — tokens that are written down and read again.

A token that is no real has a spelling, and an integer has several of them.  A text of spellings
with blanks, line feeds and comments between them is scanned as the tokens that are spelled, each
on the line that it stands on (`scan_layout`).

The proof takes a text apart from its front: `IsGap.scanFrom` for what separates tokens, and
`IsSpelling.front` for a token that something separates from what follows.

A layout is a list of rows, each a spelling and the separator behind it.  Blanks, line feeds and
comments are taken as the text has them; a separator that would let two spellings run together is
not one of a layout.  The lines of the tokens are counted off the separators, since no spelling has
a line feed in it.
-/

namespace Primer.Token

/-! ## What separates tokens -/

/-- A blank or a line feed. -/
def isBlank (c : Char) : Bool := isSpace c || c == '\n'

/-- Blanks, line feeds, and comments that a line feed ends. -/
inductive IsGap : List Char → Prop
  | nil : IsGap []
  | space {c : Char} {cs : List Char} (hc : isSpace c = true) (h : IsGap cs) : IsGap (c :: cs)
  | lineFeed {cs : List Char} (h : IsGap cs) : IsGap ('\n' :: cs)
  | comment {text cs : List Char} (htext : ∀ c ∈ text, isLineEnd c = false) (h : IsGap cs) :
      IsGap ('/' :: '/' :: (text ++ '\n' :: cs))

/-- A line feed at the front puts everything behind it on the next line. -/
theorem scanFrom_lineFeed (line : Nat) (cs : List Char) :
    scanFrom ('\n' :: cs).length line ('\n' :: cs) = scanFrom cs.length (line + 1) cs := rfl

/-- A comment goes up to the end of its line, which is not a part of it. -/
theorem scanFrom_comment {text : List Char} (htext : ∀ c ∈ text, isLineEnd c = false) (line : Nat)
    (cs : List Char) :
    scanFrom ('/' :: '/' :: (text ++ '\n' :: cs)).length line ('/' :: '/' :: (text ++ '\n' :: cs))
      = scanFrom cs.length (line + 1) cs := by
  have hslashes : ∀ c ∈ '/' :: text, (!isLineEnd c) = true := by
    intro c hc
    rcases List.mem_cons.1 hc with rfl | hc
    · rfl
    · rw [htext c hc, Bool.not_false]
  have hfeed : ∀ c ∈ ('\n' :: cs).head?, (!isLineEnd c) = false := by
    rintro _ ⟨⟩
    rfl
  have hnext : next '/' ('/' :: (text ++ '\n' :: cs)) = (.skipped, '\n' :: cs) := by
    show (Piece.skipped, ('/' :: text ++ '\n' :: cs).dropWhile (!isLineEnd ·)) = _
    rw [(Text.takeWhile_append_stop hslashes hfeed).2]
  have hle := length_next_le '/' ('/' :: (text ++ '\n' :: cs))
  rw [hnext] at hle
  rw [List.length_cons, scanFrom, hnext]
  dsimp only
  rw [scanFrom_of_length_le hle, scanFrom_lineFeed]

/-- What separates tokens only counts lines. -/
theorem IsGap.scanFrom {gap : List Char} (h : IsGap gap) (line : Nat) (rest : List Char) :
    scanFrom (gap ++ rest).length line (gap ++ rest)
      = scanFrom rest.length (line + gap.count '\n') rest := by
  induction h generalizing line with
  | nil => rfl
  | @space c cs hc h ih =>
    have hne : c ≠ '\n' := by
      rintro rfl
      cases hc
    rw [List.cons_append, scanFrom_space hc, ih, List.count_cons_of_ne hne]
  | @lineFeed cs h ih =>
    rw [List.cons_append, scanFrom_lineFeed, ih, List.count_cons_self]
    congr 1
    omega
  | @comment text cs htext h ih =>
    have hcount : text.count '\n' = 0 := by
      refine List.count_eq_zero_of_not_mem fun hmem => ?_
      cases htext _ hmem
    rw [List.cons_append, List.cons_append, List.append_assoc, List.cons_append,
      scanFrom_comment htext, ih]
    simp only [List.count_cons_of_ne (show '/' ≠ '\n' by decide), List.count_append,
      List.count_cons_self, hcount]
    congr 1
    omega

/-- The text ends here, or a blank or a line feed follows. -/
def Parted (rest : List Char) : Prop := ∀ c ∈ rest.head?, isBlank c = true

theorem isBlank_cases {c : Char} (h : isBlank c = true) :
    c = ' ' ∨ c = '\t' ∨ c = '\r' ∨ c = '\x0c' ∨ c = '\n' := by
  simpa [isBlank, isSpace, or_assoc] using h

/-- What is parted from a word or a number stops it. -/
theorem Parted.stops {rest : List Char} (h : Parted rest) : Stops rest := by
  intro c hc
  rcases isBlank_cases (h c hc) with rfl | rfl | rfl | rfl | rfl <;> decide

/-! ## Spellings -/

/-- A name that is made of letters, digits and underscores, starts with no digit, and is spelled
like no keyword and no truth value. -/
structure IsIdentifier (name : String) : Prop where
  exists_cons : ∃ c cs, name.toList = c :: cs ∧ isWordStart c = true ∧
    ∀ d ∈ cs, isWordPart d = true
  ne_keyword : ∀ k : Keyword, name ≠ k.text
  ne_true : name ≠ "true"
  ne_false : name ≠ "false"

/-- The characters are a spelling of the token.  There is none for a real. -/
inductive IsSpelling : Token → List Char → Prop
  | word (k : Keyword) : IsSpelling (.word k) k.text.toList
  | mark (m : Mark) : IsSpelling (.mark m) m.text.toList
  | identifier {name : String} (h : IsIdentifier name) :
      IsSpelling (.identifier name) name.toList
  | integer {digits : List Char} (hne : digits ≠ []) (hdigits : ∀ c ∈ digits, c.isDigit = true)
      (hlimit : Text.digitsValue digits ≤ integerLimit) :
      IsSpelling (.integer (Text.digitsValue digits)) digits
  | boolean (b : Bool) : IsSpelling (.boolean b) (Value.booleanText b).toList
  | char (c : Char) : IsSpelling (.char c) (Text.Quoted.literal '\'' [c])
  | string (s : String) : IsSpelling (.string s) (Text.Quoted.literal '"' s.toList)

/-- A name that is no keyword's text is no keyword. -/
theorem ofText?_eq_none {name : String} (h : ∀ k : Keyword, name ≠ k.text) :
    Keyword.ofText? name = none := by
  unfold Keyword.ofText?
  rw [List.find?_eq_none]
  intro k _ heq
  exact h k (eq_of_beq heq).symm

theorem IsIdentifier.isWord {name : String} (h : IsIdentifier name) : IsWord name := by
  refine ⟨h.exists_cons, ?_⟩
  unfold ofWord
  dsimp only
  rw [String.ofList_toList, if_neg h.ne_true, if_neg h.ne_false, ofText?_eq_none h.ne_keyword]

theorem front_keyword (k : Keyword) {rest : List Char} (hrest : Stops rest) :
    Front (k.text.toList ++ rest) (.word k) rest := by
  have hword : ofWord k.text.toList = .word k := by
    unfold ofWord
    dsimp only
    rw [String.ofList_toList,
      if_neg (by cases k with | scalar t => cases t <;> decide | _ => decide),
      if_neg (by cases k with | scalar t => cases t <;> decide | _ => decide),
      Keyword.ofText?_text]
  have hletters : ∃ c cs, k.text.toList = c :: cs ∧ isWordStart c = true ∧
      cs.all isWordPart = true := by
    cases k with
    | scalar t => cases t <;> exact ⟨_, _, rfl, rfl, rfl⟩
    | _ => exact ⟨_, _, rfl, rfl, rfl⟩
  obtain ⟨c, cs, hcons, hc, hcs⟩ := hletters
  rw [← hword, hcons]
  exact front_word hc (List.all_eq_true.1 hcs) hrest

/-- A mark that could go on, such as the colon, does not go on into a blank. -/
theorem front_mark (m : Mark) {rest : List Char} (hrest : Parted rest) :
    Front (m.text.toList ++ rest) (.mark m) rest := by
  cases rest with
  | nil => cases m <;> exact ⟨_, _, rfl, rfl⟩
  | cons c more =>
    rcases isBlank_cases (hrest c rfl) with rfl | rfl | rfl | rfl | rfl <;>
      cases m <;> exact ⟨_, _, rfl, rfl⟩

/-- A spelling that is kept apart from what follows is scanned as its token. -/
theorem IsSpelling.front {t : Token} {cs : List Char} (h : IsSpelling t cs) {rest : List Char}
    (hrest : Parted rest) : Front (cs ++ rest) t rest := by
  cases h with
  | word k => exact front_keyword k hrest.stops
  | mark m => exact front_mark m hrest
  | identifier h => exact front_identifier h.isWord hrest.stops
  | integer hne hdigits hlimit => exact front_integer hne hdigits hlimit hrest.stops
  | boolean b => exact front_boolean b hrest.stops
  | char c => exact front_char c rest
  | string s => exact front_string s rest

/-- A literal hides the line feeds of its text. -/
theorem lineFeed_not_mem_literal {quote : Char} (hquote : quote ≠ '\n') (cs : List Char) :
    '\n' ∉ Text.Quoted.literal quote cs := by
  have hchar : ∀ c, '\n' ∉ Text.Quoted.encodeChar quote c := by
    intro c
    unfold Text.Quoted.encodeChar
    grind
  simp only [Text.Quoted.literal, Text.Quoted.encode, List.mem_append, List.mem_cons,
    List.mem_flatMap, List.not_mem_nil, or_false, not_or, not_exists, not_and]
  exact ⟨⟨hquote.symm, fun c _ => hchar c⟩, hquote.symm⟩

/-- No token goes over the end of a line. -/
theorem IsSpelling.lineFeed_not_mem {t : Token} {cs : List Char} (h : IsSpelling t cs) :
    '\n' ∉ cs := by
  intro hmem
  cases h with
  | word k =>
    revert hmem
    cases k with
    | scalar t => cases t <;> decide
    | _ => decide
  | mark m =>
    revert hmem
    cases m <;> decide
  | identifier h =>
    obtain ⟨c, cs, hcons, hc, hcs⟩ := h.exists_cons
    rw [hcons] at hmem
    rcases List.mem_cons.1 hmem with rfl | hmem
    · cases hc
    · cases hcs _ hmem
  | integer hne hdigits hlimit => cases hdigits _ hmem
  | boolean b =>
    revert hmem
    cases b <;> decide
  | char c => exact lineFeed_not_mem_literal (by decide) _ hmem
  | string s => exact lineFeed_not_mem_literal (by decide) _ hmem

/-! ## Texts that are laid out -/

/-- A token and one of its spellings. -/
structure Spelling where
  token : Token
  chars : List Char
  isSpelling : IsSpelling token chars

/-- What separates tokens, or nothing. -/
structure Gap where
  chars : List Char
  isGap : IsGap chars

/-- What keeps a token apart from the next one: a gap that starts with a blank or a line feed. -/
structure Separator extends Gap where
  starts : ∃ c rest, chars = c :: rest ∧ isBlank c = true

/-- A text that consists of a gap and of tokens with a separator behind each. -/
structure Layout where
  lead : Gap
  rows : List (Spelling × Separator)

namespace Layout

/-- Tokens and separators one after the other. -/
def chars : List (Spelling × Separator) → List Char
  | [] => []
  | (s, separator) :: rows => s.chars ++ (separator.chars ++ chars rows)

/-- The tokens with their lines: one more than the line feeds in the text before. -/
def lexemes (before : List Char) : List (Spelling × Separator) → List Lexeme
  | [] => []
  | (s, separator) :: rows =>
    ⟨s.token, 1 + before.count '\n'⟩ :: lexemes (before ++ s.chars ++ separator.chars) rows

/-- The text of a layout. -/
def text (layout : Layout) : String :=
  String.ofList (layout.lead.chars ++ chars layout.rows)

/-- The text of a layout is scanned as its tokens, on their lines. -/
theorem scanFrom_chars (rows : List (Spelling × Separator)) (before : List Char) :
    scanFrom (chars rows).length (1 + before.count '\n') (chars rows)
      = .ok (lexemes before rows) := by
  induction rows generalizing before with
  | nil => rfl
  | cons row rows ih =>
    obtain ⟨s, separator⟩ := row
    obtain ⟨c, rest, hcons, hc⟩ := separator.starts
    have hparted : Parted (separator.chars ++ chars rows) := by
      rw [hcons]
      rintro _ ⟨⟩
      exact hc
    have hcount := List.count_eq_zero_of_not_mem s.isSpelling.lineFeed_not_mem
    have hlines : (before ++ s.chars ++ separator.chars).count '\n'
        = before.count '\n' + separator.chars.count '\n' := by
      rw [List.count_append, List.count_append, hcount, Nat.add_zero]
    rw [chars, (s.isSpelling.front hparted).scanFrom, separator.isGap.scanFrom, Nat.add_assoc,
      ← hlines, ih]
    rfl

end Layout

/-- A text of spellings that are kept apart is scanned as the tokens that they spell, each with the
line that it stands on. -/
theorem scan_layout (layout : Layout) :
    scan layout.text = .ok (Layout.lexemes layout.lead.chars layout.rows) := by
  unfold scan Layout.text
  rw [String.toList_ofList, layout.lead.isGap.scanFrom, Layout.scanFrom_chars]

/-- A word that goes on behind a keyword, marks that a blank parts, and zeros in front. -/
example : scan "ended // =\n < =\x0c007 " = .ok
    [⟨.identifier "ended", 1⟩, ⟨.mark .less, 2⟩, ⟨.mark .equals, 2⟩, ⟨.integer 7, 2⟩] := by
  rfl

end Primer.Token
