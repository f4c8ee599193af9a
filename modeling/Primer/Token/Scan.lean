import Primer.ParseError
import Primer.Text.Quoted

/-!
# Primer.Token.Scan — a program text as tokens.

At every position the longest token wins, and a word that is reserved is no identifier.  Blanks and
comments separate tokens and leave no trace; a line feed is a blank that also counts a line.  A text
that starts no token is refused with the longest piece of it that could still have become one.

`next` reads one piece and answers what is left, which is shorter; `scan` repeats it.  Main
statements: `length_next_le`, and `scanFrom_of_length_le`, by which the bound on the number of
pieces never cuts a text short.
-/

namespace Primer.Token

/-- What stands at the front of a text: a token, something that is skipped, a line feed, or a piece
that is no token. -/
inductive Piece where
  | token (t : Token)
  | skipped
  | lineFeed
  | wrong (piece : List Char)

/-! ## Character classes -/

/-- Starts an identifier or a keyword. -/
def isWordStart (c : Char) : Bool := c.isAlpha || c == '_'

/-- Continues an identifier or a keyword. -/
def isWordPart (c : Char) : Bool := isWordStart c || c.isDigit

/-- Separates tokens without ending a line. -/
def isSpace (c : Char) : Bool := c == ' ' || c == '\t' || c == '\r' || c == '\x0c'

/-- Ends a comment. -/
def isLineEnd (c : Char) : Bool := c == '\n' || c == '\r'

/-! ## Words -/

/-- The token that a word stands for. -/
def ofWord (cs : List Char) : Token :=
  let name := String.ofList cs
  if name = "true" then boolean true
  else if name = "false" then boolean false
  else match Keyword.ofText? name with
    | some k => word k
    | none => identifier name

/-! ## Numbers -/

/-- Largest integer literal that is a token at all: the largest number of sixty-four bits with a
sign. -/
def integerLimit : Nat := 9223372036854775807

/-- Splits off a complete exponent part: the letter, an optional sign and at least one digit. -/
def splitExponent (cs : List Char) : Option (List Char × List Char) :=
  match cs with
  | e :: rest =>
    if e == 'e' || e == 'E' then
      let (sign, digits) := match rest with
        | s :: more => if s == '+' || s == '-' then ([s], more) else ([], rest)
        | [] => ([], [])
      let run := digits.takeWhile Char.isDigit
      if run.isEmpty then none else some (e :: sign ++ run, digits.dropWhile Char.isDigit)
    else none
  | [] => none

/-- Splits off a fraction: a point and at least one digit. -/
def splitFraction (cs : List Char) : Option (List Char × List Char) :=
  match cs with
  | '.' :: digits =>
    let run := digits.takeWhile Char.isDigit
    if run.isEmpty then none else some ('.' :: run, digits.dropWhile Char.isDigit)
  | _ => none

/-- A real literal, whose text is known to be one. -/
def realPiece (cs : List Char) : Piece :=
  match Real.read? cs with
  | some x => .token (real x)
  | none => .wrong cs

/-- An integer literal, unless it is beyond the limit. -/
def integerPiece (digits : List Char) : Piece :=
  let n := Text.digitsValue digits
  if n ≤ integerLimit then .token (integer n) else .wrong digits

/-- A number: digits, then a fraction or an exponent or both if they are complete. -/
def number (cs : List Char) : Piece × List Char :=
  let units := cs.takeWhile Char.isDigit
  let rest := cs.dropWhile Char.isDigit
  match splitFraction rest with
  | some (fraction, rest) =>
    match splitExponent rest with
    | some (exponent, rest) => (realPiece (units ++ fraction ++ exponent), rest)
    | none => (realPiece (units ++ fraction), rest)
  | none =>
    match splitExponent rest with
    | some (exponent, rest) => (realPiece (units ++ exponent), rest)
    | none => (integerPiece units, rest)

theorem splitFraction_append {cs fraction rest : List Char}
    (h : splitFraction cs = some (fraction, rest)) : fraction ++ rest = cs := by
  unfold splitFraction at h
  split at h
  · rename_i digits
    dsimp only at h
    split at h
    · cases h
    · cases h
      simp
  · cases h

theorem splitExponent_append {cs exponent rest : List Char}
    (h : splitExponent cs = some (exponent, rest)) : exponent ++ rest = cs := by
  unfold splitExponent at h
  split at h
  · rename_i e more
    split at h
    · split at h
      rename_i sign digits hs
      dsimp only at h
      split at h
      · cases h
      · cases h
        have hsplit : sign ++ digits = more := by
          split at hs
          · split at hs
            · cases hs
              rfl
            · cases hs
              rfl
          · cases hs
            rfl
        simp [← hsplit]
    · cases h
  · cases h

theorem length_number_le {c : Char} (hc : c.isDigit) (cs : List Char) :
    (number (c :: cs)).2.length ≤ cs.length := by
  have hd : (cs.dropWhile Char.isDigit).length ≤ cs.length := (List.dropWhile_sublist _).length_le
  unfold number
  simp only [List.dropWhile_cons_of_pos hc]
  split
  · rename_i fraction rest hf
    have h₁ := congrArg List.length (splitFraction_append hf)
    rw [List.length_append] at h₁
    split
    · rename_i exponent rest' he
      have h₂ := congrArg List.length (splitExponent_append he)
      rw [List.length_append] at h₂
      dsimp only
      omega
    · dsimp only
      omega
  · split
    · rename_i exponent rest' he
      have h₂ := congrArg List.length (splitExponent_append he)
      rw [List.length_append] at h₂
      dsimp only
      omega
    · exact hd

/-! ## Quoted literals -/

/-- A quoted character, from behind its opening quote: one character or a backslash with one. -/
def quotedChar (cs : List Char) : Piece × List Char :=
  match cs with
  | '\\' :: c :: '\'' :: rest =>
    if c == '\n' then (.wrong ['\'', '\\'], c :: '\'' :: rest)
    else match Text.Quoted.unescape? c with
      | some d => (.token (char d), rest)
      | none => (.wrong ['\'', '\\', c, '\''], rest)
  | '\\' :: c :: rest =>
    if c == '\n' then (.wrong ['\'', '\\'], c :: rest) else (.wrong ['\'', '\\', c], rest)
  | ['\\'] => (.wrong ['\'', '\\'], [])
  | c :: rest =>
    if c == '\'' || c == '\n' then (.wrong ['\''], c :: rest)
    else match rest with
      | '\'' :: rest => (.token (char c), rest)
      | _ => (.wrong ['\'', c], rest)
  | [] => (.wrong ['\''], [])

/-- Splits off the inside of a quoted text, from behind its opening quote.  The flag says whether
the closing quote was found; it belongs to neither part. -/
def splitQuoted : List Char → Bool × List Char × List Char
  | [] => (false, [], [])
  | '"' :: rest => (true, [], rest)
  | '\n' :: rest => (false, [], '\n' :: rest)
  | ['\\'] => (false, ['\\'], [])
  | '\\' :: '\n' :: rest => (false, ['\\'], '\n' :: rest)
  | '\\' :: c :: rest =>
    let (closed, inside, rest) := splitQuoted rest
    (closed, '\\' :: c :: inside, rest)
  | c :: rest =>
    let (closed, inside, rest) := splitQuoted rest
    (closed, c :: inside, rest)

/-- A quoted text, from behind its opening quote. -/
def quotedText (cs : List Char) : Piece × List Char :=
  let (closed, inside, rest) := splitQuoted cs
  if closed then
    match Text.Quoted.decode? inside with
    | some text => (.token (string (String.ofList text)), rest)
    | none => (.wrong ('"' :: inside ++ ['"']), rest)
  else (.wrong ('"' :: inside), rest)

theorem length_quotedChar_le (cs : List Char) : (quotedChar cs).2.length ≤ cs.length := by
  fun_cases quotedChar cs <;> simp <;> omega

theorem length_splitQuoted_le (cs : List Char) : (splitQuoted cs).2.2.length ≤ cs.length := by
  fun_induction splitQuoted cs <;> simp_all <;> omega

theorem length_quotedText_le (cs : List Char) : (quotedText cs).2.length ≤ cs.length := by
  have h := length_splitQuoted_le cs
  unfold quotedText
  split
  rename_i closed inside rest heq
  rw [heq] at h
  split
  · split <;> exact h
  · exact h

/-! ## Marks -/

/-- The longest mark at the front of a text. -/
def splitMark? : List Char → Option (Mark × List Char)
  | ':' :: '=' :: rest => some (.assign, rest)
  | '<' :: '>' :: rest => some (.notEqual, rest)
  | '<' :: '=' :: rest => some (.lessEqual, rest)
  | '>' :: '=' :: rest => some (.greaterEqual, rest)
  | c :: rest => (single? c).map fun m => (m, rest)
  | [] => none
where
  /-- The mark of one character. -/
  single? : Char → Option Mark
    | '+' => some .plus
    | '-' => some .minus
    | '*' => some .star
    | '/' => some .slash
    | '(' => some .openParen
    | ')' => some .closeParen
    | '[' => some .openBracket
    | ']' => some .closeBracket
    | ',' => some .comma
    | ';' => some .semicolon
    | ':' => some .colon
    | '.' => some .dot
    | '=' => some .equals
    | '<' => some .less
    | '>' => some .greater
    | _ => none

theorem single?_text {c : Char} {m : Mark} (h : splitMark?.single? c = some m) :
    m.text.toList = [c] := by
  unfold splitMark?.single? at h
  split at h <;> cases h <;> rfl

theorem splitMark?_append {cs rest : List Char} {m : Mark} (h : splitMark? cs = some (m, rest)) :
    m.text.toList ++ rest = cs := by
  unfold splitMark? at h
  split at h
  · cases h
    rfl
  · cases h
    rfl
  · cases h
    rfl
  · cases h
    rfl
  · simp only [Option.map_eq_some_iff, Prod.mk.injEq] at h
    obtain ⟨_, hm, rfl, rfl⟩ := h
    rw [single?_text hm]
    rfl
  · cases h

theorem length_splitMark?_lt {cs rest : List Char} {m : Mark}
    (h : splitMark? cs = some (m, rest)) : rest.length < cs.length := by
  have hm : 0 < m.text.toList.length := by cases m <;> decide
  have hl := congrArg List.length (splitMark?_append h)
  rw [List.length_append] at hl
  omega

/-! ## One piece, and all of them -/

/-- The piece at the front of a text that starts with `c`, and what is left of the text. -/
def next (c : Char) (cs : List Char) : Piece × List Char :=
  if c == '\n' then (.lineFeed, cs)
  else if isSpace c then (.skipped, cs.dropWhile isSpace)
  else if c == '/' && cs.head? == some '/' then (.skipped, cs.dropWhile (!isLineEnd ·))
  else if isWordStart c then
    (.token (ofWord (c :: cs.takeWhile isWordPart)), cs.dropWhile isWordPart)
  else if c.isDigit then number (c :: cs)
  else if c == '\'' then quotedChar cs
  else if c == '"' then quotedText cs
  else match splitMark? (c :: cs) with
    | some (m, rest) => (.token (mark m), rest)
    | none => (.wrong [c], cs)

/-- What is left behind a piece is shorter than what stood there with its first character. -/
theorem length_next_le (c : Char) (cs : List Char) : (next c cs).2.length ≤ cs.length := by
  fun_cases next c cs
  · simp
  · exact (List.dropWhile_sublist _).length_le
  · exact (List.dropWhile_sublist _).length_le
  · exact (List.dropWhile_sublist _).length_le
  · exact length_number_le (by assumption) cs
  · exact length_quotedChar_le cs
  · exact length_quotedText_le cs
  · rename_i m rest h
    exact Nat.le_of_lt_succ (length_splitMark?_lt h)
  · simp

/-- The tokens of a text whose first character is on the given line.  Every piece takes at least
one character, so the length of the text bounds the number of pieces. -/
def scanFrom : Nat → Nat → List Char → Except ParseError (List Lexeme)
  | _, _, [] => .ok []
  | 0, _, _ :: _ => .ok []
  | bound + 1, line, c :: cs =>
    let (piece, rest) := next c cs
    match piece with
    | .token t => (scanFrom bound line rest).map (⟨t, line⟩ :: ·)
    | .skipped => scanFrom bound line rest
    | .lineFeed => scanFrom bound (line + 1) rest
    | .wrong piece => .error ⟨.unreadable (String.ofList piece), line⟩

/-- A bound that is long enough for the text makes no difference. -/
theorem scanFrom_of_length_le {bound : Nat} {line : Nat} {cs : List Char}
    (h : cs.length ≤ bound) : scanFrom bound line cs = scanFrom cs.length line cs := by
  suffices ∀ n cs line bound, cs.length ≤ n → cs.length ≤ bound →
      scanFrom bound line cs = scanFrom n line cs from
    this cs.length cs line bound (Nat.le_refl _) h
  intro n
  induction n with
  | zero =>
    intro cs line bound hn _
    cases cs with
    | nil => simp [scanFrom]
    | cons c cs => simp at hn
  | succ n ih =>
    intro cs line bound hn hb
    cases cs with
    | nil => simp [scanFrom]
    | cons c cs =>
      cases bound with
      | zero => simp at hb
      | succ bound =>
        have hle := length_next_le c cs
        simp only [List.length_cons, Nat.add_le_add_iff_right] at hn hb
        simp only [scanFrom]
        split <;> simp only [ih _ _ bound (Nat.le_trans hle hn) (Nat.le_trans hle hb)]

/-- The tokens of a program text, with their lines counted from one. -/
def scan (source : String) : Except ParseError (List Lexeme) :=
  let cs := source.toList
  scanFrom cs.length 1 cs

end Primer.Token
