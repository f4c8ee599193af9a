/-!
# Primer.Text.Quoted — the inside of a quoted literal.

Inside quotes a line feed, a tab, a backslash and the quote itself are written as a backslash and
one letter.  Reading knows two more spellings than writing uses: either quote may be escaped in
either kind of literal.  Main statement: reading undoes writing.
-/

namespace Primer.Text.Quoted

/-- One character as it stands between two `quote` characters. -/
def encodeChar (quote c : Char) : List Char :=
  if c = '\n' then ['\\', 'n']
  else if c = '\t' then ['\\', 't']
  else if c = '\\' then ['\\', '\\']
  else if c = quote then ['\\', c]
  else [c]

/-- A text as it stands between two `quote` characters. -/
def encode (quote : Char) (cs : List Char) : List Char :=
  cs.flatMap (encodeChar quote)

/-- The text with its quotes. -/
def literal (quote : Char) (cs : List Char) : List Char :=
  quote :: encode quote cs ++ [quote]

/-- The character that a backslash and this letter stand for. -/
def unescape? : Char → Option Char
  | 'n' => some '\n'
  | 't' => some '\t'
  | '\\' => some '\\'
  | '\'' => some '\''
  | '"' => some '"'
  | _ => none

/-- The text that stands between the quotes; none where a backslash is followed by a letter of no
meaning or by nothing. -/
def decode? : List Char → Option (List Char)
  | [] => some []
  | '\\' :: c :: rest =>
    match unescape? c with
    | some d => (decode? rest).map (d :: ·)
    | none => none
  | c :: rest => if c = '\\' then none else (decode? rest).map (c :: ·)

/-! ## Reading undoes writing -/

theorem decode?_cons_of_ne {c : Char} (h : c ≠ '\\') (rest : List Char) :
    decode? (c :: rest) = (decode? rest).map (c :: ·) := by
  rw [decode?.eq_def]
  split
  · simp_all
  · simp_all
  · rename_i heq
    cases heq
    simp [h]

theorem decode?_encodeChar_append {quote : Char} (hq : quote = '\'' ∨ quote = '"') (c : Char)
    (rest : List Char) :
    decode? (encodeChar quote c ++ rest) = (decode? rest).map (c :: ·) := by
  unfold encodeChar
  split
  · subst c; rfl
  split
  · subst c; rfl
  split
  · subst c; rfl
  split
  · subst c
    rcases hq with rfl | rfl <;> rfl
  · exact decode?_cons_of_ne (by assumption) rest

theorem decode?_encode {quote : Char} (hq : quote = '\'' ∨ quote = '"') (cs : List Char) :
    decode? (encode quote cs) = some cs := by
  induction cs with
  | nil => rfl
  | cons c cs ih =>
    show decode? (encodeChar quote c ++ encode quote cs) = some (c :: cs)
    rw [decode?_encodeChar_append hq, ih]
    rfl

end Primer.Text.Quoted
