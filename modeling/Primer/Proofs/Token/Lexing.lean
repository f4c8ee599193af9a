import Primer.Proofs.Real.Reading
import Primer.Proofs.Token.Words

/-!
# Primer.Proofs.Token.Lexing — the pieces that a written text falls into.

`Lexes cs ts` says that a text is scanned as these tokens, on whatever line it starts.  It has one
rule for a token at the front of a text and one for a blank, and for every kind of token there is a
lemma that names the piece at the front of its spelling.  A word or a number ends where the
characters behind it cannot continue it (`Stops`); the other tokens end by themselves.

`Front cs t rest` is a statement about `next` alone and knows neither lines nor what was scanned
before.  The lemmas that prove it follow the kinds of tokens: a word is cut off by `takeWhile`, the
digits of a number by `splitFraction` and `splitExponent`, and a quoted literal ends at its own
quote, because the encoding of its characters hides every other one.
-/

namespace Primer.Token

/-! ## Texts and their pieces -/

/-- A token stands at the front of the text, and this is left behind it. -/
def Front (cs : List Char) (t : Token) (rest : List Char) : Prop :=
  ∃ c more, cs = c :: more ∧ next c more = (.token t, rest)

/-- The token at the front is the first that is scanned. -/
theorem Front.scanFrom {cs rest : List Char} {t : Token} (h : Front cs t rest) (line : Nat) :
    scanFrom cs.length line cs = (scanFrom rest.length line rest).map (⟨t, line⟩ :: ·) := by
  obtain ⟨c, more, rfl, hnext⟩ := h
  have hle := length_next_le c more
  rw [hnext] at hle
  rw [List.length_cons, Token.scanFrom, hnext]
  dsimp only
  rw [scanFrom_of_length_le hle]

theorem scanFrom_dropSpaces (line : Nat) (cs : List Char) :
    scanFrom (cs.dropWhile isSpace).length line (cs.dropWhile isSpace)
      = scanFrom cs.length line cs := by
  cases cs with
  | nil => rfl
  | cons c cs =>
    by_cases hspace : isSpace c = true
    · have hfeed : (c == '\n') = false := by
        rw [beq_eq_false_iff_ne]
        rintro rfl
        revert hspace
        decide
      have hnext : next c cs = (.skipped, cs.dropWhile isSpace) := by
        unfold next
        rw [hfeed, if_neg Bool.false_ne_true, if_pos hspace]
      have hle := (List.dropWhile_sublist (l := cs) isSpace).length_le
      rw [List.dropWhile_cons_of_pos hspace, List.length_cons, scanFrom, hnext]
      dsimp only
      rw [scanFrom_of_length_le hle]
    · rw [List.dropWhile_cons_of_neg hspace]

/-- What is skipped leaves no trace, so it may also stand there longer. -/
theorem scanFrom_space {c : Char} (hc : isSpace c = true) (line : Nat) (cs : List Char) :
    scanFrom (c :: cs).length line (c :: cs) = scanFrom cs.length line cs := by
  rw [← scanFrom_dropSpaces, List.dropWhile_cons_of_pos hc, scanFrom_dropSpaces]

/-- The characters are scanned as these tokens. -/
def Lexes (cs : List Char) (ts : List Token) : Prop :=
  ∀ line, ∃ ls, scanFrom cs.length line cs = .ok ls ∧ ls.map (·.token) = ts

namespace Lexes

variable {c : Char} {cs rest : List Char} {t : Token} {ts : List Token}

theorem nil : Lexes [] [] := fun _ => ⟨[], rfl, rfl⟩

/-- A token at the front of a text, and the tokens behind it. -/
theorem front (hfront : Front cs t rest) (h : Lexes rest ts) : Lexes cs (t :: ts) := by
  intro line
  obtain ⟨ls, hscan, hls⟩ := h line
  refine ⟨⟨t, line⟩ :: ls, ?_, by rw [List.map_cons, hls]⟩
  rw [hfront.scanFrom, hscan]
  rfl

theorem token (hnext : next c cs = (.token t, rest)) (h : Lexes rest ts) :
    Lexes (c :: cs) (t :: ts) :=
  front ⟨c, cs, rfl, hnext⟩ h

theorem blank (h : Lexes cs ts) : Lexes (' ' :: cs) ts := by
  intro line
  rw [scanFrom_space rfl]
  exact h line

/-- The tokens of a whole text. -/
theorem scan {source : String} (h : Lexes source.toList ts) :
    ∃ ls, Token.scan source = .ok ls ∧ ls.map (·.token) = ts := h 1

end Lexes

/-! ## Words -/

/-- What follows continues neither a word nor a number. -/
def Stops (rest : List Char) : Prop := ∀ c ∈ rest.head?, isWordPart c = false ∧ c ≠ '.'

theorem Stops.nil : Stops [] := fun _ h => by cases h

theorem Stops.cons {c : Char} (h : isWordPart c = false ∧ c ≠ '.') (rest : List Char) :
    Stops (c :: rest) := by
  rintro _ ⟨⟩
  exact h

/-- The name is the spelling of an identifier. -/
structure IsWord (name : String) : Prop where
  exists_cons : ∃ c cs, name.toList = c :: cs ∧ isWordStart c = true ∧
    ∀ d ∈ cs, isWordPart d = true
  ofWord_eq : ofWord name.toList = .identifier name

/-- A character that is in none of the classes of blanks. -/
theorem next_of_not_blank {c : Char} (cs : List Char) (hfeed : c ≠ '\n')
    (hspace : isSpace c = false) (hslash : c ≠ '/') :
    next c cs = if isWordStart c then
        (.token (ofWord (c :: cs.takeWhile isWordPart)), cs.dropWhile isWordPart)
      else if c.isDigit then number (c :: cs)
      else if c == '\'' then quotedChar cs
      else if c == '"' then quotedText cs
      else match splitMark? (c :: cs) with
        | some (m, rest) => (.token (mark m), rest)
        | none => (.wrong [c], cs) := by
  unfold next
  rw [if_neg (by simpa using hfeed), if_neg (by simp [hspace])]
  exact if_neg (by simp [hslash])

/-- A word goes as far as its characters do. -/
theorem next_word {c : Char} (hc : isWordStart c = true) (cs : List Char) :
    next c cs = (.token (ofWord (c :: cs.takeWhile isWordPart)), cs.dropWhile isWordPart) := by
  have hne : ∀ d, isWordStart d = false → c ≠ d := by
    rintro _ hd rfl
    rw [hc] at hd
    cases hd
  have hspace : isSpace c = false := by
    simp only [isSpace, Bool.or_eq_false_iff, beq_eq_false_iff_ne]
    exact ⟨⟨⟨hne ' ' rfl, hne '\t' rfl⟩, hne '\r' rfl⟩, hne '\x0c' rfl⟩
  rw [next_of_not_blank cs (hne _ rfl) hspace (hne _ rfl), if_pos hc]

/-- A word is taken as far as it goes. -/
theorem front_word {c : Char} {cs rest : List Char} (hc : isWordStart c = true)
    (hcs : ∀ d ∈ cs, isWordPart d = true) (hrest : Stops rest) :
    Front (c :: cs ++ rest) (ofWord (c :: cs)) rest := by
  obtain ⟨htake, hdrop⟩ := Text.takeWhile_append_stop hcs fun d hd => (hrest d hd).1
  refine ⟨c, cs ++ rest, rfl, ?_⟩
  rw [next_word hc, htake, hdrop]

theorem front_identifier {name : String} (hname : IsWord name) {rest : List Char}
    (hrest : Stops rest) : Front (name.toList ++ rest) (.identifier name) rest := by
  obtain ⟨c, cs, hcons, hc, hcs⟩ := hname.exists_cons
  rw [← hname.ofWord_eq, hcons]
  exact front_word hc hcs hrest

theorem front_boolean (b : Bool) {rest : List Char} (hrest : Stops rest) :
    Front ((Value.booleanText b).toList ++ rest) (.boolean b) rest := by
  cases b
  · exact @front_word 'f' ['a', 'l', 's', 'e'] rest rfl (List.all_eq_true.1 rfl) hrest
  · exact @front_word 't' ['r', 'u', 'e'] rest rfl (List.all_eq_true.1 rfl) hrest

/-- Every identifier of a text is the spelling of one. -/
theorem next_isWord {c : Char} {cs : List Char} {name : String}
    (h : (next c cs).1 = .token (identifier name)) : IsWord name := by
  obtain ⟨hc, hword⟩ := next_identifier h
  obtain rfl : String.ofList (c :: cs.takeWhile isWordPart) = name := by
    unfold ofWord at hword
    dsimp only at hword
    split at hword
    · cases hword
    split at hword
    · cases hword
    split at hword
    · cases hword
    · injection hword
  refine ⟨⟨c, cs.takeWhile isWordPart, String.toList_ofList, hc, fun d hd => ?_⟩, ?_⟩
  · exact List.all_eq_true.1 List.all_takeWhile d hd
  · rw [String.toList_ofList]
    exact hword

/-! ## Numbers -/

theorem not_isWordStart_of_isDigit {c : Char} (h : c.isDigit = true) : isWordStart c = false := by
  rw [Char.isDigit, Bool.and_eq_true, decide_eq_true_eq, decide_eq_true_eq] at h
  show ((decide (c.val ≥ 'A'.val ∧ c.val ≤ 'Z'.val) ||
    (decide (c.val ≥ 'a'.val) && decide (c.val ≤ 'z'.val))) || c == '_') = false
  rw [Bool.or_eq_false_iff, Bool.or_eq_false_iff, beq_eq_false_iff_ne, Bool.and_eq_false_iff]
  refine ⟨⟨decide_eq_false fun hc => ?_, Or.inl (decide_eq_false fun hc => ?_)⟩, ?_⟩
  · exact absurd (UInt32.le_trans hc.1 h.2) (by decide)
  · exact absurd (UInt32.le_trans hc h.2) (by decide)
  · rintro rfl
    exact absurd h.2 (by decide)

/-- What starts with a digit is a number. -/
theorem next_digit {c : Char} (hc : c.isDigit = true) (cs : List Char) :
    next c cs = number (c :: cs) := by
  have hne : ∀ d, Char.isDigit d = false → c ≠ d := by
    rintro _ hd rfl
    rw [hc] at hd
    cases hd
  have hspace : isSpace c = false := by
    simp only [isSpace, Bool.or_eq_false_iff, beq_eq_false_iff_ne]
    exact ⟨⟨⟨hne ' ' rfl, hne '\t' rfl⟩, hne '\r' rfl⟩, hne '\x0c' rfl⟩
  rw [next_of_not_blank cs (hne _ rfl) hspace (hne _ rfl),
    if_neg (by rw [not_isWordStart_of_isDigit hc]; exact Bool.false_ne_true), if_pos hc]

/-- No exponent is in front of what stops a number. -/
theorem Stops.splitExponent {rest : List Char} (h : Stops rest) : splitExponent rest = none := by
  cases rest with
  | nil => rfl
  | cons c more =>
    obtain ⟨hc, -⟩ := h c rfl
    have hne : ∀ d, isWordPart d = true → (c == d) = false := by
      intro d hd
      rw [beq_eq_false_iff_ne]
      rintro rfl
      rw [hc] at hd
      cases hd
    unfold Token.splitExponent
    dsimp only
    rw [hne 'e' rfl, hne 'E' rfl]
    rfl

/-- Where a text stops a number, no fraction follows. -/
theorem Stops.splitFraction {rest : List Char} (h : Stops rest) : splitFraction rest = none := by
  unfold Token.splitFraction
  split
  · exact absurd rfl (h '.' rfl).2
  · rfl

theorem Stops.digits {rest : List Char} (h : Stops rest) :
    ∀ c ∈ rest.head?, c.isDigit = false := by
  intro c hc
  have hpart := (h c hc).1
  rw [isWordPart, Bool.or_eq_false_iff] at hpart
  exact hpart.2

/-- Digits alone are an integer. -/
theorem number_integer {digits rest : List Char} (hdigits : ∀ c ∈ digits, c.isDigit = true)
    (hrest : Stops rest) : number (digits ++ rest) = (integerPiece digits, rest) := by
  obtain ⟨htake, hdrop⟩ := Text.takeWhile_append_stop hdigits hrest.digits
  unfold number
  rw [htake, hdrop]
  dsimp only
  rw [hrest.splitFraction, hrest.splitExponent]

/-- Digits on both sides of a point are a real. -/
theorem number_real {units fraction rest : List Char} (hunits : ∀ c ∈ units, c.isDigit = true)
    (hne : fraction ≠ []) (hfraction : ∀ c ∈ fraction, c.isDigit = true) (hrest : Stops rest) :
    number (units ++ '.' :: fraction ++ rest) = (realPiece (units ++ '.' :: fraction), rest) := by
  have hpoint : ∀ c ∈ ('.' :: (fraction ++ rest)).head?, c.isDigit = false := by
    rintro _ ⟨⟩
    rfl
  obtain ⟨htake, hdrop⟩ := Text.takeWhile_append_stop hunits hpoint
  obtain ⟨htake', hdrop'⟩ := Text.takeWhile_append_stop hfraction hrest.digits
  have hsplit : splitFraction ('.' :: (fraction ++ rest)) = some ('.' :: fraction, rest) := by
    rw [splitFraction, htake', hdrop']
    simp [hne]
  unfold number
  rw [List.append_assoc, List.cons_append, htake, hdrop]
  dsimp only
  rw [hsplit]
  dsimp only
  rw [hrest.splitExponent]

section

variable {rest : List Char}

/-- An integer may be written with zeros in front. -/
theorem front_integer {digits : List Char} (hne : digits ≠ [])
    (hdigits : ∀ c ∈ digits, c.isDigit = true) (hlimit : Text.digitsValue digits ≤ integerLimit)
    (hrest : Stops rest) :
    Front (digits ++ rest) (.integer (Text.digitsValue digits)) rest := by
  have hnumber := number_integer hdigits hrest
  rw [integerPiece, if_pos hlimit] at hnumber
  obtain ⟨c, cs, rfl⟩ := List.exists_cons_of_ne_nil hne
  refine ⟨c, cs ++ rest, rfl, ?_⟩
  rw [next_digit (hdigits c List.mem_cons_self)]
  exact hnumber

/-- A number that is written in digits is read as the number. -/
theorem front_toDigits {n : Nat} (hn : n ≤ integerLimit) (hrest : Stops rest) :
    Front (Nat.toDigits 10 n ++ rest) (.integer n) rest := by
  have hvalue := Text.digitsValue_toDigits n
  have hfront := front_integer Nat.toDigits_ne_nil
    (fun c hc => Real.isDigit_of_mem_toDigits hc) (hvalue.symm ▸ hn) hrest
  rwa [hvalue] at hfront

/-- The text of a real is one token if it has a point in it. -/
theorem front_real {x : Float} (hfraction : Real.hasFraction x = true) (hsign : Real.Unsigned x)
    (hrest : Stops rest) : Front ((Real.text x).toList ++ rest) (.real x) rest := by
  obtain ⟨units, fraction, htext, hne, hne', hunits, hdigits⟩ :=
    Real.exists_text_pointed hfraction hsign
  have hread := Real.read?_text (Real.isFinite_of_hasFraction hfraction)
  rw [htext] at hread ⊢
  have hnumber := number_real hunits hne' hdigits hrest
  rw [show realPiece (units ++ '.' :: fraction) = .token (.real x) by rw [realPiece, hread]]
    at hnumber
  obtain ⟨c, cs, rfl⟩ := List.exists_cons_of_ne_nil hne
  refine ⟨c, cs ++ '.' :: fraction ++ rest, rfl, ?_⟩
  rw [next_digit (hunits c List.mem_cons_self)]
  exact hnumber

end

/-- No literal of a text has a sign. -/
theorem next_unsigned {c : Char} {cs : List Char} {x : Float}
    (h : (next c cs).1 = .token (.real x)) : Real.Unsigned x := by
  rcases next_token h with ⟨-, hother⟩ | ⟨hc, hnumber⟩ | ⟨_, hother⟩ | ⟨_, hother⟩ | ⟨_, hother⟩
  · unfold ofWord at hother
    dsimp only at hother
    split at hother
    · cases hother
    split at hother
    · cases hother
    split at hother <;> cases hother
  · rcases number_token hnumber with ⟨_, hother⟩ | ⟨y, more, hread, heq⟩
    · cases hother
    · cases heq
      rw [List.takeWhile_cons_of_pos hc, List.cons_append, Real.read?_of_isDigit hc] at hread
      exact Real.readDecimal?_unsigned hread
  all_goals cases hother

/-! ## Quoted literals -/

/-- A character between quotes is read as the character. -/
theorem quotedChar_encoded (c : Char) (rest : List Char) :
    quotedChar (Text.Quoted.encode '\'' [c] ++ '\'' :: rest) = (.token (char c), rest) := by
  show quotedChar (Text.Quoted.encodeChar '\'' c ++ [] ++ '\'' :: rest) = _
  rw [List.append_nil]
  unfold Text.Quoted.encodeChar
  split
  · subst c; rfl
  split
  · subst c; rfl
  split
  · subst c; rfl
  split
  · subst c; rfl
  · rename_i hfeed htab hslash hquote
    show quotedChar (c :: '\'' :: rest) = _
    rw [quotedChar.eq_def]
    split
    · simp_all
    · simp_all
    · simp_all
    · rename_i heq
      obtain ⟨rfl, rfl⟩ := List.cons.inj heq
      simp [hfeed, hquote]
    · simp_all

/-- A text between quotes goes up to the closing quote. -/
theorem splitQuoted_encoded (cs rest : List Char) :
    splitQuoted (Text.Quoted.encode '"' cs ++ '"' :: rest)
      = (true, Text.Quoted.encode '"' cs, rest) := by
  induction cs with
  | nil => rfl
  | cons c cs ih =>
    show splitQuoted (Text.Quoted.encodeChar '"' c ++ Text.Quoted.encode '"' cs ++ '"' :: rest)
      = (true, Text.Quoted.encodeChar '"' c ++ Text.Quoted.encode '"' cs, rest)
    rw [List.append_assoc]
    generalize Text.Quoted.encode '"' cs ++ '"' :: rest = more at ih
    unfold Text.Quoted.encodeChar
    split
    · subst c; simp [splitQuoted, ih]
    split
    · subst c; simp [splitQuoted, ih]
    split
    · subst c; simp [splitQuoted, ih]
    split
    · subst c; simp [splitQuoted, ih]
    · rename_i hfeed htab hslash hquote
      show splitQuoted (c :: more) = _
      rw [splitQuoted.eq_def]
      split <;> simp_all

/-- A character literal is read as the character. -/
theorem front_char (c : Char) (rest : List Char) :
    Front (Text.Quoted.literal '\'' [c] ++ rest) (.char c) rest := by
  refine ⟨'\'', Text.Quoted.encode '\'' [c] ++ ['\''] ++ rest, rfl, ?_⟩
  show quotedChar (Text.Quoted.encode '\'' [c] ++ ['\''] ++ rest) = _
  rw [List.append_assoc]
  exact quotedChar_encoded c rest

/-- A text literal is read as the text. -/
theorem front_string (s : String) (rest : List Char) :
    Front (Text.Quoted.literal '"' s.toList ++ rest) (.string s) rest := by
  refine ⟨'"', Text.Quoted.encode '"' s.toList ++ ['"'] ++ rest, rfl, ?_⟩
  show quotedText (Text.Quoted.encode '"' s.toList ++ ['"'] ++ rest) = _
  rw [List.append_assoc]
  unfold quotedText
  rw [show ['"'] ++ rest = '"' :: rest from rfl, splitQuoted_encoded]
  dsimp only
  rw [if_pos rfl, Text.Quoted.decode?_encode (Or.inr rfl)]
  dsimp only
  rw [String.ofList_toList]

end Primer.Token
