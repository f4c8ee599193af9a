import Primer.Proofs.Token.Spelling

/-!
# Primer.Proofs.Token.Lines — a text is scanned line by line.

What stands at the front of a text is decided before its first line feed: the rest of a text behind
a line feed changes neither a token nor the piece that no token starts with (`next_lineFeed`), and a
line feed is consumed by nothing but itself (`count_next`).  So the number of the line is all that a
scan carries over a line feed.

Each part of the scanner gets one equation for a text with a line feed somewhere behind: what it
takes is the same, and what it leaves is the same with the rest appended.  For the parts that are
functions with structural recursion these are inductions on the text in front.  The second half says
that what is left behind a piece is the end of the text, so the number of line feeds in it can be
compared with what was there.

Main statement: `scan_lineFeed`, by which a text may be cut at any of its line feeds.
-/

namespace Primer

/-- The same token, so many lines further down. -/
def Lexeme.later (l : Lexeme) (lines : Nat) : Lexeme := { l with line := l.line + lines }

/-- The same fault, so many lines further down. -/
def ParseError.later (e : ParseError) (lines : Nat) : ParseError :=
  { e with line := e.line + lines }

namespace Token

variable {p : Char → Bool} {cs : List Char}

/-! ## What is read in front of a line feed -/

section

variable (below : List Char)

/-- What is taken from the front ends before the line feed. -/
theorem takeWhile_lineFeed (hp : p '\n' = false) (cs : List Char) :
    (cs ++ '\n' :: below).takeWhile p = cs.takeWhile p := by
  induction cs with
  | nil => simp [hp]
  | cons c cs ih => simp only [List.cons_append, List.takeWhile_cons, ih]

theorem dropWhile_lineFeed (hp : p '\n' = false) (cs : List Char) :
    (cs ++ '\n' :: below).dropWhile p = cs.dropWhile p ++ '\n' :: below := by
  induction cs with
  | nil => simp [hp]
  | cons c cs ih =>
    simp only [List.cons_append, List.dropWhile_cons, ih]
    split <;> rfl

/-- A fraction is split off in front of the line feed. -/
theorem splitFraction_lineFeed (cs : List Char) :
    splitFraction (cs ++ '\n' :: below)
      = (splitFraction cs).map fun split => (split.1, split.2 ++ '\n' :: below) := by
  cases cs with
  | nil => rfl
  | cons c digits =>
    by_cases hpoint : c = '.'
    · subst hpoint
      simp only [List.cons_append, splitFraction, takeWhile_lineFeed below (p := Char.isDigit) rfl,
        dropWhile_lineFeed below (p := Char.isDigit) rfl]
      split <;> rfl
    · simp [splitFraction, hpoint]

/-- The sign of an exponent, if there is one, is the character behind the letter. -/
theorem splitExponent_lineFeed (cs : List Char) :
    splitExponent (cs ++ '\n' :: below)
      = (splitExponent cs).map fun split => (split.1, split.2 ++ '\n' :: below) := by
  have htake := takeWhile_lineFeed below (p := Char.isDigit) rfl
  have hdrop := dropWhile_lineFeed below (p := Char.isDigit) rfl
  rcases cs with _ | ⟨e, _ | ⟨s, more⟩⟩
  · rfl
  · simp [splitExponent]
  · by_cases hsign : (s == '+' || s == '-') = true
    · simp only [List.cons_append, splitExponent, hsign, if_true, htake, hdrop]
      split <;> [split; skip] <;> rfl
    · -- the digits begin with `s` itself
      have htake' := htake (s :: more)
      have hdrop' := hdrop (s :: more)
      rw [List.cons_append] at htake' hdrop'
      simp only [List.cons_append, splitExponent, if_neg hsign, htake', hdrop']
      split <;> [split; skip] <;> rfl

/-- A number is read in front of the line feed. -/
theorem number_lineFeed (cs : List Char) :
    number (cs ++ '\n' :: below) = ((number cs).1, (number cs).2 ++ '\n' :: below) := by
  unfold number
  rw [takeWhile_lineFeed below rfl, dropWhile_lineFeed below rfl]
  simp only [splitFraction_lineFeed, splitExponent_lineFeed]
  cases splitFraction (cs.dropWhile Char.isDigit) with
  | none => cases splitExponent (cs.dropWhile Char.isDigit) <;> simp
  | some split =>
    simp only [Option.map_some, splitExponent_lineFeed]
    cases splitExponent split.2 <;> simp

/-- A backslash in a quoted character takes the next character with it, unless that is a line
feed. -/
theorem quotedChar_escape (c : Char) (rest : List Char) :
    quotedChar ('\\' :: c :: rest) =
      if c = '\n' then (.wrong ['\'', '\\'], c :: rest)
      else match rest with
        | '\'' :: after =>
          match Text.Quoted.unescape? c with
          | some d => (.token (char d), after)
          | none => (.wrong ['\'', '\\', c, '\''], after)
        | _ => (.wrong ['\'', '\\', c], rest) := by
  rcases rest with _ | ⟨d, after⟩
  · simp [quotedChar]
  · by_cases hd : d = '\''
    · subst hd
      cases hu : Text.Quoted.unescape? c <;> simp [quotedChar, hu]
    · simp [quotedChar, hd]

theorem quotedChar_plain {c : Char} (hc : c ≠ '\\') (rest : List Char) :
    quotedChar (c :: rest) =
      if c = '\'' ∨ c = '\n' then (.wrong ['\''], c :: rest)
      else match rest with
        | '\'' :: after => (.token (char c), after)
        | _ => (.wrong ['\'', c], rest) := by
  rcases rest with _ | ⟨d, after⟩
  · simp [quotedChar, hc]
  · by_cases hd : d = '\''
    · subst hd
      simp [quotedChar, hc]
    · simp [quotedChar, hc, hd]

/-- A quoted character that the end of a line cuts off is cut off by the end of a text as well. -/
theorem quotedChar_lineFeed (cs : List Char) :
    quotedChar (cs ++ '\n' :: below)
      = ((quotedChar cs).1, (quotedChar cs).2 ++ '\n' :: below) := by
  rcases cs with _ | ⟨c, rest⟩
  · simp [quotedChar]
  by_cases hc : c = '\\'
  · subst hc
    rcases rest with _ | ⟨d, after⟩
    · rw [List.cons_append, List.nil_append, quotedChar_escape, if_pos rfl]
      rfl
    · rw [List.cons_append, List.cons_append, quotedChar_escape, quotedChar_escape]
      split
      · rfl
      · rcases after with _ | ⟨d', more⟩ <;> grind
  · rw [List.cons_append, quotedChar_plain hc, quotedChar_plain hc]
    split
    · rfl
    · rcases rest with _ | ⟨d, more⟩ <;> grind

/-- A character without a meaning of its own, in a text literal. -/
theorem splitQuoted_plain {c : Char} (hquote : c ≠ '"') (hfeed : c ≠ '\n') (hslash : c ≠ '\\')
    (rest : List Char) :
    splitQuoted (c :: rest)
      = ((splitQuoted rest).1, c :: (splitQuoted rest).2.1, (splitQuoted rest).2.2) := by
  rw [splitQuoted] <;> simp_all

/-- A text literal ends before the line feed, closed or not. -/
theorem splitQuoted_lineFeed (cs : List Char) :
    splitQuoted (cs ++ '\n' :: below)
      = ((splitQuoted cs).1, (splitQuoted cs).2.1, (splitQuoted cs).2.2 ++ '\n' :: below) := by
  fun_induction splitQuoted cs with
  | case1 | case2 | case3 | case4 | case5 => simp [splitQuoted]
  | case6 c rest hfeed closed inside more hsplit ih =>
    rw [hsplit] at ih
    simp [splitQuoted, ih]
  | case7 c rest hquote hfeed hend _ hslash closed inside more hsplit ih =>
    rw [hsplit] at ih
    have hne : c ≠ '\\' := by
      rcases rest with _ | ⟨d, after⟩
      · exact fun hc => hend hc rfl
      · exact fun hc => hslash d after hc rfl
    rw [List.cons_append, splitQuoted_plain hquote hfeed hne, ih]

theorem quotedText_lineFeed (cs : List Char) :
    quotedText (cs ++ '\n' :: below)
      = ((quotedText cs).1, (quotedText cs).2 ++ '\n' :: below) := by
  simp only [quotedText, splitQuoted_lineFeed]
  split <;> [skip; rfl]
  cases Text.Quoted.decode? (splitQuoted cs).2.1 <;> rfl

/-- No mark goes on with a line feed. -/
theorem splitMark?_lineFeed (c : Char) (cs : List Char) :
    splitMark? (c :: (cs ++ '\n' :: below))
      = (splitMark? (c :: cs)).map fun split => (split.1, split.2 ++ '\n' :: below) := by
  rcases cs with _ | ⟨d, more⟩
  · simp [splitMark?, Function.comp_def]
  by_cases hd : d = '=' ∨ d = '>'
  · by_cases hc : c = ':' ∨ c = '<' ∨ c = '>'
    · rcases hd with rfl | rfl <;> rcases hc with rfl | rfl | rfl <;> rfl
    · rcases hd with rfl | rfl <;> simp_all [splitMark?, Function.comp_def]
  · simp_all [splitMark?, Function.comp_def]

/-- What follows the next line feed does not count for the piece at the front of a text. -/
theorem next_lineFeed (c : Char) (cs : List Char) :
    next c (cs ++ '\n' :: below) = ((next c cs).1, (next c cs).2 ++ '\n' :: below) := by
  have hhead : ((cs ++ '\n' :: below).head? == some '/') = (cs.head? == some '/') := by
    cases cs <;> rfl
  unfold next
  rw [hhead, ← List.cons_append, number_lineFeed, quotedChar_lineFeed, quotedText_lineFeed]
  split
  · rfl
  split
  · rw [dropWhile_lineFeed below rfl]
  split
  · rw [dropWhile_lineFeed below rfl]
  split
  · rw [takeWhile_lineFeed below rfl, dropWhile_lineFeed below rfl]
  split
  · rfl
  split
  · rfl
  split
  · rfl
  rw [List.cons_append, splitMark?_lineFeed]
  cases splitMark? (c :: cs) <;> rfl

end

/-! ## What is left behind a piece -/

/-- What is left behind a number is the end of the text. -/
theorem number_suffix {c : Char} (hc : c.isDigit) (cs : List Char) :
    (number (c :: cs)).2 <:+ cs := by
  have hdrop : cs.dropWhile Char.isDigit <:+ cs := List.dropWhile_suffix _
  unfold number
  simp only [List.dropWhile_cons_of_pos hc]
  split
  · rename_i fraction rest hfraction
    have hrest : rest <:+ cs := List.IsSuffix.trans ⟨fraction, splitFraction_append hfraction⟩ hdrop
    split
    · rename_i exponent more hexponent
      exact List.IsSuffix.trans ⟨exponent, splitExponent_append hexponent⟩ hrest
    · exact hrest
  · split
    · rename_i exponent more hexponent
      exact List.IsSuffix.trans ⟨exponent, splitExponent_append hexponent⟩ hdrop
    · exact hdrop

theorem quotedChar_suffix (cs : List Char) : (quotedChar cs).2 <:+ cs := by
  fun_cases quotedChar cs <;> simp [List.suffix_cons_iff]

/-- What is left behind a text literal is the end of the text. -/
theorem splitQuoted_suffix (cs : List Char) : (splitQuoted cs).2.2 <:+ cs := by
  fun_induction splitQuoted cs <;> simp_all [List.suffix_cons_iff]

theorem quotedText_suffix (cs : List Char) : (quotedText cs).2 <:+ cs := by
  unfold quotedText
  dsimp only
  split
  · cases Text.Quoted.decode? (splitQuoted cs).2.1 <;> exact splitQuoted_suffix cs
  · exact splitQuoted_suffix cs

/-- A piece is taken from the front of a text. -/
theorem next_suffix (c : Char) (cs : List Char) : (next c cs).2 <:+ cs := by
  unfold next
  split
  · exact List.suffix_refl cs
  split
  · exact List.dropWhile_suffix _
  split
  · exact List.dropWhile_suffix _
  split
  · exact List.dropWhile_suffix _
  split
  · exact number_suffix (by assumption) cs
  split
  · exact quotedChar_suffix cs
  split
  · exact quotedText_suffix cs
  split
  · rename_i m rest hmark
    -- a mark has at least one character
    have hsplit := splitMark?_append hmark
    rcases List.suffix_cons_iff.1 ⟨_, hsplit⟩ with hrest | hrest
    · have hlength := length_splitMark?_lt hmark
      rw [hrest] at hlength
      exact absurd hlength (Nat.lt_irrefl _)
    · exact hrest
  · exact List.suffix_refl cs

/-- Only a line feed of its own takes a line feed away. -/
theorem count_next {c : Char} (cs : List Char) :
    (next c cs).2.count '\n' = cs.count '\n' := by
  have hnone {cs : List Char} (h : '\n' ∉ cs) : (next c cs).2.count '\n' = cs.count '\n' := by
    rw [List.count_eq_zero_of_not_mem h,
      List.count_eq_zero_of_not_mem fun hmem => h ((next_suffix c cs).mem hmem)]
  by_cases hfeed : '\n' ∈ cs
  · -- what is left still contains the first line feed and all that is behind it
    obtain ⟨above, below, rfl, habove⟩ := List.eq_append_cons_of_mem hfeed
    rw [next_lineFeed, List.count_append, List.count_append, hnone habove]
  · exact hnone hfeed

theorem number_ne_lineFeed (cs : List Char) : (number cs).1 ≠ .lineFeed := by
  have hreal (cs : List Char) : realPiece cs ≠ .lineFeed := by
    unfold realPiece
    split <;> simp
  have hinteger (cs : List Char) : integerPiece cs ≠ .lineFeed := by
    unfold integerPiece
    dsimp only
    split <;> simp
  unfold number
  dsimp only
  split <;> split <;> first | apply hreal | apply hinteger

/-- Only a line feed counts a line. -/
theorem next_ne_lineFeed {c : Char} (hc : c ≠ '\n') (cs : List Char) :
    (next c cs).1 ≠ .lineFeed := by
  have hchar : (quotedChar cs).1 ≠ .lineFeed := by fun_cases quotedChar cs <;> simp
  have htext : (quotedText cs).1 ≠ .lineFeed := by
    unfold quotedText
    dsimp only
    split <;> [split; skip] <;> simp
  unfold next
  rw [if_neg (by simpa using hc)]
  repeat' split
  all_goals first | exact number_ne_lineFeed _ | exact hchar | exact htext | simp

/-! ## Whole texts -/

/-- A scan looks at the piece in front, and goes on behind it. -/
theorem scanFrom_cons (line : Nat) (c : Char) (cs : List Char) :
    scanFrom (c :: cs).length line (c :: cs) =
      match (next c cs).1 with
      | .token t =>
        (scanFrom (next c cs).2.length line (next c cs).2).map (⟨t, line⟩ :: ·)
      | .skipped => scanFrom (next c cs).2.length line (next c cs).2
      | .lineFeed => scanFrom (next c cs).2.length (line + 1) (next c cs).2
      | .wrong piece => .error ⟨.unreadable (String.ofList piece), line⟩ := by
  have hbound (line : Nat) : scanFrom cs.length line (next c cs).2
      = scanFrom (next c cs).2.length line (next c cs).2 :=
    scanFrom_of_length_le (length_next_le c cs)
  rw [List.length_cons, ← hbound line, ← hbound (line + 1)]
  rfl

/-- The scan of a text goes on below a line feed with nothing but the number of the line. -/
theorem scanFrom_append_lineFeed (above below : List Char) (line : Nat) :
    scanFrom (above ++ '\n' :: below).length line (above ++ '\n' :: below) =
      match scanFrom above.length line above with
      | .error e => .error e
      | .ok first =>
        (scanFrom below.length (line + (1 + above.count '\n')) below).map (first ++ ·) := by
  induction hlength : above.length using Nat.strong_induction_on generalizing above line with
  | _ n ih =>
    subst hlength
    cases above with
    | nil =>
      rw [List.nil_append, scanFrom_lineFeed, scanFrom]
      simp only [List.count_nil, Nat.add_zero]
      cases scanFrom below.length (line + 1) below <;> simp [Except.map]
    | cons c cs =>
      by_cases hc : c = '\n'
      · subst hc
        rw [List.cons_append, scanFrom_lineFeed, scanFrom_lineFeed,
          ih cs.length (by simp) cs (line + 1) rfl, List.count_cons_self]
        rw [show line + 1 + (1 + cs.count '\n') = line + (1 + (cs.count '\n' + 1)) by omega]
      -- the first piece ends in front of the line feed, and the scan goes on with a shorter text
      · have hshort := Nat.lt_succ_of_le (length_next_le c cs)
        have hrest (line : Nat) := ih _ hshort (next c cs).2 line rfl
        rw [List.cons_append, scanFrom_cons, scanFrom_cons, next_lineFeed]
        dsimp only
        rw [List.count_cons_of_ne hc, ← count_next (c := c) cs]
        cases hpiece : (next c cs).1 with
        | token t =>
          dsimp only
          rw [hrest]
          cases scanFrom (next c cs).2.length line (next c cs).2 with
          | error e => rfl
          | ok first =>
            cases scanFrom below.length (line + (1 + (next c cs).2.count '\n')) below <;> rfl
        | skipped => exact hrest line
        | lineFeed => exact absurd hpiece (next_ne_lineFeed hc cs)
        | wrong piece => rfl

/-- A text further down has the same tokens, and the same fault, further down. -/
theorem scanFrom_later (bound line lines : Nat) (cs : List Char) :
    scanFrom bound (line + lines) cs =
      match scanFrom bound line cs with
      | .error e => .error (e.later lines)
      | .ok ls => .ok (ls.map (·.later lines)) := by
  fun_induction scanFrom bound line cs with
  | case1 | case2 => simp [scanFrom]
  | case3 bound line c cs rest t hnext ih =>
    rw [scanFrom, hnext]
    dsimp only
    rw [ih]
    cases scanFrom bound line rest <;> rfl
  | case4 bound line c cs rest hnext ih =>
    rw [scanFrom, hnext]
    exact ih
  | case5 bound line c cs rest hnext ih =>
    rw [scanFrom, hnext]
    dsimp only
    rw [show line + lines + 1 = line + 1 + lines by omega]
    exact ih
  | case6 bound line c cs rest piece hnext =>
    rw [scanFrom, hnext]
    rfl

/-- A text may be cut at any of its line feeds.  A fault above the line feed is the fault of the
whole text.  If there is none, the tokens below follow those above, or the fault below is reported,
with the lines counted on. -/
theorem scan_lineFeed (above below : String) :
    scan (above ++ "\n" ++ below) =
      match scan above with
      | .error e => .error e
      | .ok first =>
        match scan below with
        | .error e => .error (e.later (1 + above.toList.count '\n'))
        | .ok second => .ok (first ++ second.map (·.later (1 + above.toList.count '\n'))) := by
  have htext : (above ++ "\n" ++ below).toList = above.toList ++ '\n' :: below.toList := by simp
  unfold scan
  dsimp only
  rw [htext, scanFrom_append_lineFeed, scanFrom_later]
  cases scanFrom above.toList.length 1 above.toList with
  | error e => rfl
  | ok first => cases scanFrom below.toList.length 1 below.toList <;> rfl

/-- A literal that the end of its line cuts off, below a comment with a quote in it. -/
example : scan ("x // \"" ++ "\n" ++ "'\\") = .error ⟨.unreadable "'\\", 2⟩ := by
  rfl

end Token

end Primer
