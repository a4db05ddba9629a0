import TinyC.Number.Numeral
import TinyC.Text.Blank
import TinyC.Text.Letter
import TinyC.Token
import TinyC.Token.Flaw

/-!
# Lexemes

A program is a row of lexemes with white space and comments between them. `trivia` takes the
white space and comments at the front of a text off, and `Lexeme.scan` the lexeme behind them:
a keyword, a name, a number, a literal, an operator, or a stretch that is none of these and has a
flaw. Both lose nothing (`trivia_append`, `Lexeme.scan_append`), and a lexeme is never empty
(`Lexeme.scan_ne_nil`). Positions play no part here.

A comment runs from `//` to the end of its line. Two-character operators go before their
one-character beginnings. An exponent is allowed only behind a fraction. A quote that is missing
is never looked for beyond the place where it should stand, so after a flaw the text goes on at
the character that was not expected.
-/

namespace TinyC

open Text (Glyph isBlank isDigit isLetter)

/-- The characters of a stretch of text. -/
def spell (gs : List Glyph) : String :=
  String.ofList (gs.map Glyph.char)

/-- White space and comments at the front of a text, and the text behind them. Within a comment
everything up to the end of the line is skipped. -/
def trivia (inComment : Bool) : List Glyph → List Glyph × List Glyph
  | [] => ([], [])
  | g :: gs =>
    if inComment then
      let (skipped, rest) := trivia (g.char != '\n') gs
      (g :: skipped, rest)
    else if isBlank g.char then
      let (skipped, rest) := trivia false gs
      (g :: skipped, rest)
    else if g.char == '/' && (gs.head?.map Glyph.char) == some '/' then
      let (skipped, rest) := trivia true gs
      (g :: skipped, rest)
    else ([], g :: gs)

/-- Skipping white space and comments loses nothing. -/
theorem trivia_append (b : Bool) (gs : List Glyph) : (trivia b gs).1 ++ (trivia b gs).2 = gs := by
  fun_induction trivia b gs <;> simp_all

/-- What is left behind white space and comments is no longer than the text. -/
theorem length_trivia_snd_le (b : Bool) (gs : List Glyph) :
    (trivia b gs).2.length ≤ gs.length := by
  have h := congrArg List.length (trivia_append b gs)
  simp only [List.length_append] at h
  omega

/-- A lexeme at the front of a text. -/
structure Lexeme where
  /-- The kind and value of the token that it is, or its flaw. -/
  reading : Except Flaw (Kind × Value)
  /-- The text of the token, quotes taken off and escapes resolved. -/
  spelling : String
  /-- The glyphs that it consists of. -/
  glyphs : List Glyph
  /-- The text behind it. -/
  rest : List Glyph
  /-- The end was found by looking at the glyph behind it. -/
  probed : Bool

namespace Lexeme

/-- The keyword with a spelling. -/
def keyword? (s : String) : Option Kind :=
  match s with
  | "as" => some .asKw
  | "break" => some .breakKw
  | "const" => some .constKw
  | "continue" => some .continueKw
  | "double" => some .doubleKw
  | "else" => some .elseKw
  | "fn" => some .fnKw
  | "if" => some .ifKw
  | "int" => some .intKw
  | "let" => some .letKw
  | "return" => some .returnKw
  | "void" => some .voidKw
  | "while" => some .whileKw
  | _ => none

/-- A character that may stand in a name, though not at its front. -/
def isNameChar (c : Char) : Bool :=
  isLetter c || isDigit c || c == '_'

/-- A keyword or a name; `first` is its letter at the front. -/
def word (first : Glyph) (gs : List Glyph) : Lexeme :=
  let glyphs := first :: gs.takeWhile (isNameChar ·.char)
  let s := spell glyphs
  let reading :=
    match keyword? s with
    | some k => (k, .none)
    | none => (.ident, .text s)
  ⟨.ok reading, s, glyphs, gs.dropWhile (isNameChar ·.char), true⟩

/-- The digits at the front of a text. -/
def digits (gs : List Glyph) : List Glyph :=
  gs.takeWhile (isDigit ·.char)

/-- The text behind the digits at its front. -/
def afterDigits (gs : List Glyph) : List Glyph :=
  gs.dropWhile (isDigit ·.char)

/-- A whole number of at most 64 bits. -/
def whole (glyphs rest : List Glyph) : Lexeme :=
  let s := spell glyphs
  let reading :=
    match Number.readDigits 10 false 0 (glyphs.map Glyph.char) with
    | .ok n => .ok (.uintLiteral, .int n.toInt64)
    | .error _ => .error (.integerTooLarge s)
  ⟨reading, s, glyphs, rest, true⟩

/-- A number with a fraction. -/
def fractional (glyphs rest : List Glyph) : Lexeme :=
  let s := spell glyphs
  let reading :=
    match Number.readDouble (glyphs.map Glyph.char) with
    | .ok bits => .ok (.doubleLiteral, .bits bits)
    | .error _ => .error (.badNumber s)
  ⟨reading, s, glyphs, rest, true⟩

/-- The mark of an exponent. -/
def isExponentMark (c : Char) : Bool :=
  c == 'e' || c == 'E'

/-- The sign at the front of an exponent, if there is one. -/
def exponentSign : List Glyph → List Glyph
  | g :: _ => if g.char == '+' || g.char == '-' then [g] else []
  | [] => []

/-- The digits of an exponent; `front` is the number up to them. -/
def exponentDigits (front gs : List Glyph) : Lexeme :=
  if (digits gs).isEmpty then ⟨.error (.missingExponent (spell front)), "", front, gs, true⟩
  else fractional (front ++ digits gs) (afterDigits gs)

/-- The exponent behind its mark; `front` is the number up to the mark. -/
def exponent (front gs : List Glyph) : Lexeme :=
  exponentDigits (front ++ exponentSign gs) (gs.drop (exponentSign gs).length)

/-- The fraction behind the point; `front` is the number up to the point. -/
def fraction (front gs : List Glyph) : Lexeme :=
  if (digits gs).isEmpty then
    ⟨.error (.missingFraction (spell front)), "", front, gs, true⟩
  else
    match afterDigits gs with
    | e :: rest =>
      if isExponentMark e.char then exponent (front ++ digits gs ++ [e]) rest
      else fractional (front ++ digits gs) (e :: rest)
    | [] => fractional (front ++ digits gs) []

/-- A number; the text starts with a digit. -/
def number (gs : List Glyph) : Lexeme :=
  match afterDigits gs with
  | g :: rest =>
    if isExponentMark g.char then
      let front := digits gs ++ [g]
      ⟨.error (.exponentBeforeFraction (spell front)), "", front, rest, false⟩
    else if g.char == '.' then fraction (digits gs ++ [g]) rest
    else whole (digits gs) (g :: rest)
  | [] => whole (digits gs) []

/-- The character that a character behind a backslash stands for. -/
def escape? (c : Char) : Option Char :=
  match c with
  | '\\' => some '\\'
  | '\'' => some '\''
  | '"' => some '"'
  | 't' => some '\t'
  | 'n' => some '\n'
  | 'r' => some '\r'
  | _ => none

/-- The end of a character literal; `front` is the literal up to there and `c` its character. -/
def closeChar (c : Char) (front gs : List Glyph) : Lexeme :=
  match gs with
  | g :: rest =>
    if g.char == '\'' then
      ⟨.ok (.charLiteral, .int c.toNat.toInt64), String.singleton c, front ++ [g], rest, false⟩
    else ⟨.error (.unterminatedChar (String.singleton c)), "", front, g :: rest, true⟩
  | [] => ⟨.error (.unterminatedChar (String.singleton c)), "", front, [], true⟩

/-- A character literal behind its first quote `q`. Where the text breaks off and cannot be read
on, as `broken` tells, a null character is found behind the quote. -/
def charLiteral (broken : Bool) (q : Glyph) (gs : List Glyph) : Lexeme :=
  match gs with
  | [] =>
    if broken then closeChar '\x00' [q] []
    else ⟨.error .emptyChar, "", [q], [], true⟩
  | g :: rest =>
    if g.char == '\\' then
      match rest with
      | e :: rest' =>
        match escape? e.char with
        | some c => closeChar c [q, g, e] rest'
        | none => ⟨.error .unknownCharEscape, "", [q, g], rest, true⟩
      | [] => ⟨.error .unknownCharEscape, "", [q, g], [], true⟩
    else if g.char == '\'' then ⟨.error .emptyChar, "", [q], gs, true⟩
    else closeChar g.char [q, g] rest

/-- How the body of a string literal ends. -/
inductive StringEnd where
  | closed
  | cutOff
  | raw (c : Char)
  | unknownEscape
  deriving Repr, DecidableEq

/-- The body of a string literal: its characters, its glyphs with the closing quote, how it ends,
and the text behind it. -/
structure StringBody where
  text : List Char
  glyphs : List Glyph
  ending : StringEnd
  rest : List Glyph

/-- A body with one more character, spelled by `gs`, at its front. -/
def StringBody.behind (b : StringBody) (c : Char) (gs : List Glyph) : StringBody :=
  ⟨c :: b.text, gs ++ b.glyphs, b.ending, b.rest⟩

/-- The body of a string literal behind its first quote. -/
def stringBody : List Glyph → StringBody
  | [] => ⟨[], [], .cutOff, []⟩
  | g :: gs =>
    if g.char == '"' then ⟨[], [g], .closed, gs⟩
    else if g.char == '\\' then
      match gs with
      | e :: gs' =>
        match escape? e.char with
        | some c => (stringBody gs').behind c [g, e]
        | none => ⟨[], [g], .unknownEscape, e :: gs'⟩
      | [] => ⟨[], [g], .unknownEscape, []⟩
    else if g.char == '\n' || g.char == '\r' || g.char == '\t' then
      ⟨[], [], .raw g.char, g :: gs⟩
    else (stringBody gs).behind g.char [g]

/-- The reading of a string literal with a text and an ending. -/
def StringEnd.reading (s : String) : StringEnd → Except Flaw (Kind × Value)
  | .closed => .ok (.stringLiteral, .text s)
  | .cutOff => .error (.unterminatedString s)
  | .raw c => .error (.rawInString c)
  | .unknownEscape => .error .unknownStringEscape

/-- A string literal behind its first quote `q`. -/
def stringLiteral (q : Glyph) (gs : List Glyph) : Lexeme :=
  let b := stringBody gs
  let s := String.ofList b.text
  ⟨b.ending.reading s, s, q :: b.glyphs, b.rest, b.ending != .closed⟩

/-- The operators that no other operator starts with. -/
def single? (c : Char) : Option Kind :=
  match c with
  | '+' => some .plus
  | '*' => some .mul
  | '/' => some .div
  | '(' => some .lParen
  | ')' => some .rParen
  | '\x7b' => some .lBrace
  | '\x7d' => some .rBrace
  | ',' => some .comma
  | ':' => some .colon
  | ';' => some .semicolon
  | _ => none

/-- The operators of two characters by their first character: the second character, the operator
of both, and that of the first alone, if it is one. -/
def pair? (c : Char) : Option (Char × Kind × Option Kind) :=
  match c with
  | '-' => some ('>', .arrow, some .minus)
  | '=' => some ('=', .eq, some .assign)
  | '<' => some ('=', .le, some .lt)
  | '>' => some ('=', .ge, some .gt)
  | '!' => some ('=', .neq, none)
  | _ => none

/-- A character that starts no lexeme. -/
def unexpected (g : Glyph) (gs : List Glyph) (probed : Bool) : Lexeme :=
  ⟨.error (.unexpectedInput g.char), "", [g], gs, probed⟩

/-- A character whose partner is missing: an operator by itself, if it is one. -/
def alone (short : Option Kind) (g : Glyph) (gs : List Glyph) : Lexeme :=
  match short with
  | some k => ⟨.ok (k, .none), spell [g], [g], gs, true⟩
  | none => unexpected g gs true

/-- An operator that may have a second character. -/
def paired (second : Char) (long : Kind) (short : Option Kind) (g : Glyph) (gs : List Glyph) :
    Lexeme :=
  match gs with
  | h :: rest =>
    if h.char == second then ⟨.ok (long, .none), spell [g, h], [g, h], rest, false⟩
    else alone short g (h :: rest)
  | [] => alone short g []

/-- An operator, or a character that starts no lexeme. -/
def operator (g : Glyph) (gs : List Glyph) : Lexeme :=
  match single? g.char with
  | some k => ⟨.ok (k, .none), spell [g], [g], gs, false⟩
  | none =>
    match pair? g.char with
    | some (second, long, short) => paired second long short g gs
    | none => unexpected g gs false

/-- The lexeme at the front of the non-empty text `g :: gs`. -/
def scan (broken : Bool) (g : Glyph) (gs : List Glyph) : Lexeme :=
  if isDigit g.char then number (g :: gs)
  else if isLetter g.char then word g gs
  else if g.char == '\'' then charLiteral broken g gs
  else if g.char == '"' then stringLiteral g gs
  else operator g gs

/-! ## Scanning loses nothing -/

/-- The glyphs are on one line. -/
def Inline (gs : List Glyph) : Prop :=
  ∀ g ∈ gs, g.char ≠ '\n'

theorem inline_nil : Inline [] := nofun

theorem inline_cons {g : Glyph} {gs : List Glyph} (hg : g.char ≠ '\n') (hgs : Inline gs) :
    Inline (g :: gs) :=
  List.forall_mem_cons.mpr ⟨hg, hgs⟩

theorem inline_append {gs hs : List Glyph} (hgs : Inline gs) (hhs : Inline hs) :
    Inline (gs ++ hs) :=
  List.forall_mem_append.mpr ⟨hgs, hhs⟩

theorem ne_line_of {p : Char → Bool} (hp : p '\n' = false) {g : Glyph} (hg : p g.char = true) :
    g.char ≠ '\n' := by
  intro heq
  rw [heq, hp] at hg
  cases hg

theorem inline_one {p : Char → Bool} (hp : p '\n' = false) {g : Glyph} (hg : p g.char = true) :
    Inline [g] :=
  inline_cons (ne_line_of hp hg) inline_nil

theorem inline_takeWhile {p : Char → Bool} (hp : p '\n' = false) (gs : List Glyph) :
    Inline (gs.takeWhile (p ·.char)) :=
  fun g hg => ne_line_of hp (List.all_eq_true.mp List.all_takeWhile g hg)

theorem inline_digits (gs : List Glyph) : Inline (digits gs) :=
  inline_takeWhile (by decide) gs

/-- Behind `front`, the lexeme goes on with glyphs of one line that are taken off the front of
`gs`. -/
def Extends (l : Lexeme) (front gs : List Glyph) : Prop :=
  ∃ taken, l.glyphs = front ++ taken ∧ taken ++ l.rest = gs ∧ Inline taken

section

variable {l : Lexeme} {front gs : List Glyph}

theorem Extends.append (h : l.Extends front gs) : l.glyphs ++ l.rest = front ++ gs := by
  obtain ⟨taken, hglyphs, hrest, -⟩ := h
  rw [hglyphs, List.append_assoc, hrest]

theorem Extends.length_le (h : l.Extends front gs) : front.length ≤ l.glyphs.length := by
  obtain ⟨taken, hglyphs, -⟩ := h
  simp [hglyphs]

theorem Extends.inline (h : l.Extends front gs) (hfront : Inline front) : Inline l.glyphs := by
  obtain ⟨taken, hglyphs, -, htaken⟩ := h
  rw [hglyphs]
  exact inline_append hfront htaken

/-- What was at the front may be counted among what was taken. -/
theorem Extends.behind {middle : List Glyph} (h : l.Extends (front ++ middle) gs)
    (hmiddle : Inline middle) : l.Extends front (middle ++ gs) := by
  obtain ⟨taken, hglyphs, hrest, htaken⟩ := h
  refine ⟨middle ++ taken, by rw [hglyphs, List.append_assoc], ?_, inline_append hmiddle htaken⟩
  rw [List.append_assoc, hrest]

/-- A lexeme may end at the front. -/
theorem extends_front (hglyphs : l.glyphs = front) (hrest : l.rest = gs) : l.Extends front gs :=
  ⟨[], by rw [hglyphs, List.append_nil], hrest, inline_nil⟩

end

@[simp] theorem digits_append_afterDigits (gs : List Glyph) : digits gs ++ afterDigits gs = gs :=
  List.takeWhile_append_dropWhile

theorem word_extends (first : Glyph) (gs : List Glyph) : (word first gs).Extends [first] gs :=
  ⟨_, rfl, List.takeWhile_append_dropWhile, inline_takeWhile (by decide) gs⟩

theorem exponentSign_append (gs : List Glyph) :
    exponentSign gs ++ gs.drop (exponentSign gs).length = gs := by
  unfold exponentSign
  split
  · split <;> simp
  · rfl

theorem inline_exponentSign (gs : List Glyph) : Inline (exponentSign gs) := by
  unfold exponentSign
  split
  · split
    · rename_i g _ hg
      exact inline_one (p := fun c => c == '+' || c == '-') (by decide) hg
    · exact inline_nil
  · exact inline_nil

theorem exponent_extends (front gs : List Glyph) : (exponent front gs).Extends front gs := by
  have hdigits (front gs : List Glyph) : (exponentDigits front gs).Extends front gs := by
    unfold exponentDigits
    split
    · exact extends_front rfl rfl
    · exact ⟨digits gs, rfl, digits_append_afterDigits gs, inline_digits gs⟩
  have hall := (hdigits (front ++ exponentSign gs) (gs.drop (exponentSign gs).length)).behind
    (inline_exponentSign gs)
  rwa [exponentSign_append] at hall

theorem fraction_extends (front gs : List Glyph) : (fraction front gs).Extends front gs := by
  have h := digits_append_afterDigits gs
  unfold fraction
  split
  · exact extends_front rfl rfl
  · split
    · rename_i e rest he
      rw [he] at h
      split
      · rename_i hmark
        have hall := ((exponent_extends (front ++ digits gs ++ [e]) rest).behind
          (inline_one (by decide) hmark)).behind (inline_digits gs)
        rwa [List.singleton_append, h] at hall
      · exact ⟨digits gs, rfl, h, inline_digits gs⟩
    · rename_i he
      rw [he] at h
      exact ⟨digits gs, rfl, h, inline_digits gs⟩

theorem number_extends (gs : List Glyph) :
    (number gs).Extends (digits gs) (afterDigits gs) := by
  unfold number
  split
  · rename_i g rest he
    rw [he]
    split
    · rename_i hmark
      exact ⟨[g], rfl, rfl, inline_one (by decide) hmark⟩
    · split
      · rename_i hpoint
        exact (fraction_extends (digits gs ++ [g]) rest).behind
          (inline_one (p := (· == '.')) (by decide) hpoint)
      · exact extends_front rfl rfl
  · rename_i he
    exact extends_front rfl he.symm

theorem closeChar_extends (c : Char) (front gs : List Glyph) :
    (closeChar c front gs).Extends front gs := by
  unfold closeChar
  split
  · split
    · rename_i g rest hquote
      exact ⟨[g], rfl, rfl, inline_one (p := (· == '\'')) (by decide) hquote⟩
    · exact extends_front rfl rfl
  · exact extends_front rfl rfl

theorem ne_line_of_escape {g : Glyph} {c : Char} (h : escape? g.char = some c) :
    g.char ≠ '\n' := by
  intro heq
  rw [heq] at h
  cases h

/-- A character literal is on one line unless its character is the line end. -/
theorem charLiteral_extends (broken : Bool) (q : Glyph) (gs : List Glyph) :
    (charLiteral broken q gs).Extends [q] gs ∨ ∃ n rest, n.char = '\n' ∧ gs = n :: rest ∧
      charLiteral broken q gs = closeChar n.char [q, n] rest := by
  unfold charLiteral
  split
  · split
    · exact .inl (closeChar_extends _ [q] [])
    · exact .inl (extends_front rfl rfl)
  · rename_i g rest
    split
    · rename_i hslash
      have hg : g.char ≠ '\n' := ne_line_of (p := (· == '\\')) (by decide) hslash
      left
      split
      · rename_i e rest
        split
        · rename_i c hescape
          exact (closeChar_extends c ([q] ++ [g, e]) rest).behind
            (inline_cons hg (inline_cons (ne_line_of_escape hescape) inline_nil))
        · exact ⟨[g], rfl, rfl, inline_cons hg inline_nil⟩
      · exact ⟨[g], rfl, rfl, inline_cons hg inline_nil⟩
    · split
      · exact .inl (extends_front rfl rfl)
      · by_cases hline : g.char = '\n'
        · exact .inr ⟨g, rest, hline, rfl, rfl⟩
        · exact .inl ((closeChar_extends g.char ([q] ++ [g]) rest).behind
            (inline_cons hline inline_nil))

theorem stringBody_append (gs : List Glyph) :
    (stringBody gs).glyphs ++ (stringBody gs).rest = gs := by
  fun_induction stringBody gs <;> simp_all [StringBody.behind]

theorem inline_stringBody (gs : List Glyph) : Inline (stringBody gs).glyphs := by
  fun_induction stringBody gs with
  | case1 => exact inline_nil
  | case2 g gs hquote => exact inline_cons (by simp_all) inline_nil
  | case3 g hquote hslash e gs' c hc ih =>
    exact inline_cons (by simp_all) (inline_cons (ne_line_of_escape hc) ih)
  | case4 g hquote hslash e gs' hnone => exact inline_cons (by simp_all) inline_nil
  | case5 g hquote hslash => exact inline_cons (by simp_all) inline_nil
  | case6 => exact inline_nil
  | case7 g gs hquote hslash hraw ih => exact inline_cons (by simp_all) ih

theorem operator_extends (g : Glyph) (gs : List Glyph) : (operator g gs).Extends [g] gs := by
  have halone (short : Option Kind) (gs : List Glyph) : (alone short g gs).Extends [g] gs := by
    cases short <;> exact extends_front rfl rfl
  unfold operator
  split
  · exact extends_front rfl rfl
  · split
    · rename_i second long short hpair
      unfold paired
      split
      · split
        · rename_i h rest hsecond
          refine ⟨[h], rfl, rfl, inline_cons (fun heq => ?_) inline_nil⟩
          have hsame : h.char = second := by simpa using hsecond
          rw [← hsame, heq] at hpair
          unfold pair? at hpair
          split at hpair <;> cases hpair
        · exact halone _ _
      · exact halone _ _
    · exact extends_front rfl rfl

/-- A lexeme is what is left of the text behind its first glyph, up to a place on the same line. The
one that reaches further is a character literal with the line end for its character. -/
theorem scan_extends (broken : Bool) (g : Glyph) (gs : List Glyph) :
    (scan broken g gs).Extends [g] gs ∨ g.char = '\'' ∧ ∃ n rest, n.char = '\n' ∧
      gs = n :: rest ∧ scan broken g gs = closeChar n.char [g, n] rest := by
  unfold scan
  split
  · rename_i hg
    have hnumber := number_extends (g :: gs)
    have hdigits : digits (g :: gs) = [g] ++ digits gs := by simp [digits, hg]
    have hafter : afterDigits (g :: gs) = afterDigits gs := by simp [afterDigits, hg]
    rw [hdigits, hafter] at hnumber
    have hall := hnumber.behind (inline_digits gs)
    rw [digits_append_afterDigits] at hall
    exact .inl hall
  split
  · exact .inl (word_extends g gs)
  split
  · rename_i hquote
    exact (charLiteral_extends broken g gs).imp_right fun h => ⟨by simpa using hquote, h⟩
  split
  · exact .inl ⟨_, rfl, stringBody_append gs, inline_stringBody gs⟩
  · exact .inl (operator_extends g gs)

/-- A lexeme and the text behind it make up the text it was taken from. -/
theorem scan_append (broken : Bool) (g : Glyph) (gs : List Glyph) :
    (scan broken g gs).glyphs ++ (scan broken g gs).rest = g :: gs := by
  rcases scan_extends broken g gs with h | ⟨-, n, rest, -, rfl, hscan⟩
  · exact h.append
  · rw [hscan]
    exact (closeChar_extends n.char [g, n] rest).append

/-- A lexeme has at least one glyph. -/
theorem scan_ne_nil (broken : Bool) (g : Glyph) (gs : List Glyph) :
    (scan broken g gs).glyphs ≠ [] := by
  rw [← List.length_pos_iff]
  rcases scan_extends broken g gs with h | ⟨-, n, rest, -, rfl, hscan⟩
  · exact h.length_le
  · rw [hscan]
    exact Nat.lt_of_succ_le (Nat.le_of_succ_le (closeChar_extends n.char [g, n] rest).length_le)

/-- The text behind a lexeme is shorter than the text it was taken from. -/
theorem length_scan_rest_lt (broken : Bool) (g : Glyph) (gs : List Glyph) :
    (scan broken g gs).rest.length < (g :: gs).length := by
  have h := congrArg List.length (scan_append broken g gs)
  have h0 : 0 < (scan broken g gs).glyphs.length :=
    List.length_pos_iff.2 (scan_ne_nil broken g gs)
  simp only [List.length_append] at h
  omega

end Lexeme

end TinyC
