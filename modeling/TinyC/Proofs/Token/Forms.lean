import TinyC.Proofs.Number.Numeral
import TinyC.Token.Stream

/-!
# The forms of tokens

A token of a program is a keyword or an operator with its own spelling, a name, or a literal with
a value of its kind (`Token.Regular`). Each scanner gives lexemes of these forms or none
(`Lexeme.regular_scan`). Every token of a program is read at some cursor, so apart from the end and
from `invalid` stretches every token is regular (`Cursor.regular_read`).
-/

namespace TinyC

open Text (Glyph isDigit isLetter)

/-- How a keyword or operator is spelled. -/
def Kind.fixed? : Kind → Option String
  | .fnKw => some "fn"
  | .letKw => some "let"
  | .constKw => some "const"
  | .asKw => some "as"
  | .whileKw => some "while"
  | .ifKw => some "if"
  | .elseKw => some "else"
  | .returnKw => some "return"
  | .breakKw => some "break"
  | .continueKw => some "continue"
  | .intKw => some "int"
  | .voidKw => some "void"
  | .doubleKw => some "double"
  | .plus => some "+"
  | .minus => some "-"
  | .mul => some "*"
  | .div => some "/"
  | .assign => some "="
  | .eq => some "=="
  | .neq => some "!="
  | .lt => some "<"
  | .gt => some ">"
  | .le => some "<="
  | .ge => some ">="
  | .lParen => some "("
  | .rParen => some ")"
  | .lBrace => some "\x7b"
  | .rBrace => some "\x7d"
  | .arrow => some "->"
  | .comma => some ","
  | .colon => some ":"
  | .semicolon => some ";"
  | _ => none

/-- A text that is a name: a letter at the front, then letters, digits and underscores, and no
keyword. -/
structure IsName (s : String) : Prop where
  shape : ∃ c cs, s.toList = c :: cs ∧ isLetter c = true ∧ ∀ d ∈ cs, Lexeme.isNameChar d = true
  not_keyword : Lexeme.keyword? s = none

/-- The forms that the tokens of a program have. How a literal was spelled and where it stood does
not matter; the value of a double is finite and has no sign. -/
inductive Token.Regular : Token → Prop
  | fixed {kind : Kind} {s : String} (h : kind.fixed? = some s) (pos : Position) :
      Regular ⟨kind, s, .none, pos⟩
  | name {s : String} (h : IsName s) (pos : Position) : Regular ⟨.ident, s, .text s, pos⟩
  | uint (s : String) (n : Int64) (pos : Position) : Regular ⟨.uintLiteral, s, .int n, pos⟩
  | char (s : String) (c : Char) (pos : Position) :
      Regular ⟨.charLiteral, s, .int c.toNat.toInt64, pos⟩
  | string (s text : String) (pos : Position) : Regular ⟨.stringLiteral, s, .text text, pos⟩
  | double (s : String) {bits : UInt64} (h : bits < Number.Binary64.infinity) (pos : Position) :
      Regular ⟨.doubleLiteral, s, .bits bits, pos⟩

/-- Neither the end nor an `invalid` stretch is regular. -/
theorem Token.Regular.kind_ne {t : Token} (h : t.Regular) : t.kind ≠ .invalid ∧ t.kind ≠ .eof := by
  cases h with
  | @fixed kind s h pos =>
    constructor
    · rintro rfl
      cases h
    · rintro rfl
      cases h
  | name | uint | char | string | double => exact ⟨nofun, nofun⟩

namespace Lexeme

variable {g : Glyph} {s : String}

/-- If the lexeme is a token, it is a regular one. -/
def Regular (l : Lexeme) : Prop :=
  ∀ kind value, l.reading = .ok (kind, value) → ∀ pos, Token.Regular ⟨kind, l.spelling, value, pos⟩

theorem regular_error {f : Flaw} {gs rest : List Glyph} {probed : Bool} :
    Regular ⟨.error f, s, gs, rest, probed⟩ :=
  fun _ _ h => by cases h

theorem regular_ok {kind : Kind} {value : Value} {gs rest : List Glyph} {probed : Bool}
    (h : ∀ pos, Token.Regular ⟨kind, s, value, pos⟩) :
    Regular ⟨.ok (kind, value), s, gs, rest, probed⟩ := by
  intro kind' value' heq
  cases heq
  exact h

theorem regular_whole (gs rest : List Glyph) : (whole gs rest).Regular := by
  intro kind value h
  unfold whole at h
  dsimp only at h
  split at h
  · cases h
    exact .uint _ _
  · cases h

/-- A number starts with a digit, so it is finite and has no sign. -/
theorem regular_fractional (hg : isDigit g.char = true) (gs rest : List Glyph) :
    (fractional (g :: gs) rest).Regular := by
  intro kind value h
  unfold fractional at h
  dsimp only at h
  split at h
  · rename_i bits hbits
    cases h
    exact .double _ (Number.lt_infinity_of_readDouble hg hbits)
  · cases h

theorem regular_exponent (hg : isDigit g.char = true) (front gs : List Glyph) :
    (exponent (g :: front) gs).Regular := by
  unfold exponent exponentDigits
  split
  · exact regular_error
  · exact regular_fractional hg _ _

theorem regular_fraction (hg : isDigit g.char = true) (front gs : List Glyph) :
    (fraction (g :: front) gs).Regular := by
  unfold fraction
  split
  · exact regular_error
  · split
    · split
      · exact regular_exponent hg _ _
      · exact regular_fractional hg _ _
    · exact regular_fractional hg _ _

theorem regular_number (hg : isDigit g.char = true) (gs : List Glyph) :
    (number (g :: gs)).Regular := by
  have hdigits : digits (g :: gs) = g :: digits gs := by simp [digits, hg]
  unfold number
  split
  · split
    · exact regular_error
    · split
      · rw [hdigits]
        exact regular_fraction hg _ _
      · exact regular_whole _ _
  · exact regular_whole _ _

/-- Keywords have their own spellings. -/
theorem fixed?_of_keyword? {k : Kind} (h : keyword? s = some k) : k.fixed? = some s := by
  unfold keyword? at h
  split at h <;> cases h <;> rfl

theorem regular_word {first : Glyph} (hfirst : isLetter first.char = true) (gs : List Glyph) :
    (word first gs).Regular := by
  intro kind value h pos
  simp only [word, Except.ok.injEq] at h ⊢
  split at h
  · rename_i k hk
    cases h
    exact .fixed (fixed?_of_keyword? hk) pos
  · rename_i hk
    cases h
    refine .name ⟨⟨first.char, (gs.takeWhile (isNameChar ·.char)).map Glyph.char,
      ?_, hfirst, ?_⟩, hk⟩ pos
    · rw [spell, String.toList_ofList, List.map_cons]
    · intro d hd
      obtain ⟨g, hg, rfl⟩ := List.mem_map.mp hd
      exact List.all_eq_true.mp List.all_takeWhile g hg

theorem regular_closeChar (c : Char) (front gs : List Glyph) : (closeChar c front gs).Regular := by
  unfold closeChar
  split
  · split
    · exact regular_ok (.char _ _)
    · exact regular_error
  · exact regular_error

theorem regular_charLiteral (broken : Bool) (q : Glyph) (gs : List Glyph) :
    (charLiteral broken q gs).Regular := by
  unfold charLiteral
  split
  · split
    · exact regular_closeChar _ _ _
    · exact regular_error
  · split
    · split
      · split
        · exact regular_closeChar _ _ _
        · exact regular_error
      · exact regular_error
    · split
      · exact regular_error
      · exact regular_closeChar _ _ _

theorem regular_stringLiteral (q : Glyph) (gs : List Glyph) : (stringLiteral q gs).Regular := by
  intro kind value h
  simp only [stringLiteral] at h
  cases hend : (stringBody gs).ending <;> rw [hend] at h <;> cases h
  exact .string _ _

/-- Operators have their own spellings. -/
theorem fixed?_of_single? {c : Char} {k : Kind} (h : single? c = some k) :
    k.fixed? = some (String.ofList [c]) := by
  unfold single? at h
  split at h <;> cases h <;> rfl

theorem fixed?_of_pair? {c second : Char} {long : Kind} {short : Option Kind}
    (h : pair? c = some (second, long, short)) :
    long.fixed? = some (String.ofList [c, second]) ∧
      ∀ k, short = some k → k.fixed? = some (String.ofList [c]) := by
  unfold pair? at h
  split at h <;> cases h <;> refine ⟨rfl, fun k hk => ?_⟩ <;> cases hk <;> rfl

theorem regular_alone {short : Option Kind} (gs : List Glyph)
    (h : ∀ k, short = some k → k.fixed? = some (String.ofList [g.char])) :
    (alone short g gs).Regular := by
  cases short with
  | none => exact regular_error
  | some k => exact regular_ok (.fixed (h k rfl))

theorem regular_operator (g : Glyph) (gs : List Glyph) : (operator g gs).Regular := by
  unfold operator
  split
  · rename_i k hk
    exact regular_ok (.fixed (fixed?_of_single? hk))
  · split
    · rename_i second long short hp
      obtain ⟨hlong, hshort⟩ := fixed?_of_pair? hp
      unfold paired
      split
      · split
        · rename_i h rest hsecond
          rw [← beq_iff_eq.mp hsecond] at hlong
          exact regular_ok (.fixed hlong)
        · exact regular_alone _ hshort
      · exact regular_alone _ hshort
    · exact regular_error

theorem regular_scan (broken : Bool) (g : Glyph) (gs : List Glyph) :
    (scan broken g gs).Regular := by
  unfold scan
  split
  · rename_i hdigit
    exact regular_number hdigit _
  split
  · rename_i hletter
    exact regular_word hletter _
  split
  · exact regular_charLiteral _ _ _
  split
  · exact regular_stringLiteral _ _
  · exact regular_operator _ _

end Lexeme

namespace Cursor

variable {c : Cursor}

/-- The token at a cursor with text left is `invalid` or regular. -/
theorem regular_of_rest (h : c.rest ≠ []) :
    c.read.1.token.kind = .invalid ∨ c.read.1.token.Regular := by
  unfold read
  split
  · contradiction
  · rename_i g gs _
    unfold tokenOf
    dsimp only
    split
    · rename_i kind value hreading
      exact .inr (Lexeme.regular_scan c.broken g gs kind value hreading _)
    · exact .inl rfl

theorem regular_read (hinvalid : c.read.1.token.kind ≠ .invalid) (heof : c.read.1.token.kind ≠ .eof)
    : c.read.1.token.Regular := by
  by_cases hrest : c.rest = []
  · simp only [read, hrest, ending] at hinvalid heof
    split at hinvalid
    · exact absurd rfl hinvalid
    · rename_i hbroken
      rw [if_neg hbroken] at heof
      exact absurd rfl heof
  · exact (regular_of_rest hrest).resolve_left hinvalid

/-- The end of a program stands for nothing. -/
theorem value_of_eof (h : c.read.1.token.kind = .eof) : c.read.1.token.value = .none := by
  by_cases hrest : c.rest = []
  · simp only [read, hrest, ending] at h ⊢
    split
    · rename_i hbroken
      rw [if_pos hbroken] at h
      cases h
    · rfl
  · rcases regular_of_rest hrest with hinvalid | hregular
    · rw [h] at hinvalid
      cases hinvalid
    · exact absurd h hregular.kind_ne.2

/-- Every token that analysis sees was read at some cursor. -/
theorem exists_read_of_mem_tokens {t : Lexed} (h : t ∈ c.tokens) : ∃ d : Cursor, t = d.read.1 := by
  fun_induction tokens c with
  | case1 c _ => exact ⟨c.skip, List.mem_singleton.mp h⟩
  | case2 c _ _ ih =>
    rcases List.mem_cons.mp h with rfl | h
    · exact ⟨c.skip, rfl⟩
    · exact ih h
  | case3 c _ _ => exact ⟨c.skip, List.mem_singleton.mp h⟩

/-- So was every token of the program. -/
theorem exists_read_of_mem_allTokens {extra : Nat} {t : Lexed} (h : t ∈ c.allTokens extra) :
    ∃ d : Cursor, t = d.read.1 := by
  fun_induction allTokens c extra with
  | case1 c _ => exact ⟨c.skip, List.eq_of_mem_replicate h⟩
  | case2 c _ ih =>
    rcases List.mem_cons.mp h with rfl | h
    · exact ⟨c.skip, rfl⟩
    · exact ih h

/-- Without `invalid` tokens, what analysis sees are all tokens of the program. -/
theorem allTokens_eq_tokens (c : Cursor) (h : ∀ t ∈ c.tokens, t.token.kind ≠ .invalid) :
    c.allTokens 0 = c.tokens := by
  fun_induction tokens c with
  | case1 c hrest => rw [allTokens, if_pos hrest, List.replicate_one]
  | case2 c hrest _ ih =>
    rw [allTokens, if_neg hrest, ih fun t ht => h t (List.mem_cons_of_mem _ ht)]
  | case3 c hrest hoff =>
    -- a token with text left is not the end, so one that is not `invalid` goes on
    have hregular := (regular_of_rest hrest).resolve_left (h _ List.mem_cons_self)
    exact absurd (by simp [Lexed.goesOn, next, hregular.kind_ne]) hoff

end Cursor

end TinyC
