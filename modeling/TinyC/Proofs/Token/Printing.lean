import TinyC.Proofs.Number.RoundTrip
import TinyC.Proofs.Text.Utf8
import TinyC.Proofs.Token.Values

/-!
# Tokens are read back from their texts

A regular token has a text (`Token.source`). Set apart from what follows, this text is one lexeme
with the kind and value of the token (`Token.Regular.readsAs`), one lemma for each form of tokens.
Nothing in front of it is taken for white space or a comment, so the texts of any tokens, joined by
spaces, are read as these tokens again (`Cursor.tokens_joined`).
-/

namespace TinyC

variable {tail : List Glyph}

open Text (Glyph isBlank isDigit isLetter)
open Number (Numeral)

/-! ### Classes of characters -/

namespace Text

variable {c : Char}

theorem not_isBlank_of_between {low high : Nat} (hlow : low ≤ c.toNat) (hhigh : c.toNat ≤ high)
    (h : ∀ r ∈ blankRanges, r.2 < low ∨ high < r.1) : isBlank c = false := by
  rw [Bool.eq_false_iff]
  intro hblank
  obtain ⟨r, hr, hle, hge⟩ := inRanges_iff.mp hblank
  have hapart := h r hr
  omega

theorem toNat_of_isDigit (h : isDigit c = true) : 48 ≤ c.toNat ∧ c.toNat ≤ 57 := by
  simp only [isDigit, Char.isDigit, Bool.and_eq_true, decide_eq_true_eq] at h
  exact h

theorem not_isBlank_of_isDigit (h : isDigit c = true) : isBlank c = false :=
  not_isBlank_of_between (toNat_of_isDigit h).1 (toNat_of_isDigit h).2 (by decide)

/-- A letter is an ASCII letter of one case, or it is in one of the ranges beyond ASCII. -/
theorem toNat_of_isLetter (h : isLetter c = true) :
    (65 ≤ c.toNat ∧ c.toNat ≤ 90) ∨ (97 ≤ c.toNat ∧ c.toNat ≤ 122) ∨
      ∃ r ∈ letterRanges, r.1 ≤ c.toNat ∧ c.toNat ≤ r.2 := by
  unfold isLetter at h
  split at h
  · change (decide ('A'.val ≤ c.val ∧ c.val ≤ 'Z'.val) ||
      decide ('a'.val ≤ c.val) && decide (c.val ≤ 'z'.val)) = true at h
    simp only [Bool.or_eq_true, Bool.and_eq_true, decide_eq_true_eq] at h
    rcases h with h | h
    · exact .inl h
    · exact .inr (.inl h)
  · exact .inr (.inr (inRanges_iff.mp h))

theorem not_isBlank_of_isLetter (h : isLetter c = true) : isBlank c = false := by
  have hapart : ∀ q ∈ letterRanges, ∀ r ∈ blankRanges, r.2 < q.1 ∨ q.2 < r.1 := by
    decide +kernel
  rcases toNat_of_isLetter h with ⟨hlow, hhigh⟩ | ⟨hlow, hhigh⟩ | ⟨q, hq, hlow, hhigh⟩
  · exact not_isBlank_of_between hlow hhigh (by decide)
  · exact not_isBlank_of_between hlow hhigh (by decide)
  · exact not_isBlank_of_between hlow hhigh (hapart q hq)

theorem not_isDigit_of_isLetter (h : isLetter c = true) : isDigit c = false := by
  have habove : ∀ q ∈ letterRanges, 57 < q.1 := by
    decide +kernel
  rw [Bool.eq_false_iff]
  intro hdigit
  obtain ⟨_, hle⟩ := toNat_of_isDigit hdigit
  rcases toNat_of_isLetter h with ⟨hlow, _⟩ | ⟨hlow, _⟩ | ⟨q, hq, hlow, _⟩
  · omega
  · omega
  · have := habove q hq
    omega

end Text

/-! ### One token -/

/-- The characters as glyphs. -/
def glyphsOf (cs : List Char) : List Glyph :=
  cs.map Glyph.ofChar

@[simp] theorem glyphsOf_cons (c : Char) (cs : List Char) :
    glyphsOf (c :: cs) = Glyph.ofChar c :: glyphsOf cs := rfl

@[simp] theorem glyphsOf_append (cs ds : List Char) :
    glyphsOf (cs ++ ds) = glyphsOf cs ++ glyphsOf ds := List.map_append

@[simp] theorem map_char_glyphsOf (cs : List Char) : (glyphsOf cs).map Glyph.char = cs := by
  simp [glyphsOf, Glyph.ofChar, Function.comp_def]

@[simp] theorem char_ofChar (c : Char) : (Glyph.ofChar c).char = c := rfl

/-- Text that sets apart what is in front of it: there is none, or it starts with a space. -/
def Apart (tail : List Glyph) : Prop :=
  ∀ g, tail.head? = some g → g.char = ' '

theorem Apart.not_isDigit (h : Apart tail) : ∀ g, tail.head? = some g → isDigit g.char = false := by
  intro g hg
  rw [h g hg]
  rfl

/-- The characters at the front of a text up to one that is not in the class. -/
theorem takeWhile_glyphsOf {p : Char → Bool} {cs : List Char} (hcs : ∀ c ∈ cs, p c = true)
    (htail : ∀ g, tail.head? = some g → p g.char = false) :
    (glyphsOf cs ++ tail).takeWhile (p ·.char) = glyphsOf cs ∧
      (glyphsOf cs ++ tail).dropWhile (p ·.char) = tail := by
  have hall : ∀ g ∈ glyphsOf cs, p g.char = true := by
    intro g hg
    obtain ⟨c, hc, rfl⟩ := List.mem_map.mp hg
    exact hcs c hc
  rw [List.takeWhile_append_of_pos hall, List.dropWhile_append_of_pos hall]
  cases tail with
  | nil => simp
  | cons g tail => simp [htail g rfl]

namespace Lexeme

variable {cs ds : List Char} {tail : List Glyph} {kind : Kind} {value : Value} {broken : Bool}
  {c : Char} {rest : List Char} {s : String}

theorem digits_glyphsOf (hds : ∀ c ∈ ds, isDigit c = true) (tail : List Glyph)
    (htail : ∀ g, tail.head? = some g → isDigit g.char = false) :
    digits (glyphsOf ds ++ tail) = glyphsOf ds ∧ afterDigits (glyphsOf ds ++ tail) = tail :=
  takeWhile_glyphsOf hds htail

/-- The text `c :: rest` is read as one token, wherever it is set apart: it does not start like
white space or a comment, and the lexeme that starts with it ends with it. -/
structure ReadsAs (c : Char) (rest : List Char) (kind : Kind) (value : Value) : Prop where
  not_blank : isBlank c = false
  not_comment : c = '/' → rest = []
  scans : ∀ broken tail, Apart tail → ∃ s glyphs probed,
    scan broken (.ofChar c) (glyphsOf rest ++ tail) = ⟨.ok (kind, value), s, glyphs, tail, probed⟩

theorem scan_digit {g : Glyph} (h : isDigit g.char = true) (gs : List Glyph) :
    scan broken g gs = number (g :: gs) := if_pos h

theorem scan_letter {g : Glyph} (h : isLetter g.char = true) (gs : List Glyph) :
    scan broken g gs = word g gs := by
  rw [scan, if_neg (by simp [Text.not_isDigit_of_isLetter h]), if_pos h]

/-- A word: the kind and value depend on whether it is a keyword. -/
theorem readsAs_word (hc : isLetter c = true) (hrest : ∀ d ∈ rest, isNameChar d = true)
    (hreading : (match keyword? (String.ofList (c :: rest)) with
      | some k => (k, Value.none)
      | none => (.ident, .text (String.ofList (c :: rest)))) = (kind, value)) :
    ReadsAs c rest kind value where
  not_blank := Text.not_isBlank_of_isLetter hc
  not_comment := by
    rintro rfl
    exact absurd hc (by decide)
  scans := by
    intro broken tail htail
    have hspace : ∀ g, tail.head? = some g → isNameChar g.char = false := by
      intro g hg
      rw [htail g hg]
      decide
    obtain ⟨htake, hdrop⟩ := takeWhile_glyphsOf hrest hspace
    rw [scan_letter hc, word]
    simp only [htake, hdrop, spell, List.map_cons, map_char_glyphsOf, char_ofChar]
    exact ⟨_, _, _, congrArg (Lexeme.mk · _ _ _ _) (congrArg Except.ok hreading)⟩

theorem readsAs_name (h : IsName s) :
    ∃ c rest, s.toList = c :: rest ∧ ReadsAs c rest .ident (.text s) := by
  obtain ⟨⟨c, rest, hs, hc, hrest⟩, hkeyword⟩ := h
  have hlist : String.ofList (c :: rest) = s := by rw [← hs, String.ofList_toList]
  refine ⟨c, rest, hs, readsAs_word hc hrest ?_⟩
  rw [hlist, hkeyword]

/-! Numbers -/

/-- A number that is set apart and has neither a point nor an exponent. -/
theorem number_of_digits (hds : ∀ c ∈ ds, isDigit c = true) (htail : Apart tail) :
    number (glyphsOf ds ++ tail) = whole (glyphsOf ds) tail := by
  obtain ⟨htake, hdrop⟩ := digits_glyphsOf hds tail htail.not_isDigit
  unfold number
  rw [htake, hdrop]
  cases tail with
  | nil => rfl
  | cons g tail =>
    have hg := htail g rfl
    simp [hg, isExponentMark]

theorem readsAs_number (hc : isDigit c = true)
    (hnumber : ∀ tail, Apart tail → ∃ s glyphs probed,
      number (glyphsOf (c :: rest) ++ tail) = ⟨.ok (kind, value), s, glyphs, tail, probed⟩) :
    ReadsAs c rest kind value where
  not_blank := Text.not_isBlank_of_isDigit hc
  not_comment := by
    rintro rfl
    exact absurd hc (by decide)
  scans := by
    intro broken tail htail
    rw [scan_digit hc]
    exact hnumber tail htail

theorem readsAs_uint (n : Int64) :
    ∃ c rest, Nat.toDigits 10 n.toUInt64.toNat = c :: rest ∧
      ReadsAs c rest .uintLiteral (.int n) := by
  have hread := Number.readDigits_toDigits false n.toUInt64.toNat_lt
  have hvalue : n.toUInt64.toNat.toInt64 = n := by
    obtain ⟨⟨b⟩⟩ := n
    simp [Nat.toInt64, Int64.ofNat]
  have hall : ∀ c ∈ Nat.toDigits 10 n.toUInt64.toNat, isDigit c = true :=
    fun _ => Number.isDigit_of_mem_digits
  cases hdigits : Nat.toDigits 10 n.toUInt64.toNat with
  | nil => exact absurd hdigits Nat.toDigits_ne_nil
  | cons d rest =>
    rw [hdigits] at hread hall
    refine ⟨d, rest, rfl, readsAs_number (hall d List.mem_cons_self) ?_⟩
    intro tail htail
    rw [number_of_digits hall htail, whole]
    simp only [map_char_glyphsOf, hread, hvalue]
    exact ⟨_, _, _, rfl⟩

theorem exponent_glyphsOf (front : List Glyph) {sign : Char} (hsign : sign = '+' ∨ sign = '-')
    (hds : ∀ c ∈ ds, isDigit c = true) (hne : ds ≠ []) (htail : Apart tail) :
    exponent front (.ofChar sign :: (glyphsOf ds ++ tail)) =
      fractional (front ++ .ofChar sign :: glyphsOf ds) tail := by
  obtain ⟨htake, hdrop⟩ := digits_glyphsOf hds tail htail.not_isDigit
  have hempty : (glyphsOf ds).isEmpty = false := by simp [glyphsOf, hne]
  have hfound : exponentSign (.ofChar sign :: (glyphsOf ds ++ tail)) = [.ofChar sign] := by
    rcases hsign with rfl | rfl
    · rfl
    · rfl
  rw [exponent, hfound, exponentDigits]
  simp only [List.length_singleton, List.drop_succ_cons, List.drop_zero, htake, hdrop, hempty,
    Bool.false_eq_true, if_false, List.append_assoc, List.singleton_append]

theorem fraction_glyphsOf (front : List Glyph) (hds : ∀ c ∈ ds, isDigit c = true) (hne : ds ≠ [])
    (gs : List Glyph) :
    fraction front (glyphsOf ds ++ Glyph.ofChar 'e' :: gs) =
      exponent (front ++ glyphsOf ds ++ [Glyph.ofChar 'e']) gs := by
  obtain ⟨htake, hdrop⟩ := digits_glyphsOf hds (.ofChar 'e' :: gs) (by rintro g ⟨⟩; rfl)
  have hempty : (glyphsOf ds).isEmpty = false := by simp [glyphsOf, hne]
  rw [fraction, htake, hdrop, hempty]
  rfl

theorem number_glyphsOf (hds : ∀ c ∈ ds, isDigit c = true) (gs : List Glyph) :
    number (glyphsOf ds ++ Glyph.ofChar '.' :: gs) =
      fraction (glyphsOf ds ++ [Glyph.ofChar '.']) gs := by
  obtain ⟨htake, hdrop⟩ := digits_glyphsOf hds (.ofChar '.' :: gs) (by rintro g ⟨⟩; rfl)
  rw [number, htake, hdrop]
  rfl

/-- A numeral that is set apart is one number. -/
theorem number_of_numeral (n : Numeral) (htail : Apart tail) :
    number (glyphsOf n.text ++ tail) = fractional (glyphsOf n.text) tail := by
  have hwhole : ∀ c ∈ [n.whole], isDigit c = true := by
    intro c hc
    rw [List.mem_singleton.mp hc]
    exact n.isDigit_whole
  have hsign : n.sign = '+' ∨ n.sign = '-' := by
    unfold Numeral.sign
    split
    · exact .inr rfl
    · exact .inl rfl
  calc number (glyphsOf n.text ++ tail)
      = number (glyphsOf [n.whole] ++ .ofChar '.' :: (glyphsOf n.fraction ++
          .ofChar 'e' :: .ofChar n.sign :: (glyphsOf n.exponent ++ tail))) := by
        simp [Numeral.text, glyphsOf]
    _ = fractional (glyphsOf n.text) tail := by
        rw [number_glyphsOf hwhole, fraction_glyphsOf _ n.isDigit_fraction n.fraction_ne_nil,
          exponent_glyphsOf _ hsign n.isDigit_exponent n.exponent_ne_nil htail]
        simp [Numeral.text, glyphsOf]

theorem readsAs_numeral (n : Numeral) {bits : UInt64} (h : Number.readDouble n.text = .ok bits) :
    ∃ c rest, n.text = c :: rest ∧ ReadsAs c rest .doubleLiteral (.bits bits) := by
  refine ⟨n.whole, _, rfl, readsAs_number n.isDigit_whole ?_⟩
  intro tail htail
  change ∃ s glyphs probed, number (glyphsOf n.text ++ tail) = _
  rw [number_of_numeral n htail, fractional]
  simp only [map_char_glyphsOf, h]
  exact ⟨_, _, _, rfl⟩

/-! Literals between quotes -/

/-- A character between quotes is written behind a backslash, as one that stands for it, or as it
is; then it is none that has a meaning there. -/
theorem escapeIn_cases {quote : Char} (hquote : quote = '\'' ∨ quote = '"') (c : Char) :
    (∃ e, Token.escapeIn quote c = ['\\', e] ∧ escape? e = some c) ∨
      Token.escapeIn quote c = [c] ∧ c ≠ '\\' ∧ c ≠ quote ∧ c ≠ '\n' ∧ c ≠ '\r' ∧ c ≠ '\t' := by
  unfold Token.escapeIn
  split
  · exact .inl ⟨_, rfl, rfl⟩
  · exact .inl ⟨_, rfl, rfl⟩
  · exact .inl ⟨_, rfl, rfl⟩
  · exact .inl ⟨_, rfl, rfl⟩
  · rename_i hbackslash hn hr ht
    by_cases hc : c = quote
    · subst hc
      refine .inl ⟨c, by simp, ?_⟩
      rcases hquote with rfl | rfl
      · rfl
      · rfl
    · exact .inr ⟨by simp [hc], hbackslash, hc, hn, hr, ht⟩

theorem charOf_toNat (c : Char) : Token.charOf c.toNat.toInt64 = c := by
  have hmax : c.toNat < 0x110000 := by
    rcases c.valid with h | ⟨_, h⟩
    · exact Nat.lt_trans h (by decide)
    · exact h
  have hcode : c.toNat.toInt64.toInt32.toInt = c.toNat := by
    rw [Nat.toInt64, Int64.toInt32_ofNat', Int32.toInt_ofNat_of_lt (by omega)]
  have hvalid : 0 ≤ (c.toNat : Int) ∧ (c.toNat : Int).toNat.isValidChar :=
    ⟨Int.natCast_nonneg _, c.valid⟩
  simp only [Token.charOf, hcode]
  rw [if_pos hvalid, Int.toNat_natCast, Char.ofNat_toNat]

/-- A character literal is closed by the quote that is expected. -/
theorem closeChar_quote (c : Char) (front tail : List Glyph) :
    closeChar c front (.ofChar '\'' :: tail) =
      ⟨.ok (.charLiteral, .int c.toNat.toInt64), String.singleton c,
        front ++ [Glyph.ofChar '\''], tail, false⟩ := rfl

theorem charLiteral_escaped {c e : Char} (h : escape? e = some c) (q : Glyph) (gs : List Glyph) :
    charLiteral broken q (.ofChar '\\' :: .ofChar e :: gs) =
      closeChar c [q, .ofChar '\\', .ofChar e] gs := by
  simp [charLiteral, h]

theorem charLiteral_plain (hbackslash : c ≠ '\\') (hquote : c ≠ '\'') (q : Glyph) (gs : List Glyph)
    : charLiteral broken q (.ofChar c :: gs) = closeChar c [q, .ofChar c] gs := by
  simp [charLiteral, hbackslash, hquote]

theorem readsAs_char (c : Char) :
    ∃ d rest, (Token.enclose '\'' [c]).toList = d :: rest ∧
      ReadsAs d rest .charLiteral (.int c.toNat.toInt64) := by
  refine ⟨'\'', Token.escapeIn '\'' c ++ ['\''], by simp [Token.enclose], by decide, nofun, ?_⟩
  intro broken tail htail
  change ∃ s glyphs probed, charLiteral broken _ _ = _
  rcases escapeIn_cases (.inl rfl) c with ⟨e, hescape, he⟩ | ⟨hescape, hbackslash, hquote, _⟩
  · have hglyphs : glyphsOf (['\\', e] ++ ['\'']) ++ tail =
        .ofChar '\\' :: .ofChar e :: .ofChar '\'' :: tail := rfl
    rw [hescape, hglyphs, charLiteral_escaped he, closeChar_quote]
    exact ⟨_, _, _, rfl⟩
  · have hglyphs : glyphsOf ([c] ++ ['\'']) ++ tail = .ofChar c :: .ofChar '\'' :: tail := rfl
    rw [hescape, hglyphs, charLiteral_plain hbackslash hquote, closeChar_quote]
    exact ⟨_, _, _, rfl⟩

theorem stringBody_quote (tail : List Glyph) :
    stringBody (.ofChar '"' :: tail) = ⟨[], [.ofChar '"'], .closed, tail⟩ := by
  simp [stringBody.eq_def]

theorem stringBody_escaped {c e : Char} (h : escape? e = some c) (gs : List Glyph) :
    stringBody (.ofChar '\\' :: .ofChar e :: gs) =
      (stringBody gs).behind c [.ofChar '\\', .ofChar e] := by
  simp [stringBody, h]

theorem stringBody_plain (hbackslash : c ≠ '\\') (hquote : c ≠ '"')
    (hraw : c ≠ '\n' ∧ c ≠ '\r' ∧ c ≠ '\t') (gs : List Glyph) :
    stringBody (.ofChar c :: gs) = (stringBody gs).behind c [.ofChar c] := by
  rw [stringBody.eq_def]
  simp [hbackslash, hquote, hraw]

/-- The body of a string literal up to its closing quote, one character at a time. -/
theorem stringBody_glyphsOf (cs : List Char) (tail : List Glyph) :
    ∃ glyphs, stringBody (glyphsOf (cs.flatMap (Token.escapeIn '"') ++ ['"']) ++ tail) =
      ⟨cs, glyphs, .closed, tail⟩ := by
  induction cs with
  | nil => exact ⟨_, stringBody_quote tail⟩
  | cons c cs ih =>
    obtain ⟨glyphs, hbody⟩ := ih
    rw [List.flatMap_cons, List.append_assoc, glyphsOf_append, List.append_assoc]
    generalize glyphsOf (cs.flatMap (Token.escapeIn '"') ++ ['"']) ++ tail = gs at hbody ⊢
    rcases escapeIn_cases (.inr rfl) c with ⟨e, hescape, he⟩ | ⟨hescape, hbackslash, hquote, hraw⟩
    · have hglyphs : glyphsOf ['\\', e] ++ gs = .ofChar '\\' :: .ofChar e :: gs := rfl
      rw [hescape, hglyphs, stringBody_escaped he, hbody]
      exact ⟨_, rfl⟩
    · have hglyphs : glyphsOf [c] ++ gs = .ofChar c :: gs := rfl
      rw [hescape, hglyphs, stringBody_plain hbackslash hquote hraw, hbody]
      exact ⟨_, rfl⟩

theorem readsAs_string (s : String) :
    ∃ c rest, (Token.enclose '"' s.toList).toList = c :: rest ∧
      ReadsAs c rest .stringLiteral (.text s) := by
  refine ⟨'"', s.toList.flatMap (Token.escapeIn '"') ++ ['"'], by simp [Token.enclose], by decide,
    nofun, ?_⟩
  intro broken tail htail
  obtain ⟨glyphs, hbody⟩ := stringBody_glyphsOf s.toList tail
  change ∃ s glyphs probed, stringLiteral _ _ = _
  rw [stringLiteral, hbody]
  simp only [StringEnd.reading, String.ofList_toList]
  exact ⟨_, _, _, rfl⟩

/-! Keywords and operators -/

theorem readsAs_keyword (hs : s.toList = c :: rest) (hc : isLetter c = true)
    (hrest : rest.all isNameChar = true) (h : keyword? s = some kind) :
    ∃ c rest, s.toList = c :: rest ∧ ReadsAs c rest kind .none := by
  have hlist : String.ofList (c :: rest) = s := by rw [← hs, String.ofList_toList]
  refine ⟨c, rest, hs, readsAs_word hc (List.all_eq_true.mp hrest) ?_⟩
  rw [hlist, h]

/-- A character that starts an operator. -/
structure Starts (c : Char) : Prop where
  not_blank : isBlank c = false
  not_digit : isDigit c = false
  not_letter : isLetter c = false
  not_quote : c ≠ '\'' ∧ c ≠ '"'

theorem starts_of_mem (h : c ∈ "+-*/=!<>()\x7b\x7d,:;".toList) : Starts c := by
  have hall : "+-*/=!<>()\x7b\x7d,:;".toList.all
      (fun d => !isBlank d && !isDigit d && !isLetter d && d != '\'' && d != '"') = true := by
    decide +kernel
  have hc := List.all_eq_true.mp hall c h
  simp only [Bool.and_eq_true, Bool.not_eq_true', bne_iff_ne] at hc
  obtain ⟨⟨⟨⟨hblank, hdigit⟩, hletter⟩, hsingle⟩, hdouble⟩ := hc
  exact ⟨hblank, hdigit, hletter, hsingle, hdouble⟩

theorem scan_operator (h : Starts c) (gs : List Glyph) :
    scan broken (.ofChar c) gs = operator (.ofChar c) gs := by
  simp [scan, h.not_digit, h.not_letter, h.not_quote]

theorem readsAs_single (hc : Starts c) (h : single? c = some kind) :
    ReadsAs c [] kind .none where
  not_blank := hc.not_blank
  not_comment := fun _ => rfl
  scans := by
    intro broken tail htail
    rw [scan_operator hc]
    simp only [operator, char_ofChar, h]
    exact ⟨_, _, _, rfl⟩

/-- An operator of two characters. -/
theorem readsAs_long {c second : Char} {short : Option Kind} (hc : Starts c) (hslash : c ≠ '/')
    (hsingle : single? c = none) (h : pair? c = some (second, kind, short)) :
    ReadsAs c [second] kind .none where
  not_blank := hc.not_blank
  not_comment := fun h => absurd h hslash
  scans := by
    intro broken tail htail
    rw [scan_operator hc]
    simp [operator, hsingle, h, paired, glyphsOf]

/-- An operator that another one starts with; what sets it apart is not the rest of that one. -/
theorem readsAs_short {c second : Char} {long : Kind} (hc : Starts c) (hsingle : single? c = none)
    (hsecond : second ≠ ' ') (h : pair? c = some (second, long, some kind)) :
    ReadsAs c [] kind .none where
  not_blank := hc.not_blank
  not_comment := fun _ => rfl
  scans := by
    intro broken tail htail
    rw [scan_operator hc]
    cases tail with
    | nil => simp [operator, hsingle, h, paired, alone, glyphsOf]
    | cons g tail =>
      have hg : g.char ≠ second := by
        rw [htail g rfl]
        exact hsecond.symm
      simp [operator, hsingle, h, paired, alone, glyphsOf, hg]

theorem readsAs_fixed (h : kind.fixed? = some s) :
    ∃ c rest, s.toList = c :: rest ∧ ReadsAs c rest kind .none := by
  cases kind with
  | fnKw | letKw | constKw | asKw | whileKw | ifKw | elseKw | returnKw | breakKw | continueKw
  | intKw | voidKw | doubleKw =>
    cases h
    exact readsAs_keyword rfl (by decide) (by decide) rfl
  | plus | mul | div | lParen | rParen | lBrace | rBrace | comma | colon | semicolon =>
    cases h
    exact ⟨_, _, rfl, readsAs_single (starts_of_mem (by decide)) rfl⟩
  | minus | assign | lt | gt =>
    cases h
    exact ⟨_, _, rfl, readsAs_short (starts_of_mem (by decide)) rfl (by decide) rfl⟩
  | arrow | eq | neq | le | ge =>
    cases h
    exact ⟨_, _, rfl, readsAs_long (starts_of_mem (by decide)) (by decide) rfl rfl⟩
  | invalid | eof | uintLiteral | doubleLiteral | charLiteral | stringLiteral | ident | unlisted =>
    cases h

end Lexeme

theorem Token.Regular.readsAs {t : Token} (h : t.Regular) :
    ∃ c rest, t.source.toList = c :: rest ∧ Lexeme.ReadsAs c rest t.kind t.value := by
  cases h with
  | @fixed kind s h pos =>
    have hsource : Token.source ⟨kind, s, .none, pos⟩ = s := by
      unfold Token.source
      dsimp only
      split
      · cases h
      · cases h
      · cases h
      · cases h
      · cases h
      · rfl
    rw [hsource]
    exact Lexeme.readsAs_fixed h
  | name h pos => exact Lexeme.readsAs_name h
  | uint s n pos =>
    have hsource : (Token.source ⟨.uintLiteral, s, .int n, pos⟩).toList =
        Nat.toDigits 10 n.toUInt64.toNat := by
      change (toString n.toUInt64.toNat).toList = _
      rw [Nat.toString_eq_ofList_toDigits, String.toList_ofList]
    rw [hsource]
    exact Lexeme.readsAs_uint n
  | char s c pos =>
    have hsource : Token.source ⟨.charLiteral, s, .int c.toNat.toInt64, pos⟩ =
        Token.enclose '\'' [c] := by
      change Token.enclose '\'' [Token.charOf _] = _
      rw [Token.int, Lexeme.charOf_toNat]
    rw [hsource]
    exact Lexeme.readsAs_char c
  | string s text pos => exact Lexeme.readsAs_string text
  | @double s bits h pos =>
    obtain ⟨n, htext, hread⟩ := Number.exists_numeral h
    have hsource : (Token.source ⟨.doubleLiteral, s, .bits bits, pos⟩).toList = n.text := by
      change (Token.withFraction (Number.scientificText bits)).toList = _
      rw [htext, String.toList_ofList]
    rw [hsource]
    exact Lexeme.readsAs_numeral n hread

/-! ### Rows of tokens -/

/-- What a token says, wherever it stands and however it is spelled. -/
def Token.meaning (t : Token) : Kind × Value :=
  (t.kind, t.value)

/-- Texts with a space in front of each. -/
def spaced (ts : List Token) : List Char :=
  ts.flatMap fun t => ' ' :: t.source.toList

theorem apart_spaced (ts : List Token) : Apart (glyphsOf (spaced ts)) := by
  intro g hg
  cases ts with
  | nil => cases hg
  | cons t ts =>
    cases hg
    rfl

theorem joined_eq (t : Token) (ts : List Token) :
    (" ".intercalate ((t :: ts).map Token.source)).toList = t.source.toList ++ spaced ts := by
  rw [String.toList_intercalate]
  induction ts generalizing t with
  | nil => simp [spaced]
  | cons u ts ih =>
    have hrow := ih u
    simp only [List.map_cons] at hrow ⊢
    rw [List.intercalate_cons_cons, hrow]
    simp [spaced]

theorem trivia_blank (g : Glyph) (gs : List Glyph) (h : isBlank g.char = true) :
    (trivia false (g :: gs)).2 = (trivia false gs).2 := by
  simp [trivia, h]

/-- The text of a token is not skipped. -/
theorem Lexeme.ReadsAs.trivia_eq {c : Char} {rest : List Char} {kind : Kind} {value : Value}
    (h : Lexeme.ReadsAs c rest kind value) (htail : Apart tail) :
    (trivia false (.ofChar c :: (glyphsOf rest ++ tail))).2 =
      .ofChar c :: (glyphsOf rest ++ tail) := by
  have hcomment : ¬ (c = '/' ∧ ((glyphsOf rest ++ tail).head?.map Glyph.char) = some '/') := by
    rintro ⟨hc, hhead⟩
    rw [h.not_comment hc] at hhead
    obtain ⟨g, hg, hslash⟩ := Option.map_eq_some_iff.mp hhead
    rw [htail g hg] at hslash
    exact absurd hslash (by decide)
  rw [trivia, if_neg (by decide), if_neg (by simp [h.not_blank])]
  rw [if_neg]
  simpa using hcomment

namespace Cursor

/-- A regular token is read from its text, and the cursor behind it stands at the end of the
text. -/
theorem tokens_cons {c : Cursor} {t : Token} (ht : t.Regular) {tail : List Glyph}
    (htail : Apart tail)
    (hskip : c.skip.rest = (trivia false (glyphsOf t.source.toList ++ tail)).2) :
    ∃ d : Cursor, d.rest = tail ∧ d.broken = c.broken ∧
      c.tokens.map (·.token.meaning) = t.meaning :: d.tokens.map (·.token.meaning) := by
  obtain ⟨first, rest, hsource, hreads⟩ := ht.readsAs
  obtain ⟨s, glyphs, probed, hscan⟩ := hreads.scans c.skip.broken tail htail
  rw [hsource, glyphsOf_cons, List.cons_append, hreads.trivia_eq htail] at hskip
  have hnext : c.next.1.token.meaning = t.meaning ∧ c.next.2.rest = tail ∧
      c.next.2.broken = c.broken := by
    unfold next read
    rw [hskip]
    simp only [hscan]
    exact ⟨rfl, rfl, rfl⟩
  obtain ⟨hmeaning, hrest, hbroken⟩ := hnext
  have hon : c.next.1.goesOn = true := by
    have hkind : c.next.1.token.kind = t.kind := congrArg Prod.fst hmeaning
    simp [Lexed.goesOn, hkind, ht.kind_ne]
  refine ⟨c.next.2, hrest, hbroken, ?_⟩
  rw [tokens, if_neg (by simp [hskip]), if_pos hon, List.map_cons, hmeaning]

/-- The tokens of texts with spaces in front of them. -/
theorem tokens_spaced {ts : List Token} (hts : ∀ t ∈ ts, t.Regular) {c : Cursor}
    (hbroken : c.broken = false) (hrest : c.rest = glyphsOf (spaced ts)) :
    c.tokens.map (·.token.meaning) = ts.map Token.meaning ++ [(Kind.eof, Value.none)] := by
  induction ts generalizing c with
  | nil =>
    have hskip : c.skip.rest = [] := by
      change (trivia false c.rest).2 = []
      rw [hrest]
      rfl
    have hbroken' : c.skip.broken = false := hbroken
    rw [tokens, if_pos hskip]
    simp [next, read, hskip, ending, hbroken', Token.meaning]
  | cons t ts ih =>
    have hskip : c.skip.rest =
        (trivia false (glyphsOf t.source.toList ++ glyphsOf (spaced ts))).2 := by
      change (trivia false c.rest).2 = _
      rw [hrest, ← glyphsOf_append]
      exact trivia_blank _ _ (by decide)
    obtain ⟨d, hd, hdbroken, htokens⟩ :=
      tokens_cons (hts t List.mem_cons_self) (apart_spaced ts) hskip
    rw [htokens, ih (fun u hu => hts u (List.mem_cons_of_mem _ hu)) (hdbroken.trans hbroken) hd]
    rfl

end Cursor

/-- A program that consists of texts of tokens, joined by spaces. -/
def Source.ofTokens (file : String) (ts : List Token) : Source where
  file := file
  bytes := Text.bytesOf (" ".intercalate (ts.map Token.source))

theorem Source.tokens_ofTokens {ts : List Token} (hts : ∀ t ∈ ts, t.Regular) (file : String) :
    (Source.ofTokens file ts).tokens.map (·.token.meaning) =
      ts.map Token.meaning ++ [(Kind.eof, Value.none)] := by
  have hrest : (Cursor.start (Source.ofTokens file ts)).rest =
      glyphsOf (" ".intercalate (ts.map Token.source)).toList := Text.glyphs_bytesOf _
  cases ts with
  | nil => exact Cursor.tokens_spaced hts rfl hrest
  | cons t ts =>
    rw [joined_eq, glyphsOf_append] at hrest
    have hskip : (Cursor.start (Source.ofTokens file (t :: ts))).skip.rest =
        (trivia false (glyphsOf t.source.toList ++ glyphsOf (spaced ts))).2 := by
      rw [← hrest]
      rfl
    obtain ⟨d, hd, hbroken, htokens⟩ :=
      Cursor.tokens_cons (hts t List.mem_cons_self) (apart_spaced ts) hskip
    rw [Source.tokens, htokens,
      Cursor.tokens_spaced (fun u hu => hts u (List.mem_cons_of_mem _ hu)) hbroken hd]
    rfl

/-- Nothing of it is `invalid`. -/
theorem Source.valid_ofTokens {ts : List Token} (hts : ∀ t ∈ ts, t.Regular) (file : String) :
    ∀ t ∈ (Source.ofTokens file ts).tokens, t.token.kind ≠ .invalid := by
  intro t ht
  have hmem : t.token.meaning ∈ ts.map Token.meaning ++ [(Kind.eof, Value.none)] := by
    rw [← Source.tokens_ofTokens hts file]
    exact List.mem_map_of_mem ht
  rcases List.mem_append.mp hmem with hmem | hmem
  · obtain ⟨u, hu, heq⟩ := List.mem_map.mp hmem
    have hkind : u.kind = t.token.kind := congrArg Prod.fst heq
    rw [← hkind]
    exact (hts u hu).kind_ne.1
  · have hkind : t.token.kind = .eof := congrArg Prod.fst (List.mem_singleton.mp hmem)
    rw [hkind]
    nofun

/-- A program without `invalid` tokens is a row of regular tokens, and the end. -/
theorem Source.tokens_eq_concat {s : Source} (h : ∀ t ∈ s.tokens, t.token.kind ≠ .invalid) :
    ∃ (ts : List Lexed) (t : Lexed), s.tokens = ts ++ [t] ∧ t.token.meaning = (.eof, .none) ∧
      ∀ u ∈ ts, u.token.Regular := by
  obtain ⟨ts, t, heq, ht, hts⟩ := (Cursor.start s).tokens_eq_concat
  have hmem {u : Lexed} (hu : u ∈ ts ++ [t]) :
      u.token.kind ≠ .invalid ∧ ∃ d : Cursor, u = d.read.1 := by
    rw [← heq] at hu
    exact ⟨h u hu, Cursor.exists_read_of_mem_tokens hu⟩
  refine ⟨ts, t, heq, ?_, ?_⟩
  · obtain ⟨hinvalid, d, rfl⟩ := hmem (List.mem_append_right ts List.mem_cons_self)
    have heof : d.read.1.token.kind = .eof := by
      simpa [Lexed.goesOn, hinvalid] using ht
    rw [Token.meaning, Cursor.value_of_eof heof, heof]
  · intro u hu
    have hon := hts u hu
    obtain ⟨hinvalid, d, rfl⟩ := hmem (List.mem_append_left _ hu)
    have heof : d.read.1.token.kind ≠ .eof := by
      simpa [Lexed.goesOn, hinvalid] using hon
    exact Cursor.regular_read hinvalid heof

/-- **Printing and reading tokens are inverse.** Any row of regular tokens is read back from their
texts joined by spaces: the same kinds and values, then the end, and nothing `invalid`. Every token
of any program that is neither `invalid` nor the end is regular. So a program without `invalid`
tokens can be written anew from its tokens, and says the same. -/
theorem tokens_are_read_back :
    (∀ (file : String) (ts : List Token), (∀ t ∈ ts, t.Regular) →
      (Source.ofTokens file ts).tokens.map (·.token.meaning) =
          ts.map Token.meaning ++ [(.eof, .none)] ∧
        (Cursor.start (Source.ofTokens file ts)).allTokens 0 =
          (Source.ofTokens file ts).tokens) ∧
    (∀ (s : Source) (extra : Nat), ∀ t ∈ (Cursor.start s).allTokens extra,
      t.token.kind ≠ .invalid → t.token.kind ≠ .eof → t.token.Regular) ∧
    (∀ (file : String) (s : Source), (∀ t ∈ s.tokens, t.token.kind ≠ .invalid) →
      (Source.ofTokens file (s.tokens.dropLast.map Lexed.token)).tokens.map (·.token.meaning) =
        s.tokens.map (·.token.meaning)) := by
  refine ⟨?_, ?_, ?_⟩
  · intro file ts hts
    exact ⟨Source.tokens_ofTokens hts file,
      Cursor.allTokens_eq_tokens _ (Source.valid_ofTokens hts file)⟩
  · intro s extra t ht
    obtain ⟨d, rfl⟩ := Cursor.exists_read_of_mem_allTokens ht
    exact Cursor.regular_read
  · intro file s hs
    obtain ⟨ts, t, heq, ht, hts⟩ := Source.tokens_eq_concat hs
    have hregular : ∀ u ∈ ts.map Lexed.token, u.Regular := by
      intro u hu
      obtain ⟨l, hl, rfl⟩ := List.mem_map.mp hu
      exact hts l hl
    rw [heq, List.dropLast_concat, Source.tokens_ofTokens hregular, List.map_append, List.map_map,
      List.map_singleton, ht]
    rfl

/-- Tokens of every form: the least double, two operators that would make a comment, the greatest
word, and literals with quotes and backslashes. -/
def sampleTokens : List Token :=
  [⟨.doubleLiteral, "", .bits 1, ⟨"", 0, 0, 0⟩⟩, ⟨.div, "/", .none, ⟨"", 0, 0, 0⟩⟩,
   ⟨.div, "/", .none, ⟨"", 0, 0, 0⟩⟩, ⟨.uintLiteral, "", .int (-1), ⟨"", 0, 0, 0⟩⟩,
   ⟨.ident, "größe_1", .text "größe_1", ⟨"", 0, 0, 0⟩⟩, ⟨.letKw, "let", .none, ⟨"", 0, 0, 0⟩⟩,
   ⟨.charLiteral, "", .int '\''.toNat.toInt64, ⟨"", 0, 0, 0⟩⟩,
   ⟨.stringLiteral, "", .text "\"\\\n", ⟨"", 0, 0, 0⟩⟩]

theorem regular_sampleTokens : ∀ t ∈ sampleTokens, t.Regular := by
  have hname : IsName "größe_1" :=
    ⟨⟨_, _, rfl, by decide, List.all_eq_true.mp (by decide)⟩, by decide⟩
  simp only [sampleTokens, List.mem_cons, List.not_mem_nil, or_false]
  rintro t (rfl | rfl | rfl | rfl | rfl | rfl | rfl | rfl)
  · exact .double _ (by decide) _
  · exact .fixed rfl _
  · exact .fixed rfl _
  · exact .uint _ _ _
  · exact .name hname _
  · exact .fixed rfl _
  · exact .char _ _ _
  · exact .string _ _ _

theorem tokens_are_read_back_sample :
    (∀ t ∈ sampleTokens, t.Regular) ∧
      (Source.ofTokens "sample" sampleTokens).tokens.map (·.token.meaning) =
        sampleTokens.map Token.meaning ++ [(.eof, .none)] ∧
      (∀ t ∈ (Source.ofTokens "sample" sampleTokens).tokens, t.token.kind ≠ .invalid) ∧
      (Source.ofTokens "copy"
        ((Source.ofTokens "sample" sampleTokens).tokens.dropLast.map Lexed.token)).tokens.map
          (·.token.meaning) = sampleTokens.map Token.meaning ++ [(.eof, .none)] := by
  obtain ⟨hlaw, _, hanew⟩ := tokens_are_read_back
  have hmeanings := (hlaw "sample" sampleTokens regular_sampleTokens).1
  have hvalid := Source.valid_ofTokens regular_sampleTokens "sample"
  refine ⟨regular_sampleTokens, hmeanings, hvalid, ?_⟩
  rw [hanew "copy" _ hvalid, hmeanings]

end TinyC
