import Mathlib.Data.Nat.Find
import TinyC.Proofs.Token.Forms
import TinyC.Proofs.Token.Partition

/-!
# The lexer always makes progress

The lexer as a machine (`Scanner`): it is in one of a few modes, and each mode reads some of the
text and hands over to another mode or gives a token. A call of the lexer lets the machine run up to
the next token (`Scanner.Call`). Not every step takes from the text: the first digit of a number is
put back, and the end of the text is found twice. But no more than two steps of a call are without a
byte of their own (`exists_call`), so every call ends.

Calls are made one after the other, for as long as the caller likes (`Source.call`). A call that
does not give the end takes at least one byte; once the end was given, it is given for ever.
-/

namespace TinyC

open Text

/-! ## The machine -/

/-- What the lexer is about to do. The glyphs in a mode have been read and belong to the token that
is being read. -/
inductive Mode where
  | program
  | comment (slash : Glyph)
  | number
  | fraction (front : List Glyph)
  | word (first : Glyph)
  | character (quote : Glyph)
  | string (quote : Glyph)
  /-- An operator, or what starts no token: at the place where reading failed, nothing. -/
  | operator (first : Option Glyph)
  | ending

/-- The lexer between two steps. The cursor is at the first glyph of the token that is being read,
but the text at it is what is still to be read. -/
structure Scanner where
  mode : Mode
  cursor : Cursor

namespace Scanner

/-- Hand over to another mode. -/
def turn (m : Scanner) (mode : Mode) (rest : List Glyph) : Option Lexed × Scanner :=
  (none, ⟨mode, { m.cursor with rest }⟩)

/-- Leave glyphs out that are between tokens. -/
def leaveOut (m : Scanner) (gs rest : List Glyph) : Option Lexed × Scanner :=
  (none, ⟨.program, m.cursor.advance gs rest⟩)

/-- Give the token of a lexeme. -/
def emit (m : Scanner) (l : Lexeme) : Option Lexed × Scanner :=
  (some (m.cursor.give l).1, ⟨.program, (m.cursor.give l).2⟩)

/-- The mode for the token that begins with a glyph, and the text that it finds. The first digit of
a number is put back. -/
def opening (g : Glyph) (gs : List Glyph) : Mode × List Glyph :=
  if isDigit g.char then (.number, g :: gs)
  else if isLetter g.char then (.word g, gs)
  else if g.char == '\'' then (.character g, gs)
  else if g.char == '"' then (.string g, gs)
  else (.operator (some g), gs)

/-- One step of the lexer, and the token that it gives, if it gives one. -/
def step (m : Scanner) : Option Lexed × Scanner :=
  match m.mode, m.cursor.rest with
  | .program, [] => m.turn (if m.cursor.broken then .operator none else .ending) []
  | .program, g :: gs =>
    if isBlank g.char then m.leaveOut [g] gs
    else if g.char == '/' then
      if beginsComment (g :: gs) then m.turn (.comment g) gs else m.emit (Lexeme.operator g gs)
    else m.turn (opening g gs).1 (opening g gs).2
  | .comment slash, gs => m.leaveOut (slash :: (restOfLine gs).1) (restOfLine gs).2
  | .number, gs =>
    match Lexeme.afterDigits gs with
    | g :: rest =>
      if g.char == '.' then m.turn (.fraction (Lexeme.digits gs ++ [g])) rest
      else m.emit (Lexeme.number gs)
    | [] => m.emit (Lexeme.number gs)
  | .fraction front, gs => m.emit (Lexeme.fraction front gs)
  | .word first, gs => m.emit (Lexeme.word first gs)
  | .character quote, gs => m.emit (Lexeme.charLiteral m.cursor.broken quote gs)
  | .string quote, gs => m.emit (Lexeme.stringLiteral quote gs)
  | .operator (some g), gs => m.emit (Lexeme.operator g gs)
  | .operator none, _ => (some ⟨m.cursor.ending, false⟩, ⟨.program, m.cursor⟩)
  | .ending, _ => (some ⟨m.cursor.ending, false⟩, m)

/-- A call of `k` steps: the last of them gives the token, and the others give none. -/
inductive Call : Nat → Scanner → Lexed → Scanner → Prop
  | emits {m m' : Scanner} {t : Lexed} (h : m.step = (some t, m')) : Call 1 m t m'
  | turns {m m' m'' : Scanner} {t : Lexed} {k : Nat} (h : m.step = (none, m'))
      (hcall : Call k m' t m'') : Call (k + 1) m t m''

end Scanner

/-- The mode of the lexer after it gave a token. -/
def Lexed.mode (t : Lexed) : Mode :=
  if t.token.kind = .eof then .ending else .program

namespace Cursor

/-- The number of bytes that are left. -/
def unread (c : Cursor) : Nat :=
  (bytesIn c.rest).length

variable {c : Cursor}

theorem unread_eq {gs rest : List Glyph} (h : gs ++ rest = c.rest) :
    c.unread = (bytesIn gs).length + (bytesIn rest).length := by
  rw [unread, ← h, bytesIn_append, List.length_append]

theorem next_end (h : c.skip.rest = []) : c.next = (⟨c.skip.ending, false⟩, c.skip) := by
  simp only [next, read, h]

/-- At the end of a program that was read to its end, and only there, the end is given. -/
theorem kind_next_eq_eof (hbroken : c.broken = false) :
    c.next.1.token.kind = .eof ↔ c.skip.rest = [] := by
  constructor
  · intro heof
    by_contra hrest
    rcases regular_of_rest hrest with hinvalid | hregular
    · cases heof.symm.trans hinvalid
    · exact hregular.kind_ne.2 heof
  · intro hrest
    have hskip : c.skip.broken = false := hbroken
    rw [next_end hrest, ending, if_neg (by simp [hskip])]

/-- A call takes a stretch off the front of the text, and not an empty one but at the end. -/
theorem exists_rest_next (c : Cursor) :
    ∃ gs, gs ++ c.next.2.rest = c.rest ∧ (c.skip.rest ≠ [] → gs ≠ []) := by
  have hskip : (trivia false c.rest).1 ++ c.skip.rest = c.rest := trivia_append false c.rest
  cases hrest : c.skip.rest with
  | nil => exact ⟨(trivia false c.rest).1, by rwa [next_end hrest], fun h => absurd rfl h⟩
  | cons g gs =>
    have happend := Lexeme.scan_append c.skip.broken g gs
    refine ⟨(trivia false c.rest).1 ++ (Lexeme.scan c.skip.broken g gs).glyphs, ?_, fun _ => ?_⟩
    · rw [next, read_cons hrest, List.append_assoc]
      rw [hrest, ← happend] at hskip
      exact hskip
    · simp [Lexeme.scan_ne_nil]

end Cursor

theorem length_le_bytesIn {gs : List Glyph} (hgs : ∀ g ∈ gs, g.Spelled) :
    gs.length ≤ (bytesIn gs).length := by
  induction gs with
  | nil => simp
  | cons g gs ih =>
    rw [List.forall_mem_cons] at hgs
    have hraw := List.length_pos_iff.mpr hgs.1.raw_ne_nil
    have htail := ih hgs.2
    rw [bytesIn_cons, List.length_append, List.length_cons]
    omega

/-! ## One call -/

namespace Scanner

open Lexeme (number digits scan operator fraction)

variable {c : Cursor} {g : Glyph} {gs : List Glyph}

/-- A number is read in one step, or in two if it has a point. -/
theorem call_number (hg : isDigit g.char = true) :
    ∃ k, Call k ⟨.number, { c with rest := g :: gs }⟩ (c.give (number (g :: gs))).1
        ⟨.program, (c.give (number (g :: gs))).2⟩ ∧
      k ≤ (number (g :: gs)).glyphs.length := by
  have hdigits : 0 < (digits (g :: gs)).length := by simp [digits, hg]
  have hne : 0 < (number (g :: gs)).glyphs.length :=
    Nat.lt_of_lt_of_le hdigits (Lexeme.number_extends (g :: gs)).length_le
  cases hafter : Lexeme.afterDigits (g :: gs) with
  | nil =>
    refine ⟨1, .emits ?_, hne⟩
    simp only [step, hafter]
    rfl
  | cons p rest =>
    by_cases hpoint : p.char = '.'
    · have hmark : Lexeme.isExponentMark '.' = false := by decide
      have hnumber : number (g :: gs) =
          fraction (digits (g :: gs) ++ [p]) rest := by
        simp [number, hafter, hpoint, hmark]
      have hlength := (Lexeme.fraction_extends (digits (g :: gs) ++ [p]) rest).length_le
      rw [List.length_append, List.length_singleton] at hlength
      rw [hnumber]
      have hturn : step ⟨.number, { c with rest := g :: gs }⟩ =
          turn ⟨.number, c⟩ (.fraction (digits (g :: gs) ++ [p])) rest := by
        simp only [step, hafter, hpoint]
        rfl
      exact ⟨2, .turns hturn (.emits rfl), by omega⟩
    · refine ⟨1, .emits ?_, hne⟩
      simp only [step, hafter]
      rw [if_neg (by simpa using hpoint)]
      rfl

/-- From its mode on, a lexeme takes no more steps than it has glyphs. -/
theorem call_opening (c : Cursor) (g : Glyph) (gs : List Glyph) :
    ∃ k, Call k ⟨(opening g gs).1, { c with rest := (opening g gs).2 }⟩
        (c.give (scan c.broken g gs)).1 ⟨.program, (c.give (scan c.broken g gs)).2⟩ ∧
      k ≤ (scan c.broken g gs).glyphs.length := by
  by_cases hdigit : isDigit g.char = true
  · rw [opening, scan, if_pos hdigit, if_pos hdigit]
    exact call_number hdigit
  · have hemit : step ⟨(opening g gs).1, { c with rest := (opening g gs).2 }⟩ =
        emit ⟨(opening g gs).1, c⟩ (scan c.broken g gs) := by
      rw [opening, scan, if_neg hdigit, if_neg hdigit]
      split
      · rfl
      split
      · rfl
      split <;> rfl
    exact ⟨1, .emits hemit, List.length_pos_iff.mpr (Lexeme.scan_ne_nil c.broken g gs)⟩

/-- A lexeme takes one step more than it has glyphs at most. -/
theorem call_scan (hrest : c.rest = g :: gs) (hblank : isBlank g.char = false)
    (hcomment : beginsComment (g :: gs) = false) :
    ∃ k, Call k ⟨.program, c⟩ c.read.1 ⟨.program, c.read.2⟩ ∧
      k ≤ (scan c.broken g gs).glyphs.length + 1 := by
  rw [Cursor.read_cons hrest]
  by_cases hslash : g.char = '/'
  · have hscan : scan c.broken g gs = operator g gs := by
      have hdigit : isDigit '/' = false := by decide
      have hletter : isLetter '/' = false := by decide
      simp [scan, hslash, hdigit, hletter]
    refine ⟨1, .emits ?_, by omega⟩
    simp only [step, hrest, hblank, hcomment, hscan]
    rw [if_neg (by simp), if_pos (by simpa using hslash), if_neg (by simp)]
    rfl
  · obtain ⟨k, hcall, hk⟩ := call_opening c g gs
    refine ⟨k + 1, .turns ?_ hcall, by omega⟩
    simp only [step, hrest, hblank]
    rw [if_neg (by simp), if_neg (by simpa using hslash)]
    rfl

/-- A call at a cursor ends with the next token. It takes no more than two steps beyond the bytes
that it takes. -/
def Ends (c : Cursor) : Prop :=
  ∃ k, Call k ⟨.program, c⟩ c.next.1 ⟨c.next.1.mode, c.next.2⟩ ∧
    k + c.next.2.unread ≤ c.unread + 2

theorem ends_nil (hrest : c.rest = []) : Ends c := by
  obtain ⟨file, broken, line, col, rest⟩ := c
  subst hrest
  cases broken with
  | false => exact ⟨2, .turns rfl (.emits rfl), Nat.le_of_eq (Nat.add_comm _ _)⟩
  | true => exact ⟨2, .turns rfl (.emits rfl), Nat.le_of_eq (Nat.add_comm _ _)⟩

/-- A call ends if it does so behind what is left out first. -/
theorem Ends.skipping {gs rest : List Glyph} {i : Nat} (hsplit : gs ++ rest = c.rest)
    (htrivia : trivia false c.rest = (gs ++ (trivia false rest).1, (trivia false rest).2))
    (hi : i ≤ (bytesIn gs).length)
    (hsteps : ∀ {k t m}, Call k ⟨.program, c.advance gs rest⟩ t m → Call (k + i) ⟨.program, c⟩ t m)
    (h : Ends (c.advance gs rest)) : Ends c := by
  obtain ⟨k, hcall, hk⟩ := h
  have hnext : (c.advance gs rest).next = c.next := by
    rw [Cursor.next, Cursor.skip_advance htrivia, Cursor.next]
  have hall := Cursor.unread_eq hsplit
  have hleft : (c.advance gs rest).unread = (bytesIn rest).length := rfl
  rw [hnext] at hcall hk
  exact ⟨k + i, hsteps hcall, by omega⟩

theorem ends_lexeme (hc : ∀ g ∈ c.rest, g.Spelled) (hrest : c.rest = g :: gs)
    (hblank : isBlank g.char = false) (hcomment : beginsComment (g :: gs) = false) : Ends c := by
  have hskip : c.skip = c := by
    refine Cursor.skip_eq_self ?_
    rw [hrest]
    exact trivia_lexeme hblank hcomment
  obtain ⟨k, hcall, hk⟩ := call_scan hrest hblank hcomment
  have hmode : c.read.1.mode = .program := by
    refine if_neg fun heof => ?_
    rcases Cursor.regular_of_rest (c := c) (by simp [hrest]) with hinvalid | hregular
    · cases heof.symm.trans hinvalid
    · exact hregular.kind_ne.2 heof
  have happend := Lexeme.scan_append c.broken g gs
  have hbytes := length_le_bytesIn fun h hh =>
    hc h (by rw [hrest, ← happend]; exact List.mem_append_left _ hh)
  have hall := Cursor.unread_eq (happend.trans hrest.symm)
  have hleft : c.read.2.unread = (bytesIn (scan c.broken g gs).rest).length := by
    rw [Cursor.read_cons hrest]
    rfl
  rw [Ends, Cursor.next, hskip, hmode]
  exact ⟨k, hcall, by omega⟩

theorem ends_blank (hc : ∀ g ∈ c.rest, g.Spelled) (hrest : c.rest = g :: gs)
    (hblank : isBlank g.char = true) (h : Ends (c.advance [g] gs)) : Ends c := by
  have hraw := List.length_pos_iff.mpr (hc g (hrest ▸ List.mem_cons_self)).raw_ne_nil
  refine .skipping (i := 1) hrest.symm ?_ ?_ (fun hcall => .turns ?_ hcall) h
  · have hall : ∀ k ∈ [g], isBlank k.char = true := by simpa using hblank
    rw [hrest]
    exact trivia_blanks hall gs
  · rw [bytesIn_cons, bytesIn_nil, List.append_nil]
    exact hraw
  · simp only [step, hrest, hblank]
    rfl

/-- A comment takes two steps, one for each slash. -/
theorem ends_comment (hc : ∀ g ∈ c.rest, g.Spelled) (hrest : c.rest = g :: gs)
    (hcomment : beginsComment (g :: gs) = true)
    (h : Ends (c.advance (restOfLine (g :: gs)).1 (restOfLine (g :: gs)).2)) : Ends c := by
  have hslash : g.char = '/' := by
    cases gs with
    | nil => cases hcomment
    | cons k gs =>
      rw [beginsComment, Bool.and_eq_true] at hcomment
      simpa using hcomment.1
  have hline : restOfLine (g :: gs) = (g :: (restOfLine gs).1, (restOfLine gs).2) := by
    simp [restOfLine, hslash]
  obtain ⟨line, ending, hbytes, -⟩ :=
    fits_comment (s := ⟨c.file, [], false⟩) (hrest ▸ hc) hcomment []
  have hturn : step ⟨.program, c⟩ = turn ⟨.program, c⟩ (.comment g) gs := by
    have hblank : isBlank '/' = false := by decide
    simp only [step, hrest, hslash, hblank, hcomment]
    rfl
  refine .skipping (i := 2) ((restOfLine_append _).trans hrest.symm) ?_ ?_
    (fun hcall => .turns hturn (.turns ?_ hcall)) h
  · rw [hrest]
    exact trivia_comment hcomment
  · rw [hbytes, List.length_cons, List.length_cons]
    omega
  · rw [hline]
    rfl

/-- **A call ends**, wherever it is made. -/
theorem exists_call (c : Cursor) (hc : ∀ g ∈ c.rest, g.Spelled) : Ends c := by
  induction hlength : c.rest.length using Nat.strongRecOn generalizing c with
  | ind n ih =>
    cases hrest : c.rest with
    | nil => exact ends_nil hrest
    | cons g gs =>
      have hbehind {front rest : List Glyph} (hsplit : front ++ rest = c.rest)
          (hne : front ≠ []) : Ends (c.advance front rest) := by
        have hpos := List.length_pos_iff.mpr hne
        have hshort := congrArg List.length hsplit
        rw [List.length_append, hlength] at hshort
        refine ih rest.length (by omega) _ (fun h hh => hc h ?_) rfl
        rw [← hsplit]
        exact List.mem_append_right front hh
      cases hblank : isBlank g.char with
      | true => exact ends_blank hc hrest hblank (hbehind hrest.symm (by simp))
      | false =>
        cases hcomment : beginsComment (g :: gs) with
        | true =>
          refine ends_comment hc hrest hcomment (hbehind ?_ (restOfLine_ne_nil g gs))
          rw [hrest, restOfLine_append]
        | false => exact ends_lexeme hc hrest hblank hcomment

end Scanner

/-! ## Call after call -/

namespace Source

/-- The cursor after some calls. -/
def cursorAfter (s : Source) : Nat → Cursor
  | 0 => Cursor.start s
  | n + 1 => (cursorAfter s n).next.2

/-- The token that a call gives; the first call is number zero. -/
def call (s : Source) (n : Nat) : Lexed :=
  (s.cursorAfter n).next.1

/-- The lexer after some calls. -/
def scannerAfter (s : Source) : Nat → Scanner
  | 0 => ⟨.program, s.cursorAfter 0⟩
  | n + 1 => ⟨(s.call n).mode, s.cursorAfter (n + 1)⟩

/-- The lexer makes progress: every call ends after a number of steps that the bytes it takes bound;
every call takes a byte unless it gives the end; and the end is given after one call for each byte
at the latest, and from then on for ever. These calls give the tokens of the program. -/
structure Progresses (s : Source) : Prop where
  starts : (s.cursorAfter 0).unread = s.bytes.length
  calls : ∀ n, ∃ k, (s.scannerAfter n).Call k (s.call n) (s.scannerAfter (n + 1)) ∧
    k + (s.cursorAfter (n + 1)).unread ≤ (s.cursorAfter n).unread + 2
  takes : ∀ n, (s.call n).token.kind ≠ .eof →
    (s.cursorAfter (n + 1)).unread < (s.cursorAfter n).unread
  ends : ∃ n ≤ s.bytes.length, (∀ i, (s.call i).token.kind = .eof ↔ n ≤ i) ∧
    (∀ i, n ≤ i → s.call i = s.call n) ∧
    ∀ extra, (Cursor.start s).allTokens extra = (List.range (n + 1 + extra)).map s.call

variable {s : Source}

theorem broken_cursorAfter (s : Source) (n : Nat) : (s.cursorAfter n).broken = s.broken := by
  have hread (c : Cursor) : c.read.2.broken = c.broken := by
    unfold Cursor.read
    split <;> rfl
  induction n with
  | zero => rfl
  | succ n ih => exact (hread _).trans ih

theorem spelled_cursorAfter (s : Source) (n : Nat) : ∀ g ∈ (s.cursorAfter n).rest, g.Spelled := by
  induction n with
  | zero => exact spelled_glyphs s.bytes
  | succ n ih =>
    obtain ⟨gs, hsplit, -⟩ := (s.cursorAfter n).exists_rest_next
    intro g hg
    refine ih g ?_
    rw [← hsplit]
    exact List.mem_append_right gs hg

theorem unread_start (s : Source) : (s.cursorAfter 0).unread = s.bytes.length :=
  congrArg List.length (flatMap_raw_glyphs s.bytes)

variable (hs : s.broken = false)
include hs

theorem call_eof_iff (n : Nat) : (s.call n).token.kind = .eof ↔ (s.cursorAfter n).skip.rest = [] :=
  Cursor.kind_next_eq_eof ((s.broken_cursorAfter n).trans hs)

/-- A call that does not give the end takes a byte. -/
theorem unread_lt {n : Nat} (h : (s.call n).token.kind ≠ .eof) :
    (s.cursorAfter (n + 1)).unread < (s.cursorAfter n).unread := by
  obtain ⟨gs, hsplit, hne⟩ := (s.cursorAfter n).exists_rest_next
  have hgs : ∀ g ∈ gs, g.Spelled := fun g hg =>
    s.spelled_cursorAfter n g (hsplit ▸ List.mem_append_left _ hg)
  have hpos := List.length_pos_iff.mpr (hne (mt (call_eof_iff hs n).mpr h))
  have hbytes := length_le_bytesIn hgs
  have hall := Cursor.unread_eq hsplit
  have hleft : (s.cursorAfter (n + 1)).unread =
    (bytesIn (s.cursorAfter n).next.2.rest).length := rfl
  omega

/-- Behind the end, the lexer stays where it is and gives the end again. -/
theorem next_of_eof {n : Nat} (h : (s.call n).token.kind = .eof) :
    s.call n = ⟨(s.cursorAfter (n + 1)).ending, false⟩ ∧
      (s.cursorAfter (n + 1)).next =
        (⟨(s.cursorAfter (n + 1)).ending, false⟩, s.cursorAfter (n + 1)) := by
  have hrest := (call_eof_iff hs n).mp h
  have hnext := Cursor.next_end hrest
  have hcursor : s.cursorAfter (n + 1) = (s.cursorAfter n).skip := by rw [cursorAfter, hnext]
  have hskip : (s.cursorAfter (n + 1)).skip = s.cursorAfter (n + 1) := by
    refine Cursor.skip_eq_self ?_
    rw [hcursor, hrest]
    rfl
  have hagain := Cursor.next_end (c := s.cursorAfter (n + 1)) (by rw [hskip, hcursor, hrest])
  rw [hskip] at hagain
  exact ⟨by rw [call, hnext, hcursor], hagain⟩

/-- The end stays the end. -/
theorem call_of_le {n i : Nat} (h : (s.call n).token.kind = .eof)
    (hle : n ≤ i) : s.call i = s.call n := by
  induction i, hle using Nat.le_induction with
  | base => rfl
  | succ i _ ih =>
    obtain ⟨hcall, hnext⟩ := next_of_eof hs (n := i) (by rw [ih, h])
    rw [← ih, hcall, call, hnext]

theorem exists_calls (n : Nat) :
    ∃ k, (s.scannerAfter n).Call k (s.call n) (s.scannerAfter (n + 1)) ∧
      k + (s.cursorAfter (n + 1)).unread ≤ (s.cursorAfter n).unread + 2 := by
  have hprogram (h : s.scannerAfter n = ⟨.program, s.cursorAfter n⟩) :
      ∃ k, (s.scannerAfter n).Call k (s.call n) (s.scannerAfter (n + 1)) ∧
        k + (s.cursorAfter (n + 1)).unread ≤ (s.cursorAfter n).unread + 2 := by
    rw [h]
    exact Scanner.exists_call _ (s.spelled_cursorAfter n)
  cases n with
  | zero => exact hprogram rfl
  | succ n =>
    by_cases heof : (s.call n).token.kind = .eof
    · obtain ⟨-, hnext⟩ := next_of_eof hs heof
      have hcursor : s.cursorAfter (n + 2) = s.cursorAfter (n + 1) := by
        rw [cursorAfter, hnext]
      have hmode {i : Nat} (h : (s.call i).token.kind = .eof) :
          s.scannerAfter (i + 1) = ⟨.ending, s.cursorAfter (i + 1)⟩ := by
        rw [scannerAfter, Lexed.mode, if_pos h]
      have hagain : (s.call (n + 1)).token.kind = .eof := by
        rw [call_of_le hs heof n.le_succ, heof]
      rw [hmode heof, hmode hagain, hcursor, call, hnext]
      exact ⟨1, .emits rfl, by omega⟩
    · refine hprogram ?_
      rw [scannerAfter, Lexed.mode, if_neg heof]

/-- Every call before the end has taken a byte. -/
theorem unread_add_le {n : Nat} (h : ∀ i < n, (s.call i).token.kind ≠ .eof) :
    (s.cursorAfter n).unread + n ≤ s.bytes.length := by
  induction n with
  | zero => exact Nat.le_of_eq s.unread_start
  | succ n ih =>
    have hlt := unread_lt hs (h n n.lt_succ_self)
    have hle := ih fun i hi => h i (Nat.lt_succ_of_lt hi)
    omega

/-- There is a first call that gives the end. -/
theorem exists_first_eof :
    ∃ n ≤ s.bytes.length, (s.call n).token.kind = .eof ∧
      ∀ i < n, (s.call i).token.kind ≠ .eof := by
  have hsome : ∃ n, (s.call n).token.kind = .eof := by
    by_contra hnone
    have hle := unread_add_le hs (n := s.bytes.length + 1) fun i _ heof => hnone ⟨i, heof⟩
    omega
  refine ⟨Nat.find hsome, ?_, Nat.find_spec hsome, fun i hi => Nat.find_min hsome hi⟩
  have hle := unread_add_le hs fun i hi => Nat.find_min hsome hi
  omega

/-- From any call before the end on, the tokens are those that the calls give. -/
theorem allTokens_cursorAfter {n : Nat}
    (heof : (s.call n).token.kind = .eof) (hbefore : ∀ i < n, (s.call i).token.kind ≠ .eof)
    (extra : Nat) {d : Nat} (hd : d ≤ n) :
    (s.cursorAfter (n - d)).allTokens extra =
      (List.range' (n - d) (d + 1 + extra)).map s.call := by
  induction d with
  | zero =>
    have hsame : ∀ t ∈ (List.range' n (extra + 1)).map s.call, t = s.call n := by
      intro t ht
      obtain ⟨i, hi, rfl⟩ := List.mem_map.mp ht
      exact call_of_le hs heof (List.mem_range'_1.mp hi).1
    rw [Nat.sub_zero, Cursor.allTokens, if_pos ((call_eof_iff hs n).mp heof),
      show 0 + 1 + extra = extra + 1 by omega]
    symm
    rw [List.eq_replicate_iff]
    exact ⟨by simp, hsame⟩
  | succ d ih =>
    have hlater := ih (by omega)
    have hrest := mt (call_eof_iff hs (n - (d + 1))).mpr (hbefore _ (by omega))
    have hstep : n - d = n - (d + 1) + 1 := by omega
    rw [Cursor.allTokens, if_neg hrest, show d + 1 + 1 + extra = d + 1 + extra + 1 by omega,
      List.range'_succ, List.map_cons, ← hstep, ← hlater, hstep]
    rfl

end Source

/-- **The lexer always makes progress.** Whatever the bytes of a program that is read to its end. -/
theorem lexer_always_progresses (file : String) (bytes : List UInt8) :
    Source.Progresses ⟨file, bytes, false⟩ := by
  obtain ⟨n, hle, heof, hbefore⟩ :=
    Source.exists_first_eof (s := ⟨file, bytes, false⟩) rfl
  refine ⟨Source.unread_start _, Source.exists_calls rfl, fun n => Source.unread_lt rfl,
    n, hle, fun i => ⟨fun hi => ?_, fun hi => ?_⟩, fun i => Source.call_of_le rfl heof,
    fun extra => ?_⟩
  · exact Nat.le_of_not_lt fun hlt => hbefore i hlt hi
  · rw [Source.call_of_le rfl heof hi, heof]
  · have hall := Source.allTokens_cursorAfter rfl heof hbefore extra (Nat.le_refl n)
    rw [Nat.sub_self] at hall
    rw [List.range_eq_range']
    exact hall

end TinyC
