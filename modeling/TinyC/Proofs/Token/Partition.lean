import TinyC.Token.Stream

/-!
# Every byte has its lexeme, and every token its place

A program is a row of pieces: runs of white space, comments, and lexemes, each of which is a token
or stands for an `invalid` one. `Source.Splits` says that the pieces make up the program, byte for
byte, and that each of them stands where it is said to stand. Places are told from the bytes
alone: the line is the number of line ends in front, the column the distance from the last of them.

A cursor is *exact* if its line and column are those of the bytes in front of it (`Cursor.behind`).
Whatever glyphs a cursor is moved over, it stays exact (`Cursor.advance_behind`), because a line end
is one byte that is part of no other glyph (`Glyph.Spelled`). This is all that positions rest on.
The one lexeme that can reach over a line end is a character literal with the line end for its
character (`Lexeme.lines_scan`).
-/

namespace TinyC

variable {gs : List Glyph}

open Text (Glyph isBlank isDigit isLetter)

namespace Text

/-! ## Glyphs and their bytes -/

/-- The bytes of a stretch of text. -/
def bytesIn (gs : List Glyph) : List UInt8 :=
  gs.flatMap Glyph.raw

@[simp] theorem bytesIn_nil : bytesIn [] = [] := rfl

@[simp] theorem bytesIn_cons (g : Glyph) (gs : List Glyph) :
    bytesIn (g :: gs) = g.raw ++ bytesIn gs := List.flatMap_cons

@[simp] theorem bytesIn_append (gs hs : List Glyph) :
    bytesIn (gs ++ hs) = bytesIn gs ++ bytesIn hs := List.flatMap_append

/-- How glyphs are spelled: a character of ASCII by its own byte, all others by bytes that are not
ASCII. -/
inductive Glyph.Spelled : Glyph → Prop
  | ascii {a : UInt8} (h : a < 0x80) : Spelled ⟨Char.ofNat a.toNat, [a]⟩
  | wide {c : Char} {raw : List UInt8} (hc : 0x80 ≤ c.toNat) (hne : raw ≠ [])
      (hraw : ∀ b ∈ raw, 0x80 ≤ b) : Spelled ⟨c, raw⟩

theorem toNat_ofNat {n : Nat} (h : n.isValidChar) : (Char.ofNat n).toNat = n := by
  rw [Char.ofNat, dif_pos h]
  rfl

/-- Sequences of more than one byte have no byte of ASCII and spell no character of it. -/
theorem sequence?_wide {a : UInt8} {rest : List UInt8} {c : Char} {n : Nat} (ha : ¬a < 0x80)
    (h : sequence? a rest = some (c, n)) : 0x80 ≤ c.toNat ∧ ∀ b ∈ a :: rest.take n, 0x80 ≤ b := by
  have hscalar {least k m : Nat} (hleast : 0x80 ≤ least)
      (h : (scalar? least k).map (·, m) = some (c, n)) : n = m ∧ 0x80 ≤ c.toNat := by
    obtain ⟨d, hd, heq⟩ := Option.map_eq_some_iff.mp h
    cases heq
    unfold scalar? at hd
    split at hd
    · rename_i hk
      cases hd
      refine ⟨rfl, ?_⟩
      rw [toNat_ofNat hk.2]
      omega
    · cases hd
  have hlead : 0x80 ≤ a := UInt8.not_lt.mp ha
  have htail {b : UInt8} (hb : isTail b = true) : 0x80 ≤ b := by
    simp only [isTail, Bool.and_eq_true, decide_eq_true_eq] at hb
    exact hb.1
  unfold sequence? at h
  rw [if_neg ha] at h
  split at h
  · split at h
    · split at h
      · rename_i hb
        obtain ⟨rfl, hc⟩ := hscalar (by decide) h
        refine ⟨hc, ?_⟩
        simp only [List.take_succ_cons, List.take_zero, List.mem_cons, List.not_mem_nil, or_false]
        rintro b (rfl | rfl)
        · exact hlead
        · exact htail hb
      · cases h
    · cases h
  · split at h
    · split at h
      · split at h
        · rename_i hbc
          rw [Bool.and_eq_true] at hbc
          obtain ⟨rfl, hc⟩ := hscalar (by decide) h
          refine ⟨hc, ?_⟩
          simp only [List.take_succ_cons, List.take_zero, List.mem_cons, List.not_mem_nil, or_false]
          rintro b (rfl | rfl | rfl)
          · exact hlead
          · exact htail hbc.1
          · exact htail hbc.2
        · cases h
      · cases h
    · split at h
      · split at h
        · split at h
          · rename_i hbcd
            rw [Bool.and_eq_true, Bool.and_eq_true] at hbcd
            obtain ⟨rfl, hc⟩ := hscalar (by decide) h
            refine ⟨hc, ?_⟩
            simp only [List.take_succ_cons, List.take_zero, List.mem_cons, List.not_mem_nil,
              or_false]
            rintro b (rfl | rfl | rfl | rfl)
            · exact hlead
            · exact htail hbcd.1.1
            · exact htail hbcd.1.2
            · exact htail hbcd.2
          · cases h
        · cases h
      · cases h

theorem spelled_first (a : UInt8) (rest : List UInt8) : (Glyph.first a rest).1.Spelled := by
  unfold Glyph.first
  by_cases ha : a < 0x80
  · have hseq : sequence? a rest = some (Char.ofNat a.toNat, 0) := by
      unfold sequence?
      rw [if_pos ha]
    rw [hseq]
    exact .ascii ha
  · split
    · rename_i c n hseq
      obtain ⟨hc, hraw⟩ := sequence?_wide ha hseq
      exact .wide hc (by simp) hraw
    · exact .wide (by decide) (by simp) (by simpa using UInt8.not_lt.mp ha)

/-- All glyphs of a text are spelled so. -/
theorem spelled_glyphs (bs : List UInt8) : ∀ g ∈ glyphs bs, g.Spelled := by
  fun_induction glyphs bs with
  | case1 => simp
  | case2 a rest ih =>
    intro g hg
    rcases List.mem_cons.mp hg with rfl | hg
    · exact spelled_first a rest
    · exact ih g hg

namespace Glyph.Spelled

variable {g : Glyph}

theorem raw_ne_nil (h : g.Spelled) : g.raw ≠ [] := by
  cases h with
  | ascii => simp
  | wide _ hne => exact hne

/-- A byte of ASCII is the whole of its character. -/
theorem raw_eq {a : UInt8} (h : g.Spelled) (ha : a < 0x80) (hchar : g.char = Char.ofNat a.toNat) :
    g.raw = [a] := by
  have hvalid {b : UInt8} (hb : b < 0x80) : (Char.ofNat b.toNat).toNat = b.toNat := by
    have hlt : b.toNat < 128 := hb
    exact toNat_ofNat (.inl (by omega))
  cases h with
  | @ascii b hb =>
    have heq := congrArg Char.toNat hchar
    rw [hvalid hb, hvalid ha] at heq
    exact congrArg (fun x => [x]) (UInt8.toNat_inj.mp heq)
  | wide hc =>
    have hlt : a.toNat < 128 := ha
    dsimp only at hchar
    rw [hchar, hvalid ha] at hc
    omega

/-- A byte of ASCII is part of no other character. -/
theorem char_eq {a : UInt8} (h : g.Spelled) (ha : a < 0x80) (hmem : a ∈ g.raw) :
    g.char = Char.ofNat a.toNat := by
  cases h with
  | ascii => rw [List.mem_singleton.mp hmem]
  | wide _ _ hraw => exact absurd ha (UInt8.not_lt.mpr (hraw a hmem))

end Glyph.Spelled

end Text

open Text

/-! ## Places -/

/-- The number of line ends in some bytes. -/
def lineEnds (bs : List UInt8) : Nat :=
  bs.count 10

/-- The number of bytes behind the last line end. -/
def column (bs : List UInt8) : Nat :=
  (bs.reverse.takeWhile (· != 10)).length

section

variable {before cs : List UInt8}

theorem lineEnds_append (h : 10 ∉ cs) : lineEnds (before ++ cs) = lineEnds before := by
  simp [lineEnds, List.count_eq_zero_of_not_mem h]

theorem column_append (h : 10 ∉ cs) : column (before ++ cs) = column before + cs.length := by
  have hall : ∀ b ∈ cs.reverse, (b != 10) = true := by
    intro b hb
    rw [bne_iff_ne]
    rintro rfl
    exact h (List.mem_reverse.mp hb)
  rw [column, List.reverse_append, List.takeWhile_append_of_pos hall, List.length_append,
    List.length_reverse, column]
  omega

end

namespace Cursor

/-- The cursor behind some bytes of a program, with the text that is left. -/
def behind (s : Source) (before : List UInt8) (rest : List Glyph) : Cursor :=
  ⟨s.file, s.broken, lineEnds before, column before, rest⟩

variable {s : Source} {before : List UInt8} {gs rest : List Glyph}

theorem past_behind {g : Glyph} (hg : g.Spelled) :
    past (lineEnds before, column before) g =
      (lineEnds (before ++ g.raw), column (before ++ g.raw)) := by
  unfold past
  by_cases hline : g.char = '\n'
  · have hraw : g.raw = [10] := hg.raw_eq (by decide) hline
    rw [if_pos (by simpa using hline), hraw]
    simp [lineEnds, column]
  · have hraw : 10 ∉ g.raw := fun hmem => hline (hg.char_eq (by decide) hmem)
    rw [if_neg (by simpa using hline), lineEnds_append hraw, column_append hraw]
    rfl

theorem foldl_past (hgs : ∀ g ∈ gs, g.Spelled) :
    gs.foldl past (lineEnds before, column before) =
      (lineEnds (before ++ bytesIn gs), column (before ++ bytesIn gs)) := by
  induction gs generalizing before with
  | nil => simp
  | cons g gs ih =>
    rw [List.foldl_cons, past_behind (hgs g List.mem_cons_self),
      ih fun h hh => hgs h (List.mem_cons_of_mem g hh), bytesIn_cons, List.append_assoc]

/-- A cursor stays exact, whatever it is moved over. -/
theorem advance_behind (hgs : ∀ g ∈ gs, g.Spelled) (front : List Glyph) :
    (behind s before front).advance gs rest = behind s (before ++ bytesIn gs) rest := by
  simp only [advance, behind, foldl_past hgs]

end Cursor

/-! ## White space and comments -/

/-- The rest of a line with its end, and the text behind it. -/
def restOfLine : List Glyph → List Glyph × List Glyph
  | [] => ([], [])
  | g :: gs =>
    if g.char == '\n' then ([g], gs) else (g :: (restOfLine gs).1, (restOfLine gs).2)

theorem restOfLine_append (gs : List Glyph) : (restOfLine gs).1 ++ (restOfLine gs).2 = gs := by
  fun_induction restOfLine gs <;> simp_all

theorem restOfLine_ne_nil (g : Glyph) (gs : List Glyph) : (restOfLine (g :: gs)).1 ≠ [] := by
  unfold restOfLine
  split <;> simp

/-- A comment is skipped to the end of its line. -/
theorem trivia_true (gs : List Glyph) :
    trivia true gs =
      ((restOfLine gs).1 ++ (trivia false (restOfLine gs).2).1, (trivia false (restOfLine gs).2).2)
    := by
  fun_induction restOfLine gs with
  | case1 => rfl
  | case2 g gs hline => simp [trivia, show g.char = '\n' by simpa using hline]
  | case3 g gs hline ih =>
    have hother : (g.char != '\n') = true := by simpa using hline
    simp [trivia, hother, ih]

/-- The rest of a line has one line end at most, as its last byte. Without one it is the rest of the
text. -/
theorem bytesIn_restOfLine (hgs : ∀ g ∈ gs, g.Spelled) :
    ∃ line ending, bytesIn (restOfLine gs).1 = line ++ ending ∧ 10 ∉ line ∧
      (ending = [10] ∨ ending = [] ∧ (restOfLine gs).2 = []) := by
  fun_induction restOfLine gs with
  | case1 => exact ⟨[], [], rfl, List.not_mem_nil, .inr ⟨rfl, rfl⟩⟩
  | case2 g gs hline =>
    have hraw : g.raw = [10] :=
      (hgs g List.mem_cons_self).raw_eq (by decide) (by simpa using hline)
    exact ⟨[], [10], by simp [hraw], List.not_mem_nil, .inl rfl⟩
  | case3 g gs hline ih =>
    obtain ⟨line, ending, hbytes, hnone, hending⟩ :=
      ih fun h hh => hgs h (List.mem_cons_of_mem g hh)
    refine ⟨g.raw ++ line, ending, by rw [bytesIn_cons, hbytes, List.append_assoc], ?_, hending⟩
    rw [List.mem_append, not_or]
    refine ⟨fun hmem => ?_, hnone⟩
    have hchar := (hgs g List.mem_cons_self).char_eq (by decide) hmem
    simp [hchar] at hline

/-- White space is skipped. -/
theorem trivia_blanks (hgs : ∀ g ∈ gs, isBlank g.char = true) (rest : List Glyph) :
    trivia false (gs ++ rest) = (gs ++ (trivia false rest).1, (trivia false rest).2) := by
  induction gs with
  | nil => rfl
  | cons g gs ih =>
    rw [List.cons_append, trivia, if_neg (by simp), if_pos (hgs g List.mem_cons_self),
      ih fun h hh => hgs h (List.mem_cons_of_mem g hh)]
    rfl

/-- Two slashes begin a comment. -/
def beginsComment : List Glyph → Bool
  | g :: h :: _ => g.char == '/' && h.char == '/'
  | _ => false

theorem trivia_comment (h : beginsComment gs = true) :
    trivia false gs =
      ((restOfLine gs).1 ++ (trivia false (restOfLine gs).2).1,
        (trivia false (restOfLine gs).2).2) := by
  match gs, h with
  | g :: k :: gs, h =>
    simp only [beginsComment, Bool.and_eq_true, beq_iff_eq] at h
    have hblank : isBlank '/' = false := by decide
    rw [trivia, if_neg (by simp), if_neg (by simp [h.1, hblank]), if_pos (by simp [h.1, h.2]),
      trivia_true, restOfLine.eq_def (g :: k :: gs)]
    simp [h.1]

/-- Everything else is not skipped. -/
theorem trivia_lexeme {g : Glyph} (hblank : isBlank g.char = false)
    (hcomment : beginsComment (g :: gs) = false) : trivia false (g :: gs) = ([], g :: gs) := by
  rw [trivia, if_neg (by simp), if_neg (by simp [hblank]), if_neg]
  cases gs with
  | nil => simp
  | cons h gs => simpa [beginsComment] using hcomment

namespace Cursor

variable {s : Source} {before : List UInt8} {gs rest : List Glyph} {c : Cursor}

/-- What is skipped first makes no difference to the cursor behind all that is skipped. -/
theorem skip_advance
    (h : trivia false c.rest = (gs ++ (trivia false rest).1, (trivia false rest).2)) :
    (c.advance gs rest).skip = c.skip := by
  unfold skip
  rw [h, rest_advance]
  simp only [advance, List.foldl_append]

theorem skip_behind (hgs : ∀ g ∈ gs, g.Spelled)
    (h : trivia false (gs ++ rest) = (gs ++ (trivia false rest).1, (trivia false rest).2)) :
    (behind s before (gs ++ rest)).skip = (behind s (before ++ bytesIn gs) rest).skip := by
  rw [← advance_behind hgs (gs ++ rest)]
  exact (skip_advance h).symm

/-- Where nothing is to be skipped, the cursor stays. -/
theorem skip_eq_self (h : trivia false c.rest = ([], c.rest)) : c.skip = c := by
  unfold skip
  rw [h]
  rfl

/-- The token of a lexeme at the cursor, and the cursor behind it. -/
def give (c : Cursor) (l : Lexeme) : Lexed × Cursor :=
  (⟨tokenOf l (c.span (c.advance l.glyphs l.rest)), l.probed && l.rest.isEmpty && c.broken⟩,
    c.advance l.glyphs l.rest)

theorem read_cons {g : Glyph} {gs : List Glyph} (h : c.rest = g :: gs) :
    c.read = c.give (Lexeme.scan c.broken g gs) := by
  simp only [read, h, give]

/-- The tokens from a cursor on are those behind what it skips. -/
theorem allTokens_congr {c d : Cursor} (h : c.skip = d.skip) (extra : Nat) :
    c.allTokens extra = d.allTokens extra := by
  rw [allTokens.eq_def c, allTokens.eq_def d]
  simp only [next, h]

end Cursor

/-! ## Lexemes and line ends -/

namespace Lexeme

/-- A lexeme over a line end: a character literal with the line end for its character, complete or
not. -/
inductive OverLine (l : Lexeme) : Prop
  | closed {q n r : Glyph} {v : Value} (hq : q.char = '\'') (hn : n.char = '\n')
      (hr : r.char = '\'') (hglyphs : l.glyphs = [q, n, r])
      (hreading : l.reading = .ok (.charLiteral, v))
  | unclosed {q n : Glyph} {f : Flaw} (hq : q.char = '\'') (hn : n.char = '\n')
      (hglyphs : l.glyphs = [q, n]) (hreading : l.reading = .error f)

/-- Only a character literal reaches over a line end. -/
theorem lines_scan (broken : Bool) {g : Glyph} (hg : g.char ≠ '\n') (gs : List Glyph) :
    Inline (scan broken g gs).glyphs ∨ (scan broken g gs).OverLine := by
  rcases scan_extends broken g gs with h | ⟨hq, n, rest, hn, -, hscan⟩
  · exact .inl (h.inline (inline_cons hg inline_nil))
  · right
    rw [hscan]
    unfold closeChar
    split
    · split
      · rename_i r _ hr
        exact .closed hq hn (by simpa using hr) rfl rfl
      · exact .unclosed hq hn rfl rfl
    · exact .unclosed hq hn rfl rfl

end Lexeme

/-! ## Pieces -/

/-- A piece of a program. -/
inductive Piece where
  | blanks (gs : List Glyph)
  | comment (gs : List Glyph)
  /-- A lexeme, and the token that it is; the token may be `invalid`. -/
  | lexeme (gs : List Glyph) (t : Lexed)

namespace Piece

/-- The glyphs of a piece. -/
def glyphs : Piece → List Glyph
  | blanks gs | comment gs | lexeme gs _ => gs

/-- The bytes of a piece. -/
def bytes (p : Piece) : List UInt8 :=
  bytesIn p.glyphs

/-- The token of a piece. -/
def token? : Piece → Option Lexed
  | blanks _ | comment _ => none
  | lexeme _ t => some t

end Piece

/-- The token of a lexeme `bs` that stands behind the bytes `before` has its place: the line, the
column of the first byte and that of the last one. Only a character literal, complete or not, can
hold a line end, as its character. -/
structure Token.Placed (file : String) (before bs : List UInt8) (t : Token) : Prop where
  onLine : 10 ∉ bs →
    t.pos = ⟨file, lineEnds before, column before, (column before : Int) + bs.length - 1⟩
  overLine : 10 ∈ bs →
    (bs = [39, 10] ∧ t.kind = .invalid) ∨ (bs = [39, 10, 39] ∧ t.kind = .charLiteral)

/-- The piece stands behind the bytes `before` of a program and in front of the text `after`. A run
of white space is as long as can be, and a comment goes from two slashes to the end of its line. A
lexeme is what is read at the exact place, and the exact place is where reading goes on. -/
def Piece.Fits (s : Source) (before : List UInt8) (after : List Glyph) : Piece → Prop
  | blanks gs => gs ≠ [] ∧ (∀ g ∈ gs, isBlank g.char = true) ∧
    ∀ g, after.head? = some g → isBlank g.char = false
  | comment gs => ∃ line ending, bytesIn gs = 47 :: 47 :: (line ++ ending) ∧ 10 ∉ line ∧
    (ending = [10] ∨ ending = [] ∧ after = [])
  | lexeme gs t => gs ≠ [] ∧
    (Cursor.behind s before (gs ++ after)).read =
      (t, Cursor.behind s (before ++ bytesIn gs) after) ∧
    t.token.Placed s.file before (bytesIn gs)

/-- Pieces stand one behind the other, from the bytes `before` on. -/
def Piece.InRow (s : Source) : List UInt8 → List Piece → Prop
  | _, [] => True
  | before, p :: ps =>
    p.Fits s before (ps.flatMap Piece.glyphs) ∧ InRow s (before ++ p.bytes) ps

/-- The pieces make up the program: every byte is in one of them, in order; each stands in its
place; and their tokens are those of the program, up to the end. -/
structure Source.Splits (s : Source) (ps : List Piece) : Prop where
  bytes : ps.flatMap Piece.bytes = s.bytes
  glyphs : ps.flatMap Piece.glyphs = Text.glyphs s.bytes
  inRow : Piece.InRow s [] ps
  tokens : ∃ last, (Cursor.start s).allTokens 0 = ps.filterMap Piece.token? ++ [last] ∧
    (s.broken = false → last.token =
      ⟨.eof, "", .none, ⟨s.file, lineEnds s.bytes, column s.bytes, column s.bytes⟩⟩)

section

variable {s : Source} {before : List UInt8} {gs : List Glyph}

theorem span_behind (before : List UInt8) {cs : List UInt8} (h : 10 ∉ cs) (gs hs : List Glyph) :
    (Cursor.behind s before gs).span (Cursor.behind s (before ++ cs) hs) =
      ⟨s.file, lineEnds before, column before, (column before : Int) + cs.length - 1⟩ := by
  simp only [Cursor.span, Cursor.behind, lineEnds_append h, column_append h]
  push_cast
  rfl

theorem pos_tokenOf (l : Lexeme) (pos : Position) : (Cursor.tokenOf l pos).pos = pos := by
  unfold Cursor.tokenOf
  split <;> rfl

theorem not_mem_bytesIn (hgs : ∀ g ∈ gs, g.Spelled) (hinline : Lexeme.Inline gs) :
    10 ∉ bytesIn gs := by
  intro hmem
  obtain ⟨g, hg, hraw⟩ := List.mem_flatMap.mp hmem
  exact hinline g hg ((hgs g hg).char_eq (by decide) hraw)

/-- The bytes of a lexeme that reaches over a line end. -/
theorem bytesIn_overLine {l : Lexeme} (hgs : ∀ g ∈ l.glyphs, g.Spelled) (h : l.OverLine)
    (pos : Position) :
    (bytesIn l.glyphs = [39, 10] ∧ (Cursor.tokenOf l pos).kind = .invalid) ∨
      (bytesIn l.glyphs = [39, 10, 39] ∧ (Cursor.tokenOf l pos).kind = .charLiteral) := by
  cases h with
  | closed hq hn hr hglyphs hreading =>
    simp only [hglyphs, List.forall_mem_cons] at hgs
    refine .inr ⟨?_, by rw [Cursor.tokenOf, hreading]⟩
    simp [hglyphs, hgs.1.raw_eq (a := 39) (by decide) hq,
      hgs.2.1.raw_eq (a := 10) (by decide) hn, hgs.2.2.1.raw_eq (a := 39) (by decide) hr]
  | unclosed hq hn hglyphs hreading =>
    simp only [hglyphs, List.forall_mem_cons] at hgs
    refine .inl ⟨?_, by rw [Cursor.tokenOf, hreading]; rfl⟩
    simp [hglyphs, hgs.1.raw_eq (a := 39) (by decide) hq,
      hgs.2.1.raw_eq (a := 10) (by decide) hn]

/-- A lexeme fits where it is read. -/
theorem fits_lexeme {g : Glyph} (hgs : ∀ h ∈ g :: gs, h.Spelled) (hblank : isBlank g.char = false)
    (before : List UInt8) :
    (Piece.lexeme (Lexeme.scan s.broken g gs).glyphs (Cursor.behind s before (g :: gs)).read.1).Fits
      s before (Lexeme.scan s.broken g gs).rest := by
  have happend := Lexeme.scan_append s.broken g gs
  have hne := Lexeme.scan_ne_nil s.broken g gs
  have hlines := Lexeme.lines_scan s.broken (Lexeme.ne_line_of (p := fun c => !isBlank c) (g := g)
    (by decide) (by simp [hblank])) gs
  have hread : (Cursor.behind s before (g :: gs)).read =
      (Cursor.behind s before (g :: gs)).give (Lexeme.scan s.broken g gs) := Cursor.read_cons rfl
  generalize Lexeme.scan s.broken g gs = l at happend hne hlines hread ⊢
  have hspelled : ∀ h ∈ l.glyphs, h.Spelled := by
    intro h hh
    refine hgs h ?_
    rw [← happend]
    exact List.mem_append_left _ hh
  rw [Cursor.give, Cursor.advance_behind hspelled] at hread
  refine ⟨hne, by rw [happend, hread], ?_⟩
  rw [hread]
  rcases hlines with hinline | hover
  · have hnone := not_mem_bytesIn hspelled hinline
    refine ⟨fun _ => ?_, fun hmem => absurd hmem hnone⟩
    rw [pos_tokenOf, span_behind before hnone]
  · have hbytes := bytesIn_overLine hspelled hover
    refine ⟨fun hnone => ?_, fun _ => hbytes _⟩
    rcases hbytes ⟨"", 0, 0, 0⟩ with ⟨heq, -⟩ | ⟨heq, -⟩ <;> simp [heq] at hnone

/-- A comment fits where it begins. -/
theorem fits_comment (hgs : ∀ g ∈ gs, g.Spelled) (h : beginsComment gs = true) (before : List UInt8)
    : (Piece.comment (restOfLine gs).1).Fits s before (restOfLine gs).2 := by
  match gs, h with
  | g :: k :: gs, h =>
    simp only [beginsComment, Bool.and_eq_true, beq_iff_eq] at h
    rw [List.forall_mem_cons, List.forall_mem_cons] at hgs
    obtain ⟨line, ending, hbytes, hnone, hending⟩ := bytesIn_restOfLine hgs.2.2
    have hrest : restOfLine (g :: k :: gs) = (g :: k :: (restOfLine gs).1, (restOfLine gs).2) := by
      simp [restOfLine, h.1, h.2]
    rw [hrest]
    refine ⟨line, ending, ?_, hnone, hending⟩
    simp [hbytes, hgs.1.raw_eq (a := 47) (by decide) h.1,
      hgs.2.1.raw_eq (a := 47) (by decide) h.2]

/-- White space fits where it begins. -/
theorem fits_blanks {g : Glyph} (h : isBlank g.char = true) (gs : List Glyph)
    (before : List UInt8) :
    (Piece.blanks ((g :: gs).takeWhile (isBlank ·.char))).Fits s before
      ((g :: gs).dropWhile (isBlank ·.char)) := by
  refine ⟨by simp [h], fun k hk => List.all_eq_true.mp List.all_takeWhile k hk, fun k hk => ?_⟩
  have hnot := List.head?_dropWhile_not (isBlank ·.char) (g :: gs)
  rw [hk] at hnot
  simpa using hnot

/-! ## The row of pieces -/

/-- The pieces make up the text that is left behind some bytes, and its tokens are theirs. -/
structure Piece.MakeUp (s : Source) (before : List UInt8) (rest : List Glyph) (ps : List Piece) :
    Prop where
  glyphs : ps.flatMap Piece.glyphs = rest
  inRow : Piece.InRow s before ps
  tokens : (Cursor.behind s before rest).allTokens 0 = ps.filterMap Piece.token? ++
    [⟨(Cursor.behind s (before ++ bytesIn rest) []).ending, false⟩]

theorem makeUp_nil (s : Source) (before : List UInt8) : Piece.MakeUp s before [] [] := by
  refine ⟨rfl, trivial, ?_⟩
  have hend : (Cursor.behind s before []).skip.rest = [] := rfl
  rw [Cursor.allTokens, if_pos hend, bytesIn_nil, List.append_nil]
  rfl

/-- The text that is left begins with a piece; the tokens behind it are those from its end on. -/
structure Piece.Leads (s : Source) (before : List UInt8) (p : Piece) (after : List Glyph) :
    Prop where
  nonempty : p.glyphs ≠ []
  fits : p.Fits s before after
  tokens : (Cursor.behind s before (p.glyphs ++ after)).allTokens 0 =
    p.token?.toList ++ (Cursor.behind s (before ++ p.bytes) after).allTokens 0

theorem Piece.Leads.cons {p : Piece} {after : List Glyph} {ps : List Piece}
    (h : p.Leads s before after) (hps : Piece.MakeUp s (before ++ p.bytes) after ps) :
    Piece.MakeUp s before (p.glyphs ++ after) (p :: ps) := by
  refine ⟨by rw [List.flatMap_cons, hps.glyphs], ⟨hps.glyphs ▸ h.fits, hps.inRow⟩, ?_⟩
  rw [h.tokens, hps.tokens, bytesIn_append, Piece.bytes, List.append_assoc]
  cases p <;> rfl

/-- Where text is left, it begins with white space, a comment or a lexeme. -/
theorem exists_leads (before : List UInt8) {rest : List Glyph} (hrest : ∀ g ∈ rest, g.Spelled)
    (hne : rest ≠ []) : ∃ p after, p.glyphs ++ after = rest ∧ Piece.Leads s before p after := by
  obtain ⟨g, gs, rfl⟩ := List.exists_cons_of_ne_nil hne
  cases hblank : isBlank g.char with
  | true =>
    have hsplit := List.takeWhile_append_dropWhile (p := (isBlank ·.char)) (l := g :: gs)
    have hfits := fits_blanks (s := s) hblank gs before
    have hskip := trivia_blanks hfits.2.1 ((g :: gs).dropWhile (isBlank ·.char))
    refine ⟨.blanks _, _, hsplit, hfits.1, hfits, ?_⟩
    have hblanks : ∀ k ∈ (g :: gs).takeWhile (isBlank ·.char), k.Spelled := fun k hk =>
      hrest k ((List.takeWhile_sublist _).subset hk)
    exact Cursor.allTokens_congr (Cursor.skip_behind hblanks hskip) 0
  | false =>
    cases hcomment : beginsComment (g :: gs) with
    | true =>
      have hsplit := restOfLine_append (g :: gs)
      have hfits := fits_comment (s := s) hrest hcomment before
      have hskip := trivia_comment hcomment
      have hline : ∀ k ∈ (restOfLine (g :: gs)).1, k.Spelled := by
        intro k hk
        refine hrest k ?_
        rw [← hsplit]
        exact List.mem_append_left _ hk
      refine ⟨.comment _, _, hsplit, restOfLine_ne_nil g gs, hfits, ?_⟩
      refine Cursor.allTokens_congr (Cursor.skip_behind hline ?_) 0
      rw [hsplit, hskip]
    | false =>
      have hsplit := Lexeme.scan_append s.broken g gs
      have hfits := fits_lexeme (s := s) hrest hblank before
      refine ⟨.lexeme _ _, _, hsplit, hfits.1, hfits, ?_⟩
      have hskip : (Cursor.behind s before (g :: gs)).skip = Cursor.behind s before (g :: gs) :=
        Cursor.skip_eq_self (trivia_lexeme hblank hcomment)
      have hread := hfits.2.1
      dsimp only [Piece.glyphs]
      rw [hsplit] at hread ⊢
      rw [Cursor.allTokens, Cursor.next, hskip, if_neg (by simp [Cursor.behind]), hread]
      rfl

/-- From an exact place on, a text is made up of pieces. -/
theorem exists_makeUp (s : Source) (before : List UInt8) (rest : List Glyph)
    (hrest : ∀ g ∈ rest, g.Spelled) : ∃ ps, Piece.MakeUp s before rest ps := by
  induction hlength : rest.length using Nat.strongRecOn generalizing before rest with
  | ind n ih =>
    by_cases hne : rest = []
    · subst hne
      exact ⟨[], makeUp_nil s before⟩
    · obtain ⟨p, after, rfl, hleads⟩ := exists_leads (s := s) before hrest hne
      have hpos := List.length_pos_iff.mpr hleads.nonempty
      rw [List.length_append] at hlength
      obtain ⟨ps, hps⟩ := ih after.length (by omega) (before ++ p.bytes) after
        (fun g hg => hrest g (List.mem_append_right _ hg)) rfl
      exact ⟨p :: ps, hleads.cons hps⟩

end

/-- **Every byte has its lexeme, and every token its place.** The bytes of a program, well-formed
UTF-8 or not, are a row of white space, comments and lexemes. Every token that has no line end in
its lexeme is on the line and at the columns that the bytes in front of the lexeme tell, and so is
the end. A lexeme with a line end is a character literal, and what follows it is in its place
again. -/
theorem lexemes_partition_the_source (s : Source) : ∃ ps, s.Splits ps := by
  obtain ⟨ps, hglyphs, hrow, htokens⟩ :=
    exists_makeUp s [] (Text.glyphs s.bytes) (spelled_glyphs s.bytes)
  have hbytes : bytesIn (Text.glyphs s.bytes) = s.bytes := flatMap_raw_glyphs s.bytes
  refine ⟨ps, ?_, hglyphs, hrow, _, htokens, fun hbroken => ?_⟩
  · rw [← hbytes, ← hglyphs, bytesIn, List.flatMap_assoc]
    rfl
  · rw [List.nil_append, hbytes, Cursor.ending, if_neg (by simp [Cursor.behind, hbroken])]
    rfl

end TinyC
