import TinyC.Analysis
import TinyC.Proofs.Syntax.Derived
import TinyC.Proofs.Syntax.Lookahead
import TinyC.Proofs.Token.Forms

/-!
# Tokens and their values

What a token stands for goes with its kind (`Source.fits_words`): literals have values of their own,
and an identifier has a name that is not empty, since it has at least its first letter. So nameless
symbols are out of the reach of programs.

The tokens that analysis sees end at the end of the program, if none of them is `invalid`
(`Source.ended_words`).
-/

namespace TinyC

open Text (Glyph)
open Syntax (EndsRow Fits Row Word)

/-- The value of a regular token goes with its kind. -/
theorem Token.Regular.fits {t : Token} (h : t.Regular) : Fits t.kind t.value := by
  cases h with
  | fixed h pos =>
    unfold Fits
    dsimp only
    split
    · cases h
    · cases h
    · cases h
    · cases h
    · cases h
    · trivial
  | name h pos =>
    obtain ⟨⟨c, cs, hs, _⟩, _⟩ := h
    refine ⟨_, ?_, rfl⟩
    rintro rfl
    cases hs
  | uint => exact ⟨_, rfl⟩
  | char => exact ⟨_, rfl⟩
  | string => exact ⟨_, rfl⟩
  | double => exact ⟨_, rfl⟩

namespace Cursor

theorem fits_read (c : Cursor) : Fits c.read.1.token.kind c.read.1.token.value := by
  by_cases hinvalid : c.read.1.token.kind = .invalid
  · rw [hinvalid]
    trivial
  by_cases heof : c.read.1.token.kind = .eof
  · rw [heof]
    trivial
  · exact (regular_read hinvalid heof).fits

theorem fits_tokens (c : Cursor) : ∀ t ∈ c.tokens, Fits t.token.kind t.token.value := by
  intro t ht
  obtain ⟨d, rfl⟩ := exists_read_of_mem_tokens ht
  exact d.fits_read

/-- The stream goes on behind every token but the last. -/
theorem tokens_eq_concat (c : Cursor) :
    ∃ (ts : List Lexed) (t : Lexed), c.tokens = ts ++ [t] ∧ t.goesOn = false ∧
      ∀ u ∈ ts, u.goesOn = true := by
  fun_induction Cursor.tokens c with
  | case1 c hrest =>
    refine ⟨[], c.next.1, rfl, ?_, fun _ h => by cases h⟩
    simp only [next, read, hrest, ending]
    split <;> rfl
  | case2 c _ hon ih =>
    obtain ⟨ts, t, heq, ht, hts⟩ := ih
    refine ⟨c.next.1 :: ts, t, by rw [heq]; rfl, ht, ?_⟩
    intro u hu
    rcases List.mem_cons.mp hu with rfl | hu
    · exact hon
    · exact hts u hu
  | case3 c _ hoff =>
    exact ⟨[], c.next.1, rfl, Bool.eq_false_iff.mpr hoff, fun _ h => by cases h⟩

end Cursor

/-- Tokens with numbers in order, of which the last can end a row, are a row. -/
theorem row_of_ords {us : List Word} {w : Word} {k : Nat} (hw : EndsRow w.kind)
    (hnamed : ∀ v ∈ us ++ [w], v.kind = .ident → Syntax.nameText v.value ≠ "")
    (hords : ∀ i v, (us ++ [w])[i]? = some v → v.ord = k + i) :
    Row (k + us.length + 1) (us ++ [w]) := by
  induction us generalizing k with
  | nil => exact ⟨congrArg (· + 1) (hords 0 w rfl), hw⟩
  | cons u us ih =>
    obtain ⟨hname, hnamed⟩ := List.forall_mem_cons.mp hnamed
    have hrest : Row (k + 1 + us.length + 1) (us ++ [w]) := by
      apply ih hnamed
      intro i v hv
      rw [hords (i + 1) v hv]
      omega
    have hu := hords 0 u rfl
    rw [List.length_cons, show k + (us.length + 1) + 1 = k + 1 + us.length + 1 by omega]
    cases us with
    | nil => exact ⟨by rw [hu]; exact hords 1 w rfl, hname, hrest⟩
    | cons v us => exact ⟨by rw [hu]; exact hords 1 v rfl, hname, hrest⟩

namespace Source

/-- The tokens of a program as the grammar sees them. -/
def words (s : Source) : List Syntax.Word :=
  wordsOf (s.tokens.map Lexed.token)

/-- The values of the tokens of a program go with their kinds. -/
theorem fits_words (s : Source) : ∀ w ∈ s.words, Fits w.kind w.value := by
  intro w hw
  obtain ⟨i, hi, rfl⟩ := List.mem_mapIdx.mp hw
  simp only [List.getElem_map]
  exact Cursor.fits_tokens _ _ (List.getElem_mem _)

/-- The identifiers of a program have names. -/
theorem named_words (s : Source) :
    ∀ w ∈ s.words, w.kind = .ident → Syntax.nameText w.value ≠ "" := by
  intro w hw hkind
  have hfits := s.fits_words w hw
  rw [hkind] at hfits
  obtain ⟨x, hx, hvalue⟩ := hfits
  rw [hvalue]
  exact hx

theorem kinds_words (s : Source) : Syntax.kinds s.words = s.tokens.map (·.token.kind) := by
  refine List.ext_getElem ?_ fun i _ _ => ?_
  · simp [Syntax.kinds, words, wordsOf]
  · simp [Syntax.kinds, words, wordsOf]

/-- The tokens of a program are none of them the end, but for the last, which is the end or an
`invalid` token. -/
theorem words_eq_concat (s : Source) :
    ∃ (us : List Word) (w : Word), s.words = us ++ [w] ∧ (w.kind = .eof ∨ w.kind = .invalid) ∧
      (∀ u ∈ us, u.kind ≠ .eof) ∧ ∃ t ∈ s.tokens, w.kind = t.token.kind := by
  obtain ⟨ts, t, heq, ht, hts⟩ := (Cursor.start s).tokens_eq_concat
  have hrow : s.tokens.map Lexed.token = ts.map Lexed.token ++ [t.token] := by
    rw [tokens, heq, List.map_append, List.map_singleton]
  rw [words, hrow, wordsOf, List.mapIdx_append]
  refine ⟨_, _, rfl, ?_, ?_, t, ?_, rfl⟩
  · simp only [Lexed.goesOn, Bool.and_eq_false_iff, bne_eq_false_iff_eq] at ht
    exact ht.symm
  · intro u hu
    obtain ⟨i, hi, rfl⟩ := List.mem_mapIdx.mp hu
    have hon := hts _ (List.getElem_mem (by simpa using hi))
    simp only [Lexed.goesOn, Bool.and_eq_true, bne_iff_ne] at hon
    simpa using hon.2
  · rw [tokens, heq]
    exact List.mem_append_right _ List.mem_cons_self

/-- The tokens that analysis sees are a row. -/
theorem row_words (s : Source) : Row s.tokens.length s.words := by
  obtain ⟨us, w, heq, hw, -⟩ := s.words_eq_concat
  have hnamed := s.named_words
  have hlength : s.tokens.length = 0 + us.length + 1 := by
    have hlen := congrArg List.length heq
    simp only [words, wordsOf, List.length_mapIdx, List.length_map, List.length_append,
      List.length_singleton] at hlen
    omega
  have hords : ∀ i (v : Word), (us ++ [w])[i]? = some v → v.ord = 0 + i := by
    intro i v hv
    rw [← heq, words, wordsOf, List.getElem?_mapIdx] at hv
    obtain ⟨t, -, rfl⟩ := Option.map_eq_some_iff.1 hv
    exact (Nat.zero_add i).symm
  rw [heq] at hnamed
  rw [hlength, heq]
  exact row_of_ords hw hnamed hords

/-- Without `invalid` tokens the tokens of a program go on to its end. -/
theorem ended_words {s : Source} (h : ∀ t ∈ s.tokens, t.token.kind ≠ .invalid) :
    Syntax.Ended s.words := by
  obtain ⟨us, w, heq, hw, hus, t, ht, hkind⟩ := s.words_eq_concat
  rw [heq]
  refine ⟨us, w, rfl, hw.resolve_right ?_, hus⟩
  rw [hkind]
  exact h t ht

/-- So they do where no token is missing. -/
theorem ended_of_whole {s : Source} (h : (Syntax.Program.ofWords s.words).Whole) :
    Syntax.Ended s.words := by
  obtain ⟨us, w, heq, hw, hus, -⟩ := s.words_eq_concat
  have hrow := s.row_words
  rw [heq] at h hrow ⊢
  exact Syntax.Program.ended_ofWords hrow hus hw h

end Source

end TinyC
