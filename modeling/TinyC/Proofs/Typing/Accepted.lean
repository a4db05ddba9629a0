import TinyC.Proofs.Syntax.Reading
import TinyC.Proofs.Typing.Traces

/-!
# Analysis accepts the grammar

A program text whose tokens can be derived from the grammar has a tree without a gap, and no other
text has (`Source.spells_tree`, `Source.whole_tree`). So analysis accepts only what the grammar
allows, and what the grammar allows never lacks a token.
-/

namespace TinyC

variable {s : Source}

open Syntax (Derives)

/-- The tree of a program is made of tokens before the last. -/
theorem Source.within_tree (s : Source) : s.tree.Within s.tokens.length :=
  (Syntax.Program.ofWords_row (z := []) s.row_words).1.within

theorem Source.traces_tree (s : Source) :
    (Typing.program s.tree).Traces s.tokens.length 0 0 s.tree.Whole fun _ _ => True :=
  Typing.traces_program s.tree s.plain_tree s.within_tree

/-- A program text is walked through only if its tree has no gap. -/
theorem Source.whole_of_walk {core : Core.Program} {t : Typing.State}
    (h : Typing.Walk.Yields (Typing.program s.tree) {} core t) : s.tree.Whole := by
  have htraces := s.traces_tree {} (Nat.zero_le _)
  rw [h] at htraces
  exact htraces.2.1

/-- It lacks a token only if its tree has a gap. -/
theorem Source.code_of_whole {f : Typing.Fault} {t : Typing.State} (hs : s.tree.Whole)
    (h : Typing.Walk.outcome (Typing.program s.tree) {} = (.error f, t)) :
    f.cause.code ≠ .expectedToken := by
  have htraces := s.traces_tree {} (Nat.zero_le _)
  rw [h] at htraces
  exact htraces.2.2 hs

/-- A tree without a gap spells the tokens of the text. -/
theorem Source.spells_tree (hs : ∀ t ∈ s.tokens, t.token.kind ≠ .invalid) (h : s.tree.Whole) :
    s.tree.Spells s.words :=
  Syntax.Program.spells_ofWords s.row_words (ended_words hs) h

/-- So an accepted program has a tree that spells its tokens. -/
theorem Source.spells_of_accepted {a : Analysis} (h : (analyse s).outcome = .ok a) :
    s.tree.Spells s.words := by
  obtain ⟨t, hwalk, -⟩ := walk_of_analyse h
  have hwhole := Source.whole_of_walk hwalk
  exact Syntax.Program.spells_ofWords s.row_words (ended_of_whole hwhole) hwhole

/-- The tokens of a tree without a gap can be derived. -/
theorem Source.derives_of_whole (hs : ∀ t ∈ s.tokens, t.token.kind ≠ .invalid) (h : s.tree.Whole) :
    Derives (.phrase .program) (s.tokens.map (·.token.kind)) := by
  rw [← kinds_words]
  exact Syntax.Program.derives (spells_tree hs h)

/-- Tokens that can be derived are those of the tree that is found. -/
theorem Source.spells_of_derives (h : Derives (.phrase .program) (s.tokens.map (·.token.kind))) :
    s.tree.Spells s.words := by
  rw [← kinds_words] at h
  obtain ⟨p, hp⟩ := h.spelled s.fits_words
  have htree : s.tree = p := Syntax.Program.ofWords_eq hp
  rw [htree]
  exact hp

/-- A program text that is rejected was walked through up to the fault. -/
theorem walk_of_rejected {d : Diagnostic} (h : (analyse s).outcome = .error d) :
    ∃ f t token, Typing.Walk.outcome (Typing.program s.tree) {} = (.error f, t) ∧
      d = f.diagnostic token := by
  unfold analyse at h
  dsimp only at h
  rcases hcheck : check (wordsOf (s.tokens.map Lexed.token)) with ⟨f | core, t⟩
  · rw [hcheck] at h
    cases h
    exact ⟨f, t, _, hcheck, rfl⟩
  · rw [hcheck] at h
    cases h

/-- A fault that is no missing token is reported under its own code. -/
theorem Typing.Fault.code_diagnostic {f : Fault} (h : f.cause.code ≠ .expectedToken)
    (token : Token) : (f.diagnostic token).code = f.cause.code := by
  unfold Fault.diagnostic
  split
  · rename_i want d hcause hvalue
    rw [hcause] at h
    exact absurd rfl h
  · rfl

/-- **Analysis accepts exactly the grammar.** Of a program text without `invalid` tokens, what is
accepted can be derived from the grammar, and what can be derived from the grammar is never
rejected for want of a token. -/
theorem analysis_accepts_the_grammar (s : Source)
    (hs : ∀ t ∈ s.tokens, t.token.kind ≠ .invalid) :
    (∀ a, (analyse s).outcome = .ok a →
      Derives (.phrase .program) (s.tokens.map (·.token.kind))) ∧
    (Derives (.phrase .program) (s.tokens.map (·.token.kind)) →
      ∀ d, (analyse s).outcome = .error d → d.code ≠ .expectedToken) := by
  constructor
  · intro a ha
    obtain ⟨t, hwalk, -⟩ := walk_of_analyse ha
    exact Source.derives_of_whole hs (Source.whole_of_walk hwalk)
  · intro hderives d hd
    have hwhole := Syntax.Program.whole s.row_words (Source.spells_of_derives hderives)
    obtain ⟨f, t, token, hwalk, rfl⟩ := walk_of_rejected hd
    have hcode := Source.code_of_whole hwhole hwalk
    rw [Typing.Fault.code_diagnostic hcode token]
    exact hcode

/-- A program text with declarations, branches, casts and calls. -/
def grammarSample : Source where
  file := "sample"
  bytes := Text.bytesOf
    ("const k: double = -1.5; fn f(const x: int, y: double) -> int \x7b if x < 2 \x7b return x; \x7d "
      ++ "else if (y >= k) \x7b let z: int; z = +(y as int) * x; return f(z - 1, k); \x7d "
      ++ "else \x7b ; \x7d while x \x7b break; \x7d return 0; \x7d")

theorem analysis_accepts_the_grammar_sample :
    (∀ t ∈ grammarSample.tokens, t.token.kind ≠ .invalid) ∧
      (∃ a, (analyse grammarSample).outcome = .ok a) ∧
      Derives (.phrase .program) (grammarSample.tokens.map (·.token.kind)) := by
  obtain ⟨a, ha, htokens⟩ := exists_ok (r := (analyse grammarSample).outcome)
    (p := fun _ => ∀ t ∈ grammarSample.tokens, t.token.kind ≠ .invalid)
    (by
      rw [grammarSample, Text.bytesOf_concat, Text.bytesOf_concat, Text.bytesOf_ofList]
      decide +kernel)
  replace htokens := of_decide_eq_true htokens
  exact ⟨htokens, ⟨a, ha⟩, (analysis_accepts_the_grammar grammarSample htokens).1 a ha⟩

end TinyC
