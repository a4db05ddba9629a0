import TinyC.Proofs.Typing.Accepted

/-!
# Lexical errors

The lexer goes on behind a stretch that is no token. Analysis does not: the first such stretch ends
the row of tokens that it looks at, whatever the lexer would have given behind it
(`analyseRow_append`). So the only lexical error that analysis can report is the first one, and that
is the error with which handing on the tokens ends (`lexical_errors_agree`).
-/

namespace TinyC

variable {d : Diagnostic} {p : Program}

open Syntax (Word Row EndsRow)

/-! ## Rows of any tokens -/

/-- What analysis makes of a row of tokens, wherever the row ends. -/
def analyseRow (lexed : List Lexed) : Analysed :=
  let row := lexed.toArray
  let (outcome, state) := check (wordsOf (lexed.map Lexed.token))
  let notes := journalNotes state.seen 0 lexed state.journal.reverse
  match outcome with
  | .error f => ⟨.error (f.diagnostic (tokenAt row f.ord)), notes⟩
  | .ok core =>
    let tables := (Typing.tables state core).mapPos fun ord => (tokenAt row ord).pos
    ⟨.ok ⟨tables, core⟩, notes ++ [analysedNote tables.globals.count tables.functions.count]⟩

theorem tokenAt_append {ts us : List Lexed} {ord : Nat} (h : ord < ts.length) :
    tokenAt (ts ++ us).toArray ord = tokenAt ts.toArray ord := by
  unfold tokenAt
  rw [List.getElem?_toArray, List.getElem?_toArray, List.getElem?_append_left h]

/-- The notes on tokens that have been looked at do not tell of those behind them. -/
theorem journalNotes_append {seen done n : Nat} {ts us : List Lexed} {es : List Typing.Emission}
    (hseen : seen ≤ n) (hes : ∀ e ∈ es, e.seen ≤ n) (hn : n ≤ done + ts.length) :
    journalNotes seen done (ts ++ us) es = journalNotes seen done ts es := by
  induction es generalizing done ts with
  | nil =>
    unfold journalNotes
    rw [List.take_append_of_le_length (by omega)]
  | cons e es ih =>
    obtain ⟨he, hes⟩ := List.forall_mem_cons.1 hes
    have hle : e.seen - done ≤ ts.length := by omega
    unfold journalNotes
    rw [List.take_append_of_le_length hle, List.drop_append_of_le_length hle, ih hes]
    rw [List.length_drop]
    omega

/-- A walk through the tree of a program looks at none but its tokens, and what stops it is found at
a token that it has looked at. -/
theorem Source.before_check (s : Source) :
    (check s.words).2.Before s.tokens.length ∧
      ∀ f, (check s.words).1 = .error f → f.Located (check s.words).2 := by
  have htraces := s.traces_tree {} (Nat.zero_le _)
  rw [show Typing.Walk.outcome (Typing.program s.tree) {} = check s.words from rfl] at htraces
  rcases hcheck : check s.words with ⟨f | core, t⟩
  · rw [hcheck] at htraces
    refine ⟨htraces.1 Typing.State.before_start, ?_⟩
    rintro _ ⟨⟩
    exact htraces.2.1
  · rw [hcheck] at htraces
    exact ⟨htraces.1 Typing.State.before_start, nofun⟩

/-- **Analysis sees nothing of what stands behind the first stretch that is no token.** -/
theorem analyseRow_append (s : Source) (rest : List Lexed) :
    analyseRow (s.tokens ++ rest) = analyse s := by
  have hcheck : check (wordsOf ((s.tokens ++ rest).map Lexed.token)) = check s.words := by
    obtain ⟨ws, heq⟩ : ∃ ws, wordsOf (s.tokens.map Lexed.token ++ rest.map Lexed.token)
        = s.words ++ ws := ⟨_, List.mapIdx_append⟩
    rw [List.map_append, heq]
    unfold check
    rw [(Syntax.Program.ofWords_row s.row_words).2.1]
  obtain ⟨hbefore, hfault⟩ := s.before_check
  have hnotes : journalNotes (check s.words).2.seen 0 (s.tokens ++ rest)
      (check s.words).2.journal.reverse =
        journalNotes (check s.words).2.seen 0 s.tokens (check s.words).2.journal.reverse := by
    refine journalNotes_append hbefore.seen (fun e he => ?_) (by omega)
    exact hbefore.journal e (List.mem_reverse.1 he)
  show _ = analyseRow s.tokens
  unfold analyseRow
  dsimp only
  rw [hcheck, show wordsOf (s.tokens.map Lexed.token) = s.words from rfl]
  rcases hout : check s.words with ⟨f | core, t⟩
  · rw [hout] at hbefore hfault hnotes
    dsimp only at hnotes ⊢
    have hord := Nat.lt_of_lt_of_le (hfault f rfl).seen hbefore.seen
    rw [hnotes, tokenAt_append hord]
  · rw [hout] at hbefore hnotes
    have htables := (hbefore.tables core).mapPos_congr
      (g := fun ord => (tokenAt (s.tokens ++ rest).toArray ord).pos)
      fun ord hord => congrArg Token.pos (tokenAt_append hord)
    dsimp only at hnotes ⊢
    rw [hnotes, htables]

/-! ## Tokens that are handed on -/

theorem Lexed.failure?_of_goesOn {t : Lexed} (h : t.goesOn = true) : t.token.failure? = none := by
  simp only [Lexed.goesOn, Bool.and_eq_true, bne_iff_ne] at h
  unfold Token.failure?
  split
  · rename_i hkind _
    exact absurd hkind h.1
  · rfl

/-- Handing on tokens fails with the last of them, if at all. -/
theorem failure_handOn {o : CompilerOptions} {ts : List Lexed} {t : Lexed}
    (h : ∀ u ∈ ts, u.goesOn = true) : (handOn o none (ts ++ [t])).failure = t.token.failure? := by
  induction ts with
  | nil =>
    rw [List.nil_append]
    unfold handOn
    cases hfailure : t.token.failure? with
    | some f => rfl
    | none => rfl
  | cons u ts ih =>
    obtain ⟨hu, hts⟩ := List.forall_mem_cons.1 h
    rw [List.cons_append]
    unfold handOn
    rw [Lexed.failure?_of_goesOn hu]
    exact ih hts

/-- No token stands for a fault but one that is `invalid`. -/
theorem Cursor.kind_of_fault {c : Cursor} (h : c.read.1.token.value = .fault d) :
    c.read.1.token.kind = .invalid := by
  by_cases hinvalid : c.read.1.token.kind = .invalid
  · exact hinvalid
  by_cases heof : c.read.1.token.kind = .eof
  · rw [value_of_eof heof] at h
    cases h
  · have hregular := regular_read hinvalid heof
    generalize c.read.1.token = t at hregular h
    cases hregular <;> cases h

/-- Where a token of the program stands for a fault, it is with that fault that handing on its
tokens ends. -/
theorem Program.failure_of_fault (o : CompilerOptions) {ord : Nat}
    (h : (tokenAt p.source.tokens.toArray ord).value = .fault d) :
    (p.tokenize o none).failure = some (.diagnostic d) := by
  obtain ⟨ts, t, heq, hlast, hts⟩ := (Cursor.start p.source).tokens_eq_concat
  have htokens : p.source.tokens = ts ++ [t] := heq
  have hmem : ∃ u ∈ p.source.tokens, u.token.value = .fault d := by
    unfold tokenAt at h
    rw [List.getElem?_toArray] at h
    cases hget : p.source.tokens[ord]? with
    | none =>
      rw [hget] at h
      cases h
    | some u =>
      rw [hget] at h
      exact ⟨u, List.mem_of_getElem? hget, h⟩
  obtain ⟨u, hu, hvalue⟩ := hmem
  have hkind : u.token.kind = .invalid := by
    obtain ⟨c, rfl⟩ := Cursor.exists_read_of_mem_tokens hu
    exact Cursor.kind_of_fault hvalue
  have hut : u = t := by
    rw [htokens] at hu
    rcases List.mem_append.1 hu with hu | hu
    · have hon := hts u hu
      simp [Lexed.goesOn, hkind] at hon
    · exact List.mem_singleton.1 hu
  rw [Program.tokenize, htokens, failure_handOn hts, ← hut]
  unfold Token.failure?
  rw [hkind, hvalue]

/-- The lexer gives more tokens than analysis sees. -/
theorem Cursor.allTokens_eq_append (c : Cursor) (extra : Nat) :
    ∃ rest, c.allTokens extra = c.tokens ++ rest := by
  fun_induction Cursor.tokens c with
  | case1 c hrest =>
    rw [allTokens, if_pos hrest]
    exact ⟨List.replicate extra c.next.1, rfl⟩
  | case2 c hrest _ ih =>
    obtain ⟨rest, heq⟩ := ih
    rw [allTokens, if_neg hrest, heq]
    exact ⟨rest, rfl⟩
  | case3 c hrest _ =>
    rw [allTokens, if_neg hrest]
    exact ⟨c.next.2.allTokens extra, rfl⟩

/-! ## Errors -/

/-- What is wrong with a row of tokens is not a lexical error. -/
theorem Typing.Cause.family_code (c : Typing.Cause) : c.code.family = .semantic := by
  cases c <;> rfl

/-- A fault is reported as a lexical error only at a token that stands for that error. -/
theorem Typing.Fault.value_of_lexical {f : Typing.Fault} {t : Token}
    (h : (f.diagnostic t).family = .lexical) : t.value = .fault (f.diagnostic t) := by
  unfold Typing.Fault.diagnostic at h ⊢
  split
  · rename_i hvalue
    exact hvalue
  · rename_i hother
    dsimp only [Diagnostic.family] at h
    split at h
    · rename_i hcause hvalue
      exact absurd hvalue (hother _ _ hcause)
    · rw [f.cause.family_code] at h
      cases h

/-- The tokens of an accepted program are handed on. -/
theorem Program.failure_of_accepted (o : CompilerOptions) {a : Analysis}
    (h : (TinyC.analyse p.source).outcome = .ok a) : (p.tokenize o none).failure = none := by
  obtain ⟨ts, t, heq, hlast, hts⟩ := (Cursor.start p.source).tokens_eq_concat
  have htokens : p.source.tokens = ts ++ [t] := heq
  have hended : Syntax.Ended p.source.words := by
    obtain ⟨_, hwalk, -⟩ := walk_of_analyse h
    exact Source.ended_of_whole (Source.whole_of_walk hwalk)
  obtain ⟨us, w, hwords, hw, -⟩ := hended
  have hkinds := p.source.kinds_words
  rw [hwords, htokens] at hkinds
  simp only [Syntax.kinds, List.map_append, List.map_singleton] at hkinds
  have hkind : w.kind = t.token.kind := List.singleton_inj.1 (List.append_inj' hkinds rfl).2
  rw [Program.tokenize, htokens, failure_handOn hts]
  unfold Token.failure?
  rw [← hkind, hw]

/-- A program that is rejected with a lexical error has a token that stands for the error. -/
theorem Program.failure_of_rejected (o : CompilerOptions)
    (h : p.analyse.result = .error (.diagnostic d)) (hd : d.family = .lexical) :
    (p.tokenize o none).failure = some (.diagnostic d) := by
  unfold Program.analyse TinyC.analyse at h
  dsimp only at h
  generalize check (wordsOf (p.source.tokens.map Lexed.token)) = r at h
  obtain ⟨f | core, t⟩ := r
  · injection h with h
    injection h with h
    subst h
    exact Program.failure_of_fault o (Typing.Fault.value_of_lexical hd)
  · cases h

/-- **Tokenizing and analysis agree on lexical errors.** Where a program is accepted, its tokens are
handed on without a failure. Where it is rejected with a lexical error, handing on its tokens ends
with the very same error. And analysis neither takes an `invalid` token for part of the program nor
looks behind the first: the tree is made of tokens before it, the tokens that have been looked at in
the end are up to it, and it makes no difference what the lexer gives behind it. -/
theorem lexical_errors_agree (p : Program) (o : CompilerOptions) :
    (∀ a, p.analyse.result = .ok a → (p.tokenize o none).failure = none) ∧
      (∀ d, p.analyse.result = .error (.diagnostic d) → d.family = .lexical →
        (p.tokenize o none).failure = some (.diagnostic d)) ∧
      p.source.tree.Within p.source.tokens.length ∧
      (check p.source.words).2.seen ≤ p.source.tokens.length ∧
      (∀ rest, analyseRow (p.source.tokens ++ rest) = TinyC.analyse p.source) ∧
      ∀ extra, analyseRow ((Cursor.start p.source).allTokens extra) = TinyC.analyse p.source := by
  refine ⟨fun a h => ?_, fun d h hd => ?_, p.source.within_tree, p.source.before_check.1.seen,
    analyseRow_append p.source, fun extra => ?_⟩
  · exact Program.failure_of_accepted o (Program.outcome_source h)
  · exact Program.failure_of_rejected o h hd
  · obtain ⟨rest, heq⟩ := (Cursor.start p.source).allTokens_eq_append extra
    rw [heq]
    exact analyseRow_append p.source rest

/-- A program with two stretches that are no tokens, of which analysis comes to the first. -/
def misspelled : Program where
  name := "dir/misspelled.c0"
  bytes := Text.bytesOf
    "let n: int = 3;\nfn main() -> int \x7b\n  n = n ? 1;\n  return 'ab';\n\x7d\n"

theorem misspelled_checked : (match misspelled.analyse.result with
    | .error (.diagnostic d) => decide (d.family = .lexical)
    | _ => false) = true := by
  decide +kernel

theorem lexical_errors_agree_sample :
    (∃ a, sample.analyse.result = .ok a ∧ (sample.tokenize {} none).failure = none) ∧
      ∃ d, misspelled.analyse.result = .error (.diagnostic d) ∧ d.family = .lexical ∧
        (misspelled.tokenize {} none).failure = some (.diagnostic d) := by
  constructor
  · obtain ⟨a, ha, -⟩ := sample_accepted
    exact ⟨a, ha, (lexical_errors_agree sample {}).1 a ha⟩
  · have h := misspelled_checked
    split at h
    · rename_i d hd
      have hfamily := of_decide_eq_true h
      exact ⟨d, hd, hfamily, (lexical_errors_agree misspelled {}).2.1 d hd hfamily⟩
    · cases h

end TinyC
