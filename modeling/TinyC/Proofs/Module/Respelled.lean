import TinyC.Proofs.Module.Compiled
import TinyC.Proofs.Token.Printing

/-!
# Programs that are written differently

White space, comments and line breaks are no tokens, and the same number or text can be spelled in
several ways. Two programs that differ in nothing else have tokens of the same kinds and values, one
by one. Such programs are the same to the compiler: either both are compiled, to the same bytes, or
both are rejected under the same code (`compilation_ignores_spelling`).

Positions and spellings are carried along with the tokens, into the tables and into diagnostics. A
position never gets into a module file (`encode_mapPos`), and neither of the two into the code of a
diagnostic (`code_diagnostic_congr`).
-/

namespace TinyC

/-! ## Tables without their positions -/

section

variable {π ρ : Type} (g : π → ρ)

theorem globalBytes_mapPos (position : Nat) (es : List (Entry π)) :
    globalBytes position (es.map (Entry.mapPos g)) = globalBytes position es := by
  induction es generalizing position with
  | nil => rfl
  | cons e es ih =>
    simp only [List.map_cons, globalBytes, ih]
    rfl

theorem Function.bytes_mapPos (f : Function π) : (f.mapPos g).bytes = f.bytes := by
  unfold Function.bytes
  rw [Function.paramCount_mapPos]
  rfl

theorem functionBytes_mapPos (position : Nat) (fs : List (Function π)) :
    functionBytes position (fs.map (Function.mapPos g)) = functionBytes position fs := by
  induction fs generalizing position with
  | nil => rfl
  | cons f fs ih =>
    simp only [List.map_cons, functionBytes, ih, Function.bytes_mapPos]
    rfl

/-- The module file of a program does not tell where anything was declared. -/
theorem ProgramTables.encode_mapPos (t : ProgramTables π) : (t.mapPos g).encode = t.encode := by
  unfold encode mapPos
  simp only [Table.rows_map, globalBytes_mapPos, functionBytes_mapPos, List.length_map]

theorem ProgramTables.generate_mapPos (limit : Option Nat) (t : ProgramTables π) :
    (t.mapPos g).generate limit = t.generate limit := by
  unfold generate encodeNote
  rw [encode_mapPos]
  simp only [mapPos, Table.rows_map, List.length_map]

end

/-! ## Tokens of the same meaning -/

/-- What the grammar sees of tokens is what they mean. -/
theorem wordsOf_eq (ts : List Token) :
    wordsOf ts = (ts.map Token.meaning).mapIdx fun i m => ⟨m.1, m.2, i⟩ := by
  refine List.ext_getElem ?_ fun i _ _ => ?_
  · simp [wordsOf]
  · simp [wordsOf, Token.meaning]

/-- Without a failure all tokens are handed on. -/
theorem tokens_handOn {o : CompilerOptions} {ts : List Lexed}
    (h : (handOn o none ts).failure = none) : (handOn o none ts).tokens = ts.map Lexed.token := by
  induction ts with
  | nil => rfl
  | cons t ts ih =>
    unfold handOn at h ⊢
    cases hfailure : t.token.failure? with
    | some f =>
      rw [hfailure] at h
      cases h
    | none =>
      rw [hfailure] at h
      exact congrArg (List.cons t.token) (ih h)

theorem tokenAt_congr {ts us : List Lexed}
    (h : (ts.map Lexed.token).map Token.meaning = (us.map Lexed.token).map Token.meaning)
    (ord : Nat) : (tokenAt ts.toArray ord).value = (tokenAt us.toArray ord).value := by
  have hord := congrArg (fun l => l[ord]?) h
  simp only [List.getElem?_map] at hord
  unfold tokenAt
  rw [List.getElem?_toArray, List.getElem?_toArray]
  cases hts : ts[ord]? with
  | none =>
    cases hus : us[ord]? with
    | none => rfl
    | some u => simp [hts, hus] at hord
  | some t =>
    cases hus : us[ord]? with
    | none => simp [hts, hus] at hord
    | some u =>
      simp only [hts, hus, Option.map_some, Token.meaning, Option.some.injEq, Prod.mk.injEq] at hord
      exact hord.2

/-- The code of a diagnostic depends on the fault and the value of its token. -/
theorem Typing.Fault.code_diagnostic_congr (f : Typing.Fault) {t u : Token}
    (h : t.value = u.value) : (f.diagnostic t).code = (f.diagnostic u).code := by
  unfold Typing.Fault.diagnostic
  rw [h]
  split <;> rfl

/-- What two programs with tokens of the same meaning are taken for: the same tables but for
positions, or faults with the same code. -/
def SameOutcome : Except Failure Analysis → Except Failure Analysis → Prop
  | .ok a, .ok b => ∀ limit, a.tables.generate limit = b.tables.generate limit
  | .error e, .error f => e.code? = f.code?
  | _, _ => False

theorem sameOutcome_analyse {p q : Program}
    (h : (p.source.tokens.map Lexed.token).map Token.meaning =
      (q.source.tokens.map Lexed.token).map Token.meaning) :
    SameOutcome p.analyse.result q.analyse.result := by
  unfold Program.analyse TinyC.analyse
  dsimp only
  rw [wordsOf_eq, h, ← wordsOf_eq]
  generalize check (wordsOf (q.source.tokens.map Lexed.token)) = r
  obtain ⟨f | core, state⟩ := r
  · exact congrArg some (f.code_diagnostic_congr (tokenAt_congr h f.ord))
  · intro limit
    rw [ProgramTables.generate_mapPos, ProgramTables.generate_mapPos]

/-! ## Compilation -/

/-- **Compilation depends on the kinds and values of tokens alone.** Of two programs without lexical
errors that have tokens of the same kinds and values, either both are compiled to the same bytes, or
both are rejected under the same code. -/
theorem compilation_ignores_spelling (o : CompilerOptions) (limit : Option Nat) {p q : Program}
    (hp : (p.tokenize o none).failure = none) (hq : (q.tokenize o none).failure = none)
    (h : (p.tokenize o none).tokens.map Token.meaning =
      (q.tokenize o none).tokens.map Token.meaning) :
    (p.compileTo o limit).1.bytes = (q.compileTo o limit).1.bytes ∧
      (p.compileTo o limit).1.failure.map Failure.code? =
        (q.compileTo o limit).1.failure.map Failure.code? := by
  unfold Program.tokenize at hp hq h
  rw [tokens_handOn hp, tokens_handOn hq] at h
  have hsame := sameOutcome_analyse h
  unfold Program.compileTo
  generalize p.analyse = r at hsame ⊢
  generalize q.analyse = r' at hsame ⊢
  obtain ⟨e | a, ns⟩ := r
  · obtain ⟨e' | b, ns'⟩ := r'
    · exact ⟨rfl, congrArg some hsame⟩
    · exact hsame.elim
  · obtain ⟨e' | b, ns'⟩ := r'
    · exact hsame.elim
    · dsimp only
      rw [hsame limit]
      exact ⟨rfl, rfl⟩

/-- A program, closely written. -/
def closelyWritten : Program where
  name := "close.c0"
  bytes := Text.bytesOf
    "const k:int=31;let r:double=0.5;fn main()->void\x7bputint(k);putstr(\"it's\");\x7d"

/-- The same program with white space and comments, and its numbers and its text spelled in another
way. -/
def looselyWritten : Program where
  name := "dir/loose.c0"
  bytes := Text.bytesOf ("// a constant\nconst k : int = 0031 ; // and a variable\n"
    ++ "let r\n: double = 5.0e-1;\nfn main ( ) -> void\n\x7b\n\tputint( k ) ;\n"
    ++ "\tputstr(\"it\\'s\");\n\x7d // end\n")

theorem compilation_ignores_spelling_sample :
    (closelyWritten.tokenize {} none).failure = none ∧
      (looselyWritten.tokenize {} none).failure = none ∧
      (closelyWritten.compileTo {} none).1.bytes = (looselyWritten.compileTo {} none).1.bytes ∧
      (closelyWritten.compileTo {} none).1.bytes.length = 262 ∧
      (closelyWritten.compileTo {} none).1.failure.map Failure.code? =
        (looselyWritten.compileTo {} none).1.failure.map Failure.code? := by
  obtain ⟨hclose, hloose, hmeaning, hlength⟩ :
      (closelyWritten.tokenize {} none).failure.isNone = true ∧
      (looselyWritten.tokenize {} none).failure.isNone = true ∧
      (closelyWritten.tokenize {} none).tokens.map Token.meaning =
        (looselyWritten.tokenize {} none).tokens.map Token.meaning ∧
      (closelyWritten.compileTo {} none).1.bytes.length = 262 := by
    rw [closelyWritten, looselyWritten, Text.bytesOf_ofList, Text.bytesOf_concat,
      Text.bytesOf_concat, Text.bytesOf_ofList]
    decide +kernel
  rw [Option.isNone_iff_eq_none] at hclose hloose
  obtain ⟨hbytes, hfailure⟩ := compilation_ignores_spelling {} none hclose hloose hmeaning
  exact ⟨hclose, hloose, hbytes, hlength, hfailure⟩

end TinyC
