import TinyC.Proofs.Typing.Lexical
import TinyC.Proofs.Typing.OnePass

/-!
# Tables or one located error

A pass that produces code while it reads never breaks down on the tree of a program
(`OnePass.follows_program`). The code of a function is complete at its end, since outside all loops
no break is left, and the entry function sets the globals and then calls the main function wherever
that is declared.

With the tokens this says what can come of a program (`tables_or_located_error`): tables, or an
error at the position of a token that has been looked at.
-/

namespace TinyC

namespace Typing

open Core (mainCode)
open Walk State
open Syntax (Name)

namespace OnePass

variable {p : Pass} {n : Nat}

/-! ## Functions -/

/-- What needs no patching is the code itself. -/
theorem code_of_completes {is : List Instr} {code : Nat → List Instr} {start : Nat}
    (h : Completes start is [] code) (exit : Nat) : is = code exit := by
  have hpatch := (h exit).2 (List.replicate start ⟨.pop, 0⟩) [] List.length_replicate
  have heq := Listing.mk.inj (Except.ok.inj hpatch)
  simpa using heq

theorem follows_finish {fn : Core.Fn} (hcode : p.code.instrs = fn.body.outerCode) (name : String) :
    Follows (finish name fn.type)
      (do
        if fn.needsReturn then emit ⟨.ret, 0⟩
        leave name fn.code
        pure fn) p fun g _ q => g = fn ∧ q.entry = p.entry := by
  have hneeds : fn.needsReturn = true ↔
      fn.type = .void ∨ p.code.last?.map Instr.op ≠ some .ret := by
    simp [Core.Fn.needsReturn, Listing.last?, hcode]
  have hlast : ∀ q : Pass, q.code.instrs = fn.code → q.entry = p.entry →
      Follows (do let p ← get; phrase (leave name p.code.instrs)) (do leave name fn.code; pure fn)
        q fun g _ r => g = fn ∧ r.entry = p.entry := by
    intro q hq hentry
    refine .ahead rfl rfl ?_
    rw [hq]
    exact .behind (follows_tables rfl) fun _ _ r hgrows => ⟨rfl, hgrows.entry.trans hentry⟩
  refine .ahead rfl rfl ?_
  by_cases hret : fn.needsReturn = true
  · rw [if_pos hret, if_pos (hneeds.mp hret)]
    refine .emit fun q _ hgrows => ?_
    exact hlast q (by rw [hgrows.code, hcode, Core.Fn.code, if_pos hret]) hgrows.entry
  · rw [if_neg hret, if_neg (mt hneeds.mpr hret)]
    exact hlast p (by rw [hcode, Core.Fn.code, if_neg hret, List.append_nil]) rfl

/-- A function whose name is not taken is entered, and the entry function calls it if it is the
main function. -/
theorem follows_enter {f : Function Nat} (hhas : p.state.functions.has f.name = false) :
    Follows (enter f) (Typing.enter f) p fun _ _ q =>
      q.code.instrs = [] ∧ q.entry.instrs = p.entry.instrs ++
        mainCode
          (if f.name = "main" then some (p.state.functions.count, f.type) else none) := by
  have hadd := (Table.add?_eq_some_iff (t := p.state.functions) (a := f)).mpr ⟨hhas, rfl⟩
  refine .ahead rfl rfl ?_
  dsimp only
  rw [hadd, ← bind_pure (Typing.enter f)]
  refine (follows_tables rfl).bind fun _ _ q _ _ => ?_
  refine follows_modify rfl ⟨rfl, ?_⟩
  dsimp only
  split
  · simp [Listing.emit, mainCode]
  · simp [mainCode]

/-- A function is passed through. The entry function calls it if it is the main function. -/
theorem follows_function (d : Syntax.Fn) (hp : d.Plain) (hw : d.Within n) (p : Pass) :
    Follows (function d) (Typing.function d) p fun fn _ q =>
      ∃ x ps rest, d = .mk x ps rest ∧ q.entry.instrs = p.entry.instrs ++
        mainCode
          (if x.text = "main" then some (p.state.functions.count, fn.type) else none) := by
  cases d with
  | gap g => exact follows_stuck
  | mk x ps rest =>
    unfold function Typing.function
    refine .look fun p₁ hlook h₁ => ?_
    refine .ahead rfl rfl (Follows.get ?_)
    split
    · exact follows_reject
    rename_i hnew
    refine .phrase (traces_parameters _ ps hw.2.1) ?_
    rintro f _ p₂ hparams h₂ ⟨rfl, -⟩
    cases rest with
    | error g => exact follows_stuck
    | ok pair =>
      obtain ⟨type, body⟩ := pair
      dsimp only
      have hstart : ParamsOK (Function.start x.text .void (some x.ord)).params := nofun
      obtain ⟨hsame, -, hf, -⟩ := yields_parameters hp.2.1 hstart hparams
      have hname : f.name = x.text := by rw [hf]; rfl
      have hhas : p₂.state.functions.has f.name = false := by
        rw [hsame.functions, hname]
        rw [Bool.or_eq_true, not_or] at hnew
        simpa using hnew.2
      refine (follows_enter (f := { f with type }) hhas).bind fun _ _ p₃ _ h₃ => ?_
      obtain ⟨hcode₃, hentry₃⟩ := h₃
      refine (follows_block ⟨some (x.text, type), false⟩ none rfl nofun body
        hp.2.2.2 hw.2.2 p₃).bind fun b r p₄ _ h₄ => ?_
      rw [h₄.terminates]
      split
      · exact follows_reject
      have hcode : p₄.code.instrs = (⟨type, b⟩ : Core.Fn).body.outerCode := by
        obtain ⟨is, his, hcompletes⟩ := h₄.emitted
        have hlength : p₃.code.length = 0 := congrArg List.length hcode₃
        rw [h₄.outside rfl, hlength] at hcompletes
        rw [his, hcode₃, code_of_completes hcompletes 0]
        rfl
      refine (follows_finish hcode x.text).imp ?_
      rintro _ _ q ⟨rfl, hentry⟩
      refine ⟨x, ps, _, rfl, ?_⟩
      rw [hentry, h₄.entry, hentry₃, h₂.entry, h₁.entry, hsame.functions,
        (adds_look hlook).functions, ← hname]

/-- Behind a function the main function is the one from before, or the new one. -/
theorem mainOf_function {s s' t t' : State} {x : Name} {f : Function Nat} {body : Syntax.Block}
    {fn : Core.Fn} (w : FunctionWalk s x f t body t' fn s') (hx : x.text ≠ "")
    (hplain : body.Plain) (htype : fn.type ≠ .string) (hs : s.Between) :
    mainCode (mainOf s') = mainCode (mainOf s) ++
      mainCode (if x.text = "main" then some (s.functions.count, fn.type) else none) := by
  obtain ⟨-, hadv, -⟩ := w.moves hplain htype hs
  have hmain : s'.main = if x.text = "main" then some s.functions.count else s.main := by
    rw [w.main_out, hadv.main, w.main_in]
  have hcount : s.functions.count = s.functions.rows.length := hs.functions_full
  unfold mainOf
  rw [hmain, w.rows_out hx hadv]
  by_cases hname : x.text = "main"
  · -- the name was not taken, so there was no main function
    have hnone : s.main = none := by
      refine Option.eq_none_iff_forall_ne_some.mpr fun slot hslot => ?_
      obtain ⟨g, hg, hgname⟩ := (hs.main_name slot).mp hslot
      exact Table.name_ne_of_has hx w.fresh g (List.mem_of_getElem? hg)
        (hgname.trans hname.symm)
    have htype : (FunctionWalk.finished f t' fn).type = fn.type := w.type_eq
    simp [hname, hnone, hcount, htype, mainCode]
  · rw [if_neg hname, if_neg hname]
    cases hslot : s.main with
    | none => rfl
    | some slot =>
      obtain ⟨g, hg, -⟩ := (hs.main_name slot).mp hslot
      have hlt := (List.getElem?_eq_some_iff.mp hg).1
      simp [List.getElem?_append_left hlt, mainCode]

/-- Functions are passed through one by one, and the entry function calls the main function. -/
theorem follows_functions (ds : List Syntax.Fn) (hp : ∀ d ∈ ds, d.Plain)
    (hw : ∀ d ∈ ds, d.Within n) (p : Pass) (hs : p.state.Between) :
    Follows (ds.forM function) (functions ds) p fun _ _ q =>
      ∀ inits, p.entry.instrs = inits ++ mainCode (mainOf p.state) →
        q.entry.instrs = inits ++ mainCode (mainOf q.state) := by
  induction ds generalizing p with
  | nil => exact follows_pure fun _ h => h
  | cons d ds ih =>
    have hdplain := hp d List.mem_cons_self
    refine (follows_function d hdplain (hw d List.mem_cons_self) p).bind ?_
    rintro fn _ q hfn ⟨x, ps, rest, rfl, hentry⟩
    obtain ⟨x', ps', body, f, t, t', heq, -, hwalk⟩ := yields_function hdplain hfn
    cases heq
    obtain ⟨hx, -, htype, hplain⟩ := hdplain
    have hmain := mainOf_function hwalk hx hplain htype hs
    refine .behind (ih (fun d h => hp d (List.mem_cons_of_mem _ h))
      (fun d h => hw d (List.mem_cons_of_mem _ h)) q (hwalk.between hx hplain htype hs).1) ?_
    intro fns _ r hrest inits hinits
    refine hrest inits ?_
    rw [hentry, hinits, hmain, List.append_assoc]

/-! ## Programs -/

/-- The code of the entry function sets the globals in the order of their declarations. -/
theorem follows_globals (ds : List Syntax.Decl) (hp : ∀ d ∈ ds, d.Plain)
    (hw : ∀ d ∈ ds, d.Within n) (p : Pass) :
    Follows (ds.forM (declaration ⟨none, false⟩)) (globals ds) p fun inits _ q =>
      p.Grows q (inits.flatMap Core.Init.code) := by
  induction ds generalizing p with
  | nil => exact follows_pure ⟨(List.append_nil _).symm, rfl⟩
  | cons d ds ih =>
    refine (follows_declaration ⟨none, false⟩ d (hp d List.mem_cons_self) (hw d List.mem_cons_self)
      p).bind fun given _ q _ hgrows => ?_
    obtain ⟨slot, init⟩ := given
    have hrest := ih (fun d h => hp d (List.mem_cons_of_mem _ h))
      (fun d h => hw d (List.mem_cons_of_mem _ h)) q
    cases init with
    | none => exact hrest.imp fun inits _ r h => hgrows.trans h
    | some a => exact .behind hrest fun inits _ r h => hgrows.trans h

/-- **A pass through a program never breaks down.** It gives the tables of the analysis, or it stops
for the fault that the analysis finds. -/
theorem follows_program (t : Syntax.Program) (hp : t.Plain) (hw : t.Within n) :
    Follows (program t) (Typing.program t) {} fun core given q =>
      given = tables q.state core := by
  unfold program Typing.program
  refine (follows_globals t.decls hp.1 hw.decls {}).bind fun inits _ p₁ hinits h₁ => ?_
  obtain ⟨hbetween, -, hfunctions, -⟩ := initialized_globals hp.1 hinits between_start bare_start
  have hnone : p₁.state.main = none := by
    refine Option.eq_none_iff_forall_ne_some.mpr fun slot hslot => ?_
    obtain ⟨g, hg, hgname⟩ := (hbetween.main_name slot).mp hslot
    rw [hfunctions] at hg
    cases slot with
    | zero =>
      cases hg
      exact absurd hgname (by decide)
    | succ slot => cases hg
  refine .ahead rfl rfl ?_
  refine (follows_functions t.functions hp.2 hw.functions { p₁ with entry := p₁.code }
    hbetween).bind fun fns _ p₂ _ h₂ => ?_
  have hentry : p₂.entry.instrs =
      inits.flatMap Core.Init.code ++ mainCode (mainOf p₂.state) := by
    refine h₂ _ ?_
    show p₁.code.instrs = _
    rw [h₁.code]
    simp [mainOf, hnone, mainCode]
  refine .close fun p₃ hclose h₃ => ?_
  have hsame : mainOf p₃.state = mainOf p₂.state := by
    rw [mainOf, (adds_close hclose).main, (adds_close hclose).functions, mainOf]
  refine .get (Follows.ahead rfl rfl (follows_pure ?_))
  unfold tables Core.Program.entryCode
  rw [hsame, ← hentry, ← h₃.entry]

end OnePass

end Typing

/-! ## Tokens -/

namespace Lexeme

open Text (Glyph)

/-- A character literal holds one character, and that is its value. -/
def OneChar (l : Lexeme) : Prop :=
  ∀ v, l.reading = .ok (.charLiteral, v) →
    ∃ c, l.spelling = String.singleton c ∧ v = .int c.toNat.toInt64

theorem oneChar_error {f : Flaw} {s : String} {gs rest : List Glyph} {probed : Bool} :
    OneChar ⟨.error f, s, gs, rest, probed⟩ :=
  fun _ h => by cases h

theorem oneChar_closeChar (c : Char) (front gs : List Glyph) : (closeChar c front gs).OneChar := by
  unfold closeChar
  split
  · split
    · intro v h
      cases h
      exact ⟨c, rfl, rfl⟩
    · exact oneChar_error
  · exact oneChar_error

theorem oneChar_charLiteral (broken : Bool) (q : Glyph) (gs : List Glyph) :
    (charLiteral broken q gs).OneChar := by
  unfold charLiteral
  split
  · split
    · exact oneChar_closeChar _ _ _
    · exact oneChar_error
  · split
    · split
      · split
        · exact oneChar_closeChar _ _ _
        · exact oneChar_error
      · exact oneChar_error
    · split
      · exact oneChar_error
      · exact oneChar_closeChar _ _ _

/-- What is read as another kind is no character literal. -/
theorem oneChar_of_ne {l : Lexeme} (h : ∀ v, l.reading ≠ .ok (.charLiteral, v)) : l.OneChar :=
  fun v hv => absurd hv (h v)

theorem oneChar_number (gs : List Glyph) : (number gs).OneChar := by
  refine oneChar_of_ne fun v h => ?_
  unfold number fraction exponent exponentDigits fractional whole at h
  grind

theorem oneChar_word (first : Glyph) (gs : List Glyph) : (word first gs).OneChar := by
  refine oneChar_of_ne fun v h => ?_
  simp only [word, Except.ok.injEq] at h
  split at h
  · rename_i k hk
    cases h
    cases fixed?_of_keyword? hk
  · cases h

theorem oneChar_stringLiteral (q : Glyph) (gs : List Glyph) : (stringLiteral q gs).OneChar := by
  refine oneChar_of_ne fun v h => ?_
  simp only [stringLiteral] at h
  cases hend : (stringBody gs).ending <;> rw [hend] at h <;> cases h

theorem oneChar_alone {short : Option Kind} {s : String} {g : Glyph} {gs : List Glyph}
    (h : ∀ k, short = some k → k.fixed? = some s) : (alone short g gs).OneChar := by
  cases short with
  | none => exact oneChar_error
  | some k =>
    refine oneChar_of_ne fun v hv => ?_
    cases hv
    cases h _ rfl

theorem oneChar_operator (g : Glyph) (gs : List Glyph) : (operator g gs).OneChar := by
  unfold operator
  split
  · rename_i k hk
    refine oneChar_of_ne fun v hv => ?_
    cases hv
    cases fixed?_of_single? hk
  · split
    · rename_i second long short hp
      obtain ⟨hlong, hshort⟩ := fixed?_of_pair? hp
      unfold paired
      split
      · split
        · refine oneChar_of_ne fun v hv => ?_
          cases hv
          cases hlong
        · exact oneChar_alone hshort
      · exact oneChar_alone hshort
    · exact oneChar_error

theorem oneChar_scan (broken : Bool) (g : Glyph) (gs : List Glyph) :
    (scan broken g gs).OneChar := by
  unfold scan
  split
  · exact oneChar_number _
  split
  · exact oneChar_word _ _
  split
  · exact oneChar_charLiteral _ _ _
  split
  · exact oneChar_stringLiteral _ _
  · exact oneChar_operator _ _

end Lexeme

namespace Cursor

/-- The text of a character literal is its one character. -/
theorem oneChar_read {c : Cursor} (h : c.read.1.token.kind = .charLiteral) :
    ∃ ch, c.read.1.token.spelling = String.singleton ch ∧
      c.read.1.token.value = .int ch.toNat.toInt64 := by
  unfold read at h ⊢
  split at h
  · dsimp only [ending] at h
    split at h <;> cases h
  · rename_i g gs hrest
    dsimp only [tokenOf] at h ⊢
    split at h
    · rename_i kind value hreading
      cases h
      exact Lexeme.oneChar_scan c.broken g gs value hreading
    · cases h

/-- The error that a token stands for is where the token is. -/
theorem pos_of_fault {c : Cursor} {d : Diagnostic} (h : c.read.1.token.value = .fault d) :
    d.pos = c.read.1.token.pos := by
  unfold read at h ⊢
  split at h
  · dsimp only [ending] at h ⊢
    split at h
    · rename_i hbroken
      rw [if_pos hbroken]
      cases h
      rfl
    · cases h
  · rename_i g gs hrest
    dsimp only [tokenOf] at h ⊢
    split at h
    · rename_i kind value hreading
      have hregular := Lexeme.regular_scan c.broken g gs kind value hreading ⟨"", 0, 0, 0⟩
      cases h
      cases hregular
    · cases h
      rfl

end Cursor

/-- A fault is reported where its token is. -/
theorem Typing.Fault.pos_diagnostic (f : Typing.Fault) {t : Token}
    (h : ∀ d, t.value = .fault d → d.pos = t.pos) : (f.diagnostic t).pos = t.pos := by
  unfold Typing.Fault.diagnostic
  split
  · rename_i hvalue
    exact h _ hvalue
  · rfl

/-! ## Sources -/

/-- What a pass through a program gives. -/
def Source.onePass (s : Source) : Except Typing.Stop (ProgramTables Nat) :=
  ((Typing.OnePass.program s.tree).outcome {}).1

/-- The tokens that the analysis of a program has looked at when it ends. -/
def Source.looked (s : Source) : List Lexed :=
  s.tokens.take (check s.words).2.seen

/-- What is known of a program whose walk comes to its end. -/
theorem Program.result_of_check {p : Program} {core : Core.Program} {s : Typing.State}
    (h : check p.source.words = (.ok core, s)) :
    p.analyse.result = .ok ⟨(Typing.tables s core).mapPos
      fun ord => (tokenAt p.source.tokens.toArray ord).pos, core⟩ := by
  unfold Program.analyse TinyC.analyse
  dsimp only
  rw [show wordsOf (p.source.tokens.map Lexed.token) = p.source.words from rfl, h]

/-- The error for a fault that stopped the walk. -/
theorem Program.result_of_fault {p : Program} {f : Typing.Fault} {s : Typing.State}
    (h : check p.source.words = (.error f, s)) (hord : f.ord < p.source.tokens.length) :
    p.analyse.result = .error (.diagnostic (f.diagnostic p.source.tokens[f.ord].token)) := by
  unfold Program.analyse TinyC.analyse
  dsimp only
  rw [show wordsOf (p.source.tokens.map Lexed.token) = p.source.words from rfl, h]
  simp [tokenAt, hord]

/-- **Every program has tables or one located error.** The analysis ends, and so does the pass that
produces code while it reads, which never breaks down: it sets the target of no instruction that is
missing or no branch, always has a table to declare in, and no table ever refuses a name that was
found to be free. Either both give the same tables, or both find the same fault. The error is then
the one for that fault, and it is reported at the position of a token that has been looked at; if a
token is missing, the error tells which could have stood there. The analysis looks at none but the
tokens of the program, and a character literal among them always holds one character. -/
theorem tables_or_located_error (p : Program) :
    ((∃ a t, p.analyse.result = .ok a ∧ p.source.onePass = .ok t ∧
        a.tables = t.mapPos fun ord => (tokenAt p.source.tokens.toArray ord).pos) ∨
      ∃ d f t, p.analyse.result = .error (.diagnostic d) ∧ p.source.onePass = .error (.fault f) ∧
        p.source.looked[f.ord]? = some t ∧ d = f.diagnostic t.token ∧ d.pos = t.token.pos ∧
        ∀ ks, f.cause = .expected ks → ks ≠ []) ∧
      (check p.source.words).2.seen ≤ p.source.tokens.length ∧
      ∀ t ∈ p.source.tokens, t.token.kind = .charLiteral →
        ∃ c, t.token.spelling = String.singleton c ∧ t.token.value = .int c.toNat.toInt64 := by
  refine ⟨?_, p.source.before_check.1.seen, fun t ht hkind => ?_⟩
  · have hfollows := Typing.OnePass.follows_program p.source.tree
      p.source.plain_tree p.source.within_tree
    obtain ⟨core, t, q, hwalk, hpass, rfl⟩ | ⟨f, q, hwalk, hpass⟩ := hfollows
    · have hcheck : check p.source.words = (.ok core, q.state) := hwalk
      exact .inl ⟨_, _, Program.result_of_check hcheck, congrArg Prod.fst hpass, rfl⟩
    · have hcheck : check p.source.words = (.error f, q.state) := hwalk
      obtain ⟨hbefore, hfault⟩ := p.source.before_check
      rw [hcheck] at hbefore hfault
      obtain ⟨hseen, hwant⟩ := hfault f rfl
      have hord : f.ord < p.source.tokens.length := Nat.lt_of_lt_of_le hseen hbefore.seen
      have hlooked : p.source.looked[f.ord]? = some p.source.tokens[f.ord] := by
        rw [Source.looked, hcheck, List.getElem?_take_of_lt hseen, List.getElem?_eq_getElem hord]
      have hresult := Program.result_of_fault hcheck hord
      obtain ⟨c, hc⟩ := Cursor.exists_read_of_mem_tokens (List.getElem_mem hord)
      refine .inr ⟨_, f, _, hresult, congrArg Prod.fst hpass, hlooked, rfl, ?_, hwant⟩
      rw [hc]
      exact f.pos_diagnostic fun d => Cursor.pos_of_fault
  · obtain ⟨c, rfl⟩ := Cursor.exists_read_of_mem_tokens ht
    exact Cursor.oneChar_read hkind

end TinyC
