import TinyC.Proofs.Typing.Lowering

/-!
# Bodies and their core programs

What holds of expressions is carried over to statements, functions and programs: `Lowers` walks
through a body and the core block it is lowered to at once, and a body runs like its block
(`Syntax.Block.run_eq`). Calls by name agree with calls by slot to any depth (`Program.call_eq`),
for each depth because bodies do at the depth below.
-/

namespace TinyC.Syntax

open Typing (Operand)
open Core (Calc Signal storeLeaves)

/-! ## Statements -/

section

variable (N : Nat → Names) (P : Nat → Phrase → Nat → Operand → Prop)

mutual

/-- A statement before which `n` local variables have been declared is lowered to a statement
whose code starts at an index. -/
def Stmt.Lowers (n start : Nat) : Stmt → Core.Stmt → Prop
  | .empty, a => a = .skip
  | .declare (.mk _ _ _ none _), a => a = .skip
  | .declare (.mk _ _ _ (some e) _), a => ∃ b, a = .assign ⟨.local, n⟩ b ∧
    e.Lowers (N n) (P n) (start + 1) (.value b)
  | .branch i, a => i.Lowers n start a
  | .loop _ cond body, a => ∃ c b, a = .loop c b ∧ cond.Decides (N n) (P n) (start + 1) c ∧
    body.Lowers n (start + 1 + c.size + 1) b
  | .ret _ none _, a => a = .ret none
  | .ret _ (some e) _, a => ∃ b, a = .ret (some b) ∧
    e.Lowers (N n) (P n) (start + 1) (.value b)
  | .brk _ _, a => a = .brk
  | .cont _ _, a => a = .cont
  | .call f as _, a => ∃ g es, a = .call g es ∧
    (Primary.call f as).Lowers (N n) (P n) start (.value (.call g es))
  | .assign x e _, a => ∃ place type b, a = .assign place b ∧
    (N n).place x.text = some (place, type) ∧ e.Lowers (N n) (P n) (start + 1) (.value b)
  | .declare (.gap _), _ => False
  | .unfinished _ _, _ => False
  | .gap _, _ => False

/-- A condition with its blocks is lowered to an `if`. -/
def If.Lowers (n start : Nat) : If → Core.Stmt → Prop
  | .mk cond body alternative, a => ∃ c b o, a = .choice c b o ∧
    cond.Decides (N n) (P n) start c ∧ body.Lowers n (start + c.size + 1) b ∧
    alternative.Lowers (n + body.declares.length) (start + c.size + 1 + b.size + 1) o

/-- What stands behind the block of a condition is lowered to a block, if there is anything. -/
def Else.Lowers (n start : Nat) : Else → Option Core.Block → Prop
  | .none, o => o = .none
  | .block b, o => ∃ a, o = some a ∧ b.Lowers n start a
  | .branch i, o => ∃ a, o = some (.cons a .nil) ∧ i.Lowers n start a
  | .gap _, _ => False

/-- A block is lowered to a block. -/
def Block.Lowers (n start : Nat) : Block → Core.Block → Prop
  | .stmts ss, b => ss.Lowers n start b
  | .gap _, _ => False

/-- Statements are lowered to a block. -/
def Stmts.Lowers (n start : Nat) : Stmts → Core.Block → Prop
  | .done _, b => b = .nil
  | .more s rest, b => ∃ a as, b = .cons a as ∧ s.Lowers n start a ∧
    rest.Lowers (n + s.declares.length) (start + a.size) as

end

end

section

variable {N : Nat → Names} {P : Nat → Phrase → Nat → Operand → Prop} {B : Nat → Bindings}
  {M : Core.Meaning} {Γ : Core.Env}

/-- An expression that is stored leaves the same word in its place. -/
theorem eval_store {B : Bindings} {e : Expr} {b : Core.Expr}
    (he : e.eval B = operandEval M (.value b)) (hnum : b.type.isNumeric = true) (place : Core.Place)
    (signal : Signal) :
    (do
      let d ← e.eval B
      modify (·.write place d.word)
      pure signal : Calc Signal)
      = (do
        let x ← b.eval M
        modify (·.write place x)
        pure signal) := by
  simp only [he, operandEval, bind_map_left, word_held hnum]

variable (hB : ∀ n, (B n).Matches (N n) M) (hΓ : Γ.Numeric) (rounds : Nat)

include hB hΓ

set_option linter.unusedSectionVars false

mutual

/-- A statement runs like the one it is lowered to. -/
theorem Stmt.run_eq (s : Stmt)
    {n start : Nat} {a : Core.Stmt} {inLoop : Bool} (h : s.Lowers N P n start a)
    (ha : a.Typed Γ inLoop) : s.run B rounds n = a.exec (storeLeaves M) rounds start := by
  match s, h with
  | .empty, h =>
    subst h
    rfl
  | .declare (.mk _ _ _ none _), h =>
    subst h
    rfl
  | .declare (.mk _ _ _ (some e) _), ⟨b, hval, he⟩ =>
    subst hval
    obtain ⟨hb, -, hnum⟩ := ha
    rw [Stmt.run, eval_store (Expr.eval_eq (hB n) hΓ e he hb) hnum]
    simp [Core.Stmt.exec, storeLeaves]
  | .branch i, h => exact If.run_eq i h ha
  | .loop _ cond body, ⟨c, b, hval, hcond, hbody⟩ =>
    subst hval
    obtain ⟨hc, hb⟩ := ha
    rw [Stmt.run, Relational.holds_eq (hB n) hΓ hcond hc, Block.run_eq body hbody hb]
    simp [Core.Stmt.exec, storeLeaves]
  | .ret _ none _, h =>
    subst h
    simp [Stmt.run, Core.Stmt.exec, storeLeaves]
  | .ret _ (some e) _, ⟨b, hval, he⟩ =>
    subst hval
    obtain ⟨hb, htype, hvoid⟩ := ha
    have hnum : b.type.isNumeric = true := by
      rw [htype]
      have hstring := hΓ.result
      cases hr : Γ.result with
      | void => exact absurd hr hvoid
      | string => exact absurd hr hstring
      | _ => rfl
    rw [Stmt.run, eval_store (Expr.eval_eq (hB n) hΓ e he hb) hnum]
    simp [Core.Stmt.exec, storeLeaves]
  | .brk _ _, h =>
    subst h
    simp [Stmt.run, Core.Stmt.exec, storeLeaves]
  | .cont _ _, h =>
    subst h
    simp [Stmt.run, Core.Stmt.exec, storeLeaves]
  | .call f as _, ⟨g, es, hval, hcall⟩ =>
    subst hval
    have hg : (Operand.value (.call g es)).Typed Γ := ha
    rw [Stmt.run, Primary.eval_eq (hB n) hΓ _ hcall hg]
    simp [operandEval, Core.Stmt.exec, storeLeaves]
  | .assign x e _, ⟨place, type, b, hval, hx, he⟩ =>
    subst hval
    obtain ⟨hb, -, hnum⟩ := ha
    have hplace : (B n).place x.text = some (place, type) := by rw [(hB n).place, hx]
    simp only [Stmt.run, hplace]
    rw [eval_store (Expr.eval_eq (hB n) hΓ e he hb) hnum]
    simp [Core.Stmt.exec, storeLeaves]

/-- A condition with its blocks runs like its `if`. -/
theorem If.run_eq (i : If)
    {n start : Nat} {a : Core.Stmt} {inLoop : Bool} (h : i.Lowers N P n start a)
    (ha : a.Typed Γ inLoop) : i.run B rounds n = a.exec (storeLeaves M) rounds start := by
  match i, h with
  | .mk cond body alternative, ⟨c, b, o, hval, hcond, hbody, halt⟩ =>
    subst hval
    cases o with
    | none =>
      obtain ⟨hc, hb⟩ := ha
      rw [If.run, Relational.holds_eq (hB n) hΓ hcond hc, Block.run_eq body hbody hb,
        Else.run_eq alternative halt
          (show ∀ a : Core.Block, none = some a → a.Typed Γ inLoop from nofun)]
      simp [Core.Stmt.choice, Core.Stmt.exec, storeLeaves]
    | some alt =>
      obtain ⟨hc, hb, hboth⟩ := ha
      rw [If.run, Relational.holds_eq (hB n) hΓ hcond hc, Block.run_eq body hbody hb,
        Else.run_eq alternative halt fun _ h => Option.some.inj h ▸ hboth]
      simp [Core.Stmt.choice, Core.Stmt.exec, storeLeaves]

/-- What stands behind the block of a condition runs like its block, or not at all. -/
theorem Else.run_eq (e : Else)
    {n start : Nat} {o : Option Core.Block} {inLoop : Bool} (h : e.Lowers N P n start o)
    (ho : ∀ a, o = some a → a.Typed Γ inLoop) :
    e.run B rounds n = match o with
      | none => pure .normal
      | some a => a.exec (storeLeaves M) rounds start := by
  match e, h with
  | .none, h =>
    subst h
    rfl
  | .block b, ⟨a, hval, hb⟩ =>
    subst hval
    exact Block.run_eq b hb (ho a rfl)
  | .branch i, ⟨a, hval, hi⟩ =>
    subst hval
    rw [Else.run, If.run_eq i hi (ho _ rfl).1]
    simp only [Core.Block.exec]
    refine (bind_pure _).symm.trans ?_
    congr 1
    funext signal
    cases signal <;> rfl

/-- A block runs like the one it is lowered to. -/
theorem Block.run_eq (b : Block)
    {n start : Nat} {a : Core.Block} {inLoop : Bool} (h : b.Lowers N P n start a)
    (ha : a.Typed Γ inLoop) : b.run B rounds n = a.exec (storeLeaves M) rounds start := by
  match b, h with
  | .stmts ss, h => exact Stmts.run_eq ss h ha

/-- Statements run like the block they are lowered to. -/
theorem Stmts.run_eq
    (ss : Stmts) {n start : Nat} {b : Core.Block} {inLoop : Bool} (h : ss.Lowers N P n start b)
    (hb : b.Typed Γ inLoop) : ss.run B rounds n = b.exec (storeLeaves M) rounds start := by
  match ss, h with
  | .done _, h =>
    subst h
    rfl
  | .more s rest, ⟨a, as, hval, hs, hrest⟩ =>
    subst hval
    obtain ⟨ha, has⟩ := hb
    rw [Stmts.run, Core.Block.exec, Stmt.run_eq s hs ha]
    refine bind_congr fun signal => ?_
    cases signal with
    | normal => exact Stmts.run_eq rest hrest has
    | _ => rfl

end

end

/-! ## Programs -/

/-- The name of a function and the type of its result. -/
def Fn.signature : Fn → String × Ty
  | .mk f _ (.ok (type, _)) => (f.text, type)
  | _ => ("", .void)

/-- What the name of a function is lowered to: functions have the slots from one on. -/
def Program.callee (p : Program) (f : String) : Option Core.Callee :=
  match Builtin.ofName? f with
  | some b => some (.builtin b)
  | none =>
    (seek f (p.functions.map Fn.signature)).map fun (i, type) => .function (i + 1) type

/-- What names are lowered to where `n` local variables have been declared. -/
def Program.names (p : Program) (texts : Nat → List UInt8) (D : Declared) (n : Nat) : Names :=
  ⟨D.place n, p.callee, texts⟩

/-- The initial values of globals are lowered to assignments to the slots from one on. -/
def InitsLower (N : Names) (P : Phrase → Nat → Operand → Prop) :
    Nat → Nat → List Decl → List Core.Init → Prop
  | _, _, [], is => is = []
  | slot, start, .mk _ _ _ none _ :: ds, is => InitsLower N P (slot + 1) start ds is
  | slot, start, .mk _ _ _ (some e) _ :: ds, is => ∃ a rest, is = ⟨slot, a⟩ :: rest ∧
    e.Lowers N P (start + 1) (.value a) ∧
    InitsLower N P (slot + 1) (start + (Core.Init.code ⟨slot, a⟩).length) ds rest
  | _, _, .gap _ :: _, _ => False

section

variable (p : Program) (texts : Nat → List UInt8)

/-- A function is lowered to a function. -/
def Fn.Lowers (P : Declared → Nat → Phrase → Nat → Operand → Prop) : Fn → Core.Fn → Prop
  | .mk _ params (.ok (type, body)), fn => fn.type = type ∧
    body.Lowers (p.names texts (p.inside params type body)) (P (p.inside params type body)) 0 0
      fn.body
  | _, _ => False

/-- A program is lowered to a core program. Of a phrase it can be said in which function it stands,
what its names stand for, and how many local variables have been declared before it. -/
structure Program.Lowers (P : Nat → Declared → Nat → Phrase → Nat → Operand → Prop)
    (core : Core.Program) : Prop where
  inits : InitsLower (p.names texts p.outside 0) (P 0 p.outside 0) Builtin.all.length 0 p.decls
    core.inits
  length : core.functions.length = p.functions.length
  functions : ∀ (i : Nat) (f : Fn) (fn : Core.Fn), p.functions[i]? = some f →
    core.functions[i]? = some fn → f.Lowers p texts (P (i + 1)) fn

end

/-- The first function of a name is found both by its name and among the signatures. -/
theorem find?_of_seek {fs : List Fn} {f : String} {i : Nat} {type : Ty}
    (hfs : ∀ g ∈ fs, ∃ name params type body, g = .mk name params (.ok (type, body)))
    (h : seek f (fs.map Fn.signature) = some (i, type)) :
    ∃ name params body, fs[i]? = some (.mk name params (.ok (type, body))) ∧
      fs.find? (Fn.named f) = some (.mk name params (.ok (type, body))) := by
  induction fs generalizing i with
  | nil => cases h
  | cons g fs ih =>
    obtain ⟨name, params, type', body, rfl⟩ := hfs g List.mem_cons_self
    simp only [List.map_cons, Fn.signature, seek] at h
    split at h
    · rename_i hname
      cases h
      exact ⟨name, params, body, rfl, by simp [Fn.named, hname]⟩
    · rename_i hname
      obtain ⟨⟨j, type''⟩, hseek, heq⟩ := Option.map_eq_some_iff.mp h
      cases heq
      obtain ⟨name', params', body', hget, hfind⟩ :=
        ih (fun g hg => hfs g (List.mem_cons_of_mem _ hg)) hseek
      exact ⟨name', params', body', hget, by simp [Fn.named, hname, hfind]⟩

section

variable {p : Program} {P : Nat → Declared → Nat → Phrase → Nat → Operand → Prop}
  {core : Core.Program} {L : Core.Library}

/-- Every function of a program that is lowered has a body. -/
theorem Program.Lowers.complete (h : p.Lowers L.texts P core) {g : Fn} (hg : g ∈ p.functions) :
    ∃ name params type body, g = .mk name params (.ok (type, body)) := by
  obtain ⟨i, hi⟩ := List.mem_iff_getElem?.mp hg
  have hlt : i < core.functions.length := by
    rw [h.length]
    exact (List.getElem?_eq_some_iff.mp hi).1
  have hlow := h.functions i g _ hi (List.getElem?_eq_getElem hlt)
  match g, hlow with
  | .mk name params (.ok (type, body)), _ => exact ⟨name, params, type, body, rfl⟩

/-- The library has the functions of a program, each with the variables that it declares. -/
structure Program.Stocks (p : Program) (core : Core.Program) (L : Core.Library) : Prop where
  functions : L.functions = core.functions
  locals : ∀ i name params type body, p.functions[i]? = some (.mk name params (.ok (type, body))) →
    L.locals (i + 1) = body.declares.length
  typed : ∀ fn ∈ core.functions, ∃ Γ : Core.Env, Γ.Numeric ∧ fn.body.Typed Γ false

theorem Program.callee_eq_builtin {f : String} {b : Builtin} (h : p.callee f = some (.builtin b)) :
    Builtin.ofName? f = some b := by
  unfold callee at h
  split at h
  · rename_i b' hb
    cases h
    exact hb
  · obtain ⟨_, -, heq⟩ := Option.map_eq_some_iff.mp h
    cases heq

theorem Program.callee_eq_function {f : String} {slot : Nat} {type : Ty}
    (h : p.callee f = some (.function slot type)) :
    Builtin.ofName? f = none ∧
      ∃ i, slot = i + 1 ∧ seek f (p.functions.map Fn.signature) = some (i, type) := by
  unfold callee at h
  split at h
  · cases h
  · rename_i hf
    obtain ⟨⟨i, type'⟩, hseek, heq⟩ := Option.map_eq_some_iff.mp h
    cases heq
    exact ⟨hf, i, rfl, hseek⟩

/-- A function runs like the one at its slot, if the functions it calls do. -/
theorem Program.call_succ (h : p.Lowers L.texts P core) (hL : p.Stocks core L) {rounds depth : Nat}
    (hdeep : ∀ D n,
      (p.bindings rounds depth D n).Matches (p.names L.texts D n) (L.meaning rounds depth))
    {f : String} {slot : Nat} {type : Ty} (hf : p.callee f = some (.function slot type))
    (ds : List Datum) :
    p.call rounds (depth + 1) f ds
      = Datum.ofWord type <$> L.call rounds (depth + 1) slot (ds.map Datum.word) := by
  obtain ⟨hname, i, rfl, hseek⟩ := callee_eq_function hf
  obtain ⟨name, params, body, hget, hfind⟩ := find?_of_seek (fun g => h.complete) hseek
  have hlt : i < core.functions.length := by
    rw [h.length]
    exact (List.getElem?_eq_some_iff.mp hget).1
  have hfn : core.functions[i]? = some (core.functions.get ⟨i, hlt⟩) :=
    List.getElem?_eq_getElem hlt
  generalize core.functions.get ⟨i, hlt⟩ = fn at hfn
  obtain ⟨rfl, hbody⟩ := h.functions i _ _ hget hfn
  obtain ⟨Γ, hΓ, htyped⟩ := hL.typed fn (List.mem_of_getElem? hfn)
  have hrun : body.run (fun n => ⟨(p.inside params fn.type body).place n, p.call rounds depth⟩)
      rounds 0 = fn.body.exec (storeLeaves ⟨L.texts, L.call rounds depth⟩) rounds 0 :=
    Block.run_eq (hdeep (p.inside params fn.type body)) hΓ rounds body hbody htyped
  simp only [call, hname, hfind, Core.Library.call, hL.functions, Nat.add_sub_cancel, hfn,
    hL.locals i _ _ _ _ hget, map_bind, hrun]

/-- Calls by name do what calls by slot do, to any depth. -/
theorem Program.call_eq (h : p.Lowers L.texts P core) (hL : p.Stocks core L) (rounds depth : Nat)
    (D : Declared) (n : Nat) :
    (p.bindings rounds depth D n).Matches (p.names L.texts D n) (L.meaning rounds depth) := by
  have hbuiltin : ∀ d f b ds, p.callee f = some (.builtin b) →
      p.call rounds d f ds = applyBuiltin b ds := by
    intro d f b ds hf
    unfold call
    rw [callee_eq_builtin hf]
  induction depth generalizing D n with
  | zero =>
    refine ⟨rfl, rfl, hbuiltin 0, fun f slot type ds hf => ?_⟩
    obtain ⟨hname, -⟩ := callee_eq_function hf
    simp only [bindings, call, hname, Core.Library.meaning, Core.Library.call]
    rfl
  | succ depth ih =>
    exact ⟨rfl, rfl, hbuiltin (depth + 1), fun f slot type ds hf => call_succ h hL ih hf ds⟩

end

end TinyC.Syntax
