import TinyC.Proofs.Syntax.Evaluation
import TinyC.Proofs.Typing.Tables

/-!
# Trees and their core programs

A tree and the core program it is lowered to go together phrase by phrase. `Lowers` walks through
both at once and keeps count of the instructions laid out before, so that every phrase comes with
the index at which its code starts; whatever is to be said of single phrases is a parameter. Names
are lowered to what the declarations of the tree say, whether or not the tables of analysis agree.

A phrase means what its core expression means (`Syntax.Expr.eval_eq`), and a function called by its
name does what the function at its slot does (`Syntax.Program.call_eq`).
-/

namespace TinyC

open Core (Env Meaning runBuiltin)

namespace Typing

/-- What an operand stands for is typed. -/
def Operand.Typed (Γ : Env) : Operand → Prop
  | .value e => e.Typed Γ
  | .test t => t.Typed Γ

/-- A number with signs before it. -/
def negated (e : Core.Expr) : List Bool → Core.Expr
  | [] => e
  | false :: ss => negated e ss
  | true :: ss => negated (.negate e.type e) ss

theorem negated_of_no_minus {ss : List Bool} (h : ss.any id = false) (e : Core.Expr) :
    negated e ss = e := by
  induction ss with
  | nil => rfl
  | cons b ss ih =>
    cases b with
    | false => exact ih h
    | true => cases h

end Typing

open Typing (Operand negated negated_of_no_minus)

/-- The code of an operand. -/
def Typing.Operand.code : Operand → List Instr
  | .value e => e.code
  | .test c => c.code

/-- An operand with signs before it. -/
def Typing.Operand.behind (signs : List Bool) : Operand → Operand
  | .value e => .value (negated e signs)
  | .test c => .test c

/-- The condition that an operand is: a comparison, or a number that is not zero. -/
def Typing.Operand.condition : Operand → Core.Cond
  | .value e => .nonzero e
  | .test c => c

/-- An `if` with the block behind its `else`, if any. -/
def Core.Stmt.choice (c : Cond) (body : Block) : Option Block → Stmt
  | none => .ifThen c body
  | some alternative => .ifElse c body alternative

/-- Functions take numbers, and the one at hand gives no text. -/
structure Core.Env.Numeric (Γ : Env) : Prop where
  params : ∀ f ∈ Γ.functions, ∀ t ∈ f.params, t.isNumeric = true
  result : Γ.result ≠ .string

namespace Syntax

/-- What the names and the texts of a program are lowered to. -/
structure Names where
  place : String → Option (Core.Place × Ty)
  callee : String → Option Core.Callee
  texts : Nat → List UInt8

/-- A phrase that has code of its own. -/
inductive Phrase where
  | expr (e : Expr)
  | term (t : Term)
  | factor (f : Factor)
  | casted (b : Casted)
  | primary (p : Primary)
  | relational (r : Relational)
  /-- The condition of an `if` or a loop. -/
  | condition (r : Relational)

/-- The value of a phrase. That of a condition is its truth. -/
def Phrase.eval (B : Bindings) : Phrase → Core.Calc Datum
  | expr e => e.eval B
  | term t => t.eval B
  | factor f => f.eval B
  | casted b => b.eval B
  | primary p => p.eval B
  | relational r => r.eval B
  | condition r => Datum.truth <$> r.holds B

section

variable (N : Names) (P : Phrase → Nat → Operand → Prop)

mutual

/-- A sum whose code starts at an index is lowered to an operand; so are its parts. -/
def Expr.Lowers (q : Nat) : Expr → Operand → Prop
  | .term t, v => P (.expr (.term t)) q v ∧ t.Lowers q v
  | .sum l op r, v => P (.expr (.sum l op r)) q v ∧
    ∃ type a b, v = .value (.arith op type a b) ∧ l.Lowers q (.value a) ∧
      r.Lowers (q + a.code.length) (.value b)

/-- A product is lowered to an operand. -/
def Term.Lowers (q : Nat) : Term → Operand → Prop
  | .factor f, v => P (.term (.factor f)) q v ∧ f.Lowers q v
  | .product l op r, v => P (.term (.product l op r)) q v ∧
    ∃ type a b, v = .value (.arith op type a b) ∧ l.Lowers q (.value a) ∧
      r.Lowers (q + a.code.length) (.value b)

/-- A phrase behind signs is lowered to an operand. -/
def Factor.Lowers (q : Nat) : Factor → Operand → Prop
  | .mk ord signs body, v => P (.factor (.mk ord signs body)) q v ∧
    ∃ u : Operand, v = u.behind signs ∧ (signs.any id = true → u.type.isNumeric = true) ∧
      body.Lowers q u

/-- A primary with its casts is lowered to an operand. -/
def Casted.Lowers (q : Nat) : Casted → Operand → Prop
  | .primary p, v => P (.casted (.primary p)) q v ∧ p.Lowers q v
  | .cast body ord target, v => P (.casted (.cast body ord target)) q v ∧
    ∃ source a, v = .value (.convert source target a) ∧ body.Lowers q (.value a)
  | .untyped _ _ _, _ => False

/-- A primary is lowered to an operand. -/
def Primary.Lowers (q : Nat) : Primary → Operand → Prop
  | .name x, v => P (.primary (.name x)) q v ∧
    ∃ place type, v = .value (.load place type) ∧ N.place x.text = some (place, type)
  | .call f as, v => P (.primary (.call f as)) q v ∧
    ∃ g es, v = .value (.call g es) ∧ N.callee f.text = some g ∧ as.Lowers (q + 1) es
  | .int word ord, v => P (.primary (.int word ord)) q v ∧ v = .value (.int word)
  | .double bits ord, v => P (.primary (.double bits ord)) q v ∧ v = .value (.double bits)
  | .text s ord, v => P (.primary (.text s ord)) q v ∧
    ∃ slot, v = .value (.text slot) ∧ N.texts (UInt64.ofNat slot).toNat = Text.bytesOf s
  | .paren ord inner close, v => P (.primary (.paren ord inner close)) q v ∧ inner.Lowers q v
  | .gap _, _ => False

/-- An expression or comparison is lowered to an operand. -/
def Relational.Lowers (q : Nat) : Relational → Operand → Prop
  | .value e, v => P (.relational (.value e)) q v ∧ e.Lowers q v
  | .compare l op r, v => P (.relational (.compare l op r)) q v ∧
    ∃ type a b, v = .test (.compare op type a b) ∧ l.Lowers q (.value a) ∧
      r.Lowers (q + a.code.length) (.value b)

/-- Arguments are lowered to arguments. -/
def Args.Lowers (q : Nat) : Args → Core.Args → Prop
  | .done _, es => es = .nil
  | .more e rest, es => ∃ a as, es = .cons a as ∧ e.Lowers q (.value a) ∧
    rest.Lowers (q + a.code.length) as
  | .gap _, _ => False

end

/-- The condition of an `if` or a loop is lowered to a condition. -/
def Relational.Decides (q : Nat) (r : Relational) (c : Core.Cond) : Prop :=
  P (.condition r) q (.test c) ∧ ∃ v : Operand, c = v.condition ∧ r.Lowers N P q v

end

/-! ## Values -/

/-- The value that the word of an expression stands for. -/
def held (texts : Nat → List UInt8) (type : Ty) (x : UInt64) : Datum :=
  if type = .string then .text (texts x.toNat) else .ofWord type x

/-- The value of an operand. -/
def operandEval (M : Meaning) : Operand → Core.Calc Datum
  | .value e => held M.texts e.type <$> e.eval M
  | .test c => Datum.truth <$> c.eval M

section

variable {texts : Nat → List UInt8} {type : Ty} (h : type.isNumeric = true)
include h

theorem arithmetic_held (op : ArithOp) (a b : UInt64) :
    Datum.arithmetic op (held texts type a) (held texts type b)
      = held texts type <$> Core.arithmetic op type a b := by
  cases type with
  | int | double => rfl
  | _ => cases h

theorem compare_held (op : RelOp) (a b : UInt64) :
    Datum.compare op (held texts type a) (held texts type b)
      = .truth (Core.compares op type a b) := by
  cases type with
  | int | double => rfl
  | _ => cases h

theorem negate_held (x : UInt64) :
    (held texts type x).negate = held texts type (Core.negated type x) := by
  cases type with
  | int | double => rfl
  | _ => cases h

theorem cast_held {target : Ty} (ht : target.isNumeric = true) (x : UInt64) :
    (held texts type x).cast target = held texts target (Core.converted type target x) := by
  cases type with
  | int | double =>
    cases target with
    | int | double => rfl
    | _ => cases ht
  | _ => cases h

theorem word_held (x : UInt64) : (held texts type x).word = x := by
  cases type with
  | int | double => rfl
  | _ => cases h

theorem holds_held (x : UInt64) : (held texts type x).holds = (x != 0) := by
  cases type with
  | int | double => rfl
  | _ => cases h

end

/-- Signs can be applied in any order. -/
theorem behind_negate (signs : List Bool) (d : Datum) :
    d.negate.behind signs = (d.behind signs).negate := by
  induction signs with
  | nil => rfl
  | cons minus signs ih => cases minus <;> simp [Datum.behind] at ih ⊢ <;> simp [ih]

theorem behind_of_no_minus {signs : List Bool} (h : signs.any id = false) (d : Datum) :
    d.behind signs = d := by
  induction signs with
  | nil => rfl
  | cons minus signs ih =>
    cases minus with
    | false => exact ih h
    | true => cases h

theorem eval_negate (M : Meaning) {e : Core.Expr} (h : e.type.isNumeric = true) :
    operandEval M (.value (.negate e.type e)) = Datum.negate <$> operandEval M (.value e) := by
  show held M.texts e.type <$> (e.eval M >>= fun x => pure (Core.negated e.type x))
    = Datum.negate <$> (held M.texts e.type <$> e.eval M)
  simp only [bind_pure_comp, Functor.map_map, negate_held h]

/-- Signs before a number negate its value. -/
theorem eval_negated (M : Meaning) {e : Core.Expr} (h : e.type.isNumeric = true)
    (signs : List Bool) :
    operandEval M (.value (negated e signs))
      = Datum.behind signs <$> operandEval M (.value e) := by
  induction signs generalizing e with
  | nil => exact (id_map _).symm
  | cons minus signs ih =>
    cases minus with
    | false => exact ih h
    | true =>
      refine (ih (e := .negate e.type e) h).trans ?_
      simp only [eval_negate M h, Functor.map_map, behind_negate]
      rfl

/-! ## Arguments -/

/-- The values of arguments. -/
def argsEval (M : Meaning) : Core.Args → Core.Calc (List Datum)
  | .nil => pure []
  | .cons e rest => do
    let d ← operandEval M (.value e)
    let ds ← argsEval M rest
    pure (d :: ds)

/-- The words of arguments that are numbers stand for their values. -/
theorem map_word_argsEval (M : Meaning) {Γ : Env} {es : Core.Args} {types : List Ty}
    (h : es.Typed Γ types) (hnum : ∀ t ∈ types, t.isNumeric = true) :
    List.map Datum.word <$> argsEval M es = es.eval M := by
  match es, h with
  | .nil, _ => rfl
  | .cons e rest, ⟨others, htypes, _, _, hrest⟩ =>
    subst htypes
    have ih := map_word_argsEval M hrest fun t ht => hnum t (List.mem_cons_of_mem _ ht)
    simp only [argsEval, operandEval, Core.Args.eval, ← ih, map_bind, bind_map_left, map_pure,
      List.map_cons, word_held (hnum _ List.mem_cons_self)]

/-- Only the function that writes texts looks at a text. -/
theorem runBuiltin_congr {b : Builtin} (hb : b ≠ .putstr) (texts texts' : Nat → List UInt8)
    (xs : List UInt64) : runBuiltin texts b xs = runBuiltin texts' b xs := by
  cases b with
  | putstr => exact absurd rfl hb
  | _ => rfl

theorem held_result (texts : Nat → List UInt8) (b : Builtin) :
    held texts b.result = Datum.ofWord b.result := by
  cases b <;> rfl

/-- A built-in function does the same with values as with their words. -/
theorem argsEval_builtin (M : Meaning) {Γ : Env} {es : Core.Args} {b : Builtin}
    (h : es.Typed Γ b.paramTypes) :
    (argsEval M es >>= applyBuiltin b)
      = held M.texts b.result <$> (es.eval M >>= runBuiltin M.texts b) := by
  by_cases hb : b = .putstr
  · subst hb
    obtain ⟨e, rfl, htype⟩ : ∃ e, es = .cons e .nil ∧ e.type = .string := by
      match es, h with
      | .cons e .nil, ⟨_, htypes, _⟩ => exact ⟨e, rfl, (List.cons.inj htypes).1.symm⟩
      | .cons _ (.cons _ _), ⟨_, htypes, _, _, _, hothers, _⟩ =>
        rw [hothers] at htypes
        cases (List.cons.inj htypes).2
    simp only [argsEval, operandEval, Core.Args.eval, bind_map_left, map_bind, pure_bind,
      bind_assoc]
    congr 1
    funext x
    rw [held_result]
    simp [applyBuiltin, held, htype, Datum.bytes, runBuiltin]
  · have hnum : ∀ t ∈ b.paramTypes, t.isNumeric = true := by
      cases b with
      | putstr => exact absurd rfl hb
      | _ => decide
    rw [← map_word_argsEval M h hnum, bind_map_left, held_result, map_bind]
    congr 1
    funext ds
    rw [applyBuiltin, runBuiltin_congr hb]

/-! ## A phrase means what it is lowered to -/

/-- Names stand for what they are lowered to. -/
structure Bindings.Matches (B : Bindings) (N : Names) (M : Meaning) : Prop where
  place : B.place = N.place
  texts : M.texts = N.texts
  builtin : ∀ f b ds, N.callee f = some (.builtin b) → B.call f ds = applyBuiltin b ds
  function : ∀ f slot type ds, N.callee f = some (.function slot type) →
    B.call f ds = Datum.ofWord type <$> M.call slot (ds.map Datum.word)

section

variable {N : Names} {P : Phrase → Nat → Operand → Prop} {B : Bindings} {M : Meaning}
  {Γ : Env} {q : Nat} {v : Operand} {type : Ty} {a b : Core.Expr}

theorem eval_arith (op : ArithOp) (ha : a.type = type) (hb : b.type = type)
    (hnum : type.isNumeric = true) :
    (do
      let x ← operandEval M (.value a)
      let y ← operandEval M (.value b)
      Datum.arithmetic op x y) = operandEval M (.value (.arith op type a b)) := by
  have htype : (Core.Expr.arith op type a b).type = type := rfl
  simp only [operandEval, htype, ha, hb, Core.Expr.eval, bind_map_left, map_bind,
    arithmetic_held hnum]

theorem eval_compare (op : RelOp) (ha : a.type = type) (hb : b.type = type)
    (hnum : type.isNumeric = true) :
    (do
      let x ← operandEval M (.value a)
      let y ← operandEval M (.value b)
      return Datum.compare op x y) = operandEval M (.test (.compare op type a b)) := by
  simp only [operandEval, ha, hb, Core.Cond.eval, bind_map_left, map_bind, compare_held hnum,
    map_pure]

theorem eval_convert {target : Ty} (ha : a.type = type) (hnum : type.isNumeric = true)
    (htarget : target.isNumeric = true) :
    Datum.cast target <$> operandEval M (.value a)
      = operandEval M (.value (.convert type target a)) := by
  have htype : (Core.Expr.convert type target a).type = target := rfl
  simp only [operandEval, htype, ha, Core.Expr.eval, bind_pure_comp, Functor.map_map,
    cast_held hnum htarget]

theorem eval_load (hB : B.Matches N M) {x : Name} {place : Core.Place}
    (hx : N.place x.text = some (place, type)) (hnum : type.isNumeric = true) :
    (Primary.name x).eval B = operandEval M (.value (.load place type)) := by
  have htype : (Core.Expr.load place type).type = type := rfl
  have hheld : held M.texts type = Datum.ofWord type := by
    cases type with
    | string => cases hnum
    | _ => rfl
  simp only [Primary.eval, hB.place, hx, operandEval, htype, hheld, Core.Expr.eval, map_bind,
    map_pure]

/-- A call by name does what the call does that it is lowered to. -/
theorem eval_call (hB : B.Matches N M) (hΓ : Γ.Numeric) {f : String} {g : Core.Callee}
    {es : Core.Args} (hf : N.callee f = some g) (hg : (Core.Expr.call g es).Typed Γ) :
    (argsEval M es >>= B.call f) = operandEval M (.value (.call g es)) := by
  have htype : (Core.Expr.call g es).type = g.result := rfl
  simp only [operandEval, htype, Core.Expr.eval]
  obtain ⟨types, htakes, hes⟩ := hg
  cases g with
  | builtin b =>
    obtain rfl : types = b.paramTypes := htakes
    rw [funext fun ds => hB.builtin f b ds hf]
    exact argsEval_builtin M hes
  | function slot result =>
    obtain ⟨-, hslot, hresult⟩ := htakes
    have hnum := hΓ.params _ (List.mem_of_getElem? hslot)
    have hheld : held M.texts result = Datum.ofWord result := by
      cases result with
      | string => exact absurd rfl hresult
      | _ => rfl
    rw [funext fun ds => hB.function f slot result ds hf, ← map_word_argsEval M hes hnum,
      bind_map_left, map_bind]
    simp only [Core.Callee.run, Core.Callee.result, hheld]

theorem eval_behind {u : Operand} {signs : List Bool}
    (h : signs.any id = true → u.type.isNumeric = true) :
    Datum.behind signs <$> operandEval M u = operandEval M (u.behind signs) := by
  by_cases hany : signs.any id = true
  · cases u with
    | test c => cases h hany
    | value e => exact (eval_negated M (h hany) signs).symm
  · have hnone : signs.any id = false := by simpa using hany
    have hsame : u.behind signs = u := by
      cases u with
      | test c => rfl
      | value e => rw [Operand.behind, negated_of_no_minus hnone]
    rw [hsame, funext (behind_of_no_minus hnone)]
    exact id_map _

/-- What stands behind signs is typed. -/
theorem typed_of_behind {u : Operand} {signs : List Bool} (h : (u.behind signs).Typed Γ) :
    u.Typed Γ := by
  cases u with
  | test c => exact h
  | value e =>
    induction signs generalizing e with
    | nil => exact h
    | cons minus signs ih =>
      cases minus with
      | false => exact ih e h
      | true => exact (ih (.negate e.type e) h).1

variable (hB : B.Matches N M) (hΓ : Γ.Numeric)

include hB hΓ

set_option linter.unusedSectionVars false

mutual

/-- A sum means what its operand means. -/
theorem Expr.eval_eq (e : Expr) {q : Nat}
    {v : Operand} (h : e.Lowers N P q v) (hv : v.Typed Γ) : e.eval B = operandEval M v := by
  match e, h with
  | .term t, ⟨_, ht⟩ => exact Term.eval_eq t ht hv
  | .sum l op r, ⟨_, type, a, b, hval, hl, hr⟩ =>
    subst hval
    obtain ⟨ha, hb, hta, htb, hnum⟩ := hv
    rw [← eval_arith op hta htb hnum, Expr.eval, Expr.eval_eq l hl ha,
      Term.eval_eq r hr hb]

theorem Term.eval_eq (t : Term) {q : Nat}
    {v : Operand} (h : t.Lowers N P q v) (hv : v.Typed Γ) : t.eval B = operandEval M v := by
  match t, h with
  | .factor f, ⟨_, hf⟩ => exact Factor.eval_eq f hf hv
  | .product l op r, ⟨_, type, a, b, hval, hl, hr⟩ =>
    subst hval
    obtain ⟨ha, hb, hta, htb, hnum⟩ := hv
    rw [← eval_arith op hta htb hnum, Term.eval, Term.eval_eq l hl ha,
      Factor.eval_eq r hr hb]

theorem Factor.eval_eq (f : Factor) {q : Nat}
    {v : Operand} (h : f.Lowers N P q v) (hv : v.Typed Γ) : f.eval B = operandEval M v := by
  match f, h with
  | .mk ord signs body, ⟨_, u, hval, hnum, hbody⟩ =>
    subst hval
    rw [Factor.eval, Casted.eval_eq body hbody (typed_of_behind hv), eval_behind hnum]

theorem Casted.eval_eq (b : Casted) {q : Nat}
    {v : Operand} (h : b.Lowers N P q v) (hv : v.Typed Γ) : b.eval B = operandEval M v := by
  match b, h with
  | .primary p, ⟨_, hp⟩ => exact Primary.eval_eq p hp hv
  | .cast body ord target, ⟨_, source, a, hval, hbody⟩ =>
    subst hval
    obtain ⟨ha, hsource, hnum, htarget⟩ := hv
    rw [← eval_convert hsource hnum htarget, Casted.eval, Casted.eval_eq body hbody ha]

theorem Primary.eval_eq (p : Primary) {q : Nat}
    {v : Operand} (h : p.Lowers N P q v) (hv : v.Typed Γ) : p.eval B = operandEval M v := by
  match p, h with
  | .name x, ⟨_, place, type, hval, hx⟩ =>
    subst hval
    exact eval_load hB hx hv.2
  | .call f as, ⟨_, g, es, hval, hf, has⟩ =>
    subst hval
    have ⟨types, _, hes⟩ := hv
    rw [← eval_call hB hΓ hf hv, Primary.eval, Args.eval_eq as has hes]
  | .int word ord, ⟨_, hval⟩ =>
    subst hval
    rfl
  | .double bits ord, ⟨_, hval⟩ =>
    subst hval
    rfl
  | .text s ord, ⟨_, slot, hval, hs⟩ =>
    subst hval
    rw [← hB.texts] at hs
    show pure (Datum.text (Text.bytesOf s)) = pure (Datum.text (M.texts (UInt64.ofNat slot).toNat))
    rw [hs]
  | .paren ord inner close, ⟨_, hinner⟩ => exact Relational.eval_eq inner hinner hv

theorem Relational.eval_eq (r : Relational) {q : Nat}
    {v : Operand} (h : r.Lowers N P q v) (hv : v.Typed Γ) : r.eval B = operandEval M v := by
  match r, h with
  | .value e, ⟨_, he⟩ => exact Expr.eval_eq e he hv
  | .compare l op r, ⟨_, type, a, b, hval, hl, hr⟩ =>
    subst hval
    obtain ⟨ha, hb, hta, htb, hnum⟩ := hv
    rw [← eval_compare op hta htb hnum, Relational.eval, Expr.eval_eq l hl ha,
      Expr.eval_eq r hr hb]

/-- Arguments mean what they are lowered to. -/
theorem Args.eval_eq (as : Args) {q : Nat}
    {es : Core.Args} {types : List Ty} (h : as.Lowers N P q es) (hes : es.Typed Γ types) :
    as.eval B = argsEval M es := by
  match as, h with
  | .done _, h =>
    subst h
    rfl
  | .more e rest, ⟨a, as, hval, he, hrest⟩ =>
    subst hval
    obtain ⟨others, -, ha, -, has⟩ := hes
    rw [Args.eval, argsEval, Expr.eval_eq e he ha, Args.eval_eq rest hrest has]

end

/-- A condition holds if the condition does that it is lowered to. -/
theorem Relational.holds_eq {r : Relational} {q : Nat} {c : Core.Cond} (h : r.Decides N P q c)
    (hc : c.Typed Γ) : r.holds B = c.eval M := by
  obtain ⟨-, v, rfl, hr⟩ := h
  cases v with
  | test c =>
    rw [Relational.holds, Relational.eval_eq hB hΓ r hr hc, operandEval, Functor.map_map]
    exact id_map _
  | value e =>
    obtain ⟨he, hnum⟩ := hc
    rw [Relational.holds, Relational.eval_eq hB hΓ r hr he]
    simp only [operandEval, Functor.map_map, holds_held hnum, Operand.condition, Core.Cond.eval,
      bind_pure_comp]

end

end Syntax

end TinyC
