import TinyC.Proofs.Machine.Functions
import TinyC.Proofs.Typing.Lowered

/-!
# Phrases compute what their trees say

Every phrase of an accepted program has code of its own in the code of its function. The code of an
expression pushes the value that the tree of the expression has, as one word, and leaves the
operands below it alone; a call without a result pushes nothing; the code of a condition pushes
nothing and skips an instruction if the condition holds. Where the tree has no value because
something goes wrong, the machine stops for that reason.

What a tree is lowered to is known, and so is what the code of that does; here the two are joined.
`InPlace` says that a phrase has its code in that of its function. It is passed down from bodies to
their phrases (`Block.Lowers.placed`), so that whatever follows from it holds of every phrase.
-/

namespace TinyC

open Core Machine
open Typing (Operand anything negated)

/-! ## Phrases with their code in place -/

/-- The code of a typed operand is at an index of a code. Behind the code of a test there is
something to skip. -/
structure InPlace (Γ : Env) (code : List Instr) (q : Nat) (v : Operand) : Prop where
  typed : v.Typed Γ
  sits : Sits code v.code q
  ahead : ∀ c, v = .test c → q + c.size < code.length

section

variable {Γ : Env} {code : List Instr} {q : Nat}

theorem inPlace_value {e : Core.Expr} (he : e.Typed Γ) (hcode : Sits code e.code q) :
    InPlace Γ code q (.value e) :=
  ⟨he, hcode, nofun⟩

/-- What stands behind signs has its code before theirs. -/
theorem InPlace.of_behind {u : Operand} {signs : List Bool}
    (h : InPlace Γ code q (u.behind signs)) : InPlace Γ code q u := by
  cases u with
  | test c => exact h
  | value e =>
    refine inPlace_value (Syntax.typed_of_behind h.typed) ?_
    have hsits : Sits code (negated e signs).code q := h.sits
    clear h
    induction signs generalizing e with
    | nil => exact hsits
    | cons minus signs ih =>
      cases minus with
      | false => exact ih e hsits
      | true => exact (ih (.negate e.type e) hsits).left

/-- The operand of a condition has its code at the start of the code of the condition. -/
theorem InPlace.of_condition {v : Operand} (h : InPlace Γ code q (.test v.condition)) :
    InPlace Γ code q v := by
  cases v with
  | test c => exact h
  | value e => exact inPlace_value h.typed.1 h.sits.left

end

namespace Syntax

/-- A phrase whose code starts at an index is lowered to an operand. -/
def Phrase.Lowers (N : Names) (q : Nat) (v : Operand) : Phrase → Prop
  | expr e => e.Lowers N anything q v
  | term t => t.Lowers N anything q v
  | factor f => f.Lowers N anything q v
  | casted b => b.Lowers N anything q v
  | primary p => p.Lowers N anything q v
  | relational r => r.Lowers N anything q v
  | condition r => ∃ c, v = .test c ∧ r.Decides N anything q c

/-- A phrase means what it is lowered to. -/
theorem Phrase.eval_eq {N : Names} {B : Bindings} {M : Meaning} {Γ : Env} {q : Nat} {v : Operand}
    (hB : B.Matches N M) (hΓ : Γ.Numeric) {ph : Phrase} (h : ph.Lowers N q v) (hv : v.Typed Γ) :
    ph.eval B = operandEval M v := by
  cases ph with
  | expr e => exact e.eval_eq hB hΓ h hv
  | term t => exact t.eval_eq hB hΓ h hv
  | factor f => exact f.eval_eq hB hΓ h hv
  | casted b => exact b.eval_eq hB hΓ h hv
  | primary p => exact p.eval_eq hB hΓ h hv
  | relational r => exact r.eval_eq hB hΓ h hv
  | condition r =>
    obtain ⟨c, rfl, hc⟩ := h
    rw [Phrase.eval, Relational.holds_eq hB hΓ hc hv]
    rfl

section

variable {N : Names} {P : Phrase → Nat → Operand → Prop} {Γ : Env} {code : List Instr}
  (hP : ∀ ph q v, ph.Lowers N q v → InPlace Γ code q v → P ph q v)

include hP

set_option linter.unusedSectionVars false

mutual

/-- What follows from being placed holds of every phrase of a sum that is placed. -/
theorem Expr.Lowers.placed {e : Expr} {q : Nat} {v : Operand} (h : e.Lowers N anything q v)
    (hv : InPlace Γ code q v) : e.Lowers N P q v := by
  have hself := hP (.expr e) q v h hv
  match e, h with
  | .term t, ⟨_, ht⟩ => exact ⟨hself, ht.placed hv⟩
  | .sum l op r, ⟨_, type, a, b, hval, hl, hr⟩ =>
    subst hval
    obtain ⟨⟨ha, hb, -⟩, hcode, -⟩ := hv
    exact ⟨hself, type, a, b, rfl, hl.placed (inPlace_value ha hcode.left.left),
      hr.placed (inPlace_value hb hcode.left.right)⟩

theorem Term.Lowers.placed {t : Term} {q : Nat} {v : Operand} (h : t.Lowers N anything q v)
    (hv : InPlace Γ code q v) : t.Lowers N P q v := by
  have hself := hP (.term t) q v h hv
  match t, h with
  | .factor f, ⟨_, hf⟩ => exact ⟨hself, hf.placed hv⟩
  | .product l op r, ⟨_, type, a, b, hval, hl, hr⟩ =>
    subst hval
    obtain ⟨⟨ha, hb, -⟩, hcode, -⟩ := hv
    exact ⟨hself, type, a, b, rfl, hl.placed (inPlace_value ha hcode.left.left),
      hr.placed (inPlace_value hb hcode.left.right)⟩

theorem Factor.Lowers.placed {f : Factor} {q : Nat} {v : Operand} (h : f.Lowers N anything q v)
    (hv : InPlace Γ code q v) : f.Lowers N P q v := by
  have hself := hP (.factor f) q v h hv
  match f, h with
  | .mk ord signs body, ⟨_, u, hval, hnum, hbody⟩ =>
    subst hval
    exact ⟨hself, u, rfl, hnum, hbody.placed hv.of_behind⟩

theorem Casted.Lowers.placed {b : Casted} {q : Nat} {v : Operand} (h : b.Lowers N anything q v)
    (hv : InPlace Γ code q v) : b.Lowers N P q v := by
  have hself := hP (.casted b) q v h hv
  match b, h with
  | .primary p, ⟨_, hp⟩ => exact ⟨hself, hp.placed hv⟩
  | .cast body ord target, ⟨_, source, a, hval, hbody⟩ =>
    subst hval
    obtain ⟨⟨ha, -⟩, hcode, -⟩ := hv
    exact ⟨hself, source, a, rfl, hbody.placed (inPlace_value ha hcode.left)⟩

theorem Primary.Lowers.placed {p : Primary} {q : Nat} {v : Operand} (h : p.Lowers N anything q v)
    (hv : InPlace Γ code q v) : p.Lowers N P q v := by
  have hself := hP (.primary p) q v h hv
  match p, h with
  | .name x, ⟨_, hx⟩ => exact ⟨hself, hx⟩
  | .call f as, ⟨_, g, es, hval, hf, has⟩ =>
    subst hval
    obtain ⟨⟨types, -, hes⟩, hcode, -⟩ := hv
    exact ⟨hself, g, es, rfl, hf, has.placed hes hcode.tail.left⟩
  | .int word ord, ⟨_, hval⟩ => exact ⟨hself, hval⟩
  | .double bits ord, ⟨_, hval⟩ => exact ⟨hself, hval⟩
  | .text s ord, ⟨_, hs⟩ => exact ⟨hself, hs⟩
  | .paren ord inner close, ⟨_, hinner⟩ =>
    exact ⟨hself, hinner.placed hv⟩

theorem Relational.Lowers.placed {r : Relational} {q : Nat} {v : Operand}
    (h : r.Lowers N anything q v) (hv : InPlace Γ code q v) : r.Lowers N P q v := by
  have hself := hP (.relational r) q v h hv
  match r, h with
  | .value e, ⟨_, he⟩ => exact ⟨hself, he.placed hv⟩
  | .compare l op r, ⟨_, type, a, b, hval, hl, hr⟩ =>
    subst hval
    obtain ⟨⟨ha, hb, -⟩, hcode, -⟩ := hv
    exact ⟨hself, type, a, b, rfl, hl.placed (inPlace_value ha hcode.left.left),
      hr.placed (inPlace_value hb hcode.left.right)⟩

theorem Args.Lowers.placed {as : Args} {q : Nat} {es : Core.Args} {types : List Ty}
    (h : as.Lowers N anything q es) (hes : es.Typed Γ types)
    (hcode : Sits code es.code q) : as.Lowers N P q es := by
  match as, h with
  | .done _, h => exact h
  | .more e rest, ⟨a, as, hval, he, hrest⟩ =>
    subst hval
    obtain ⟨others, -, ha, -, has⟩ := hes
    exact ⟨a, as, rfl, he.placed (inPlace_value ha hcode.left),
      hrest.placed has hcode.right⟩

end

/-- The code of a condition is followed by a branch, which it skips if the condition holds. -/
theorem Relational.Decides.placed {r : Relational} {q : Nat}
    {c : Cond} (h : r.Decides N anything q c) (hc : c.Typed Γ) {i : Instr} {rest : List Instr}
    (hcode : Sits code (c.code ++ i :: rest) q) : r.Decides N P q c := by
  have hv : InPlace Γ code q (.test c) := by
    refine ⟨hc, hcode.left, fun c' hc' => ?_⟩
    cases hc'
    have hlen := hcode.length_le (by rw [List.length_append, List.length_cons]; omega)
    rw [List.length_append, List.length_cons] at hlen
    rw [Cond.size]
    omega
  obtain ⟨-, v, rfl, hr⟩ := h
  exact ⟨hP (.condition r) q _ ⟨_, rfl, trivial, v, rfl, hr⟩ hv, v, rfl,
    hr.placed hP hv.of_condition⟩

/-- Initial values have their code in that of the entry function. -/
theorem InitsLower.placed {ds : List Decl} {is : List Init} {slot start : Nat}
    (h : InitsLower N anything slot start ds is) (hs : (initBlock is).Typed Γ false)
    (hcode : Sits code (is.flatMap Init.code) start) : InitsLower N P slot start ds is := by
  induction ds generalizing is slot start with
  | nil => exact h
  | cons d ds ih =>
    match d, h with
    | .mk _ _ _ none _, h => exact ih h hs hcode
    | .mk _ _ _ (some e) _, ⟨a, rest, hval, he, hrest⟩ =>
      subst hval
      rw [List.flatMap_cons] at hcode
      exact ⟨a, rest, rfl, he.placed hP (inPlace_value hs.1.1 hcode.left.tail.left),
        ih hrest hs.2 hcode.right⟩

end

/-! ## Bodies -/

section

variable {N : Nat → Names} {P : Nat → Phrase → Nat → Operand → Prop} {Γ : Env} {code : List Instr}
  (hP : ∀ n ph q v, ph.Lowers (N n) q v → InPlace Γ code q v → P n ph q v)

include hP

set_option linter.unusedSectionVars false

mutual

/-- What follows from being placed holds of every phrase of a statement that is placed. -/
theorem Stmt.Lowers.placed {s : Stmt} {n start : Nat} {a : Core.Stmt} {inLoop : Bool} {loop : Loop}
    (h : s.Lowers N (fun _ => anything) n start a) (ha : a.Typed Γ inLoop)
    (hcode : Sits code (a.code start loop) start) : s.Lowers N P n start a := by
  match s, h with
  | .empty, h => exact h
  | .declare (.mk _ _ _ none _), h => exact h
  | .declare (.mk _ _ _ (some e) _), ⟨b, hval, he⟩ =>
    subst hval
    exact ⟨b, rfl, he.placed (hP n) (inPlace_value ha.1 hcode.tail.left)⟩
  | .branch i, h => exact If.Lowers.placed h ha hcode
  | .loop _ cond body, ⟨c, b, hval, hcond, hbody⟩ =>
    subst hval
    have hinner := hcode.tail.right.tail.left
    exact ⟨c, b, rfl, hcond.placed (hP n) ha.1 hcode.tail,
      hbody.placed ha.2 hinner⟩
  | .ret _ none _, h => exact h
  | .ret _ (some e) _, ⟨b, hval, he⟩ =>
    subst hval
    exact ⟨b, rfl, he.placed (hP n) (inPlace_value ha.1 hcode.tail.left)⟩
  | .brk _ _, h => exact h
  | .cont _ _, h => exact h
  | .call f as _, ⟨g, es, hval, hcall⟩ =>
    subst hval
    have hsits : Sits code ((Core.Expr.call g es).code
        ++ (if g.result = .void then [] else [⟨.pop, 0⟩])) start := by
      have hsame := hcode
      simp only [Core.Stmt.code, callCode] at hsame
      simpa [Core.Expr.code] using hsame
    exact ⟨g, es, rfl, hcall.placed (hP n) (inPlace_value ha hsits.left)⟩
  | .assign x e _, ⟨place, type, b, hval, hx, he⟩ =>
    subst hval
    exact ⟨place, type, b, rfl, hx, he.placed (hP n) (inPlace_value ha.1 hcode.tail.left)⟩

theorem If.Lowers.placed {i : If} {n start : Nat} {a : Core.Stmt} {inLoop : Bool} {loop : Loop}
    (h : i.Lowers N (fun _ => anything) n start a) (ha : a.Typed Γ inLoop)
    (hcode : Sits code (a.code start loop) start) : i.Lowers N P n start a := by
  match i, h with
  | .mk cond body alternative, ⟨c, b, o, hval, hcond, hbody, halt⟩ =>
    subst hval
    cases o with
    | none =>
      exact ⟨c, b, none, rfl, hcond.placed (hP n) ha.1 hcode,
        hbody.placed ha.2 hcode.right.tail,
        halt.placed (show ∀ a : Core.Block, none = some a →
          a.Typed Γ inLoop ∧ Sits code (a.code _ loop) _ from nofun)⟩
    | some alt =>
      obtain ⟨hc, hb, hother⟩ := ha
      have hblocks := hcode.right.tail
      have hbehind := hblocks.right.tail
      rw [Core.Block.length_code] at hbehind
      exact ⟨c, b, some alt, rfl, hcond.placed (hP n) hc hcode,
        hbody.placed hb hblocks.left,
        halt.placed fun a ha => by
          cases ha
          exact ⟨hother, hbehind⟩⟩

theorem Else.Lowers.placed {e : Else} {n start : Nat} {o : Option Core.Block} {inLoop : Bool}
    {loop : Loop} (h : e.Lowers N (fun _ => anything) n start o)
    (ho : ∀ a, o = some a → a.Typed Γ inLoop ∧ Sits code (a.code start loop) start) :
    e.Lowers N P n start o := by
  match e, h with
  | .none, h => exact h
  | .block b, ⟨a, hval, hb⟩ =>
    subst hval
    obtain ⟨ha, hcode⟩ := ho a rfl
    exact ⟨a, rfl, hb.placed ha hcode⟩
  | .branch i, ⟨a, hval, hi⟩ =>
    subst hval
    obtain ⟨ha, hcode⟩ := ho _ rfl
    exact ⟨a, rfl, hi.placed ha.1 hcode.left⟩

theorem Block.Lowers.placed {b : Block} {n start : Nat} {a : Core.Block} {inLoop : Bool}
    {loop : Loop} (h : b.Lowers N (fun _ => anything) n start a) (ha : a.Typed Γ inLoop)
    (hcode : Sits code (a.code start loop) start) : b.Lowers N P n start a := by
  match b, h with
  | .stmts ss, h => exact Stmts.Lowers.placed h ha hcode

theorem Stmts.Lowers.placed {ss : Stmts} {n start : Nat} {b : Core.Block} {inLoop : Bool}
    {loop : Loop} (h : ss.Lowers N (fun _ => anything) n start b) (hb : b.Typed Γ inLoop)
    (hcode : Sits code (b.code start loop) start) : ss.Lowers N P n start b := by
  match ss, h with
  | .done _, h => exact h
  | .more s rest, ⟨a, as, hval, hs, hrest⟩ =>
    subst hval
    have hbehind := hcode.right
    rw [Core.Stmt.length_code] at hbehind
    exact ⟨a, as, rfl, hs.placed hb.1 hcode.left,
      hrest.placed hb.2 hbehind⟩

end

end

end Syntax

/-! ## What phrases leave on the machine -/

namespace Machine

/-- The words that a value is on the stack, and the number of instructions that are skipped. A text
is the slot of a global that has its bytes. -/
def Shows (module : Module) : Syntax.Datum → List UInt64 → Nat → Prop
  | .int x, ws, skipped => ws = [x] ∧ skipped = 0
  | .double x, ws, skipped => ws = [x] ∧ skipped = 0
  | .text bs, ws, skipped => (∃ x, ws = [x] ∧
    (module.globals[x.toNat]?).map Global.data = some bs) ∧ skipped = 0
  | .truth b, ws, skipped => ws = [] ∧ skipped = b.toNat
  | .nothing, ws, skipped => ws = [] ∧ skipped = 0

/-- The word of an expression is its value on the stack. -/
theorem shows_held {module : Module} {type : Ty} {x : UInt64}
    (htext : type = .string → x.toNat < module.globals.size) :
    Shows module (Syntax.held (textOf module) type x) (pushed type x) 0 := by
  cases type with
  | int => exact ⟨rfl, rfl⟩
  | double => exact ⟨rfl, rfl⟩
  | void => exact ⟨rfl, rfl⟩
  | string =>
    refine ⟨⟨x, rfl, ?_⟩, rfl⟩
    rw [textOf, Array.getElem?_eq_getElem (htext rfl)]
    rfl

section

variable {s : Setup} {L : Library} {Γ : Env} {n d : Nat} {f : Frame} {outer : List Frame}
  {under ops : List UInt64} {q : Nat} {h : List Machine} {m : Machine} {st : Store}

/-- The code of an operand computes its value. -/
theorem leads_operand (ha : Agrees s L Γ f.routine) (hcalls : CallsMean s L n d)
    (hlong : f.routine.code.size < 2 ^ 63) {v : Operand}
    (hv : InPlace Γ f.routine.code.toList q v) (hr : Ready s n d f outer under ops q h m st) :
    (watchStore s n).Leads h m ((Syntax.operandEval (L.meaning n d) v).outcome st)
      fun x _ m' st' => ∃ ws skipped, Shows s.module x ws skipped ∧
        Holds s f outer under (ops ++ ws) (q + v.code.length + skipped) m' st' := by
  cases v with
  | value e =>
    rw [Syntax.operandEval, ← bind_pure_comp]
    refine (leads_expr ha hcalls e hv.typed ops q hv.sits h m st hr).bind
      fun x h' m' st' _ hx => Watch.leads_now ⟨pushed e.type x, 0, ?_, hx.ready.holds⟩
    have htexts : (L.meaning n d).texts = textOf s.module := ha.texts
    rw [htexts]
    exact shows_held hx.text
  | test c =>
    have hend := hv.ahead c rfl
    rw [Array.length_toList] at hend
    rw [Syntax.operandEval, ← bind_pure_comp]
    refine (leads_cond ha hcalls hv.typed hv.sits hlong hend hr).bind
      fun b h' m' st' _ hb => Watch.leads_now ⟨[], b.toNat, ⟨rfl, rfl⟩, ?_⟩
    rw [List.append_nil]
    exact hb.2.holds

end

/-- A phrase in the function at a slot computes what its tree says: from any machine that runs the
function there, its code leads to the value that the phrase has for the variables of the function,
and to nothing else on the stack, or the machine fails where the phrase does. Names stand for what
is declared where `k` local variables have been. -/
def Computes (s : Setup) (p : Syntax.Program) (slot : Nat) (D : Syntax.Declared) (k : Nat)
    (ph : Syntax.Phrase) (q : Nat) (v : Operand) : Prop :=
  ∃ r, s.module.functions[slot]? = some r ∧ Sits r.code.toList v.code q ∧
    ∀ (rounds a l : Nat) (outer : List Frame) (under ops : List UInt64) (m : Machine) (st : Store),
      Holds s ⟨r, q, a, l⟩ outer under ops q m st →
        (watchStore s rounds).Leads [] m ((ph.eval (p.bindings rounds rounds D k)).outcome st)
          fun x _ m' st' => ∃ ws skipped, Shows s.module x ws skipped ∧
            Holds s ⟨r, q, a, l⟩ outer under (ops ++ ws) (q + v.code.length + skipped) m' st'

end Machine

/-! ## Programs -/

section

variable {π : Type} {s : Setup} {t : ProgramTables π} {core : Core.Program} {p : Syntax.Program}

/-- The functions of a program take and give numbers. -/
theorem Laid.numeric (hl : Laid s t core) {g : Function π} (hg : g ∈ t.functions.rows) :
    (t.env g).Numeric where
  params := by
    intro signature hsignature
    obtain ⟨f, hf, rfl⟩ := List.mem_map.mp hsignature
    exact (hl.describes.signatures f hf).2
  result := (hl.describes.signatures g hg).1

/-- A phrase with its code in place computes what its tree says. -/
theorem computes_of_inPlace (hl : Laid s t core)
    (hlow : p.Lowers (textOf s.module) (fun _ _ _ => anything) core)
    (hstocks : p.Stocks core (library core s.module)) {slot : Nat} {code : List Instr}
    {g : Function π} (hg : Holding s t slot code g) {D : Syntax.Declared} {k : Nat}
    {ph : Syntax.Phrase} {q : Nat} {v : Operand}
    (h : ph.Lowers (p.names (textOf s.module) D k) q v) (hv : InPlace (t.env g) code q v) :
    Computes s p slot D k ph q v := by
  obtain rfl := hg.code
  refine ⟨g.routine, hg.routine, hv.sits, ?_⟩
  intro rounds a l outer under ops m st hh
  have hbindings := Syntax.Program.call_eq (L := library core s.module) hlow hstocks rounds rounds
    D k
  rw [Syntax.Phrase.eval_eq hbindings (hl.numeric (List.mem_of_getElem? hg.row)) h hv.typed]
  exact leads_operand (f := ⟨g.routine, q, a, l⟩) (agrees_of_holding hl hg) (callsMean hl rounds)
    hg.long hv ⟨hh, by omega⟩

/-- In a machine with the module of a program, every phrase computes what its tree says. -/
theorem lowers_computing (hl : Laid s t core)
    (hlow : p.Lowers (textOf s.module) (fun _ _ _ => anything) core)
    (hstocks : p.Stocks core (library core s.module)) :
    p.Lowers (textOf s.module) (Computes s p) core where
  inits := by
    obtain ⟨g, hg, hinits, -⟩ := hl.entry
    refine hlow.inits.placed (fun ph q v => computes_of_inPlace hl hlow hstocks hg) hinits ?_
    exact List.prefix_append _ _
  length := hlow.length
  functions := by
    intro i f fn hf hfn
    obtain ⟨g, hg, htyped⟩ := hl.row hfn
    match f, hlow.functions i f fn hf hfn with
    | .mk name params (.ok (type, body)), ⟨htype, hbody⟩ =>
      have hsits : Sits fn.code (fn.body.code 0 ⟨0, 0⟩) 0 := List.prefix_append _ _
      exact ⟨htype, hbody.placed (fun n ph q v => computes_of_inPlace hl hlow hstocks hg)
        htyped.body hsits⟩

end

namespace Typing

open Walk

section

variable {p : Syntax.Program} {core : Core.Program} {w : State} {s : Setup} {π : Type} {g : Nat → π}

/-- The texts of a program are the data of the globals at their slots. -/
theorem tells_module (hl : Laid s ((tables w core).mapPos g) core)
    (hglobals : w.globals.rows.length < 2 ^ 63) : w.Tells (textOf s.module) := by
  intro e he htype
  obtain ⟨i, hi⟩ := List.mem_iff_getElem?.mp he
  have hrow : ((tables w core).mapPos g).globals.rows[i]? = some (e.mapPos g) := by
    simp [ProgramTables.mapPos, tables, hi]
  have hslot : e.slot = i := hl.describes.globals i _ hrow
  have hlt : i < w.globals.rows.length := (List.getElem?_eq_some_iff.mp hi).1
  rw [hslot, toNat_ofNat (Nat.lt_trans hlt hglobals), textOf, hl.module]
  simp [ProgramTables.module, hrow, Entry.global, Entry.data, Entry.mapPos, htype]

/-- The functions of a module have the local variables that they declare. -/
theorem stocks_library (hp : p.Plain) (hwalk : Yields (program p) {} core w)
    (hl : Laid s ((tables w core).mapPos g) core) (htells : w.Tells (textOf s.module)) :
    p.Stocks core (library core s.module) where
  functions := rfl
  locals := by
    intro i name params type body hf
    have hpw := yields_program hp hwalk
    have hlt : i < core.functions.length := by
      rw [hpw.functions_length]
      exact (List.getElem?_eq_some_iff.mp hf).1
    have hfn : core.functions[i]? = some (core.functions.get ⟨i, hlt⟩) :=
      List.getElem?_eq_getElem hlt
    obtain ⟨d, hd, hwalked⟩ := hpw.functions i _ hfn
    rw [hf] at hd
    cases hd
    obtain ⟨x, ps, body', heq, -, f, hrow, hlocals⟩ :=
      hwalked.lowers (hp.2 _ (List.mem_of_getElem? hf)) (listed_program hp hwalk htells)
    cases heq
    obtain ⟨r, hr, -⟩ := hl.row hfn
    -- the row of the module is that of the walk, with places in the text for numbers of words
    have hsame : r = f.mapPos g := by
      obtain ⟨rest, hrows, -⟩ := hpw.rows_eq
      have hr' := hr.row
      rw [hrows, List.getElem?_cons_succ] at hrow
      simpa [ProgramTables.mapPos, tables, hrows, hrow] using hr'.symm
    subst hsame
    have hcount : (f.mapPos g).routine.locals = (f.mapPos g).locals.rows.length := hr.locals
    simp only [library, hr.routine, Option.map_some, Option.getD_some]
    rw [hcount, ← hlocals]
    exact List.length_map _
  typed := by
    intro fn hfn
    obtain ⟨i, hi⟩ := List.mem_iff_getElem?.mp hfn
    obtain ⟨r, hr, htyped⟩ := hl.row hi
    exact ⟨_, hl.numeric (List.mem_of_getElem? hr.row), htyped.body⟩

end

end Typing

/-- **Lowering preserves meaning.** An accepted program is lowered phrase by phrase, with names and
texts for what is declared, and in a machine that has its module every phrase computes what its
tree says, in every frame of its function. -/
theorem lowering_preserves_meaning {p : Program} {a : Analysis} (ha : p.analyse.result = .ok a)
    (hglobals : a.tables.globals.rows.length < 2 ^ 63)
    (hfunctions : a.tables.functions.rows.length < 2 ^ 63)
    (hcodes : ∀ f ∈ a.tables.functions.rows, f.code.length < 2 ^ 63)
    (s : Setup) (hs : s.module = a.tables.module) :
    p.source.tree.Lowers (textOf s.module) (Computes s p.source.tree) a.core := by
  have hl : Laid s a.tables a.core := ⟨hs, Program.describes ha, hfunctions, hcodes⟩
  obtain ⟨w, hwalk, g, htables⟩ := walk_of_analyse (Program.outcome_source ha)
  have hplain := p.source.plain_tree
  have hfew : w.globals.rows.length < 2 ^ 63 := by
    have hlength : a.tables.globals.rows.length = w.globals.rows.length := by
      rw [htables]
      exact List.length_map _
    rwa [← hlength]
  have htells : w.Tells (textOf s.module) := Typing.tells_module (htables ▸ hl) hfew
  have hstocks : p.source.tree.Stocks a.core (library a.core s.module) :=
    Typing.stocks_library hplain hwalk (htables ▸ hl) htells
  exact lowers_computing hl (Typing.lowers_program hplain hwalk htells) hstocks

theorem lowering_preserves_meaning_sample : ∃ a, sample.analyse.result = .ok a ∧
    sample.source.tree.Lowers (textOf a.tables.module)
      (Computes ⟨"sample", a.tables.module, 1000, false, false⟩ sample.source.tree) a.core := by
  obtain ⟨a, ha, hshort⟩ := sample_accepted
  exact ⟨a, ha, lowering_preserves_meaning ha (Nat.lt_trans hshort.globals (by decide))
    (Nat.lt_trans hshort.functions (by decide))
    (fun f hf => Nat.lt_trans (hshort.rows f hf).2.2 (by decide))
    ⟨"sample", a.tables.module, 1000, false, false⟩ rfl⟩

end TinyC
