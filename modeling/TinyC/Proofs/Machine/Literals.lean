import TinyC.Proofs.Machine.Phrases
import TinyC.Proofs.Machine.Plan
import TinyC.Proofs.Typing.Accepted

/-!
# Literals and the instructions for them

Code pushes nothing but literals, and it pushes them in the order of the text: of all the codes of
an accepted program in a row, the `n`-th instruction `push` is for the `n`-th literal among its
tokens (`Core.Program.pushed`). So what such an instruction pushes can be told from the kind of a
token alone, without a look at the types of the core program.

The way from the tokens to the instructions leads along the tree: the literals of the tokens that
a phrase spells are those of what it is lowered to (`Syntax.Expr.literals_eq` and its companions),
and these are the ones that the plan says (`Core.Marks`).
-/

namespace TinyC

/-- The type of a literal, by the kind of its token. -/
def Kind.literal? : Kind → Option Ty
  | .uintLiteral | .charLiteral => some .int
  | .doubleLiteral => some .double
  | .stringLiteral => some .string
  | _ => none

/-- The instruction pushes a word that stands in the code. -/
def Instr.isPush (i : Instr) : Bool :=
  i.op == .push

namespace Core

/-- The types of the literals of a program. -/
def Program.literals (p : Program) : List Ty :=
  p.inits.flatMap (·.value.literals) ++ p.functions.flatMap (·.body.literals)

/-- The types of the literals that a plan has pushed. -/
def planned (plan : List Mark) : List Ty :=
  plan.filterMap Mark.literal

/-- The instruction that the mark is for pushes a literal. -/
def Mark.isPush (k : Mark) : Bool :=
  k.literal.isSome

theorem literals_initBlock (is : List Init) :
    (initBlock is).literals = is.flatMap (·.value.literals) := by
  induction is with
  | nil => rfl
  | cons i is ih => simp [initBlock, Block.literals, Stmt.literals, ih]

end Core

/-! ## From tokens to core programs -/

/-- The types of the literals of an operand. -/
def Typing.Operand.literals : Typing.Operand → List Ty
  | .value e => e.literals
  | .test c => c.literals

theorem Typing.literals_negated (signs : List Bool) (e : Core.Expr) :
    (negated e signs).literals = e.literals := by
  induction signs generalizing e with
  | nil => rfl
  | cons minus signs ih =>
    cases minus with
    | false => exact ih e
    | true => exact ih (.negate e.type e)

theorem Typing.Operand.literals_behind (signs : List Bool) (v : Operand) :
    (v.behind signs).literals = v.literals := by
  cases v with
  | value e => exact literals_negated signs e
  | test c => rfl

theorem Typing.Operand.literals_condition (v : Operand) : v.condition.literals = v.literals := by
  cases v <;> rfl

theorem Core.Stmt.literals_choice (c : Cond) (body : Block) (alternative : Option Block) :
    (Stmt.choice c body alternative).literals
      = c.literals ++ (body.literals ++ (alternative.map Block.literals).getD []) := by
  cases alternative <;> simp [choice, literals]

namespace Syntax

variable {w : Word} {type : Ty} {ws : List Word}

open Typing (Operand)

/-- The types of the literals among tokens. -/
def literals (ws : List Word) : List Ty :=
  ws.filterMap fun w => w.kind.literal?

@[simp] theorem literals_nil : literals [] = [] :=
  rfl

@[simp] theorem literals_append (us vs : List Word) :
    literals (us ++ vs) = literals us ++ literals vs :=
  List.filterMap_append

/-- A token of another kind adds nothing. -/
theorem literals_cons (h : w.kind.literal? = none) (ws : List Word) :
    literals (w :: ws) = literals ws :=
  List.filterMap_cons_none h

theorem literals_literal (h : w.kind.literal? = some type) : literals [w] = [type] := by
  simp [literals, h]

theorem literal?_of_kind {k : Kind} (h : w.kind = k) : w.kind.literal? = k.literal? := by
  rw [h]

theorem literal?_name {x : Name} (h : x.Spells w) : w.kind.literal? = none :=
  literal?_of_kind h.1

theorem literals_close {k : Kind} {c : Close} (h : c.Spells k w) (hk : k.literal? = none) :
    literals [w] = [] :=
  literals_cons ((literal?_of_kind h.1).trans hk) []

theorem literal?_of_mem {ks : List Kind} (h : w.kind ∈ ks)
    (hks : ks.all (fun k => k.literal?.isNone) = true) : w.kind.literal? = none :=
  Option.isNone_iff_eq_none.mp (List.all_eq_true.mp hks _ h)

theorem literal?_variableType (h : variableType? w.kind = some type) : w.kind.literal? = none :=
  literal?_of_mem (mem_of_variableType? h) rfl

theorem literals_signs {signs : List Bool} (h : SignsSpell signs ws) : literals ws = [] := by
  induction signs generalizing ws with
  | nil =>
    cases h
    rfl
  | cons minus signs ih =>
    obtain ⟨w, us, rfl, hw, hus⟩ := h
    have hnone : w.kind.literal? = none := by
      rw [hw]
      cases minus <;> rfl
    rw [literals_cons hnone, ih hus]

section

variable {N : Names} {P : Phrase → Nat → Operand → Prop}

mutual

/-- The literals among the tokens of a sum are those of what it is lowered to. -/
theorem Expr.literals_eq {e : Expr} {ws : List Word} {q : Nat} {v : Operand} (hs : e.Spells ws)
    (hl : e.Lowers N P q v) : literals ws = v.literals := by
  match e, hs, hl with
  | .term t, hs, ⟨_, hl⟩ => exact Term.literals_eq hs hl
  | .sum l op r, ⟨us, w, vs, hws, hls, hop, hrs⟩, ⟨_, type, a, b, hv, hl, hr⟩ =>
    rw [hws, hv, literals_append, literals_cons (literal?_of_mem (mem_of_sumOp? hop) rfl),
      Expr.literals_eq hls hl, Term.literals_eq hrs hr]
    rfl

theorem Term.literals_eq {t : Term} {ws : List Word} {q : Nat} {v : Operand} (hs : t.Spells ws)
    (hl : t.Lowers N P q v) : literals ws = v.literals := by
  match t, hs, hl with
  | .factor f, hs, ⟨_, hl⟩ => exact Factor.literals_eq hs hl
  | .product l op r, ⟨us, w, vs, hws, hls, hop, hrs⟩, ⟨_, type, a, b, hv, hl, hr⟩ =>
    rw [hws, hv, literals_append, literals_cons (literal?_of_mem (mem_of_productOp? hop) rfl),
      Term.literals_eq hls hl, Factor.literals_eq hrs hr]
    rfl

theorem Factor.literals_eq {f : Factor} {ws : List Word} {q : Nat} {v : Operand}
    (hs : f.Spells ws) (hl : f.Lowers N P q v) : literals ws = v.literals := by
  match f, hs, hl with
  | .mk ord signs body, ⟨us, vs, hws, hsigns, hbody, _⟩, ⟨_, u, hv, _, hl⟩ =>
    rw [hws, hv, Operand.literals_behind, literals_append, literals_signs hsigns,
      Casted.literals_eq hbody hl, List.nil_append]

theorem Casted.literals_eq {b : Casted} {ws : List Word} {q : Nat} {v : Operand}
    (hs : b.Spells ws) (hl : b.Lowers N P q v) : literals ws = v.literals := by
  match b, hs, hl with
  | .primary p, hs, ⟨_, hl⟩ => exact Primary.literals_eq hs hl
  | .cast body ord target, ⟨us, w, x, hws, hbody, hw, _, hx⟩, ⟨_, source, a, hv, hl⟩ =>
    rw [hws, hv, literals_append, Casted.literals_eq hbody hl, literals_cons (literal?_of_kind hw),
      literals_cons (literal?_variableType hx), literals_nil, List.append_nil]
    rfl

theorem Primary.literals_eq {p : Primary} {ws : List Word} {q : Nat} {v : Operand}
    (hs : p.Spells ws) (hl : p.Lowers N P q v) : literals ws = v.literals := by
  match p, hs, hl with
  | .name x, ⟨w, hws, hx⟩, ⟨_, place, type, hv, _⟩ =>
    rw [hws, hv, literals_cons (literal?_name hx)]
    rfl
  | .call f as, ⟨w, l, us, hws, hf, hparen, has⟩, ⟨_, g, es, hv, _, hl⟩ =>
    rw [hws, hv, literals_cons (literal?_name hf), literals_cons (literal?_of_kind hparen),
      Args.literals_eq has hl]
    rfl
  | .int value ord, ⟨w, n, hws, hw, _⟩, ⟨_, hv⟩ =>
    have hint : w.kind.literal? = some .int := by
      rcases hw with hw | hw <;> rw [hw] <;> rfl
    rw [hws, hv, literals_literal hint]
    rfl
  | .double bits ord, ⟨w, hws, hw, _⟩, ⟨_, hv⟩ =>
    rw [hws, hv, literals_literal (literal?_of_kind hw)]
    rfl
  | .text s ord, ⟨w, hws, hw, _⟩, ⟨_, slot, hv, _⟩ =>
    rw [hws, hv, literals_literal (literal?_of_kind hw)]
    rfl
  | .paren ord inner close, ⟨w, us, r, hws, hw, _, hinner, hclose⟩, ⟨_, hl⟩ =>
    rw [hws, List.cons_append, literals_cons (literal?_of_kind hw), literals_append,
      literals_close hclose rfl, Relational.literals_eq hinner hl, List.append_nil]

theorem Relational.literals_eq {r : Relational} {ws : List Word} {q : Nat} {v : Operand}
    (hs : r.Spells ws) (hl : r.Lowers N P q v) : literals ws = v.literals := by
  match r, hs, hl with
  | .value e, hs, ⟨_, hl⟩ => exact Expr.literals_eq hs hl
  | .compare l op r, ⟨us, w, vs, hws, hls, hop, hrs⟩, ⟨_, type, a, b, hv, hl, hr⟩ =>
    rw [hws, hv, literals_append, literals_cons (literal?_of_mem (mem_of_relOp? hop) rfl),
      Expr.literals_eq hls hl, Expr.literals_eq hrs hr]
    rfl

theorem Args.literals_eq {as : Args} {isFirst : Bool} {ws : List Word} {q : Nat} {es : Core.Args}
    (hs : as.Spells isFirst ws) (hl : as.Lowers N P q es) : literals ws = es.literals := by
  match as, hs, hl with
  | .done ord, ⟨w, hws, hw, _⟩, hes =>
    rw [hws, show es = .nil from hes, literals_cons (literal?_of_kind hw)]
    rfl
  | .more e rest, ⟨cs, us, vs, hws, hcs, he, hrest⟩, ⟨a, as, hes, hle, hlr⟩ =>
    have hnone : literals cs = [] := by
      cases isFirst with
      | true => exact congrArg literals hcs
      | false =>
        obtain ⟨c, rfl, hc⟩ := hcs
        exact literals_cons (literal?_of_kind hc) []
    rw [hws, hes, literals_append, literals_append, hnone, Expr.literals_eq he hle,
      Args.literals_eq hrest hlr]
    rfl

end

theorem Relational.literals_decides {r : Relational} {ws : List Word} {q : Nat} {c : Core.Cond}
    (hs : r.Spells ws) (hl : r.Decides N P q c) : literals ws = c.literals := by
  obtain ⟨-, v, rfl, hl⟩ := hl
  rw [Operand.literals_condition, Relational.literals_eq hs hl]

end

/-- The literals of a declaration are those of its initial value. -/
theorem Decl.literals_eq {constant : Bool} {x : Name} {init : Option Expr} {close : Close}
    (hs : (Decl.mk constant x type init close).Spells ws) :
    ∃ us, InitSpells init us ∧ literals ws = literals us := by
  obtain ⟨w, n, c, t, us, e, rfl, hw, hn, hc, ht, hinit, hclose⟩ := hs
  have hkeyword : w.kind.literal? = none := by
    rw [hw]
    cases constant <;> rfl
  refine ⟨us, hinit, ?_⟩
  simp only [List.cons_append, literals_append, literals_cons hkeyword,
    literals_cons (literal?_name hn), literals_cons (literal?_of_kind hc),
    literals_cons (literal?_variableType ht),
    literals_close hclose rfl, List.append_nil]

theorem literals_init {e : Expr} {us : List Word} (h : InitSpells (some e) us) :
    ∃ vs, e.Spells vs ∧ literals us = literals vs := by
  obtain ⟨w, vs, rfl, hw, hvs⟩ := h
  exact ⟨vs, hvs, literals_cons (literal?_of_kind hw) vs⟩

section

variable {N : Nat → Names} {P : Nat → Phrase → Nat → Operand → Prop}

mutual

/-- The literals among the tokens of a statement are those of what it is lowered to. -/
theorem Stmt.literals_eq {s : Stmt} {ws : List Word} {n start : Nat} {a : Core.Stmt}
    (hs : s.Spells ws) (hl : s.Lowers N P n start a) : literals ws = a.literals := by
  match s, hs, hl with
  | .empty, ⟨w, hws, hw⟩, ha =>
    rw [hws, show a = .skip from ha, literals_cons (literal?_of_kind hw)]
    rfl
  | .declare (.mk _ _ _ none _), hs, ha =>
    obtain ⟨us, hus, hws⟩ := Decl.literals_eq hs
    rw [show a = .skip from ha, hws, show us = [] from hus]
    rfl
  | .declare (.mk _ _ _ (some e) _), hs, ⟨b, ha, hl⟩ =>
    obtain ⟨us, hus, hws⟩ := Decl.literals_eq hs
    obtain ⟨vs, hvs, hus⟩ := literals_init hus
    rw [ha, hws, hus, Expr.literals_eq hvs hl]
    rfl
  | .branch i, ⟨w, us, hws, hw, hi⟩, hl =>
    rw [hws, literals_cons (literal?_of_kind hw), If.literals_eq hi hl]
  | .loop _ cond body, ⟨w, us, vs, hws, hw, _, hcond, hbody⟩, ⟨c, b, ha, hlc, hlb⟩ =>
    rw [hws, ha, List.cons_append, literals_cons (literal?_of_kind hw), literals_append,
      Relational.literals_decides hcond hlc, Block.literals_eq hbody hlb]
    rfl
  | .ret _ none _, ⟨w, us, e, hws, hw, _, hus, hclose⟩, ha =>
    rw [hws, show a = .ret none from ha, show us = [] from hus, List.cons_append,
      literals_cons (literal?_of_kind hw), List.nil_append, literals_close hclose rfl]
    rfl
  | .ret _ (some x) _, ⟨w, us, e, hws, hw, _, hx, hclose⟩, ⟨b, ha, hl⟩ =>
    rw [hws, ha, List.cons_append, literals_cons (literal?_of_kind hw), literals_append,
      literals_close hclose rfl, List.append_nil, Expr.literals_eq hx hl]
    rfl
  | .brk _ _, ⟨w, e, hws, hw, _, hclose⟩, ha =>
    rw [hws, show a = .brk from ha, literals_cons (literal?_of_kind hw), literals_close hclose rfl]
    rfl
  | .cont _ _, ⟨w, e, hws, hw, _, hclose⟩, ha =>
    rw [hws, show a = .cont from ha, literals_cons (literal?_of_kind hw), literals_close hclose rfl]
    rfl
  | .call f as _, ⟨w, l, us, e, hws, hf, hparen, has, hclose⟩,
      ⟨g, es, ha, _, g', es', heq, _, hl⟩ =>
    cases heq
    rw [hws, ha, List.cons_append, List.cons_append, literals_cons (literal?_name hf),
      literals_cons (literal?_of_kind hparen), literals_append, literals_close hclose rfl,
      List.append_nil, Args.literals_eq has hl]
    rfl
  | .assign x e _, ⟨w, l, us, c, hws, hx, hassign, he, hclose⟩, ⟨place, type, b, ha, _, hl⟩ =>
    rw [hws, ha, List.cons_append, List.cons_append, literals_cons (literal?_name hx),
      literals_cons (literal?_of_kind hassign), literals_append, literals_close hclose rfl,
      List.append_nil, Expr.literals_eq he hl]
    rfl

theorem If.literals_eq {i : If} {ws : List Word} {n start : Nat} {a : Core.Stmt}
    (hs : i.Spells ws) (hl : i.Lowers N P n start a) : literals ws = a.literals := by
  match i, hs, hl with
  | .mk cond body alternative, ⟨us, vs, xs, hws, hcond, hbody, halt⟩,
      ⟨c, b, o, ha, hlc, hlb, hlo⟩ =>
    rw [hws, ha, Core.Stmt.literals_choice, literals_append, literals_append,
      Relational.literals_decides hcond hlc, Block.literals_eq hbody hlb,
      Else.literals_eq halt hlo]

theorem Else.literals_eq {e : Else} {ws : List Word} {n start : Nat} {o : Option Core.Block}
    (hs : e.Spells ws) (hl : e.Lowers N P n start o) :
    literals ws = (o.map Core.Block.literals).getD [] := by
  match e, hs, hl with
  | .none, hws, ho =>
    rw [show ws = [] from hws, show o = none from ho]
    rfl
  | .block b, ⟨w, us, hws, hw, hb⟩, ⟨a, ho, hl⟩ =>
    rw [hws, ho, literals_cons (literal?_of_kind hw), Block.literals_eq hb hl]
    rfl
  | .branch i, ⟨w, v, us, hws, hw, hv, hi⟩, ⟨a, ho, hl⟩ =>
    rw [hws, ho, literals_cons (literal?_of_kind hw), literals_cons (literal?_of_kind hv),
      If.literals_eq hi hl]
    simp [Core.Block.literals]

theorem Block.literals_eq {b : Block} {ws : List Word} {n start : Nat} {a : Core.Block}
    (hs : b.Spells ws) (hl : b.Lowers N P n start a) : literals ws = a.literals := by
  match b, hs, hl with
  | .stmts ss, ⟨w, us, hws, hw, hss⟩, hl =>
    rw [hws, literals_cons (literal?_of_kind hw), Stmts.literals_eq hss hl]

theorem Stmts.literals_eq {ss : Stmts} {ws : List Word} {n start : Nat} {b : Core.Block}
    (hs : ss.Spells ws) (hl : ss.Lowers N P n start b) : literals ws = b.literals := by
  match ss, hs, hl with
  | .done ord, ⟨w, hws, hw, _⟩, hb =>
    rw [hws, show b = .nil from hb, literals_cons (literal?_of_kind hw)]
    rfl
  | .more s rest, ⟨us, vs, hws, hs, hrest⟩, ⟨a, as, hb, hl, hlr⟩ =>
    rw [hws, hb, literals_append, Stmt.literals_eq hs hl, Stmts.literals_eq hrest hlr]
    rfl

end

end

theorem Param.literals_eq {p : Param} (h : p.Spells ws) : literals ws = [] := by
  obtain ⟨us, n, c, t, rfl, hus, hn, hc, ht⟩ := h
  have hnone : literals us = [] := by
    split at hus
    · obtain ⟨w, rfl, hw⟩ := hus
      exact literals_cons (literal?_of_kind hw) []
    · rw [hus]
      rfl
  rw [literals_append, hnone, literals_cons (literal?_name hn), literals_cons (literal?_of_kind hc),
    literals_cons (literal?_variableType ht)]
  rfl

theorem literals_params {ps : List Param} {ws : List Word} (h : ParamsSpell ps ws) :
    literals ws = [] := by
  match ps, h with
  | [p], h => exact Param.literals_eq h
  | p :: q :: ps, ⟨us, c, vs, hws, hp, hc, hps⟩ =>
    rw [hws, literals_append, Param.literals_eq hp, literals_cons (literal?_of_kind hc),
      literals_params hps]
    rfl

section

variable {p : Program} {texts : Nat → List UInt8} {ws : List Word}

/-- The literals of a function are those of its body. -/
theorem Fn.literals_eq {P : Declared → Nat → Phrase → Nat → Operand → Prop} {f : Fn} {fn : Core.Fn}
    (hs : f.Spells ws) (hl : f.Lowers p texts P fn) : literals ws = fn.body.literals := by
  match f, hs, hl with
  | .mk name ps (.ok (type, body)), ⟨w, n, l, us, r, a, t, vs, hws, hw, hn, hparen, hps, hr, harrow,
      ht, hbody⟩, ⟨_, hl⟩ =>
    have hnone : literals us = [] := by
      rcases hps with ⟨-, rfl⟩ | hps
      · rfl
      · exact literals_params hps
    rw [hws]
    simp only [List.cons_append, literals_append, literals_cons (literal?_of_kind hw),
      literals_cons (literal?_name hn), literals_cons (literal?_of_kind hparen), hnone,
      literals_cons (literal?_of_kind hr), literals_cons (literal?_of_kind harrow),
      literals_cons (literal?_of_mem (mem_of_resultType? ht) rfl), Block.literals_eq hbody hl,
      List.nil_append]

/-- The literals of declarations are those of the initial values. -/
theorem literals_inits {N : Names} {P : Phrase → Nat → Operand → Prop} {ds : List Decl}
    {ws : List Word} {slot start : Nat} {is : List Core.Init} (hs : RowSpells Decl.Spells ds ws)
    (hl : InitsLower N P slot start ds is) : literals ws = is.flatMap (·.value.literals) := by
  match ds, hs, hl with
  | [], hws, his =>
    rw [show ws = [] from hws, show is = [] from his]
    rfl
  | .mk _ _ _ none _ :: ds, ⟨us, vs, hws, hd, hds⟩, hl =>
    obtain ⟨xs, hxs, hus⟩ := Decl.literals_eq hd
    rw [hws, literals_append, hus, show xs = [] from hxs, literals_inits hds hl]
    rfl
  | .mk _ _ _ (some e) _ :: ds, ⟨us, vs, hws, hd, hds⟩, ⟨a, rest, his, hle, hl⟩ =>
    obtain ⟨xs, hxs, hus⟩ := Decl.literals_eq hd
    obtain ⟨ys, hys, hxs⟩ := literals_init hxs
    rw [hws, his, literals_append, hus, hxs, Expr.literals_eq hys hle, literals_inits hds hl]
    rfl

/-- The literals of functions in a row. -/
theorem literals_functions {P : Nat → Declared → Nat → Phrase → Nat → Operand → Prop}
    {fs : List Fn} {fns : List Core.Fn} {ws : List Word} {k : Nat} (hs : RowSpells Fn.Spells fs ws)
    (hlength : fns.length = fs.length)
    (hl : ∀ (i : Nat) (f : Fn) (fn : Core.Fn), fs[i]? = some f → fns[i]? = some fn →
      f.Lowers p texts (P (k + i)) fn) : literals ws = fns.flatMap (·.body.literals) := by
  match fs, fns, hs, hlength with
  | [], [], hws, _ =>
    rw [show ws = [] from hws]
    rfl
  | f :: fs, fn :: fns, ⟨us, vs, hws, hf, hfs⟩, hlength =>
    have hl' : ∀ (i : Nat) (f : Fn) (fn : Core.Fn), fs[i]? = some f → fns[i]? = some fn →
        f.Lowers p texts (P (k + 1 + i)) fn := by
      intro i f fn hf hfn
      rw [Nat.add_assoc, Nat.add_comm 1]
      exact hl (i + 1) f fn hf hfn
    rw [hws, literals_append, Fn.literals_eq hf (hl 0 f fn rfl rfl),
      literals_functions hfs (Nat.succ.inj hlength) hl']
    rfl

/-- **The literals of a program are those of its core program.** -/
theorem Program.literals_eq {P : Nat → Declared → Nat → Phrase → Nat → Operand → Prop}
    {core : Core.Program} (hs : p.Spells ws) (hl : p.Lowers texts P core) :
    literals ws = core.literals := by
  obtain ⟨us, vs, w, rfl, hdecls, hfns, hclose⟩ := hs
  have hfunctions : ∀ (i : Nat) (f : Fn) (fn : Core.Fn), p.functions[i]? = some f →
      core.functions[i]? = some fn → f.Lowers p texts (P (1 + i)) fn := by
    intro i f fn hf hfn
    rw [Nat.add_comm]
    exact hl.functions i f fn hf hfn
  rw [literals_append, literals_append, literals_inits hdecls hl.inits,
    literals_functions hfns hl.length hfunctions, literals_close hclose rfl, List.append_nil]
  rfl

end

end Syntax

/-- The literals among the tokens of an accepted program are those of its core program. -/
theorem Program.literals_eq {p : Program} {a : Analysis} (ha : p.analyse.result = .ok a)
    {s : Setup} (hl : Laid s a.tables a.core) (hglobals : a.tables.globals.rows.length < 2 ^ 63) :
    Syntax.literals p.source.words = a.core.literals := by
  have houtcome := Program.outcome_source ha
  obtain ⟨w, hwalk, g, htables⟩ := walk_of_analyse houtcome
  have hfew : w.globals.rows.length < 2 ^ 63 := by
    have hlength : a.tables.globals.rows.length = w.globals.rows.length := by
      rw [htables]
      exact List.length_map _
    rwa [← hlength]
  exact Syntax.Program.literals_eq (Source.spells_of_accepted houtcome)
    (Typing.lowers_program p.source.plain_tree hwalk (Typing.tells_module (htables ▸ hl) hfew))

/-! ## Counting instructions -/

/-- The number of instructions of a code that push. -/
def pushes (code : List Instr) : Nat :=
  code.countP Instr.isPush

section

variable {α β : Type}

/-- What is picked from a list behind some of it. -/
theorem getElem?_filterMap {f : α → Option β} {l : List α} {i : Nat} {a : α} {b : β}
    (hi : l[i]? = some a) (ha : f a = some b) :
    (l.filterMap f)[(l.take i).countP fun x => (f x).isSome]? = some b := by
  obtain ⟨hlt, rfl⟩ := List.getElem?_eq_some_iff.mp hi
  have hsplit : l = l.take i ++ l[i] :: l.drop (i + 1) := by simp
  conv => enter [1, 1]; rw [hsplit]
  rw [List.filterMap_append, List.filterMap_cons_some ha,
    List.getElem?_append_right (Nat.le_of_eq List.length_filterMap_eq_countP),
    List.length_filterMap_eq_countP, Nat.sub_self]
  rfl

/-- What stands in one of several lists in a row. -/
theorem getElem?_flatMap {f : α → List β} {l : List α} {k i : Nat} {a : α} {b : β}
    (hk : l[k]? = some a) (hi : (f a)[i]? = some b) :
    (l.flatMap f)[((l.take k).flatMap f).length + i]? = some b := by
  obtain ⟨hlt, rfl⟩ := List.getElem?_eq_some_iff.mp hk
  have hsplit : l = l.take k ++ l[k] :: l.drop (k + 1) := by simp
  conv => enter [1, 1]; rw [hsplit]
  rw [List.flatMap_append, List.getElem?_append_right (Nat.le_add_right ..),
    Nat.add_sub_cancel_left, List.flatMap_cons,
    List.getElem?_append_left (List.getElem?_eq_some_iff.mp hi).1, hi]

end

namespace Core

variable {code : List Instr} {plan : List Mark} {types : List Ty}

/-- The plans of all functions in the order of their slots. -/
def Program.plans (p : Program) : List (List Mark) :=
  p.entryPlan :: p.functions.map Fn.plan

/-- The plan says of each instruction of the code whether it pushes, and maybe of the end. -/
def Matched (code : List Instr) (plan : List Mark) (types : List Ty) : Prop :=
  ∃ places rest, (∀ i ∈ rest, isPlain i = true) ∧ Marks places (code ++ rest) plan types

theorem Matched.planned_eq (h : Matched code plan types) : planned plan = types := by
  obtain ⟨_, _, -, h⟩ := h
  exact h.literals

theorem Matched.pushes_take (h : Matched code plan types) (i : Nat) :
    pushes (code.take i) = (plan.take i).countP Mark.isPush := by
  obtain ⟨_, rest, hrest, h⟩ := h
  have hnone : (rest.take (i - code.length)).countP Instr.isPush = 0 := by
    refine List.countP_eq_zero.mpr fun j hj => ?_
    have hplain := hrest j (List.mem_of_mem_take hj)
    simp only [isPlain, Bool.and_eq_true, bne_iff_ne] at hplain
    simpa [Instr.isPush] using hplain.1
  have hplan : (plan.take i).countP Mark.isPush
      = (((code ++ rest).map Instr.isPush).take i).countP id := by
    rw [← show plan.map Mark.isPush = (code ++ rest).map Instr.isPush from h.pushes,
      ← List.map_take, List.countP_map]
    rfl
  rw [hplan, ← List.map_take, List.countP_map, List.take_append]
  show _ = (code.take i ++ rest.take (i - code.length)).countP Instr.isPush
  rw [List.countP_append, hnone, Nat.add_zero]
  rfl

theorem Matched.pushes_eq (h : Matched code plan types) : pushes code = (planned plan).length := by
  have htake := h.pushes_take (code.length + plan.length)
  rw [List.take_of_length_le (by omega), List.take_of_length_le (by omega)] at htake
  rw [htake, planned, List.length_filterMap_eq_countP]
  rfl

theorem Fn.matched (f : Fn) : Matched f.code f.plan f.body.literals :=
  ⟨_, [], nofun, by simpa using f.marks⟩

theorem Program.matched_entry (p : Program) :
    Matched p.entryCode p.entryPlan (p.inits.flatMap (·.value.literals)) := by
  have hmarks := (initBlock p.inits).marks 0 ⟨0, 0⟩
  rw [code_initBlock, literals_initBlock] at hmarks
  have hall := hmarks.add (marks_main _ p.main)
  rw [← List.append_assoc] at hall
  exact ⟨_, [⟨.nop, 0⟩], List.forall_mem_singleton.mpr rfl, hall⟩

/-- The codes and the plans of a program go together. -/
theorem Program.matched {p : Program} {k : Nat} (hcode : p.codes[k]? = some code)
    (hplan : p.plans[k]? = some plan) : ∃ types, Matched code plan types := by
  cases k with
  | zero =>
    cases hcode
    cases hplan
    exact ⟨_, p.matched_entry⟩
  | succ k =>
    simp only [codes, plans, List.getElem?_cons_succ, List.getElem?_map, Option.map_eq_some_iff]
      at hcode hplan
    obtain ⟨f, hf, rfl⟩ := hcode
    obtain ⟨f', hf', rfl⟩ := hplan
    rw [hf] at hf'
    cases hf'
    exact ⟨_, f.matched⟩

theorem Program.literals_eq_flatMap (p : Program) : p.literals = p.plans.flatMap planned := by
  rw [plans, List.flatMap_cons, p.matched_entry.planned_eq, literals, List.flatMap_map]
  congr 2
  funext f
  exact f.matched.planned_eq.symm

theorem Program.pushes_codes (p : Program) (k : Nat) :
    pushes (p.codes.take k).flatten = ((p.plans.take k).flatMap planned).length := by
  have hmap : p.codes.map pushes = p.plans.map fun plan => (planned plan).length := by
    rw [codes, plans, List.map_cons, List.map_cons, List.map_map, List.map_map,
      p.matched_entry.pushes_eq]
    congr 2
    funext f
    exact f.matched.pushes_eq
  rw [pushes, List.countP_flatten, List.length_flatMap, List.map_take, List.map_take, ← hmap]
  rfl

/-- **The instructions that push are those of the literals, in order.** -/
theorem Program.pushed {p : Program} {k i : Nat} {type : Ty} (hcode : p.codes[k]? = some code)
    (hplan : p.plans[k]? = some plan) (hmark : (plan[i]?).bind Mark.literal = some type) :
    p.literals[pushes (p.codes.take k).flatten + pushes (code.take i)]? = some type := by
  obtain ⟨mark, hi, hliteral⟩ := Option.bind_eq_some_iff.mp hmark
  have hwithin : (planned plan)[pushes (code.take i)]? = some type := by
    obtain ⟨_, hmatched⟩ := p.matched hcode hplan
    rw [hmatched.pushes_take]
    exact getElem?_filterMap hi hliteral
  rw [p.literals_eq_flatMap, p.pushes_codes]
  exact getElem?_flatMap hplan hwithin

end Core

end TinyC
