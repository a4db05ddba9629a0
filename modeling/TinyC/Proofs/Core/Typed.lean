import TinyC.Core.Basic

/-!
# Typed core programs

An environment lists the types of what code can name: the globals, the functions, and the
parameters and local variables of the function at hand. A core program is typed in it if every
slot it names exists and has the type it is used at, if every call passes what its function takes,
if only numbers are computed with, and if `break` and `continue` stand in loops.

That is all the machine needs in order not to be led astray. Environments grow while a program is
read, and nothing that is typed ceases to be so (`Expr.Typed.mono`, `Stmt.Typed.mono`).
-/

namespace TinyC.Core

/-- What is known of a function from outside. -/
structure Signature where
  params : List Ty
  result : Ty
  deriving Repr, DecidableEq

/-- The types of what code can name. The first function is the entry function. -/
structure Env where
  globals : List Ty
  functions : List Signature
  params : List Ty
  locals : List Ty
  /-- The type of the result of the function at hand. -/
  result : Ty
  deriving Repr, DecidableEq

/-- The type of the variable at a place. -/
def Env.place? (Γ : Env) (p : Place) : Option Ty :=
  match p.location with
  | .global => Γ.globals[p.slot]?
  | .param => if Γ.result.slots ≤ p.slot then Γ.params[p.slot - Γ.result.slots]? else none
  | .local => Γ.locals[p.slot]?

/-- A call can be made with arguments of these types. No program calls its entry function, and no
function has a text for a result. -/
def Callee.Takes (Γ : Env) (types : List Ty) : Callee → Prop
  | .builtin b => types = b.paramTypes
  | .function slot result =>
    0 < slot ∧ Γ.functions[slot]? = some ⟨types, result⟩ ∧ result ≠ .string

mutual

/-- The expression is typed. -/
def Expr.Typed (Γ : Env) : Expr → Prop
  | .int _ => True
  | .double _ => True
  | .text slot => Γ.globals[slot]? = some .string
  | .load place type => Γ.place? place = some type ∧ type.isNumeric = true
  | .arith _ type left right =>
    left.Typed Γ ∧ right.Typed Γ ∧ left.type = type ∧ right.type = type ∧ type.isNumeric = true
  | .negate type e => e.Typed Γ ∧ e.type = type ∧ type.isNumeric = true
  | .convert source target e =>
    e.Typed Γ ∧ e.type = source ∧ source.isNumeric = true ∧ target.isNumeric = true
  | .call callee args => ∃ types, callee.Takes Γ types ∧ args.Typed Γ types

/-- The arguments are typed, and their types are the given ones. -/
def Args.Typed (Γ : Env) : Args → List Ty → Prop
  | .nil, types => types = []
  | .cons e rest, types =>
    ∃ others, types = e.type :: others ∧ e.Typed Γ ∧ e.type ≠ .void ∧ rest.Typed Γ others

end

/-- The condition is typed. -/
def Cond.Typed (Γ : Env) : Cond → Prop
  | .nonzero e => e.Typed Γ ∧ e.type.isNumeric = true
  | .compare _ type left right =>
    left.Typed Γ ∧ right.Typed Γ ∧ left.type = type ∧ right.type = type ∧ type.isNumeric = true

mutual

/-- The statement is typed; the flag says whether a loop encloses it. -/
def Stmt.Typed (Γ : Env) (inLoop : Bool) : Stmt → Prop
  | .skip => True
  | .assign place e => e.Typed Γ ∧ Γ.place? place = some e.type ∧ e.type.isNumeric = true
  | .call callee args => ∃ types, callee.Takes Γ types ∧ args.Typed Γ types
  | .ret none => Γ.result = .void
  | .ret (some e) => e.Typed Γ ∧ e.type = Γ.result ∧ Γ.result ≠ .void
  | .ifThen c body => c.Typed Γ ∧ body.Typed Γ inLoop
  | .ifElse c body alternative =>
    c.Typed Γ ∧ body.Typed Γ inLoop ∧ alternative.Typed Γ inLoop
  | .loop c body => c.Typed Γ ∧ body.Typed Γ true
  | .brk => inLoop = true
  | .cont => inLoop = true

/-- The statements of the block are typed. -/
def Block.Typed (Γ : Env) (inLoop : Bool) : Block → Prop
  | .nil => True
  | .cons s rest => s.Typed Γ inLoop ∧ rest.Typed Γ inLoop

end

/-- The function is typed: its body is, and where it has a result every way through the body
returns. -/
structure Fn.Typed (Γ : Env) (f : Fn) : Prop where
  result : f.type = Γ.result
  body : f.body.Typed Γ false
  returns : f.type ≠ .void → f.body.terminates = true

/-- One environment lists all that another does, at the same slots. -/
structure Env.Extends (Γ Δ : Env) : Prop where
  globals : Γ.globals <+: Δ.globals
  functions : Γ.functions <+: Δ.functions
  params : Γ.params = Δ.params
  locals : Γ.locals <+: Δ.locals
  result : Γ.result = Δ.result

/-- What a list holds at an index, a longer one holds there. -/
theorem getElem?_of_prefix {α : Type} {l₁ l₂ : List α} (h : l₁ <+: l₂) {i : Nat} {a : α}
    (ha : l₁[i]? = some a) : l₂[i]? = some a := by
  obtain ⟨hi, rfl⟩ := List.getElem?_eq_some_iff.mp ha
  exact List.prefix_iff_getElem?.mp h i hi

namespace Env.Extends

variable {Γ Δ : Env}

theorem place (h : Γ.Extends Δ) {p : Place} {t : Ty} (hp : Γ.place? p = some t) :
    Δ.place? p = some t := by
  unfold Env.place? at hp ⊢
  rw [← h.params, ← h.result]
  split at hp
  · exact getElem?_of_prefix h.globals hp
  · exact hp
  · exact getElem?_of_prefix h.locals hp

theorem takes (h : Γ.Extends Δ) {g : Callee} {ts : List Ty} (hg : g.Takes Γ ts) : g.Takes Δ ts := by
  cases g with
  | builtin b => exact hg
  | function slot result =>
    obtain ⟨hpos, hslot, hresult⟩ := hg
    exact ⟨hpos, getElem?_of_prefix h.functions hslot, hresult⟩

end Env.Extends

section Monotone

variable {Γ Δ : Env}

mutual

/-- A typed expression stays typed. -/
theorem Expr.Typed.mono (h : Γ.Extends Δ) {e : Expr} (he : e.Typed Γ) : e.Typed Δ := by
  match e, he with
  | .int _, _ => exact trivial
  | .double _, _ => exact trivial
  | .text _, he => exact getElem?_of_prefix h.globals he
  | .load _ _, he => exact ⟨h.place he.1, he.2⟩
  | .arith _ _ _ _, he => exact ⟨he.1.mono h, he.2.1.mono h, he.2.2⟩
  | .negate _ _, he => exact ⟨he.1.mono h, he.2⟩
  | .convert _ _ _, he => exact ⟨he.1.mono h, he.2⟩
  | .call _ _, ⟨types, hg, hargs⟩ => exact ⟨types, h.takes hg, hargs.mono h⟩

/-- Typed arguments stay typed. -/
theorem Args.Typed.mono (h : Γ.Extends Δ) {as : Args} {types : List Ty} (has : as.Typed Γ types) :
    as.Typed Δ types := by
  match as, has with
  | .nil, has => exact has
  | .cons _ _, ⟨others, ht, he, hv, hrest⟩ => exact ⟨others, ht, he.mono h, hv, hrest.mono h⟩

end

/-- A typed condition stays typed. -/
theorem Cond.Typed.mono (h : Γ.Extends Δ) {c : Cond} (hc : c.Typed Γ) : c.Typed Δ := by
  cases c with
  | nonzero e => exact ⟨hc.1.mono h, hc.2⟩
  | compare op type l r => exact ⟨hc.1.mono h, hc.2.1.mono h, hc.2.2⟩

mutual

/-- A typed statement stays typed. -/
theorem Stmt.Typed.mono (h : Γ.Extends Δ) {s : Stmt} {inLoop : Bool} (hs : s.Typed Γ inLoop) :
    s.Typed Δ inLoop := by
  match s, hs with
  | .skip, _ => exact trivial
  | .assign _ _, hs => exact ⟨hs.1.mono h, h.place hs.2.1, hs.2.2⟩
  | .call _ _, ⟨types, hg, hargs⟩ => exact ⟨types, h.takes hg, hargs.mono h⟩
  | .ret none, hs => exact h.result.symm.trans hs
  | .ret (some _), hs => exact ⟨hs.1.mono h, hs.2.1.trans h.result, h.result ▸ hs.2.2⟩
  | .ifThen _ _, hs => exact ⟨hs.1.mono h, hs.2.mono h⟩
  | .ifElse _ _ _, hs => exact ⟨hs.1.mono h, hs.2.1.mono h, hs.2.2.mono h⟩
  | .loop _ _, hs => exact ⟨hs.1.mono h, hs.2.mono h⟩
  | .brk, hs => exact hs
  | .cont, hs => exact hs

/-- A typed block stays typed. -/
theorem Block.Typed.mono (h : Γ.Extends Δ) {b : Block} {inLoop : Bool} (hb : b.Typed Γ inLoop) :
    b.Typed Δ inLoop := by
  match b, hb with
  | .nil, _ => exact trivial
  | .cons _ _, hb => exact ⟨hb.1.mono h, hb.2.mono h⟩

end

/-- A typed function stays typed. -/
theorem Fn.Typed.mono (h : Γ.Extends Δ) {f : Fn} (hf : f.Typed Γ) : f.Typed Δ :=
  ⟨hf.result.trans h.result, hf.body.mono h, hf.returns⟩

end Monotone

end TinyC.Core
