import TinyC.Proofs.Syntax.Plain
import TinyC.Proofs.Typing.Lowering

/-!
# Accepted expressions are typed and lowered as declared

The analysis of an expression checks types as it goes, from the leaves up. Each of its checks is
taken apart once (`passes_combine`, `passes_convert` and so on); `reads_expr` and its companions
then follow the syntax tree, one case for each form of phrase.

Several things are said of a phrase at once (`State.Reads`). If the table of globals was full, or if
the phrase brought no text, then what it means is typed. Before the first function is declared, no
number and no condition brings a text. And every name in it is lowered to what the tables say it
stands for (`State.Reflects`).
-/

namespace TinyC.Typing

variable {v : Operand} {c : Context} {s s' : State}

open Walk State
open Syntax (Name Names Phrase)

/-- The operand is a number or a condition. -/
def Operand.Settled : Operand → Prop
  | .value e => e.type.isNumeric = true
  | .test _ => True

theorem Operand.Typed.mono {Γ Δ : Core.Env} (h : Γ.Extends Δ) (hv : v.Typed Γ) : v.Typed Δ := by
  cases v with
  | value e => exact Core.Expr.Typed.mono h hv
  | test t => exact Core.Cond.Typed.mono h hv

/-! ## The checks taken apart -/

theorem Operand.number?_eq_some {e : Core.Expr} (h : v.number? = some e) :
    v = .value e ∧ e.type.isNumeric = true := by
  cases v with
  | test t => cases h
  | value a =>
    simp only [number?] at h
    split at h
    · rename_i ha
      cases h
      exact ⟨rfl, ha⟩
    · cases h

theorem Operand.valueOf?_eq_some {type : Ty} {e : Core.Expr} (h : v.valueOf? type = some e) :
    v = .value e ∧ e.type = type := by
  cases v with
  | test t => cases h
  | value a =>
    simp only [valueOf?] at h
    split at h
    · rename_i ha
      cases h
      exact ⟨rfl, ha⟩
    · cases h

theorem Operand.numbers?_eq_some {l r : Operand} {a b : Core.Expr}
    (h : l.numbers? r = some (a, b)) :
    l = .value a ∧ r = .value b ∧ b.type = a.type ∧ a.type.isNumeric = true := by
  unfold numbers? at h
  split at h
  · rename_i x y hx hy
    split at h
    · rename_i heq
      cases h
      obtain ⟨rfl, hnum⟩ := number?_eq_some hx
      obtain ⟨rfl, _⟩ := number?_eq_some hy
      exact ⟨rfl, rfl, heq.symm, hnum⟩
    · cases h
  · cases h

/-! ## Names are looked up -/

/-- A name in scope is a global, or a parameter or local variable of the function at hand. -/
theorem scope_cases {s : State} {x : String} {e : Entry Nat} {l : Location}
    (h : (s.scope c).resolve Table.find? x = some (e, l)) :
    (l = .global ∧ s.globals.find? x = some e) ∨
      (∃ owner t, c.owner = some owner ∧ l = .param ∧ s.params = some t ∧ t.find? x = some e) ∨
      (∃ owner, c.owner = some owner ∧ l = .local ∧ s.locals.find? x = some e) := by
  obtain ⟨⟨t, k⟩, hmem, hfind⟩ := List.exists_of_findSome?_eq_some h
  obtain ⟨e', he, hpair⟩ := Option.map_eq_some_iff.mp hfind
  cases hpair
  obtain ⟨_ | owner, inLoop⟩ := c
  · rcases List.mem_singleton.mp hmem with heq
    cases heq
    exact .inl ⟨rfl, he⟩
  · replace hmem : (t, l) ∈ (s.locals, Location.local) ::
        (Scope.push ⟨[(s.globals, Location.global)]⟩ s.params Location.param).frames := hmem
    rcases List.mem_cons.mp hmem with heq | hmem
    · cases heq
      exact .inr (.inr ⟨owner, rfl, rfl, he⟩)
    · cases hp : s.params with
      | none =>
        rw [hp] at hmem
        cases List.mem_singleton.mp hmem
        exact .inl ⟨rfl, he⟩
      | some u =>
        rw [hp] at hmem
        rcases List.mem_cons.mp hmem with heq | hmem
        · cases heq
          exact .inr (.inl ⟨owner, _, rfl, rfl, rfl, he⟩)
        · cases List.mem_singleton.mp hmem
          exact .inl ⟨rfl, he⟩

section

variable {c : Context} {s s' : State} {ts : List String}

/-- A name is looked for among the local variables, the parameters and the globals, in this
order. -/
theorem resolve_inside {owner : String × Ty} {x : String} (hc : c.owner = some owner) :
    (s.scope c).resolve Table.find? x =
      match s.locals.find? x, s.params.bind (·.find? x) with
      | some e, _ => some (e, .local)
      | none, some e => some (e, .param)
      | none, none => (s.globals.find? x).map (·, .global) := by
  have htop : c.isTop = false := by simp [Context.isTop, hc]
  cases hl : s.locals.find? x with
  | some e => simp [State.scope, htop, Scope.push, Scope.resolve, hl]
  | none =>
    cases hp : s.params with
    | none =>
      cases hg : s.globals.find? x <;>
        simp [State.scope, htop, Scope.push, Scope.resolve, hl, hp, hg]
    | some t =>
      cases ht : t.find? x <;> cases hg : s.globals.find? x <;>
        simp [State.scope, htop, Scope.push, Scope.resolve, hl, hp, ht, hg]

theorem resolve_outside {x : String} (hc : c.owner = none) :
    (s.scope c).resolve Table.find? x = (s.globals.find? x).map (·, .global) := by
  have htop : c.isTop = true := by simp [Context.isTop, hc]
  cases hg : s.globals.find? x <;> simp [State.scope, htop, Scope.push, Scope.resolve, hg]

/-- Texts have no names, so they change nothing for names. -/
theorem State.Adds.find?_globals (h : s.Adds s' ts) (x : String) :
    s'.globals.find? x = s.globals.find? x := by
  by_cases hx : x = ""
  · simp [Table.find?, hx]
  · have hnone : (textRows s.globals.count ts).find? (Symbol.name · == x) = .none := by
      refine List.find?_eq_none.mpr fun e he => ?_
      have hname : Symbol.name e = "" := name_of_mem_textRows he
      simpa [hname] using Ne.symm hx
    simp [Table.find?, hx, h.rows, List.find?_append, hnone]

theorem State.Adds.resolve_eq (h : s.Adds s' ts) (c : Context) (x : String) :
    (s'.scope c).resolve Table.find? x = (s.scope c).resolve Table.find? x := by
  cases hc : c.owner with
  | none => rw [resolve_outside hc, resolve_outside hc, h.find?_globals]
  | some owner =>
    rw [resolve_inside hc, resolve_inside hc, h.find?_globals, h.params, h.locals]

end

section Checks

variable {c : Context} {s s' : State} {v w l r : Operand} {ord : Nat}

theorem passes_combine {op : ArithOp} (h : Passes (combine ord op l r) s v s') :
    ∃ a b, l = .value a ∧ r = .value b ∧ b.type = a.type ∧ a.type.isNumeric = true ∧
      v = .value (.arith op a.type a b) ∧ s.Adds s' [] := by
  unfold combine at h
  split at h
  · rename_i a b hab
    obtain ⟨hl, hr, htype, hnum⟩ := Operand.numbers?_eq_some hab
    exact ⟨a, b, hl, hr, htype, hnum, h.emit.pure⟩
  · exact absurd h Passes.not_reject

theorem passes_compare {op : RelOp} (h : Passes (compare ord op l r) s v s') :
    ∃ a b, l = .value a ∧ r = .value b ∧ b.type = a.type ∧ a.type.isNumeric = true ∧
      v = .test (.compare op a.type a b) ∧ s.Adds s' [] := by
  unfold compare at h
  split at h
  · rename_i a b hab
    obtain ⟨hl, hr, htype, hnum⟩ := Operand.numbers?_eq_some hab
    exact ⟨a, b, hl, hr, htype, hnum, h.emitAll.pure⟩
  · exact absurd h Passes.not_reject

theorem passes_convert {target : Ty} (h : Passes (convert ord target v) s w s') :
    ∃ e, v = .value e ∧ e.type.isNumeric = true ∧ w = .value (.convert e.type target e) ∧
      s.Adds s' [] := by
  unfold convert at h
  split at h
  · rename_i e he
    obtain ⟨hv, hnum⟩ := Operand.number?_eq_some he
    exact ⟨e, hv, hnum, h.emitAll.pure⟩
  · exact absurd h Passes.not_reject

theorem typed_negated {Γ : Core.Env} {e : Core.Expr} (he : e.Typed Γ)
    (hnum : e.type.isNumeric = true) (ss : List Bool) : (negated e ss).Typed Γ := by
  induction ss generalizing e with
  | nil => exact he
  | cons b ss ih =>
    cases b with
    | false => exact ih he hnum
    | true => exact ih ⟨he, rfl, hnum⟩ hnum

theorem passes_negateAll {e a : Core.Expr} {ss : List Bool} (h : Passes (negateAll e ss) s a s') :
    a = negated e ss ∧ s.Adds s' [] := by
  induction ss generalizing e with
  | nil => exact h.pure
  | cons b ss ih =>
    cases b with
    | false => exact ih h
    | true => exact ih h.emit

/-- Signs leave an operand as it is, or negate a number. -/
theorem passes_sign {ss : List Bool} (h : Passes (sign ord ss v) s w s') :
    s.Adds s' [] ∧
      (ss.any id = false ∧ w = v ∨
        ∃ e, v = .value e ∧ e.type.isNumeric = true ∧ w = .value (negated e ss)) := by
  unfold sign at h
  split at h
  · split at h
    · rename_i e he
      obtain ⟨hv, hnum⟩ := Operand.number?_eq_some he
      obtain ⟨a, t, hneg, h⟩ := h.bind
      obtain ⟨rfl, hs⟩ := passes_negateAll hneg
      obtain ⟨rfl, ht⟩ := h.pure
      exact ⟨hs.trans ht, .inr ⟨e, hv, hnum, rfl⟩⟩
    · exact absurd h Passes.not_reject
  · rename_i hany
    obtain ⟨rfl, hs⟩ := h.pure
    exact ⟨hs, .inl ⟨by simpa using hany, rfl⟩⟩

theorem passes_resolve {x : Name} {e : Entry Nat} {l : Location}
    (h : Passes (resolve c x) s (e, l) s') :
    s.Adds s' [] ∧ (s.scope c).resolve Table.find? x.text = some (e, l) ∧
      e.type.isNumeric = true := by
  obtain ⟨t, ht, h⟩ := h.get
  rw [ht.resolve_eq] at h
  split at h
  · exact absurd h Passes.not_reject
  · rename_i e' l' hres
    split at h
    · rename_i hnum
      obtain ⟨he, hs⟩ := h.pure
      cases he
      exact ⟨hs, hres, hnum⟩
    · exact absurd h Passes.not_reject

theorem passes_load {x : Name} (h : Passes (load c x) s v s') :
    ∃ e l, (s.scope c).resolve Table.find? x.text = some (e, l) ∧ e.type.isNumeric = true ∧
      v = .value (.load (placeOf c e l) e.type) ∧ s.Adds s' [] := by
  obtain ⟨⟨e, l⟩, t, hres, h⟩ := h.bind
  obtain ⟨ht, hscope, hnum⟩ := passes_resolve hres
  dsimp only at h
  split at h
  · exact absurd h Passes.not_reject
  · obtain ⟨hv, hs⟩ := h.emit.emit.pure
    exact ⟨e, l, hscope, hnum, hv, ht.trans hs⟩

/-- A call names a built-in function or a row of the table of functions. -/
theorem passes_callee {f : Name} {g : Core.Callee} {types : List Ty}
    (h : Passes (callee f) s (g, types) s') :
    s.Adds s' [] ∧ ((∃ b, Builtin.ofName? f.text = some b ∧ g = .builtin b ∧
      types = b.paramTypes) ∨ ∃ r, Builtin.ofName? f.text = none ∧
        s.functions.find? f.text = some r ∧ g = .function r.slot r.type ∧
          types = r.paramTypes) := by
  unfold callee at h
  split at h
  · rename_i b hb
    obtain ⟨he, hs⟩ := h.pure
    cases he
    exact ⟨hs, .inl ⟨b, hb, rfl, rfl⟩⟩
  · rename_i hb
    obtain ⟨t, ht, h⟩ := h.get
    rw [ht.functions] at h
    split at h
    · rename_i r hr
      obtain ⟨he, hs⟩ := h.pure
      cases he
      exact ⟨hs, .inr ⟨r, hb, hr, rfl, rfl⟩⟩
    · exact absurd h Passes.not_reject

theorem passes_argument {f : Name} {number ord : Nat} {type : Ty} {a : Core.Expr}
    (h : Passes (argument f number type ord v) s a s') :
    s.Adds s' [] ∧ v = .value a ∧ a.type = type := by
  unfold argument at h
  split at h
  · rename_i e he
    obtain ⟨rfl, hs⟩ := h.pure
    exact ⟨hs, Operand.valueOf?_eq_some he⟩
  · exact absurd h Passes.not_reject

end Checks

/-! ## Names stand for places and functions -/

/-- The place of a name in scope has the type of its entry. -/
theorem place?_placeOf {s : State} (hs : s.Sound) {x : String} {e : Entry Nat} {l : Location}
    (h : (s.scope c).resolve Table.find? x = some (e, l)) :
    (s.env c).place? (placeOf c e l) = some e.type := by
  have hrow : ∀ {t : Table (Entry Nat)}, t.Dense → t.find? x = some e →
      (t.rows.map Entry.type)[e.slot]? = some e.type := by
    intro t ht hfind
    have hslot := ht.rows_slot (Table.find?_eq_some hfind).2.2
    exact List.getElem?_map ▸ congrArg (Option.map Entry.type) hslot
  rcases scope_cases h with ⟨rfl, he⟩ | ⟨owner, t, howner, rfl, ht, he⟩ | ⟨owner, howner, rfl, he⟩
  · exact hrow hs.globals he
  · have hparam := hrow (hs.params t ht) he
    simpa [placeOf, howner, Core.Env.place?, env, paramTypes, ht] using hparam
  · exact hrow hs.locals he

/-- What a call names takes what the table says; its parameters are numbers or texts. -/
theorem takes_callee {f : Name} {g : Core.Callee} {types : List Ty} (hs : s.Sound)
    (h : Passes (callee f) s (g, types) s') : g.Takes (s.env c) types ∧ ∀ t ∈ types, t ≠ .void := by
  obtain ⟨_, ⟨b, _, rfl, rfl⟩ | ⟨r, _, hr, rfl, rfl⟩⟩ := passes_callee h
  · exact ⟨rfl, by cases b <;> decide⟩
  · obtain ⟨hname, hr, hmem⟩ := Table.find?_eq_some hr
    have hslot := hs.functions.rows_slot hmem
    obtain ⟨htype, hparams⟩ := hs.signatures r hmem
    refine ⟨⟨Nat.pos_of_ne_zero fun h0 => ?_, ?_, htype⟩, fun t ht hvoid => ?_⟩
    · -- the first row is that of the entry function, which has no name
      rw [show Symbol.slot r = 0 from h0, ← List.head?_eq_getElem?, hs.entry] at hslot
      cases hslot
      exact hname hr.symm
    · exact List.getElem?_map ▸ congrArg (Option.map signature) hslot
    · rw [hvoid] at ht
      cases hparams _ ht

/-- Where no function can be called by name, only a call without arguments gives a number. -/
theorem params_eq_nil {f : Name} {g : Core.Callee} {types : List Ty} (hbare : s.Bare)
    (h : Passes (callee f) s (g, types) s') (hnum : g.result.isNumeric = true) : types = [] := by
  obtain ⟨_, ⟨b, _, rfl, rfl⟩ | ⟨r, _, hr, _⟩⟩ := passes_callee h
  · cases b <;> first | rfl | cases hnum
  · rw [hbare.functions] at hr
    cases hr

/-- A text goes into the table of globals. -/
theorem adds_text (s : State) (x : String) :
    s.Adds { s with globals := (s.globals.add? (Entry.ofText "" x)).getD s.globals } [x] := by
  have hadd : s.globals.add? (Entry.ofText "" x) =
      some ⟨s.globals.rows ++ [{ Entry.ofText "" x with slot := s.globals.count }],
        s.globals.count + 1⟩ :=
    Table.insert?_of_name_empty rfl
  rw [hadd]
  exact ⟨rfl, rfl, rfl, rfl, rfl, rfl⟩

/-! ## Names in the course of a phrase -/

/-- The texts among the globals are where they are said to be. -/
def State.Tells (texts : Nat → List UInt8) (s : State) : Prop :=
  ∀ e ∈ s.globals.rows, e.type = .string →
    texts (UInt64.ofNat e.slot).toNat = Text.bytesOf e.text

/-- The tables say of every name what it is lowered to. -/
structure State.Reflects (N : Names) (c : Context) (s : State) : Prop where
  place : ∀ x e l, (s.scope c).resolve Table.find? x = some (e, l) → e.type.isNumeric = true →
    N.place x = some (placeOf c e l, e.type)
  builtin : ∀ f b, Builtin.ofName? f = some b → N.callee f = some (.builtin b)
  function : ∀ f r, Builtin.ofName? f = none → s.functions.find? f = some r →
    N.callee f = some (.function r.slot r.type)

section

variable {N : Names} {texts : Nat → List UInt8} {c : Context} {s s' : State} {ts : List String}

theorem State.Reflects.after (hr : s.Reflects N c) (h : s.Adds s' ts) : s'.Reflects N c where
  place x e l hx := hr.place x e l (by rw [← h.resolve_eq]; exact hx)
  builtin := hr.builtin
  function f r hf hx := hr.function f r hf (by rw [← h.functions]; exact hx)

theorem State.Tells.before (ht : s'.Tells texts) (h : s.Adds s' ts) : s.Tells texts := by
  intro e he
  refine ht e ?_
  rw [h.rows]
  exact List.mem_append_left _ he

theorem State.Reflects.callee (hr : s.Reflects N c) {f : Name} {g : Core.Callee} {types : List Ty}
    (h : Passes (callee f) s (g, types) s') : N.callee f.text = some g := by
  obtain ⟨-, ⟨b, hb, rfl, -⟩ | ⟨r, hf, hfind, rfl, -⟩⟩ := passes_callee h
  · exact hr.builtin _ b hb
  · exact hr.function _ r hf hfind

end

namespace State

/-- A phrase was read: it has only brought texts, and none if it is a number or a condition and no
function can be called; what it means, said of the environment behind it, holds if the texts found
their slots; and it is lowered, from any index on, to what its names and texts stand for. -/
def Reads (c : Context) (s s' : State) (settled : Prop) (P : Core.Env → Prop)
    (L : Names → Nat → Prop) : Prop :=
  ∃ ts, s.Adds s' ts ∧ (s.Sound → s.globals.Full ∨ ts = [] → P (s'.env c)) ∧
    (s.Bare → settled → ts = []) ∧ ∀ N, s.Reflects N c → s'.Tells N.texts → ∀ q, L N q

namespace Reads

variable {c : Context} {s s' s'' : State} {S S' T : Prop} {P Q R : Core.Env → Prop}
  {L L' M : Names → Nat → Prop}

theorem lowers (h : Reads c s s' S P L) {N : Names} (hs : s.Reflects N c)
    (hs' : s'.Tells N.texts) (q : Nat) : L N q := by
  obtain ⟨_, -, -, -, hlowers⟩ := h
  exact hlowers N hs hs' q

/-- A phrase that brings no text. -/
theorem of_same (h : s.Adds s' []) (hP : s.Sound → P (s'.env c))
    (hL : ∀ N, s.Reflects N c → ∀ q, L N q) : Reads c s s' S P L :=
  ⟨[], h, fun hs _ => hP hs, fun _ _ => rfl, fun N hs _ => hL N hs⟩

/-- What is said of a phrase may be said in other words. -/
theorem imp (h : Reads c s s' S P L) (hS : S' → S) (hP : ∀ Γ, P Γ → Q Γ)
    (hL : ∀ N, (∀ q, L N q) → ∀ q, M N q) : Reads c s s' S' Q M := by
  obtain ⟨ts, ha, hp, hb, hl⟩ := h
  exact ⟨ts, ha, fun hs hf => hP _ (hp hs hf), fun h k => hb h (hS k),
    fun N hs hs' => hL N (hl N hs hs')⟩

/-- Two phrases in a row; what holds of the first one goes on to hold. -/
theorem seq (h : Reads c s s' S P L) (k : Reads c s' s'' T Q M) (hS : S' → S ∧ T)
    (hmono : ∀ {Γ Δ : Core.Env}, Γ.Extends Δ → P Γ → P Δ) (hR : ∀ Γ, P Γ → Q Γ → R Γ)
    (hL : ∀ N, (∀ q, L N q) → (∀ q, M N q) → ∀ q, L' N q) : Reads c s s'' S' R L' := by
  obtain ⟨ts, ha, hp, hb, hl⟩ := h
  obtain ⟨us, ka, kq, kb, kl⟩ := k
  refine ⟨ts ++ us, ha.trans ka, fun hs hf => ?_, fun hbare hset => ?_, fun N hs hs'' => ?_⟩
  · have hf₁ : s.globals.Full ∨ ts = [] := hf.imp id fun h => (List.append_eq_nil_iff.mp h).1
    have hf₂ : s'.globals.Full ∨ us = [] :=
      hf.imp ha.full fun h => (List.append_eq_nil_iff.mp h).2
    exact hR _ (hmono (ka.env_extends c) (hp hs hf₁)) (kq (ha.sound hs hf₁) hf₂)
  · rw [hb hbare (hS hset).1, kb (ha.bare hbare) (hS hset).2, List.nil_append]
  · exact hL N (hl N hs (hs''.before ka)) (kl N (hs.after ha) hs'')

/-- Two operands in a row that are numbers of one type. -/
theorem both {x y : Core.Expr} (h : Reads c s s' x.type.isNumeric (x.Typed ·) L)
    (k : Reads c s' s'' y.type.isNumeric (y.Typed ·) M) (htype : y.type = x.type)
    (hnum : x.type.isNumeric = true) (hR : ∀ {Γ}, x.Typed Γ → y.Typed Γ → R Γ)
    (hL : ∀ {N}, (∀ q, L N q) → (∀ q, M N q) → ∀ q, L' N q) : Reads c s s'' S' R L' :=
  h.seq k (fun _ => ⟨hnum, (congrArg Ty.isNumeric htype).trans hnum⟩)
    (fun hΓ => Core.Expr.Typed.mono hΓ) (fun _ => hR) fun _ => hL

end Reads

end State

/-- Nothing is said of single phrases. -/
def anything (_ : Phrase) (_ : Nat) (_ : Operand) : Prop :=
  True

/-! ## Phrases -/

section

variable (c : Context)

mutual

/-- What a sum means is typed. -/
theorem reads_expr (e : Syntax.Expr) (hp : e.Plain) {s s' : State} {v : Operand}
    (h : Passes (expr c e) s v s') :
    Reads c s s' v.Settled (v.Typed ·) (e.Lowers · anything · v) := by
  match e, hp with
  | .term t, hp => exact (reads_term t hp h).imp id (fun _ h => h) fun _ h q => ⟨trivial, h q⟩
  | .sum l op r, hp =>
    obtain ⟨a, t, hl, h⟩ := h.bind
    obtain ⟨b, u, hr, h⟩ := h.bind
    obtain ⟨x, y, rfl, rfl, htype, hnum, rfl, hsame⟩ := passes_combine h
    exact (reads_expr l hp.1 hl).both (reads_term r hp.2 (hr.after hsame)) htype hnum
      (fun hx hy => ⟨hx, hy, rfl, htype, hnum⟩) fun hx hy q => ⟨trivial, _, x, y, rfl, hx q, hy _⟩

/-- What a product means is typed. -/
theorem reads_term (e : Syntax.Term) (hp : e.Plain) {s s' : State} {v : Operand}
    (h : Passes (term c e) s v s') :
    Reads c s s' v.Settled (v.Typed ·) (e.Lowers · anything · v) := by
  match e, hp with
  | .factor f, hp =>
    exact (reads_factor f hp h).imp id (fun _ h => h) fun _ h q => ⟨trivial, h q⟩
  | .product l op r, hp =>
    obtain ⟨a, t, hl, h⟩ := h.bind
    obtain ⟨b, u, hr, h⟩ := h.bind
    obtain ⟨x, y, rfl, rfl, htype, hnum, rfl, hsame⟩ := passes_combine h
    exact (reads_term l hp.1 hl).both (reads_factor r hp.2 (hr.after hsame)) htype hnum
      (fun hx hy => ⟨hx, hy, rfl, htype, hnum⟩) fun hx hy q => ⟨trivial, _, x, y, rfl, hx q, hy _⟩

/-- What stands behind signs is typed, and so is its negation. -/
theorem reads_factor (e : Syntax.Factor) (hp : e.Plain) {s s' : State} {v : Operand}
    (h : Passes (factor c e) s v s') :
    Reads c s s' v.Settled (v.Typed ·) (e.Lowers · anything · v) := by
  match e, hp with
  | .mk ord ss body, hp =>
    obtain ⟨w, u, hbody, h⟩ := h.look.bind
    obtain ⟨hsame, hcases⟩ := passes_sign h
    have hw := reads_casted body hp (hbody.after hsame)
    obtain ⟨hnone, rfl⟩ | ⟨a, rfl, hnum, rfl⟩ := hcases
    · refine hw.imp id (fun _ h => h) fun N hw q => ⟨trivial, v, ?_, fun hany => ?_, hw q⟩
      · cases v with
        | test t => rfl
        | value a => rw [Operand.behind, negated_of_no_minus hnone]
      · rw [hnone] at hany
        cases hany
    · exact hw.imp (fun _ => hnum) (fun Γ ha => typed_negated ha hnum ss)
        fun N ha q => ⟨trivial, .value a, rfl, fun _ => hnum, ha q⟩

/-- What casts make of a phrase is typed. -/
theorem reads_casted (e : Syntax.Casted) (hp : e.Plain) {s s' : State} {v : Operand}
    (h : Passes (casted c e) s v s') :
    Reads c s s' v.Settled (v.Typed ·) (e.Lowers · anything · v) := by
  match e, hp with
  | .primary p, hp =>
    obtain ⟨w, t, hprimary, h⟩ := h.bind
    obtain ⟨rfl, hsame⟩ := h.look.pure
    exact (reads_primary p hp (hprimary.after hsame)).imp id (fun _ h => h)
      fun _ h q => ⟨trivial, h q⟩
  | .cast body ord target, hp =>
    obtain ⟨w, t, hbody, h⟩ := h.bind
    obtain ⟨x, y, hconvert, h⟩ := h.look.bind
    obtain ⟨rfl, hlast⟩ := h.look.pure
    obtain ⟨a, rfl, hnum, rfl, hsame⟩ := passes_convert hconvert
    have hbody := reads_casted body hp.1 (hbody.after (hsame.trans hlast))
    exact hbody.imp (fun _ => hnum) (fun Γ ha => ⟨ha, rfl, hnum, hp.2⟩)
      fun N ha q => ⟨trivial, _, a, rfl, ha q⟩
  | .untyped body ord g, hp =>
    obtain ⟨_, _, _, h⟩ := h.bind
    exact absurd h Passes.not_stuck

/-- What a primary means is typed. -/
theorem reads_primary (e : Syntax.Primary) (hp : e.Plain) {s s' : State}
    {v : Operand} (h : Passes (primary c e) s v s') :
    Reads c s s' v.Settled (v.Typed ·) (e.Lowers · anything · v) := by
  match e, hp with
  | .name x, _ =>
    obtain ⟨e, l, hscope, hnum, rfl, hsame⟩ := passes_load h.look
    refine .of_same hsame (fun hs => ?_) fun N hs q => ?_
    · exact ⟨(hsame.env_extends c).place (place?_placeOf hs hscope), hnum⟩
    · exact ⟨trivial, _, _, rfl, hs.place _ e l hscope hnum⟩
  | .call f as, hp =>
    obtain ⟨⟨g, types⟩, t, hcallee, h⟩ := h.look.bind
    obtain ⟨es, x, hargs, h⟩ := h.emit.bind
    obtain ⟨rfl, hlast⟩ := h.emit.pure
    obtain ⟨ts, hadds, htyped, hnone, hlowers⟩ := reads_args f types.length 1 types as hp
      ((hargs.after hlast).before (passes_callee hcallee).1)
    refine ⟨ts, hadds, fun hs hf => ?_, fun hbare hnum =>
      hnone hbare (params_eq_nil hbare hcallee hnum), fun N hs hs' q => ?_⟩
    · obtain ⟨htakes, hne⟩ := takes_callee (c := c) hs hcallee
      exact ⟨types, (hadds.env_extends c).takes htakes, htyped hs hf hne⟩
    · exact ⟨trivial, g, es, rfl, hs.callee hcallee, hlowers N hs hs' _⟩
  | .int word ord, _ | .double bits ord, _ =>
    obtain ⟨rfl, hsame⟩ := h.look.emit.pure
    exact .of_same hsame (fun _ => trivial) fun _ _ _ => ⟨trivial, rfl⟩
  | .text x ord, _ =>
    obtain ⟨t, ht, h⟩ := h.look.get
    obtain ⟨u, hu, h⟩ := h.modify
    obtain ⟨rfl, hlast⟩ := h.emit.pure
    have hadds : s.Adds s' [x] := (hu.trans (adds_text u x)).trans hlast
    have hslot : t.globals.count = s.globals.count := ht.count
    refine ⟨[x], hadds, fun _ hf => ?_, fun _ hnum => (by cases hnum), fun N _ hs' q => ?_⟩
    · obtain hfull | hnil := hf
      · have hrows := hadds.rows
        show (List.map Entry.type _)[t.globals.count]? = some Ty.string
        rw [hrows, hslot, hfull]
        simp [textRows, Entry.ofText]
      · cases hnil
    · -- the text is the last of the globals
      refine ⟨trivial, t.globals.count, rfl, ?_⟩
      refine hs' { Entry.ofText "" x with slot := t.globals.count } ?_ rfl
      rw [hadds.rows, hslot]
      exact List.mem_append_right _ List.mem_cons_self
  | .paren ord inner cl, hp =>
    obtain ⟨w, u, hinner, h⟩ := h.look.bind
    obtain ⟨rfl, hsame⟩ := h.close.pure
    exact (reads_relational inner hp.1 (hinner.after hsame)).imp id (fun _ h => h)
      fun _ h q => ⟨trivial, h q⟩
  | .gap g, _ => exact absurd h Passes.not_stuck

/-- What an expression or comparison means is typed. -/
theorem reads_relational (e : Syntax.Relational) (hp : e.Plain) {s s' : State}
    {v : Operand} (h : Passes (relational c e) s v s') :
    Reads c s s' v.Settled (v.Typed ·) (e.Lowers · anything · v) := by
  match e, hp with
  | .value e, hp => exact (reads_expr e hp h).imp id (fun _ h => h) fun _ h q => ⟨trivial, h q⟩
  | .compare l op r, hp =>
    obtain ⟨a, t, hl, h⟩ := h.bind
    obtain ⟨b, u, hr, h⟩ := h.bind
    obtain ⟨x, y, rfl, rfl, htype, hnum, rfl, hsame⟩ := passes_compare h
    exact (reads_expr l hp.1 hl).both (reads_expr r hp.2 (hr.after hsame)) htype hnum
      (fun hx hy => ⟨hx, hy, rfl, htype, hnum⟩) fun hx hy q => ⟨trivial, _, x, y, rfl, hx q, hy _⟩

/-- Arguments have the types that were wanted. -/
theorem reads_args (f : Name) (want number : Nat) (types : List Ty)
    (as : Syntax.Args) (hp : as.Plain) {s s' : State} {es : Core.Args}
    (h : Passes (args c f want number types as) s es s') :
    Reads c s s' (types = []) (fun Γ => (∀ t ∈ types, t ≠ .void) → es.Typed Γ types)
      (as.Lowers · anything · es) := by
  match as, hp with
  | .done ord, _ =>
    have h := h.look
    split at h
    · rename_i hnil
      obtain ⟨rfl, hsame⟩ := h.pure
      exact .of_same hsame (fun _ _ => List.isEmpty_iff.mp hnil) fun _ _ _ => rfl
    · exact absurd h Passes.not_reject
  | .more e rest, hp =>
    match types, h.look with
    | [], h => exact absurd h Passes.not_reject
    | type :: types, h =>
      obtain ⟨v, t, he, h⟩ := h.bind
      obtain ⟨a, u, hargument, h⟩ := h.bind
      obtain ⟨as, w, hrest, h⟩ := h.bind
      obtain ⟨rfl, hlast⟩ := h.pure
      obtain ⟨hsame, rfl, rfl⟩ := passes_argument hargument
      refine (reads_expr e hp.1 he).seq
        (reads_args f want (number + 1) types rest hp.2 ((hrest.after hlast).before hsame))
        (fun hnil => by cases hnil) (fun hΓ => Operand.Typed.mono hΓ) (fun Γ ha has hne => ?_)
        fun N ha has q => ⟨a, as, rfl, ha q, has _⟩
      exact ⟨types, rfl, ha, hne _ List.mem_cons_self,
        has fun t ht => hne t (List.mem_cons_of_mem _ ht)⟩
  | .gap g, _ => exact absurd h Passes.not_stuck

end

end

/-- The condition of an `if` or a loop is typed. -/
theorem reads_condition (c : Context) (r : Syntax.Relational) (hp : r.Plain) {t : Core.Cond}
    (h : Passes (condition c r) s t s') :
    Reads c s s' True (t.Typed ·) (r.Decides · anything · t) := by
  obtain ⟨v, w, hr, h⟩ := h.look.bind
  cases v with
  | test t =>
    obtain ⟨rfl, hsame⟩ := h.pure
    exact (reads_relational c r hp (hr.after hsame)).imp id (fun _ h => h)
      fun N h q => ⟨trivial, _, rfl, h q⟩
  | value e =>
    dsimp only at h
    split at h
    · rename_i hnum
      obtain ⟨rfl, hsame⟩ := h.emit.pure
      exact (reads_relational c r hp (hr.after hsame)).imp (fun _ => hnum)
        (fun Γ he => ⟨he, hnum⟩) fun N he q => ⟨trivial, .value e, rfl, he q⟩
    · exact absurd h Passes.not_reject

end TinyC.Typing
