import Mathlib.Data.List.Nodup
import TinyC.Proofs.Typing.Checks

/-!
# Statements are checked

The walk through a statement goes through just where the statement is right, and leaves the tables
as they are known behind it (`checks_stmt`). The names that a statement declares are checked one at
a time, each against those before it; that this comes to the same as their being different from
each other is what `Admits` is for.
-/

namespace TinyC.Typing

open Walk
open Syntax (Name Var Heading Event Known Form builtinNames declaredIn ValuedIn valuedIn_concat
  Decent)

/-! ## Declarations -/

/-- The names that a declaration must not repeat. -/
def taken (K : Known) (top : Bool) : List String :=
  if top then builtinNames ++ K.globals.map Var.name else K.locals.map Var.name

/-- What is known behind a declaration. -/
def declaring (K : Known) (top : Bool) (v : Var) (valued : Bool) : Known :=
  if top then { K with globals := K.globals ++ [v] } else K.after [.declared v valued]

section

variable {K : Known} {c : Context} {s : State}

theorem names_builtinVars : builtinVars.map Var.name = builtinNames :=
  rfl

theorem map_name_named (t : Table (Entry Nat)) :
    t.named.map Symbol.name = (t.named.map entryVar).map Var.name := by
  rw [List.map_map]
  rfl

theorem Ledger.Shows.has_iff (hs : s.ledger.Shows K) (x : String) :
    (s.table c).has x = true ↔ x ∈ taken K c.isTop := by
  unfold State.table taken
  split
  · rw [Table.has_iff, map_name_named, ← names_builtinVars, ← List.map_append, ← hs.globals]
    rfl
  · rw [Table.has_iff, map_name_named, ← hs.locals]
    rfl

/-- Handing out a slot changes nothing that shows. -/
theorem Ledger.Shows.reserved (hs : s.ledger.Shows K) (e : Entry Nat) :
    (s.setTable c ((s.table c).reserve e).2).ledger.Shows K := by
  unfold State.setTable State.table
  split
  · exact ⟨hs.globals, hs.functions, hs.params, hs.locals, hs.valued⟩
  · exact ⟨hs.globals, hs.functions, hs.params, hs.locals, hs.valued⟩

/-- A variable that is put into its table is known. -/
theorem Ledger.Shows.declared (hs : s.ledger.Shows K) {e : Entry Nat} (hname : e.name ≠ "")
    (hfresh : e.name ∉ taken K c.isTop) :
    (s.setTable c (((s.table c).insert? e).getD (s.table c))).ledger.Shows
      (declaring K c.isTop (entryVar e) e.initialized) := by
  have hinsert : (s.table c).insert? e =
      some { s.table c with rows := (s.table c).rows ++ [e] } := by
    have hhas : (s.table c).has e.name = false := by
      rw [Bool.eq_false_iff]
      exact fun h => hfresh ((hs.has_iff _).mp h)
    exact if_neg (by rw [Bool.not_eq_true]; exact hhas)
  rw [hinsert, Option.getD_some]
  unfold declaring
  cases htop : c.isTop with
  | true =>
    simp only [State.setTable, State.table, htop, if_true]
    refine ⟨?_, hs.functions, hs.params, hs.locals, hs.valued⟩
    show (Table.named ⟨s.globals.rows ++ [e], s.globals.count⟩).map entryVar = _
    rw [Table.named_concat hname, List.map_append]
    exact (congrArg (· ++ [entryVar e]) hs.globals).trans (List.append_assoc _ _ _)
  | false =>
    simp only [State.setTable, State.table, htop, if_false, Bool.false_eq_true]
    rw [htop] at hfresh
    have hnamed : Table.named ⟨s.locals.rows ++ [e], s.locals.count⟩ = s.locals.named ++ [e] :=
      Table.named_concat hname _
    refine ⟨hs.globals, hs.functions, hs.params, ?_, ?_⟩
    · rw [Known.locals_after, ← hs.locals]
      show (Table.named ⟨s.locals.rows ++ [e], s.locals.count⟩).map entryVar = _
      rw [hnamed, List.map_append]
      rfl
    · intro d hd
      have hd : d ∈ s.locals.named ++ [e] := hnamed ▸ hd
      rw [Known.after, valuedIn_concat]
      rcases List.mem_append.mp hd with hd | hd
      · rw [hs.valued d hd]
        constructor
        · exact .inl
        · rintro (hvalued | ⟨v, hv, hsame⟩ | ⟨hassigned, -⟩)
          · exact hvalued
          · refine absurd ?_ hfresh
            obtain ⟨rfl, -⟩ := Event.declared.inj hv
            have hmem : entryVar d ∈ K.locals := hs.locals ▸ List.mem_map_of_mem hd
            exact List.mem_map.mpr ⟨_, hmem, hsame.symm⟩
          · cases hassigned
      · cases List.mem_singleton.mp hd
        constructor
        · intro hinit
          exact .inr (.inl ⟨entryVar e, by rw [hinit], rfl⟩)
        · rintro (hvalued | ⟨v, hv, -⟩ | ⟨hassigned, -⟩)
          · obtain ⟨v, hv, hsame⟩ := hvalued.declared
            exact absurd (List.mem_map.mpr ⟨v, hv, hsame⟩) hfresh
          · exact (Event.declared.inj hv).2
          · cases hassigned

theorem checks_initial (hK : Proper K) (hc : c.Stands K) (x : Name) (type : Ty) (e : Syntax.Expr)
    (he : e.Whole) :
    (initial c x type e).Checks (·.Shows K) (·.Shows K) (fun _ => ())
      (fun _ => e.Gives K (.value type)) := by
  unfold initial
  refine .look ((checks_valued hK hc e he type (Q := fun _ => True) fun _ => ?_).of_iff ?_)
  · exact checks_pure.of_iff fun _ => iff_of_true rfl trivial
  · intro _
    exact and_iff_left trivial

/-- The table for declarations is among the tables. -/
theorem table_eq_of_ledger {t : State} (h : t.ledger = s.ledger) : t.table c = s.table c := by
  have hglobals : t.globals = s.globals := congrArg Ledger.globals h
  have hlocals : t.locals = s.locals := congrArg Ledger.locals h
  unfold State.table
  rw [hglobals, hlocals]

theorem checks_declared {γ δ : Type} {f : Unit → Walk γ} {T : Ledger → Prop} {sight : γ → δ}
    {Q : δ → Prop} {e : Entry Nat} {v : Var} (hv : entryVar e = v) {init : Option Core.Expr}
    (hname : v.name ≠ "") (hfresh : v.name ∉ taken K c.isTop)
    (hf : (f ()).Checks (·.Shows (declaring K c.isTop v init.isSome)) T sight Q) :
    (declared c e init >>= f).Checks (·.Shows K) T sight Q := by
  subst hv
  refine checks_modify (S := (·.Shows (declaring K c.isTop (entryVar e) init.isSome))) ?_ hf
  intro t ht
  exact ht.declared (e := { e with initialized := init.isSome, value := _ }) hname hfresh

theorem checks_declaration (hK : Proper K) (hc : c.Stands K) (constant : Bool) (x : Name)
    (type : Ty) (init : Option Syntax.Expr) (cl : Syntax.Close) (hx : x.text ≠ "")
    (hd : (Syntax.Decl.mk constant x type init cl).Whole) :
    (declaration c (.mk constant x type init cl)).Checks (·.Shows K)
      (·.Shows (declaring K c.isTop ⟨x.text, constant, type⟩ init.isSome)) (fun _ => ())
      (fun _ => x.text ∉ taken K c.isTop ∧ (Syntax.Decl.mk constant x type init cl).Valid K) := by
  unfold declaration
  refine .look ?_
  apply checks_get
  intro s hs
  have hhas := hs.has_iff (c := c) x.text
  split
  · rename_i hbad
    apply checks_reject
    intro _ h
    exact h.1 (hhas.mp hbad)
  · rename_i hgood
    have hfresh : x.text ∉ taken K c.isTop := fun h => hgood (hhas.mpr h)
    have hvar (slot : Nat) : entryVar { name := x.text
                                        kind := if constant then .constant else .variable
                                        type, slot, pos := some x.ord } =
        ⟨x.text, constant, type⟩ := by
      cases constant <;> rfl
    apply checks_get
    intro s₁ hs₁
    apply checks_modify (S := (·.Shows K))
    · intro t ht
      have ht' : t.ledger.Shows K := by
        rw [ht, hs₁]
        exact hs
      rw [← table_eq_of_ledger ht]
      exact ht'.reserved { name := x.text, kind := if constant then .constant else .variable, type
                           pos := some x.ord }
    refine .look ?_
    cases init with
    | some i =>
      refine .emit ?_
      have hi : i.Whole := hd.1 i rfl
      refine ((checks_initial hK hc x type i hi).also (T := (·.Shows (declaring K c.isTop
        ⟨x.text, constant, type⟩ true))) (Q := fun _ => True) ?_).of_iff ?_
      · intro _ a
        refine .emit (.close hd.2 ?_)
        apply checks_declared (hvar _) hx hfresh
        exact checks_pure.of_iff fun _ => iff_of_true rfl trivial
      · intro _
        constructor
        · rintro ⟨hgives, -⟩
          refine ⟨hfresh, fun _ => rfl, ?_⟩
          intro e he
          cases he
          exact hgives
        · rintro ⟨-, -, hgives⟩
          exact ⟨hgives i rfl, trivial⟩
    | none =>
      cases constant with
      | true =>
        apply checks_reject
        rintro _ ⟨-, hvalue, -⟩
        cases hvalue rfl
      | false =>
        refine .close hd.2 ?_
        apply checks_declared (hvar _) hx hfresh
        apply checks_pure.of_iff
        intro _
        exact iff_of_true rfl ⟨hfresh, nofun, nofun⟩

end

/-! ## Assignments -/

section

variable {K : Known} {c : Context} {s : State}

/-- Marks do not show in what a table says of its variables. -/
theorem map_marked (es : List (Entry Nat)) (x : String) :
    (es.map fun e => if Symbol.name e == x then { e with initialized := true } else e).map
      entryVar = es.map entryVar := by
  rw [List.map_map]
  refine List.map_congr_left ?_
  intro e _
  simp only [Function.comp_apply]
  split <;> rfl

theorem named_marked (t : Table (Entry Nat)) (x : String) :
    (t.modify x fun e => { e with initialized := true }).named =
      t.named.map fun e => if Symbol.name e == x then { e with initialized := true } else e :=
  t.named_modify x fun _ => rfl

/-- An assignment to one variable gives no value to another. -/
theorem valuedIn_assigned_ne {x y : String} {es : List Event} (h : y ≠ x) :
    ValuedIn y (es ++ [Event.assigned x]) ↔ ValuedIn y es := by
  rw [valuedIn_concat]
  constructor
  · rintro (hvalued | ⟨v, hv, -⟩ | ⟨heq, -⟩)
    · exact hvalued
    · cases hv
    · exact absurd (Event.assigned.inj heq).symm h
  · exact .inl

/-- A name that stands for no local variable is that of none. -/
theorem ne_of_var? {x : String} {l : Location} {v : Var} (h : K.var? x = some (l, v))
    (hl : l ≠ .local) : ∀ w ∈ K.locals, w.name ≠ x := by
  intro w hw hname
  have hnone : K.locals.find? (·.name == x) = none := by
    cases hfind : K.locals.find? (·.name == x) with
    | none => rfl
    | some y =>
      simp only [Known.var?, hfind, Option.some.injEq, Prod.mk.injEq] at h
      exact absurd h.1.symm hl
  have hmiss := List.find?_eq_none.mp hnone w hw
  simp [hname] at hmiss

/-- A variable that is assigned to has a value from there on. -/
theorem Ledger.Shows.assigned (hs : s.ledger.Shows K) {x : String} {l : Location} {v : Var}
    (h : K.var? x = some (l, v)) : (s.markAssigned l x).ledger.Shows (K.after [.assigned x]) := by
  have hlocals : K.locals = (K.after [.assigned x]).locals := by
    simp [Known.locals_after, declaredIn, Event.var?]
  have hvalued (hl : l ≠ .local) : ∀ e ∈ s.locals.named,
      e.initialized = true ↔ ValuedIn e.name (K.before ++ [Event.assigned x]) := by
    intro e he
    have hmem : entryVar e ∈ K.locals := hs.locals ▸ List.mem_map_of_mem he
    have hne : e.name ≠ x := ne_of_var? h hl _ hmem
    rw [valuedIn_assigned_ne hne]
    exact hs.valued e he
  cases l with
  | global =>
    refine ⟨?_, hs.functions, hs.params, hlocals ▸ hs.locals, hvalued (by decide)⟩
    show ((s.globals.modify x fun e => { e with initialized := true }).named).map entryVar = _
    rw [named_marked, map_marked]
    exact hs.globals
  | param =>
    refine ⟨hs.globals, hs.functions, ?_, hlocals ▸ hs.locals, hvalued (by decide)⟩
    have hparams := hs.params
    simp only [State.markAssigned, State.ledger] at hparams ⊢
    cases hp : s.params with
    | none =>
      rw [hp] at hparams
      exact hparams
    | some t =>
      rw [hp] at hparams
      exact (map_marked t.rows x).trans hparams
  | «local» =>
    refine ⟨hs.globals, hs.functions, hs.params, ?_, ?_⟩
    · rw [← hlocals, ← hs.locals]
      show ((s.locals.modify x fun e => { e with initialized := true }).named).map entryVar = _
      rw [named_marked, map_marked]
      rfl
    · intro d hd
      have hd : d ∈ s.locals.named.map fun e =>
          if Symbol.name e == x then { e with initialized := true } else e := by
        rw [← named_marked]
        exact hd
      obtain ⟨e, he, hde⟩ := List.mem_map.mp hd
      have hmem : entryVar e ∈ K.locals := hs.locals ▸ List.mem_map_of_mem he
      show d.initialized = true ↔ ValuedIn d.name (K.before ++ [.assigned x])
      by_cases hname : e.name = x
      · have hmark : (Symbol.name e == x) = true := beq_iff_eq.mpr hname
        rw [if_pos hmark] at hde
        subst hde
        refine iff_of_true rfl (valuedIn_concat.mpr (.inr (.inr ⟨?_, entryVar e, hmem, rfl⟩)))
        exact congrArg Event.assigned hname.symm
      · have hmark : ¬(Symbol.name e == x) = true := fun h => hname (beq_iff_eq.mp h)
        rw [if_neg hmark] at hde
        subst hde
        rw [valuedIn_assigned_ne hname]
        exact hs.valued e he

theorem checks_assignment (hK : Proper K) (hc : c.Stands K) (x : Name) (e : Syntax.Expr)
    (he : e.Whole) :
    (assignment c x e).Checks (·.Shows K) (·.Shows (K.after [.assigned x.text]))
      Core.Stmt.terminates (fun b => (∃ l y, K.var? x.text = some (l, y) ∧ y.constant = false ∧
        e.Gives K (.value y.type)) ∧ b = false) := by
  unfold assignment
  refine .look (((checks_resolve hK hc x).bind (Q := fun b d => b.2.1.constant = false ∧
    e.Gives K (.value b.2.1.type) ∧ d = false) ?_).of_iff fun d => ?_)
  · rintro ⟨entry, l⟩ b rfl ⟨hvar, -⟩
    dsimp only
    split
    · rename_i hconstant
      apply checks_reject
      rintro d ⟨hvariable, -⟩
      have hbad : entry.isConstant = false := hvariable
      rw [hbad] at hconstant
      cases hconstant
    · rename_i hvariable
      refine .emit ((checks_valued hK hc e he entry.type (Q := (· = false)) fun _ => ?_).of_iff ?_)
      · exact .emit (checks_modify (fun t ht => ht.assigned hvar) checks_pure)
      · intro d
        exact (and_iff_right (Bool.eq_false_iff.mpr hvariable)).symm
  · constructor
    · rintro ⟨⟨l, y, b⟩, ⟨hvar, -⟩, hvariable, hgives, hd⟩
      exact ⟨⟨l, y, hvar, hvariable, hgives⟩, hd⟩
    · rintro ⟨⟨l, y, hvar, hvariable, hgives⟩, hd⟩
      by_cases hready : l = .local → ValuedIn x.text K.before
      · exact ⟨(l, y, true), ⟨hvar, iff_of_true rfl hready⟩, hvariable, hgives, hd⟩
      · exact ⟨(l, y, false), ⟨hvar, iff_of_false nofun hready⟩, hvariable, hgives, hd⟩

end

/-! ## Statements -/

section

variable {K : Known} {c : Context} {name : String} {result : Ty}

theorem checks_returned (hK : Proper K) (hc : c.Stands K) (hown : c.owner = some (name, result))
    (ord : Nat) (value : Option Syntax.Expr) (hv : Syntax.ValueWhole value) (cl : Syntax.Close) :
    (returned c ord value).Checks (·.Shows K) (·.Shows K) Core.Stmt.terminates
      (fun b => (Syntax.Stmt.ret ord value cl).Valid K result c.inLoop ∧ b = true) := by
  unfold returned
  refine .look ?_
  rw [hown, Option.getD_some]
  cases value with
  | none =>
    dsimp only
    split
    · rename_i hvoid
      exact .emit (checks_pure_and hvoid)
    · rename_i hvoid
      apply checks_reject
      rintro b ⟨hvalid, -⟩
      exact hvoid hvalid
  | some e =>
    dsimp only
    split
    · rename_i hvoid
      apply checks_reject
      rintro b ⟨hvalid, -⟩
      exact hvalid.1 hvoid
    · rename_i hvoid
      refine .emit ((checks_valued hK hc e (hv e rfl) result (Q := (· = true)) fun _ => ?_).of_iff
        fun d => ?_)
      · exact .emit (.emit checks_pure)
      · rw [Syntax.Stmt.Valid, and_assoc, and_iff_right hvoid]

theorem checks_dropped (hK : Proper K) (hc : c.Stands K) (f : Name) (as : Syntax.Args)
    (has : as.Whole) :
    (dropped c f as).Checks (·.Shows K) (·.Shows K) Core.Stmt.terminates
      (fun b => (∃ g, K.heading? f.text = some g ∧ as.Give K g.params) ∧ b = false) := by
  unfold dropped
  refine .look (((checks_callee f).bind
    (Q := fun b d => as.Give K b.2 ∧ d = false) ?_).of_iff fun d => ?_)
  · rintro ⟨g, types⟩ b rfl _
    refine .emit ((checks_args hK hc f types.length 1 types as has).also fun _ es => .emit ?_)
    dsimp only
    split
    · exact checks_pure
    · exact .emit checks_pure
  · constructor
    · rintro ⟨_, ⟨g, hg, rfl⟩, has, hd⟩
      exact ⟨⟨g, hg, has⟩, hd⟩
    · rintro ⟨⟨g, hg, has⟩, hd⟩
      exact ⟨_, ⟨g, hg, rfl⟩, has, hd⟩

/-- A loop is left or gone on with only from within. -/
theorem checks_jump {s : Core.Stmt} {b : Bool} (hs : s.terminates = b) {cause : Cause} {ord : Nat} :
    (if c.inLoop then emitBranch >>= fun _ => pure s else reject cause ord : Walk Core.Stmt).Checks
      (·.Shows K) (·.Shows K) Core.Stmt.terminates (fun d => c.inLoop = true ∧ d = b) := by
  subst hs
  split
  · rename_i hloop
    exact .emit (checks_pure_and hloop)
  · rename_i hloop
    apply checks_reject
    rintro b ⟨hinside, -⟩
    exact hloop hinside

/-- The names that are declared in some text are different from each other and from those before. -/
def Admits (K : Known) (es : List Event) : Prop :=
  ((K.locals ++ declaredIn es).map Var.name).Nodup

/-- Names that are checked one after the other are all checked. -/
theorem admits_append {es fs : List Event} :
    Admits K (es ++ fs) ↔ Admits K es ∧ Admits (K.after es) fs := by
  unfold Admits
  rw [Known.locals_after, Syntax.declaredIn_append, ← List.append_assoc]
  constructor
  · intro h
    refine ⟨h.sublist ?_, h⟩
    exact (List.sublist_append_left _ _).map _
  · exact And.right

theorem admits_nil (hK : Proper K) : Admits K [] := by
  simpa [Admits, declaredIn] using hK.distinct

theorem admits_declared (hK : Proper K) {v : Var} {valued : Bool} :
    Admits K [.declared v valued] ↔ v.name ∉ K.locals.map Var.name := by
  have hone : declaredIn [.declared v valued] = [v] := rfl
  rw [Admits, hone, List.map_append, List.map_singleton, List.nodup_append_comm,
    List.singleton_append, List.nodup_cons]
  exact and_iff_left hK.distinct

theorem Proper.after (hK : Proper K) {es : List Event} (hes : Decent (declaredIn es))
    (h : Admits K es) : Proper (K.after es) where
  numeric := by
    intro v hv
    rw [Known.locals_after, ← List.append_assoc, ← List.append_assoc] at hv
    rcases List.mem_append.mp hv with hv | hv
    · rw [List.append_assoc] at hv
      exact hK.numeric v hv
    · exact (hes v hv).2
  named := hK.named
  apart := hK.apart
  distinct := by
    rw [Known.locals_after]
    exact h

theorem stands_inside (hown : c.owner = some (name, result)) : c.Stands K := by
  intro htop
  simp [Context.isTop, hown] at htop

/-- A statement without declarations and assignments leaves what is known as it was. -/
theorem checks_quiet (hK : Proper K) {w : Walk Core.Stmt} {p : Prop} {b : Bool}
    (hw : w.Checks (·.Shows K) (·.Shows K) Core.Stmt.terminates (fun d => p ∧ d = b)) :
    w.Checks (·.Shows K) (·.Shows (K.after [])) Core.Stmt.terminates
      (fun d => (p ∧ Admits K []) ∧ d = b) := by
  rw [Known.after_nil]
  apply hw.of_iff
  intro d
  rw [and_iff_left (admits_nil hK)]

mutual

theorem checks_stmt {K : Known} {c : Context} (hK : Proper K)
    (hown : c.owner = some (name, result)) (s : Syntax.Stmt) (hs : s.Whole) (hd : s.Plain) :
    (stmt c s).Checks (·.Shows K) (·.Shows (K.after s.events)) Core.Stmt.terminates
      (fun b => (s.Valid K result c.inLoop ∧ Admits K s.events) ∧ b = s.returns) := by
  have hc : c.Stands K := stands_inside hown
  match s with
  | .empty =>
    rw [stmt]
    apply checks_quiet hK
    exact checks_pure_and trivial
  | .declare (.mk constant x type init cl) =>
    rw [stmt]
    have hx : x.text ≠ "" := hd.1.1
    have htop : c.isTop = false := by simp [Context.isTop, hown]
    have hdecl := checks_declaration hK hc constant x type init cl hx hs
    rw [htop] at hdecl
    refine (hdecl.also (Q := (· = false)) ?_).of_iff fun d => and_congr_left fun _ => ?_
    · rintro _ ⟨slot, _ | a⟩
      · exact checks_pure
      · exact checks_pure
    · have hadmits : Admits K [.declared ⟨x.text, constant, type⟩ init.isSome] ↔
          x.text ∉ taken K false := admits_declared hK
      exact and_comm.trans (and_congr_right fun _ => hadmits.symm)
  | .declare (.gap g) => exact hs.elim
  | .branch i =>
    rw [stmt]
    exact checks_branch hK hown i hs hd
  | .loop ord cond body =>
    rw [stmt]
    refine .look (.emit (((checks_condition hK hc cond hs.1).also fun _ _ => .emit
      ((checks_block (c := { c with inLoop := true }) hK hown body hs.2 hd.2).settled
        (Q := (· = false)) fun _ _ _ => .emit checks_pure)).of_iff fun d => ?_))
    simp only [Syntax.Stmt.Valid, Syntax.Stmt.events, Syntax.Stmt.returns, and_assoc]
  | .ret ord value cl =>
    rw [stmt]
    apply checks_quiet hK
    exact (checks_returned hK hc hown ord value hs.1 cl).closed hs.2
  | .brk ord cl =>
    rw [stmt]
    apply checks_quiet hK
    exact .close hs (checks_jump rfl)
  | .cont ord cl =>
    rw [stmt]
    apply checks_quiet hK
    exact .close hs (checks_jump rfl)
  | .call f as cl =>
    rw [stmt]
    apply checks_quiet hK
    exact (checks_dropped hK hc f as hs.1).closed hs.2
  | .assign x e cl =>
    rw [stmt]
    apply ((checks_assignment hK hc x e hs.1).closed hs.2).of_iff
    intro b
    constructor
    · rintro ⟨hvalid, hb⟩
      exact ⟨⟨hvalid, admits_nil hK⟩, hb⟩
    · rintro ⟨⟨hvalid, -⟩, hb⟩
      exact ⟨hvalid, hb⟩
  | .unfinished x g => exact hs.elim
  | .gap g => exact hs.elim

theorem checks_branch {K : Known} {c : Context} (hK : Proper K)
    (hown : c.owner = some (name, result)) (i : Syntax.If) (hi : i.Whole) (hd : i.Plain) :
    (branch c i).Checks (·.Shows K) (·.Shows (K.after i.events)) Core.Stmt.terminates
      (fun b => (i.Valid K result c.inLoop ∧ Admits K i.events) ∧ b = i.returns) := by
  match i with
  | .mk cond body alternative =>
    rw [branch]
    have hevents : (Syntax.If.mk cond body alternative).events =
      body.events ++ alternative.events := rfl
    rw [hevents, Known.after_append]
    refine ((checks_condition hK (stands_inside hown) cond hi.1).also fun _ _ => .emit
      ((checks_block hK hown body hi.2.1 hd.2.1).settled
        (Q := fun d => (alternative.Valid (K.after body.events) result c.inLoop ∧
          Admits (K.after body.events) alternative.events) ∧
          d = (body.returns && alternative.returns)) ?_)).of_iff fun d => ?_
    · rintro b hb ⟨-, hadmits⟩
      have hafter := hK.after (Syntax.Block.decent hd.2.1) hadmits
      refine .look ((checks_otherwise hafter hown alternative hi.2.2 hd.2.2).settled ?_)
      rintro (_ | a) ha _
      · rw [← ha, Option.map_none, Option.getD_none, Bool.and_false]
        exact checks_pure
      · rw [← hb, ← ha]
        exact checks_pure
    · rw [admits_append]
      constructor
      · rintro ⟨hcond, ⟨hbody, hadmits⟩, ⟨halt, hadmits'⟩, hd⟩
        exact ⟨⟨⟨hcond, hbody, halt⟩, hadmits, hadmits'⟩, hd⟩
      · rintro ⟨⟨⟨hcond, hbody, halt⟩, hadmits, hadmits'⟩, hd⟩
        exact ⟨hcond, ⟨hbody, hadmits⟩, ⟨halt, hadmits'⟩, hd⟩

theorem checks_otherwise {K : Known} {c : Context} (hK : Proper K)
    (hown : c.owner = some (name, result)) (a : Syntax.Else) (ha : a.Whole) (hd : a.Plain) :
    (otherwise c a).Checks (·.Shows K) (·.Shows (K.after a.events))
      (fun b => (b.map Core.Block.terminates).getD false)
      (fun b => (a.Valid K result c.inLoop ∧ Admits K a.events) ∧ b = a.returns) := by
  match a with
  | .none =>
    rw [otherwise]
    have hevents : Syntax.Else.none.events = [] := rfl
    rw [hevents, Known.after_nil]
    exact checks_pure_and ⟨trivial, admits_nil hK⟩
  | .block b =>
    rw [otherwise]
    refine .emit ((checks_block hK hown b ha hd).settled fun b hb _ => ?_)
    rw [Syntax.Else.returns, ← hb]
    exact checks_pure
  | .branch i =>
    rw [otherwise]
    refine .emit ((checks_branch hK hown i ha hd).settled fun s hs _ => ?_)
    rw [Syntax.Else.returns, ← hs, ← Bool.or_false s.terminates]
    exact checks_pure
  | .gap g => exact ha.elim

theorem checks_block {K : Known} {c : Context} (hK : Proper K)
    (hown : c.owner = some (name, result)) (b : Syntax.Block) (hb : b.Whole) (hd : b.Plain) :
    (block c b).Checks (·.Shows K) (·.Shows (K.after b.events)) Core.Block.terminates
      (fun d => (b.Valid K result c.inLoop ∧ Admits K b.events) ∧ d = b.returns) := by
  match b with
  | .stmts ss =>
    rw [block]
    exact checks_stmts hK hown ss hb hd
  | .gap g => exact hb.elim

theorem checks_stmts {K : Known} {c : Context} (hK : Proper K)
    (hown : c.owner = some (name, result)) (ss : Syntax.Stmts) (hss : ss.Whole) (hd : ss.Plain) :
    (stmts c ss).Checks (·.Shows K) (·.Shows (K.after ss.events)) Core.Block.terminates
      (fun d => (ss.Valid K result c.inLoop ∧ Admits K ss.events) ∧ d = ss.returns) := by
  match ss with
  | .done ord =>
    rw [stmts]
    have hevents : (Syntax.Stmts.done ord).events = [] := rfl
    rw [hevents, Known.after_nil]
    exact .look (checks_pure_and ⟨trivial, admits_nil hK⟩)
  | .more s rest =>
    rw [stmts]
    have hevents : (Syntax.Stmts.more s rest).events = s.events ++ rest.events := rfl
    rw [hevents, Known.after_append]
    refine ((checks_stmt hK hown s hss.1 hd.1).settled
      (Q := fun d => (rest.Valid (K.after s.events) result c.inLoop ∧
        Admits (K.after s.events) rest.events) ∧ d = (s.returns || rest.returns)) ?_).of_iff
      fun d => ?_
    · rintro a ha ⟨-, hadmits⟩
      have hafter := hK.after (Syntax.Stmt.decent hd.1) hadmits
      refine (checks_stmts hafter hown rest hss.2 hd.2).settled fun b hb _ => ?_
      rw [← ha, ← hb]
      exact checks_pure
    · rw [admits_append]
      constructor
      · rintro ⟨⟨hs, hadmits⟩, ⟨hrest, hadmits'⟩, hd⟩
        exact ⟨⟨⟨hs, hrest⟩, hadmits, hadmits'⟩, hd⟩
      · rintro ⟨⟨⟨hs, hrest⟩, hadmits, hadmits'⟩, hd⟩
        exact ⟨⟨hs, hadmits⟩, ⟨hrest, hadmits'⟩, hd⟩

end

end

end TinyC.Typing
