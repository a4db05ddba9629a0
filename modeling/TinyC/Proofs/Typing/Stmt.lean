import TinyC.Proofs.Typing.Bodies
import TinyC.Proofs.Typing.Expr

/-!
# Accepted statements are typed and lowered as declared

Between statements every table is full (`State.Whole`). A statement lets tables grow and marks
variables as assigned, but takes nothing back (`State.Advances`), so what was typed stays so.
`moves_stmt` and its companions say this of every statement (`State.Moves`), together with the main
points:

* what the statement means is typed;
* no global constant is assigned. An assignment names what it assigns, and the analysis rejects it
  if the entry of that name is a constant. Which entry that is can change from one statement to the
  next, as local variables come to hide globals; but an entry that is no constant never becomes one
  (`State.Variable`);
* the variables that it declares come behind the local variables, in the order of the text, and
  texts without names behind the globals (`State.Grows`). So the number of local variables at a
  point of the walk is the number of declarations in the text before it;
* it is lowered as the declarations before it say, once it is known what names stand for in the
  tables at the end of the body (`State.Resolves`).
-/

namespace TinyC

namespace Core

mutual

/-- The places that a statement assigns. -/
def Stmt.places : Stmt → List Place
  | .assign place _ => [place]
  | .ifThen _ body => body.places
  | .ifElse _ body alternative => body.places ++ alternative.places
  | .loop _ body => body.places
  | _ => []

/-- The places that the statements of a block assign. -/
def Block.places : Block → List Place
  | .nil => []
  | .cons s rest => s.places ++ rest.places

end

end Core

/-- The entry without its mark of having been assigned. -/
def Entry.unmarked {π : Type} (e : Entry π) : Entry π :=
  { e with initialized := false }

/-- A mark does not make a constant. -/
@[simp] theorem Entry.isConstant_unmarked {π : Type} (e : Entry π) :
    e.unmarked.isConstant = e.isConstant := rfl

/-- The name and the type of an entry. -/
def Entry.described {π : Type} (e : Entry π) : String × Ty :=
  (e.name, e.type)

namespace Typing

variable {s s' : State} {c : Context} {slot : Nat} {a : Core.Stmt} {x : Name} {type : Ty}
  {init : Option Core.Expr}

open Walk State
open Entry (unmarked described)
open Syntax (Name Names)

/-- Marks do not show in descriptions. -/
theorem map_described_unmarked (es : List (Entry Nat)) :
    (es.map unmarked).map described = es.map described := by
  simp [unmarked, described, Function.comp_def]

namespace State

variable {s s' : State}

/-- What a point between statements has: besides what every point has, no two symbols have one name
and no slot waits for its symbol. -/
structure Whole (s : State) : Prop extends Sound s where
  keyed : s.Keyed
  globals_full : s.globals.Full
  params_full : ∀ t, s.params = some t → t.Full
  locals_full : s.locals.Full

/-- Tables have grown and variables may have been assigned; all else is as it was. -/
structure Advances (s s' : State) : Prop where
  globals : s.globals.rows.map unmarked <+: s'.globals.rows.map unmarked
  functions : s'.functions = s.functions
  main : s'.main = s.main
  params : s'.params.map (·.map unmarked) = s.params.map (·.map unmarked)
  locals : s.locals.rows.map unmarked <+: s'.locals.rows.map unmarked

/-- Marks do not show in types. -/
theorem map_type_unmarked (es : List (Entry Nat)) :
    (es.map unmarked).map Entry.type = es.map Entry.type := by
  simp [unmarked, Function.comp_def]

theorem paramTypes_eq (s : State) :
    s.paramTypes = ((s.params.map (·.map unmarked)).map
      fun t => t.rows.map Entry.type).getD [] := by
  cases h : s.params with
  | none => simp [paramTypes, h]
  | some t => simp [paramTypes, h, unmarked, Function.comp_def]

namespace Advances

variable {s s' s'' : State}

theorem refl (s : State) : s.Advances s :=
  ⟨List.prefix_refl _, rfl, rfl, rfl, List.prefix_refl _⟩

theorem trans (h : s.Advances s') (k : s'.Advances s'') : s.Advances s'' :=
  ⟨h.globals.trans k.globals, k.functions.trans h.functions, k.main.trans h.main,
    k.params.trans h.params, h.locals.trans k.locals⟩

theorem env_extends (h : s.Advances s') (c : Context) : (s.env c).Extends (s'.env c) where
  globals := by
    simp only [env]
    rw [← map_type_unmarked s.globals.rows, ← map_type_unmarked s'.globals.rows]
    exact h.globals.map _
  functions := by simp [env, h.functions]
  params := by simp [env, paramTypes_eq, h.params]
  locals := by
    simp only [env]
    rw [← map_type_unmarked s.locals.rows, ← map_type_unmarked s'.locals.rows]
    exact h.locals.map _
  result := rfl

end Advances

theorem Adds.advances {ts : List String} (h : s.Adds s' ts) : s.Advances s' where
  globals := by
    rw [h.rows, List.map_append]
    exact List.prefix_append _ _
  functions := h.functions
  main := h.main
  params := by rw [h.params]
  locals := h.locals ▸ List.prefix_refl _

theorem Adds.whole {ts : List String} (h : s.Adds s' ts) (hs : s.Whole) :
    s'.Whole where
  toSound := h.sound hs.toSound (.inl hs.globals_full)
  keyed := h.keyed hs.keyed
  globals_full := h.full hs.globals_full
  params_full := by rw [h.params]; exact hs.params_full
  locals_full := by rw [h.locals]; exact hs.locals_full

/-- Rows from before are found again, but for their marks. -/
theorem row_of_unmarked {rows rows' : List (Entry Nat)}
    (h : rows.map unmarked <+: rows'.map unmarked) {n : Nat} {e : Entry Nat}
    (he : rows[n]? = some e) : ∃ e', rows'[n]? = some e' ∧ e'.unmarked = e.unmarked := by
  have hrow : (rows.map unmarked)[n]? = some e.unmarked := by
    rw [List.getElem?_map, he]
    rfl
  have hrow' := Core.getElem?_of_prefix h hrow
  rw [List.getElem?_map] at hrow'
  exact Option.map_eq_some_iff.mp hrow'

/-- The global at a slot has been declared, and it is no constant. -/
def Variable (s : State) (n : Nat) : Prop :=
  ∃ e, s.globals.rows[n]? = some e ∧ e.isConstant = false

/-- The globals among some places are variables. -/
def Assigns (s : State) (places : List Core.Place) : Prop :=
  ∀ n, ⟨.global, n⟩ ∈ places → s.Variable n

namespace Assigns

variable {s s' : State} {ps qs : List Core.Place}

theorem nil (s : State) : s.Assigns [] :=
  nofun

theorem append (h : s.Assigns ps) (k : s.Assigns qs) : s.Assigns (ps ++ qs) := by
  intro n hn
  rcases List.mem_append.mp hn with hn | hn
  · exact h n hn
  · exact k n hn

/-- A variable does not become a constant. -/
theorem later (h : s.Assigns ps)
    (hs : s.globals.rows.map unmarked <+: s'.globals.rows.map unmarked) : s'.Assigns ps := by
  intro n hn
  obtain ⟨e, he, hconst⟩ := h n hn
  obtain ⟨e', he', heq⟩ := row_of_unmarked hs he
  refine ⟨e', he', ?_⟩
  rw [← e'.isConstant_unmarked, heq, e.isConstant_unmarked, hconst]

end Assigns

/-- Local variables have been declared and texts have been put behind the globals. -/
structure Grows (s s' : State) (ds : List (String × Ty)) : Prop where
  globals : ∃ k, s'.globals.rows.map described =
    s.globals.rows.map described ++ List.replicate k ("", Ty.string)
  locals : s'.locals.rows.map described = s.locals.rows.map described ++ ds

theorem described_textRows (slot : Nat) (ts : List String) :
    (textRows slot ts).map described = List.replicate ts.length ("", .string) := by
  induction ts generalizing slot with
  | nil => rfl
  | cons t ts ih =>
    rw [textRows, List.map_cons, ih]
    rfl

section Growth

variable {s s' s'' : State} {ds es : List (String × Ty)} {ts : List String}

theorem Adds.grows (h : s.Adds s' ts) : s.Grows s' [] where
  globals := ⟨ts.length, by rw [h.rows, List.map_append, described_textRows]⟩
  locals := by rw [h.locals, List.append_nil]

namespace Grows

theorem trans (h : s.Grows s' ds) (k : s'.Grows s'' es) : s.Grows s'' (ds ++ es) where
  globals := by
    obtain ⟨m, hm⟩ := h.globals
    obtain ⟨n, hn⟩ := k.globals
    exact ⟨m + n, by rw [hn, hm, List.append_assoc, List.replicate_append_replicate]⟩
  locals := by rw [k.locals, h.locals, List.append_assoc]

theorem before (h : s.Adds s' ts) (k : s'.Grows s'' ds) : s.Grows s'' ds :=
  h.grows.trans k

theorem after (h : s.Grows s' ds) (k : s'.Adds s'' ts) : s.Grows s'' ds := by
  have hboth := h.trans k.grows
  rwa [List.append_nil] at hboth

/-- The number of local variables. -/
theorem length (h : s.Grows s' ds) : s'.locals.rows.length = s.locals.rows.length + ds.length := by
  have hlen := congrArg List.length h.locals
  simpa only [List.length_append, List.length_map] using hlen

end Grows

end Growth

/-- Of more globals the texts are known as well. -/
theorem Tells.earlier {texts : Nat → List UInt8} (hs' : s'.Tells texts)
    (h : s.globals.rows.map unmarked <+: s'.globals.rows.map unmarked) : s.Tells texts := by
  intro e he htype
  obtain ⟨e', he', heq⟩ := List.mem_map.mp (h.subset (List.mem_map_of_mem (f := unmarked) he))
  have hslot : e'.slot = e.slot := congrArg (·.slot) heq
  have htext : e'.text = e.text := congrArg (·.text) heq
  rw [← hslot, ← htext]
  exact hs' e' he' ((congrArg (·.type) heq).trans htype)

/-- On the way to the end of a body, names and texts stand for what is said of them where so many
local variables have been declared. -/
structure Resolves (N : Nat → Names) (owner : Option (String × Ty)) (E : State) : Prop where
  reflects : ∀ {s : State} {c : Context}, s.Advances E → s.Sound → c.owner = owner →
    s.Reflects (N s.locals.rows.length) c
  tells : ∀ n, E.Tells (N n).texts

/-- The walk goes on to a whole point, from which something can be said. No constant is among the
places that are assigned on the way, variables have been declared, and what was walked through is
lowered to what names stand for. -/
structure Moves (c : Context) (s s' : State) (places : List Core.Place)
    (declares : List (String × Ty)) (P : Core.Env → Prop) (L : (Nat → Names) → Nat → Prop) :
    Prop where
  whole : s'.Whole
  advances : s.Advances s'
  holds : P (s'.env c)
  assigns : s'.Assigns places
  grows : s.Grows s' declares
  lowers : ∀ N E, E.Resolves N c.owner → s'.Advances E → L N s.locals.rows.length

/-- Between statements, what a phrase means holds. -/
theorem Reads.moves {c : Context} {S : Prop} {P : Core.Env → Prop} {L : Names → Nat → Prop}
    (h : Reads c s s' S P L) (hs : s.Whole) : Moves c s s' [] [] P fun N n => ∀ q, L (N n) q := by
  have hlowers {N : Names} := h.lowers (N := N)
  obtain ⟨ts, ha, hp, _⟩ := h
  exact ⟨ha.whole hs, ha.advances, hp hs.toSound (.inl hs.globals_full), .nil _, ha.grows,
    fun N E hE hadv => hlowers (hE.reflects (ha.advances.trans hadv) hs.toSound rfl)
      ((hE.tells _).earlier hadv.globals)⟩

/-! ## Assignments mark their variables -/

/-- Marking changes no more than marks. -/
theorem unmarked_modify (t : Table (Entry Nat)) (x : String) :
    (t.modify x fun e => { e with initialized := true }).map unmarked =
      t.map unmarked := by
  simp only [Table.map, Table.modify, List.map_map]
  congr 1
  apply List.map_congr_left
  intro e _
  simp only [Function.comp_apply]
  split <;> rfl

theorem full_modify {t : Table (Entry Nat)} (h : t.Full) (x : String)
    (f : Entry Nat → Entry Nat) : (t.modify x f).Full := by
  simpa [Table.Full, Table.modify] using h

theorem advances_markAssigned (s : State) (l : Location) (x : String) :
    s.Advances (s.markAssigned l x) := by
  have hrows : ∀ t : Table (Entry Nat), t.rows.map unmarked <+:
      (t.modify x fun e => { e with initialized := true }).rows.map unmarked := by
    intro t
    have hsame := congrArg Table.rows (unmarked_modify t x)
    exact ⟨[], (List.append_nil _).trans hsame.symm⟩
  cases l with
  | global => exact ⟨hrows s.globals, rfl, rfl, rfl, List.prefix_refl _⟩
  | param =>
    refine ⟨List.prefix_refl _, rfl, rfl, ?_, List.prefix_refl _⟩
    cases hp : s.params with
    | none => simp [markAssigned, hp]
    | some t => simp [markAssigned, hp, unmarked_modify]
  | «local» => exact ⟨List.prefix_refl _, rfl, rfl, rfl, hrows s.locals⟩

/-- Marking a variable as assigned declares nothing. -/
theorem grows_markAssigned (s : State) (l : Location) (x : String) :
    s.Grows (s.markAssigned l x) [] := by
  have hrows : ∀ t : Table (Entry Nat),
      (t.modify x fun e => { e with initialized := true }).rows.map described =
        t.rows.map described := by
    intro t
    have hsame := congrArg Table.rows (unmarked_modify t x)
    rw [← map_described_unmarked, ← map_described_unmarked t.rows]
    exact congrArg (List.map described) hsame
  cases l with
  | global => exact ⟨⟨0, (List.append_nil _).symm ▸ hrows s.globals⟩, (List.append_nil _).symm⟩
  | param => exact ⟨⟨0, (List.append_nil _).symm⟩, (List.append_nil _).symm⟩
  | «local» => exact ⟨⟨0, (List.append_nil _).symm⟩, (List.append_nil _).symm ▸ hrows s.locals⟩

theorem Whole.table {s : State} (hs : s.Whole) (c : Context) : (s.table c).Orderly := by
  obtain ⟨_ | owner, _⟩ := c
  · exact Table.orderly hs.globals hs.globals_full hs.keyed.globals
  · exact Table.orderly hs.locals hs.locals_full hs.keyed.locals

theorem Whole.setTable {s : State} {t : Table (Entry Nat)} (hs : s.Whole) (c : Context)
    (ht : t.Orderly) : (s.setTable c t).Whole := by
  obtain ⟨kglobals, kfunctions, kparams, klocals⟩ := hs.keyed
  obtain ⟨_ | owner, _⟩ := c
  · exact ⟨⟨ht.dense, hs.functions, hs.params, hs.locals, hs.entry, hs.signatures⟩,
      ⟨ht.keyed, kfunctions, kparams, klocals⟩, ht.full, hs.params_full, hs.locals_full⟩
  · exact ⟨⟨hs.globals, hs.functions, hs.params, ht.dense, hs.entry, hs.signatures⟩,
      ⟨kglobals, kfunctions, kparams, ht.keyed⟩, hs.globals_full, hs.params_full, ht.full⟩

theorem whole_markAssigned {s : State} (hs : s.Whole) (l : Location) (x : String) :
    (s.markAssigned l x).Whole := by
  have hmark {t : Table (Entry Nat)} (ht : t.Orderly) :
      (t.modify x fun e => { e with initialized := true }).Orderly :=
    Table.orderly (ht.dense.modify x fun _ => rfl) (full_modify ht.full x _)
      (ht.keyed.modify x fun _ => rfl)
  obtain ⟨kglobals, kfunctions, kparams, klocals⟩ := hs.keyed
  cases l with
  | global => exact hs.setTable ⟨none, false⟩ (hmark (hs.table ⟨none, false⟩))
  | param =>
    have hparams : ∀ t, (s.markAssigned .param x).params = some t → t.Orderly := by
      intro t ht
      obtain ⟨u, hu, rfl⟩ := Option.map_eq_some_iff.mp ht
      exact hmark (Table.orderly (hs.params u hu) (hs.params_full u hu) (kparams u hu))
    exact ⟨⟨hs.globals, hs.functions, fun t ht => (hparams t ht).dense, hs.locals, hs.entry,
      hs.signatures⟩, ⟨kglobals, kfunctions, fun t ht => (hparams t ht).keyed, klocals⟩,
      hs.globals_full, fun t ht => (hparams t ht).full, hs.locals_full⟩
  | «local» =>
    exact hs.setTable ⟨some ("", .void), false⟩ (hmark (hs.table ⟨some ("", .void), false⟩))

end State

/-! ## Declarations -/

/-- Where the variables of a declaration live. -/
def Context.home (c : Context) : Location :=
  if c.isTop then .global else .local

/-- The entry of a declared variable with its initial value, if any. -/
def declaredEntry (c : Context) (constant : Bool) (x : Name) (type : Ty) (slot : Nat)
    (init : Option Core.Expr) : Entry Nat :=
  { name := x.text
    kind := if constant then .constant else .variable
    type, slot
    pos := some x.ord
    initialized := init.isSome
    value := match init with
      | some a => if c.isTop then literalWord a.code else 0
      | none => 0 }

/-- The state with a slot handed out for a declaration. -/
def State.reserving (s : State) (c : Context) : State :=
  s.setTable c (s.table c).allot.2

/-- The state with a declared variable in its table. -/
def State.placing (s : State) (c : Context) (e : Entry Nat) : State :=
  s.setTable c (((s.table c).insert? e).getD (s.table c))

theorem passes_initial {i : Syntax.Expr} {a : Core.Expr} (h : Passes (initial c x type i) s a s') :
    Passes (expr c i) s (.value a) s' ∧ a.type = type := by
  obtain ⟨v, u, hexpr, h⟩ := h.look.bind
  split at h
  · rename_i e he
    obtain ⟨rfl, htype⟩ := Operand.valueOf?_eq_some he
    obtain ⟨rfl, hsame⟩ := h.pure
    exact ⟨hexpr.after hsame, htype⟩
  · exact absurd h Passes.not_reject

/-- A declaration hands out a slot, reads the initial value, if any, and then puts the variable
into its table. -/
theorem yields_declaration {constant : Bool} {init : Option Syntax.Expr} {cl : Syntax.Close}
    {a : Option Core.Expr} (h : Yields (declaration c (.mk constant x type init cl)) s (slot, a) s')
    :
    slot = (s.table c).count ∧ (s.table c).has x.text = false ∧
      ∃ u, s' = u.placing c (declaredEntry c constant x type slot a) ∧
        (init = none ∧ constant = false ∧ a = none ∧ (s.reserving c).Adds u [] ∨
          ∃ i e, init = some i ∧ a = some e ∧ Passes (expr c i) (s.reserving c) (.value e) u ∧
            e.type = type) := by
  obtain ⟨_, s₁, hlook, h⟩ := yields_bind.mp h
  have hs₁ := yields_look.mp hlook
  subst hs₁
  obtain ⟨_, _, hget, h⟩ := yields_bind.mp h
  obtain ⟨h₁, h₂⟩ := yields_get.mp hget
  rw [h₁, h₂] at h
  split at h
  · exact absurd h not_yields_reject
  rename_i hhas
  obtain ⟨_, _, hget, h⟩ := yields_bind.mp h
  obtain ⟨h₁, h₂⟩ := yields_get.mp hget
  rw [h₁, h₂] at h
  obtain ⟨_, s₂, hmodify, h⟩ := yields_bind.mp h
  obtain ⟨_, s₃, hlook, h⟩ := yields_bind.mp h
  have hreserve : s₂ = (s.reserving c).looking (x.ord + 2) := by
    rw [yields_modify.mp hmodify]
    obtain ⟨_ | owner, _⟩ := c <;> rfl
  have hsame : (s.reserving c).Adds s₃ [] := by
    rw [hreserve] at hlook
    exact (Adds.looking _ _).trans (adds_look hlook)
  have htable : (s.looking (x.ord + 2)).table c = s.table c := by
    obtain ⟨_ | owner, _⟩ := c <;> rfl
  rw [htable] at hhas h
  cases init with
  | some i =>
    obtain ⟨_, s₄, hemit, h⟩ := yields_bind.mp h
    obtain ⟨e, s₅, hinitial, h⟩ := yields_bind.mp h
    obtain ⟨_, s₆, hstore, h⟩ := yields_bind.mp h
    obtain ⟨_, s₇, hclose, h⟩ := yields_bind.mp h
    obtain ⟨_, s₈, hdeclared, h⟩ := yields_bind.mp h
    obtain ⟨hpair, rfl⟩ := yields_pure.mp h
    cases hpair
    have hinit := passes_initial ⟨s₄, s₅, hsame.trans (adds_emit hemit), hinitial,
      (adds_emit hstore).trans (adds_close hclose)⟩
    exact ⟨rfl, by simpa using hhas, s₇, yields_modify.mp hdeclared, .inr ⟨i, e, rfl, rfl, hinit⟩⟩
  | none =>
    cases constant with
    | true => exact absurd h not_yields_reject
    | false =>
      obtain ⟨_, s₄, hclose, h⟩ := yields_bind.mp h
      obtain ⟨_, s₅, hdeclared, h⟩ := yields_bind.mp h
      obtain ⟨hpair, rfl⟩ := yields_pure.mp h
      cases hpair
      exact ⟨rfl, by simpa using hhas, s₄, yields_modify.mp hdeclared,
        .inl ⟨rfl, rfl, rfl, hsame.trans (adds_close hclose)⟩⟩

/-- A table whose last slot was handed out for a name takes the entry of that name. -/
theorem insert?_of_reserved {t u : Table (Entry Nat)} (hu : u.rows = t.rows) {e : Entry Nat}
    (hhas : t.has e.name = false) : (u.insert? e).getD u = ⟨t.rows ++ [e], u.count⟩ := by
  have hname : u.has (Symbol.name e) = false := by
    have : u.find? e.name = t.find? e.name := by simp [Table.find?, hu]
    exact (congrArg Option.isSome this).trans hhas
  simp [Table.insert?, hname, hu]

section Placing

variable {s u : State} {ts : List String} {e : Entry Nat} {inLoop : Bool}

/-- A slot that waits for its symbol disturbs no row. -/
theorem sound_reserving (hs : s.Sound) (c : Context) : (s.reserving c).Sound := by
  obtain ⟨_ | owner, _⟩ := c
  · exact ⟨fun i a h => hs.globals i a h, hs.functions, hs.params, hs.locals, hs.entry,
      hs.signatures⟩
  · exact ⟨hs.globals, hs.functions, hs.params, fun i a h => hs.locals i a h, hs.entry,
      hs.signatures⟩

/-- A slot that waits for its symbol changes nothing for names. -/
theorem State.Reflects.reserving {N : Names} {c : Context} (h : s.Reflects N c) :
    (s.reserving c).Reflects N c := by
  obtain ⟨_ | owner, inLoop⟩ := c
  · exact ⟨h.place, h.builtin, h.function⟩
  · exact ⟨h.place, h.builtin, h.function⟩

theorem bare_reserving (hs : s.Bare) : (s.reserving ⟨none, inLoop⟩).Bare :=
  ⟨hs.functions, hs.params, hs.locals⟩

theorem advances_reserving (s : State) (c : Context) : s.Advances (s.reserving c) := by
  obtain ⟨_ | owner, _⟩ := c <;> exact ⟨List.prefix_refl _, rfl, rfl, rfl, List.prefix_refl _⟩

/-- A variable comes behind those declared before. Outside all functions there must be no text in
its initial value. -/
theorem placing_eq (hadds : (s.reserving c).Adds u ts) (htop : c.owner = none → ts = [])
    (hhas : (s.table c).has e.name = false) :
    u.placing c e = u.setTable c ⟨(s.table c).rows ++ [e], (s.table c).count + 1⟩ := by
  have htable : (u.table c).rows = (s.table c).rows ∧
      (u.table c).count = (s.table c).count + 1 := by
    obtain ⟨_ | owner, inLoop⟩ := c
    · cases htop rfl
      exact ⟨hadds.rows.trans (List.append_nil _), hadds.count⟩
    · exact ⟨(congrArg Table.rows hadds.locals :), (congrArg Table.count hadds.locals :)⟩
  have hinsert := insert?_of_reserved htable.1 hhas
  rw [htable.2] at hinsert
  exact congrArg (u.setTable c) hinsert

/-- A declared variable comes behind the others, whatever they are. -/
theorem advances_placing (u : State) (c : Context) (e : Entry Nat) :
    u.Advances (u.placing c e) := by
  have hrows : ∀ t : Table (Entry Nat),
      t.rows.map unmarked <+: ((t.insert? e).getD t).rows.map unmarked := by
    intro t
    unfold Table.insert?
    split
    · exact List.prefix_refl _
    · simp
  obtain ⟨_ | owner, _⟩ := c
  · exact ⟨hrows u.globals, rfl, rfl, rfl, List.prefix_refl _⟩
  · exact ⟨List.prefix_refl _, rfl, rfl, rfl, hrows u.locals⟩

/-- A declared variable stands at its slot from the end of its declaration on. -/
theorem whole_placing (hs : s.Whole) (hadds : (s.reserving c).Adds u ts)
    (htop : c.owner = none → ts = []) (hhas : (s.table c).has e.name = false)
    (hslot : e.slot = (s.table c).count) :
    (u.placing c e).Whole ∧ s.Advances (u.placing c e) ∧
      ((u.placing c e).env c).place? ⟨c.home, e.slot⟩ = some e.type := by
  have ht := hs.table c
  have hcount : (s.table c).count = (s.table c).rows.length := ht.full
  have horderly : Table.Orderly ⟨(s.table c).rows ++ [e], (s.table c).count + 1⟩ :=
    Table.orderly (ht.dense.concat (hslot.trans hcount) _) (by simp [Table.Full, hcount])
      (ht.keyed.concat hhas _)
  -- the globals have only got the texts of the initial value
  have hback : s.Adds (u.setTable c (s.table c)) ts := by
    obtain ⟨_ | owner, inLoop⟩ := c
    · cases htop rfl
      exact ⟨(List.append_nil _).symm, rfl, hadds.functions, hadds.main, hadds.params, hadds.locals⟩
    · exact ⟨hadds.rows, hadds.count, hadds.functions, hadds.main, hadds.params, rfl⟩
  have hwhole := (hback.whole hs).setTable c horderly
  refine ⟨?_, ((advances_reserving s c).trans hadds.advances).trans (advances_placing u c e),
    ?_⟩ <;>
    rw [placing_eq hadds htop hhas] <;> obtain ⟨_ | owner, inLoop⟩ := c
  · exact hwhole
  · exact hwhole
  · simp [Core.Env.place?, env, Context.home, Context.isTop, setTable, hslot, hcount]
  · simp [Core.Env.place?, env, Context.home, Context.isTop, setTable, hslot, hcount]

end Placing

/-- The initial value of a declared variable is typed, and so is its place. -/
def Initializes (Γ : Core.Env) (c : Context) (slot : Nat) (init : Option Core.Expr) : Prop :=
  ∀ e, init = some e →
    e.Typed Γ ∧ Γ.place? ⟨c.home, slot⟩ = some e.type ∧ e.type.isNumeric = true

/-- The initial value of a declaration, if any, is read with a slot handed out for the variable. -/
theorem reads_declaration {constant : Bool} {i : Option Syntax.Expr} {cl : Syntax.Close}
    (hd : (Syntax.Decl.mk constant x type i cl).Plain)
    (h : Yields (declaration c (.mk constant x type i cl)) s (slot, init) s') :
    slot = (s.table c).count ∧ (s.table c).has x.text = false ∧
      (i = none ∧ init = none ∨ ∃ e b, i = some e ∧ init = some b) ∧
      ∃ u, s' = u.placing c (declaredEntry c constant x type slot init) ∧
        Reads c (s.reserving c) u True (fun Γ => ∀ b, init = some b → b.Typed Γ ∧ b.type = type)
          fun N q => ∀ e b, i = some e → init = some b → e.Lowers N anything q (.value b) := by
  obtain ⟨⟨-, htype⟩, hplain, -⟩ := hd
  obtain ⟨hslot, hhas, u, hs', hinit⟩ := yields_declaration h
  obtain ⟨rfl, -, rfl, hsame⟩ | ⟨e, b, rfl, rfl, hexpr, hb⟩ := hinit
  · exact ⟨hslot, hhas, .inl ⟨rfl, rfl⟩, u, hs', .of_same hsame nofun fun _ _ _ => nofun⟩
  · have hread := reads_expr c e (hplain e rfl) hexpr
    refine ⟨hslot, hhas, .inr ⟨e, b, rfl, rfl⟩, u, hs', hread.imp (fun _ => ?_) ?_ ?_⟩
    · show b.type.isNumeric = true
      rw [hb]
      exact htype
    · rintro Γ htyped _ ⟨⟩
      exact ⟨htyped, hb⟩
    · rintro N hlowers q _ _ ⟨⟩ ⟨⟩
      exact hlowers q

/-- A declaration moves on to a whole point. Outside all functions, no function may have been
declared before. -/
theorem moves_declaration (c : Context) (d : Syntax.Decl) (hd : d.Plain)
    (h : Yields (declaration c d) s (slot, init) s') (hs : s.Whole)
    (hbare : c.owner = none → s.Bare) :
    s'.Whole ∧ s.Advances s' ∧ Initializes (s'.env c) c slot init := by
  match d, hd with
  | .gap g, _ => exact absurd h not_yields_stuck
  | .mk constant x type i cl, hd =>
    obtain ⟨hslot, hhas, -, u, rfl, ts, hadds, htyped, hnone, -⟩ := reads_declaration hd h
    have htop (hc : c.owner = none) : ts = [] := by
      obtain ⟨_ | owner, inLoop⟩ := c
      · exact hnone (bare_reserving (hbare rfl)) trivial
      · cases hc
    have hfull : (s.reserving c).globals.Full ∨ ts = [] := by
      obtain ⟨_ | owner, inLoop⟩ := c
      · exact .inr (htop rfl)
      · exact .inl hs.globals_full
    obtain ⟨hwhole, hadv, hplace⟩ :=
      whole_placing (e := declaredEntry c constant x type slot init) hs hadds htop hhas hslot
    refine ⟨hwhole, hadv, fun e he => ?_⟩
    obtain ⟨he, rfl⟩ := htyped (sound_reserving hs.toSound _) hfull e he
    exact ⟨he.mono ((advances_placing u _ _).env_extends _), hplace, hd.1.2⟩

/-- In a function, the variable comes behind the local ones, and its initial value is stored. -/
theorem moves_local (hc : c.owner ≠ none) {d : Syntax.Decl} (hd : d.Plain)
    (h : Yields (declaration c d) s (slot, init) s') (hs : s.Whole)
    (ha : init.elim .skip (.assign ⟨.local, slot⟩) = a) :
    Moves c s s' a.places d.declares (a.Typed · c.inLoop) fun N n => ∀ start,
      (Syntax.Stmt.declare d).Lowers N (fun _ => anything) n start a := by
  obtain ⟨hwhole, hadv, hinit⟩ := moves_declaration c d hd h hs fun htop => absurd htop hc
  match d, hd with
  | .gap g, _ => exact absurd h not_yields_stuck
  | .mk constant x type i cl, hd =>
    obtain ⟨hslot, hhas, hcases, u, hs', hread⟩ := reads_declaration hd h
    obtain ⟨_ | owner, inLoop⟩ := c
    · exact absurd rfl hc
    have ⟨ts, hadds, _⟩ := hread
    rw [placing_eq (e := declaredEntry ⟨some owner, inLoop⟩ constant x type slot init) hadds nofun
      hhas] at hs'
    have hgrows : s.Grows s' [(x.text, type)] := by
      rw [hs']
      exact ⟨hadds.grows.globals, List.map_append⟩
    subst ha
    obtain ⟨rfl, rfl⟩ | ⟨e, b, rfl, rfl⟩ := hcases
    · exact ⟨hwhole, hadv, trivial, .nil _, hgrows, fun _ _ _ _ _ => rfl⟩
    · obtain rfl : slot = s.locals.rows.length := hslot.trans hs.locals_full
      refine ⟨hwhole, hadv, hinit b rfl, fun n hn => (by cases List.mem_singleton.mp hn), hgrows,
        fun N E hE hE' start => ⟨b, rfl, ?_⟩⟩
      have hnames := hE.reflects (c := ⟨some owner, inLoop⟩) (hadv.trans hE') hs.toSound rfl
      have htexts := (hE.tells s.locals.rows.length).earlier hE'.globals
      rw [hs'] at htexts
      exact hread.lowers hnames.reserving htexts _ e b rfl rfl

/-! ## Statements -/

section Forms

variable {c : Context} {s s' : State} {a : Core.Stmt}

theorem passes_returned {ord : Nat} {value : Option Syntax.Expr}
    (h : Passes (returned c ord value) s a s') :
    (value = none ∧ (s.env c).result = .void ∧ a = .ret none ∧ s.Adds s' []) ∨
      ∃ e x, value = some e ∧ (s.env c).result ≠ .void ∧ Passes (expr c e) s (.value x) s' ∧
        x.type = (s.env c).result ∧ a = .ret (some x) := by
  have h := h.look
  have howner : (c.owner.getD ("", .void)).2 = (s.env c).result := by
    obtain ⟨_ | owner, _⟩ := c <;> rfl
  cases value with
  | none =>
    dsimp only at h
    rw [howner] at h
    split at h
    · rename_i hvoid
      exact .inl ⟨rfl, hvoid, h.emit.pure⟩
    · exact absurd h Passes.not_reject
  | some e =>
    dsimp only at h
    rw [howner] at h
    split at h
    · exact absurd h Passes.not_reject
    · rename_i hvoid
      obtain ⟨v, t, hexpr, h⟩ := h.emit.bind
      split at h
      · rename_i x hx
        obtain ⟨rfl, htype⟩ := Operand.valueOf?_eq_some hx
        obtain ⟨ha, hsame⟩ := h.emit.emit.pure
        exact .inr ⟨e, x, rfl, hvoid, hexpr.after hsame, htype, ha⟩
      · exact absurd h Passes.not_reject

theorem passes_assignment {x : Name} {e : Syntax.Expr} (h : Passes (assignment c x e) s a s') :
    ∃ entry l y u, (s.scope c).resolve Table.find? x.text = some (entry, l) ∧
      entry.type.isNumeric = true ∧ entry.isConstant = false ∧ Passes (expr c e) s (.value y) u ∧
      y.type = entry.type ∧ a = .assign (placeOf c entry l) y ∧
      (u.markAssigned l x.text).Adds s' [] := by
  obtain ⟨⟨entry, l⟩, s₁, hresolve, h⟩ := h.look.bind
  obtain ⟨hsame, hscope, hnum⟩ := passes_resolve hresolve
  dsimp only at h
  split at h
  · exact absurd h Passes.not_reject
  · rename_i hconst
    obtain ⟨v, t, hexpr, h⟩ := h.emit.bind
    split at h
    · rename_i y hy
      obtain ⟨rfl, htype⟩ := Operand.valueOf?_eq_some hy
      obtain ⟨u, hu, h⟩ := h.emit.modify
      exact ⟨entry, l, y, u, hscope, hnum, by simpa using hconst,
        (hexpr.before hsame).after hu, htype, h.pure⟩
    · exact absurd h Passes.not_reject

theorem passes_dropped {f : Name} {as : Syntax.Args} (h : Passes (dropped c f as) s a s') :
    ∃ g types t es, Passes (callee f) s (g, types) t ∧
      Passes (args c f types.length 1 types as) s es s' ∧ a = .call g es := by
  obtain ⟨⟨g, types⟩, t, hcallee, h⟩ := h.look.bind
  obtain ⟨es, u, hargs, h⟩ := h.emit.bind
  have h := h.emit
  dsimp only at h
  have hlast : a = .call g es ∧ u.Adds s' [] := by
    split at h
    · exact h.pure
    · exact h.emit.pure
  exact ⟨g, types, t, es, hcallee, (hargs.before (passes_callee hcallee).1).after hlast.2, hlast.1⟩

/-- A phrase that is closed, and given as it is. -/
theorem passes_closed {w : Walk Core.Stmt} {cl : Syntax.Close}
    (h : Passes (w >>= fun a => close cl >>= fun _ => pure a) s a s') : Passes w s a s' := by
  obtain ⟨_, t, hw, h⟩ := h.bind
  obtain ⟨rfl, hsame⟩ := h.close.pure
  exact hw.after hsame

/-- A loop is left or gone on with only from within. -/
theorem passes_jump {cl : Syntax.Close} {b : Core.Stmt} {cause : Cause} {ord : Nat}
    (h : Passes (close cl >>= fun _ =>
      if c.inLoop then emitBranch >>= fun _ => pure b else reject cause ord) s a s') :
    c.inLoop = true ∧ a = b ∧ s.Adds s' [] := by
  have h := h.close
  split at h
  · rename_i hloop
    exact ⟨hloop, h.emit.pure⟩
  · exact absurd h Passes.not_reject

end Forms

namespace State.Moves

variable {c : Context} {s s' s'' : State} {ps qs : List Core.Place} {ds es : List (String × Ty)}
  {P Q : Core.Env → Prop} {L M : (Nat → Names) → Nat → Prop}

/-- What brings no more than instructions. -/
theorem of_adds (h : s.Adds s' []) (hs : s.Whole) (hP : P (s'.env c)) (hL : ∀ N n, L N n) :
    Moves c s s' [] [] P L :=
  ⟨h.whole hs, h.advances, hP, .nil _, h.grows, fun N _ _ _ => hL N _⟩

/-- Two parts in a row; what holds of the first one goes on to hold. -/
theorem seq (h : Moves c s s' ps ds P L) (k : Moves c s' s'' qs es Q M)
    (hmono : ∀ {Γ Δ : Core.Env}, Γ.Extends Δ → P Γ → P Δ) :
    Moves c s s'' (ps ++ qs) (ds ++ es) (fun Γ => P Γ ∧ Q Γ)
      fun N n => L N n ∧ M N (n + ds.length) where
  whole := k.whole
  advances := h.advances.trans k.advances
  holds := ⟨hmono (k.advances.env_extends c) h.holds, k.holds⟩
  assigns := (h.assigns.later k.advances.globals).append k.assigns
  grows := h.grows.trans k.grows
  lowers N E hE hs :=
    ⟨h.lowers N E hE (k.advances.trans hs), h.grows.length ▸ k.lowers N E hE hs⟩

theorem imp (h : Moves c s s' ps ds P L) (hP : P (s'.env c) → Q (s'.env c))
    (hL : ∀ N n, L N n → M N n) : Moves c s s' ps ds Q M :=
  ⟨h.whole, h.advances, hP h.holds, h.assigns, h.grows,
    fun N E hE hs => hL N _ (h.lowers N E hE hs)⟩

theorem after (h : Moves c s s' ps ds P L) (k : s'.Adds s'' [])
    (hmono : ∀ {Γ Δ : Core.Env}, Γ.Extends Δ → P Γ → P Δ) : Moves c s s'' ps ds P L where
  whole := k.whole h.whole
  advances := h.advances.trans k.advances
  holds := hmono (k.env_extends c) h.holds
  assigns := h.assigns.later k.advances.globals
  grows := h.grows.after k
  lowers N E hE hs := h.lowers N E hE (k.advances.trans hs)

theorem before (h : s.Adds s' []) (k : Moves c s' s'' ps ds P L) : Moves c s s'' ps ds P L :=
  ⟨k.whole, h.advances.trans k.advances, k.holds, k.assigns, k.grows.before h,
    h.locals ▸ k.lowers⟩

end State.Moves

theorem moves_returned (c : Context) (ord : Nat) (value : Option Syntax.Expr)
    (hp : ∀ e, value = some e → e.Plain) (h : Passes (returned c ord value) s a s') (hs : s.Whole)
    (cl : Syntax.Close) :
    Moves c s s' a.places [] (a.Typed · c.inLoop) fun N n => ∀ start,
      (Syntax.Stmt.ret ord value cl).Lowers N (fun _ => anything) n start a := by
  obtain ⟨rfl, hvoid, rfl, hsame⟩ | ⟨e, x, rfl, hvoid, hexpr, htype, rfl⟩ := passes_returned h
  · exact .of_adds hsame hs hvoid fun _ _ _ => rfl
  · have hx := (reads_expr c e (hp e rfl) hexpr).moves hs
    exact hx.imp (fun hx => ⟨hx, htype, hvoid⟩) fun N n hx start => ⟨x, rfl, hx _⟩

theorem moves_assignment (c : Context) (x : Name) (e : Syntax.Expr) (hp : e.Plain)
    (h : Passes (assignment c x e) s a s') (hs : s.Whole) (cl : Syntax.Close) :
    Moves c s s' a.places [] (a.Typed · c.inLoop) fun N n => ∀ start,
      (Syntax.Stmt.assign x e cl).Lowers N (fun _ => anything) n start a := by
  obtain ⟨entry, l, y, u, hscope, hnum, hconst, hexpr, htype, rfl, hlast⟩ := passes_assignment h
  have hy := (reads_expr c e hp hexpr).moves hs
  have hmark := advances_markAssigned u l x.text
  have hadv := hy.advances.trans hmark
  have hassigns : s.Assigns [placeOf c entry l] := by
    intro n hn
    have hplace := List.mem_singleton.mp hn
    rcases scope_cases hscope with ⟨rfl, hfind⟩ | ⟨_, _, howner, rfl, -⟩ | ⟨_, howner, rfl, -⟩
    · cases hplace
      exact ⟨entry, hs.globals.rows_slot (Table.find?_eq_some hfind).2.2, hconst⟩
    · simp [placeOf, howner] at hplace
    · simp [placeOf] at hplace
  refine Moves.after ⟨whole_markAssigned hy.whole l x.text, hadv, ⟨?_, ?_, htype ▸ hnum⟩,
    hassigns.later hadv.globals, hy.grows.trans (grows_markAssigned u l x.text),
    fun N E hE hE' start => ⟨_, entry.type, y, rfl, ?_, ?_⟩⟩ hlast
    fun hΓ => Core.Stmt.Typed.mono hΓ
  · exact Core.Expr.Typed.mono (hmark.env_extends c) hy.holds
  · rw [htype]
    exact (hadv.env_extends c).place (place?_placeOf hs.toSound hscope)
  · exact (hE.reflects (hadv.trans hE') hs.toSound rfl).place _ entry l hscope hnum
  · exact hy.lowers N E hE (hmark.trans hE') _

theorem moves_dropped (c : Context) (f : Name) (as : Syntax.Args) (hp : as.Plain)
    (h : Passes (dropped c f as) s a s') (hs : s.Whole) (cl : Syntax.Close) :
    Moves c s s' a.places [] (a.Typed · c.inLoop) fun N n => ∀ start,
      (Syntax.Stmt.call f as cl).Lowers N (fun _ => anything) n start a := by
  obtain ⟨g, types, t, es, hcallee, hargs, rfl⟩ := passes_dropped h
  have hes := (reads_args c f types.length 1 types as hp hargs).moves hs
  obtain ⟨htakes, hne⟩ := takes_callee (c := c) hs.toSound hcallee
  refine ⟨hes.whole, hes.advances, ⟨types, (hes.advances.env_extends c).takes htakes,
    hes.holds hne⟩, .nil _, hes.grows,
    fun N E hE hE' start => ⟨g, es, rfl, trivial, g, es, rfl, ?_, hes.lowers N E hE hE' _⟩⟩
  exact (hE.reflects (hes.advances.trans hE') hs.toSound rfl).callee hcallee

mutual

/-- What a statement means is typed and lowered as declared, and it assigns no global constant. -/
theorem moves_stmt (c : Context) (hc : c.owner ≠ none) (d : Syntax.Stmt) (hp : d.Plain)
    {s s' : State} {a : Core.Stmt} (h : Passes (stmt c d) s a s') (hs : s.Whole) :
    Moves c s s' a.places d.declares (a.Typed · c.inLoop) fun N n => ∀ start,
      d.Lowers N (fun _ => anything) n start a := by
  match d, hp with
  | .empty, _ =>
    obtain ⟨rfl, hsame⟩ := h.pure
    exact .of_adds hsame hs trivial fun _ _ _ => rfl
  | .declare d, hp =>
    obtain ⟨⟨slot, init⟩, t, ⟨u, u', hbefore, hdecl, hafter⟩, h⟩ := h.bind
    have hlast : init.elim .skip (.assign ⟨.local, slot⟩) = a ∧ t.Adds s' [] := by
      cases init <;> exact h.pure.imp_left Eq.symm
    exact ((moves_local hc hp hdecl (hbefore.whole hs) hlast.1).before hbefore).after
      (hafter.trans hlast.2) fun hΓ => Core.Stmt.Typed.mono hΓ
  | .branch i, hp => exact moves_branch c hc i hp h hs
  | .loop ord cond body, hp =>
    obtain ⟨t, s₁, hcond, h⟩ := h.look.emit.bind
    obtain ⟨b, s₂, hbody, h⟩ := h.emit.bind
    obtain ⟨rfl, hsame⟩ := h.emit.pure
    have ht := (reads_condition c cond hp.1 hcond).moves hs
    have hb := moves_block { c with inLoop := true } hc body hp.2 (hbody.after hsame) ht.whole
    have hb : Moves c s₁ s' b.places body.declares (b.Typed · true) fun N n => ∀ start,
        body.Lowers N (fun _ => anything) n start b :=
      ⟨hb.whole, hb.advances, hb.holds, hb.assigns, hb.grows, hb.lowers⟩
    exact (ht.seq hb fun hΓ => Core.Cond.Typed.mono hΓ).imp id
      fun N n hboth start => ⟨t, b, rfl, hboth.1 _, hboth.2 _⟩
  | .ret ord value cl, hp => exact moves_returned c ord value hp.1 (passes_closed h) hs cl
  | .brk ord cl, _ | .cont ord cl, _ =>
    obtain ⟨hloop, rfl, hsame⟩ := passes_jump h
    exact .of_adds hsame hs hloop fun _ _ _ => rfl
  | .call f as cl, hp => exact moves_dropped c f as hp.1 (passes_closed h) hs cl
  | .assign x e cl, hp => exact moves_assignment c x e hp.1 (passes_closed h) hs cl
  | .unfinished x g, _ => exact absurd h Passes.not_stuck
  | .gap g, _ => exact absurd h Passes.not_stuck

/-- So are a condition with its blocks. -/
theorem moves_branch (c : Context) (hc : c.owner ≠ none) (i : Syntax.If) (hp : i.Plain)
    {s s' : State} {a : Core.Stmt} (h : Passes (branch c i) s a s') (hs : s.Whole) :
    Moves c s s' a.places i.declares (a.Typed · c.inLoop) fun N n => ∀ start,
      i.Lowers N (fun _ => anything) n start a := by
  match i, hp with
  | .mk cond body alternative, ⟨hpc, hpb, hpa⟩ =>
    obtain ⟨t, s₁, hcond, h⟩ := h.bind
    obtain ⟨b, s₂, hbody, h⟩ := h.emit.bind
    obtain ⟨o, s₃, halt, h⟩ := h.look.bind
    have hlast : a = .choice t b o ∧ s₃.Adds s' [] := by
      cases o <;> exact h.pure
    obtain ⟨rfl, hsame⟩ := hlast
    have ht := (reads_condition c cond hpc hcond).moves hs
    have hb := moves_block c hc body hpb hbody ht.whole
    have hboth := ht.seq hb fun hΓ => Core.Cond.Typed.mono hΓ
    have ho := hboth.seq (moves_otherwise c hc alternative hpa (halt.after hsame) hb.whole)
      fun hΓ hboth => ⟨hboth.1.mono hΓ, hboth.2.mono hΓ⟩
    have hlowers N E hE hs start :
        (Syntax.If.mk cond body alternative).Lowers N (fun _ => anything) s.locals.rows.length start
          (.choice t b o) :=
      have h := ho.lowers N E hE hs
      ⟨t, b, o, rfl, h.1.1 _, h.1.2 _, h.2 _⟩
    cases o with
    | none =>
      exact ⟨ho.whole, ho.advances, ho.holds.1,
        by simpa [Core.Stmt.choice, Core.Stmt.places] using ho.assigns, ho.grows, hlowers⟩
    | some alt =>
      exact ⟨ho.whole, ho.advances, ⟨ho.holds.1.1, ho.holds.1.2, ho.holds.2 alt rfl⟩, ho.assigns,
        ho.grows, hlowers⟩

/-- So is what stands behind the block of a condition. -/
theorem moves_otherwise (c : Context) (hc : c.owner ≠ none) (e : Syntax.Else) (hp : e.Plain)
    {s s' : State} {o : Option Core.Block} (h : Passes (otherwise c e) s o s') (hs : s.Whole) :
    Moves c s s' (o.elim [] (·.places)) e.declares (fun Γ => ∀ b, o = some b → b.Typed Γ c.inLoop)
      fun N n => ∀ start, e.Lowers N (fun _ => anything) n start o := by
  match e, hp with
  | .none, _ =>
    obtain ⟨rfl, hsame⟩ := h.pure
    exact .of_adds hsame hs nofun fun _ _ _ => rfl
  | .block b, hp =>
    obtain ⟨b', u, hblock, h⟩ := h.emit.bind
    obtain ⟨rfl, hsame⟩ := h.pure
    exact (moves_block c hc b hp (hblock.after hsame) hs).imp
      (fun hb b heq => by cases heq; exact hb) fun N n hb start => ⟨b', rfl, hb start⟩
  | .branch i, hp =>
    obtain ⟨a, u, hbranch, h⟩ := h.emit.bind
    obtain ⟨rfl, hsame⟩ := h.pure
    have ha := moves_branch c hc i hp (hbranch.after hsame) hs
    exact ⟨ha.whole, ha.advances, fun b heq => (by cases heq; exact ⟨ha.holds, trivial⟩),
      ha.assigns.append (.nil _), ha.grows,
      fun N E hE hs start => ⟨a, rfl, ha.lowers N E hE hs start⟩⟩
  | .gap g, _ => exact absurd h.emit Passes.not_stuck

/-- So is a block. -/
theorem moves_block (c : Context) (hc : c.owner ≠ none) (b : Syntax.Block) (hp : b.Plain)
    {s s' : State} {a : Core.Block} (h : Passes (block c b) s a s') (hs : s.Whole) :
    Moves c s s' a.places b.declares (a.Typed · c.inLoop) fun N n => ∀ start,
      b.Lowers N (fun _ => anything) n start a := by
  match b, hp with
  | .stmts ss, hp => exact moves_stmts c hc ss hp h hs
  | .gap g, _ => exact absurd h Passes.not_stuck

/-- So are statements. -/
theorem moves_stmts (c : Context) (hc : c.owner ≠ none) (ss : Syntax.Stmts) (hp : ss.Plain)
    {s s' : State} {a : Core.Block} (h : Passes (stmts c ss) s a s') (hs : s.Whole) :
    Moves c s s' a.places ss.declares (a.Typed · c.inLoop) fun N n => ∀ start,
      ss.Lowers N (fun _ => anything) n start a := by
  match ss, hp with
  | .done ord, _ =>
    obtain ⟨rfl, hsame⟩ := h.look.pure
    exact .of_adds hsame hs trivial fun _ _ _ => rfl
  | .more d rest, hp =>
    obtain ⟨a', t, hstmt, h⟩ := h.bind
    obtain ⟨b, u, hrest, h⟩ := h.bind
    obtain ⟨rfl, hsame⟩ := h.pure
    have ha := moves_stmt c hc d hp.1 hstmt hs
    exact (ha.seq (moves_stmts c hc rest hp.2 (hrest.after hsame) ha.whole)
      fun hΓ => Core.Stmt.Typed.mono hΓ).imp id
        fun N n hboth start => ⟨a', b, rfl, hboth.1 start, hboth.2 _⟩

end

end Typing

end TinyC
