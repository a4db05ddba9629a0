import TinyC.Proofs.Module.Compiled

/-!
# No statement assigns a constant

The places that the statements of an accepted program assign are never those of global constants
(`Program.not_constant_of_assigned`).

Every global has its row and, if it was declared with one, its initial value. Initial values stand
in the order of declarations, and no constant is without one (`Program.declared`).
-/

namespace TinyC

namespace Typing

open Walk State
open Syntax (Name)

/-- The globals that the body of a function assigns are variables at the end of the walk. -/
theorem Walked.assigns {d : Syntax.Fn} (hp : d.Plain) {slot : Nat} {fn : Core.Fn} {s' : State}
    (h : Walked d slot fn s') : s'.Assigns fn.body.places := by
  obtain ⟨u, x, ps, f, t, body, t', u', rfl, -, hw, hu, rfl, hlead⟩ := h
  obtain ⟨-, -, htype, hplain⟩ := hp
  have hassigns := (hw.moves hplain htype hu).assigns
  have hout : u'.Assigns fn.body.places := by
    intro n hn
    rw [State.Variable, hw.globals_out]
    exact hassigns n hn
  exact hout.later hlead.globals

/-! ## Declared globals -/

/-- A declared global has its row and its initial value, and no constant is without one. -/
theorem Initialized.row {constant : Bool} {x : Name} {type : Ty} {init : Option Syntax.Expr}
    {cl : Syntax.Close} (hp : (Syntax.Decl.mk constant x type init cl).Plain) {n : Nat}
    {o : Option Core.Init} {s' : State} (h : Initialized (.mk constant x type init cl) n o s') :
    ∃ e a, s'.globals.rows[n]? = some e ∧
      e.unmarked = (declaredEntry ⟨none, false⟩ constant x type n a).unmarked ∧
      o = a.map (⟨n, ·⟩) ∧ a.isSome = init.isSome ∧ (constant = true → init.isSome = true) := by
  obtain ⟨u, a, u', hdecl, rfl, -, hbare, rfl, hlead⟩ := h
  obtain ⟨_, _, _, _, _, heq, -, hglobals, -, -⟩ := globals_declaration hp hdecl hbare
  cases heq
  have hrow : u'.globals.rows[u.globals.rows.length]? =
      some (declaredEntry ⟨none, false⟩ constant x type u.globals.rows.length a) := by
    rw [hglobals]
    exact List.getElem?_concat_length
  obtain ⟨e, he, hsame⟩ := row_of_unmarked hlead.globals hrow
  refine ⟨e, a, he, hsame, rfl, ?_⟩
  obtain ⟨-, -, _, -, ⟨rfl, rfl, rfl, -⟩ | ⟨_, _, rfl, rfl, -⟩⟩ := yields_declaration hdecl
  · exact ⟨rfl, nofun⟩
  · exact ⟨rfl, fun _ => rfl⟩

theorem Initialized.slot_eq {d : Syntax.Decl} {n : Nat} {i : Core.Init} {s' : State}
    (h : Initialized d n (some i) s') : i.slot = n := by
  obtain ⟨_, a, _, -, hinit, -⟩ := h
  obtain ⟨e, -, rfl⟩ := Option.map_eq_some_iff.mp hinit.symm
  rfl

/-- The initial value of a global stands behind those of the globals before it, and in front of the
others. -/
theorem ProgramWalk.declared {p : Syntax.Program} {core : Core.Program} {s' : State}
    (h : ProgramWalk p core s') (hp : p.Plain) {k : Nat} {constant : Bool} {x : Name} {type : Ty}
    {init : Option Syntax.Expr} {cl : Syntax.Close}
    (hd : p.decls[k]? = some (.mk constant x type init cl)) :
    ∃ (e : Entry Nat) (a : Option Core.Expr) (before after : List Core.Init),
      s'.globals.rows[Builtin.all.length + k]? = some e ∧
      e.unmarked =
        (declaredEntry ⟨none, false⟩ constant x type (Builtin.all.length + k) a).unmarked ∧
      a.isSome = init.isSome ∧ (constant = true → init.isSome = true) ∧
      core.inits = before ++ ((a.map (⟨Builtin.all.length + k, ·⟩)).toList ++ after) ∧
      (∀ i ∈ before, i.slot < Builtin.all.length + k) ∧
      ∀ i ∈ after, Builtin.all.length + k < i.slot := by
  obtain ⟨os, hos, hlength, hnth⟩ := h.inits
  have hk : k < os.length := hlength ▸ (List.getElem?_eq_some_iff.mp hd).1
  have hslot {j : Nat} {i : Core.Init} (hj : os[j]? = some (some i)) :
      i.slot = Builtin.all.length + j := by
    obtain ⟨_, -, hinit⟩ := hnth _ _ hj
    exact hinit.slot_eq
  obtain ⟨d, hd', hinit⟩ := hnth k os[k] (List.getElem?_eq_getElem hk)
  rw [hd] at hd'
  cases hd'
  obtain ⟨e, a, he, hsame, ho, hsome, hconst⟩ := hinit.row (hp.1 _ (List.mem_of_getElem? hd))
  have hsplit : os = os.take k ++ (a.map (⟨Builtin.all.length + k, ·⟩)) :: os.drop (k + 1) := by
    rw [← ho, List.getElem_cons_drop hk, List.take_append_drop]
  refine ⟨e, a, (os.take k).filterMap id, (os.drop (k + 1)).filterMap id, he, hsame, hsome, hconst,
    ?_, fun i hi => ?_, fun i hi => ?_⟩
  · have hinits := hos.trans (congrArg (List.filterMap id) hsplit)
    rw [List.filterMap_append] at hinits
    cases a with
    | none => exact hinits
    | some v => exact hinits
  · obtain ⟨o, hmem, rfl⟩ := List.mem_filterMap.mp hi
    obtain ⟨j, hj⟩ := List.mem_iff_getElem?.mp hmem
    rw [List.getElem?_take] at hj
    split at hj
    · rw [hslot hj]
      omega
    · cases hj
  · obtain ⟨o, hmem, rfl⟩ := List.mem_filterMap.mp hi
    obtain ⟨j, hj⟩ := List.mem_iff_getElem?.mp hmem
    rw [List.getElem?_drop] at hj
    rw [hslot hj]
    omega

end Typing

/-! ## Accepted programs -/

section

variable {p : Program} {a : Analysis} (ha : p.analyse.result = .ok a)

include ha

/-- **No function assigns a global constant.** -/
theorem Program.not_constant_of_assigned {k : Nat} {fn : Core.Fn}
    (hfn : a.core.functions[k]? = some fn) {n : Nat} (hn : ⟨.global, n⟩ ∈ fn.body.places)
    {e : Entry Position} (he : a.tables.globals.rows[n]? = some e) : e.isConstant = false := by
  obtain ⟨t, hwalk, g, htables⟩ := walk_of_analyse (Program.outcome_source ha)
  have hplain := p.source.plain_tree
  obtain ⟨d, hd, hwalked⟩ := (Typing.yields_program hplain hwalk).functions k fn hfn
  obtain ⟨e', he', hconst⟩ := hwalked.assigns (hplain.2 d (List.mem_of_getElem? hd)) n hn
  have hrow : a.tables.globals.rows[n]? = some (e'.mapPos g) := by
    rw [htables]
    simp [ProgramTables.mapPos, Typing.tables, he']
  rw [he] at hrow
  cases hrow
  exact hconst

/-- **A global has its row and its initial value.** The row starts from the word of the initial
value, if that is a literal. -/
theorem Program.declared {k : Nat} {constant : Bool} {x : Syntax.Name} {type : Ty}
    {init : Option Syntax.Expr} {cl : Syntax.Close}
    (hd : p.source.tree.decls[k]? = some (.mk constant x type init cl)) :
    ∃ (e : Entry Position) (v : Option Core.Expr) (before after : List Core.Init),
      a.tables.globals.rows[Builtin.all.length + k]? = some e ∧ e.name = x.text ∧
      e.isConstant = constant ∧ e.type.isNumeric = true ∧
      e.value = (v.map fun v => Typing.literalWord v.code).getD 0 ∧
      v.isSome = init.isSome ∧ (constant = true → init.isSome = true) ∧
      a.core.inits = before ++ ((v.map (⟨Builtin.all.length + k, ·⟩)).toList ++ after) ∧
      (∀ i ∈ before, i.slot < Builtin.all.length + k) ∧
      ∀ i ∈ after, Builtin.all.length + k < i.slot := by
  obtain ⟨t, hwalk, g, htables⟩ := walk_of_analyse (Program.outcome_source ha)
  have hplain := p.source.plain_tree
  obtain ⟨e, v, before, after, he, hsame, hrest⟩ :=
    (Typing.yields_program hplain hwalk).declared hplain hd
  have hnumeric := (hplain.1 _ (List.mem_of_getElem? hd)).1.2
  refine ⟨e.mapPos g, v, before, after, ?_, congrArg Entry.name hsame, ?_, ?_, ?_, hrest⟩
  · rw [htables]
    simp [ProgramTables.mapPos, Typing.tables, he]
  · have hconst := congrArg Entry.isConstant hsame
    cases constant with
    | true => exact hconst
    | false => exact hconst
  · have htype : e.type = type := congrArg Entry.type hsame
    rw [← htype] at hnumeric
    exact hnumeric
  · have hvalue := congrArg Entry.value hsame
    cases v with
    | none => exact hvalue
    | some v => exact hvalue

end

end TinyC
