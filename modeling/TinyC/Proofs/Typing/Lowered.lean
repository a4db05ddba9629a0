import TinyC.Proofs.Typing.Described
import TinyC.Proofs.Typing.Resolved

/-!
# Accepted programs are lowered as declared

The tables at the end of a program list its declarations (`Listed`). With the tables at the end
known, every expression of the program has been lowered as its declarations say
(`lowers_program`).
-/

namespace TinyC.Typing

open Walk State
open Syntax (Name Names Declared Fn Phrase)

/-! ## Functions and globals in the tables -/

/-- The row of a function that was walked through shows its name and its type. -/
theorem Walked.described {d : Fn} (hp : d.Plain) {slot : Nat} {fn : Core.Fn} {s' : State}
    (h : Walked d slot fn s') :
    (s'.functions.rows.map Function.described)[slot]? = some d.signature := by
  obtain ⟨u, x, ps, f, t, body, t', u', rfl, -, hw, hu, rfl, hlead⟩ := h
  obtain ⟨hx, -, htype, hplain⟩ := hp
  rw [List.getElem?_map, hw.row_of_leads hx (hw.moves hplain htype hu).advances hlead]
  exact congrArg some (Prod.ext hw.name_eq hw.type_eq)

/-- The tables at the end of a walk list the declarations of a program. -/
structure Listed (p : Syntax.Program) (texts : Nat → List UInt8) (s : State) : Prop where
  globals : ∃ k, s.globals.rows.map Entry.described =
    builtinRows ++ p.globals ++ List.replicate k ("", Ty.string)
  functions : s.functions.rows.map Function.described = ("", .void) :: p.functions.map Fn.signature
  texts : s.Tells texts

theorem listed_program {p : Syntax.Program} (hp : p.Plain) {core : Core.Program} {s' : State}
    (h : Yields (program p) {} core s') {texts : Nat → List UInt8} (htexts : s'.Tells texts) :
    Listed p texts s' := by
  have hwalk := yields_program hp h
  refine ⟨hwalk.globals, ?_, htexts⟩
  obtain ⟨rest, hrows, hlen⟩ := hwalk.rows_eq
  rw [hrows]
  refine congrArg (("", Ty.void) :: ·) (List.ext_getElem? fun k => ?_)
  cases hfn : core.functions[k]? with
  | none =>
    have hk : core.functions.length ≤ k := List.getElem?_eq_none_iff.mp hfn
    have hlen' := hwalk.functions_length
    rw [List.getElem?_eq_none_iff.mpr (by simp only [List.length_map]; omega),
      List.getElem?_eq_none_iff.mpr (by simp only [List.length_map]; omega)]
  | some fn =>
    obtain ⟨d, hd, hwalked⟩ := hwalk.functions k fn hfn
    have hrow := hwalked.described (hp.2 d (List.mem_of_getElem? hd))
    rw [hrows, List.map_cons, List.getElem?_cons_succ] at hrow
    rw [hrow, List.getElem?_map, hd]
    rfl

/-! ## Programs -/

section

variable {p : Syntax.Program} {texts : Nat → List UInt8} {s' : State}

/-- A function is lowered as declared, and its row has the variables that it declares. -/
theorem Walked.lowers {d : Fn} (hp : d.Plain) {slot : Nat} {fn : Core.Fn}
    (h : Walked d slot fn s') (hl : Listed p texts s') :
    ∃ x ps body, d = .mk x ps (.ok (fn.type, body)) ∧
      d.Lowers p texts (fun _ _ => anything) fn ∧
      ∃ f, s'.functions.rows[slot]? = some f ∧ f.locals.rows.length = body.declares.length := by
  obtain ⟨u, x, ps, f, t, body, t', u', rfl, hps, hw, hu, rfl, hlead⟩ := h
  obtain ⟨hx, -, htype, hplain⟩ := hp
  obtain ⟨-, hadv, -, -, hgrows, hlowers⟩ := hw.moves hplain htype hu
  have hrows := hw.rows_out hx hadv
  have hlocals : t'.locals.rows.map Entry.described = body.declares := by
    rw [hgrows.locals, hw.locals_in]
    rfl
  -- what the tables list at the end of the program, they list at the end of the body
  have hrecords : t'.Records p texts (p.inside ps fn.type body) := by
    have hglobals := hlead.globals
    rw [hw.globals_out] at hglobals
    obtain ⟨k, hk⟩ := hl.globals
    exact
      { globals := ⟨k, hk ▸ prefix_described hglobals⟩
        functions := by
          have hprefix := hlead.functions.map Function.described
          rw [hl.functions, hrows, List.map_append] at hprefix
          rw [hadv.functions, hw.functions_in, List.map_append]
          exact hprefix
        params := by
          rw [← describedParams_unmarked, hadv.params, describedParams_unmarked, hw.params_in]
          exact hps
        locals := ⟨[], by rw [hlocals, List.append_nil]; rfl⟩
        texts := hl.texts.earlier hglobals }
  have hresolves : t'.Resolves (p.names texts (p.inside ps fn.type body))
      (bodyContext x fn.type).owner :=
    ⟨fun hadv hs howner => (hrecords.before hadv).reflects hs
      ⟨fun _ hother => Option.some.inj (howner.symm.trans hother) ▸ rfl,
        fun hnone => nomatch howner.symm.trans hnone⟩, fun _ => hrecords.texts⟩
  have hbody := hlowers _ t' hresolves (.refl t') 0
  rw [hw.locals_in] at hbody
  refine ⟨x, ps, body, rfl, ⟨rfl, hbody⟩, FunctionWalk.finished f t' fn,
    hw.row_of_leads hx hadv hlead, ?_⟩
  rw [← hlocals, List.length_map]
  rfl

/-- The initial value of a global is lowered as declared. -/
theorem Initialized.lowers {d : Syntax.Decl} (hp : d.Plain) {slot : Nat} {o : Option Core.Init}
    (h : Initialized d slot o s') (hl : Listed p texts s') :
    ∃ constant x type i cl, d = .mk constant x type i cl ∧
      (i = none ∧ o = none ∨ ∃ e a, i = some e ∧ o = some ⟨slot, a⟩ ∧
        ∀ q, e.Lowers (p.names texts p.outside 0) anything q (.value a)) := by
  obtain ⟨u, a, u', hdecl, rfl, hu, hbare, -, hlead⟩ := h
  have hadv := (moves_declaration _ d hp hdecl hu.toWhole fun _ => hbare).2.1
  obtain ⟨-, hbare', -⟩ := between_declaration hp hdecl hu hbare
  have hrecords : u'.Records p texts p.outside := by
    obtain ⟨k, hk⟩ := hl.globals
    exact
      { globals := ⟨k, hk ▸ prefix_described hlead.globals⟩
        functions := hl.functions ▸ hlead.functions.map Function.described
        params := by rw [hbare'.params]; rfl
        locals := by rw [hbare'.locals]; exact List.nil_prefix
        texts := hl.texts.earlier hlead.globals }
  match d, hp with
  | .gap g, _ => exact absurd hdecl not_yields_stuck
  | .mk constant x type i cl, hp =>
    obtain ⟨-, -, hinit, w, rfl, hread⟩ := reads_declaration hp hdecl
    refine ⟨constant, x, type, i, cl, rfl, ?_⟩
    obtain ⟨rfl, rfl⟩ | ⟨e, b, rfl, rfl⟩ := hinit
    · exact .inl ⟨rfl, rfl⟩
    · refine .inr ⟨e, b, rfl, rfl, fun q => ?_⟩
      have hnames := (hrecords.before hadv).reflects (c := ⟨none, false⟩) hu.toSound
        ⟨nofun, fun _ => ⟨hbare.params, by rw [hbare.locals]⟩⟩
      rw [hbare.locals] at hnames
      exact hread.lowers hnames.reserving (hrecords.before (advances_placing w _ _)).texts q e b
        rfl rfl

/-- Initial values are lowered in the order of their declarations. -/
theorem inits_lower {ds : List Syntax.Decl} (hp : ∀ d ∈ ds, d.Plain)
    {os : List (Option Core.Init)} (hlen : os.length = ds.length) {slot : Nat}
    (hnth : ∀ k o, os[k]? = some o → ∃ d, ds[k]? = some d ∧ Initialized d (slot + k) o s')
    (hl : Listed p texts s') (start : Nat) :
    Syntax.InitsLower (p.names texts p.outside 0) anything slot start ds (os.filterMap id) := by
  induction ds generalizing os slot start with
  | nil =>
    rw [List.length_eq_zero_iff.mp hlen]
    exact rfl
  | cons d ds ih =>
    cases os with
    | nil => cases hlen
    | cons o os =>
      obtain ⟨d', hd', hinit⟩ := hnth 0 o rfl
      cases hd'
      obtain ⟨constant, x, type, i, cl, rfl, hcases⟩ := hinit.lowers (hp d List.mem_cons_self) hl
      have hrest : ∀ start, Syntax.InitsLower (p.names texts p.outside 0) anything (slot + 1) start
          ds (os.filterMap id) :=
        ih (fun d hd => hp d (List.mem_cons_of_mem _ hd)) (by simpa using hlen) fun k o ho => by
          obtain ⟨d', hd', hinit'⟩ := hnth (k + 1) o ho
          exact ⟨d', hd', by rwa [show slot + 1 + k = slot + (k + 1) by omega]⟩
      obtain ⟨rfl, rfl⟩ | ⟨e, a, rfl, rfl, hlowers⟩ := hcases
      · exact hrest start
      · exact ⟨a, os.filterMap id, rfl, hlowers _, hrest _⟩

/-- An accepted program is lowered as its declarations say. -/
theorem lowers_program (hp : p.Plain) {core : Core.Program} (h : Yields (program p) {} core s')
    (htexts : s'.Tells texts) : p.Lowers texts (fun _ _ _ => anything) core := by
  have hwalk := yields_program hp h
  have hl := listed_program hp h htexts
  obtain ⟨os, hos, hlen, hnth⟩ := hwalk.inits
  refine ⟨?_, hwalk.functions_length, fun i f fn hf hfn => ?_⟩
  · rw [hos]
    exact inits_lower hp.1 hlen hnth hl 0
  · obtain ⟨d, hd, hwalked⟩ := hwalk.functions i fn hfn
    rw [hf] at hd
    cases hd
    obtain ⟨x, ps, body, rfl, hlowers, -⟩ := hwalked.lowers (hp.2 f (List.mem_of_getElem? hf)) hl
    exact hlowers

end

end TinyC.Typing
