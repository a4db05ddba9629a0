import TinyC.Proofs.Typing.Accepted
import TinyC.Proofs.Typing.Decided

/-!
# Programs are judged

The walk through a program goes through just where the program is right (`checks_program`). Within a
function the tables show what is known at each point; between functions only the globals and the
functions count (`Ledger.Lists`), for the variables of a function are left behind with it.

Globals and functions come in rows, and each is right behind those before it. That their names are
different is checked one name at a time, as it is for parameters.
-/

namespace TinyC

open Syntax (Derives)

namespace Typing

open Walk
open Syntax (Var Heading Event Known Param Decl builtinNames Decent decent_append)

/-! ## Parameters -/

/-- The parameters of a function as variables. -/
def paramVars (f : Function Nat) : List Var :=
  (f.params.getD {}).rows.map entryVar

theorem map_type_paramVars (f : Function Nat) : (paramVars f).map Var.type = f.paramTypes := by
  unfold paramVars Function.paramTypes
  rw [List.map_map]
  cases f.params <;> rfl

/-- A parameter comes behind the others. -/
theorem paramVars_of_addParam? {f g : Function Nat} {e : Entry Nat} (h : f.addParam? e = some g) :
    g.name = f.name ∧ paramVars g = paramVars f ++ [entryVar e] := by
  obtain ⟨t, ht, rfl⟩ := Option.map_eq_some_iff.mp h
  obtain ⟨-, rfl⟩ := Table.add?_eq_some_iff.mp ht
  exact ⟨rfl, List.map_append⟩

/-- There can be one more parameter if its name is not taken. -/
theorem addParam?_eq_none_iff {f : Function Nat} {e : Entry Nat} (he : e.name ≠ "") :
    f.addParam? e = none ↔ e.name ∈ (paramVars f).map Var.name := by
  have hnames : (paramVars f).map Var.name = (f.params.getD {}).rows.map Symbol.name := List.map_map
  rw [hnames, ← Table.has_iff_rows _ he]
  exact Option.map_eq_none_iff.trans (Table.insert?_eq_none_iff _ _)

/-- Parameters are declared just where their names are different. -/
theorem checks_parameters {R : Ledger → Prop} (ps : List Param)
    (hps : Decent (ps.map Param.var)) (f : Function Nat) (hf : ((paramVars f).map Var.name).Nodup) :
    (parameters f ps).Checks R R (fun g => (g.name, paramVars g)) (fun b =>
      ((paramVars f ++ ps.map Param.var).map Var.name).Nodup ∧
        b = (f.name, paramVars f ++ ps.map Param.var)) := by
  induction ps generalizing f with
  | nil =>
    rw [List.map_nil, List.append_nil]
    exact checks_pure_and hf
  | cons p ps ih =>
    obtain ⟨hp, hps⟩ := List.forall_mem_cons.mp hps
    have hfresh : (((paramVars f) ++ [p.var]).map Var.name).Nodup ↔
        p.x.text ∉ (paramVars f).map Var.name := by
      rw [List.map_append, List.nodup_append_comm, List.map_singleton, List.singleton_append,
        List.nodup_cons]
      exact and_iff_left hf
    have hrow : paramVars f ++ (p :: ps).map Param.var =
        (paramVars f ++ [p.var]) ++ ps.map Param.var := by
      simp
    rw [hrow]
    unfold parameters
    refine .look ?_
    dsimp only
    split
    · rename_i g hg
      obtain ⟨hname, hvars⟩ := paramVars_of_addParam? hg
      have hvar : entryVar { name := p.x.text
                             kind := if p.constant then .constant else .variable
                             type := p.type, initialized := true
                             pos := some p.x.ord } = p.var := by
        obtain ⟨constant, x, type⟩ := p
        cases constant <;> rfl
      rw [hvar] at hvars
      rw [← hvars, ← hname]
      apply ih hps
      rw [hvars, hfresh]
      have hsome := Option.ne_none_iff_exists'.mpr ⟨g, hg⟩
      exact fun htaken => hsome ((addParam?_eq_none_iff (by exact hp.1)).mpr htaken)
    · rename_i hnone
      have htaken := (addParam?_eq_none_iff hp.1).mp hnone
      apply checks_reject
      rintro b ⟨hdistinct, -⟩
      rw [List.map_append] at hdistinct
      exact hfresh.mp (List.nodup_append.mp hdistinct).1 htaken

/-! ## Functions -/

/-- Between functions the tables list the globals and the functions. -/
structure Ledger.Lists (l : Ledger) (globals : List Var) (functions : List Heading) : Prop where
  globals : l.globals.named.map entryVar = builtinVars ++ globals
  functions : l.functions.named.map functionHeading = functions

section

variable {γ δ : Type} {f : Unit → Walk γ} {S : Ledger → Prop} {sight : γ → δ} {Q : δ → Prop}
  {G : List Var} {F : List Heading}

theorem Ledger.Lists.has_iff {s : State} (hs : s.ledger.Lists G F) (x : String) :
    s.functions.has x = true ↔ x ∈ F.map Heading.name := by
  rw [Table.has_iff, ← hs.functions, List.map_map]
  rfl

/-- In its body a function is known, and so are its parameters. -/
theorem checks_enter {g : Function Nat} {h : Heading} {vs : List Var}
    (hheading : functionHeading g = h) (hvars : paramVars g = vs) (hname : h.name ≠ "")
    (hfresh : h.name ∉ F.map Heading.name)
    (hf : (f ()).Checks (·.Shows ⟨G, F ++ [h], vs, []⟩) S sight Q) :
    (enter g >>= f).Checks (·.Lists G F) S sight Q := by
  subst hheading hvars
  refine checks_modify ?_ hf
  intro s hs
  have hhas : s.functions.has g.name = false := by
    rw [Bool.eq_false_iff]
    exact fun h => hfresh ((hs.has_iff _).mp h)
  have hadd : s.functions.add? g =
      some ⟨s.functions.rows ++ [{ g with slot := s.functions.count }], s.functions.count + 1⟩ :=
    Table.add?_eq_some_iff.mpr ⟨hhas, rfl⟩
  refine ⟨hs.globals, ?_, rfl, rfl, nofun⟩
  show (((s.functions.add? g).getD s.functions).named).map functionHeading = _
  rw [hadd, Option.getD_some, Table.named_concat (by exact hname), List.map_append]
  exact congrArg (· ++ [functionHeading g]) hs.functions

/-- A function that is left stays known, and calls see it as before. -/
theorem checks_leave {K : Known} {h : Heading} {code : List Instr}
    (hfunctions : K.functions = F ++ [h]) (hfresh : h.name ∉ F.map Heading.name)
    (htypes : K.params.map Var.type = h.params)
    (hf : (f ()).Checks (·.Lists K.globals (F ++ [h])) S sight Q) :
    (leave h.name code >>= f).Checks (·.Shows K) S sight Q := by
  refine checks_modify ?_ hf
  intro s hs
  refine ⟨hs.globals, ?_⟩
  rw [← hfunctions, ← hs.functions]
  show ((s.functions.modify h.name fun g =>
    { g with params := s.params, locals := s.locals, code }).named).map functionHeading = _
  rw [Table.named_modify _ _ (by exact fun _ => rfl), List.map_map]
  refine List.map_congr_left ?_
  intro g hg
  simp only [Function.comp_apply]
  split
  · rename_i hname
    -- The only function of that name is the one at hand.
    have hsame : functionHeading g = h := by
      have hmem : functionHeading g ∈ F ++ [h] := by
        rw [← hfunctions, ← hs.functions]
        exact List.mem_map_of_mem hg
      rcases List.mem_append.mp hmem with hmem | hmem
      · exact absurd (List.mem_map.mpr ⟨_, hmem, beq_iff_eq.mp hname⟩) hfresh
      · exact List.mem_singleton.mp hmem
    have hparams : g.paramTypes = (s.params.map fun t => t.rows.map Entry.type).getD [] := by
      have hown : g.paramTypes = h.params := congrArg Heading.params hsame
      rw [hown, ← htypes, ← hs.params, List.map_map]
      show ((s.params.getD {}).rows.map Entry.type) = _
      cases s.params <;> rfl
    unfold functionHeading
    rw [hparams]
    rfl
  · rfl

/-- A function that has a result is left only if every way through it returns. -/
theorem checks_ending {K : Known} {h : Heading} (hfunctions : K.functions = F ++ [h])
    (hfresh : h.name ∉ F.map Heading.name) (htypes : K.params.map Var.type = h.params) (type : Ty)
    (b : Core.Block) {cause : Cause} {ord : Nat} :
    (if type ≠ .void ∧ b.terminates = false then
      reject cause ord
    else do
      if (⟨type, b⟩ : Core.Fn).needsReturn then emit ⟨.ret, 0⟩
      leave h.name (Core.Fn.code ⟨type, b⟩)
      pure ⟨type, b⟩ : Walk Core.Fn).Checks (·.Shows K) (·.Lists K.globals (F ++ [h])) (fun _ => ())
      (fun _ => type ≠ .void → b.terminates = true) := by
  split
  · rename_i hopen
    apply checks_reject
    intro _ hreturns
    rw [hreturns hopen.1] at hopen
    cases hopen.2
  · rename_i hclosed
    have hreturns : type ≠ .void → b.terminates = true := by
      intro hresult
      rw [← Bool.not_eq_false]
      exact fun h => hclosed ⟨hresult, h⟩
    have hleave : (leave h.name (Core.Fn.code ⟨type, b⟩) >>= fun _ =>
        pure (⟨type, b⟩ : Core.Fn)).Checks (·.Shows K) (·.Lists K.globals (F ++ [h]))
        (fun _ => ()) (fun _ => type ≠ .void → b.terminates = true) := by
      refine checks_leave hfunctions hfresh htypes (checks_pure.of_iff ?_)
      intro _
      exact iff_of_true rfl hreturns
    split
    · exact .emit hleave
    · exact hleave

end

theorem isSome_ofName?_iff (x : String) : (Builtin.ofName? x).isSome = true ↔ x ∈ builtinNames := by
  unfold Builtin.ofName? builtinNames
  rw [List.find?_isSome, List.mem_map]
  simp only [beq_iff_eq]

/-- What can be named at the start of a function, or where a global gets its value. -/
theorem proper_start {G vs : List Var} (F : List Heading) (hG : Decent G)
    (hapart : (builtinNames ++ G.map Var.name).Nodup) (hvs : Decent vs) :
    Proper ⟨G, F, vs, []⟩ where
  numeric := by
    intro v hv
    rcases List.mem_append.mp hv with hv | hv
    · exact (hG v hv).2
    · rcases List.mem_append.mp hv with hv | hv
      · exact (hvs v hv).2
      · cases hv
  named := fun v hv => (hvs v hv).1
  apart := by
    intro v hv hbuiltin
    exact (List.nodup_append.mp hapart).2.2 _ hbuiltin _ (List.mem_map_of_mem hv) rfl
  distinct := List.nodup_nil

section

variable {G : List Var} {F : List Heading}

theorem checks_function (hG : Decent G) (hapart : (builtinNames ++ G.map Var.name).Nodup)
    (x : Syntax.Name) (ps : List Param) (type : Ty) (body : Syntax.Block)
    (hbody : body.Whole) (hd : (Syntax.Fn.mk x ps (.ok (type, body))).Plain) :
    (function (.mk x ps (.ok (type, body)))).Checks (·.Lists G F)
      (·.Lists G (F ++ [⟨x.text, ps.map Param.type, type⟩])) (fun _ => ())
      (fun _ => x.text ∉ builtinNames ++ F.map Heading.name ∧
        (Syntax.Fn.mk x ps (.ok (type, body))).Valid G F) := by
  obtain ⟨hx, hps, -, hplain⟩ := hd
  have hps : Decent (ps.map Param.var) := List.forall_mem_map.mpr hps
  unfold function
  refine .look ?_
  apply checks_get
  intro s hs
  have htaken : ((Builtin.ofName? x.text).isSome || s.functions.has x.text) = true ↔
      x.text ∈ builtinNames ++ F.map Heading.name := by
    rw [Bool.or_eq_true, List.mem_append, isSome_ofName?_iff, hs.has_iff]
  split
  · rename_i hbad
    apply checks_reject
    intro _ h
    exact h.1 (htaken.mp hbad)
  rename_i hgood
  have hfree : x.text ∉ builtinNames ++ F.map Heading.name := fun h => hgood (htaken.mpr h)
  have hfresh : x.text ∉ F.map Heading.name := fun h => hfree (List.mem_append_right _ h)
  let own : Heading := ⟨x.text, ps.map Param.type, type⟩
  let K : Known := ⟨G, F ++ [own], ps.map Param.var, []⟩
  have hK : Proper K := proper_start _ hG hapart hps
  have htypes : (ps.map Param.var).map Var.type = ps.map Param.type := List.map_map
  have hparams := checks_parameters (R := (· = s.ledger)) ps hps
    (Function.start x.text .void (some x.ord)) List.nodup_nil
  have hbodies := checks_block (c := ⟨some (x.text, type), false⟩) hK rfl body hbody hplain
  refine ((hparams.within (fun _ h => h) (fun l (h : l = s.ledger) => h ▸ hs)).bind
    (Q := fun _ _ => (body.Valid K type false ∧ Admits K body.events) ∧
      (type ≠ .void → body.returns = true)) ?_).of_iff ?_
  · rintro g _ rfl ⟨-, hview⟩
    obtain ⟨hname, hvars⟩ := Prod.mk.inj hview
    have hheading : functionHeading { g with type } = own := by
      have hown : g.paramTypes = ps.map Param.type := by
        rw [← map_type_paramVars, hvars]
        exact htypes
      show (⟨g.name, g.paramTypes, type⟩ : Heading) = own
      rw [hname, hown]
      rfl
    apply checks_enter hheading hvars hx hfresh
    refine hbodies.settled fun b hb _ => ?_
    rw [← hb]
    exact checks_ending (K := K.after body.events) (h := own) rfl hfresh htypes type b
  · intro _
    constructor
    · rintro ⟨_, ⟨hdistinct, -⟩, ⟨hvalid, hadmits⟩, hreturns⟩
      exact ⟨hfree, hdistinct, hadmits, hvalid, hreturns⟩
    · rintro ⟨-, hdistinct, hadmits, hvalid, hreturns⟩
      exact ⟨_, ⟨hdistinct, rfl⟩, ⟨hvalid, hadmits⟩, hreturns⟩

/-! ## Programs -/

/-- A row is right behind the names that are taken if its first is and the others are behind that.
-/
theorem distinct_row_cons {α : Type} (Q : List α → α → Prop) (a : α) (as : List α)
    (names : List String) (x : String) (others : List String) :
    ((x ∉ names ∧ Q [] a) ∧ (names ++ x :: others).Nodup ∧
        ∀ earlier b later, as = earlier ++ b :: later → Q (a :: earlier) b) ↔
      (names ++ x :: others).Nodup ∧
        ∀ earlier b later, a :: as = earlier ++ b :: later → Q earlier b := by
  constructor
  · rintro ⟨⟨-, hfirst⟩, hdistinct, hothers⟩
    refine ⟨hdistinct, ?_⟩
    intro earlier b later heq
    rcases List.cons_eq_append_iff.mp heq with ⟨rfl, hb⟩ | ⟨earlier, rfl, has⟩
    · cases hb
      exact hfirst
    · exact hothers earlier b later has
  · rintro ⟨hdistinct, hrow⟩
    have hfresh := (List.nodup_cons.mp (List.nodup_middle.mp hdistinct)).1
    refine ⟨⟨fun h => hfresh (List.mem_append_left _ h), hrow [] a as rfl⟩, hdistinct, ?_⟩
    rintro earlier b later rfl
    exact hrow (a :: earlier) b later rfl

/-- Phrases in a row are right if each is right behind those before it, and if what they declare has
names of its own. -/
theorem checks_row {α β τ : Type} {row : List α → Walk β} {declares : α → List τ}
    {name : τ → String} {L : List τ → Ledger → Prop} {D : List τ → Prop} {Fit : α → Prop}
    {V : List τ → α → Prop}
    (hnil : ∀ ts, (row []).Checks (L ts) (L ts) (fun _ => ()) (fun _ => True))
    (hcons : ∀ ts a, D ts → Fit a → (builtinNames ++ ts.map name).Nodup → ∃ t,
      declares a = [t] ∧ D (ts ++ [t]) ∧ ∀ as S (p : Prop),
        (name t ∉ builtinNames ++ ts.map name →
          (row as).Checks (L (ts ++ [t])) S (fun _ => ()) (fun _ => p)) →
        (row (a :: as)).Checks (L ts) S (fun _ => ())
          (fun _ => (name t ∉ builtinNames ++ ts.map name ∧ V ts a) ∧ p))
    (as : List α) (has : ∀ a ∈ as, Fit a) {ts : List τ} (hts : D ts)
    (hnames : (builtinNames ++ ts.map name).Nodup) :
    (row as).Checks (L ts) (L (ts ++ as.flatMap declares)) (fun _ => ())
      (fun _ => (builtinNames ++ (ts ++ as.flatMap declares).map name).Nodup ∧
        ∀ (earlier : List α) a later, as = earlier ++ a :: later →
          V (ts ++ earlier.flatMap declares) a) := by
  induction as generalizing ts with
  | nil =>
    rw [List.flatMap_nil, List.append_nil]
    apply (hnil ts).of_iff
    intro _
    refine iff_of_true trivial ⟨hnames, ?_⟩
    intro earlier a later h
    simp at h
  | cons a as ih =>
    obtain ⟨hfit, hfits⟩ := List.forall_mem_cons.mp has
    obtain ⟨t, ht, hgood, hstep⟩ := hcons ts a hts hfit hnames
    have hrow (es : List α) : (ts ++ [t]) ++ es.flatMap declares =
        ts ++ (a :: es).flatMap declares := by
      rw [List.flatMap_cons, ht, List.append_assoc]
    have hall : builtinNames ++ (ts ++ (a :: as).flatMap declares).map name =
        (builtinNames ++ ts.map name) ++ name t :: (as.flatMap declares).map name := by
      simp [ht]
    refine (hstep as _ ((builtinNames ++ (ts ++ (a :: as).flatMap declares).map name).Nodup ∧
      ∀ earlier b later, as = earlier ++ b :: later →
        V (ts ++ (a :: earlier).flatMap declares) b) fun hfresh => ?_).of_iff fun _ => ?_
    · have hnames' : (builtinNames ++ (ts ++ [t]).map name).Nodup := by
        rw [List.map_append, ← List.append_assoc, List.map_singleton, ← List.concat_eq_append]
        exact List.Nodup.concat hfresh hnames
      have hrest := ih hfits hgood hnames'
      simp only [hrow] at hrest
      exact hrest
    · have hrows := distinct_row_cons (fun earlier b => V (ts ++ earlier.flatMap declares) b)
        a as (builtinNames ++ ts.map name) (name t) ((as.flatMap declares).map name)
      simp only [List.flatMap_nil, List.append_nil] at hrows
      rw [hall]
      exact hrows

theorem checks_globals (ds : List Decl) (hds : ∀ d ∈ ds, d.Whole)
    (hd : ∀ d ∈ ds, d.Plain) (hG : Decent G) (hapart : (builtinNames ++ G.map Var.name).Nodup) :
    (globals ds).Checks (·.Shows ⟨G, [], [], []⟩)
      (·.Shows ⟨G ++ ds.flatMap Decl.vars, [], [], []⟩) (fun _ => ())
      (fun _ => (builtinNames ++ (G ++ ds.flatMap Decl.vars).map Var.name).Nodup ∧
        ∀ (earlier : List Decl) (d : Decl) later, ds = earlier ++ d :: later →
          d.Valid ⟨G ++ earlier.flatMap Decl.vars, [], [], []⟩) := by
  refine checks_row (L := fun G l => l.Shows ⟨G, [], [], []⟩) (D := Decent)
    (V := fun G d => d.Valid ⟨G, [], [], []⟩) (fun _ => ?_) (fun G d hG hfit hapart => ?_) ds
    (fun d hmem => And.intro (hds d hmem) (hd d hmem)) hG hapart
  · exact checks_pure.of_iff fun _ => iff_of_true rfl trivial
  · obtain ⟨hwhole, hplain⟩ := hfit
    cases d with
    | gap g => exact hwhole.elim
    | mk constant x type init cl =>
      have hK : Proper ⟨G, [], [], []⟩ := proper_start [] hG hapart nofun
      refine ⟨_, rfl, decent_append.mpr ⟨hG, List.forall_mem_singleton.mpr hplain.1⟩,
        fun ds S p hrest => ?_⟩
      refine (checks_declaration (c := ⟨none, false⟩) hK (fun _ => ⟨rfl, rfl⟩) constant x type
        init cl hplain.1.1 hwhole).also ?_
      rintro ⟨hfresh, -⟩ ⟨slot, _ | a⟩
      · exact hrest hfresh
      · exact (hrest hfresh).through fun _ => checks_pure

theorem checks_functions (fs : List Syntax.Fn) (hfs : ∀ f ∈ fs, f.Whole) (hd : ∀ f ∈ fs, f.Plain)
    (hG : Decent G) (hapart : (builtinNames ++ G.map Var.name).Nodup)
    (hF : (builtinNames ++ F.map Heading.name).Nodup) :
    (functions fs).Checks (·.Lists G F) (·.Lists G (F ++ fs.flatMap Syntax.Fn.headings))
      (fun _ => ())
      (fun _ => (builtinNames ++ (F ++ fs.flatMap Syntax.Fn.headings).map Heading.name).Nodup ∧
        ∀ (earlier : List Syntax.Fn) (f : Syntax.Fn) later, fs = earlier ++ f :: later →
          f.Valid G (F ++ earlier.flatMap Syntax.Fn.headings)) := by
  refine checks_row (L := fun F l => l.Lists G F) (D := fun _ => True) (V := fun F f =>
    f.Valid G F) (fun _ => ?_) (fun F f _ hfit _ => ?_) fs (fun f hf => And.intro (hfs f hf)
    (hd f hf)) trivial hF
  · exact checks_pure.of_iff fun _ => iff_of_true rfl trivial
  · obtain ⟨hwhole, hplain⟩ := hfit
    match f with
    | .gap g => exact hwhole.elim
    | .mk x ps (.error g) => exact hwhole.elim
    | .mk x ps (.ok (type, body)) =>
      refine ⟨_, rfl, trivial, fun fs S p hrest => ?_⟩
      refine (checks_function hG hapart x ps type body hwhole hplain).also ?_
      rintro ⟨hfresh, -⟩ fn
      exact (hrest hfresh).through fun _ => checks_pure

end

/-- At the start nothing but the built-in functions is known. -/
theorem shows_start : ({} : State).ledger.Shows ⟨[], [], [], []⟩ where
  globals := rfl
  functions := rfl
  params := rfl
  locals := rfl
  valued := nofun

/-- **The walk through a program goes through just where the program is right.** -/
theorem checks_program (p : Syntax.Program) (hp : p.Whole) (hplain : p.Plain) :
    (program p).Checks (·.Shows ⟨[], [], [], []⟩) (fun _ => True) (fun _ => ())
      (fun _ => p.Valid) := by
  have hbuiltins : (builtinNames ++ ([] : List Var).map Var.name).Nodup := by decide
  have hglobals := checks_globals (G := []) p.decls hp.decls hplain.decls nofun hbuiltins
  refine ((hglobals.within (fun _ h => h) (fun _ h => ⟨h.globals, h.functions⟩)).also
    (S := (·.Lists (p.decls.flatMap Decl.vars) [])) (Q := fun _ =>
      (builtinNames ++ (p.functions.flatMap Syntax.Fn.headings).map Heading.name).Nodup ∧
        ∀ (earlier : List Syntax.Fn) (f : Syntax.Fn) later, p.functions = earlier ++ f :: later →
          f.Valid (p.decls.flatMap Decl.vars) (earlier.flatMap Syntax.Fn.headings))
    ?_).of_iff ?_
  · rintro ⟨hapart, -⟩ inits
    have hrest := checks_functions (F := []) p.functions hp.functions hplain.functions
      (Syntax.Program.decent hplain) hapart hbuiltins
    refine (hrest.also (Q := fun _ => True) ?_).of_iff ?_
    · intro _ fns
      refine .close hp.close (checks_get fun s _ => ?_)
      refine (checks_pure.within (fun _ h => h) (fun _ _ => trivial)).of_iff ?_
      intro _
      exact iff_of_true rfl trivial
    · intro _
      exact and_iff_left trivial
  · intro _
    constructor
    · rintro ⟨⟨hglobals, hdecls⟩, hnames, hfunctions⟩
      exact ⟨hglobals, hnames, hdecls, hfunctions⟩
    · intro h
      exact ⟨⟨h.globals_distinct, h.decls⟩, h.functions_distinct, h.functions⟩

end Typing

/-! ## Program texts -/

/-- A program text is accepted if its tree is walked through to the end. -/
theorem accepted_iff_walked {s : Source} :
    (∃ a, (analyse s).outcome = .ok a) ↔
      ∃ core t, Typing.Walk.Yields (Typing.program s.tree) {} core t := by
  constructor
  · rintro ⟨a, ha⟩
    obtain ⟨t, hwalk, -⟩ := walk_of_analyse ha
    exact ⟨a.core, t, hwalk⟩
  · rintro ⟨core, t, hwalk⟩
    cases houtcome : (analyse s).outcome with
    | ok a => exact ⟨a, rfl⟩
    | error d =>
      obtain ⟨f, t', token, hfault, -⟩ := walk_of_rejected houtcome
      cases hwalk.symm.trans hfault

/-- A program text whose tree is spelled by its tokens is accepted just where the tree is right. -/
theorem accepted_iff_valid {s : Source} (h : s.tree.Spells s.words) :
    (∃ a, (analyse s).outcome = .ok a) ↔ s.tree.Valid := by
  have hchecks := Typing.checks_program s.tree (Syntax.Program.whole s.row_words h) s.plain_tree
  rw [accepted_iff_walked]
  constructor
  · rintro ⟨core, t, hwalk⟩
    exact (hchecks.sound _ _ _ Typing.shows_start hwalk).1
  · intro hvalid
    obtain ⟨core, t, hwalk, -⟩ := hchecks.complete {} () Typing.shows_start hvalid
    exact ⟨core, t, hwalk⟩

/-- **Analysis decides the static semantics.** Tokens that can be derived from the grammar are those
of one tree, and the program text is accepted if and only if that tree is right. -/
theorem analysis_decides_the_static_semantics (s : Source)
    (h : Derives (.phrase .program) (s.tokens.map (·.token.kind))) :
    ∃ p : Syntax.Program, p.Spells s.words ∧ (∀ q : Syntax.Program, q.Spells s.words → q = p) ∧
      ((∃ a, (analyse s).outcome = .ok a) ↔ p.Valid) := by
  have hspells := Source.spells_of_derives h
  refine ⟨s.tree, hspells, ?_, accepted_iff_valid hspells⟩
  intro q hq
  exact (Syntax.Program.ofWords_eq hq).symm

/-- A program text in which a parameter hides a global, a local variable hides a built-in function,
and a variable that is assigned to in one block is read behind it. -/
def staticSample : Source where
  file := "sample"
  bytes := Text.bytesOf
    ("let k: int = getint(); fn f(k: int) -> int \x7b let getint: int; "
      ++ "while k < 9 \x7b getint = k; break; \x7d "
      ++ "if k \x7b return getint; \x7d else \x7b return f(k + 1); \x7d \x7d")

theorem analysis_decides_the_static_semantics_sample :
    Derives (.phrase .program) (staticSample.tokens.map (·.token.kind)) ∧
      ∃ p : Syntax.Program, p.Spells staticSample.words ∧ p.Valid := by
  obtain ⟨a, ha, htokens⟩ := exists_ok (r := (analyse staticSample).outcome)
    (p := fun _ => ∀ t ∈ staticSample.tokens, t.token.kind ≠ .invalid)
    (by
      rw [staticSample, Text.bytesOf_concat, Text.bytesOf_concat, Text.bytesOf_ofList]
      decide +kernel)
  obtain ⟨t, hwalk, -⟩ := walk_of_analyse ha
  have hderives : Derives (.phrase .program) (staticSample.tokens.map (·.token.kind)) :=
    Source.derives_of_whole (of_decide_eq_true htokens) (Source.whole_of_walk hwalk)
  obtain ⟨p, hspells, -, hvalid⟩ := analysis_decides_the_static_semantics staticSample hderives
  exact ⟨hderives, p, hspells, hvalid.mp ⟨a, ha⟩⟩

end TinyC
