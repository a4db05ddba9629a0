import TinyC.Proofs.Machine.Stores

/-!
# Constants keep their values

The entry function stores the initial values of the globals one after the other and then calls the
main function. It has no branches, so it does not come to an instruction twice (`Strides.past`).
Behind the store of a constant, its own stores are those of other globals, and no other function has
a store for the constant (`Fixed`). So no step changes the word of the constant any more
(`Strides.keeps_fixed`), and it is the same in all states from there on.
-/

namespace TinyC

open Core Machine

/-! ## The stores of the entry function -/

namespace Core

/-- The index of the store of an initial value in the code of the entry function, behind other
initial values. -/
def initStore (before : List Init) (value : Expr) : Nat :=
  (before.flatMap Init.code).length + 1 + value.code.length

theorem plan_initBlock_append (is js : List Init) :
    (initBlock (is ++ js)).plan = (initBlock is).plan ++ (initBlock js).plan := by
  induction is with
  | nil => rfl
  | cons i is ih => simp [initBlock, Block.plan, Stmt.terminates, deadIf, ih]

theorem places_initBlock (is : List Init) :
    (initBlock is).places = is.map fun i => ⟨.global, i.slot⟩ := by
  induction is with
  | nil => rfl
  | cons i is ih => simp [initBlock, Block.places, Stmt.places, ih]

theorem length_plan_initBlock (is : List Init) :
    (initBlock is).plan.length = (is.flatMap Init.code).length := by
  rw [Block.length_plan, ← code_initBlock is 0 ⟨0, 0⟩, Block.length_code]

/-- A global gets its value from one of the initial values: none behind it is for the global, and no
function assigns it. -/
structure Fixed (p : Program) (n : Nat) (before : List Init) (value : Expr) (after : List Init) :
    Prop where
  inits : p.inits = before ++ ⟨n, value⟩ :: after
  later : ∀ i ∈ after, i.slot ≠ n
  unassigned : ∀ fn ∈ p.functions, ⟨.global, n⟩ ∉ fn.body.places

namespace Fixed

variable {p : Program} {n : Nat} {before after : List Init} {value : Expr}
  (h : Fixed p n before value after)
include h

theorem entryCode_eq :
    p.entryCode = before.flatMap Init.code ++ (Init.code ⟨n, value⟩ ++
      (after.flatMap Init.code ++ mainCode p.main)) := by
  simp [Program.entryCode, h.inits]

theorem entryPlan_eq :
    p.entryPlan = (initBlock before).plan ++ (storePlan ⟨.global, n⟩ value ++
      ((initBlock after).plan ++ mainPlan p.main)) := by
  have hcons : (initBlock (⟨n, value⟩ :: after)).plan
      = storePlan ⟨.global, n⟩ value ++ (initBlock after).plan := rfl
  rw [Program.entryPlan, h.inits, plan_initBlock_append, hcons, List.append_assoc,
    List.append_assoc]

/-- The initial value is stored where its code ends. -/
theorem code_store : p.entryCode[initStore before value]? = some ⟨.store64, 0⟩ := by
  have hall : Sits p.entryCode (before.flatMap Init.code ++ (Init.code ⟨n, value⟩ ++
      (after.flatMap Init.code ++ mainCode p.main))) 0 := by
    rw [← h.entryCode_eq]
    exact List.prefix_refl _
  have hstore := hall.right.left.tail.right.head
  rwa [Nat.zero_add] at hstore

/-- The store finds the address of the global. -/
theorem station_store (Γ : Env) :
    (p.entryScript Γ).station (initStore before value)
      = some ⟨[.value value.type, .address ⟨.global, n⟩], false⟩ := by
  have hall : Sits (p.entryScript Γ).plan ((initBlock before).plan ++
      (storePlan ⟨.global, n⟩ value ++ ((initBlock after).plan ++ mainPlan p.main))) 0 := by
    rw [← h.entryPlan_eq]
    exact List.prefix_refl _
  have hstore := Script.station_of_sits hall.right.left.tail.right
  rwa [Nat.zero_add, length_plan_initBlock, Expr.length_plan] at hstore

/-- Behind it the entry function stores to other globals. -/
theorem other_of_entry {Γ : Env} {j : Nat} {i : Instr}
    {st : Station} (hj : initStore before value < j) (hi : (p.entryScript Γ).code[j]? = some i)
    (hop : i.op = .store64) (hst : (p.entryScript Γ).station j = some st) :
    ∃ type q, q ≠ ⟨.global, n⟩ ∧ st.cells = [.value type, .address q] := by
  have hafter := (initBlock after).marks 0 ⟨0, 0⟩
  rw [code_initBlock, places_initBlock] at hafter
  have hrest := hafter.add (marks_main _ p.main)
  have hcode := h.entryCode_eq
  have hplan := h.entryPlan_eq
  rw [← List.append_assoc] at hcode hplan
  have hlength : (before.flatMap Init.code ++ Init.code ⟨n, value⟩).length
      = initStore before value + 1 := by
    simp only [Init.code, Place.store, initStore, List.length_append, List.length_cons,
      List.length_nil]
    omega
  have hmarks : ((initBlock before).plan ++ storePlan ⟨.global, n⟩ value).length
      = initStore before value + 1 := by
    have hstore := (marks_store (List.mem_singleton_self (⟨.global, n⟩ : Place)) value).length_eq
    rw [← hlength, List.length_append, List.length_append, length_plan_initBlock, hstore]
    rfl
  replace hi : p.entryCode[j]? = some i := hi
  replace hst : (p.entryPlan[j]?).bind Mark.station = some st := hst
  rw [hcode, List.getElem?_append_right (by omega), hlength] at hi
  rw [hplan, List.getElem?_append_right (by omega), hmarks] at hst
  rw [← List.append_assoc] at hrest
  have hfound := getElem?_of_prefix (List.prefix_append _ [⟨.nop, 0⟩]) hi
  obtain ⟨type, q, hq, hcells⟩ := hrest.store hfound hop hst
  refine ⟨type, q, ?_, hcells⟩
  rintro rfl
  rcases List.mem_cons.mp hq with hq | hq
  · cases hq
  · obtain ⟨init, hinit, heq⟩ := List.mem_map.mp hq
    exact h.later init hinit (congrArg Place.slot heq)

/-- The other functions never store to the global. -/
theorem other_of_function {fn : Fn} (hfn : fn ∈ p.functions)
    {Γ : Env} {j : Nat} {i : Instr} {st : Station} (hi : (fn.script Γ).code[j]? = some i)
    (hop : i.op = .store64) (hst : (fn.script Γ).station j = some st) :
    ∃ type q, q ≠ ⟨.global, n⟩ ∧ st.cells = [.value type, .address q] := by
  obtain ⟨type, q, hq, hcells⟩ := fn.marks.store hi hop hst
  refine ⟨type, q, ?_, hcells⟩
  rintro rfl
  rcases List.mem_cons.mp hq with hq | hq
  · cases hq
  · exact h.unassigned fn hfn hq

end Fixed

end Core

/-! ## Runs behind the store -/

/-- Frames of the entry function have come past an index of its code. -/
def Past (s : Setup) (q : Nat) (m : Machine) : Prop :=
  ∀ f ∈ m.frames, s.module.functions[0]? = some f.routine → q < f.pc

section

variable {π : Type} {s : Setup} {t : ProgramTables π} {p : Core.Program} {f : Frame}
  {outer : List Frame} {k q n : Nat} {g : Function π} {σ : Script} {st : Station}
  {below : List Slot} {m x y z w : Machine} {i : Instr} {slots : List Slot}
  {before after : List Init} {value : Expr}

/-- The entry function is the one at slot zero. -/
theorem Scripted.entry_iff (hl : Laid s t p) (h : Scripted s t p k g σ) :
    s.module.functions[0]? = some g.routine ↔ k = 0 := by
  constructor
  · intro hroutine
    obtain ⟨g₀, hholds, -⟩ := hl.entry
    have hsame := hholds.routine
    rw [hroutine] at hsame
    rw [← h.holding.slot, Option.some.inj hsame, hholds.slot]
  · rintro rfl
    exact h.holding.routine

/-- **The entry function does not go back**, and it is not entered again. -/
theorem Strides.past (hl : Laid s t p) (h : Strides s t p x z f outer k g σ st below i slots)
    (hpast : Past s q x) : Past s q z := by
  have hseated := h.poised.seated
  have hcode := h.planned
  obtain ⟨hinner, houter⟩ : (s.module.functions[0]? = some f.routine → q < f.pc) ∧
      ∀ f' ∈ outer, s.module.functions[0]? = some f'.routine → q < f'.pc := by
    rw [Past, h.frames] at hpast
    exact List.forall_mem_cons.mp hpast
  have honward := h.onward
  rw [Past]
  generalize z.frames = frames at honward ⊢
  generalize z.memory.toList = l at honward
  cases honward with
  | @turn q' st' l' hturns =>
    -- of the ways to turn, those that lead elsewhere than to the next instruction are branches
    refine List.forall_mem_cons.mpr ⟨fun hroutine => ?_, houter⟩
    have hlt := hinner hroutine
    have hroutine : s.module.functions[0]? = some f.routine := hroutine
    rw [hseated.routine, hseated.scripted.entry_iff hl] at hroutine
    subst hroutine
    cases hseated.scripted.script
    have hop := straight_or_call (List.mem_of_getElem? hcode)
    cases hturns with
    | push | move | result => exact Nat.lt_succ_of_lt hlt
    | branch =>
      rcases hop with ⟨hop, -⟩ | hop
      · exact absurd rfl hop
      · cases hop
    | test hor =>
      rcases hop with ⟨-, htrue, hfalse, -⟩ | hcall
      · rcases hor with rfl | rfl <;> contradiction
      · rcases hor with rfl | rfl <;> cases hcall
  | @enter slot g' σ' cells hslot hcall hscripted =>
    refine List.forall_mem_cons.mpr ⟨fun hroutine => ?_, List.forall_mem_cons.mpr
      ⟨fun hroutine => Nat.lt_succ_of_lt (hinner hroutine), houter⟩⟩
    have hzero := (hscripted.entry_iff hl).mp hroutine
    omega
  | leave => exact houter

/-- **No step behind its store changes the word of a fixed global.** -/
theorem Strides.keeps_fixed (h : Strides s t p x z f outer k g σ st below i slots)
    (hfixed : Fixed p n before value after) (hn : n < t.globals.rows.length)
    (hlong : x.memory.size < 2 ^ 63) (hstep : x.step s = .next z)
    (hpast : Past s (initStore before value) x) : z.memory[n]? = x.memory[n]? := by
  have hseated := h.poised.seated
  have hcode := h.planned
  refine h.keeps_global hlong hstep hn fun hop type cells hcells => ?_
  -- the address that the store finds is that of another place
  have hother : ∃ type q, q ≠ ⟨.global, n⟩ ∧ st.cells = [.value type, .address q] := by
    have hscript := hseated.scripted.script
    cases k with
    | zero =>
      have hlt : initStore before value < f.pc := hpast f (h.frames ▸ List.mem_cons_self) (by
        rw [hseated.routine]
        exact hseated.scripted.holding.routine)
      cases hscript
      exact hfixed.other_of_entry hlt hcode hop h.poised.station
    | succ k =>
      obtain ⟨fn, hfn, rfl⟩ := Option.map_eq_some_iff.mp hscript
      exact hfixed.other_of_function (List.mem_of_getElem? hfn) hcode hop h.poised.station
  obtain ⟨type', q, hq, heq⟩ := hother
  rw [heq] at hcells
  cases hcells
  exact hq rfl

/-- The store of an initial value puts it into its slot. -/
theorem Strides.stores_init (h : Strides s t p x z f outer k g σ st below i slots)
    (hl : Laid s t p) (hfixed : Fixed p n before value after) (hlong : x.memory.size < 2 ^ 63)
    (hstep : x.step s = .next z) (hentry : s.module.functions[0]? = some f.routine)
    (hpc : f.pc = initStore before value) :
    Past s (initStore before value) z ∧
      ∃ v, x.memory.back? = some v ∧ z.memory[n]? = some v := by
  have hseated := h.poised.seated
  have hcode := h.planned
  have hstation := h.poised.station
  rw [hseated.routine, hseated.scripted.entry_iff hl] at hentry
  subst hentry
  -- the entry function has no caller, so its frame is the only one
  have houter : outer = [] := by
    cases h.poised.beneath with
    | globals => rfl
    | caller hslot => exact absurd hslot (Nat.lt_irrefl 0)
  cases hseated.scripted.script
  rw [hpc] at hcode hstation
  cases hcode.symm.trans hfixed.code_store
  cases hstation.symm.trans (hfixed.station_store (t.env g))
  obtain ⟨type, q, cells, slot, hst, hi, hq, hframes⟩ := h.stores rfl
  cases hst
  obtain ⟨l, v, hx, hz, hlt⟩ := h.stores_at rfl hi hq hlong hstep
  refine ⟨?_, v, ?_, ?_⟩
  · rw [Past, hframes, houter]
    refine List.forall_mem_singleton.mpr fun _ => ?_
    show initStore before value < f.pc + 1
    omega
  · rw [Array.back?_eq_getElem?, ← Array.getElem?_toList, hx]
    have hsize : x.memory.size = l.length + 2 := by
      rw [← Array.length_toList, hx]
      simp
    rw [hsize, List.getElem?_append_right (by omega)]
    simp
  · rw [← Array.getElem?_toList, hz]
    exact List.getElem?_set_self hlt

/-- **The word of a fixed global is the same in every state behind its store.** -/
theorem fixed_passes (hl : Laid s t p) (ha : t.Addressable) (hm : m.memo.Sound s.module)
    (hfixed : Fixed p n before value after) (hn : n < t.globals.rows.length)
    (hy : Passes s (m.start s) y) (hstep : y.step s = .next z)
    (hpast : Past s (initStore before value) z) (hw : Passes s z w) :
    Passes s (m.start s) w ∧ Past s (initStore before value) w ∧ w.memory[n]? = z.memory[n]? := by
  induction hw with
  | start hsmall => exact ⟨.next hy hstep hsmall, hpast, rfl⟩
  | next _ hstep' hsmall ih =>
    obtain ⟨hx, hpast', hvalue⟩ := ih
    obtain ⟨_, _, _, _, _, _, _, _, _, hstrides⟩ := strides_passes hl ha hm hx hstep'
    exact ⟨.next hx hstep' hsmall, hstrides.past hl hpast',
      (hstrides.keeps_fixed hfixed hn hx.small hstep' hpast').trans hvalue⟩

/-- A run that ends leaves the globals as they were. -/
theorem Settled.keeps_halt (h : Settled s t p x slots) (hn : n < t.globals.rows.length)
    {stop : Option Stop} (hstep : x.step s = .halt y stop) : y.memory[n]? = x.memory[n]? := by
  obtain ⟨f, outer, k, g, σ, st, below, hframes, hpoised, rfl, hfilled⟩ := h
  have hle := hpoised.globals_le
  have hfloor := hpoised.seated.floor
  exact (Machine.keeps_halt hframes (hpoised.floor_le hfilled) hstep).words n (by omega)

end

/-- **Constants keep their values.** A global declared as a constant has a slot of its own, and the
entry function stores its initial value there. The word that is stored is the one in the slot in
every state behind the store, and in the last state too. -/
theorem constants_keep_their_values {p : Program} {a : Analysis} (ha : p.analyse.result = .ok a)
    (hsize : a.tables.Addressable) (s : Setup) (hs : s.module = a.tables.module) {m : Machine}
    (hm : Reached s.module m) {k : Nat} {x : Syntax.Name} {type : Ty} {init : Option Syntax.Expr}
    {cl : Syntax.Close} (hd : p.source.tree.decls[k]? = some (.mk true x type init cl)) :
    ∃ e before value after, a.tables.globals.rows[Builtin.all.length + k]? = some e ∧
      e.name = x.text ∧ e.isConstant = true ∧
      a.core.inits = before ++ ⟨Builtin.all.length + k, value⟩ :: after ∧
      a.core.entryCode[initStore before value]? = some ⟨.store64, 0⟩ ∧
      ∀ y z f outer, Passes s (m.start s) y → y.frames = f :: outer →
        s.module.functions[0]? = some f.routine → f.pc = initStore before value →
        y.step s = .next z →
        ∃ v, y.memory.back? = some v ∧ ∀ w, Passes s z w →
          w.memory[Builtin.all.length + k]? = some v ∧
            ∀ last stop, w.step s = .halt last stop →
              last.memory[Builtin.all.length + k]? = some v := by
  have hl : Laid s a.tables a.core := Program.laid ha hsize hs
  have hmemo : m.memo.Sound s.module := hm.sound
  obtain ⟨e, v, before, after, he, hname, hconst, -, -, hsome, hgiven, hinits, -, hlater⟩ :=
    Program.declared ha hd
  obtain ⟨value, rfl⟩ := Option.isSome_iff_exists.mp (hsome.trans (hgiven rfl))
  have hn := (List.getElem?_eq_some_iff.mp he).1
  have hfixed : Fixed a.core (Builtin.all.length + k) before value after := by
    refine ⟨hinits, fun i hi => Nat.ne_of_gt (hlater i hi), fun fn hfn hassigned => ?_⟩
    obtain ⟨j, hj⟩ := List.mem_iff_getElem?.mp hfn
    rw [Program.not_constant_of_assigned ha hj hassigned he] at hconst
    cases hconst
  refine ⟨e, before, value, after, he, hname, hconst, hinits, hfixed.code_store, ?_⟩
  intro y z f outer hy hframes hentry hpc hstep
  obtain ⟨f', outer', _, _, _, _, _, _, _, hstrides⟩ := strides_passes hl hsize hmemo hy hstep
  cases hframes.symm.trans hstrides.frames
  obtain ⟨hpast, v, hv, hz⟩ := hstrides.stores_init hl hfixed hy.small hstep hentry hpc
  refine ⟨v, hv, fun w hw => ?_⟩
  obtain ⟨hpasses, -, hsame⟩ := fixed_passes hl hsize hmemo hfixed hn hy hstep hpast hw
  refine ⟨hsame.trans hz, fun last stop hhalt => ?_⟩
  obtain ⟨slots', hsettled'⟩ := settled_passes hl hsize hmemo hpasses
  exact (hsettled'.keeps_halt hn hhalt).trans (hsame.trans hz)

/-- A program with a constant whose name a parameter and a local variable take and assign. -/
def shadowing : Program where
  name := "shadowing"
  bytes := Text.bytesOf
    ("const k: int = 7; let n: int = 1; "
      ++ "fn next(k: int) -> int \x7b k = k + n; n = k; return k; \x7d "
      ++ "fn main() -> void \x7b putint(next(k)); let k: int = 3; k = k + n; putint(k); \x7d")

theorem shadowing_checked : shadowing.analyse.result.toOption.any (fun a =>
    let s : Setup := ⟨"shadowing", a.tables.module, 1000, false, false⟩
    let ys := states s 60 (Machine.start s { input := ⟨[], false⟩ })
    shadowing.source.tree.decls[0]?.any (· matches .mk true ..) && decide a.tables.Short &&
      decide (a.core.inits.map (fun i => (i.slot, i.code.length)) = [(8, 3), (9, 3)]) &&
      ys.all (fun y => decide (y.memory.size < 2 ^ 63)) && ys.any fun y =>
        match y.frames, y.step s with
        | f :: _, .next z =>
          decide (a.tables.module.functions[0]? = some f.routine) && decide (f.pc = 2) &&
            decide (y.memory.back? = some 7) &&
            (states s 60 z).all (fun w => decide (w.memory.size < 2 ^ 63)) &&
            (states s 60 z).any fun w => (w.step s matches .halt ..)
        | _, _ => false) = true := by
  rw [shadowing, Text.bytesOf_concat, Text.bytesOf_concat, Text.bytesOf_ofList]
  decide +kernel

/-- A run of the program stores the constant and comes to its end. -/
theorem shadowing_runs : ∃ s : Setup, ∃ a x type init cl y z w last stop f outer,
    shadowing.analyse.result = .ok a ∧ s = ⟨"shadowing", a.tables.module, 1000, false, false⟩ ∧
    a.tables.Short ∧
    shadowing.source.tree.decls[0]? = some (Syntax.Decl.mk true x type init cl) ∧
    a.core.inits.map (fun i => (i.slot, i.code.length)) = [(8, 3), (9, 3)] ∧
    Passes s (Machine.start s { input := ⟨[], false⟩ }) y ∧
    y.frames = f :: outer ∧ a.tables.module.functions[0]? = some f.routine ∧ f.pc = 2 ∧
    y.memory.back? = some 7 ∧ y.step s = .next z ∧ Passes s z w ∧
    w.step s = .halt last stop := by
  obtain ⟨a, ha, h⟩ := exists_ok shadowing_checked
  simp only [Bool.and_eq_true, List.all_eq_true, List.any_eq_true, Option.any_eq_true,
    decide_eq_true_eq] at h
  obtain ⟨⟨⟨⟨⟨d, hd, hconst⟩, hshort⟩, hinits⟩, hsmall⟩, y, hy, h⟩ := h
  split at hconst
  · split at h
    · rename_i f outer z hframes hstep
      simp only [Bool.and_eq_true, List.all_eq_true, List.any_eq_true, decide_eq_true_eq] at h
      obtain ⟨⟨⟨⟨hentry, hpc⟩, hback⟩, hlater⟩, w, hw, hends⟩ := h
      split at hends
      · rename_i last stop hhalt
        exact ⟨_, a, _, _, _, _, y, z, w, last, stop, f, outer, ha, rfl, hshort, hd, hinits,
          (Passes.start (hsmall _ List.mem_cons_self)).of_states hy hsmall, hframes, hentry, hpc,
          hback, hstep, (Passes.start (hlater _ List.mem_cons_self)).of_states hw hlater, hhalt⟩
      · cases hends
    · cases h
  · cases hconst

theorem constants_keep_their_values_shadowing :
    ∃ (a : Analysis) (y z w last : Machine) (stop : Option Stop),
      shadowing.analyse.result = .ok a ∧
      y.step ⟨"shadowing", a.tables.module, 1000, false, false⟩ = .next z ∧
      Passes ⟨"shadowing", a.tables.module, 1000, false, false⟩ z w ∧
      w.step ⟨"shadowing", a.tables.module, 1000, false, false⟩ = .halt last stop ∧
      y.memory.back? = some 7 ∧ w.memory[8]? = some 7 ∧ last.memory[8]? = some 7 := by
  obtain ⟨_, a, x, type, init, cl, y, z, w, last, stop, f, outer, ha, rfl, hshort, hd, hinits, hy,
    hframes, hentry, hpc, hback, hstep, hw, hhalt⟩ := shadowing_runs
  obtain ⟨e, before, value, after, -, -, -, hsplit, -, hkeeps⟩ :=
    constants_keep_their_values ha hshort.addressable
      ⟨"shadowing", a.tables.module, 1000, false, false⟩ rfl
      (m := { input := ⟨[], false⟩ }) (.fresh rfl) hd
  -- the constant is the first of the globals that are set
  have hindex : initStore before value = 2 := by
    rw [hsplit] at hinits
    cases before with
    | nil =>
      have hlength : (Init.code ⟨8, value⟩).length = 3 :=
        congrArg Prod.snd (List.cons.inj hinits).1
      simp only [Init.code, Core.Place.store, List.length_cons, List.length_append,
        List.length_nil] at hlength
      simp only [initStore, List.flatMap_nil, List.length_nil]
      omega
    | cons b bs => cases bs <;> simp [show Builtin.all.length = 8 from rfl] at hinits
  obtain ⟨v, hv, hall⟩ := hkeeps y z f outer hy hframes hentry (hpc.trans hindex.symm) hstep
  cases hback.symm.trans hv
  obtain ⟨hvalue, hlast⟩ := hall w hw
  exact ⟨a, y, z, w, last, stop, ha, hstep, hw, hhalt, hback, hvalue, hlast last stop hhalt⟩

end TinyC
