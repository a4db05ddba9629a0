import TinyC.Proofs.Machine.Laid
import TinyC.Proofs.Machine.Values

/-!
# Code of statements and functions

The code of a statement leads to the store that the statement leaves (`carries_store`), and a call
of a function does what it means to any depth (`callsMean`): for each depth this follows from the
depth below, since a body calls functions one deeper. With the entry function on top, a run of the
machine computes what the program means, or it is lost for want of addresses (`leads_program`).
-/

namespace TinyC.Machine

open Core

/-- Where the machine is behind a return: of the variables of the function only its result is
left. -/
structure Gone (s : Setup) (r : Routine) (outer : List Frame) (under : List UInt64) (m : Machine)
    (st : Store) : Prop where
  synced : Synced s m outer (st.globals ++ under ++ st.args.take r.returns) st
  globals : st.globals.length = s.module.globals.size
  args : st.args.length = r.returns + r.params
  small : m.memory.size < 2 ^ 63

/-- A machine that runs a function with the variables of a store. -/
def storeSite (s : Setup) (n d : Nat) (f : Frame) (outer : List Frame) (under : List UInt64) :
    Site Store where
  At := Ready s n d f outer under []
  On := Ready s n d f outer under []
  Left _ := Gone s f.routine outer under

section

variable {s : Setup} {P : Library} {Γ : Env} {n d : Nat} {f : Frame} {outer : List Frame}
  {under ops : List UInt64} {q : Nat} {h : List Machine} {m : Machine} {st : Store} {i : Instr}

/-- A branch leads to its target. -/
theorem Ready.hop (hr : Ready s n d f outer under [] q h m st)
    (hlong : f.routine.code.size < 2 ^ 63) {p : Nat}
    (hcode : f.routine.code[q]? = some (branch q p)) (hp : p ≤ f.routine.code.size) :
    ∃ m₁, m.act s = .next m₁ ∧ Ready s n d f outer under [] p (h ++ [m]) m₁ st := by
  obtain ⟨m₁, hact, hholds, hsize⟩ := hr.holds.moved hcode [] p fun z hz => by
    simp only [branch, execute, jump_branch hlong hp, setFrame, withMemory, hz, List.tail_cons]
  refine ⟨m₁, hact, hholds (hsize ▸ hr.holds.length_lt), ?_⟩
  have := hr.deep
  simp only [List.length_append]
  omega

/-- A return leaves the result behind. -/
theorem Ready.leave (hr : Ready s n d f outer under ops q h m st)
    (hcode : f.routine.code[q]? = some ⟨.ret, 0⟩) {α : Type} {a : α} :
    (watchStore s n).Leads h m (.ok a, st) fun _ _ => Gone s f.routine outer under := by
  have hh := hr.holds
  have hsize := hh.size_eq
  have hsmall := hh.small
  have hargs := hh.args
  have hat := hh.argsAt
  simp only [floorWords, List.length_append] at hsize
  have hlt : f.args + f.routine.returns < 2 ^ 63 := by omega
  have hact := act_like (s := s) hh.synced.frames hcode (.refl _)
  rw [Frame.next_at] at hact
  have hpos : ¬Int64.ofNat (f.args + f.routine.returns) < 0 :=
    Int64.not_lt.mpr (Int64.zero_le_ofNat_of_lt hlt)
  simp only [execute, Machine.leave, Frame.at, ← Int64.ofNat_add, hpos, if_false,
    Int64.toNatClampNeg_ofNat_of_lt hlt, List.tail_cons, done] at hact
  obtain ⟨m₁, hact, hlike⟩ := hact
  have hmemory : m₁.memory.toList = st.globals ++ under ++ st.args.take f.routine.returns := by
    have hwords : floorWords under st ++ ops
        = (st.globals ++ under) ++ (st.args ++ (st.locals ++ ops)) := by
      simp only [floorWords, List.append_assoc]
    have hkept : f.args + f.routine.returns = (st.globals ++ under).length + f.routine.returns := by
      rw [List.length_append, hat]
    rw [hlike.memory, Array.toList_shrink, hh.synced.memory, hwords, hkept,
      List.take_length_add_append, List.take_append_of_le_length (by omega)]
  refine Watch.leads_step hact (Watch.leads_now ⟨⟨hlike.frames, hmemory,
    hlike.input.trans hh.synced.input, hlike.output.trans hh.synced.output,
    hlike.memo ▸ hh.synced.memo⟩, hh.globals, hh.args, ?_⟩)
  rw [← Array.length_toList, hmemory]
  simp only [List.length_append, List.length_take]
  omega

/-- The code of an assignment stores the value of its expression. -/
theorem leads_store (ha : Agrees s P Γ f.routine) (hcalls : CallsMean s P n d) {p : Core.Place}
    {e : Expr} (he : e.Typed Γ) (hvoid : e.type ≠ .void)
    (hp : ∀ ops q m st, Holds s f outer under ops q m st → HasPlace st p)
    (hcode : Sits f.routine.code.toList (p.store e) q)
    (hr : Ready s n d f outer under [] q h m st) :
    (watchStore s n).Leads h m
      ((e.eval (P.meaning n d) >>= fun x => modify (·.write p x)).outcome st)
      fun _ => Ready s n d f outer under [] (q + (p.store e).length) := by
  refine hr.operands hcode.instr [UInt64.ofNat (addressOf f p)] (fun z => ?_) fun m₁ hr₁ => ?_
  · rw [hr.holds.execute_address (hp _ _ _ _ hr.holds), List.append_nil]
  refine (leads_expr ha hcalls e he _ _ hcode.tail.left _ m₁ st hr₁).bind
    fun x h₂ m₂ st₂ _ hx => ?_
  have hr₂ := hx.operand hvoid
  rw [show q + (p.store e).length = q + 1 + e.code.length + 1 by simp [Core.Place.store]; omega]
  exact Ready.store (hp _ _ _ _ hr₂.holds) hr₂ hcode.tail.right.instr

/-- The machine carries what single statements and conditions mean. -/
theorem carries_store (ha : Agrees s P Γ f.routine) (hcalls : CallsMean s P n d)
    (hlong : f.routine.code.size < 2 ^ 63) (starts : List Nat) :
    Carries (watchStore s n) (storeLeaves (P.meaning n d)) Γ f.routine.code.toList starts
      (storeSite s n d f outer under) where
  mark := fun {_ _ _ x} _ hat => ⟨x, rfl, hat⟩
  settle := fun _ hat => hat
  late := fun _ => trivial
  hop := by
    intro q r h m x hcode hr hon
    rw [Array.getElem?_toList] at hcode
    rw [Array.length_toList] at hr
    exact Ready.hop hon hlong hcode hr
  assign := by
    intro place e b q h m x hs hcode _ hon
    obtain ⟨he, hplace, htype⟩ := hs
    exact leads_store ha hcalls he (ne_void_of_isNumeric htype)
      (fun _ _ _ _ hh => ha.hasPlace hh hplace) hcode hon
  call := by
    intro g as b q h m x hs hcode _ hon
    have hsplit : callCode g as
        = (Expr.call g as).code ++ (if g.result = .void then [] else [⟨.pop, 0⟩]) := by
      simp [callCode, Expr.code]
    rw [hsplit] at hcode ⊢
    rw [List.length_append, ← Nat.add_assoc]
    refine (leads_expr ha hcalls (.call g as) hs [] q hcode.left h m x hon).bind
      fun y h₁ m₁ st₁ _ hy => ?_
    by_cases hvoid : g.result = .void
    · have hr := hy.ready
      simp only [Expr.type, hvoid, pushed, if_true, List.append_nil] at hr
      rw [if_pos hvoid]
      exact Watch.leads_now hr
    · have hpop := hcode.right
      rw [if_neg hvoid] at hpop ⊢
      exact (hy.operand hvoid).drop hpop.instr
  ret := by
    intro e b q h m x hs hcode _ hon
    cases e with
    | none => exact Ready.leave hon hcode.instr
    | some e =>
      obtain ⟨he, htype, hvoid⟩ := hs
      have hsplit : returnCode (some e) = Core.Place.store ⟨.param, 0⟩ e ++ [⟨.ret, 0⟩] := by
        simp [returnCode, Core.Place.store, Core.Place.address]
      rw [hsplit] at hcode
      have hresult : 0 < f.routine.returns := by
        rw [← ha.returns]
        cases hΓ : Γ.result with
        | void => exact absurd hΓ hvoid
        | _ => decide
      refine (leads_store ha hcalls he (htype ▸ hvoid) (fun _ _ _ st hh => ?_) hcode.left
        hon).andThen fun _ h' m' st' _ hr => hr.leave hcode.right.instr
      show 0 < st.args.length
      rw [hh.args]
      omega
  test := by
    intro c q h m x hc hcode hend _ hon
    rw [Array.length_toList] at hend
    exact leads_cond ha hcalls hc hcode hlong hend hon

end

/-! ## Functions -/

/-- What the functions of a program are made of in a module. -/
def library (p : Core.Program) (module : Module) : Library where
  functions := p.functions
  locals slot := ((module.functions[slot]?).map Routine.locals).getD 0
  texts := textOf module

section

variable {π : Type} {s : Setup} {t : ProgramTables π} {p : Core.Program} {n d : Nat}

/-- The names of the built-in functions are where they are looked for. -/
theorem builtinAt_slot (hl : Laid s t p) (b : Builtin) :
    builtinAt s.module (Int64.ofNat b.slot) = .ok b := by
  obtain ⟨e, he, htype, htext⟩ := hl.describes.builtins b
  have hglobal : s.module.globals[b.slot]? = some e.global := by
    rw [hl.module]
    simp [ProgramTables.module, he]
  have hslot : (Int64.ofNat b.slot).toInt = b.slot := by cases b <;> rfl
  have hsize : ¬s.module.globals.size ≤ b.slot :=
    Nat.not_le.mpr (Array.getElem?_eq_some_iff.mp hglobal).1
  have hdata : e.global.data = Text.bytesOf b.name := by
    rw [Entry.global, Entry.data, if_pos htype, htext]
  have hfound : Builtin.ofBytes? (Text.bytesOf b.name) = some b := by
    cases b <;> decide +kernel
  have hneg : ¬((b.slot : Int) < 0) := by omega
  simp only [builtinAt, hslot, Int.toNat_natCast, hglobal, hsize, hneg, or_self, if_false,
    Option.map_some, Option.getD_some, hdata, hfound]

/-- The environment of a row lists what its function finds in the module. -/
theorem agrees_of_holding (hl : Laid s t p) {k : Nat} {code : List Instr} {g : Function π}
    (hg : Holding s t k code g) : Agrees s (library p s.module) (t.env g) g.routine where
  globals := by
    rw [hl.module]
    simp [ProgramTables.env, ProgramTables.module]
  params := hg.params.symm
  returns := rfl
  locals := by
    rw [Function.routine, hg.locals]
    simp [ProgramTables.env]
  functions := by
    intro slot types result hslot hsignature
    obtain ⟨j, rfl⟩ : ∃ j, slot = j + 1 := ⟨slot - 1, by omega⟩
    simp only [ProgramTables.env, List.getElem?_map, Option.map_eq_some_iff] at hsignature
    obtain ⟨g', hg', heq⟩ := hsignature
    obtain ⟨fn, hfn, hholds, htyped⟩ := hl.function_of_row hg'
    cases heq
    exact ⟨fn, g'.routine, hfn, htyped.result, hholds.routine, hholds.params, rfl⟩
  few := hl.size_functions
  builtins := builtinAt_slot hl
  texts := rfl

/-- What a function returns is the first of its arguments, if it returns anything. -/
theorem take_result {type : Ty} {xs : List UInt64} (h : type.slots ≤ xs.length) :
    xs.take type.slots = pushed type (xs.headD 0) := by
  cases type with
  | void => rfl
  | _ =>
    cases xs with
    | nil => cases h
    | cons x xs => rfl

/-- What a call comes to: the body of the function runs in variables of its own. -/
theorem outcome_call {P : Library} {k : Nat} {fn : Fn} (hfn : P.functions[k]? = some fn)
    (xs : List UInt64) (st : Store) :
    (P.call n (d + 1) (k + 1) xs).outcome st =
      (fn.body.exec (storeLeaves (P.meaning n d)) n 0 >>= fun _ => comeBack st).outcome
        { st with
          args := List.replicate fn.type.slots 0 ++ xs
          locals := List.replicate (P.locals (k + 1)) 0 } := by
  simp only [Library.call, Nat.add_sub_cancel, hfn]
  rw [Act.outcome_bind, Act.outcome_get]
  dsimp only
  rw [Act.outcome_bind, Act.outcome_set]
  rfl

/-- A function that is called does what it means, if the functions it calls do. -/
theorem callsMean_succ (hl : Laid s t p) (hcalls : CallsMean s (library p s.module) n d) :
    CallsMean s (library p s.module) n (d + 1) := by
  intro slot fn r xs a l outer under h m st hslot hfn hr hholds hdeep
  obtain ⟨k, rfl⟩ : ∃ k, slot = k + 1 := ⟨slot - 1, by omega⟩
  have hfn : p.functions[k]? = some fn := hfn
  obtain ⟨g, hg, htyped⟩ := hl.row hfn
  rw [hg.routine] at hr
  cases hr
  have hagrees := agrees_of_holding hl hg
  have hcarries : Carries (watchStore s n) (storeLeaves ((library p s.module).meaning n d))
      (t.env g) g.routine.code.toList (fn.body.starts 0)
      (storeSite s n d ⟨g.routine, 0, a, l⟩ outer under) :=
    carries_store (f := ⟨g.routine, 0, a, l⟩) hagrees hcalls hg.long _
  have hbody := follows_block hcarries fn.body htyped.body ⟨hg.sits_body, fun q _ _ => Iff.rfl⟩
    nofun h m _
    ⟨hholds, hdeep⟩
  have hlocals : (library p s.module).locals (k + 1) = g.routine.locals := by
    simp [library, hg.routine]
  rw [outcome_call hfn, hlocals]
  refine (hbody.gives (Block.gives_exec htyped.body)).bind ?_
  have hback {h' m' st'} (hgone : Gone s g.routine outer under m' st') :
      (watchStore s n).Leads h' m' ((comeBack st).outcome st')
        fun x _ m' st' => Returned s outer under fn.type x m' st st' := by
    have hresult : st'.args.take g.routine.returns = pushed fn.type (st'.args.headD 0) := by
      have hreturns : g.routine.returns = fn.type.slots := by
        rw [htyped.result]
        rfl
      rw [hreturns]
      exact take_result (by rw [hgone.args, hreturns]; omega)
    have hsynced := hgone.synced
    rw [hresult] at hsynced
    exact Watch.leads_now ⟨⟨hsynced.frames, hsynced.memory, hsynced.input, hsynced.output,
      hsynced.memo⟩, hgone.globals.trans hholds.globals.symm, rfl, rfl, hgone.small⟩
  rintro _ h' m' st' - ⟨rfl | ⟨rfl, hend⟩, hafter⟩
  · exact hback hafter
  · have hleave : (watchStore s n).Leads h' m' ((pure () : Calc Unit).outcome st')
        fun _ _ => Gone s g.routine outer under := by
      refine Ready.leave (f := ⟨g.routine, 0, a, l⟩) hafter ?_
      rw [Nat.zero_add]
      exact hg.code_return htyped hend
    exact hleave.bind (f := fun _ => comeBack st) fun _ _ _ _ _ hgone => hback hgone

/-- Calls do what they mean, to any depth. -/
theorem callsMean (hl : Laid s t p) (d : Nat) : CallsMean s (library p s.module) n d := by
  induction d with
  | zero =>
    intro slot fn r xs a l outer under h m st _ _ _ _ hdeep
    exact ⟨[], m, .nil m, .inr ⟨show n ≤ _ by simpa using hdeep, trivial⟩⟩
  | succ d ih => exact callsMean_succ hl ih

/-! ## Programs -/

/-- The variables at the start of a run. -/
def firstStore (s : Setup) (m : Machine) : Store :=
  ⟨(s.module.globals.map Global.word).toList, [], [], m.input, m.output⟩

/-- The machine at the start of a run has the first variables. -/
theorem holds_start {r : Routine} (hr : s.module.functions[0]? = some r) (hreturns : r.returns = 0)
    (hparams : r.params = 0) (hlocals : r.locals = 0) (hsmall : s.module.globals.size < 2 ^ 63)
    {m : Machine} (hmemo : m.memo.Sound s.module) :
    Holds s ⟨r, 0, s.module.globals.size, s.module.globals.size⟩ [] [] [] 0 (m.start s)
      (firstStore s m) := by
  have hstart : m.start s = { m with
      memory := s.module.globals.map Global.word
      frames := [⟨r, 0, s.module.globals.size, s.module.globals.size⟩]
      steps := 0 } := by
    simp [start, hr, enter, reserve, hlocals]
  rw [hstart]
  refine ⟨⟨rfl, ?_, rfl, rfl, hmemo⟩, ?_, ?_, ?_, ?_, ?_, ?_⟩
  · simp [firstStore, floorWords]
  · simp [firstStore]
  · simp [firstStore]
  · simp [firstStore]
  · simp [firstStore, hreturns, hparams]
  · simp [firstStore, hlocals]
  · simpa using hsmall

end

end TinyC.Machine

namespace TinyC

open Core Machine

/-- Assigns the initial values of the globals of a program. -/
def Core.Program.initialise (p : Core.Program) (P : Library) (rounds : Nat) : Calc Signal :=
  (initBlock p.inits).exec (storeLeaves (P.meaning rounds rounds)) rounds 0

/-- Runs a program on variables: the initial values are assigned, and the main function is called.
The result is that of the main function. -/
def Core.Program.compute (p : Core.Program) (P : Library) (rounds : Nat) : Calc UInt64 := do
  let M := P.meaning rounds rounds
  let _ ← (initBlock p.inits).exec (storeLeaves M) rounds 0
  match p.main with
  | none => pure 0
  | some (slot, type) => (Core.Expr.call (.function slot type) .nil).eval M

/-- The words that the main function of a program leaves on the stack. -/
def Core.Program.left (p : Core.Program) (x : UInt64) : List UInt64 :=
  match p.main with
  | none => []
  | some (_, type) => pushed type x

section

variable {π : Type} {s : Setup} {t : ProgramTables π} {p : Core.Program} {n : Nat}

/-- The main function can be called if it has no parameters. -/
theorem Laid.takes_main (hl : Laid s t p)
    (hmain : ∀ f ∈ t.functions.rows, f.name = "main" → f.paramCount = 0) {slot : Nat} {type : Ty}
    (hp : p.main = some (slot, type)) (g : Function π) :
    (Callee.function slot type).Takes (t.env g) [] := by
  obtain ⟨hslot, f, hf, hname, rfl, htype⟩ := hl.describes.main slot type hp
  obtain ⟨k, rfl⟩ : ∃ k, slot = k + 1 := ⟨slot - 1, by omega⟩
  obtain ⟨fn, _, hholds, _⟩ := hl.function_of_row hf
  have hnone : f.paramTypes = [] := by
    rw [← List.length_eq_zero_iff, ← hholds.params]
    exact hmain f (List.mem_of_getElem? hf) hname
  refine ⟨hslot, ?_, htype⟩
  simp [ProgramTables.env, hf, hnone]

/-- A machine that runs a program first assigns the initial values of the globals. Behind their code
stands the call of the main function. -/
theorem Machine.leads_inits (hl : Laid s t p) (hsmall : s.module.globals.size < 2 ^ 63)
    {m : Machine} (hmemo : m.memo.Sound s.module) :
    ∃ g, Holding s t 0 p.entryCode g ∧
      Sits g.routine.code.toList (mainCode p.main) (initBlock p.inits).size ∧
      (watchStore s n).Leads [] (m.start s)
        ((p.initialise (library p s.module) n).outcome (firstStore s m))
        fun _ => Ready s n n ⟨g.routine, 0, s.module.globals.size, s.module.globals.size⟩ [] [] []
          (initBlock p.inits).size := by
  obtain ⟨g, hg, htyped, hreturns, hparams, hlocals⟩ := hl.entry
  have hholds := holds_start hg.routine hreturns hparams hlocals hsmall hmemo
  have hagrees := agrees_of_holding hl hg
  have hcarries : Carries (watchStore s n) (storeLeaves ((library p s.module).meaning n n))
      (t.env g) g.routine.code.toList ((initBlock p.inits).starts 0)
      (storeSite s n n ⟨g.routine, 0, s.module.globals.size, s.module.globals.size⟩ [] []) :=
    carries_store (f := ⟨g.routine, 0, s.module.globals.size, s.module.globals.size⟩) hagrees
      (callsMean hl n) hg.long _
  have hcode : Sits g.routine.code.toList
      ((initBlock p.inits).code 0 ⟨0, 0⟩ ++ mainCode p.main) 0 := by
    rw [hg.code, code_initBlock]
    exact ⟨[], List.append_nil _⟩
  have hinits := follows_block hcarries (initBlock p.inits) htyped
    ⟨hcode.left, fun q _ _ => Iff.rfl⟩ nofun [] (m.start s) (firstStore s m) ⟨hholds, by simp⟩
  have hsits := hcode.right
  rw [Block.length_code, Nat.zero_add] at hsits
  refine ⟨g, hg, hsits, (hinits.gives (gives_initBlock _ _)).imp ?_⟩
  rintro _ h' m' st' - ⟨rfl, hafter⟩
  rwa [Site.after, Nat.zero_add] at hafter

/-- A machine that runs a program computes what the program means: it comes to the end of the entry
function with the result of the main function as its only operand. -/
theorem Machine.leads_program (hl : Laid s t p)
    (hmain : ∀ f ∈ t.functions.rows, f.name = "main" → f.paramCount = 0)
    (hsmall : s.module.globals.size < 2 ^ 63) {m : Machine} (hmemo : m.memo.Sound s.module) :
    ∃ f : Frame, s.module.functions[0]? = some f.routine ∧
      (watchStore s n).Leads [] (m.start s)
        ((p.compute (library p s.module) n).outcome (firstStore s m))
        fun x => Ready s n n f [] [] (p.left x) f.routine.code.size := by
  obtain ⟨g, hg, hsits, hinits⟩ := leads_inits (n := n) hl hsmall hmemo
  have hsize := Laid.size_entry hg
  refine ⟨⟨g.routine, 0, s.module.globals.size, s.module.globals.size⟩, hg.routine, ?_⟩
  refine hinits.bind fun _ h' m' st' _ hafter => ?_
  simp only [Core.Program.left]
  cases hp : p.main with
  | none =>
    rw [hp, mainCode, List.length_nil, Nat.add_zero] at hsize
    rw [hsize]
    exact Watch.leads_now hafter
  | some pair =>
    obtain ⟨slot, type⟩ := pair
    rw [hp] at hsits hsize
    have hcall : (Core.Expr.call (.function slot type) .nil).Typed (t.env g) :=
      ⟨[], hl.takes_main hmain hp g, rfl⟩
    refine (leads_expr (agrees_of_holding hl hg) (callsMean hl n) _ hcall [] _ hsits h' m' st'
      hafter).imp fun x h'' m'' st'' _ hx => ?_
    have hready := hx.ready
    rwa [show (Core.Expr.call (.function slot type) .nil).code
      = mainCode (some (slot, type)) from rfl, ← hsize] at hready

end

end TinyC
