import TinyC.Proofs.Machine.Simulation

/-!
# Code of expressions and conditions

By induction on expressions: from a machine that runs a function, the code of a typed expression
leads to the machine with its value as one more operand (`leads_expr`). Calls of functions are
taken to do what they mean; that they do is shown for one depth after the other, elsewhere.
-/

namespace TinyC.Machine

open Core

/-- The words that a value of a type takes on the stack. -/
def pushed (type : Ty) (x : UInt64) : List UInt64 :=
  if type = .void then [] else [x]

/-- An environment lists what a function of a module finds. -/
structure Agrees (s : Setup) (P : Library) (Γ : Env) (r : Routine) : Prop where
  globals : Γ.globals.length = s.module.globals.size
  params : Γ.params.length = r.params
  returns : Γ.result.slots = r.returns
  locals : Γ.locals.length = r.locals
  functions : ∀ slot types result, 0 < slot → Γ.functions[slot]? = some ⟨types, result⟩ →
    ∃ (fn : Fn) (r' : Routine), P.functions[slot - 1]? = some fn ∧ fn.type = result ∧
      s.module.functions[slot]? = some r' ∧ r'.params = types.length ∧ r'.returns = result.slots
  few : s.module.functions.size < 2 ^ 63
  builtins : ∀ b : Builtin, builtinAt s.module (Int64.ofNat b.slot) = .ok b
  texts : P.texts = textOf s.module

/-- Where the machine is behind a call: the result is the last word. -/
structure Returned (s : Setup) (outer : List Frame) (under : List UInt64) (type : Ty) (x : UInt64)
    (m : Machine) (st st' : Store) : Prop where
  synced : Synced s m outer (st'.globals ++ under ++ pushed type x) st'
  globals : st'.globals.length = st.globals.length
  args : st'.args = st.args
  locals : st'.locals = st.locals
  small : m.memory.size < 2 ^ 63

/-- Calls up to a depth do what they mean. -/
def CallsMean (s : Setup) (P : Library) (n d : Nat) : Prop :=
  ∀ slot (fn : Fn) (r : Routine) xs a l outer under h m st, 0 < slot →
    P.functions[slot - 1]? = some fn →
    s.module.functions[slot]? = some r →
    Holds s ⟨r, 0, a, l⟩ outer under [] 0 m
      { st with
        args := List.replicate fn.type.slots 0 ++ xs, locals := List.replicate r.locals 0 } →
    n ≤ h.length + d →
    (watchStore s n).Leads h m ((P.call n d slot xs).outcome st)
      fun x _ m' st' => Returned s outer under fn.type x m' st st'

section

variable {s : Setup} {P : Library} {Γ : Env} {n d : Nat} {f : Frame} {outer : List Frame}
  {under ops : List UInt64} {q : Nat} {h : List Machine} {m : Machine} {st : Store} {i : Instr}
  {type : Ty} {xs : List UInt64} {x : UInt64}

/-- A variable that an environment lists is in the store. -/
theorem Agrees.hasPlace (ha : Agrees s P Γ f.routine) (hh : Holds s f outer under ops q m st)
    {p : Core.Place} (hp : Γ.place? p = some type) : HasPlace st p := by
  obtain ⟨location, slot⟩ := p
  cases location with
  | global =>
    have hlt := (List.getElem?_eq_some_iff.mp hp).1
    rw [ha.globals, ← hh.globals] at hlt
    exact hlt
  | param =>
    simp only [Env.place?] at hp
    split at hp
    · have hlt := (List.getElem?_eq_some_iff.mp hp).1
      rw [ha.params, ha.returns] at hlt
      show slot < st.args.length
      rw [hh.args]
      have := ha.returns
      omega
    · cases hp
  | «local» =>
    have hlt := (List.getElem?_eq_some_iff.mp hp).1
    rw [ha.locals, ← hh.locals] at hlt
    exact hlt

theorem stopAt_trapOf (g : Frame) (t : Mishap) :
    stopAt g (trapOf t) = .error (errorAt g (trapOf t)) := by
  cases t <;> rfl

/-- The call of a built-in function does what it means. -/
theorem Ready.builtin {b : Builtin}
    (hr : Ready s n d f outer under (ops ++ List.replicate b.result.slots 0 ++ xs) q h m st)
    (hb : builtinAt s.module (Int64.ofNat b.slot) = .ok b)
    (hcode : f.routine.code[q]? = some ⟨.callname, Int64.ofNat b.slot⟩)
    (hxs : xs.length = b.paramTypes.length)
    (htext : b = .putstr → (xs.headD 0).toNat < s.module.globals.size) :
    (watchStore s n).Leads h m ((runBuiltin (textOf s.module) b xs).outcome st)
      fun x => Ready s n d f outer under (ops ++ pushed b.result x) (q + 1) := by
  have hh := hr.holds
  have hsynced : Synced s { m with frames := f.at (q + 1) :: outer } (f.at (q + 1) :: outer)
      (floorWords under st ++ ops ++ List.replicate b.result.slots 0 ++ xs) st := by
    refine ⟨rfl, ?_, hh.synced.input, hh.synced.output, hh.synced.memo⟩
    rw [List.append_assoc, List.append_assoc, ← List.append_assoc ops]
    exact hh.synced.memory
  have hfloor := hh.floor_le (q + 1) ops
  have hanswers := answers_callBuiltin hsynced hb hfloor hxs htext
  have hact := act_like (s := s) hh.synced.frames hcode (.refl _)
  rw [Frame.next_at] at hact
  simp only [execute] at hact
  generalize callBuiltin s (f.at (q + 1)) (Int64.ofNat b.slot) _ = e at hact hanswers
  generalize (runBuiltin (textOf s.module) b xs).outcome st = r at hanswers ⊢
  obtain ⟨(t | _) | x, st'⟩ := r <;> obtain ⟨y, _ | t'⟩ := e
  · exact hanswers.elim
  · obtain ⟨rfl, ⟨l', hy⟩, hkept⟩ := hanswers
    obtain ⟨m₁, hact, hlike⟩ := hact
    rw [stopAt_trapOf] at hact
    refine ⟨[], m, .nil m, .inr ⟨m₁, _, hact, ?_, hlike.input.trans hy.input,
      hlike.output.trans hy.output⟩⟩
    rw [hlike.memory, hy.memory, hkept.globals]
    simp [floorWords]
  · exact hanswers.elim
  · exact hanswers.elim
  · obtain ⟨hy, hkept⟩ := hanswers
    obtain ⟨m₁, hact, hlike⟩ := hact
    by_cases hlost : 2 ^ 63 ≤ m₁.memory.size
    · exact leads_lost hact hlost
    · have hwords : floorWords under st' = floorWords under st := by
        rw [floorWords, hkept.globals, hkept.args, hkept.locals, floorWords]
      refine Watch.leads_step hact (Watch.leads_now ⟨⟨?_, ?_, ?_, ?_, ?_, ?_,
        Nat.lt_of_not_le hlost⟩, ?_⟩)
      · refine ⟨hlike.frames.trans hy.frames, ?_, hlike.input.trans hy.input,
          hlike.output.trans hy.output, hlike.memo ▸ hy.memo⟩
        rw [hlike.memory, hy.memory, hwords, List.append_assoc]
        rfl
      · rw [hkept.globals, hh.globals]
      · rw [hkept.globals, hh.argsAt]
      · rw [hkept.args, hh.localsAt]
      · rw [hkept.args, hh.args]
      · rw [hkept.locals, hh.locals]
      · have := hr.deep
        simp only [List.length_append]
        omega
  · exact hanswers.elim

/-- What entering a function comes to: its arguments are the last words. -/
theorem execute_enter {r : Routine} {slot : Nat} {l zs xs : List UInt64} {g : Frame}
    (hfew : s.module.functions.size < 2 ^ 63) (hr : s.module.functions[slot]? = some r)
    (hzs : zs.length = r.returns) (hxs : xs.length = r.params)
    (hlong : (l ++ zs ++ xs).length < 2 ^ 63) (hfloor : g.floor ≤ l.length) (z : Machine) :
    (z.withMemory (l ++ zs ++ xs)).execute s g ⟨.call, Int64.ofNat slot⟩
      = ((z.withMemory (l ++ zs ++ xs)).enter r l.length).done := by
  have hslot : slot < s.module.functions.size := (Array.getElem?_eq_some_iff.mp hr).1
  have hnat := toNat_operand (Nat.lt_trans hslot hfew)
  have hsize : (z.withMemory (l ++ zs ++ xs)).memory.size = l.length + zs.length + xs.length := by
    simp [withMemory, Nat.add_assoc]
  simp only [List.length_append] at hlong
  have hargs : Int64.ofNat (z.withMemory (l ++ zs ++ xs)).memory.size - r.argSlots
      = Int64.ofNat l.length := by
    rw [hsize, Routine.argSlots, ← Int64.ofNat_add, ← hzs, ← hxs, ← Int64.ofNat_sub _ _ (by omega)]
    congr 1
    omega
  have hguard : ¬Int64.ofNat l.length < Int64.ofNat g.floor := by
    rw [Int64.ofNat_lt_iff_lt (by omega) (by omega)]
    omega
  simp only [execute, callRoutine, names_ofNat hslot hfew, if_true, hnat, hr, hargs, hguard,
    if_false]
  rw [Int64.toNatClampNeg_ofNat_of_lt (by omega)]

/-- The call of a function does what it means. -/
theorem Ready.call {slot : Nat} {fn : Fn} {r : Routine}
    (hr : Ready s n d f outer under (ops ++ List.replicate fn.type.slots 0 ++ xs) q h m st)
    (hcalls : CallsMean s P n d) (hfew : s.module.functions.size < 2 ^ 63) (hslot : 0 < slot)
    (hfn : P.functions[slot - 1]? = some fn) (hroutine : s.module.functions[slot]? = some r)
    (hreturns : r.returns = fn.type.slots) (hparams : r.params = xs.length)
    (hcode : f.routine.code[q]? = some ⟨.call, Int64.ofNat slot⟩) :
    (watchStore s n).Leads h m ((P.call n d slot xs).outcome st)
      fun x => Ready s n d f outer under (ops ++ pushed fn.type x) (q + 1) := by
  have hh := hr.holds
  have hwords : floorWords under st ++ (ops ++ List.replicate fn.type.slots 0 ++ xs)
      = floorWords under st ++ ops ++ List.replicate fn.type.slots 0 ++ xs := by
    simp only [List.append_assoc]
  have hlong := hh.length_lt
  have hfloor := hh.floor_le (q + 1) ops
  rw [hwords] at hlong
  obtain ⟨m₁, hact, hlike⟩ := hh.act_next hcode (by
    rw [hwords]
    exact execute_enter hfew hroutine (by rw [List.length_replicate, hreturns]) hparams.symm hlong
      hfloor _)
  by_cases hlost : 2 ^ 63 ≤ m₁.memory.size
  · exact leads_lost hact hlost
  -- The variables and operands of the caller are what the callee finds below its own.
  have hcallee : Holds s ⟨r, 0, (floorWords under st ++ ops).length, (floorWords under st ++ ops
      ++ List.replicate fn.type.slots 0 ++ xs).length⟩ (f.at (q + 1) :: outer)
      (under ++ st.args ++ st.locals ++ ops) [] 0 m₁
      { st with
        args := List.replicate fn.type.slots 0 ++ xs
        locals := List.replicate r.locals 0 } := by
    refine ⟨⟨?_, ?_, hlike.input.trans hh.synced.input, hlike.output.trans hh.synced.output,
      hlike.memo ▸ hh.synced.memo⟩, hh.globals, ?_, ?_, ?_, ?_, Nat.lt_of_not_le hlost⟩
    · rw [hlike.frames]
      simp [enter, withMemory, reserve, Frame.at]
    · rw [hlike.memory]
      simp [enter, withMemory, reserve, floorWords]
    · simp only [floorWords, List.length_append]
      omega
    · simp only [List.length_append]
      omega
    · simp [hreturns, hparams]
    · simp
  refine Watch.leads_step hact ?_
  refine (hcalls slot fn r xs _ _ _ _ _ m₁ st hslot hfn hroutine hcallee ?_).imp ?_
  · have := hr.deep
    simp only [List.length_append, List.length_singleton]
    omega
  · intro x h' m' st' hle hreturned
    refine ⟨⟨?_, ?_, ?_, ?_, ?_, ?_, hreturned.small⟩, ?_⟩
    · have hsynced := hreturned.synced
      have hsame : st'.globals ++ (under ++ st.args ++ st.locals ++ ops) ++ pushed fn.type x
          = floorWords under st' ++ (ops ++ pushed fn.type x) := by
        rw [floorWords, hreturned.args, hreturned.locals]
        simp only [List.append_assoc]
      exact hsame ▸ hsynced
    · rw [hreturned.globals, hh.globals]
    · rw [hreturned.globals, hh.argsAt]
    · rw [hreturned.args, hh.localsAt]
    · rw [hreturned.args, hh.args]
    · rw [hreturned.locals, hh.locals]
    · have := hr.deep
      simp only [List.length_append, List.length_singleton] at hle
      omega

/-! ## Expressions -/

theorem pushed_of_ne_void (h : type ≠ .void) (x : UInt64) : pushed type x = [x] :=
  if_neg h

theorem ne_void_of_isNumeric (h : type.isNumeric = true) : type ≠ .void := by
  rintro rfl
  cases h

/-- The machine has come to an index with the value of an expression as one more operand. -/
structure Computed (s : Setup) (n d : Nat) (f : Frame) (outer : List Frame)
    (under ops : List UInt64) (type : Ty) (q : Nat) (x : UInt64) (h : List Machine) (m : Machine)
    (st : Store) : Prop where
  ready : Ready s n d f outer under (ops ++ pushed type x) q h m st
  text : type = .string → x.toNat < s.module.globals.size

/-- The machine has come to an index with the values of arguments as operands. -/
structure Passed (s : Setup) (n d : Nat) (f : Frame) (outer : List Frame)
    (under ops : List UInt64) (types : List Ty) (q : Nat) (xs : List UInt64) (h : List Machine)
    (m : Machine) (st : Store) : Prop where
  ready : Ready s n d f outer under (ops ++ xs) q h m st
  length : xs.length = types.length
  text : types.head? = some .string → (xs.headD 0).toNat < s.module.globals.size

/-- A number is computed. -/
theorem Computed.number (htype : type.isNumeric = true)
    (hr : Ready s n d f outer under (ops ++ [x]) q h m st) :
    Computed s n d f outer under ops type q x h m st := by
  refine ⟨?_, ?_⟩
  · rw [pushed_of_ne_void (ne_void_of_isNumeric htype)]
    exact hr
  · rintro rfl
    cases htype

/-- The value of an expression that is an operand. -/
theorem Computed.operand (htype : type ≠ .void)
    (hc : Computed s n d f outer under ops type q x h m st) :
    Ready s n d f outer under (ops ++ [x]) q h m st := by
  have hr := hc.ready
  rwa [pushed_of_ne_void htype] at hr

/-- A constant is pushed. -/
theorem Ready.constant {word : UInt64} {operand : Int64}
    (hr : Ready s n d f outer under ops q h m st)
    (hcode : f.routine.code[q]? = some ⟨.push, operand⟩) (hword : operand.toUInt64 = word) :
    (watchStore s n).Leads h m (.ok word, st)
      fun x => Ready s n d f outer under (ops ++ [x]) (q + 1) := by
  refine hr.push hcode fun l z => ?_
  simp only [execute, push_withMemory, hword]

/-- The instruction of a call does what it means. -/
theorem leads_callee (ha : Agrees s P Γ f.routine) (hcalls : CallsMean s P n d) {g : Callee}
    {types : List Ty} (hg : g.Takes Γ types) (hcode : f.routine.code[q]? = some g.invoke)
    (hxs : Passed s n d f outer under (ops ++ List.replicate g.result.slots 0) types q xs h m st) :
    (watchStore s n).Leads h m ((g.run (P.meaning n d) xs).outcome st)
      (Computed s n d f outer under ops g.result (q + 1)) := by
  cases g with
  | builtin b =>
    have htypes : types = b.paramTypes := hg
    subst htypes
    simp only [Callee.run, Library.meaning]
    rw [ha.texts]
    refine (hxs.ready.builtin (ha.builtins b) hcode hxs.length ?_).imp fun x h' m' st' _ hr =>
      ⟨hr, ?_⟩
    · rintro rfl
      exact hxs.text rfl
    · cases b <;> nofun
  | function slot result =>
    obtain ⟨hslot, hsignature, hresult⟩ := hg
    obtain ⟨fn, r, hfn, rfl, hr, hparams, hreturns⟩ :=
      ha.functions slot types result hslot hsignature
    exact (hxs.ready.call hcalls ha.few hslot hfn hr hreturns (hparams.trans hxs.length.symm)
      hcode).imp fun x h' m' st' _ hr => ⟨hr, fun h => absurd h hresult⟩

mutual

/-- The code of an expression computes its value. -/
theorem leads_expr (ha : Agrees s P Γ f.routine) (hcalls : CallsMean s P n d) (e : Expr)
    (he : e.Typed Γ) (ops : List UInt64) (q : Nat) (hcode : Sits f.routine.code.toList e.code q)
    (h : List Machine) (m : Machine) (st : Store) (hr : Ready s n d f outer under ops q h m st) :
    (watchStore s n).Leads h m ((e.eval (P.meaning n d)).outcome st)
      (Computed s n d f outer under ops e.type (q + e.code.length)) := by
  match e, he with
  | .int word, _ =>
    exact (hr.constant hcode.instr (UInt64.toUInt64_toInt64 word)).imp fun _ _ _ _ _ => .number rfl
  | .double bits, _ =>
    exact (hr.constant hcode.instr (UInt64.toUInt64_toInt64 bits)).imp fun _ _ _ _ _ => .number rfl
  | .text slot, he =>
    have hslot : slot < s.module.globals.size := ha.globals ▸ (List.getElem?_eq_some_iff.mp he).1
    refine hr.operands hcode.instr (ops ++ [UInt64.ofNat slot]) (fun z => ?_) fun m₁ hr₁ =>
      Watch.leads_now ⟨hr₁, fun _ => ?_⟩
    · simp only [execute, push_withMemory, Int64.toUInt64_ofNat', List.append_assoc]
    · rw [toNat_ofNat (Nat.lt_trans hslot hr.holds.globals_lt)]
      exact hslot
  | .load place type, ⟨hplace, htype⟩ =>
    exact (hr.load (ha.hasPlace hr.holds hplace) hcode).imp fun _ _ _ _ _ => .number htype
  | .arith op type left right, ⟨hleft, hright, hlt, hrt, htype⟩ =>
    have hvoid := ne_void_of_isNumeric htype
    simp only [Expr.code] at hcode ⊢
    simp only [Expr.eval]
    refine (leads_expr ha hcalls left hleft ops q hcode.left.left h m st hr).bind
      fun a h₁ m₁ st₁ _ hx => ?_
    refine (leads_expr ha hcalls right hright (ops ++ [a]) _ hcode.left.right h₁ m₁ st₁
      (hx.operand (hlt ▸ hvoid))).bind fun b h₂ m₂ st₂ _ hy => ?_
    have hinstr := hcode.right.instr
    rw [List.length_append, ← Nat.add_assoc] at hinstr
    refine ((hy.operand (hrt ▸ hvoid)).arithmetic hinstr htype).imp fun _ _ _ _ _ hr' => ?_
    simp only [List.length_append, List.length_singleton, ← Nat.add_assoc]
    exact .number htype hr'
  | .negate type e, ⟨he, het, htype⟩ =>
    simp only [Expr.code] at hcode ⊢
    simp only [Expr.eval]
    refine (leads_expr ha hcalls e he ops q hcode.left h m st hr).bind fun x h₁ m₁ st₁ _ hx => ?_
    refine ((hx.operand (het ▸ ne_void_of_isNumeric htype)).negation hcode.right.instr htype).imp
      fun _ _ _ _ _ hr' => ?_
    rw [List.length_append, ← Nat.add_assoc]
    exact .number htype hr'
  | .convert source target e, ⟨he, het, hsource, htarget⟩ =>
    simp only [Expr.code] at hcode ⊢
    simp only [Expr.eval]
    refine (leads_expr ha hcalls e he ops q hcode.left h m st hr).bind fun x h₁ m₁ st₁ _ hx => ?_
    refine ((hx.operand (het ▸ ne_void_of_isNumeric hsource)).conversion hcode.right).imp
      fun _ _ _ _ _ hr' => ?_
    rw [List.length_append, ← Nat.add_assoc]
    exact .number htarget hr'
  | .call g as, ⟨types, htakes, has⟩ =>
    simp only [Expr.code] at hcode ⊢
    simp only [Expr.eval]
    refine hr.room g hcode.instr fun m₁ hr₁ => ?_
    refine (leads_args ha hcalls as types has _ _ hcode.tail.left _ m₁ st hr₁).bind
      fun xs h₂ m₂ st₂ _ hxs => ?_
    simp only [List.length_cons, List.length_append, List.length_nil]
    rw [show q + (as.code.length + (0 + 1) + 1) = q + 1 + as.code.length + 1 by omega]
    exact leads_callee ha hcalls htakes hcode.tail.right.instr hxs

/-- The code of arguments computes their values. -/
theorem leads_args (ha : Agrees s P Γ f.routine) (hcalls : CallsMean s P n d) (as : Args)
    (types : List Ty) (has : as.Typed Γ types) (ops : List UInt64) (q : Nat)
    (hcode : Sits f.routine.code.toList as.code q) (h : List Machine) (m : Machine) (st : Store)
    (hr : Ready s n d f outer under ops q h m st) :
    (watchStore s n).Leads h m ((as.eval (P.meaning n d)).outcome st)
      (Passed s n d f outer under ops types (q + as.code.length)) := by
  match as, has with
  | .nil, has =>
    have htypes : types = [] := has
    subst htypes
    exact Watch.leads_now ⟨by simpa [Args.code] using hr, rfl, nofun⟩
  | .cons e rest, ⟨others, htypes, he, hvoid, hrest⟩ =>
    subst htypes
    simp only [Args.code] at hcode
    simp only [Args.eval]
    refine (leads_expr ha hcalls e he ops q hcode.left h m st hr).bind fun x h₁ m₁ st₁ _ hx => ?_
    refine (leads_args ha hcalls rest others hrest (ops ++ [x]) _ hcode.right h₁ m₁ st₁
      (hx.operand hvoid)).bind fun xs h₂ m₂ st₂ _ hxs => ?_
    refine Watch.leads_now ⟨?_, ?_, fun ht => hx.text (Option.some.inj ht)⟩
    · have hready := hxs.ready
      rw [List.append_assoc, Nat.add_assoc, ← List.length_append] at hready
      exact hready
    · rw [List.length_cons, List.length_cons, hxs.length]

end

/-! ## Conditions -/

/-- Comparing the other way round. -/
theorem swap_compare (a b : Float.Model.UnpackedFloat) :
    (a.compare b).map Ordering.swap = b.compare a := by
  cases a with
  | notANumber => cases b <;> rfl
  | infinity s =>
    cases b with
    | infinity t => cases s <;> cases t <;> rfl
    | _ => cases s <;> rfl
  | zero s =>
    cases b with
    | infinity t => cases t <;> rfl
    | finite t => cases t <;> rfl
    | _ => rfl
  | finite s m e =>
    cases b with
    | infinity t => cases s <;> cases t <;> rfl
    | zero t => cases s <;> rfl
    | notANumber => cases s <;> rfl
    | finite t m' e' =>
      have he : (compare e e').swap = compare e' e := Std.OrientedCmp.eq_swap.symm
      have hm : (compare m m').swap = compare m' m := Std.OrientedCmp.eq_swap.symm
      cases s <;> cases t
      · show some (((compare e e').then (compare m m')).swap.swap) = some _
        rw [Ordering.swap_then, he, hm]
      · rfl
      · rfl
      · show some (((compare e e').then (compare m m')).swap) = some _
        rw [Ordering.swap_then, he, hm]

theorem double_lt {a b : Float} : a < b ↔ a.toModel.unpack.compare b.toModel.unpack = some .lt := by
  show decide (a.toModel < b.toModel) = true ↔ _
  rw [decide_eq_true_iff]
  show (a.toModel.unpack.compare b.toModel.unpack == some .lt) = true ↔ _
  exact beq_iff_eq

/-- Of two doubles at most one is less than the other. -/
theorem double_lt_asymm {a b : Float} (h : a < b) : ¬b < a := by
  rw [double_lt] at h ⊢
  rw [← swap_compare, h]
  nofun

/-- What a comparison makes of the order of its operands. -/
def meets (op : RelOp) (c : UInt64) : Bool :=
  match op with
  | .lt => c.toInt64 < 0
  | .le => !(0 < c.toInt64)
  | .ge => !(c.toInt64 < 0)
  | .gt => 0 < c.toInt64
  | .neq => c != 0
  | .eq => !(c != 0)

theorem meets_compareIntegers (op : RelOp) (a b : UInt64) :
    meets op (compareIntegers a b) = comparesIntegers op a b := by
  have hword : compareIntegers a b =
      if signed a < signed b then -1 else if signed b < signed a then 1 else 0 := by
    simp only [compareIntegers, Int64.lt_iff_toInt_lt]
    rfl
  rw [hword]
  rcases Int.lt_trichotomy (signed a) (signed b) with h | h | h
  · have hle : signed a ≤ signed b := by omega
    have hge : ¬signed b ≤ signed a := by omega
    have hgt : ¬signed b < signed a := by omega
    have hne : signed a ≠ signed b := by omega
    cases op <;> simp only [comparesIntegers, h, hle, hge, hgt, hne, ne_eq, if_true] <;> decide
  · cases op <;>
      simp only [comparesIntegers, h, Int.lt_irrefl, Int.le_refl, ne_eq, if_false] <;> decide
  · have hlt : ¬signed a < signed b := by omega
    have hle : ¬signed a ≤ signed b := by omega
    have hge : signed b ≤ signed a := by omega
    have hne : signed a ≠ signed b := by omega
    cases op <;> simp only [comparesIntegers, h, hle, hge, hlt, hne, ne_eq, if_true, if_false] <;>
      decide

theorem meets_compareDoubles (op : RelOp) (a b : UInt64) :
    meets op (compareDoubles a b) = comparesReals op a b := by
  unfold compareDoubles
  by_cases hab : Float.ofBits a < Float.ofBits b
  · have hba := double_lt_asymm hab
    cases op <;> simp only [comparesReals, hab, hba, if_true] <;> decide
  · by_cases hba : Float.ofBits b < Float.ofBits a
    · cases op <;> simp only [comparesReals, hab, hba, if_true, if_false] <;> decide
    · cases op <;> simp only [comparesReals, hab, hba, if_false] <;> decide

/-- Skips an instruction if the last operand is not zero, or if it is. -/
def skipIf (sense : Bool) : Instr :=
  ⟨if sense then .brtrue else .brfalse, 1⟩

/-- The machine has come behind a condition, and by one instruction more if it holds. -/
def Decided (s : Setup) (n d : Nat) (f : Frame) (outer : List Frame) (under ops : List UInt64)
    (q k : Nat) (b : Bool) (h : List Machine) (m : Machine) (st : Store) : Prop :=
  k < h.length ∧ Ready s n d f outer under ops (q + b.toNat) h m st

theorem Decided.mono {k k' : Nat} {b : Bool} (hd : Decided s n d f outer under ops q k' b h m st)
    (hle : k ≤ k') : Decided s n d f outer under ops q k b h m st :=
  ⟨Nat.lt_of_le_of_lt hle hd.1, hd.2⟩

/-- The last instruction of a condition skips the one behind it or does not. -/
theorem Ready.skip {sense : Bool} (hr : Ready s n d f outer under (ops ++ [x]) q h m st)
    (hcode : f.routine.code[q]? = some (skipIf sense)) (hlong : f.routine.code.size < 2 ^ 63)
    (hend : q + 1 < f.routine.code.size) :
    (watchStore s n).Leads h m (.ok ((x != 0) == sense), st)
      (Decided s n d f outer under ops (q + 1) h.length) := by
  have hfloor := hr.holds.floor_le (q + 1) ops
  refine hr.moved hcode ops (q + 1 + ((x != 0) == sense).toNat) (fun z hz => ?_)
    fun m₁ hr₁ => Watch.leads_now ⟨by simp, hr₁⟩
  have hstay : z.withMemory (floorWords under st ++ ops) =
      ({ z with frames := f.at (q + 1) :: outer } : Machine).withMemory
        (floorWords under st ++ ops) := by
    rw [← hz]
  have hskip : jump (f.at (q + 1)) 1 (z.withMemory (floorWords under st ++ ops)) =
      (({ z with frames := f.at (q + 2) :: outer } : Machine).withMemory
        (floorWords under st ++ ops)).done := by
    rw [jump_skip hlong hend]
    simp only [setFrame, withMemory, hz, List.tail_cons]
  have hne (hx : x ≠ 0) : (x != 0) = true := bne_iff_ne.mpr hx
  rw [← List.append_assoc]
  cases sense <;> simp only [skipIf, execute, Bool.false_eq_true, if_false, if_true] <;>
    rw [withTop_withMemory hfloor] <;> by_cases hx : x = 0
  · subst hx
    exact hskip
  · rw [if_neg hx, hne hx, hstay]
    rfl
  · subst hx
    rw [if_pos rfl, hstay]
    rfl
  · rw [if_neg hx, hne hx]
    exact hskip

theorem toNat_truthWord (b : Bool) : (truthWord b != 0) = b := by
  cases b <;> rfl

/-- The instructions behind a comparison decide on its word. -/
theorem Ready.compared {op : RelOp} {c : UInt64}
    (hr : Ready s n d f outer under (ops ++ [c]) q h m st)
    (hcode : Sits f.routine.code.toList op.test q) (hlong : f.routine.code.size < 2 ^ 63)
    (hend : q + op.test.length < f.routine.code.size) :
    (watchStore s n).Leads h m (.ok (meets op c), st)
      (Decided s n d f outer under ops (q + op.test.length) h.length) := by
  -- Where the word is turned into a truth value first, that is one instruction more.
  have hset (set : Opcode) (sense : Bool) (g : UInt64 → Bool)
      (htest : op.test = [⟨set, 0⟩, skipIf sense])
      (hexec : ∀ z : Machine, z.execute s (f.at (q + 1)) ⟨set, 0⟩
        = z.unary (f.at (q + 1)) fun x => truthWord (g x)) (hmeets : meets op c = (g c == sense)) :
      (watchStore s n).Leads h m (.ok (meets op c), st)
        (Decided s n d f outer under ops (q + op.test.length) h.length) := by
    rw [htest] at hcode hend ⊢
    have hfloor := hr.holds.floor_le (q + 1) ops
    refine hr.operands hcode.instr (ops ++ [truthWord (g c)]) (fun z => ?_) fun m₁ hr₁ => ?_
    · rw [hexec, ← List.append_assoc, unary_withMemory hfloor, List.append_assoc]
    · have hskip := hr₁.skip hcode.tail.instr hlong hend
      rw [toNat_truthWord, ← hmeets] at hskip
      exact hskip.imp fun _ _ _ _ _ hd => hd.mono (by simp)
  have hplain (sense : Bool) (htest : op.test = [skipIf sense])
      (hmeets : meets op c = ((c != 0) == sense)) :
      (watchStore s n).Leads h m (.ok (meets op c), st)
        (Decided s n d f outer under ops (q + op.test.length) h.length) := by
    rw [htest] at hcode hend ⊢
    rw [hmeets]
    exact hr.skip hcode.instr hlong hend
  cases op with
  | lt => exact hset .setlt true (fun x => x.toInt64 < 0) rfl (fun z => rfl) (beq_true _).symm
  | le => exact hset .setgt false (fun x => 0 < x.toInt64) rfl (fun z => rfl) (beq_false _).symm
  | ge => exact hset .setlt false (fun x => x.toInt64 < 0) rfl (fun z => rfl) (beq_false _).symm
  | gt => exact hset .setgt true (fun x => 0 < x.toInt64) rfl (fun z => rfl) (beq_true _).symm
  | neq => exact hplain true rfl (beq_true _).symm
  | eq => exact hplain false rfl (beq_false _).symm

/-- The instructions of a comparison decide whether it holds. -/
theorem Ready.comparison {op : RelOp} {a b : UInt64}
    (hr : Ready s n d f outer under (ops ++ [a] ++ [b]) q h m st)
    (hcode : Sits f.routine.code.toList (op.instrs type) q) (hlong : f.routine.code.size < 2 ^ 63)
    (hend : q + (op.instrs type).length < f.routine.code.size) :
    (watchStore s n).Leads h m (.ok (compares op type a b), st)
      (Decided s n d f outer under ops (q + (op.instrs type).length) h.length) := by
  have hlength : q + (op.instrs type).length = q + 1 + op.test.length := by
    rw [RelOp.instrs, List.length_cons]
    omega
  rw [hlength] at hend ⊢
  have hword (g : UInt64 → UInt64 → UInt64) (hmeets : meets op (g a b) = compares op type a b)
      (hexec : ∀ z : Machine, z.execute s (f.at (q + 1))
        (if type = .double then ⟨.cmpf, 0⟩ else ⟨.cmpi, 0⟩) = z.binary (f.at (q + 1)) g) :
      (watchStore s n).Leads h m (.ok (compares op type a b), st)
        (Decided s n d f outer under ops (q + 1 + op.test.length) h.length) := by
    have hfloor := hr.holds.floor_le (q + 1) ops
    refine hr.operands hcode.instr (ops ++ [g a b]) (fun z => ?_) fun m₁ hr₁ => ?_
    · rw [hexec, ← List.append_assoc, ← List.append_assoc, binary_withMemory hfloor,
        List.append_assoc]
    · rw [← hmeets]
      exact (hr₁.compared hcode.tail hlong hend).imp fun _ _ _ _ _ hd => hd.mono (by simp)
  by_cases htype : type = .double
  · refine hword compareDoubles ?_ fun z => by rw [if_pos htype]; rfl
    rw [meets_compareDoubles, compares, if_pos htype]
  · refine hword compareIntegers ?_ fun z => by rw [if_neg htype]; rfl
    rw [meets_compareIntegers, compares, if_neg htype]

/-- The code of a condition decides whether it holds. -/
theorem leads_cond (ha : Agrees s P Γ f.routine) (hcalls : CallsMean s P n d) {c : Cond}
    (hc : c.Typed Γ) (hcode : Sits f.routine.code.toList c.code q)
    (hlong : f.routine.code.size < 2 ^ 63) (hend : q + c.size < f.routine.code.size)
    (hr : Ready s n d f outer under ops q h m st) :
    (watchStore s n).Leads h m ((c.eval (P.meaning n d)).outcome st)
      (Decided s n d f outer under ops (q + c.size) h.length) := by
  cases c with
  | nonzero e =>
    obtain ⟨he, htype⟩ := hc
    simp only [Cond.code, Cond.size, List.length_append, List.length_singleton,
      ← Nat.add_assoc] at hcode hend ⊢
    simp only [Cond.eval]
    refine (leads_expr ha hcalls e he ops q hcode.left h m st hr).bind fun x h₁ m₁ st₁ hle hx => ?_
    have hlast : f.routine.code[_]? = some (skipIf true) := hcode.right.instr
    have hskip := (hx.operand (ne_void_of_isNumeric htype)).skip hlast hlong hend
    rw [beq_true] at hskip
    exact hskip.imp fun _ _ _ _ _ hd => hd.mono hle
  | compare op type left right =>
    obtain ⟨hleft, hright, hlt, hrt, htype⟩ := hc
    have hvoid := ne_void_of_isNumeric htype
    simp only [Cond.code, Cond.size, List.length_append, ← Nat.add_assoc] at hcode hend ⊢
    simp only [Cond.eval]
    refine (leads_expr ha hcalls left hleft ops q hcode.left.left h m st hr).bind
      fun a h₁ m₁ st₁ hle₁ hx => ?_
    refine (leads_expr ha hcalls right hright (ops ++ [a]) _ hcode.left.right h₁ m₁ st₁
      (hx.operand (hlt ▸ hvoid))).bind fun b h₂ m₂ st₂ hle₂ hy => ?_
    have hinstrs := hcode.right
    rw [List.length_append, ← Nat.add_assoc] at hinstrs
    exact ((hy.operand (hrt ▸ hvoid)).comparison hinstrs hlong hend).imp
      fun _ _ _ _ _ hd => hd.mono (Nat.le_trans hle₁ hle₂)

end

end TinyC.Machine
