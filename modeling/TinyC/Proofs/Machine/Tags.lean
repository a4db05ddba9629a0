import TinyC.Proofs.Machine.Literals
import TinyC.Proofs.Machine.Stations

/-!
# Operands have the types that instructions take

The words of a machine do not tell what they stand for, and an instruction takes any words. Here
every word is given a tag: that of a literal by the kind of its token, that of a variable by its
declaration, that of a result by the function it comes from. `retag` is what an instruction does to
tags, and it fails where an operand has another tag than the instruction takes: where the operands
of integer arithmetic are not integers, where an address is none, where a store would change the
tag of a variable, and where a function returns anything but a value of its type.

In a run of a compiled program it never fails (`instructions_get_their_types`). The tags of a state
are those of the slots that the plans say (`Settled`), and the plans of typed code have every
instruction find what it takes (`Poised.retags`).
-/

namespace TinyC

open Core Machine
open Syntax (Word)

/-! ## Tags -/

/-- What a word of memory stands for. -/
inductive Tag where
  | int
  | double
  | address
  /-- The slot of a text among the globals. -/
  | text
  /-- Nothing yet: there is room for a result. -/
  | room
  deriving Repr, DecidableEq

/-- The tag of values of a type. -/
def Ty.tag : Ty → Tag
  | .int => .int
  | .double => .double
  | .string => .text
  | .void => .room

/-- The tags of the results of a type. -/
def Ty.resultTags (type : Ty) : List Tag :=
  List.replicate type.slots type.tag

/-- The tags of the room for results of a type. -/
def Ty.roomTags (type : Ty) : List Tag :=
  List.replicate type.slots .room

/-- What is declared of a function. -/
structure Declaration where
  result : Ty
  params : List Ty
  locals : List Ty
  deriving Repr, DecidableEq

/-- What tags are given by: the types of globals and functions, and those of the literals in the
order of the text. -/
structure Legend where
  globals : List Ty
  functions : List Declaration
  literals : List Ty

/-- The legend of a program: its declarations, and the kinds of its tokens. -/
def ProgramTables.legend {π : Type} (t : ProgramTables π) (ws : List Word) : Legend where
  globals := t.globals.rows.map Entry.type
  functions := t.functions.rows.map fun g => ⟨g.type, g.paramTypes, g.locals.rows.map Entry.type⟩
  literals := Syntax.literals ws

/-- The tags of the operands that an operation takes, the top one last, and of what it leaves for
them, where it is always the same. -/
def Opcode.tags : Opcode → Option (List Tag × List Tag)
  | .globa | .arga | .loca => some ([], [.address])
  | .addi | .subi | .muli | .divi | .cmpi => some ([.int, .int], [.int])
  | .addf | .subf | .mulf | .divf => some ([.double, .double], [.double])
  | .cmpf => some ([.double, .double], [.int])
  | .negi | .setlt | .setgt => some ([.int], [.int])
  | .negf => some ([.double], [.double])
  | .itof => some ([.int], [.double])
  | .ftoi => some ([.double], [.int])
  | _ => none

/-- The tags with the last ones replaced, if these are as they should be. -/
def exchange (takes gives tags : List Tag) : Option (List Tag) :=
  if takes <:+ tags then some (tags.take (tags.length - takes.length) ++ gives) else none

/-- The number of instructions that push before the next one of a frame, in all codes in a row. -/
def Frame.pushIndex (module : Module) (f : Frame) : Nat :=
  pushes ((module.functions.toList.take f.routine.slot.toNat).flatMap (·.code.toList))
    + pushes (f.routine.code.toList.take f.pc)

/-- The tags behind the next instruction of a frame, if all tags are as the instruction takes
them. -/
def retag (s : Setup) (L : Legend) (m : Machine) (f : Frame) (i : Instr) (tags : List Tag) :
    Option (List Tag) :=
  match i.op with
  | .push => (L.literals[f.pushIndex s.module]?).map fun type => tags ++ [type.tag]
  | .pop => if tags = [] then none else some tags.dropLast
  | .dup => tags.getLast?.map fun tag => tags ++ [tag]
  | .load64 => do
    let rest ← exchange [.address] [] tags
    let tag ← rest[(m.memory[m.memory.size - 1]?.getD 0).toNat]?
    some (rest ++ [tag])
  | .store64 => do
    let tag ← tags.getLast?
    let rest ← exchange [.address, tag] [] tags
    let addr := (m.memory[m.memory.size - 2]?.getD 0).toNat
    let old ← rest[addr]?
    -- a result is stored once, in the slot that has room for it
    if old = tag ∨ old = .room ∧ addr = f.args then some (rest.set addr tag) else none
  | .stackalloc => some (tags ++ List.replicate i.operand.toInt.toNat .room)
  | .brtrue | .brfalse => (exchange [.int] [] tags).or (exchange [.double] [] tags)
  | .call => do
    let d ← L.functions[i.operand.toUInt64.toNat]?
    let given := d.result.roomTags ++ d.params.map Ty.tag
    exchange given (given ++ d.locals.map Ty.tag) tags
  | .ret => do
    let d ← L.functions[f.routine.slot.toNat]?
    if (tags.drop f.args).take d.result.slots = d.result.resultTags then
      some (tags.take (f.args + d.result.slots))
    else none
  | .callname =>
    match builtinAt s.module i.operand with
    | .ok b => exchange (b.result.roomTags ++ b.paramTypes.map Ty.tag) b.result.resultTags tags
    | .error _ => none
  | .nop | .br | .unlisted _ => some tags
  | op => do
    let (takes, gives) ← op.tags
    exchange takes gives tags

/-- The tags behind the next instruction of a machine, if it has one. -/
def Machine.retag (s : Setup) (L : Legend) (m : Machine) (tags : List Tag) : Option (List Tag) :=
  match m.frames with
  | [] => some tags
  | f :: _ =>
    match f.routine.code[f.pc]? with
    | none => some tags
    | some i => TinyC.retag s L m f i tags

/-- The tags of a state that a run from another one passes: at first those of the globals, and then
what the instructions make of them. -/
inductive Tagged (s : Setup) (L : Legend) (m : Machine) : Machine → List Tag → Prop
  | start (h : m.memory.size < 2 ^ 63) : Tagged s L m m (L.globals.map Ty.tag)
  | next {x y : Machine} {tags tags' : List Tag} (hx : Tagged s L m x tags)
    (hstep : x.step s = .next y) (h : y.memory.size < 2 ^ 63)
    (htags : x.retag s L tags = some tags') : Tagged s L m y tags'

theorem exchange_append (tags takes gives : List Tag) :
    exchange takes gives (tags ++ takes) = some (tags ++ gives) := by
  rw [exchange, if_pos (List.suffix_append tags takes), List.length_append, Nat.add_sub_cancel,
    List.take_left]

/-! ## The tags of slots -/

/-- The tag of a slot. -/
def Slot.tag : Slot → Tag
  | .holds type => type.tag
  | .address _ => .address
  | .room => .room

/-- The tag of an operand. -/
def Core.Cell.tag : Cell → Tag
  | .value type => type.tag
  | .address _ => .address
  | .room => .room

/-- The tags up to the operands of a frame. -/
def frameTags (σ : Script) (f : Frame) (below : List Slot) (st : Station) : List Tag :=
  (frameSlots σ f below st).map Slot.tag

theorem frameTags_append (σ : Script) (f : Frame) (below : List Slot) (tops cells : List Cell)
    (stored : Bool) :
    frameTags σ f below ⟨tops ++ cells, stored⟩
      = frameTags σ f below ⟨cells, stored⟩ ++ (tops.map Cell.tag).reverse := by
  rw [frameTags, frameSlots_append, List.map_append, List.map_reverse, List.map_map]
  congr 3
  funext c
  cases c <;> rfl

/-- A value on top. -/
theorem frameTags_value (σ : Script) (f : Frame) (below : List Slot) (type : Ty)
    (cells : List Cell) : frameTags σ f below ⟨.value type :: cells, false⟩
      = frameTags σ f below ⟨cells, false⟩ ++ [type.tag] :=
  frameTags_append σ f below [.value type] cells false

theorem reverse_tag_given (types : List Ty) :
    ((given types).map Cell.tag).reverse = types.map Ty.tag := by
  simp [given, Cell.tag, Function.comp_def]

theorem reverse_tag_rooms (type : Ty) : ((rooms type).map Cell.tag).reverse = type.roomTags := by
  simp [rooms, Ty.roomTags, Cell.tag]

theorem reverse_tag_values (type : Ty) :
    ((values type).map Cell.tag).reverse = type.resultTags := by
  simp [values, Ty.resultTags, Cell.tag]

/-- The operands of a call: room for its result below the arguments. -/
theorem frameTags_call (σ : Script) (f : Frame) (below : List Slot) (params : List Ty)
    (result : Ty) (cells : List Cell) :
    frameTags σ f below ⟨given params ++ (rooms result ++ cells), false⟩
      = frameTags σ f below ⟨cells, false⟩ ++ (result.roomTags ++ params.map Ty.tag) := by
  rw [frameTags_append, frameTags_append, reverse_tag_given, reverse_tag_rooms, List.append_assoc]

/-! ## What instructions make of tags -/

section

variable {π : Type} {s : Setup} {t : ProgramTables π} {p : Core.Program} {f : Frame}
  {outer : List Frame} {k : Nat} {g : Function π} {σ : Script} {st : Station} {below : List Slot}
  {L : Legend} {x : Machine} {i : Instr} {cells : List Cell} {type : Ty} {q : Core.Place}
  {l : List UInt64}

/-- An operation that always takes and leaves the same finds it on top. -/
theorem retag_of_tags {takes gives : List Tag} (hi : i.op.tags = some (takes, gives))
    (tags : List Tag) : retag s L x f i (tags ++ takes) = some (tags ++ gives) := by
  obtain ⟨op, operand⟩ := i
  have hexchange : (op.tags >>= fun (takes', gives') => exchange takes' gives' (tags ++ takes))
      = some (tags ++ gives) := by
    rw [show op.tags = some (takes, gives) from hi]
    exact exchange_append tags takes gives
  cases op with
  | nop | push | pop | dup | load64 | store64 | stackalloc | br | brtrue | brfalse | call | ret
  | callname | unlisted => cases hi
  | _ => exact hexchange

theorem retag_tops (tops news : List Cell) {stored : Bool}
    (hi : i.op.tags = some ((tops.map Cell.tag).reverse, (news.map Cell.tag).reverse)) :
    retag s L x f i (frameTags σ f below ⟨tops ++ cells, stored⟩)
      = some (frameTags σ f below ⟨news ++ cells, stored⟩) := by
  rw [frameTags_append, frameTags_append]
  exact retag_of_tags hi _

/-- The word on top. -/
theorem getD_top {a : UInt64} (h : x.memory.toList = l ++ [a]) :
    x.memory[x.memory.size - 1]?.getD 0 = a := by
  rw [← Array.getElem?_toList, ← Array.length_toList, h]
  simp

/-- The word below the top. -/
theorem getD_second {a b : UInt64} (h : x.memory.toList = l ++ [a, b]) :
    x.memory[x.memory.size - 2]?.getD 0 = a := by
  rw [← Array.getElem?_toList, ← Array.length_toList, h]
  simp

section

variable (h : Poised s t p f outer k g σ st below)
include h

/-- The address of a place that is named has the tag of the slot there. -/
theorem Poised.tag_at {stored : Bool} {slot : Slot} (hq : σ.env.slot? stored q = some slot)
    (hfilled : Filled (frameSlots σ f below ⟨cells, stored⟩) l) (hlong : l.length < 2 ^ 63) :
    (UInt64.ofNat (addressOf f q)).toNat = addressOf f q ∧
      (frameTags σ f below ⟨cells, stored⟩)[addressOf f q]? = some slot.tag := by
  obtain ⟨hget, -⟩ := h.slot hq cells
  have hlt : addressOf f q < l.length := by
    rw [hfilled.length]
    exact (List.getElem?_eq_some_iff.mp hget).1
  refine ⟨toNat_ofNat (Nat.lt_trans hlt hlong), ?_⟩
  rw [frameTags, List.getElem?_map, hget]
  rfl

/-- A load finds an address, and leaves a value of the type of the variable there. -/
theorem Poised.retag_load (hq : σ.env.place? q = some type)
    (hfilled : Filled (frameSlots σ f below ⟨.address q :: cells, false⟩) x.memory.toList)
    (hlong : x.memory.size < 2 ^ 63) :
    retag s L x f ⟨.load64, 0⟩ (frameTags σ f below ⟨.address q :: cells, false⟩)
      = some (frameTags σ f below ⟨.value type :: cells, false⟩) := by
  obtain ⟨l₁, l₂, hl, h₁, h₂, -, -⟩ := h.seated.operands [.address q] hfilled
  obtain ⟨a, rfl⟩ := h₂.one
  have ha : a = UInt64.ofNat (addressOf f q) := by simpa using h₂.address 0 _ rfl
  have hshort : l₁.length < 2 ^ 63 := by
    rw [← Array.length_toList, hl, List.length_append] at hlong
    omega
  obtain ⟨hnat, htag⟩ := h.tag_at (Env.slot?_of_place? hq false) h₁ hshort
  have hold := frameTags_append σ f below [.address q] cells false
  simp only [retag]
  rw [show frameTags σ f below ⟨.address q :: cells, false⟩ = _ from hold, frameTags_value,
    getD_top hl, ha, hnat]
  show (exchange [.address] [] (_ ++ [.address])).bind _ = _
  rw [exchange_append, Option.bind_some, List.append_nil, htag]
  rfl

/-- A store finds an address below a value, and where it leads to there is the tag of the value, or
room for the result of the function. -/
theorem Poised.retag_store {slot : Slot} (hq : σ.env.slot? false q = some slot)
    (hfits : slot.tag = type.tag ∨ slot.tag = .room ∧ addressOf f q = f.args)
    (hfilled : Filled (frameSlots σ f below ⟨.value type :: .address q :: cells, false⟩)
      x.memory.toList) (hlong : x.memory.size < 2 ^ 63) :
    retag s L x f ⟨.store64, 0⟩ (frameTags σ f below ⟨.value type :: .address q :: cells, false⟩)
      = some ((frameTags σ f below ⟨cells, false⟩).set (addressOf f q) type.tag) := by
  obtain ⟨l₁, l₂, hl, h₁, h₂, -, -⟩ := h.seated.operands [.value type, .address q] hfilled
  obtain ⟨a, b, rfl⟩ := h₂.two
  have ha : a = UInt64.ofNat (addressOf f q) := by simpa using h₂.address 0 _ rfl
  have hshort : l₁.length < 2 ^ 63 := by
    rw [← Array.length_toList, hl, List.length_append] at hlong
    omega
  obtain ⟨hnat, htag⟩ := h.tag_at hq h₁ hshort
  have hold : frameTags σ f below ⟨.value type :: .address q :: cells, false⟩
      = frameTags σ f below ⟨cells, false⟩ ++ [.address, type.tag] :=
    frameTags_append σ f below [.value type, .address q] cells false
  have hlast : (frameTags σ f below ⟨cells, false⟩ ++ [.address, type.tag]).getLast?
      = some type.tag := by simp
  simp only [retag, hold, hlast, Option.bind_eq_bind, Option.bind_some, exchange_append,
    getD_second hl, ha, hnat, List.append_nil, htag, if_pos hfits]

/-- A store in a variable does not change its tag. -/
theorem Poised.retag_assign (hq : σ.env.place? q = some type)
    (hfilled : Filled (frameSlots σ f below ⟨.value type :: .address q :: cells, false⟩)
      x.memory.toList) (hlong : x.memory.size < 2 ^ 63) :
    retag s L x f ⟨.store64, 0⟩ (frameTags σ f below ⟨.value type :: .address q :: cells, false⟩)
      = some (frameTags σ f below ⟨cells, false⟩) := by
  have hslot := Env.slot?_of_place? hq false
  obtain ⟨hget, -⟩ := h.slot hslot cells
  have htag : (frameTags σ f below ⟨cells, false⟩)[addressOf f q]? = some type.tag := by
    rw [frameTags, List.getElem?_map, hget]
    rfl
  rw [h.retag_store hslot (.inl rfl) hfilled hlong]
  congr 1
  obtain ⟨hlt, hval⟩ := List.getElem?_eq_some_iff.mp htag
  rw [← hval, List.set_getElem_self]

end

/-- The slot of the result has room for it, until it is stored. -/
theorem Seated.set_result (h : Seated s t p f k g σ below) (hresult : σ.env.result ≠ .void) :
    (frameTags σ f below ⟨[], false⟩).set f.args σ.env.result.tag
      = frameTags σ f below ⟨[], true⟩ := by
  have hslots : σ.env.result.slots = 1 := by
    cases hr : σ.env.result with
    | void => contradiction
    | _ => rfl
  have hlength : f.args = (below.map Slot.tag).length := by rw [List.length_map, h.args]
  simp only [frameTags, frameSlots, Script.ownSlots, Env.window, hslots, List.map_append,
    List.append_assoc, List.replicate_one, Bool.false_eq_true, if_false, if_true,
    List.singleton_append]
  rw [hlength, List.set_append_right _ _ (Nat.le_refl _), Nat.sub_self]
  rfl

/-- The store of a result finds room for it. -/
theorem Poised.retag_result (h : Poised s t p f outer k g σ st below)
    (hresult : σ.env.result ≠ .void)
    (hfilled : Filled (frameSlots σ f below ⟨[.value σ.env.result, .address ⟨.param, 0⟩], false⟩)
      x.memory.toList) (hlong : x.memory.size < 2 ^ 63) :
    retag s L x f ⟨.store64, 0⟩
        (frameTags σ f below ⟨[.value σ.env.result, .address ⟨.param, 0⟩], false⟩)
      = some (frameTags σ f below ⟨[], true⟩) := by
  rw [h.retag_store (Env.slot?_result hresult) (.inr ⟨rfl, rfl⟩) hfilled hlong,
    ← h.seated.set_result hresult]
  rfl

/-- **An instruction that leads to the next one finds the tags that it takes**, and leaves those
of what the plan says. -/
theorem Poised.retag_moves (hl : Laid s t p) (h : Poised s t p f outer k g σ st below)
    {cells cells' : List Cell} (hmoves : Moves σ.env i cells cells')
    (hfilled : Filled (frameSlots σ f below ⟨cells, false⟩) x.memory.toList)
    (hlong : x.memory.size < 2 ^ 63) :
    retag s L x f i (frameTags σ f below ⟨cells, false⟩)
      = some (frameTags σ f below ⟨cells', false⟩) := by
  cases hmoves with
  | pop => simp [retag, frameTags_value]
  | @address q =>
    obtain ⟨location, n⟩ := q
    refine retag_tops [] [.address ⟨location, n⟩] ?_
    cases location <;> rfl
  | load hq => exact h.retag_load hq hfilled hlong
  | store hq => exact h.retag_assign hq hfilled hlong
  | @room callee =>
    have hslots : callee.result.slots < 2 ^ 63 := by
      have : callee.result.slots ≤ 1 := by cases callee.result <;> decide
      omega
    rw [frameTags_append, reverse_tag_rooms]
    simp only [retag, Callee.room, Int64.toInt_ofNat_of_lt hslots, Int.toNat_natCast]
    rfl
  | @arith op type _ htype =>
    refine retag_tops [.value type, .value type] [.value type] ?_
    cases type with
    | void | string => cases htype
    | int | double => cases op <;> rfl
  | @negate type _ htype =>
    refine retag_tops [.value type] [.value type] ?_
    cases type with
    | void | string => cases htype
    | int | double => rfl
  | @convert source target i _ hi =>
    refine retag_tops [.value source] [.value target] ?_
    cases source <;> cases target <;> simp [Ty.conversion] at hi <;> subst hi <;> rfl
  | @compare type _ htype =>
    refine retag_tops [.value type, .value type] [.value .int] ?_
    cases type with
    | void | string => cases htype
    | int | double => rfl
  | sign hop =>
    refine retag_tops [.value .int] [.value .int] ?_
    rcases hop with rfl | rfl <;> rfl
  | @builtin b cells =>
    rw [frameTags_call, frameTags_append, reverse_tag_values]
    simp only [retag, builtinAt_slot hl b, exchange_append]

theorem retag_test {op : Opcode} (hop : op = .brtrue ∨ op = .brfalse)
    (htype : type.isNumeric = true) (operand : Int64) :
    retag s L x f ⟨op, operand⟩ (frameTags σ f below ⟨[.value type], false⟩)
      = some (frameTags σ f below ⟨[], false⟩) := by
  have hor : (exchange [.int] [] (frameTags σ f below ⟨[], false⟩ ++ [type.tag])).or
      (exchange [.double] [] (frameTags σ f below ⟨[], false⟩ ++ [type.tag]))
      = some (frameTags σ f below ⟨[], false⟩) := by
    cases type with
    | void | string => cases htype
    | int => simp only [Ty.tag, exchange_append, List.append_nil, Option.some_or]
    | double =>
      have hnot : ¬[Tag.int] <:+ frameTags σ f below ⟨[], false⟩ ++ [Tag.double] := by
        rintro ⟨tags, htags⟩
        cases (List.append_inj' htags rfl).2
      simp only [Ty.tag, exchange_append, List.append_nil]
      rw [exchange, if_neg hnot, Option.none_or]
  rw [frameTags_value]
  rcases hop with rfl | rfl <;> exact hor

/-- The code and the plan of a function are those of the program at its slot. -/
theorem Scripted.planned (h : Scripted s t p k g σ) :
    p.codes[k]? = some σ.code ∧ p.plans[k]? = some σ.plan := by
  have hscript := h.script
  cases k with
  | zero =>
    cases hscript
    exact ⟨rfl, rfl⟩
  | succ k =>
    obtain ⟨fn, hfn, rfl⟩ := Option.map_eq_some_iff.mp hscript
    simp only [Core.Program.codes, Core.Program.plans, List.getElem?_cons_succ, List.getElem?_map,
      hfn]
    exact ⟨rfl, rfl⟩

variable {ws : List Word}

/-- What is declared of a function is in the legend at its slot. -/
theorem Scripted.declaration (h : Scripted s t p k g σ) (ws : List Word) :
    (t.legend ws).functions[k]? = some ⟨σ.env.result, σ.env.params, σ.env.locals⟩ := by
  rw [h.env, ProgramTables.legend, List.getElem?_map, h.holding.row]
  rfl

/-- A literal has the tag of its token. -/
theorem Seated.retag_push (hl : Laid s t p) (h : Seated s t p f k g σ below)
    (hliterals : Syntax.literals ws = p.literals) (hliteral : σ.literal f.pc = some type)
    {word : Int64} :
    retag s (t.legend ws) x f ⟨.push, word⟩ (frameTags σ f below ⟨cells, false⟩)
      = some (frameTags σ f below ⟨.value type :: cells, false⟩) := by
  obtain ⟨hcode, hplan⟩ := h.scripted.planned
  have hindex : f.pushIndex s.module
      = pushes (p.codes.take k).flatten + pushes (σ.code.take f.pc) := by
    rw [Frame.pushIndex, h.code, h.routine, h.scripted.holding.slot, ← hl.describes.module_codes,
      ← hl.module, ← List.map_take]
    rfl
  have hget : (t.legend ws).literals[f.pushIndex s.module]? = some type := by
    rw [hindex, ProgramTables.legend, hliterals]
    exact Core.Program.pushed hcode hplan hliteral
  simp only [retag, hget, Option.map_some, frameTags_value]

/-- A call finds room for the result and arguments of the types of the parameters. -/
theorem Scripted.retag_call {g' : Function π} {σ' : Script} {slot : Nat} (hslot : slot < 2 ^ 63)
    (h : Scripted s t p slot g' σ') :
    retag s (t.legend ws) x f ⟨.call, Int64.ofNat slot⟩
        (frameTags σ f below ⟨given σ'.env.params ++ (rooms σ'.env.result ++ cells), false⟩)
      = some ((frameSlots σ f below ⟨cells, false⟩ ++ σ'.ownSlots false).map Slot.tag) := by
  have hnew : (σ'.ownSlots false).map Slot.tag
      = σ'.env.result.roomTags ++ σ'.env.params.map Ty.tag ++ σ'.env.locals.map Ty.tag := by
    simp [Script.ownSlots, Env.window, Ty.roomTags, Slot.tag, Function.comp_def]
  simp only [retag, toNat_operand hslot, h.declaration ws, Option.bind_eq_bind, Option.bind_some,
    frameTags_call, exchange_append, List.map_append, hnew]
  rfl

/-- A function returns a value of its type, if it has a result. -/
theorem Seated.retag_ret (h : Seated s t p f k g σ below) {leaving : Bool}
    (hleaving : leaving = true ↔ σ.env.result ≠ .void) {operand : Int64} :
    retag s (t.legend ws) x f ⟨.ret, operand⟩ (frameTags σ f below ⟨[], leaving⟩)
      = some ((below ++ List.replicate σ.env.result.slots (Slot.holds σ.env.result)).map
        Slot.tag) := by
  have hslot : f.routine.slot.toNat = k := by rw [h.routine, h.scripted.holding.slot]
  have hargs : f.args = (below.map Slot.tag).length := by rw [List.length_map, h.args]
  have hlength : σ.env.result.resultTags.length = σ.env.result.slots := by simp [Ty.resultTags]
  obtain ⟨rest, htags⟩ : ∃ rest, frameTags σ f below ⟨[], leaving⟩
      = below.map Slot.tag ++ (σ.env.result.resultTags ++ rest) := by
    refine ⟨(σ.env.params ++ σ.env.locals).map Ty.tag, ?_⟩
    cases hb : leaving with
    | true =>
      simp [frameTags, frameSlots, Script.ownSlots, Env.window, Ty.resultTags, Slot.tag,
        Function.comp_def]
    | false =>
      have hvoid : σ.env.result = .void := by simpa [hb] using hleaving
      simp [frameTags, frameSlots, Script.ownSlots, Env.window, Ty.resultTags, Ty.slots, Slot.tag,
        hvoid, Function.comp_def]
  have hnew : (below ++ List.replicate σ.env.result.slots (Slot.holds σ.env.result)).map Slot.tag
      = below.map Slot.tag ++ σ.env.result.resultTags := by
    simp [Ty.resultTags, Slot.tag]
  have hresult : ((frameTags σ f below ⟨[], leaving⟩).drop f.args).take σ.env.result.slots
      = σ.env.result.resultTags := by
    rw [htags, hargs, List.drop_left, ← hlength, List.take_left]
  have hkept : (frameTags σ f below ⟨[], leaving⟩).take (f.args + σ.env.result.slots)
      = below.map Slot.tag ++ σ.env.result.resultTags := by
    rw [htags, hargs, ← hlength, ← List.length_append, ← List.append_assoc, List.take_left]
  simp only [retag, hslot, h.scripted.declaration ws, Option.bind_eq_bind, Option.bind_some,
    hresult, hkept, hnew, if_true]

/-! ## Runs -/

/-- No function is called without the arguments it takes, if the main function takes none. -/
theorem Laid.not_starving (hl : Laid s t p)
    (hmain : ∀ f ∈ t.functions.rows, f.name = "main" → f.paramCount = 0)
    (h : Scripted s t p k g σ) : ¬σ.starving := by
  have hscript := h.script
  cases k with
  | succ k =>
    obtain ⟨fn, -, rfl⟩ := Option.map_eq_some_iff.mp hscript
    exact id
  | zero =>
    cases hscript
    rintro ⟨slot, type, params, hp, hsig, hne⟩
    obtain ⟨-, f, hf, hname, -⟩ := hl.describes.main slot type hp
    obtain ⟨σ', hf'⟩ := hl.scripted hf
    have hnone : f.paramTypes.length = 0 := by
      rw [← hf'.holding.params]
      exact hmain f (List.mem_of_getElem? hf) hname
    have hsame : f.paramTypes = params := by
      simp only [ProgramTables.env, List.getElem?_map, hf, Option.map_some,
        Option.some.injEq] at hsig
      cases hsig
      rfl
    exact hne (hsame ▸ List.length_eq_zero_iff.mp hnone)

theorem Laid.slot_lt (hl : Laid s t p) (h : Scripted s t p k g σ) : k < 2 ^ 63 :=
  Nat.lt_trans (List.getElem?_eq_some_iff.mp h.holding.row).1 hl.functions

/-- **Every instruction that a machine comes to finds the tags that it takes**, whether or not it
can be carried out. -/
theorem Poised.retags (hl : Laid s t p) (h : Poised s t p f outer k g σ st below)
    (hstarving : ¬σ.starving) (hliterals : Syntax.literals ws = p.literals)
    (hi : f.routine.code[f.pc]? = some i)
    (hfilled : Filled (frameSlots σ f below st) x.memory.toList) (hlong : x.memory.size < 2 ^ 63) :
    ∃ tags, retag s (t.legend ws) x f i (frameTags σ f below st) = some tags := by
  have hcode : σ.code[f.pc]? = some i := by rw [← h.seated.code, Array.getElem?_toList, hi]
  cases h.seated.scripted.sound.sound f.pc i st hcode h.station with
  | push hliteral => exact ⟨_, h.seated.retag_push hl hliterals hliteral⟩
  | move hmoves => exact ⟨_, h.retag_moves hl hmoves hfilled hlong⟩
  | call _ hsig =>
    obtain ⟨g', σ', hscripted, rfl, rfl⟩ := hl.scripted_of_sig h.seated.scripted hsig
    exact ⟨_, hscripted.retag_call (hl.slot_lt hscripted)⟩
  | starve hs => exact absurd hs hstarving
  | result hresult => exact ⟨_, h.retag_result hresult hfilled hlong⟩
  | leave hleaving => exact ⟨_, h.seated.retag_ret hleaving⟩
  | branch => exact ⟨_, rfl⟩
  | test hop htype => exact ⟨_, retag_test hop htype 1⟩

variable {y z m : Machine} {slots : List Slot} {tags : List Tag}

/-- What an instruction makes of the tags are those of the slots behind it. -/
theorem Strides.retag_eq (hl : Laid s t p) (hliterals : Syntax.literals ws = p.literals)
    (h : Strides s t p x y f outer k g σ st below i slots) (hlong : x.memory.size < 2 ^ 63) :
    retag s (t.legend ws) x f i (frameTags σ f below st) = some (slots.map Slot.tag) := by
  have hpoised := h.poised
  have hfilled := h.filled
  have honward := h.onward
  generalize y.frames = frames at honward
  generalize y.memory.toList = l at honward
  cases honward with
  | turn hturns =>
    cases hturns with
    | push hliteral => exact hpoised.seated.retag_push hl hliterals hliteral
    | move hmoves => exact hpoised.retag_moves hl hmoves hfilled hlong
    | result hresult => exact hpoised.retag_result hresult hfilled hlong
    | branch => rfl
    | test hop htype => exact retag_test hop htype 1
  | enter _ hcall hscripted hst =>
    subst hcall
    subst hst
    exact hscripted.retag_call (hl.slot_lt hscripted)
  | leave hret hst hleaving =>
    subst hret
    subst hst
    exact hpoised.seated.retag_ret hleaving

theorem Tagged.passes {L : Legend} (h : Tagged s L m z tags) : Passes s m z := by
  induction h with
  | start h => exact .start h
  | next _ hstep h _ ih => exact .next ih hstep h

/-- The tags of the next instruction are those it has in its frame. -/
theorem retag_of_frames {L : Legend} (hframes : x.frames = f :: outer)
    (hi : f.routine.code[f.pc]? = some i) : x.retag s L tags = retag s L x f i tags := by
  simp only [Machine.retag, hframes, hi]

/-- **The tags of a state are those of the slots that the plans say.** -/
theorem settled_tagged (hl : Laid s t p) (ha : t.Addressable) (hm : m.memo.Sound s.module)
    (hliterals : Syntax.literals ws = p.literals) (h : Tagged s (t.legend ws) (m.start s) z tags) :
    ∃ slots, Settled s t p z slots ∧ tags = slots.map Slot.tag := by
  induction h with
  | start =>
    refine ⟨_, settled_start hl m, ?_⟩
    simp [ProgramTables.legend, globalSlots, Slot.tag, Function.comp_def]
  | next hx hstep _ htags ih =>
    obtain ⟨slots, hsettled, rfl⟩ := ih
    have hpasses := hx.passes
    obtain ⟨f, outer, k, g, σ, st, below, i, slots', rfl, hstrides⟩ := hsettled.strides hl ha
      hpasses.small (sound_passes hpasses (by rwa [memo_start])) hstep
    rw [retag_of_frames hstrides.frames hstrides.code] at htags
    have hnew := hstrides.retag_eq hl hliterals hpasses.small
    exact ⟨slots', hstrides.settled, Option.some.inj (htags.symm.trans hnew)⟩

/-- Where the machine is where the plans say, the next instruction finds the tags that it takes. -/
theorem Settled.retags (hl : Laid s t p)
    (hmain : ∀ f ∈ t.functions.rows, f.name = "main" → f.paramCount = 0)
    (hliterals : Syntax.literals ws = p.literals) (h : Settled s t p z slots)
    (hlong : z.memory.size < 2 ^ 63) :
    ∃ tags, z.retag s (t.legend ws) (slots.map Slot.tag) = some tags := by
  obtain ⟨f, outer, k, g, σ, st, below, hframes, hpoised, rfl, hfilled⟩ := h
  cases hi : f.routine.code[f.pc]? with
  | none =>
    refine ⟨(frameSlots σ f below st).map Slot.tag, ?_⟩
    simp only [Machine.retag, hframes, hi]
  | some i =>
    rw [retag_of_frames hframes hi]
    exact hpoised.retags hl (hl.not_starving hmain hpoised.seated.scripted) hliterals hi hfilled
      hlong

theorem Laid.globals_lt (hl : Laid s t p) (h : Passes s (m.start s) z) :
    t.globals.rows.length < 2 ^ 63 := by
  induction h with
  | next _ _ _ ih => exact ih
  | start h =>
    obtain ⟨g, hholds, -⟩ := hl.entry
    have hsize : s.module.globals.size ≤ (m.start s).memory.size := by
      simp [start, hholds.routine, enter, reserve]
    have hglobals : s.module.globals.size = t.globals.rows.length := by
      rw [hl.module]
      simp [ProgramTables.module]
    omega

end

/-- **Instructions are selected by the types of their operands.** Let the words of a machine have
tags, those of literals by the kinds of their tokens, those of globals, parameters and local
variables by their declarations, and those of results by the functions they come from. Then in a
run of the module of an accepted program whose main function takes no arguments, every state has
tags, one for each word, and the next instruction, if there is one, finds all tags as it takes
them. -/
theorem instructions_get_their_types {p : Program} {a : Analysis}
    (ha : p.analyse.result = .ok a) (hsize : a.tables.Addressable)
    (hmain : ∀ f ∈ a.tables.functions.rows, f.name = "main" → f.paramCount = 0) (s : Setup)
    (hs : s.module = a.tables.module) {m : Machine} (hm : Reached s.module m) :
    (∀ z, Passes s (m.start s) z →
      ∃ tags, Tagged s (a.tables.legend p.source.words) (m.start s) z tags) ∧
    ∀ z tags, Tagged s (a.tables.legend p.source.words) (m.start s) z tags →
      tags.length = z.memory.size ∧
      ∃ tags', z.retag s (a.tables.legend p.source.words) tags = some tags' := by
  have hl : Laid s a.tables a.core := Program.laid ha hsize hs
  have hmemo : m.memo.Sound s.module := hm.sound
  have hright : ∀ z tags, Tagged s (a.tables.legend p.source.words) (m.start s) z tags →
      tags.length = z.memory.size ∧
      ∃ tags', z.retag s (a.tables.legend p.source.words) tags = some tags' := by
    intro z tags h
    have hpasses := h.passes
    have hliterals := Program.literals_eq ha hl (hl.globals_lt hpasses)
    obtain ⟨slots, hsettled, rfl⟩ := settled_tagged hl hsize hmemo hliterals h
    refine ⟨?_, hsettled.retags hl hmain hliterals hpasses.small⟩
    obtain ⟨f, outer, k, g, σ, st, below, -, -, -, hfilled⟩ := hsettled
    rw [List.length_map, ← hfilled.length, Array.length_toList]
  refine ⟨fun z hz => ?_, hright⟩
  induction hz with
  | start h => exact ⟨_, .start h⟩
  | next _ hstep h ih =>
    obtain ⟨tags, htags⟩ := ih
    obtain ⟨-, tags', hnew⟩ := hright _ tags htags
    exact ⟨tags', .next htags hstep h hnew⟩

theorem instructions_get_their_types_sample :
    ∃ a, sample.analyse.result = .ok a ∧
      ∀ z ∈ states ⟨"sample", a.tables.module, 1000, false, false⟩ 40
        (Machine.start ⟨"sample", a.tables.module, 1000, false, false⟩ { input := ⟨[], false⟩ }),
        ∃ tags tags', tags.length = z.memory.size ∧
          z.retag ⟨"sample", a.tables.module, 1000, false, false⟩
            (a.tables.legend sample.source.words) tags = some tags' := by
  obtain ⟨a, ha, hshort⟩ := sample_accepted
  obtain ⟨htagged, hright⟩ := instructions_get_their_types ha hshort.addressable (sample_main ha)
    ⟨"sample", a.tables.module, 1000, false, false⟩ rfl (m := { input := ⟨[], false⟩ }) (.fresh rfl)
  refine ⟨a, ha, fun z hz => ?_⟩
  obtain ⟨tags, htags⟩ := htagged z (sample_passes ha hz)
  obtain ⟨hlength, tags', hnew⟩ := hright z tags htags
  exact ⟨tags, tags', hlength, hnew⟩

end TinyC
