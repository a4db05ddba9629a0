import TinyC.Proofs.Machine.Constants

/-!
# Initial values

A global starts from the word in its row, and the entry function stores its initial value in the
slot. The word is that of a literal, or of a negated literal, and zero for anything else. Literals
are told by their code (`Folds`), so it is the code that has to compute the word: `goes_folds`
carries it out, and `goes_init` does so with the instructions around it.
-/

namespace TinyC

open Core

/-- The code of a literal, or of a negated literal, and its word. -/
inductive Folds : List Instr → UInt64 → Prop where
  | literal (v : Int64) : Folds [⟨.push, v⟩] v.toUInt64
  | integer (v n : Int64) : Folds [⟨.push, v⟩, ⟨.negi, n⟩] (Int64.ofInt (-v.toInt)).toUInt64
  | double (v n : Int64) : Folds [⟨.push, v⟩, ⟨.negf, n⟩] (v.toUInt64 ^^^ 0x8000000000000000)

/-- A global starts from the word of its literal. -/
theorem Folds.literalWord_eq {code : List Instr} {w : UInt64} (h : Folds code w) :
    Typing.literalWord code = w := by
  cases h with
  | literal v => rfl
  | integer v n =>
    rw [Int64.ofInt_neg, Int64.ofInt_toInt, Int64.toUInt64_neg]
    rfl
  | double v n => rfl

/-- It starts from zero if there is no literal. -/
theorem literalWord_of_not_folds {code : List Instr} (h : ∀ w, ¬Folds code w) :
    Typing.literalWord code = 0 := by
  unfold Typing.literalWord
  split
  · exact absurd (.literal _) (h _)
  · exact absurd (.integer _ _) (h _)
  · exact absurd (.double _ _) (h _)
  · rfl

namespace Machine

/-! ## Code that is carried out -/

/-- Steps that nothing cuts carry out so many instructions of a function, from the first of them on,
and leave these words in memory. -/
def Goes (s : Setup) (f : Frame) (outer : List Frame) (n : Nat) (l : List UInt64) (y : Machine) :
    Prop :=
  ∃ ys z, Path s y ys z ∧ ys.length = n ∧ z.frames = f.at (f.pc + n) :: outer ∧
    z.memory.toList = l

section

variable {s : Setup} {f : Frame} {outer : List Frame} {n k : Nat} {l l' : List UInt64}
  {y : Machine}

/-- One more instruction is carried out. -/
theorem Goes.step (h : Goes s f outer n l y) {i : Instr}
    (hcode : f.routine.code.toList[f.pc + n]? = some i)
    (hexec : ∀ z : Machine, (z.withMemory l).execute s (f.at (f.pc + (n + 1))) i
      = (z.withMemory l').done) : Goes s f outer (n + 1) l' y := by
  obtain ⟨ys, z, hpath, rfl, hframes, rfl⟩ := h
  rw [Array.getElem?_toList] at hcode
  have hact := act_like (s := s) hframes hcode (.refl _)
  rw [Frame.next_at, ← withMemory_toList { z with frames := _ }, Nat.add_assoc, hexec] at hact
  obtain ⟨z', hact, hlike⟩ := hact
  refine ⟨ys ++ [z], z', hpath.append (.cons hact (.nil z')), List.length_append,
    hlike.frames, ?_⟩
  rw [hlike.memory]
  rfl

/-- The code of a literal pushes its word. -/
theorem goes_folds {code : List Instr} {w : UInt64} (h : Folds code w)
    (hcode : Sits f.routine.code.toList code (f.pc + n)) (hfloor : f.floor ≤ l.length)
    (hgoes : Goes s f outer n l y) : Goes s f outer (n + code.length) (l ++ [w]) y := by
  rw [← h.literalWord_eq]
  have hpush (v : Int64) (z : Machine) (g : Frame) :
      (z.withMemory l).execute s g ⟨.push, v⟩ = (z.withMemory (l ++ [v.toUInt64])).done := by
    rw [← push_withMemory]
    rfl
  cases h with
  | literal v => exact hgoes.step hcode.head fun z => hpush v z _
  | integer v n | double v n =>
    exact (hgoes.step hcode.head fun z => hpush v z _).step hcode.tail.head fun z =>
      unary_withMemory hfloor _ _

/-- **A literal is stored.** The code that sets a global from a literal changes the word of the
global and no other. -/
theorem goes_init {slot : Nat} {value : Expr} {w : UInt64} (h : Folds value.code w)
    (hcode : Sits f.routine.code.toList (Init.code ⟨slot, value⟩) f.pc)
    (hframes : y.frames = f :: outer) (hfloor : f.floor ≤ y.memory.size)
    (hslot : slot < s.module.globals.size) (hglobals : s.module.globals.size ≤ y.memory.size)
    (hsmall : y.memory.size < 2 ^ 63) :
    Goes s f outer (Init.code ⟨slot, value⟩).length (y.memory.toList.set slot w) y := by
  have haddress : Goes s f outer 1 (y.memory.toList ++ [UInt64.ofNat slot]) y := by
    have hzero : Goes s f outer 0 y.memory.toList y := ⟨[], y, .nil y, rfl, hframes, rfl⟩
    refine hzero.step hcode.head fun z => ?_
    simp only [Core.Place.address, execute, names_ofNat hslot (by omega), if_true, push_withMemory,
      Int64.toUInt64_ofNat']
  have hvalue := goes_folds h hcode.tail.left (by simp; omega) haddress
  have hstore := hcode.tail.right.head
  rw [Nat.add_assoc] at hstore
  have hlength : y.memory.toList.length = y.memory.size := Array.length_toList
  have hset := hvalue.step hstore fun z =>
    (withTwo_withMemory (show f.floor ≤ y.memory.toList.length by omega) _ _ _).trans
      (store_withMemory (by omega) (by omega) w)
  have hcount : (Init.code ⟨slot, value⟩).length = 1 + value.code.length + 1 := by
    simp [Init.code, Place.store]
    omega
  rwa [hcount]

end

/-- A run starts with the words of the globals. -/
theorem start_global {π : Type} {s : Setup} {t : ProgramTables π} {p : Core.Program}
    (hl : Laid s t p) (m : Machine) {n : Nat} {e : Entry π} (he : t.globals.rows[n]? = some e)
    (htype : e.type ≠ .string) : (m.start s).memory[n]? = some e.value := by
  obtain ⟨g, hholds, -, -, -, hlocals⟩ := hl.entry
  have hmemory : (m.start s).memory = s.module.globals.map Global.word := by
    simp [start, hholds.routine, enter, reserve, hlocals]
  rw [hmemory, hl.module, Array.getElem?_map]
  simp [ProgramTables.module, he, Entry.word_global htype]

end Machine

open Machine

/-- **Initial values are folded to what is computed.** The entry function sets the globals that have
initial values, in the order of their declarations, and then calls the main function. A global
starts from the word of its row. Without an initial value, and where the code of the initial value
is not that of a literal, this is zero. Where it is, this is the word that the code and its store
leave in the slot. -/
theorem literals_fold_to_what_is_stored {p : Program} {a : Analysis}
    (ha : p.analyse.result = .ok a) (hsize : a.tables.Addressable) (s : Setup)
    (hs : s.module = a.tables.module) {m : Machine} (hm : Reached s.module m) :
    (∃ g, a.tables.functions.rows[0]? = some g ∧
      g.code = a.core.inits.flatMap Init.code ++ mainCode a.core.main) ∧
    ∀ k constant x type init cl,
      p.source.tree.decls[k]? = some (.mk constant x type init cl) →
      ∃ e, a.tables.globals.rows[Builtin.all.length + k]? = some e ∧ e.name = x.text ∧
        e.isConstant = constant ∧
        (m.start s).memory[Builtin.all.length + k]? = some e.value ∧
        (init = none → e.value = 0 ∧ ∀ i ∈ a.core.inits, i.slot ≠ Builtin.all.length + k) ∧
        (init ≠ none → ∃ before value after,
          a.core.inits = before ++ ⟨Builtin.all.length + k, value⟩ :: after ∧
          (∀ i ∈ before, i.slot < Builtin.all.length + k) ∧
          (∀ i ∈ after, Builtin.all.length + k < i.slot) ∧
          ((∀ w, ¬Folds value.code w) → e.value = 0) ∧
          ∀ w, Folds value.code w → e.value = w ∧
            ∀ y f outer, Passes s (m.start s) y → y.frames = f :: outer →
              s.module.functions[0]? = some f.routine →
              f.pc = (before.flatMap Init.code).length →
              Goes s f outer (Init.code ⟨Builtin.all.length + k, value⟩).length
                (y.memory.toList.set (Builtin.all.length + k) w) y) := by
  have hl : Laid s a.tables a.core := Program.laid ha hsize hs
  obtain ⟨g, hholds, -⟩ := hl.entry
  have hentry : g.code = a.core.entryCode := by
    rw [← hholds.code, Function.routine, List.toList_toArray]
  refine ⟨⟨g, hholds.row, hentry⟩, fun k constant x type init cl hd => ?_⟩
  obtain ⟨e, v, before, after, he, hname, hconst, hnumeric, hvalue, hsome, -, hinits, hbefore,
    hafter⟩ := Program.declared ha hd
  refine ⟨e, he, hname, hconst, start_global hl m he ?_, fun hnone => ?_, fun hgiven => ?_⟩
  · intro hstring
    rw [hstring] at hnumeric
    cases hnumeric
  · obtain rfl : v = none := by
      rw [hnone] at hsome
      exact Option.isSome_eq_false_iff.mp hsome |> Option.isNone_iff_eq_none.mp
    refine ⟨hvalue, fun i hi => ?_⟩
    rcases List.mem_append.mp (hinits ▸ hi) with hi | hi
    · exact Nat.ne_of_lt (hbefore i hi)
    · exact Nat.ne_of_gt (hafter i hi)
  · obtain ⟨value, rfl⟩ : ∃ value, v = some value := by
      rw [Option.isSome_iff_ne_none.mpr hgiven] at hsome
      exact Option.isSome_iff_exists.mp hsome
    refine ⟨before, value, after, hinits, hbefore, hafter, fun hnot =>
      hvalue.trans (literalWord_of_not_folds hnot), fun w hfolds =>
      ⟨hvalue.trans hfolds.literalWord_eq, fun y f outer hy hframes hroutine hpc => ?_⟩⟩
    obtain ⟨slots, f', outer', _, _, _, _, _, hframes', hpoised, rfl, hfilled⟩ :=
      settled_passes hl hsize hm.sound hy
    cases hframes.symm.trans hframes'
    have hfloor := hpoised.floor_le hfilled
    have hbelow := hpoised.globals_le
    have hwindow := hpoised.seated.floor
    have hglobals : s.module.globals.size = a.tables.globals.rows.length := by
      rw [hs]
      simp [ProgramTables.module]
    have hn := (List.getElem?_eq_some_iff.mp he).1
    -- the code of the initial value stands behind those of the others in the entry function
    have hcode : Sits f.routine.code.toList (Init.code ⟨Builtin.all.length + k, value⟩) f.pc := by
      have hall : Sits f.routine.code.toList (before.flatMap Init.code ++
          (Init.code ⟨Builtin.all.length + k, value⟩ ++
            (after.flatMap Init.code ++ mainCode a.core.main))) 0 := by
        rw [Option.some.inj (hroutine.symm.trans hholds.routine), hholds.code, Program.entryCode,
          hinits]
        simp [Sits]
      rw [hpc, ← Nat.zero_add (before.flatMap Init.code).length]
      exact hall.right.left
    exact goes_init hfolds hcode hframes hfloor (by omega) (by omega) hy.small

/-- A program with a constant whose literal has no negative but itself. -/
def extremes : Program where
  name := "extremes"
  bytes := Text.bytesOf
    "const least: int = -9223372036854775808; let zero: double = -0.0; fn main() -> void \x7b \x7d"

theorem extremes_checked : (match extremes.analyse.result, extremes.source.tree.decls[0]? with
    | .ok a, some (Syntax.Decl.mk true x _ (some _) _) =>
      let m := Machine.start ⟨"extremes", a.tables.module, 1000, false, false⟩
        { input := ⟨[], false⟩ }
      decide a.tables.Short && decide (x.text = "least") &&
        decide (m.memory.size < 2 ^ 63) &&
        decide (m.frames.map (·.pc) = [0]) &&
        decide (m.frames.head?.map Frame.routine = a.tables.module.functions[0]?) &&
        decide (a.core.inits.map (fun i => (i.slot, i.value.code)) =
          [(8, [⟨.push, -0x8000000000000000⟩, ⟨.negi, 0⟩]), (9, [⟨.push, 0⟩, ⟨.negf, 0⟩])])
    | _, _ => false) = true := by
  decide +kernel

/-- The constant starts from the least integer, and this is what is stored. -/
theorem extremes_fold : ∃ (a : Analysis) (e : Entry Position) (f : Frame),
    extremes.analyse.result = .ok a ∧ a.tables.globals.rows[8]? = some e ∧ e.name = "least" ∧
    e.isConstant = true ∧ e.value = 0x8000000000000000 ∧
    Goes ⟨"extremes", a.tables.module, 1000, false, false⟩ f [] 4
      ((Machine.start ⟨"extremes", a.tables.module, 1000, false, false⟩
        { input := ⟨[], false⟩ }).memory.toList.set 8 0x8000000000000000)
      (Machine.start ⟨"extremes", a.tables.module, 1000, false, false⟩
        { input := ⟨[], false⟩ }) := by
  have h := extremes_checked
  split at h
  · rename_i a x type init cl ha hd
    simp only [Bool.and_eq_true, decide_eq_true_eq] at h
    obtain ⟨⟨⟨⟨⟨hshort, hname⟩, hsmall⟩, hpc⟩, hroutine⟩, hinits⟩ := h
    obtain ⟨-, hall⟩ := literals_fold_to_what_is_stored ha hshort.addressable
      ⟨"extremes", a.tables.module, 1000, false, false⟩ rfl
      (m := { input := ⟨[], false⟩ }) (.fresh rfl)
    obtain ⟨e, he, hx, hconst, -, -, hgiven⟩ := hall 0 true x type (some init) cl hd
    obtain ⟨before, value, after, hsplit, hbefore, -, -, hfolds⟩ := hgiven nofun
    -- the constant is the first of the globals that are set
    obtain ⟨rfl, hcode⟩ : before = [] ∧
        value.code = [⟨.push, -0x8000000000000000⟩, ⟨.negi, 0⟩] := by
      rw [hsplit] at hinits
      cases before with
      | nil => exact ⟨rfl, congrArg Prod.snd (List.cons.inj hinits).1⟩
      | cons i is =>
        have hslot : i.slot = 8 := congrArg Prod.fst (List.cons.inj hinits).1
        exact absurd (hbefore i List.mem_cons_self) (by rw [hslot]; decide)
    obtain ⟨f, hframes⟩ := List.length_eq_one_iff.mp
      ((List.length_map _).symm.trans (congrArg List.length hpc))
    rw [hframes] at hpc hroutine
    obtain ⟨hvalue, hgoes⟩ := hfolds _ (hcode ▸ Folds.integer _ _)
    refine ⟨a, e, f, ha, he, hx.trans hname, hconst, hvalue, ?_⟩
    have hlength : (Init.code ⟨8, value⟩).length = 4 := by
      simp [Init.code, Core.Place.store, hcode]
    exact hlength ▸ hgoes _ f [] (.start hsmall) hframes hroutine.symm (List.cons.inj hpc).1
  · cases h

end TinyC
