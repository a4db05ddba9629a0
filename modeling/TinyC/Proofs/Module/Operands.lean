import TinyC.Proofs.Module.Format

/-!
# What becomes of operands in a file

The writer takes an operand of four bytes up to the greatest number that four bytes can hold without
a sign, and the reader takes four bytes with their sign. Tables are read back as what is *stored* of
them (`ProgramTables.decode_fileBytes`): an operand from `2 ^ 31` on, which the writer accepts, is
read as the negative number with the same bytes. It is the only way in which an operand changes
without an error.
-/

namespace TinyC

/-- The writer refuses an operand of four bytes that the bytes cannot hold with or without a sign.
-/
theorem Instr.fits_eq_false {i : Instr} : i.fits = false ↔
    i.op.operandSize = 4 ∧ (i.operand.toInt < -2 ^ 31 ∨ 2 ^ 32 ≤ i.operand.toInt) := by
  simp only [Instr.fits, Bool.or_eq_false_iff, bne_eq_false_iff_eq, Bool.and_eq_false_iff,
    decide_eq_false_iff_not, Int.not_le, Int.not_lt]

/-- An instruction is stored in its own bytes. -/
theorem Instr.stored_writable {i : Instr} (h : i.op.isListed = true) :
    i.stored.Writable ∧ i.stored.bytes = i.bytes := by
  have hdecode := Instr.decode_bytes h []
  obtain ⟨hw, hbytes⟩ := Instr.of_decode hdecode
  exact ⟨hw, (List.append_cancel_right hbytes).symm⟩

/-- An operand of four bytes that is written loses at most its place above the sign. -/
theorem Instr.stored_operand {i : Instr} (h4 : i.op.operandSize = 4) (hfits : i.fits = true) :
    -2 ^ 31 ≤ i.operand.toInt ∧ i.operand.toInt < 2 ^ 32 ∧ i.stored.operand.toInt =
      if i.operand.toInt < 2 ^ 31 then i.operand.toInt else i.operand.toInt - 2 ^ 32 := by
  have hrange : -2 ^ 31 ≤ i.operand.toInt ∧ i.operand.toInt < 2 ^ 32 := by
    simpa [Instr.fits, h4] using hfits
  have hword := toInt_eq_bmod i.operand
  have hlt := i.operand.toUInt64.toNat_lt
  have hread : i.stored.operand.toInt =
      ((i.operand.toUInt64.toNat % 256 ^ 4 : Nat) : Int).bmod (2 ^ 32) := by
    simp only [stored, h4, operandOf, length_bigEndian, if_true, ofBigEndian_bigEndian,
      toInt_signed]
  refine ⟨hrange.1, hrange.2, ?_⟩
  rw [hread]
  generalize i.operand.toUInt64.toNat = n at hword hlt
  simp only [Int.bmod_def] at hword ⊢
  split <;> omega

section

variable {π : Type}

/-- The function as a file holds it. -/
def Function.stored (f : Function π) : Function π :=
  { f with code := f.code.map Instr.stored }

namespace ProgramTables

variable {t : ProgramTables π}

/-- The tables as a file holds them. -/
def stored (t : ProgramTables π) : ProgramTables π :=
  { t with functions := t.functions.map Function.stored }

/-- Every operation of the code is listed. -/
def Listed (t : ProgramTables π) : Prop :=
  ∀ f ∈ t.functions.rows, ∀ i ∈ f.code, i.op.isListed = true

/-- All numbers and texts are short enough for the fields of a file. -/
structure Sized (t : ProgramTables π) : Prop where
  globals : t.globals.rows.length < 2 ^ 32
  functions : t.functions.rows.length < 2 ^ 32
  data : ∀ e ∈ t.globals.rows, e.data.length < 2 ^ 32
  rows : ∀ f ∈ t.functions.rows,
    f.paramCount < 2 ^ 32 ∧ f.locals.count < 2 ^ 32 ∧ f.code.length < 2 ^ 32

theorem stored_fileBytes (hlisted : t.Listed) : t.stored.fileBytes = t.fileBytes := by
  have hrows : ∀ f ∈ t.functions.rows, f.stored.fileBytes = f.fileBytes := by
    intro f hf
    have hcode : f.stored.code.flatMap Instr.bytes = f.code.flatMap Instr.bytes := by
      rw [Function.stored, List.flatMap_map]
      exact congrArg List.flatten
        (List.map_congr_left fun i hi => (Instr.stored_writable (hlisted f hf i hi)).2)
    have hlen : f.stored.code.length = f.code.length := List.length_map _
    rw [Function.fileBytes, hcode, hlen]
    rfl
  have hflat : t.stored.functions.rows.flatMap Function.fileBytes
      = t.functions.rows.flatMap Function.fileBytes := by
    rw [stored, Table.rows_map, List.flatMap_map]
    exact congrArg List.flatten (List.map_congr_left hrows)
  rw [fileBytes, hflat, stored, Table.rows_map, List.length_map]
  rfl

/-- What is stored of tables can be written. -/
theorem stored_writable (hlisted : t.Listed) (hsized : t.Sized) (hglobals : t.globals.Dense)
    (hfunctions : t.functions.Dense) : t.stored.Writable where
  globals := hglobals
  functions := by
    intro k g hg
    rw [stored, Table.rows_map, List.getElem?_map, Option.map_eq_some_iff] at hg
    obtain ⟨f, hf, rfl⟩ := hg
    exact hfunctions k f hf
  globals_length := hsized.globals
  functions_length := by
    rw [stored, Table.rows_map, List.length_map]
    exact hsized.functions
  data := hsized.data
  rows := by
    intro g hg
    obtain ⟨f, hf, rfl⟩ := List.mem_map.mp hg
    obtain ⟨hparams, hlocals, hlength⟩ := hsized.rows f hf
    refine ⟨hparams, hlocals, by rwa [Function.stored, List.length_map], fun x hx => ?_⟩
    obtain ⟨i, hi, rfl⟩ := List.mem_map.mp hx
    exact (Instr.stored_writable (hlisted f hf i hi)).1

/-- Tables are read back as what is stored of them. -/
theorem decode_fileBytes (hlisted : t.Listed) (hsized : t.Sized) (hglobals : t.globals.Dense)
    (hfunctions : t.functions.Dense) : Module.decode t.fileBytes = .ok t.stored.module := by
  rw [← stored_fileBytes hlisted]
  exact decode_writable (stored_writable hlisted hsized hglobals hfunctions)

theorem getElem?_stored {k j : Nat} {f : Function π} {i : Instr}
    (hf : t.functions.rows[k]? = some f) (hi : f.code[j]? = some i) :
    ∃ r, t.stored.module.functions[k]? = some r ∧ r.code[j]? = some i.stored := by
  refine ⟨f.stored.routine, ?_, ?_⟩
  · simp [module, stored, hf]
  · simp [Function.routine, Function.stored, hi]

/-- **Operands of four bytes that the writer accepts are read back with the sign of their bytes.**
So they stay what they are below `2 ^ 31`, and from there on they are less by `2 ^ 32`. The writer
refuses tables with an operand of four bytes out of `[-2 ^ 31, 2 ^ 32)`; if their entries stand at
their slots, it tells of the first such operand. -/
theorem operands_are_read_with_the_sign_of_their_bytes (hlisted : t.Listed) (hsized : t.Sized) :
    (∀ bytes, t.encode = .ok bytes → ∃ m, Module.decode bytes = .ok m ∧
      ∀ (k j : Nat) (f : Function π) (i : Instr),
        t.functions.rows[k]? = some f → f.code[j]? = some i →
        ∃ (r : Routine) (x : Instr), m.functions[k]? = some r ∧ r.code[j]? = some x ∧ x.op = i.op ∧
          (i.op.operandSize = 4 →
            -2 ^ 31 ≤ i.operand.toInt ∧ i.operand.toInt < 2 ^ 32 ∧ x.operand.toInt =
              if i.operand.toInt < 2 ^ 31 then i.operand.toInt else i.operand.toInt - 2 ^ 32)) ∧
    (t.globals.Dense → t.functions.Dense → (∃ bytes, t.encode = .ok bytes) ∨
      ∃ k f j i, FirstUnfit t.functions.rows k f j i ∧
        i.op.operandSize = 4 ∧ (i.operand.toInt < -2 ^ 31 ∨ 2 ^ 32 ≤ i.operand.toInt) ∧
        t.encode = .error (.operandRange f.name j i)) := by
  obtain ⟨hglobals, hfunctions, hfits, heq⟩ | ⟨hslots, error, heq⟩ | ⟨k, f, j, i, hfirst, heq⟩ :=
    t.encode_cases
  · refine ⟨fun bytes h => ?_, fun _ _ => .inl ⟨_, heq⟩⟩
    cases heq.symm.trans h
    refine ⟨_, decode_fileBytes hlisted hsized hglobals hfunctions, fun k j f i hf hi => ?_⟩
    obtain ⟨r, hr, hx⟩ := getElem?_stored hf hi
    refine ⟨r, i.stored, hr, hx, rfl, fun h4 => Instr.stored_operand h4 ?_⟩
    exact hfits f (List.mem_of_getElem? hf) i (List.mem_of_getElem? hi)
  · refine ⟨fun bytes h => ?_, fun hglobals hfunctions => absurd ⟨hglobals, hfunctions⟩ hslots⟩
    cases heq.symm.trans h
  · refine ⟨fun bytes h => ?_, fun _ _ => .inr ⟨k, f, j, i, hfirst, ?_⟩⟩
    · cases heq.symm.trans h
    · obtain ⟨h4, hrange⟩ := Instr.fits_eq_false.mp hfirst.unfit
      exact ⟨h4, hrange, heq⟩

end ProgramTables

end

/-- Tables whose entry function branches twice: by an operand that four bytes hold with its sign,
and by one that they hold only without. -/
def ProgramTables.branching : ProgramTables Nat where
  globals := {}
  functions := ⟨[{ Function.start "" .void none with code := [⟨.br, -3⟩, ⟨.br, 4294967295⟩] }], 1⟩

theorem ProgramTables.branching_listed : branching.Listed :=
  List.forall_mem_cons.mpr ⟨by decide, nofun⟩

theorem ProgramTables.branching_sized : branching.Sized :=
  ⟨by decide, by decide, nofun, List.forall_mem_cons.mpr ⟨by decide, nofun⟩⟩

theorem ProgramTables.branching_keeps_the_first_operand :
    ∃ bytes m r x, branching.encode = .ok bytes ∧ Module.decode bytes = .ok m ∧
      m.functions[0]? = some r ∧ r.code[0]? = some x ∧ x.operand.toInt = -3 := by
  have hencode : branching.encode = .ok branching.fileBytes := by rfl
  obtain ⟨m, hdecode, hread⟩ := (operands_are_read_with_the_sign_of_their_bytes branching_listed
    branching_sized).1 _ hencode
  obtain ⟨r, x, hr, hx, -, hoperand⟩ := hread 0 0 _ ⟨.br, -3⟩ rfl rfl
  exact ⟨_, m, r, x, hencode, hdecode, hr, hx, (hoperand rfl).2.2⟩

theorem ProgramTables.branching_changes_the_second_operand :
    ∃ bytes m f r x, branching.encode = .ok bytes ∧ Module.decode bytes = .ok m ∧
      branching.functions.rows[0]? = some f ∧ f.code[1]? = some ⟨.br, 4294967295⟩ ∧
      m.functions[0]? = some r ∧ r.code[1]? = some x ∧ x = ⟨.br, -1⟩ ∧
      x ≠ ⟨.br, 4294967295⟩ := by
  have hdense : branching.functions.Dense := by
    intro k f hf
    match k, hf with
    | 0, hf =>
      cases hf
      rfl
  have hdecode := decode_fileBytes branching_listed branching_sized nofun hdense
  exact ⟨_, _, _, _, _, by rfl, hdecode, rfl, rfl, rfl, rfl, by decide, by decide⟩

end TinyC
