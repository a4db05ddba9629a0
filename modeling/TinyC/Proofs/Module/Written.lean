import TinyC.Module.Decode
import TinyC.Module.Encode
import TinyC.Proofs.Typing.Tables

/-!
# What is written of tables

Tables are written part by part, in the order of the file. They are written whole if their entries
stand at their slots and every operand passes the check of the writer; otherwise the first entry or
instruction for which this fails is the error (`ProgramTables.encode_cases`).

`ProgramTables.Writable` is what tables need for their file to be read back as the module that they
are. Such tables are written (`encode_writable`).
-/

namespace TinyC

/-! ## Numbers -/

theorem foldl_bigEndian (n v acc : Nat) :
    (bigEndian n v).foldl (fun n b => n * 256 + b.toNat) acc = acc * 256 ^ n + v % 256 ^ n := by
  induction n generalizing acc with
  | zero => simp [bigEndian, Nat.mod_one]
  | succ k ih =>
    have hbyte : (v / 256 ^ k).toUInt8.toNat = v / 256 ^ k % 256 := UInt8.toNat_ofNat'
    rw [bigEndian, List.foldl_cons, ih, hbyte, Nat.pow_succ, Nat.mod_mul, Nat.add_mul,
      Nat.mul_comm (256 ^ k) (v / 256 ^ k % 256), Nat.mul_assoc, Nat.mul_comm 256]
    omega

/-- The lowest bytes of a number stand for the number, as far as they go. -/
theorem ofBigEndian_bigEndian (n v : Nat) : ofBigEndian (bigEndian n v) = v % 256 ^ n := by
  simp [ofBigEndian, foldl_bigEndian]

theorem toInt_eq_bmod (x : Int64) : x.toInt = (x.toUInt64.toNat : Int).bmod (2 ^ 64) := by
  show x.toBitVec.toInt = _
  rw [BitVec.toInt_eq_toNat_bmod]
  rfl

/-- Four bytes are read with their sign. -/
theorem toInt_signed (v : Nat) : v.toUInt32.toInt32.toInt64.toInt = (v : Int).bmod (2 ^ 32) := by
  rw [Int32.toInt_toInt64]
  show (BitVec.ofNat 32 v).toInt = _
  rw [BitVec.toInt_eq_toNat_bmod, BitVec.toNat_ofNat, Int.natCast_emod]
  exact Int.emod_bmod _ _

/-! ## What tables mean as a module -/

section Meaning

variable {π : Type}

/-- The global that an entry is. -/
def Entry.global (e : Entry π) : Global :=
  ⟨e.isConstant, e.data⟩

/-- The function of a module that a row is. -/
def Function.routine (f : Function π) : Routine :=
  ⟨f.slot, f.type.slots, f.paramCount, f.locals.count, f.code.toArray⟩

/-- The module that tables are. -/
def ProgramTables.module (t : ProgramTables π) : Module where
  magic := Module.standardMagic
  version := Module.standardVersion
  globals := (t.globals.rows.map Entry.global).toArray
  functions := (t.functions.rows.map Function.routine).toArray

/-- The instruction can be written and read back: its operation is listed, and its operand fits in
the bytes that it has there. -/
structure Instr.Writable (i : Instr) : Prop where
  listed : i.op.isListed = true
  zero : i.op.operandSize = 0 → i.operand = 0
  range : i.op.operandSize = 4 → -2 ^ 31 ≤ i.operand.toInt ∧ i.operand.toInt < 2 ^ 31

/-- The row can be written and read back. -/
structure Function.Writable (f : Function π) : Prop where
  params : f.paramCount < 2 ^ 32
  locals : f.locals.count < 2 ^ 32
  length : f.code.length < 2 ^ 32
  code : ∀ i ∈ f.code, i.Writable

/-- Tables can be written and read back: entries stand at their slots, instructions are listed and
their operands fit, and all numbers and texts are short enough for the fields of a file. -/
structure ProgramTables.Writable (t : ProgramTables π) : Prop where
  globals : t.globals.Dense
  functions : t.functions.Dense
  globals_length : t.globals.rows.length < 2 ^ 32
  functions_length : t.functions.rows.length < 2 ^ 32
  data : ∀ e ∈ t.globals.rows, e.data.length < 2 ^ 32
  rows : ∀ f ∈ t.functions.rows, f.Writable

end Meaning

/-! ## Parts of a file -/

/-- The first instruction whose operand is not written, with its index and its function. -/
structure FirstUnfit {π : Type} (fs : List (Function π)) (k : Nat) (f : Function π) (j : Nat)
    (i : Instr) : Prop where
  row : fs[k]? = some f
  instr : f.code[j]? = some i
  unfit : i.fits = false
  rows : ∀ g ∈ fs.take k, ∀ x ∈ g.code, x.fits = true
  front : ∀ x ∈ f.code.take j, x.fits = true

theorem codeBytes_cases (name : String) (index : Nat) (code : List Instr) :
    ((∀ i ∈ code, i.fits = true) ∧ codeBytes name index code = .ok (code.flatMap Instr.bytes)) ∨
      ∃ j i, code[j]? = some i ∧ i.fits = false ∧ (∀ x ∈ code.take j, x.fits = true) ∧
        codeBytes name index code = .error (.operandRange name (index + j) i) := by
  induction code generalizing index with
  | nil => exact .inl ⟨nofun, rfl⟩
  | cons i code ih =>
    rw [codeBytes]
    cases hfits : i.fits with
    | false => exact .inr ⟨0, i, rfl, hfits, nofun, rfl⟩
    | true =>
      rw [if_pos rfl]
      obtain ⟨hall, heq⟩ | ⟨j, x, hx, hunfit, hfront, heq⟩ := ih (index + 1)
      · exact .inl ⟨List.forall_mem_cons.mpr ⟨hfits, hall⟩, by rw [heq]; rfl⟩
      · refine .inr ⟨j + 1, x, hx, hunfit, List.forall_mem_cons.mpr ⟨hfits, hfront⟩, ?_⟩
        rw [heq, Nat.add_assoc, Nat.add_comm 1 j]
        rfl

section

variable {π : Type}

/-- The bytes of a function whose instructions can be written. -/
def Function.fileBytes (f : Function π) : List UInt8 :=
  fieldBytes f.slot ++ fieldBytes f.type.slots ++ fieldBytes f.paramCount
    ++ fieldBytes f.locals.count ++ fieldBytes f.code.length ++ f.code.flatMap Instr.bytes

theorem globalBytes_cases (position : Nat) (es : List (Entry π)) :
    ((∀ i e, es[i]? = some e → e.slot = position + i) ∧
      globalBytes position es = .ok (es.flatMap Entry.bytes)) ∨
      (∃ i e, es[i]? = some e ∧ e.slot ≠ position + i) ∧
        ∃ error, globalBytes position es = .error error := by
  induction es generalizing position with
  | nil => exact .inl ⟨nofun, rfl⟩
  | cons e es ih =>
    rw [globalBytes]
    by_cases hslot : e.slot = position
    · rw [if_pos hslot]
      obtain ⟨hslots, heq⟩ | ⟨⟨i, x, hx, hne⟩, error, heq⟩ := ih (position + 1)
      · refine .inl ⟨fun i x hx => ?_, by rw [heq]; rfl⟩
        cases i with
        | zero =>
          cases hx
          exact hslot
        | succ i =>
          rw [hslots i x hx]
          omega
      · exact .inr ⟨⟨i + 1, x, hx, by omega⟩, error, by rw [heq]; rfl⟩
    · rw [if_neg hslot]
      exact .inr ⟨⟨0, e, rfl, hslot⟩, _, rfl⟩

theorem functionBytes_cases (position : Nat) (fs : List (Function π)) :
    ((∀ i f, fs[i]? = some f → f.slot = position + i) ∧ (∀ f ∈ fs, ∀ i ∈ f.code, i.fits = true) ∧
      functionBytes position fs = .ok (fs.flatMap Function.fileBytes)) ∨
      ((∃ i f, fs[i]? = some f ∧ f.slot ≠ position + i) ∧
        ∃ error, functionBytes position fs = .error error) ∨
      ∃ k f j i, FirstUnfit fs k f j i ∧
        functionBytes position fs = .error (.operandRange f.name j i) := by
  induction fs generalizing position with
  | nil => exact .inl ⟨nofun, nofun, rfl⟩
  | cons f fs ih =>
    rw [functionBytes]
    by_cases hslot : f.slot = position
    · rw [if_pos hslot, Function.bytes]
      obtain ⟨hfits, heq⟩ | ⟨j, i, hi, hunfit, hfront, heq⟩ := codeBytes_cases f.name 0 f.code
      · rw [heq]
        obtain ⟨hslots, hall, heq⟩ | ⟨⟨i, g, hg, hne⟩, error, heq⟩ | ⟨k, g, j, i, hfirst, heq⟩ :=
          ih (position + 1)
        · refine .inl ⟨fun i g hg => ?_, List.forall_mem_cons.mpr ⟨hfits, hall⟩, by rw [heq]; rfl⟩
          cases i with
          | zero =>
            cases hg
            exact hslot
          | succ i =>
            rw [hslots i g hg]
            omega
        · exact .inr (.inl ⟨⟨i + 1, g, hg, by omega⟩, error, by rw [heq]; rfl⟩)
        · exact .inr (.inr ⟨k + 1, g, j, i, { hfirst with
            rows := List.forall_mem_cons.mpr ⟨hfits, hfirst.rows⟩ }, by rw [heq]; rfl⟩)
      · refine .inr (.inr ⟨0, f, j, i, ⟨rfl, hi, hunfit, nofun, hfront⟩, ?_⟩)
        rw [heq, Nat.zero_add]
        rfl
    · rw [if_neg hslot]
      exact .inr (.inl ⟨⟨0, f, rfl, hslot⟩, _, rfl⟩)

namespace ProgramTables

/-- The module file of tables that can be written. -/
def fileBytes (t : ProgramTables π) : List UInt8 :=
  fieldBytes Module.standardMagic.toNat ++ fieldBytes Module.standardVersion.toNat
    ++ fieldBytes t.globals.rows.length ++ t.globals.rows.flatMap Entry.bytes
    ++ fieldBytes t.functions.rows.length ++ t.functions.rows.flatMap Function.fileBytes

/-- **Tables are written or the first thing that cannot be written is told.** -/
theorem encode_cases (t : ProgramTables π) :
    (t.globals.Dense ∧ t.functions.Dense ∧ (∀ f ∈ t.functions.rows, ∀ i ∈ f.code, i.fits = true) ∧
      t.encode = .ok t.fileBytes) ∨
      (¬(t.globals.Dense ∧ t.functions.Dense) ∧ ∃ error, t.encode = .error error) ∨
      ∃ k f j i, FirstUnfit t.functions.rows k f j i ∧
        t.encode = .error (.operandRange f.name j i) := by
  rw [encode]
  obtain ⟨hglobals, heq⟩ | ⟨⟨i, e, he, hne⟩, error, heq⟩ := globalBytes_cases 0 t.globals.rows
  · rw [heq]
    obtain ⟨hslots, hfits, heq⟩ | ⟨⟨i, f, hf, hne⟩, error, heq⟩ | ⟨k, f, j, i, hfirst, heq⟩ :=
      functionBytes_cases 0 t.functions.rows
    · refine .inl ⟨fun i e he => ?_, fun i f hf => ?_, hfits, by rw [heq]; rfl⟩
      · exact (hglobals i e he).trans (Nat.zero_add i)
      · exact (hslots i f hf).trans (Nat.zero_add i)
    · refine .inr (.inl ⟨fun hdense => hne ?_, error, by rw [heq]; rfl⟩)
      exact (hdense.2 i f hf).trans (Nat.zero_add i).symm
    · exact .inr (.inr ⟨k, f, j, i, hfirst, by rw [heq]; rfl⟩)
  · refine .inr (.inl ⟨fun hdense => hne ?_, error, by rw [heq]; rfl⟩)
    exact (hdense.1 i e he).trans (Nat.zero_add i).symm

/-- Tables that can be written are written. -/
theorem encode_writable {t : ProgramTables π} (h : t.Writable) : t.encode = .ok t.fileBytes := by
  obtain ⟨-, -, -, heq⟩ | ⟨hslots, -⟩ | ⟨k, f, j, i, hfirst, -⟩ := t.encode_cases
  · exact heq
  · exact absurd ⟨h.globals, h.functions⟩ hslots
  · have hi := (h.rows f (List.mem_of_getElem? hfirst.row)).code i
      (List.mem_of_getElem? hfirst.instr)
    have hunfit := hfirst.unfit
    by_cases h4 : i.op.operandSize = 4
    · obtain ⟨hlo, hhi⟩ := hi.range h4
      simp only [Instr.fits, h4, bne_self_eq_false, Bool.false_or, Bool.and_eq_false_iff,
        decide_eq_false_iff_not] at hunfit
      omega
    · simp [Instr.fits, h4] at hunfit

end ProgramTables

end

end TinyC
