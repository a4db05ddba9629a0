import TinyC.Proofs.Module.Emitted
import TinyC.Proofs.Module.Format
import TinyC.Proofs.Typing.Described
import TinyC.Toolchain.Compiler

/-!
# Compiled programs are read back as they were meant

Short tables that describe a program can be written (`writable_of_describes`), so for accepted
programs nothing can go wrong between the tables and the module that the machine runs: writing
succeeds, reading what was written succeeds, and not one instruction changes.
-/

namespace TinyC

variable {π : Type} {p : Program} {a : Analysis}

/-- Tables, their texts and the codes in them are shorter than 2^31. -/
structure ProgramTables.Short (t : ProgramTables π) : Prop where
  globals : t.globals.rows.length < 2 ^ 31
  texts : ∀ e ∈ t.globals.rows, e.data.length < 2 ^ 31
  functions : t.functions.rows.length < 2 ^ 31
  rows : ∀ f ∈ t.functions.rows, f.paramCount < 2 ^ 31 ∧ f.locals.count < 2 ^ 31 ∧
    f.code.length < 2 ^ 31

instance (t : ProgramTables π) : Decidable t.Short :=
  decidable_of_iff
    (t.globals.rows.length < 2 ^ 31 ∧ (∀ e ∈ t.globals.rows, e.data.length < 2 ^ 31) ∧
      t.functions.rows.length < 2 ^ 31 ∧ ∀ f ∈ t.functions.rows, f.paramCount < 2 ^ 31 ∧
        f.locals.count < 2 ^ 31 ∧ f.code.length < 2 ^ 31)
    ⟨fun ⟨hg, ht, hf, hr⟩ => ⟨hg, ht, hf, hr⟩, fun ⟨hg, ht, hf, hr⟩ => ⟨hg, ht, hf, hr⟩⟩

namespace ProgramTables

variable {t : ProgramTables π} {p : Core.Program}

/-- The code of the row at a slot is that of the core program. -/
theorem Describes.code_eq (h : t.Describes p) {k : Nat} {f : Function π}
    (hf : t.functions.rows[k]? = some f) : p.codes[k]? = some f.code := by
  rw [← h.codes, List.getElem?_map, hf]
  rfl

theorem Short.env (hs : t.Short) {f : Function π} (hf : f ∈ t.functions.rows)
    (hparams : f.paramCount = f.paramTypes.length)
    (hlocals : f.locals.count = f.locals.rows.length) : (t.env f).Short := by
  obtain ⟨hp, hl, _⟩ := hs.rows f hf
  refine ⟨?_, ?_, ?_, ?_⟩
  · simpa [ProgramTables.env] using hs.globals
  · simpa [ProgramTables.env] using hs.functions
  · simpa [ProgramTables.env, ← hparams] using hp
  · simpa [ProgramTables.env, ← hlocals] using hl

/-- The code of the entry function can be written. -/
theorem Describes.writable_entryCode (h : t.Describes p) (hs : t.Short) :
    ∀ i ∈ p.entryCode, i.Writable := by
  obtain ⟨f, hf, htype, hparams, hlocals, hinits⟩ := h.entry
  have hshort : (t.env f).Short :=
    hs.env (List.mem_of_getElem? hf) (by simp [Function.paramCount, Function.paramTypes, hparams])
      (by simp [hlocals])
  have hlists : (t.env f).ListsAll 0 p.entryCode := by
    refine .append (fun i hi => ?_) ?_
    · obtain ⟨init, hinit, hi⟩ := List.mem_flatMap.mp hi
      obtain ⟨htyped, hplace, _⟩ := hinits init hinit
      exact Core.lists_store (Core.lists_address hplace) htyped i hi
    · cases hmain : p.main with
      | none => exact .nil
      | some pair =>
        obtain ⟨slot, type⟩ := pair
        obtain ⟨hpos, g, hg, _⟩ := h.main slot type hmain
        have hlt := (List.getElem?_eq_some_iff.mp hg).1
        refine .cons (Core.lists_room (.function slot type)) (.single (.call hpos ?_))
        rwa [env, List.length_map]
  exact fun i hi => (hlists i hi).writable hshort (by decide)

/-- Short tables that describe a program can be written. -/
theorem Describes.writable (h : t.Describes p) (hs : t.Short) : t.Writable where
  globals := h.globals
  functions := h.functions
  globals_length := Nat.lt_trans hs.globals (by decide)
  functions_length := Nat.lt_trans hs.functions (by decide)
  data := fun e he => Nat.lt_trans (hs.texts e he) (by decide)
  rows := by
    intro f hf
    obtain ⟨hp, hl, hc⟩ := hs.rows f hf
    refine ⟨Nat.lt_trans hp (by decide), Nat.lt_trans hl (by decide), Nat.lt_trans hc (by decide),
      ?_⟩
    obtain ⟨k, hk⟩ := List.mem_iff_getElem?.mp hf
    have hcode := h.code_eq hk
    cases k with
    | zero =>
      have hentry : p.entryCode = f.code := Option.some.inj hcode
      rw [← hentry]
      exact h.writable_entryCode hs
    | succ k =>
      rw [Core.Program.codes, List.getElem?_cons_succ, List.getElem?_map,
        Option.map_eq_some_iff] at hcode
      obtain ⟨fn, hfn, hfcode⟩ := hcode
      obtain ⟨g, hg, hrow⟩ := h.rows k fn hfn
      rw [hk] at hg
      cases hg
      rw [← hfcode]
      exact fun i hi =>
        (hrow.typed.lists i hi).writable (hs.env hf hrow.params hrow.locals) (hfcode ▸ hc)

/-- The functions of the module have the codes of the core program. -/
theorem Describes.module_codes (h : t.Describes p) :
    t.module.functions.toList.map (·.code.toList) = p.codes := by
  rw [← h.codes]
  simp [ProgramTables.module, Function.routine, Function.comp_def]

end ProgramTables

/-- The word of a number is read back from its eight bytes. -/
theorem Entry.word_global {e : Entry π} (h : e.type ≠ .string) : e.global.word = e.value := by
  have hlt : e.value.toNat < 256 ^ 8 := e.value.toNat_lt
  simp only [Entry.global, Global.word, Entry.data, h, if_false, length_bigEndian, if_true,
    ofBigEndian_bigEndian, Nat.mod_eq_of_lt hlt]
  exact UInt64.ofNat_toNat

/-- A program is accepted if its source is. -/
theorem Program.outcome_source (h : p.analyse.result = .ok a) :
    (TinyC.analyse p.source).outcome = .ok a := by
  unfold Program.analyse at h
  rcases hs : TinyC.analyse p.source with ⟨d | b, notes⟩
  · rw [hs] at h
    cases h
  · rw [hs] at h
    cases h
    rfl

theorem Program.describes (h : p.analyse.result = .ok a) : a.tables.Describes a.core :=
  describes_of_analyse (Program.outcome_source h)

/-- What compiling and loading give for a program whose tables can be written. -/
theorem Program.compile_of_writable (o : CompilerOptions) (ha : p.analyse.result = .ok a)
    (hw : a.tables.Writable) :
    (p.compile o).result = .ok a.tables.fileBytes ∧ (p.load o).result = .ok a.tables.module := by
  have hdecode := ProgramTables.decode_writable hw
  have hgenerate : a.tables.generate none =
      (⟨a.tables.fileBytes, none⟩, [a.tables.encodeNote a.tables.fileBytes]) := by
    rw [ProgramTables.generate, ProgramTables.encode_writable hw]
    rfl
  have hdump : ∃ notes, o.dump ⟨a.tables.fileBytes, none⟩ = (⟨a.tables.fileBytes, none⟩, notes) := by
    unfold CompilerOptions.dump moduleNote
    rw [hdecode]
    split
    · exact ⟨_, rfl⟩
    · exact ⟨_, rfl⟩
  obtain ⟨notes, hdump⟩ := hdump
  have hcompile : (p.compile o).result = .ok a.tables.fileBytes := by
    unfold Program.compile Program.compileTo
    rcases hp : p.analyse with ⟨f | b, ns⟩
    · rw [hp] at ha
      cases ha
    · rw [hp] at ha
      cases ha
      simp only [hgenerate, hdump]
  refine ⟨hcompile, ?_⟩
  unfold Program.load
  rcases hc : p.compile o with ⟨f | bytes, ns⟩
  · rw [hc] at hcompile
    cases hcompile
  · rw [hc] at hcompile
    cases hcompile
    simp only [hdecode]

/-- **Module files lose nothing.** Tables that can be written are written, and read back as the
module that they are. An accepted program with short tables has such tables: compiling it gives a
file, the file is read back as its module, and the functions of the module have exactly the codes
that were laid out for the program. -/
theorem module_file_round_trip :
    (∀ (π : Type) (t : ProgramTables π), t.Writable →
      ∃ bytes, t.encode = .ok bytes ∧ Module.decode bytes = .ok t.module) ∧
    (∀ (o : CompilerOptions) (p : Program) (a : Analysis),
      p.analyse.result = .ok a → a.tables.Short →
        a.tables.Writable ∧
        (∃ bytes, (p.compile o).result = .ok bytes ∧ Module.decode bytes = .ok a.tables.module) ∧
        (p.load o).result = .ok a.tables.module ∧
        a.tables.module.functions.toList.map (·.code.toList) = a.core.codes ∧
        ∀ e ∈ a.tables.globals.rows, e.type ≠ .string → e.global.word = e.value) := by
  constructor
  · intro π t ht
    exact ⟨t.fileBytes, ProgramTables.encode_writable ht, ProgramTables.decode_writable ht⟩
  · intro o p a ha hshort
    have hdescribes := Program.describes ha
    have hwritable := hdescribes.writable hshort
    obtain ⟨hcompile, hload⟩ := Program.compile_of_writable o ha hwritable
    exact ⟨hwritable, ⟨_, hcompile, ProgramTables.decode_writable hwritable⟩, hload,
      hdescribes.module_codes, fun e _ he => Entry.word_global he⟩

/-- A program with a global, a call, a loop and a text. -/
def sample : Program where
  name := "sample"
  bytes := Text.bytesOf
    ("let n: int = 3; fn half(x: int) -> int \x7b return x / 2; \x7d fn main() -> int \x7b "
      ++ "while n > 0 \x7b putint(half(n)); n = n - 1; \x7d putstr(\"ok\"); return 7; \x7d")

theorem sample_accepted : ∃ a, sample.analyse.result = .ok a ∧ a.tables.Short := by
  obtain ⟨a, ha, h⟩ := exists_ok (r := sample.analyse.result) (p := fun a => a.tables.Short)
    (by rw [sample, Text.bytesOf_concat, Text.bytesOf_ofList]; decide +kernel)
  exact ⟨a, ha, of_decide_eq_true h⟩

theorem module_file_round_trip_sample :
    ∃ a, sample.analyse.result = .ok a ∧ a.tables.Short ∧ a.tables.Writable ∧
      (∃ bytes, a.tables.encode = .ok bytes ∧ Module.decode bytes = .ok a.tables.module) ∧
      (sample.load {}).result = .ok a.tables.module := by
  obtain ⟨a, ha, hshort⟩ := sample_accepted
  obtain ⟨hwritable, _, hload, _⟩ := module_file_round_trip.2 {} sample a ha hshort
  exact ⟨a, ha, hshort, hwritable, module_file_round_trip.1 _ _ hwritable, hload⟩

end TinyC
