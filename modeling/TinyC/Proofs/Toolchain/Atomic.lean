import Mathlib.Algebra.BigOperators.Group.Finset.Piecewise
import TinyC.Proofs.Module.Compiled
import TinyC.Toolchain.Session

/-!
# Compiling is atomic

A compiler writes the module file of a program at once when it is complete, so a receiver sees all
of it in one write or nothing (`Program.compileInto_of_writable`). That a module is noted after it
has been written makes no difference: what was written can always be read back.

Every program that is compiled counts once, as compiled or as a failure, and every failure counts
once by name and once by family, so the two sums never differ (`Counters.Balanced`). Compiling a
file changes the file that it writes to and no other, and that one only if all went well
(`Session.CompilesFile`).
-/

namespace TinyC

/-! ## One write -/

/-- A receiver of bytes: what a write makes of its state, and whether the write fails. -/
structure Receiver (σ : Type) where
  take : List UInt8 → σ → σ × Option Failure

/-- The receiver that keeps bytes up to a number of them. -/
def Receiver.limited (limit : Option Nat) : Receiver (List UInt8) where
  take bytes kept :=
    match limit with
    | none => (kept ++ bytes, none)
    | some l =>
      if kept.length + bytes.length ≤ l then (kept ++ bytes, none)
      else (kept ++ bytes.take (l - kept.length), some .full)

/-- Writes a module file to a receiver. -/
def Receiver.put {σ : Type} (r : Receiver σ) (bytes : List UInt8) (s : σ) : σ × Option Failure :=
  match r.take bytes s with
  | (s', none) => (s', none)
  | (s', some f) => (s', some (.within "failed to write module" f))

/-- Compiles a program and writes its module file to any receiver. -/
def Program.compileInto {σ : Type} (o : CompilerOptions) (r : Receiver σ) (p : Program) (s : σ) :
    σ × Option Failure :=
  match p.analyse.result with
  | .error f => (s, some f)
  | .ok a =>
    match a.tables.encode with
    | .error e => (s, some (.encode e))
    | .ok bytes =>
      match r.put bytes s with
      | (s', some f) => (s', some f)
      | (s', none) =>
        if o.dumpModule then
          match moduleNote bytes with
          | .ok _ => (s', none)
          | .error f => (s', some f)
        else (s', none)

variable {σ : Type} {p : Program}

theorem put_limited (limit : Option Nat) (bytes : List UInt8) :
    (Receiver.limited limit).put bytes [] =
      ((writeModule limit bytes).bytes, (writeModule limit bytes).failure) := by
  cases limit with
  | none => rfl
  | some l =>
    unfold writeModule Receiver.put Receiver.limited
    by_cases hfits : bytes.length ≤ l <;> simp [hfits]

/-- A write that does not fail writes everything. -/
theorem bytes_of_writeModule {limit : Option Nat} {bytes taken : List UInt8}
    (h : writeModule limit bytes = ⟨taken, none⟩) : taken = bytes := by
  unfold writeModule at h
  split at h
  · cases h
    rfl
  · split at h
    · cases h
      rfl
    · cases h

/-- Compiling to a receiver that takes a number of bytes is a case of this. -/
theorem Program.compileInto_limited (o : CompilerOptions) (limit : Option Nat) (p : Program) :
    p.compileInto o (.limited limit) [] =
      ((p.compileTo o limit).1.bytes, (p.compileTo o limit).1.failure) := by
  unfold Program.compileInto Program.compileTo
  rcases p.analyse with ⟨f | a, notes⟩
  · rfl
  · dsimp only
    unfold ProgramTables.generate
    cases a.tables.encode with
    | error e => rfl
    | ok bytes =>
      dsimp only
      rw [put_limited]
      rcases hwritten : writeModule limit bytes with ⟨taken, _ | f⟩
      · obtain rfl : taken = bytes := bytes_of_writeModule hwritten
        unfold CompilerOptions.dump
        cases o.dumpModule with
        | false => rfl
        | true => cases moduleNote taken <;> rfl
      · rfl

theorem Program.compileInto_of_rejected {f : Failure} (h : p.analyse.result = .error f)
    (o : CompilerOptions) (r : Receiver σ) (s : σ) : p.compileInto o r s = (s, some f) := by
  rw [Program.compileInto, h]

/-- The module file of short tables is written at once, and what is noted of it afterwards makes no
difference. -/
theorem Program.compileInto_of_writable {a : Analysis} (h : p.analyse.result = .ok a)
    (hw : a.tables.Writable) (o : CompilerOptions) (r : Receiver σ) (s : σ) :
    p.compileInto o r s = r.put a.tables.fileBytes s := by
  have hnote : moduleNote a.tables.fileBytes =
      .ok (Note.info ("Dumping module and bytecode\n" ++ a.tables.module.listing)) := by
    rw [moduleNote, ProgramTables.decode_writable hw]
  rw [Program.compileInto, h]
  dsimp only
  rw [ProgramTables.encode_writable hw]
  dsimp only
  rw [hnote]
  rcases r.put a.tables.fileBytes s with ⟨s', _ | f⟩
  · simp
  · rfl

/-- Short tables can be written, so what is noted afterwards makes no difference. -/
theorem Program.compileTo_options (h : ∀ a, p.analyse.result = .ok a → a.tables.Short)
    (o o' : CompilerOptions) (limit : Option Nat) :
    (p.compileTo o limit).1 = (p.compileTo o' limit).1 := by
  have hsame : p.compileInto o (.limited limit) [] = p.compileInto o' (.limited limit) [] := by
    cases hresult : p.analyse.result with
    | error f => rw [compileInto_of_rejected hresult, compileInto_of_rejected hresult]
    | ok a =>
      have hwritable := (Program.describes hresult).writable (h a hresult)
      rw [compileInto_of_writable hresult hwritable, compileInto_of_writable hresult hwritable]
  rw [compileInto_limited, compileInto_limited] at hsame
  generalize (p.compileTo o limit).1 = w at hsame ⊢
  generalize (p.compileTo o' limit).1 = w' at hsame ⊢
  cases w
  cases w'
  cases hsame
  rfl

/-! ## Counting -/

theorem lookup_row {β : Type} (rows : List (String × β)) (m n : String) (b : β) :
    ((m, b) :: rows).lookup n = if n = m then some b else rows.lookup n := by
  by_cases h : n = m
  · simp [h]
  · have hne : (n == m) = false := beq_eq_false_iff_ne.mpr h
    simp [List.lookup_cons, h, hne]

namespace Counts

/-- How often something happened. -/
def value (c : Counts) (name : String) : Nat :=
  (c.lookup name).getD 0

/-- The names that have been counted. -/
def names (c : Counts) : Finset String :=
  (c.map Prod.fst).toFinset

/-- The sum over all names. -/
def total (c : Counts) : Nat :=
  ∑ n ∈ c.names, c.value n

/-- One more is counted for a name, and for no other. -/
theorem value_bump (c : Counts) (name n : String) :
    (c.bump name).value n = c.value n + if n = name then 1 else 0 := by
  induction c with
  | nil =>
    simp only [bump, value, lookup_row]
    split <;> rfl
  | cons row rest ih =>
    obtain ⟨m, k⟩ := row
    unfold bump
    by_cases hm : m = name
    · subst hm
      rw [if_pos rfl]
      simp only [value, lookup_row]
      split <;> rfl
    · rw [if_neg hm]
      simp only [value, lookup_row] at ih ⊢
      by_cases hn : n = m
      · subst hn
        simp [hm]
      · rw [if_neg hn, if_neg hn]
        exact ih

theorem names_bump (c : Counts) (name : String) : (c.bump name).names = insert name c.names := by
  induction c with
  | nil => rfl
  | cons row rest ih =>
    obtain ⟨m, k⟩ := row
    unfold bump
    by_cases hm : m = name
    · simp [names, hm]
    · have hrest : ((bump name rest).map Prod.fst).toFinset =
          insert name (rest.map Prod.fst).toFinset := ih
      simp [names, hm, hrest, Finset.insert_comm]

theorem value_of_not_mem {c : Counts} {name : String} (h : name ∉ c.names) : c.value name = 0 := by
  induction c with
  | nil => rfl
  | cons row rest ih =>
    obtain ⟨m, k⟩ := row
    simp only [names, List.map_cons, List.toFinset_cons, Finset.mem_insert, not_or] at h
    rw [value, lookup_row, if_neg h.1]
    exact ih h.2

theorem total_bump (c : Counts) (name : String) : (c.bump name).total = c.total + 1 := by
  unfold total
  simp only [names_bump, value_bump, Finset.sum_add_distrib]
  rw [Finset.sum_insert_of_eq_zero_if_notMem value_of_not_mem]
  simp

end Counts

/-- The families that failures are counted under. -/
def familyNames : List String :=
  ["lexical", "semantic", "io"]

/-- Every failure has its family. -/
theorem Failure.familyName_mem (f : Failure) : f.familyName ∈ familyNames := by
  unfold Failure.familyName
  split
  · rename_i d _
    unfold Diagnostic.family Code.family
    split <;> decide
  · decide

namespace Counters

/-- As many failures have been counted by name as by family, and the families are those three. -/
structure Balanced (c : Counters) : Prop where
  sums : c.errors.total = c.families.total
  families : ∀ n ∈ c.families.names, n ∈ familyNames

variable {c : Counters}

theorem balanced_start : Balanced {} :=
  ⟨rfl, by simp [Counts.names]⟩

theorem Balanced.success (h : c.Balanced) (name : String) : (c.success name).Balanced :=
  ⟨h.sums, h.families⟩

theorem Balanced.failure (h : c.Balanced) (name : String) (f : Failure) :
    (c.failure name f).Balanced := by
  refine ⟨?_, ?_⟩
  · show (c.errors.bump _).total = (c.families.bump _).total
    rw [Counts.total_bump, Counts.total_bump, h.sums]
  · show ∀ n ∈ (c.families.bump _).names, n ∈ familyNames
    rw [Counts.names_bump]
    exact Finset.forall_mem_insert _ _ _ |>.mpr ⟨f.familyName_mem, h.families⟩

end Counters

/-! ## Files -/

namespace Files

theorem lookup_map_set (rows : List (String × List UInt8)) (path other : String)
    (bytes : List UInt8) :
    (rows.map fun (p, bs) => if p == path then (p, bytes) else (p, bs)).lookup other =
      if other = path then (rows.lookup path).map fun _ => bytes else rows.lookup other := by
  induction rows with
  | nil => simp
  | cons row rows ih =>
    obtain ⟨p, bs⟩ := row
    rw [List.map_cons, lookup_row _ p, lookup_row _ p]
    dsimp only
    by_cases hp : p = path
    · subst hp
      rw [if_pos (beq_self_eq_true p), lookup_row, ih]
      split <;> simp
    · rw [if_neg (by simpa using hp), lookup_row, ih]
      by_cases ho : other = path
      · subst ho
        simp [Ne.symm hp]
      · simp [ho]

/-- A file under a clean path is put in, and all others are as they were. -/
theorem lookup_set (fs : Files) (path other : String) (bytes : List UInt8) :
    (fs.set path bytes).rows.lookup other =
      if other = path then some bytes else fs.rows.lookup other := by
  unfold set
  split
  · rename_i hthere
    obtain ⟨old, hold⟩ := Option.isSome_iff_exists.mp hthere
    rw [lookup_map_set, hold]
    rfl
  · rename_i hfree
    rw [Bool.not_eq_true, Option.isSome_eq_false_iff, Option.isNone_iff_eq_none] at hfree
    rw [List.lookup_append, lookup_row]
    by_cases ho : other = path
    · subst ho
      simp [hfree]
    · simp [ho]

theorem lookup_ensure (fs : Files) (path other : String) :
    (fs.ensure path).rows.lookup other =
      if other = path ∧ fs.rows.lookup other = none then some [] else fs.rows.lookup other := by
  unfold ensure
  by_cases ho : other = path
  · subst ho
    cases hfound : fs.rows.lookup other with
    | none => simp [lookup_set]
    | some bytes => simp [hfound]
  · split
    · simp [ho]
    · simp [ho, lookup_set]

/-- Directories come into being where there was nothing. -/
theorem lookup_foldl_ensure (ds : List String) (fs : Files) (other : String) :
    (ds.foldl ensure fs).rows.lookup other =
      if other ∈ ds ∧ fs.rows.lookup other = none then some [] else fs.rows.lookup other := by
  induction ds generalizing fs with
  | nil => simp
  | cons d ds ih =>
    rw [List.foldl_cons, ih, lookup_ensure]
    generalize fs.rows.lookup other = found
    by_cases ho : other = d <;> cases found <;> simp [ho]

/-- The file that is written holds the bytes. Of all others, directories above it may come into
being. -/
theorem find?_write (fs : Files) (path other : String) (bytes : List UInt8) :
    (fs.write path bytes).find? other =
      if normal other = normal path then some bytes
      else if normal other ∈ above (normal path).length (normal path) ∧ fs.find? other = none then
        some []
      else fs.find? other := by
  unfold write find?
  rw [lookup_set, lookup_foldl_ensure]

end Files

/-! ## Sessions -/

/-- What a call of the compiler adds to the counts: one for the program, which is compiled or has a
failure, and one for the family of the failure. -/
def Counters.Adds (c c' : Counters) (name : String) : Option Failure → Prop
  | none =>
    (∀ n, c'.compiles.value n = c.compiles.value n + if n = Path.base name then 1 else 0) ∧
      c'.errors = c.errors ∧ c'.families = c.families
  | some _ =>
    c'.compiles = c.compiles ∧
      (∀ n, c'.errors.value n = c.errors.value n + if n = Path.base name then 1 else 0) ∧
      ∃ family ∈ familyNames, ∀ n,
        c'.families.value n = c.families.value n + if n = family then 1 else 0

/-- The store has new bytes under a path. All other files are as they were, but for directories
above the path that came into being. -/
structure Files.Replaced (fs fs' : Files) (path : String) (bytes : List UInt8) : Prop where
  target : fs'.read path = .ok bytes
  kept : ∀ other old, Files.normal other ≠ Files.normal path → fs.read other = .ok old →
    fs'.read other = .ok old
  fresh : ∀ other new, Files.normal other ≠ Files.normal path → fs'.read other = .ok new →
    fs.read other = .ok new ∨
      Files.normal other ∈ Files.above (Files.normal path).length (Files.normal path) ∧ new = []

theorem Files.read_eq_ok {fs : Files} {path : String} {bytes : List UInt8} :
    fs.read path = .ok bytes ↔ fs.find? path = some bytes := by
  unfold Files.read
  cases fs.find? path <;> simp

theorem Files.replaced_write (fs : Files) (path : String) (bytes : List UInt8) :
    fs.Replaced (fs.write path bytes) path bytes := by
  refine ⟨?_, fun other old hne hold => ?_, fun other new hne hnew => ?_⟩
  · rw [read_eq_ok, find?_write, if_pos rfl]
  · rw [read_eq_ok] at hold ⊢
    rw [find?_write, if_neg hne, hold]
    simp
  · rw [read_eq_ok, find?_write, if_neg hne] at hnew
    rw [read_eq_ok]
    split at hnew
    · rename_i habove
      cases hnew
      exact .inr ⟨habove.1, rfl⟩
    · exact .inl hnew

namespace Session

variable (s : Session)

/-- What a session can be asked to do. -/
inductive Task where
  | write (path : String) (bytes : List UInt8)
  | tokenize (limit : Option Nat) (p : Program)
  | analyse (p : Program)
  | compile (limit : Option Nat) (p : Program)
  | compileFile (path target : String)
  | register
  | configure (options : CompilerOptions) (readonly : Bool)

/-- The session behind a task. -/
def perform : Task → Session
  | .write path bytes => { s with files := s.files.write path bytes }
  | .tokenize limit p => (s.tokenize limit p).2
  | .analyse p => (s.analyse p).2
  | .compile limit p => (s.compile limit p).2.2
  | .compileFile path target => (s.compileFile path target).2.2
  | .register => s.register?.getD s
  | .configure options readonly => { s with options, readonly }

/-- The program in a file. -/
def fileProgram (path : String) (bytes : List UInt8) : Program :=
  ⟨path, bytes, false⟩

theorem adds_compile (limit : Option Nat) (p : Program) :
    s.counters.Adds (s.compile limit p).2.2.counters p.name (s.compile limit p).1.failure := by
  unfold compile
  rcases p.compileTo s.options limit with ⟨⟨bytes, _ | f⟩, notes⟩
  · exact ⟨Counts.value_bump _ _, rfl, rfl⟩
  · exact ⟨rfl, Counts.value_bump _ _, _, f.familyName_mem, Counts.value_bump _ _⟩

variable {s}

section

variable (h : s.counters.Balanced)
include h

theorem balanced_countFailure (name : String) (f : Failure) :
    (s.countFailure name f).counters.Balanced :=
  h.failure name f

theorem balanced_compile (limit : Option Nat) (p : Program) :
    (s.compile limit p).2.2.counters.Balanced := by
  unfold compile
  rcases p.compileTo s.options limit with ⟨⟨bytes, _ | f⟩, notes⟩
  · exact h.success _
  · exact h.failure _ _

theorem balanced_compileFile (path target : String) :
    (s.compileFile path target).2.2.counters.Balanced := by
  unfold compileFile
  cases s.files.read path with
  | error e => exact balanced_countFailure h _ _
  | ok bytes =>
    have hcompile := balanced_compile h none (fileProgram path bytes)
    unfold fileProgram at hcompile
    dsimp only
    rcases hout : s.compile none ⟨path, bytes, false⟩ with ⟨⟨written, _ | f⟩, notes, t⟩
    · rw [hout] at hcompile
      dsimp only
      unfold store
      split
      · exact balanced_countFailure hcompile _ _
      · exact hcompile
    · rw [hout] at hcompile
      exact hcompile

/-- No task counts a failure by name and not by family. -/
theorem balanced_perform (t : Task) : (s.perform t).counters.Balanced := by
  cases t with
  | write path bytes =>
    dsimp only [perform]
    exact h
  | tokenize limit p =>
    dsimp only [perform, tokenize]
    split <;> dsimp only
    · exact balanced_countFailure h _ _
    · exact h
  | analyse p =>
    dsimp only [perform, analyse]
    split <;> dsimp only
    · exact balanced_countFailure h _ _
    · exact h
  | compile limit p => exact balanced_compile h limit p
  | compileFile path target => exact balanced_compileFile h path target
  | register =>
    dsimp only [perform, register?]
    split <;> exact h
  | configure options readonly =>
    dsimp only [perform]
    exact h

theorem balanced_run (ts : List Task) : (ts.foldl perform s).counters.Balanced := by
  induction ts generalizing s with
  | nil => exact h
  | cons t ts ih => exact ih (balanced_perform h t)

end

/-- What compiling a file does to the store. Where the file cannot be opened, is rejected or its
module cannot be written, nothing changes. Otherwise the target holds the module. -/
structure CompilesFile (s : Session) (path target : String) : Prop where
  unopened : ∀ e, s.files.read path = .error e →
    (s.compileFile path target).1.isSome ∧ (s.compileFile path target).2.2.files = s.files
  rejected : ∀ bytes f, s.files.read path = .ok bytes →
    ((fileProgram path bytes).compileTo s.options none).1.failure = some f →
      (s.compileFile path target).1.isSome ∧ (s.compileFile path target).2.2.files = s.files
  unwritten : s.readonly = true →
    (s.compileFile path target).1.isSome ∧ (s.compileFile path target).2.2.files = s.files
  written : ∀ bytes written, s.files.read path = .ok bytes →
    ((fileProgram path bytes).compileTo s.options none).1 = ⟨written, none⟩ →
      s.readonly = false → (s.compileFile path target).1 = none ∧
        s.files.Replaced (s.compileFile path target).2.2.files target written

theorem compileFile_of_rejected {path : String} {bytes : List UInt8} {f : Failure}
    (h : s.files.read path = .ok bytes)
    (hf : ((fileProgram path bytes).compileTo s.options none).1.failure = some f)
    (target : String) :
    (s.compileFile path target).1 = some (.within ("compile failed for " ++ path) f) ∧
      (s.compileFile path target).2.2.files = s.files := by
  unfold fileProgram at hf
  unfold compileFile compile
  rw [h]
  dsimp only
  rcases hw : Program.compileTo s.options none ⟨path, bytes, false⟩ with ⟨⟨written, _ | g⟩, notes⟩
  · rw [hw] at hf
    cases hf
  · rw [hw] at hf
    cases hf
    exact ⟨rfl, rfl⟩

/-- The module of a file that is compiled is stored. -/
theorem compileFile_of_compiled {path : String} {bytes written : List UInt8}
    (h : s.files.read path = .ok bytes)
    (hw : ((fileProgram path bytes).compileTo s.options none).1 = ⟨written, none⟩)
    (target : String) :
    ((s.compileFile path target).1, (s.compileFile path target).2.2) =
      (s.countSuccess path).store path target written := by
  unfold fileProgram at hw
  unfold compileFile compile
  rw [h]
  dsimp only
  rcases hout : Program.compileTo s.options none ⟨path, bytes, false⟩ with ⟨w, notes⟩
  rw [hout] at hw
  dsimp only at hw
  subst hw
  rfl

theorem compilesFile (s : Session) (path target : String) : s.CompilesFile path target := by
  have hunopened : ∀ e, s.files.read path = .error e →
      (s.compileFile path target).1.isSome ∧
        (s.compileFile path target).2.2.files = s.files := by
    intro e he
    unfold compileFile
    rw [he]
    exact ⟨rfl, rfl⟩
  have hrejected : ∀ bytes f, s.files.read path = .ok bytes →
      ((fileProgram path bytes).compileTo s.options none).1.failure = some f →
        (s.compileFile path target).1.isSome ∧
          (s.compileFile path target).2.2.files = s.files := by
    intro bytes f hread hf
    obtain ⟨hfailure, hfiles⟩ := compileFile_of_rejected hread hf target
    exact ⟨by rw [hfailure]; rfl, hfiles⟩
  refine ⟨hunopened, hrejected, fun hreadonly => ?_, fun bytes written hread hw hwritable => ?_⟩
  · cases hread : s.files.read path with
    | error e => exact hunopened e hread
    | ok bytes =>
      rcases hout : ((fileProgram path bytes).compileTo s.options none).1 with ⟨written, _ | f⟩
      · have hstored := compileFile_of_compiled hread hout target
        rw [store, if_pos (show (s.countSuccess path).readonly = true from hreadonly)] at hstored
        obtain ⟨hfailure, hsession⟩ := Prod.mk.inj hstored
        rw [hfailure, hsession]
        exact ⟨rfl, rfl⟩
      · exact hrejected bytes f hread (by rw [hout])
  · have hstored := compileFile_of_compiled hread hw target
    have hwrite : ¬ (s.countSuccess path).readonly = true := by
      rw [show (s.countSuccess path).readonly = s.readonly from rfl, hwritable]
      decide
    rw [store, if_neg hwrite] at hstored
    obtain ⟨hfailure, hsession⟩ := Prod.mk.inj hstored
    rw [hfailure, hsession]
    dsimp only [countSuccess]
    exact ⟨rfl, s.files.replaced_write target written⟩

end Session

end TinyC
