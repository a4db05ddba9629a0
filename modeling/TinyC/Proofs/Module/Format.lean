import TinyC.Proofs.Module.Written

/-!
# Reading accepts exactly the module format

`Module.bytes` lays a module out as a file. A file is accepted as a module exactly if it is laid out
so, but for the flags of globals: any byte that is not zero marks a constant, and the layout has a
one there (`decode_eq_ok_iff`). No file that is accepted goes on as another one
(`eq_of_prefix_of_accepted`), and no error tells of a place outside the file.

A reader *parses* a format if it takes exactly the bytes that the format gives to a value, with
whatever may follow (`Parses`). Formats of readers in a row are formats in a row (`Parses.bind`), so
the format of a whole file comes part by part, in the order of the file.

What is written of tables that can be written is laid out as the module that they are, and so it is
read back (`ProgramTables.decode_writable`).
-/

namespace TinyC

/-! ## Numbers -/

/-- Bytes are told by their number and the number that they stand for, with any number before. -/
theorem foldl_byte_inj {bs cs : List UInt8} (hlen : bs.length = cs.length) {m n : Nat}
    (h : bs.foldl (fun n b => n * 256 + b.toNat) m = cs.foldl (fun n b => n * 256 + b.toNat) n) :
    m = n ∧ bs = cs := by
  induction bs generalizing cs m n with
  | nil =>
    obtain rfl := List.length_eq_zero_iff.mp hlen.symm
    exact ⟨h, rfl⟩
  | cons b bs ih =>
    cases cs with
    | nil => cases hlen
    | cons c cs =>
      obtain ⟨hnext, rfl⟩ := ih (Nat.succ.inj hlen) h
      have hnext : m * 256 + b.toNat = n * 256 + c.toNat := hnext
      have hb := b.toNat_lt
      have hc := c.toNat_lt
      have hbyte : b.toNat = c.toNat := by omega
      exact ⟨by omega, by rw [UInt8.toNat_inj.mp hbyte]⟩

theorem foldl_byte_lt (bs : List UInt8) (n : Nat) :
    bs.foldl (fun n b => n * 256 + b.toNat) n < (n + 1) * 256 ^ bs.length := by
  induction bs generalizing n with
  | nil => simp
  | cons b bs ih =>
    have hb := b.toNat_lt
    calc (b :: bs).foldl (fun n b => n * 256 + b.toNat) n
        < (n * 256 + b.toNat + 1) * 256 ^ bs.length := ih _
      _ ≤ ((n + 1) * 256) * 256 ^ bs.length := Nat.mul_le_mul_right _ (by omega)
      _ = (n + 1) * 256 ^ (b :: bs).length := by
        rw [List.length_cons, Nat.pow_succ, Nat.mul_comm (256 ^ _) 256, Nat.mul_assoc]

theorem ofBigEndian_lt (bs : List UInt8) : ofBigEndian bs < 256 ^ bs.length := by
  have hlt := foldl_byte_lt bs 0
  rwa [Nat.zero_add, Nat.one_mul] at hlt

/-- Bytes are the lowest ones of any number that agrees with theirs. -/
theorem bigEndian_eq {bs : List UInt8} {n v : Nat} (hlen : bs.length = n)
    (h : v % 256 ^ n = ofBigEndian bs) : bigEndian n v = bs := by
  have heq : ofBigEndian (bigEndian n v) = ofBigEndian bs := by rw [ofBigEndian_bigEndian, h]
  exact (foldl_byte_inj (by rw [length_bigEndian, hlen]) heq).2

/-- A number of 64 bits with a sign that 32 bits suffice for is told by its lowest 32 bits. -/
theorem toInt64_toInt32 {x : Int64} (hlo : -2 ^ 31 ≤ x.toInt) (hhi : x.toInt < 2 ^ 31) :
    (x.toUInt64.toNat % 256 ^ 4).toUInt32.toInt32.toInt64 = x := by
  apply Int64.toInt_inj.mp
  have hword := toInt_eq_bmod x
  have hlt := x.toUInt64.toNat_lt
  rw [toInt_signed]
  generalize x.toUInt64.toNat = n at hword hlt
  simp only [Int.bmod_def] at hword ⊢
  omega

/-- A word of 32 bits with a sign keeps its bits when it becomes one of 64 bits. -/
theorem toNat_toInt64_toInt32 {v : Nat} (h : v < 256 ^ 4) :
    v.toUInt32.toInt32.toInt64.toUInt64.toNat % 256 ^ 4 = v ∧
      -2 ^ 31 ≤ v.toUInt32.toInt32.toInt64.toInt ∧ v.toUInt32.toInt32.toInt64.toInt < 2 ^ 31 := by
  have hbits := toInt_eq_bmod v.toUInt32.toInt32.toInt64
  have hlt := v.toUInt32.toInt32.toInt64.toUInt64.toNat_lt
  rw [toInt_signed] at hbits ⊢
  generalize v.toUInt32.toInt32.toInt64.toUInt64.toNat = n at hbits hlt ⊢
  simp only [Int.bmod_def] at hbits ⊢
  omega

/-! ## Readers and formats -/

/-- The reader takes these bytes for a value, whatever follows. -/
def Takes {α : Type} (r : Reader α) (bytes : List UInt8) (a : α) : Prop :=
  ∀ offset rest, r.run ⟨offset, bytes ++ rest⟩ = .ok (a, ⟨offset + bytes.length, rest⟩)

namespace Takes

variable {α β : Type} {r : Reader α} {bs cs : List UInt8} {a : α} {b : β}

theorem pure (a : α) : Takes (Pure.pure a) [] a :=
  fun _ _ => rfl

/-- Two readers in a row take what stands in a row. -/
theorem bind {f : α → Reader β} (h : Takes r bs a) (k : Takes (f a) cs b) :
    Takes (r >>= f) (bs ++ cs) b := by
  intro offset rest
  rw [StateT.run_bind, List.append_assoc, h]
  show (f a).run ⟨offset + bs.length, cs ++ rest⟩ = _
  rw [k, List.length_append, Nat.add_assoc]

theorem take {n : Nat} (field : Field) (h : bs.length = n) : Takes (Module.take n field) bs bs := by
  intro offset rest
  subst h
  simp [StateT.run, Module.take]

end Takes

/-- The size of the file that a tape is in. -/
def Tape.size (t : Tape) : Nat :=
  t.offset + t.rest.length

/-- The tape is in a file, at a place that is not behind its end. -/
structure Tape.In (b : List UInt8) (t : Tape) : Prop where
  offset_le : t.offset ≤ b.length
  rest_eq : t.rest = b.drop t.offset

/-- A reader does not leave a file: from a place in it, it goes on to a place in it, or it fails. -/
def Reader.StaysIn {α : Type} (b : List UInt8) (r : Reader α) : Prop :=
  ∀ t a t', t.In b → r.run t = .ok (a, t') → t'.In b ∧ t.offset ≤ t'.offset

/-- The error tells of a place in a file of a size, or of no place. -/
def DecodeError.Within (size : Nat) : DecodeError → Prop
  | .truncated _ offset => offset ≤ size
  | .trailing count => 0 < count ∧ count ≤ size
  | _ => True

/-- A reader accepts the values of a format, in their bytes and in no others. -/
structure Parses {α : Type} (r : Reader α) (format : α → List UInt8 → Prop) : Prop where
  takes : ∀ a bs, format a bs → Takes r bs a
  made : ∀ t a t', r.run t = .ok (a, t') →
    ∃ bs, format a bs ∧ t.rest = bs ++ t'.rest ∧ t'.offset = t.offset + bs.length
  fails : ∀ t e, r.run t = .error e → e.Within t.size

/-- Values of a format in a row. -/
def Rows {α : Type} (format : α → List UInt8 → Prop) : List α → List UInt8 → Prop
  | [], bs => bs = []
  | a :: as, bs => ∃ u v, bs = u ++ v ∧ format a u ∧ Rows format as v

/-- Values with one layout each stand in a row if their layouts do. -/
theorem rows_layout {α : Type} {layout : α → List UInt8} {P : α → Prop} {as : List α}
    {bs : List UInt8} :
    Rows (fun a bs => bs = layout a ∧ P a) as bs ↔ bs = as.flatMap layout ∧ ∀ a ∈ as, P a := by
  induction as generalizing bs with
  | nil => simp [Rows]
  | cons a as ih =>
    simp only [Rows, ih, List.flatMap_cons, List.forall_mem_cons]
    constructor
    · rintro ⟨u, v, rfl, ⟨rfl, ha⟩, rfl, has⟩
      exact ⟨rfl, ha, has⟩
    · rintro ⟨rfl, ha, has⟩
      exact ⟨_, _, rfl, ⟨rfl, ha⟩, rfl, has⟩

namespace Parses

variable {α β : Type} {r : Reader α} {format format' : α → List UInt8 → Prop}

theorem congr (h : Parses r format) (hf : ∀ a bs, format a bs ↔ format' a bs) :
    Parses r format' := by
  have hsame : format = format' := by
    funext a bs
    exact propext (hf a bs)
  rwa [← hsame]

/-- What parses a format does not leave a file. -/
theorem staysIn (h : Parses r format) (b : List UInt8) : r.StaysIn b := by
  intro t a t' ht hrun
  obtain ⟨bs, -, hrest, hoffset⟩ := h.made t a t' hrun
  have hlen := congrArg List.length hrest
  rw [ht.rest_eq, List.length_drop, List.length_append] at hlen
  have hle := ht.offset_le
  refine ⟨⟨by omega, ?_⟩, by omega⟩
  rw [hoffset, ← List.drop_drop, ← ht.rest_eq, hrest, List.drop_left]

theorem pure (a : α) : Parses (Pure.pure a) fun b bs => b = a ∧ bs = [] where
  takes := by
    rintro b bs ⟨rfl, rfl⟩
    exact .pure b
  made := by
    intro t b t' h
    cases h
    exact ⟨[], ⟨rfl, rfl⟩, rfl, rfl⟩
  fails := by
    intro t e h
    cases h

/-- A reader that fails in any file has an empty format. -/
theorem throw {e : DecodeError} (he : ∀ size, e.Within size) :
    Parses (throw e : Reader α) fun _ _ => False where
  takes := nofun
  made := by
    intro t a t' h
    cases h
  fails := by
    intro t e' h
    cases h
    exact he _

/-- Readers in a row parse formats in a row. -/
theorem bind {f : α → Reader β} {g : α → β → List UInt8 → Prop} (h : Parses r format)
    (k : ∀ a, Parses (f a) (g a)) :
    Parses (r >>= f) fun b bs => ∃ a u v, bs = u ++ v ∧ format a u ∧ g a b v where
  takes := by
    rintro b bs ⟨a, u, v, rfl, hu, hv⟩
    exact (h.takes a u hu).bind ((k a).takes b v hv)
  made := by
    intro t b t' hrun
    rw [StateT.run_bind] at hrun
    rcases hr : r.run t with e | ⟨a, s⟩
    · rw [hr] at hrun
      cases hrun
    · rw [hr] at hrun
      obtain ⟨u, hu, hrest, hoffset⟩ := h.made t a s hr
      obtain ⟨v, hv, hrest', hoffset'⟩ := (k a).made s b t' hrun
      refine ⟨u ++ v, ⟨a, u, v, rfl, hu, hv⟩, ?_, ?_⟩
      · rw [hrest, hrest', List.append_assoc]
      · rw [hoffset', hoffset, List.length_append, Nat.add_assoc]
  fails := by
    intro t e hrun
    rw [StateT.run_bind] at hrun
    rcases hr : r.run t with e' | ⟨a, s⟩
    · rw [hr] at hrun
      cases hrun
      exact h.fails t e hr
    · rw [hr] at hrun
      obtain ⟨u, -, hrest, hoffset⟩ := h.made t a s hr
      have hsize : s.size = t.size := by
        rw [Tape.size, Tape.size, hrest, hoffset, List.length_append, Nat.add_assoc]
      rw [← hsize]
      exact (k a).fails s e hrun

theorem map (f : α → β) (h : Parses r format) :
    Parses (r >>= fun a => Pure.pure (f a)) fun b bs => ∃ a, b = f a ∧ format a bs := by
  refine (h.bind fun a => .pure (f a)).congr fun b bs => ⟨?_, ?_⟩
  · rintro ⟨a, u, v, rfl, hu, rfl, rfl⟩
    exact ⟨a, rfl, by rwa [List.append_nil]⟩
  · rintro ⟨a, rfl, ha⟩
    exact ⟨a, bs, [], (List.append_nil bs).symm, ha, rfl, rfl⟩

theorem take (n : Nat) (field : Field) :
    Parses (Module.take n field) fun a bs => bs = a ∧ a.length = n where
  takes := by
    rintro a bs ⟨rfl, hlen⟩
    exact .take field hlen
  made := by
    intro t a t' hrun
    simp only [StateT.run, Module.take] at hrun
    split at hrun
    · cases hrun
    · rename_i hlong
      cases hrun
      have hlen : (t.rest.take n).length = n := by
        have hle : (t.rest.take n).length ≤ n := by
          rw [List.length_take]
          exact Nat.min_le_left _ _
        omega
      exact ⟨t.rest.take n, ⟨rfl, hlen⟩, (List.take_append_drop n t.rest).symm, by rw [hlen]⟩
  fails := by
    intro t e hrun
    simp only [StateT.run, Module.take] at hrun
    split at hrun
    · cases hrun
      exact Nat.le_add_right _ _
    · cases hrun

theorem word (field : Field) :
    Parses (Module.word field) fun v bs => bs = fieldBytes v ∧ v < 2 ^ 32 := by
  refine ((Parses.take 4 field).map ofBigEndian).congr fun v bs => ⟨?_, ?_⟩
  · rintro ⟨a, rfl, rfl, hlen⟩
    have hlt := ofBigEndian_lt bs
    rw [hlen] at hlt
    exact ⟨(bigEndian_eq hlen (Nat.mod_eq_of_lt hlt)).symm, hlt⟩
  · rintro ⟨rfl, hlt⟩
    refine ⟨fieldBytes v, ?_, rfl, length_bigEndian 4 v⟩
    rw [fieldBytes, ofBigEndian_bigEndian]
    exact (Nat.mod_eq_of_lt hlt).symm

/-- So many things of one kind stand in a row. -/
theorem many (h : Parses r format) (n : Nat) :
    Parses (Module.readMany r n) fun as bs => as.length = n ∧ Rows format as bs := by
  induction n with
  | zero =>
    refine (Parses.pure []).congr fun as bs => ⟨?_, ?_⟩
    · rintro ⟨rfl, rfl⟩
      exact ⟨rfl, rfl⟩
    · rintro ⟨hlen, hrows⟩
      obtain rfl := List.length_eq_zero_iff.mp hlen
      exact ⟨rfl, hrows⟩
  | succ n ih =>
    refine (h.bind fun a => ih.map (a :: ·)).congr fun as bs => ⟨?_, ?_⟩
    · rintro ⟨a, u, v, rfl, hu, as, rfl, hlen, hv⟩
      exact ⟨congrArg Nat.succ hlen, u, v, rfl, hu, hv⟩
    · rintro ⟨hlen, hrows⟩
      match as, hrows with
      | a :: as, ⟨u, v, hbs, hu, hv⟩ =>
        exact ⟨a, u, v, hbs, hu, as, rfl, Nat.succ.inj hlen, hv⟩

end Parses

/-! ## The layout of a module -/

/-- The bytes of a global: a flag, the number of its data, and the data. -/
def Global.bytes (g : Global) : List UInt8 :=
  (if g.constant then 1 else 0) :: (fieldBytes g.data.length ++ g.data)

/-- The bytes of a function: a header of five numbers, and its instructions. -/
def Routine.bytes (r : Routine) : List UInt8 :=
  fieldBytes r.slot.toNat ++ fieldBytes r.returns ++ fieldBytes r.params ++ fieldBytes r.locals
    ++ fieldBytes r.code.size ++ r.code.toList.flatMap Instr.bytes

/-- The function can be written: its numbers have four bytes, and so on for its instructions. -/
structure Routine.Storable (r : Routine) : Prop where
  slot_nonneg : 0 ≤ r.slot
  slot : r.slot.toNat < 2 ^ 32
  returns : r.returns < 2 ^ 32
  params : r.params < 2 ^ 32
  locals : r.locals < 2 ^ 32
  size : r.code.size < 2 ^ 32
  code : ∀ i ∈ r.code.toList, i.Writable

namespace Module

/-- The bytes of a module. -/
def bytes (m : Module) : List UInt8 :=
  fieldBytes m.magic.toNat ++ fieldBytes m.version.toNat
    ++ fieldBytes m.globals.size ++ m.globals.toList.flatMap Global.bytes
    ++ fieldBytes m.functions.size ++ m.functions.toList.flatMap Routine.bytes

/-- The module can be written: it is one of this version, and its numbers have four bytes. -/
structure Storable (m : Module) : Prop where
  magic : m.magic = standardMagic
  version : m.version = standardVersion
  globals : m.globals.size < 2 ^ 32
  data : ∀ g ∈ m.globals.toList, g.data.length < 2 ^ 32
  functions : m.functions.size < 2 ^ 32
  rows : ∀ r ∈ m.functions.toList, r.Storable

/-- The offsets of the flags of globals, the first of which is at an offset. -/
def flagOffsets : Nat → List Global → List Nat
  | _, [] => []
  | offset, g :: gs => offset :: flagOffsets (offset + g.bytes.length) gs

/-- The offsets of the flags in the file of a module. The first comes behind three numbers. -/
def flags (m : Module) : List Nat :=
  flagOffsets 12 m.globals.toList

end Module

/-! ## Parts of a file -/

/-- The format of a global: any flag but zero makes it a constant. -/
def Global.Form (g : Global) (bs : List UInt8) : Prop :=
  ∃ flag : UInt8, g.constant = (flag != 0) ∧ bs = flag :: (fieldBytes g.data.length ++ g.data) ∧
    g.data.length < 2 ^ 32

theorem flag_bne (flag : UInt8) : ([flag] != [0]) = (flag != 0) := by
  show (!(flag == 0 && true)) = !(flag == 0)
  rw [Bool.and_true]

theorem parses_global : Parses Module.readGlobal Global.Form := by
  have hread := (Parses.take 1 .globalFlag).bind fun flag =>
    (Parses.word .globalLength).bind fun size =>
      (Parses.take size .globalData).map (Global.mk (flag != [0]))
  refine hread.congr fun g bs => ⟨?_, ?_⟩
  · rintro ⟨flags, _, _, rfl, ⟨rfl, hflag⟩, size, _, _, rfl, ⟨rfl, hsize⟩, data, rfl, rfl, rfl⟩
    obtain ⟨flag, rfl⟩ := List.length_eq_one_iff.mp hflag
    exact ⟨flag, flag_bne flag, rfl, hsize⟩
  · rintro ⟨flag, hflag, rfl, hsize⟩
    refine ⟨[flag], _, _, rfl, ⟨rfl, rfl⟩, _, _, _, rfl, ⟨rfl, hsize⟩, g.data, ?_, rfl, rfl⟩
    rw [flag_bne, ← hflag]

theorem Opcode.operandSize_cases (op : Opcode) :
    op.operandSize = 0 ∨ op.operandSize = 4 ∨ op.operandSize = 8 := by
  cases op <;> simp [Opcode.operandSize]

/-- The instruction that the bytes of one are read as. -/
def Instr.stored (i : Instr) : Instr :=
  ⟨i.op, operandOf (bigEndian i.op.operandSize i.operand.toUInt64.toNat)⟩

theorem Instr.stored_eq {i : Instr} (h : i.Writable) : i.stored = i := by
  suffices hoperand : operandOf (bigEndian i.op.operandSize i.operand.toUInt64.toNat) = i.operand by
    rw [stored, hoperand]
  rcases i.op.operandSize_cases with h0 | h4 | h8
  · rw [h0, h.zero h0]
    rfl
  · rw [h4]
    simp only [operandOf, length_bigEndian, if_true, ofBigEndian_bigEndian]
    exact toInt64_toInt32 (h.range h4).1 (h.range h4).2
  · rw [h8]
    simp only [operandOf, length_bigEndian, ofBigEndian_bigEndian]
    have hlt : i.operand.toUInt64.toNat < 256 ^ 8 := i.operand.toUInt64.toNat_lt
    rw [Nat.mod_eq_of_lt hlt]
    simp

theorem Instr.decode_bytes {i : Instr} (h : i.op.isListed = true) (rest : List UInt8) :
    Instr.decode (i.bytes ++ rest) = .ok (i.stored, rest) := by
  have hop : Opcode.ofByte i.op.byte = i.op := Opcode.ofByte_byte h
  have hlen := length_bigEndian i.op.operandSize i.operand.toUInt64.toNat
  simp only [Instr.bytes, List.cons_append, Instr.decode, hop, h, Bool.not_true,
    Bool.false_eq_true, if_false, List.take_append, List.drop_append, hlen, Nat.sub_self,
    List.take_zero, List.append_nil, List.drop_zero]
  rw [List.take_of_length_le (Nat.le_of_eq hlen), List.drop_of_length_le (Nat.le_of_eq hlen), hlen,
    if_neg (Nat.lt_irrefl _)]
  rfl

/-- An instruction that was read can be written, and has the bytes that were read. -/
theorem Instr.of_decode {bs rest : List UInt8} {i : Instr} (h : Instr.decode bs = .ok (i, rest)) :
    i.Writable ∧ bs = i.bytes ++ rest := by
  cases bs with
  | nil => cases h
  | cons b bs =>
    simp only [Instr.decode] at h
    split at h
    · cases h
    · rename_i hlisted
      split at h
      · cases h
      · rename_i hlong
        cases h
        have hlisted : (Opcode.ofByte b).isListed = true := by simpa using hlisted
        generalize hop : Opcode.ofByte b = op at hlisted hlong
        have hbyte : op.byte = b := hop ▸ Opcode.byte_ofByte b
        have hlen : (bs.take op.operandSize).length = op.operandSize := by
          rw [List.length_take] at hlong ⊢
          omega
        have hlt := ofBigEndian_lt (bs.take op.operandSize)
        rw [hlen] at hlt
        have hbytes : bigEndian op.operandSize
            (operandOf (bs.take op.operandSize)).toUInt64.toNat = bs.take op.operandSize := by
          refine bigEndian_eq hlen ?_
          rcases op.operandSize_cases with h0 | h4 | h8
          · rw [h0] at hlt ⊢
            omega
          · rw [h4] at hlen hlt ⊢
            simp only [operandOf, hlen, if_true]
            exact (toNat_toInt64_toInt32 hlt).1
          · rw [h8] at hlen hlt ⊢
            have hword : ∀ n : Nat, n.toUInt64.toInt64.toUInt64.toNat = n % 2 ^ 64 := fun n => rfl
            simp only [operandOf, hlen]
            rw [if_neg (by decide), hword]
            omega
        refine ⟨⟨hlisted, fun h0 => ?_, fun h4 => ?_⟩, ?_⟩
        · show operandOf (bs.take op.operandSize) = 0
          have h0 : op.operandSize = 0 := h0
          rw [h0]
          rfl
        · have h4 : op.operandSize = 4 := h4
          rw [h4] at hlen hlt
          simp only [operandOf, h4, hlen, if_true]
          exact (toNat_toInt64_toInt32 hlt).2
        · rw [Instr.bytes, hbyte, hbytes, List.cons_append, List.take_append_drop]

theorem parses_instr (slot index : Nat) :
    Parses (Module.readInstr slot index) fun i bs => bs = i.bytes ∧ i.Writable where
  takes := by
    rintro i bs ⟨rfl, hi⟩ offset rest
    simp only [StateT.run, Module.readInstr]
    rw [Instr.decode_bytes hi.listed, Instr.stored_eq hi, Instr.length_bytes]
  made := by
    intro t i t' hrun
    simp only [StateT.run, Module.readInstr] at hrun
    split at hrun
    · rename_i i' rest hdecode
      cases hrun
      obtain ⟨hw, hbytes⟩ := Instr.of_decode hdecode
      exact ⟨i.bytes, ⟨rfl, hw⟩, hbytes, by rw [Instr.length_bytes]⟩
    · cases hrun
  fails := by
    intro t e hrun
    simp only [StateT.run, Module.readInstr] at hrun
    split at hrun
    · cases hrun
    · cases hrun
      exact trivial

theorem parses_code (slot n index : Nat) : Parses (Module.readCode slot n index) fun is bs =>
    is.length = n ∧ bs = is.flatMap Instr.bytes ∧ ∀ i ∈ is, i.Writable := by
  induction n generalizing index with
  | zero =>
    refine (Parses.pure []).congr fun is bs => ⟨?_, ?_⟩
    · rintro ⟨rfl, rfl⟩
      exact ⟨rfl, rfl, nofun⟩
    · rintro ⟨hlen, rfl, -⟩
      obtain rfl := List.length_eq_zero_iff.mp hlen
      exact ⟨rfl, rfl⟩
  | succ n ih =>
    refine ((parses_instr slot index).bind fun i => (ih (index + 1)).map (i :: ·)).congr
      fun is bs => ⟨?_, ?_⟩
    · rintro ⟨i, _, _, rfl, ⟨rfl, hi⟩, is, rfl, hlen, rfl, his⟩
      exact ⟨congrArg Nat.succ hlen, rfl, List.forall_mem_cons.mpr ⟨hi, his⟩⟩
    · rintro ⟨hlen, rfl, his⟩
      cases is with
      | nil => cases hlen
      | cons i is =>
        obtain ⟨hi, his⟩ := List.forall_mem_cons.mp his
        exact ⟨i, _, _, rfl, ⟨rfl, hi⟩, is, rfl, Nat.succ.inj hlen, rfl, his⟩

theorem parses_routine : Parses Module.readRoutine fun r bs => bs = r.bytes ∧ r.Storable := by
  have hread := (Parses.word .functionSlot).bind fun slot =>
    (Parses.word .returnSlots).bind fun returns =>
      (Parses.word .paramCount).bind fun params =>
        (Parses.word .localCount).bind fun locals =>
          (Parses.word .instructionCount).bind fun count =>
            (parses_code slot count 0).map fun code =>
              (⟨slot, returns, params, locals, code.toArray⟩ : Routine)
  refine hread.congr fun r bs => ⟨?_, ?_⟩
  · rintro ⟨slot, _, _, rfl, ⟨rfl, hslot⟩, returns, _, _, rfl, ⟨rfl, hreturns⟩, params, _, _, rfl,
      ⟨rfl, hparams⟩, locals, _, _, rfl, ⟨rfl, hlocals⟩, count, _, _, rfl, ⟨rfl, hcount⟩, code, rfl,
      rfl, rfl, hcode⟩
    refine ⟨?_, Int.natCast_nonneg slot, hslot, hreturns, hparams, hlocals, hcount, hcode⟩
    simp only [Routine.bytes, List.append_assoc, Int.toNat_natCast, List.size_toArray]
  · rintro ⟨rfl, hr⟩
    obtain ⟨slot, returns, params, locals, code⟩ := r
    obtain ⟨slot, rfl⟩ := Int.eq_ofNat_of_zero_le hr.slot_nonneg
    refine ⟨slot, _, _, ?_, ⟨rfl, hr.slot⟩, returns, _, _, rfl, ⟨rfl, hr.returns⟩, params, _, _, rfl,
      ⟨rfl, hr.params⟩, locals, _, _, rfl, ⟨rfl, hr.locals⟩, code.size, _, _, rfl, ⟨rfl, hr.size⟩,
      code.toList, rfl, Array.length_toList, rfl, hr.code⟩
    simp only [Routine.bytes, List.append_assoc, Int.toNat_natCast]

/-- The format of what stands behind the version. -/
def Module.BodyForm (m : Module) (bs : List UInt8) : Prop :=
  (∃ gs, bs = fieldBytes m.globals.size ++ gs ++ fieldBytes m.functions.size
      ++ m.functions.toList.flatMap Routine.bytes ∧ Rows Global.Form m.globals.toList gs) ∧
    m.globals.size < 2 ^ 32 ∧ m.functions.size < 2 ^ 32 ∧ ∀ r ∈ m.functions.toList, r.Storable

theorem parses_body (magic version : UInt32) :
    Parses (do
      let globals ← Module.readMany Module.readGlobal (← Module.word .globalCount)
      let functions ← Module.readMany Module.readRoutine (← Module.word .functionCount)
      return (⟨magic, version, globals.toArray, functions.toArray⟩ : Module))
      fun m bs => (m.magic = magic ∧ m.version = version) ∧ m.BodyForm bs := by
  have hread := (Parses.word .globalCount).bind fun globalCount =>
    (parses_global.many globalCount).bind fun globals =>
      (Parses.word .functionCount).bind fun functionCount =>
        (parses_routine.many functionCount).map fun functions =>
          (⟨magic, version, globals.toArray, functions.toArray⟩ : Module)
  refine hread.congr fun m bs => ⟨?_, ?_⟩
  · rintro ⟨_, _, _, rfl, ⟨rfl, hglobals⟩, globals, gs, _, rfl, ⟨rfl, hgs⟩, _, _, _, rfl,
      ⟨rfl, hcount⟩, functions, rfl, rfl, hfs⟩
    obtain ⟨rfl, hrows⟩ := rows_layout.mp hfs
    refine ⟨⟨rfl, rfl⟩, ⟨gs, ?_, hgs⟩, hglobals, hcount, hrows⟩
    simp only [List.size_toArray, List.append_assoc]
  · rintro ⟨⟨rfl, rfl⟩, ⟨gs, rfl, hgs⟩, hglobals, hcount, hrows⟩
    refine ⟨m.globals.size, _, _, ?_, ⟨rfl, hglobals⟩, m.globals.toList, gs, _, rfl,
      ⟨Array.length_toList, hgs⟩, m.functions.size, _, _, rfl, ⟨rfl, hcount⟩, m.functions.toList, rfl,
      Array.length_toList, rows_layout.mpr ⟨rfl, hrows⟩⟩
    simp only [List.append_assoc]

/-- A number that must be the one of this format. -/
theorem parses_expected {β : Type} (field : Field) (n : UInt32) {f : Nat → Reader β}
    (format : β → List UInt8 → Prop) (h : ∀ v, v.toUInt32 = n → Parses (f v) format)
    (hother : ∀ v, v.toUInt32 ≠ n → Parses (f v) fun _ _ => False) :
    Parses (Module.word field >>= f)
      fun b bs => ∃ rest, bs = fieldBytes n.toNat ++ rest ∧ format b rest := by
  have hread := (Parses.word field).bind (g := fun v b bs => v.toUInt32 = n ∧ format b bs)
    (f := f) fun v => by
      by_cases hv : v.toUInt32 = n
      · exact (h v hv).congr fun b bs => ⟨fun h => ⟨hv, h⟩, fun h => h.2⟩
      · exact (hother v hv).congr fun b bs => ⟨nofun, fun h => hv h.1⟩
  refine hread.congr fun b bs => ⟨?_, ?_⟩
  · rintro ⟨v, _, rest, rfl, ⟨rfl, hv⟩, rfl, hrest⟩
    refine ⟨rest, ?_, hrest⟩
    rw [show v.toUInt32.toNat = v from Nat.mod_eq_of_lt hv]
  · rintro ⟨rest, rfl, hrest⟩
    exact ⟨n.toNat, _, rest, rfl, ⟨rfl, n.toNat_lt⟩, UInt32.ofNat_toNat, hrest⟩

theorem parses_module : Parses Module.read fun m bs =>
    (m.magic = Module.standardMagic ∧ m.version = Module.standardVersion) ∧
      ∃ rest, bs = fieldBytes m.magic.toNat ++ fieldBytes m.version.toNat ++ rest ∧
        m.BodyForm rest := by
  let body : Module → List UInt8 → Prop := fun m bs =>
    (m.magic = Module.standardMagic ∧ m.version = Module.standardVersion) ∧ m.BodyForm bs
  have hread : Parses Module.read fun m bs => ∃ tail,
      bs = fieldBytes Module.standardMagic.toNat ++ tail ∧
      ∃ rest, tail = fieldBytes Module.standardVersion.toNat ++ rest ∧ body m rest := by
    refine parses_expected .magic _ _ (fun magic hmagic => ?_) fun magic hmagic => ?_
    · dsimp only
      rw [if_neg (not_not_intro hmagic), hmagic]
      refine parses_expected .version _ _ (fun version hversion => ?_) fun version hversion => ?_
      · rw [if_neg (not_not_intro hversion), hversion]
        exact parses_body _ _
      · rw [if_pos hversion]
        exact .throw fun _ => trivial
    · dsimp only
      rw [if_pos hmagic]
      exact .throw fun _ => trivial
  refine hread.congr fun m bs => ⟨?_, ?_⟩
  · rintro ⟨_, rfl, rest, rfl, ⟨hmagic, hversion⟩, hrest⟩
    refine ⟨⟨hmagic, hversion⟩, rest, ?_, hrest⟩
    rw [hmagic, hversion, List.append_assoc]
  · rintro ⟨⟨hmagic, hversion⟩, rest, rfl, hrest⟩
    refine ⟨_, ?_, rest, rfl, ⟨hmagic, hversion⟩, hrest⟩
    rw [hmagic, hversion, List.append_assoc]

/-! ## Flags -/

/-- Bytes of a file from an offset on, with ones for other bytes than zero where the flags are. -/
def settled (flags : List Nat) (start : Nat) (bs : List UInt8) : List UInt8 :=
  bs.mapIdx fun i b => if start + i ∈ flags ∧ b ≠ 0 then 1 else b

section

variable {flags : List Nat} {start : Nat} {bs : List UInt8}

/-- Settled bytes fall apart as the bytes do. -/
theorem settled_eq_append {xs ys : List UInt8} :
    settled flags start bs = xs ++ ys ↔ ∃ us vs, bs = us ++ vs ∧ settled flags start us = xs ∧
      settled flags (start + xs.length) vs = ys := by
  simp only [settled, List.mapIdx_eq_append_iff]
  constructor
  · rintro ⟨us, vs, rfl, rfl, rfl⟩
    refine ⟨us, vs, rfl, rfl, ?_⟩
    simp only [List.length_mapIdx, Nat.add_assoc, Nat.add_comm us.length]
  · rintro ⟨us, vs, rfl, rfl, rfl⟩
    refine ⟨us, vs, rfl, rfl, ?_⟩
    simp only [List.length_mapIdx, Nat.add_assoc, Nat.add_comm us.length]

/-- Bytes without flags stay as they are. -/
theorem settled_eq_self (h : ∀ q ∈ flags, q < start ∨ start + bs.length ≤ q) :
    settled flags start bs = bs := by
  refine List.ext_getElem? fun i => ?_
  rw [settled, List.getElem?_mapIdx]
  rcases hb : bs[i]? with _ | b
  · rfl
  · have hi := (List.getElem?_eq_some_iff.mp hb).1
    have hnot : start + i ∉ flags := by
      intro hmem
      rcases h _ hmem with hlt | hle
      · omega
      · omega
    rw [Option.map_some, if_neg fun hand => hnot hand.1]

@[simp] theorem length_settled : (settled flags start bs).length = bs.length :=
  List.length_mapIdx

/-- A global has its format exactly if its bytes are settled into its layout. -/
theorem form_iff_settled {g : Global} (hflag : start ∈ flags)
    (hfree : ∀ q ∈ flags, q ≤ start ∨ start + g.bytes.length ≤ q) :
    g.Form bs ↔ g.data.length < 2 ^ 32 ∧ settled flags start bs = g.bytes := by
  have hbody : ∀ body : List UInt8, body.length + 1 = g.bytes.length →
      settled flags (start + 1) body = body := by
    intro body hlen
    refine settled_eq_self fun q hq => ?_
    rcases hfree q hq with hle | hle
    · exact .inl (by omega)
    · exact .inr (by omega)
  have hcons : ∀ (flag : UInt8) (body : List UInt8), settled flags start (flag :: body)
      = (if flag ≠ 0 then 1 else flag) :: settled flags (start + 1) body := by
    intro flag body
    simp [settled, hflag, Nat.add_assoc, Nat.add_comm 1]
  constructor
  · rintro ⟨flag, hconst, rfl, hsize⟩
    refine ⟨hsize, ?_⟩
    rw [hcons, hbody _ (by simp [Global.bytes]), Global.bytes, hconst]
    by_cases h : flag = 0
    · subst h
      rfl
    · simp [h]
  · rintro ⟨hsize, hset⟩
    cases bs with
    | nil => cases hset
    | cons flag body =>
      have hlen := congrArg List.length hset
      rw [length_settled, List.length_cons] at hlen
      rw [hcons, hbody body hlen, Global.bytes] at hset
      obtain ⟨hhead, rfl⟩ := List.cons.inj hset
      refine ⟨flag, ?_, rfl, hsize⟩
      by_cases h : flag = 0
      · subst h
        cases hc : g.constant with
        | false => rfl
        | true => simp [hc] at hhead
      · cases hc : g.constant with
        | false => simp [hc, h] at hhead
        | true => simp [h]

/-- Flags are inside the globals that they are the flags of. -/
theorem Module.flagOffsets_bounds {gs : List Global} {q : Nat}
    (hq : q ∈ Module.flagOffsets start gs) :
    start ≤ q ∧ q < start + (gs.flatMap Global.bytes).length := by
  induction gs generalizing start with
  | nil => cases hq
  | cons g gs ih =>
    have hpos : 0 < g.bytes.length := Nat.succ_pos _
    rw [List.flatMap_cons, List.length_append]
    rcases List.mem_cons.mp hq with rfl | hq
    · omega
    · have := ih hq
      omega

/-- Globals have their format in a row exactly if their bytes are settled into their layout. -/
theorem rows_iff_settled {gs : List Global}
    (hflags : ∀ q, start ≤ q → q < start + (gs.flatMap Global.bytes).length →
      (q ∈ flags ↔ q ∈ Module.flagOffsets start gs)) :
    Rows Global.Form gs bs ↔ (∀ g ∈ gs, g.data.length < 2 ^ 32) ∧
      settled flags start bs = gs.flatMap Global.bytes := by
  induction gs generalizing start bs with
  | nil => simp [Rows, settled]
  | cons g gs ih =>
    have hpos : 0 < g.bytes.length := Nat.succ_pos _
    rw [List.flatMap_cons, List.length_append] at hflags
    have hflag : start ∈ flags :=
      (hflags start (Nat.le_refl _) (by omega)).mpr List.mem_cons_self
    have hfree : ∀ q ∈ flags, q ≤ start ∨ start + g.bytes.length ≤ q := by
      intro q hq
      by_cases hin : start < q ∧ q < start + g.bytes.length
      · rcases List.mem_cons.mp ((hflags q (by omega) (by omega)).mp hq) with rfl | hq
        · omega
        · have := Module.flagOffsets_bounds hq
          omega
      · omega
    have hrest : ∀ q, start + g.bytes.length ≤ q →
        q < start + g.bytes.length + (gs.flatMap Global.bytes).length →
        (q ∈ flags ↔ q ∈ Module.flagOffsets (start + g.bytes.length) gs) := by
      intro q hle hlt
      rw [hflags q (by omega) (by omega), Module.flagOffsets, List.mem_cons]
      constructor
      · rintro (rfl | hq)
        · omega
        · exact hq
      · exact .inr
    simp only [Rows, form_iff_settled hflag hfree, List.forall_mem_cons, List.flatMap_cons,
      settled_eq_append]
    constructor
    · rintro ⟨us, vs, rfl, ⟨hg, hus⟩, hvs⟩
      obtain ⟨hgs, hvs⟩ := (ih hrest).mp hvs
      exact ⟨⟨hg, hgs⟩, us, vs, rfl, hus, hvs⟩
    · rintro ⟨⟨hg, hgs⟩, us, vs, rfl, hus, hvs⟩
      exact ⟨us, vs, rfl, ⟨hg, hus⟩, (ih hrest).mpr ⟨hgs, hvs⟩⟩

end

/-! ## Whole files -/

section

variable {b c : List UInt8} {m : Module}

/-- Settled bytes are a module exactly if the bytes differ from it in the globals alone. -/
theorem settled_eq_bytes : settled m.flags 0 b = m.bytes ↔
    ∃ gs, b = fieldBytes m.magic.toNat ++ fieldBytes m.version.toNat ++ (fieldBytes m.globals.size
        ++ gs ++ fieldBytes m.functions.size ++ m.functions.toList.flatMap Routine.bytes) ∧
      settled m.flags 12 gs = m.globals.toList.flatMap Global.bytes := by
  let front := fieldBytes m.magic.toNat ++ fieldBytes m.version.toNat ++ fieldBytes m.globals.size
  let back := fieldBytes m.functions.size ++ m.functions.toList.flatMap Routine.bytes
  have hbytes : m.bytes = front ++ (m.globals.toList.flatMap Global.bytes ++ back) := by
    simp only [Module.bytes, front, back, List.append_assoc]
  have hlen : front.length = 12 := by simp [front, fieldBytes]
  -- all flags are in the globals, so nothing before or behind them is settled
  have hfront : ∀ bs : List UInt8, bs.length = 12 → settled m.flags 0 bs = bs := by
    intro bs hbs
    refine settled_eq_self fun q hq => .inr ?_
    have := Module.flagOffsets_bounds hq
    omega
  have hback : ∀ bs, settled m.flags (12 + (m.globals.toList.flatMap Global.bytes).length) bs
      = bs := by
    intro bs
    refine settled_eq_self fun q hq => .inl ?_
    exact (Module.flagOffsets_bounds hq).2
  rw [hbytes, settled_eq_append]
  simp only [settled_eq_append, hlen, Nat.zero_add]
  constructor
  · rintro ⟨us, _, rfl, hus, gs, ws, rfl, hgs, hws⟩
    have hus' : us.length = 12 := by
      rw [← hlen, ← hus, length_settled]
    rw [hfront us hus'] at hus
    rw [hback] at hws
    subst hus hws
    exact ⟨gs, by simp only [front, back, List.append_assoc], hgs⟩
  · rintro ⟨gs, rfl, hgs⟩
    refine ⟨front, gs ++ back, ?_, hfront front hlen, gs, back, rfl, hgs, hback back⟩
    simp only [front, back, List.append_assoc]

/-- The format of a file is the layout of its module, if the flags of globals are not minded. -/
theorem form_iff_bytes : ((m.magic = Module.standardMagic ∧ m.version = Module.standardVersion) ∧
      ∃ rest, b = fieldBytes m.magic.toNat ++ fieldBytes m.version.toNat ++ rest ∧
        m.BodyForm rest) ↔ m.Storable ∧ settled m.flags 0 b = m.bytes := by
  have hrows : ∀ gs, Rows Global.Form m.globals.toList gs ↔
      (∀ g ∈ m.globals.toList, g.data.length < 2 ^ 32) ∧
        settled m.flags 12 gs = m.globals.toList.flatMap Global.bytes :=
    fun gs => rows_iff_settled fun q _ _ => Iff.rfl
  rw [settled_eq_bytes]
  constructor
  · rintro ⟨⟨hmagic, hversion⟩, _, rfl, ⟨gs, rfl, hgs⟩, hglobals, hfunctions, hroutines⟩
    obtain ⟨hdata, hset⟩ := (hrows gs).mp hgs
    exact ⟨⟨hmagic, hversion, hglobals, hdata, hfunctions, hroutines⟩, gs, rfl, hset⟩
  · rintro ⟨hm, gs, rfl, hset⟩
    exact ⟨⟨hm.magic, hm.version⟩, _, rfl, ⟨gs, rfl, (hrows gs).mpr ⟨hm.data, hset⟩⟩, hm.globals,
      hm.functions, hm.rows⟩

/-- A file is accepted if reading takes all of it. -/
theorem decode_eq_ok : Module.decode b = .ok m ↔
    ∃ offset, Module.read.run ⟨0, b⟩ = .ok (m, ⟨offset, []⟩) := by
  unfold Module.decode
  rcases hread : Module.read.run ⟨0, b⟩ with e | ⟨m', offset, rest⟩
  · constructor
    · nofun
    · nofun
  · cases rest with
    | nil =>
      constructor
      · intro h
        cases h
        exact ⟨offset, rfl⟩
      · rintro ⟨_, h⟩
        cases h
        rfl
    | cons x rest =>
      constructor
      · nofun
      · rintro ⟨_, h⟩
        cases h

/-- A file is accepted as a module exactly if it is laid out as the module, if the flags of globals
are not minded. -/
theorem decode_eq_ok_iff :
    Module.decode b = .ok m ↔ m.Storable ∧ settled m.flags 0 b = m.bytes := by
  rw [← form_iff_bytes, decode_eq_ok]
  constructor
  · rintro ⟨offset, hread⟩
    obtain ⟨bs, hform, hrest, -⟩ := parses_module.made _ _ _ hread
    have hb : b = bs := hrest.trans (List.append_nil bs)
    rwa [hb]
  · intro hform
    have htakes := parses_module.takes m b hform 0 []
    rw [List.append_nil] at htakes
    exact ⟨_, htakes⟩

/-- The layout of a module is accepted as the module. -/
theorem decode_layout (h : m.Storable) : Module.decode m.bytes = .ok m := by
  have hrows : ∀ gs : List Global, (∀ g ∈ gs, g.data.length < 2 ^ 32) →
      Rows Global.Form gs (gs.flatMap Global.bytes) := by
    intro gs hgs
    induction gs with
    | nil => exact List.flatMap_nil
    | cons g gs ih =>
      obtain ⟨hg, hgs⟩ := List.forall_mem_cons.mp hgs
      exact ⟨_, _, List.flatMap_cons, ⟨_, by cases g.constant <;> rfl, rfl, hg⟩, ih hgs⟩
  rw [decode_eq_ok_iff, ← form_iff_bytes]
  refine ⟨⟨h.magic, h.version⟩, _, ?_, ⟨_, rfl, hrows _ h.data⟩, h.globals, h.functions, h.rows⟩
  simp only [Module.bytes, List.append_assoc]

/-- **What is written of tables that can be written is read back as the module that they are.** -/
theorem ProgramTables.decode_writable {π : Type} {t : ProgramTables π} (h : t.Writable) :
    Module.decode t.fileBytes = .ok t.module := by
  have hglobals : ∀ e : Entry π, e.global.bytes = e.bytes := fun e => rfl
  have hfunctions : ∀ f : Function π, f.routine.bytes = f.fileBytes := fun f => rfl
  have hbytes : t.module.bytes = t.fileBytes := by
    simp only [Module.bytes, module, fileBytes, List.size_toArray, List.length_map,
      List.flatMap_map, hglobals, hfunctions]
  rw [← hbytes]
  refine decode_layout ⟨rfl, rfl, ?_, ?_, ?_, ?_⟩
  · simpa [module] using h.globals_length
  · simpa [module, Entry.global] using h.data
  · simpa [module] using h.functions_length
  · intro r hr
    obtain ⟨f, hf, rfl⟩ := List.mem_map.mp hr
    have hw := h.rows f hf
    have hslot := (List.getElem?_eq_some_iff.mp (h.functions.rows_slot hf)).1
    have hreturns : f.type.slots < 2 ^ 32 := by cases f.type <;> decide
    exact ⟨Int.natCast_nonneg _, Nat.lt_trans hslot h.functions_length, hreturns, hw.params,
      hw.locals, hw.length, hw.code⟩

/-- A file that is accepted is not the start of another that is. -/
theorem eq_of_prefix_of_accepted {m' : Module} (hb : Module.decode b = .ok m)
    (hc : Module.decode c = .ok m') (h : b <+: c) : b = c := by
  obtain ⟨rest, rfl⟩ := h
  have htakes := parses_module.takes m b (form_iff_bytes.mpr (decode_eq_ok_iff.mp hb)) 0 rest
  obtain ⟨offset, hread⟩ := decode_eq_ok.mp hc
  rw [htakes] at hread
  cases hread
  exact (List.append_nil b).symm

/-- An error tells of a place in the file, or of no place. -/
theorem within_of_decode_error {e : DecodeError} (h : Module.decode b = .error e) :
    e.Within b.length := by
  unfold Module.decode at h
  rcases hread : Module.read.run ⟨0, b⟩ with e' | ⟨m, t⟩
  · rw [hread] at h
    cases h
    have hwithin := parses_module.fails _ _ hread
    rwa [Tape.size, Nat.zero_add] at hwithin
  · rw [hread] at h
    obtain ⟨bs, -, hrest, -⟩ := parses_module.made _ _ _ hread
    have hlen : b.length = bs.length + t.rest.length := by
      rw [← List.length_append, ← hrest]
    obtain ⟨offset, rest⟩ := t
    cases rest with
    | nil => cases h
    | cons x rest =>
      cases h
      exact ⟨Nat.succ_pos _, by omega⟩

end

/-- **Reading accepts exactly the module format.** A file is accepted as a module exactly if the
module can be written and its layout is the file, with ones for those flags of globals that are not
zero. No file that is accepted is the start of another. Whatever the bytes, reading ends with a
module at the end of the file or with an error, and no reader of a part of the file leaves it. -/
theorem decoding_accepts_exactly_the_format (b : List UInt8) :
    (∀ m, Module.decode b = .ok m ↔ m.Storable ∧
      m.bytes = b.mapIdx fun i x => if i ∈ m.flags ∧ x ≠ 0 then 1 else x) ∧
    (∀ m c m', Module.decode b = .ok m → Module.decode c = .ok m' → c <+: b ∨ b <+: c → c = b) ∧
    ((∃ m, Module.decode b = .ok m ∧ Module.read.run ⟨0, b⟩ = .ok (m, ⟨b.length, []⟩)) ∨
      ∃ e, Module.decode b = .error e ∧ e.Within b.length) ∧
    (∀ n field, (Module.take n field).StaysIn b) ∧
    (∀ slot index, (Module.readInstr slot index).StaysIn b) ∧
    Module.readGlobal.StaysIn b ∧ Module.readRoutine.StaysIn b ∧ Module.read.StaysIn b := by
  have hiff : ∀ m, Module.decode b = .ok m ↔ m.Storable ∧
      m.bytes = b.mapIdx fun i x => if i ∈ m.flags ∧ x ≠ 0 then 1 else x := by
    intro m
    rw [decode_eq_ok_iff, settled, eq_comm (a := m.bytes)]
    simp only [Nat.zero_add]
  refine ⟨hiff, ?_, ?_, fun n field => (Parses.take n field).staysIn b,
    fun slot index => (parses_instr slot index).staysIn b, parses_global.staysIn b,
    parses_routine.staysIn b, parses_module.staysIn b⟩
  · rintro m c m' hb hc (h | h)
    · exact eq_of_prefix_of_accepted hc hb h
    · exact (eq_of_prefix_of_accepted hb hc h).symm
  · rcases hdecode : Module.decode b with e | m
    · exact .inr ⟨e, rfl, within_of_decode_error hdecode⟩
    · have htakes := parses_module.takes m b (form_iff_bytes.mpr (decode_eq_ok_iff.mp hdecode)) 0 []
      rw [List.append_nil, Nat.zero_add] at htakes
      exact .inl ⟨m, rfl, htakes⟩

/-- A file with one global, empty and marked as a constant by a seven, and no functions. -/
def flaggedFile : List UInt8 :=
  [0x72, 0x30, 0x3b, 0x3e, 0, 0, 0, 1, 0, 0, 0, 1, 7, 0, 0, 0, 0, 0, 0, 0, 0]

theorem decoding_accepts_exactly_the_format_flagged :
    ∃ m, Module.decode flaggedFile = .ok m ∧ m.bytes = flaggedFile.set 12 1 ∧
      ∀ c m', Module.decode c = .ok m' → flaggedFile <+: c → c = flaggedFile := by
  obtain ⟨hiff, hfree, -⟩ := decoding_accepts_exactly_the_format flaggedFile
  let m : Module := ⟨Module.standardMagic, Module.standardVersion, #[⟨true, []⟩], #[]⟩
  have hstorable : m.Storable := ⟨rfl, rfl, by decide, by decide, by decide, nofun⟩
  have hdecode : Module.decode flaggedFile = .ok m := (hiff m).mpr ⟨hstorable, by decide⟩
  exact ⟨m, hdecode, by decide, fun c m' hc h => hfree m c m' hdecode hc (.inr h)⟩

end TinyC
