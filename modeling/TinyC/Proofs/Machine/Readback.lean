import TinyC.Proofs.Machine.Stack
import TinyC.Proofs.Number.Numeral
import TinyC.Proofs.Text.Utf8

/-!
# Printed integers are read back

An integer is printed as its decimal digits, behind a minus if it is negative. Such a text has no
base mark and no gap in it, so that it is read as the integer (`Number.readInt_toString`), and its
characters are just those that reading an integer takes up to the white space behind them
(`Input.gets_intText`).

A call of `getint` with white space in front of a printed integer therefore answers with the integer
and leaves what stands behind it, and with only white space left it fails at the end of the input.
-/

namespace TinyC

namespace Number

/-! ## The text of an integer -/

/-- A number other than zero does not start with the digit that marks a base. -/
theorem head?_toDigits {n : Nat} (h : n ≠ 0) : (Nat.toDigits 10 n).head? ≠ some '0' := by
  induction n using Nat.strongRecOn with
  | ind n ih =>
    have hdigit : ∀ d < 10, d ≠ 0 → Nat.digitChar d ≠ '0' := by decide
    rw [Nat.toDigits_eq_if (by decide)]
    split
    · rename_i hlt
      simpa using hdigit n hlt h
    · have hhead : ∃ c, (Nat.toDigits 10 (n / 10)).head? = some c :=
        ⟨_, List.head?_eq_some_head Nat.toDigits_ne_nil⟩
      obtain ⟨c, hc⟩ := hhead
      rw [List.head?_append, hc, Option.some_or, ← hc]
      exact ih (n / 10) (by omega) (by omega)

/-- The sign of a printed integer. -/
def minusText (x : Int64) : List Char :=
  if x.toInt < 0 then ['-'] else []

theorem toList_toString (x : Int64) :
    (toString x).toList = minusText x ++ Nat.toDigits 10 x.toInt.natAbs := by
  show (toString x.toInt).toList = _
  rw [Int.toString_eq_repr, Int.repr_eq_if, minusText]
  by_cases h : x.toInt < 0
  · have habs : (-x.toInt).toNat = x.toInt.natAbs := by omega
    rw [if_neg (by omega), if_pos h, habs, String.toList_append, Nat.repr_eq_ofList_toDigits]
    show ['-'] ++ _ = _
    rw [String.toList_ofList]
  · have habs : x.toInt.toNat = x.toInt.natAbs := by omega
    rw [if_pos (by omega), if_neg h, habs, Nat.repr_eq_ofList_toDigits, String.toList_ofList]
    rfl

theorem signed?_natAbs (x : Int64) : signed? (decide (x.toInt < 0)) x.toInt.natAbs = .ok x := by
  have hlo := x.le_toInt
  have hhi := x.toInt_lt
  unfold signed?
  by_cases h : x.toInt < 0
  · have habs : -(x.toInt.natAbs : Int) = x.toInt := by omega
    rw [if_pos (by simpa using h), if_neg (by omega), habs, Int64.ofInt_toInt]
  · have habs : Int64.ofNat x.toInt.natAbs = x := by
      rw [← Int64.ofInt_eq_ofNat, Int.natAbs_of_nonneg (by omega), Int64.ofInt_toInt]
    rw [if_neg (by simpa using h), if_neg (by omega), habs]

/-- The digits of a number have no base mark in front of them, unless they are just a zero. -/
theorem readDigits_splitBase {n : Nat} (h : n < 2 ^ 64) :
    readDigits (splitBase (Nat.toDigits 10 n)).1 true 0 (splitBase (Nat.toDigits 10 n)).2
      = .ok n := by
  by_cases hzero : n = 0
  · subst hzero
    rfl
  · have hsplit : splitBase (Nat.toDigits 10 n) = (10, Nat.toDigits 10 n) := by
      have hhead := head?_toDigits hzero
      generalize Nat.toDigits 10 n = ds at hhead
      unfold splitBase
      split
      · exact absurd rfl hhead
      · exact absurd rfl hhead
      · rfl
    rw [hsplit]
    exact readDigits_toDigits true h

theorem contains_underscore_toDigits (n : Nat) : (Nat.toDigits 10 n).contains '_' = false := by
  rw [List.contains_eq_mem, decide_eq_false_iff_not]
  exact fun hmem => absurd (isDigit_of_mem_digits hmem) (by decide)

theorem splitSign_toString (x : Int64) : splitSign (minusText x ++ Nat.toDigits 10 x.toInt.natAbs) =
    (decide (x.toInt < 0), Nat.toDigits 10 x.toInt.natAbs) := by
  unfold minusText
  by_cases h : x.toInt < 0
  · rw [if_pos h, decide_eq_true h]
    rfl
  · rw [if_neg h, decide_eq_false h, List.nil_append]
    cases hdigits : Nat.toDigits 10 x.toInt.natAbs with
    | nil => exact absurd hdigits Nat.toDigits_ne_nil
    | cons c cs =>
      exact splitSign_of_isDigit (isDigit_of_mem_digits (hdigits ▸ List.mem_cons_self))

/-- A printed integer is read as the integer. -/
theorem readInt_toString (x : Int64) : readInt (toString x).toList = .ok x := by
  have hlt : x.toInt.natAbs < 2 ^ 64 := by
    have hlo := x.le_toInt
    have hhi := x.toInt_lt
    omega
  have hempty : (Nat.toDigits 10 x.toInt.natAbs).isEmpty = false := by
    rw [List.isEmpty_eq_false_iff]
    exact Nat.toDigits_ne_nil
  rw [toList_toString, readInt, splitSign_toString]
  dsimp only
  rw [hempty, readDigits_splitBase hlt, contains_underscore_toDigits]
  exact signed?_natAbs x

end Number

namespace Input

open Text (Glyph isBlank)
open Number (minusText toList_toString readInt_toString isDigit_of_mem_digits head?_toDigits)

/-! ## Taking characters -/

/-- Reading gives a value and leaves the rest of the input. -/
def Gets {α : Type} (scan : Scan α) (i : Input) (a : α) (i' : Input) : Prop :=
  scan.run.run i = (.ok a, i')

theorem Gets.bind {α β : Type} {scan : Scan α} {f : α → Scan β} {i j k : Input} {a : α} {b : β}
    (h : Gets scan i a j) (hf : Gets (f a) j b k) : Gets (scan >>= f) i b k := by
  unfold Gets at *
  rw [ExceptT.run_bind, StateT.run_bind, h]
  exact hf

/-- Input at whose front there is white space, or nothing. -/
def Stops (bs : List UInt8) : Prop :=
  ∀ b ∈ bs.head?, isChar isBlank b = true

variable {p : Char → Bool} {c : Char} {cs : List Char} {bs lead rest : List UInt8}

theorem isChar_toUInt8 (h : c.toNat < 128) : isChar p c.toUInt8 = p c := by
  have hbyte : c.toUInt8.toNat = c.toNat := by
    show c.toNat % 256 = c.toNat
    omega
  have hlt : c.toUInt8 < 128 := by
    rw [UInt8.lt_iff_toNat_lt, hbyte]
    exact h
  rw [isChar, decide_eq_true hlt, hbyte, Char.ofNat_toNat, Bool.true_and]

theorem ofNat_toUInt8 (h : c.toNat < 128) : Char.ofNat c.toUInt8.toNat = c := by
  have hbyte : c.toUInt8.toNat = c.toNat := by
    show c.toNat % 256 = c.toNat
    omega
  rw [hbyte, Char.ofNat_toNat]

/-- What holds of the ten digits. -/
theorem of_isDigit {q : Char → Bool} (hq : ∀ n < 58, 48 ≤ n → q (Char.ofNat n) = true)
    (h : c.isDigit = true) : q c = true := by
  simp only [Char.isDigit, Bool.and_eq_true, decide_eq_true_eq] at h
  have hlo : 48 ≤ c.toNat := h.1
  have hhi : c.toNat ≤ 57 := h.2
  have hc := hq c.toNat (by omega) hlo
  rwa [Char.ofNat_toNat] at hc

theorem digit_taken (h : c.isDigit = true) : c.toNat < 128 ∧ oneOf "0123456789_" c = true :=
  ⟨decide_eq_true_iff.mp (of_isDigit (q := fun c => decide (c.toNat < 128)) (by decide) h),
    of_isDigit (by decide) h⟩

theorem Stops.any_oneOf {text : String} (h : Stops bs)
    (htext : text.toList.all (!isBlank ·) = true) : bs.head?.any (isChar (oneOf text)) = false := by
  cases bs with
  | nil => rfl
  | cons b bs =>
    have hb := h b rfl
    simp only [isChar, Bool.and_eq_true] at hb
    simp only [List.head?_cons, Option.any_some, isChar, hb.1, Bool.true_and, oneOf,
      List.contains_eq_mem, decide_eq_false_iff_not]
    intro hmem
    have hnot := List.all_eq_true.mp htext _ hmem
    rw [hb.2] at hnot
    cases hnot

theorem gets_probe (bs : List UInt8) : Gets probe ⟨bs, false⟩ () ⟨bs, false⟩ := by
  cases bs <;> rfl

theorem gets_notEnded (b : UInt8) (bs : List UInt8) :
    Gets notEnded ⟨b :: bs, false⟩ () ⟨b :: bs, false⟩ := rfl

theorem gets_ahead (p : Char → Bool) (bs : List UInt8) :
    Gets (ahead p) ⟨bs, false⟩ (bs.head?.any (isChar p)) ⟨bs, false⟩ :=
  (gets_probe bs).bind rfl

theorem gets_accept (hc : c.toNat < 128) (hp : p c = true) :
    Gets (accept p) ⟨c.toUInt8 :: bs, false⟩ [c] ⟨bs, false⟩ := by
  refine (gets_probe _).bind ?_
  show Gets (if isChar p c.toUInt8 then _ else _) _ _ _
  rw [isChar_toUInt8 hc, if_pos hp, ofNat_toUInt8 hc]
  rfl

theorem gets_accept_nothing (h : bs.head?.any (isChar p) = false) :
    Gets (accept p) ⟨bs, false⟩ [] ⟨bs, false⟩ := by
  refine (gets_probe _).bind ?_
  cases bs with
  | nil => rfl
  | cons b bs =>
    have hb : isChar p b = false := h
    show Gets (if isChar p b then _ else _) _ _ _
    rw [hb]
    rfl

theorem gets_acceptAll (hcs : ∀ c ∈ cs, c.toNat < 128 ∧ p c = true)
    (h : bs.head?.any (isChar p) = false) :
    Gets (acceptAll p) ⟨cs.map Char.toUInt8 ++ bs, false⟩ cs ⟨bs, false⟩ := by
  have hall : ∀ b ∈ cs.map Char.toUInt8, isChar p b = true := by
    intro b hb
    obtain ⟨c, hc, rfl⟩ := List.mem_map.mp hb
    rw [isChar_toUInt8 (hcs c hc).1]
    exact (hcs c hc).2
  have hstop : bs.takeWhile (isChar p) = [] ∧ bs.dropWhile (isChar p) = bs := by
    cases bs with
    | nil => exact ⟨rfl, rfl⟩
    | cons b bs =>
      have hb : isChar p b = false := h
      simp [hb]
  have hback : (cs.map Char.toUInt8).map (fun b => Char.ofNat b.toNat) = cs := by
    rw [List.map_map]
    exact (List.map_congr_left fun c hc => ofNat_toUInt8 (hcs c hc).1).trans (List.map_id cs)
  show Gets (probe >>= fun _ => pure (((cs.map Char.toUInt8 ++ bs).takeWhile (isChar p)).map fun b =>
    Char.ofNat b.toNat)) ⟨(cs.map Char.toUInt8 ++ bs).dropWhile (isChar p), false⟩ _ _
  rw [List.takeWhile_append_of_pos hall, List.dropWhile_append_of_pos hall, hstop.1, hstop.2,
    List.append_nil, hback]
  exact (gets_probe bs).bind rfl

theorem ascii_toString (x : Int64) (hc : c ∈ (toString x).toList) : c.toNat < 128 := by
  rw [toList_toString, List.mem_append] at hc
  rcases hc with hsign | hdigit
  · have hminus : c = '-' := by
      unfold minusText at hsign
      split at hsign
      · exact List.mem_singleton.mp hsign
      · cases hsign
    rw [hminus]
    decide
  · exact (digit_taken (isDigit_of_mem_digits hdigit)).1

/-! ## Reading an integer -/

theorem first_of_isChar {b : UInt8} (h : isChar p b = true) (rest : List UInt8) :
    (Glyph.first b rest).2 = rest ∧ p (Glyph.first b rest).1.char = true := by
  simp only [isChar, Bool.and_eq_true, decide_eq_true_eq] at h
  have hsequence : Text.sequence? b rest = some (Char.ofNat b.toNat, 0) := if_pos h.1
  rw [Glyph.first, hsequence]
  exact ⟨rfl, h.2⟩

theorem dropBlanks_append (h : ∀ b ∈ lead, isChar isBlank b = true) (bs : List UInt8) :
    dropBlanks (lead ++ bs) = dropBlanks bs := by
  induction lead with
  | nil => rfl
  | cons b lead ih =>
    obtain ⟨hb, hlead⟩ := List.forall_mem_cons.mp h
    obtain ⟨hrest, hblank⟩ := first_of_isChar hb (lead ++ bs)
    rw [List.cons_append, dropBlanks, if_pos hblank, hrest]
    exact ih hlead

theorem dropBlanks_cons {b : UInt8} (h : isChar (!isBlank ·) b = true) (bs : List UInt8) :
    dropBlanks (b :: bs) = b :: bs := by
  obtain ⟨-, hsolid⟩ := first_of_isChar h bs
  rw [dropBlanks, if_neg (by simpa using hsolid)]

theorem gets_skipBlanks {b : UInt8} (h : ∀ b ∈ lead, isChar isBlank b = true)
    (hb : isChar (!isBlank ·) b = true) :
    Gets skipBlanks ⟨lead ++ b :: bs, false⟩ () ⟨b :: bs, false⟩ := by
  show Gets probe ⟨dropBlanks (lead ++ b :: bs), false⟩ _ _
  rw [dropBlanks_append h, dropBlanks_cons hb]
  exact gets_probe _

theorem gets_magnitude (n : Nat) (h : Stops bs) :
    Gets magnitude ⟨(Nat.toDigits 10 n).map Char.toUInt8 ++ bs, false⟩ (Nat.toDigits 10 n)
      ⟨bs, false⟩ := by
  by_cases hzero : n = 0
  · subst hzero
    refine (gets_ahead _ _).bind ?_
    show Gets (accept _ >>= _) _ _ _
    refine (gets_accept (by decide) (by decide)).bind ?_
    refine (gets_accept_nothing (h.any_oneOf (by decide))).bind ?_
    refine (gets_acceptAll (List.forall_mem_nil _) (h.any_oneOf (by decide))).bind ?_
    rfl
  · cases hdigits : Nat.toDigits 10 n with
    | nil => exact absurd hdigits Nat.toDigits_ne_nil
    | cons c cs =>
      have hall : ∀ d ∈ c :: cs, d.isDigit = true := fun d hd =>
        isDigit_of_mem_digits (hdigits ▸ hd)
      obtain ⟨hc, hcs⟩ := List.forall_mem_cons.mp hall
      have hbase : isChar (· == '0') c.toUInt8 = false := by
        rw [isChar_toUInt8 (digit_taken hc).1, beq_eq_false_iff_ne]
        rintro rfl
        exact head?_toDigits hzero (by rw [hdigits]; rfl)
      refine (gets_ahead _ _).bind ?_
      show Gets (if isChar (· == '0') c.toUInt8 then _ else _) _ _ _
      rw [hbase, if_neg Bool.false_ne_true]
      refine (gets_notEnded _ _).bind ?_
      refine (gets_accept (digit_taken hc).1 (digit_taken hc).2).bind ?_
      show Gets (acceptAll _ >>= _) _ _ _
      refine (gets_acceptAll (fun d hd => digit_taken (hcs d hd)) (h.any_oneOf (by decide))).bind ?_
      rfl

/-- A printed integer is taken up to the white space behind it. -/
theorem gets_intText (x : Int64) (hlead : ∀ b ∈ lead, isChar isBlank b = true) (h : Stops bs) :
    Gets intText ⟨lead ++ ((toString x).toList.map Char.toUInt8 ++ bs), false⟩ (toString x).toList
      ⟨bs, false⟩ := by
  rw [toList_toString, minusText]
  split
  · rw [List.cons_append, List.nil_append, List.map_cons]
    refine (gets_skipBlanks hlead (by decide)).bind ?_
    refine (gets_notEnded _ _).bind ?_
    refine (gets_accept (by decide) (by decide)).bind ?_
    exact (gets_magnitude _ h).bind rfl
  · cases hdigits : Nat.toDigits 10 x.toInt.natAbs with
    | nil => exact absurd hdigits Nat.toDigits_ne_nil
    | cons c cs =>
      have hc : c.isDigit = true := isDigit_of_mem_digits (hdigits ▸ List.mem_cons_self)
      have hchar {q : Char → Bool} : isChar q c.toUInt8 = q c := isChar_toUInt8 (digit_taken hc).1
      have hmagnitude := gets_magnitude x.toInt.natAbs h
      rw [hdigits] at hmagnitude
      refine (gets_skipBlanks hlead ?_).bind ?_
      · rw [hchar]
        exact of_isDigit (q := fun c => !isBlank c) (by decide) hc
      refine (gets_notEnded _ _).bind ?_
      refine (gets_accept_nothing ?_).bind (hmagnitude.bind rfl)
      show isChar (oneOf "+-") c.toUInt8 = false
      rw [hchar, ← Bool.not_eq_true']
      exact of_isDigit (q := fun c => !oneOf "+-" c) (by decide) hc

theorem gets_readInteger (x : Int64) (hlead : ∀ b ∈ lead, isChar isBlank b = true)
    (h : Stops bs) : Gets readInteger ⟨lead ++ ((toString x).toList.map Char.toUInt8 ++ bs), false⟩ x
      ⟨bs, false⟩ := by
  refine (gets_intText x hlead h).bind ?_
  rw [readInt_toString]
  rfl

/-- There is no integer in white space. -/
theorem readInteger_blank (hlead : ∀ b ∈ lead, isChar isBlank b = true) :
    readInteger.run.run ⟨lead, false⟩ = (.error .ended, ⟨[], false⟩) := by
  have hdrop := dropBlanks_append hlead []
  rw [List.append_nil, dropBlanks] at hdrop
  have hskip : Gets skipBlanks ⟨lead, false⟩ () ⟨[], false⟩ := by
    show Gets probe ⟨dropBlanks lead, false⟩ _ _
    rw [hdrop]
    rfl
  rw [readInteger, ExceptT.run_bind, StateT.run_bind, intText, ExceptT.run_bind, StateT.run_bind,
    hskip]
  rfl

end Input

namespace Machine

open Text (isBlank)

/-! ## Calls that read printed integers -/

/-- What a word is printed as: the bytes that `putint` delivers to a receiver that takes all. -/
def printed (s : Setup) (x : UInt64) : List UInt8 :=
  (perform s .putint x { input := ⟨[], false⟩ }).1.output.flush.delivered.toList

/-- Numbers are printed with some bytes behind each of them. -/
def printedText (s : Setup) (items : List (UInt64 × List UInt8)) : List UInt8 :=
  items.flatMap fun item => printed s item.1 ++ item.2

/-- The machine is ready for a call of `getint`: the slot names it, the memo says so if it says
anything, and there is room for the answer. -/
structure Listens (s : Setup) (f : Frame) (slot : Int64) (m : Machine) : Prop where
  memo : m.memo.Sound s.module
  builtin : builtinAt s.module slot = .ok .getint
  room : f.floor < m.memory.size

/-- A receiver that takes all gets what is written, and nothing else. -/
theorem delivered_write (bs : Array UInt8) :
    (({} : Output).write bs).flush.delivered = bs ∧ (({} : Output).write bs).failed = false := by
  have hroom : ({} : Output).room = Output.capacity := rfl
  unfold Output.write
  rw [hroom, if_neg Bool.false_ne_true]
  split
  · refine ⟨?_, rfl⟩
    cases hempty : bs.isEmpty with
    | true => simp [Output.flush, Array.isEmpty_iff.mp hempty]
    | false => simp [Output.flush, Output.deliver, Output.accepted, hempty]
  · simp [Output.flush, Output.deliver, Output.accepted]

theorem printed_eq (s : Setup) (x : UInt64) :
    printed s x = (toString x.toInt64).toList.map Char.toUInt8 := by
  have hascii : ∀ c ∈ (toString x.toInt64).toList, String.utf8EncodeChar c = [c.toUInt8] := by
    intro c hc
    refine String.utf8EncodeChar_eq_singleton (Char.utf8Size_eq_one_iff.mpr ?_)
    exact Nat.le_of_lt_succ (Input.ascii_toString _ hc)
  have hbytes : (textBytes (toString x.toInt64)).toList
      = (toString x.toInt64).toList.map Char.toUInt8 := by
    rw [textBytes, Text.toUTF8_eq, List.map_eq_flatMap]
    exact congrArg List.flatten (List.map_congr_left hascii)
  obtain ⟨hdelivered, hfailed⟩ := delivered_write (textBytes (toString x.toInt64))
  rw [← hbytes, printed, perform, send]
  dsimp only
  rw [if_neg (by rw [hfailed]; exact Bool.false_ne_true)]
  exact congrArg Array.toList hdelivered

section

variable {s : Setup} {f : Frame} {slot : Int64} {m : Machine} {lead bs : List UInt8} {x : UInt64}

theorem callBuiltin_getint (h : m.Listens s f slot) : ∃ memo, m.callBuiltin s f slot =
    { m with memo }.receive .getint Input.readInteger Int64.toUInt64 := by
  obtain ⟨memo, hresolve, -⟩ := resolve_eq h.memo slot
  have hroom : ¬m.memory.size < f.floor + Builtin.getint.paramTypes.length
      + Builtin.getint.result.slots := Nat.not_lt.mpr h.room
  refine ⟨memo, ?_⟩
  unfold callBuiltin
  rw [hresolve, h.builtin]
  dsimp only
  rw [if_neg hroom]
  rfl

/-- A call answers with a printed integer and leaves what stands behind it. -/
theorem callBuiltin_printed (h : m.Listens s f slot)
    (hinput : m.input = ⟨lead ++ (printed s x ++ bs), false⟩)
    (hlead : ∀ b ∈ lead, Input.isChar isBlank b = true) (hbs : Input.Stops bs) :
    ∃ memo, m.callBuiltin s f slot =
      ({ m with memo, input := ⟨bs, false⟩, memory := m.memory.pop.push x }, none) := by
  obtain ⟨memo, hcall⟩ := callBuiltin_getint h
  have hword : x.toInt64.toUInt64 = x := UInt64.toUInt64_toInt64 x
  have hread := Input.gets_readInteger x.toInt64 hlead hbs
  rw [← printed_eq s] at hread
  refine ⟨memo, ?_⟩
  rw [hcall, receive, hinput, hread]
  dsimp only
  rw [hword]
  rfl

/-- A call with only white space left fails at the end of the input. -/
theorem callBuiltin_blank (h : m.Listens s f slot) (hinput : m.input = ⟨lead, false⟩)
    (hlead : ∀ b ∈ lead, Input.isChar isBlank b = true) :
    ∃ memo, m.callBuiltin s f slot =
      ({ m with memo, input := ⟨[], false⟩ }, some (.input .getint .ended)) := by
  obtain ⟨memo, hcall⟩ := callBuiltin_getint h
  refine ⟨memo, ?_⟩
  rw [hcall, receive, hinput, Input.readInteger_blank hlead]
  rfl

end

/-- White space starts what is printed behind a number. -/
theorem stops_gap {s : Setup} {gap : List UInt8} {items : List (UInt64 × List UInt8)}
    (hgap : ∀ b ∈ gap, Input.isChar isBlank b = true) (hnext : items ≠ [] → gap ≠ []) :
    Input.Stops (gap ++ printedText s items) := by
  intro b hb
  cases gap with
  | cons c gap =>
    cases hb
    exact hgap b List.mem_cons_self
  | nil =>
    cases items with
    | nil => cases hb
    | cons item items => exact absurd rfl (hnext (List.cons_ne_nil _ _))

/-- **Integers that were printed with white space between them are read back, one with each call.**
Each call leaves all that stands behind its number, and a call behind the last one fails at the end
of the input. What a machine does between two calls does not matter, as long as it does not read. -/
theorem printed_integers_are_read_back {s : Setup} {lead : List UInt8}
    {items : List (UInt64 × List UInt8)} {m : Nat → Machine} {f : Nat → Frame} {slot : Nat → Int64}
    (hlead : ∀ b ∈ lead, Input.isChar isBlank b = true)
    (hgaps : ∀ item ∈ items, ∀ b ∈ item.2, Input.isChar isBlank b = true)
    (hbetween : ∀ item ∈ items.dropLast, item.2 ≠ [])
    (hcalls : ∀ k ≤ items.length, (m k).Listens s (f k) (slot k))
    (hfirst : (m 0).input = ⟨lead ++ printedText s items, false⟩)
    (hnext : ∀ k < items.length,
      (m (k + 1)).input = ((m k).callBuiltin s (f k) (slot k)).1.input) :
    (∀ k x gap, items[k]? = some (x, gap) → ∃ memo,
      (m k).callBuiltin s (f k) (slot k) = ({ m k with
        memo, input := ⟨gap ++ printedText s (items.drop (k + 1)), false⟩,
        memory := (m k).memory.pop.push x }, none)) ∧
    (∃ memo, (m items.length).callBuiltin s (f items.length) (slot items.length) =
      ({ m items.length with memo, input := ⟨[], false⟩ }, some (.input .getint .ended))) ∧
    (Trap.input .getint .ended).message = "getint: EOF" := by
  -- The number at a place is called for with white space in front of it, as gaps are taken with
  -- the number behind them.
  have hstep : ∀ k lead x gap, items[k]? = some (x, gap) →
      (∀ b ∈ lead, Input.isChar isBlank b = true) →
      (m k).input = ⟨lead ++ printedText s (items.drop k), false⟩ → ∃ memo,
      (m k).callBuiltin s (f k) (slot k) = ({ m k with
        memo, input := ⟨gap ++ printedText s (items.drop (k + 1)), false⟩,
        memory := (m k).memory.pop.push x }, none) := by
    intro k lead x gap hitem hlead hinput
    obtain ⟨hlt, hget⟩ := List.getElem?_eq_some_iff.mp hitem
    rw [List.drop_eq_getElem_cons hlt, hget, printedText, List.flatMap_cons,
      List.append_assoc] at hinput
    refine callBuiltin_printed (hcalls k (by omega)) hinput hlead (stops_gap ?_ fun hmore => ?_)
    · exact hgaps _ (List.mem_of_getElem? hitem)
    · refine hbetween (x, gap) (List.mem_iff_getElem?.mpr ⟨k, ?_⟩)
      have hlast : k + 1 < items.length :=
        Nat.lt_of_not_le fun hge => hmore (List.drop_eq_nil_of_le hge)
      rw [List.getElem?_dropLast, if_pos (by omega)]
      exact hitem
  have hinputs : ∀ k ≤ items.length, ∃ lead, (∀ b ∈ lead, Input.isChar isBlank b = true) ∧
      (m k).input = ⟨lead ++ printedText s (items.drop k), false⟩ := by
    intro k hk
    induction k with
    | zero => exact ⟨lead, hlead, hfirst⟩
    | succ k ih =>
      obtain ⟨lead, hlead, hinput⟩ := ih (by omega)
      have hitem : items[k]? = some (items[k].1, items[k].2) := List.getElem?_eq_getElem (by omega)
      obtain ⟨memo, hcall⟩ := hstep k lead _ _ hitem hlead hinput
      refine ⟨items[k].2, hgaps _ (List.getElem_mem _), ?_⟩
      rw [hnext k (by omega), hcall]
  refine ⟨fun k x gap hitem => ?_, ?_, by decide⟩
  · obtain ⟨hlt, -⟩ := List.getElem?_eq_some_iff.mp hitem
    obtain ⟨lead, hlead, hinput⟩ := hinputs k (by omega)
    exact hstep k lead x gap hitem hlead hinput
  · obtain ⟨lead, hlead, hinput⟩ := hinputs items.length (Nat.le_refl _)
    rw [List.drop_length, printedText, List.flatMap_nil, List.append_nil] at hinput
    exact callBuiltin_blank (hcalls _ (Nat.le_refl _)) hinput hlead

example : [32, 9, 10].all (Input.isChar isBlank) = true := by decide

/-- A module that knows `getint`. -/
def listening : Setup where
  name := ""
  module :=
    ⟨Module.standardMagic, Module.standardVersion, #[⟨true, [103, 101, 116, 105, 110, 116]⟩], #[]⟩
  maxSteps := 0

/-- A frame without operands. -/
def bareFrame : Frame :=
  ⟨⟨0, 0, 0, 0, #[]⟩, 0, 0, 0⟩

/-- Machines that call for one integer after the other. -/
def listener : Nat → Machine
  | 0 => { memory := #[0], input := ⟨[32] ++ (printed listening 42 ++ [9, 10]
      ++ printed listening 0x8000000000000000), false⟩ }
  | k + 1 => { memory := #[0], input := ((listener k).callBuiltin listening bareFrame 0).1.input }

theorem listener_reads_back :
    ((listener 0).callBuiltin listening bareFrame 0).1.memory = #[42] ∧
      ((listener 1).callBuiltin listening bareFrame 0).1.memory = #[0x8000000000000000] ∧
      ((listener 2).callBuiltin listening bareFrame 0).2 = some (.input .getint .ended) := by
  have hcalls : ∀ k, (listener k).Listens listening bareFrame 0 := by
    have hbuiltin : builtinAt listening.module 0 = .ok .getint := by with_unfolding_all rfl
    intro k
    cases k with
    | zero => exact ⟨by simp [Memo.Sound, listener], hbuiltin, Nat.zero_lt_one⟩
    | succ k => exact ⟨by simp [Memo.Sound, listener], hbuiltin, Nat.zero_lt_one⟩
  have hlead : ∀ b ∈ [(32 : UInt8)], Input.isChar isBlank b = true :=
    List.all_eq_true.mp (by decide)
  have hgap : ∀ b ∈ [(9 : UInt8), 10], Input.isChar isBlank b = true :=
    List.all_eq_true.mp (by decide)
  have hgaps : ∀ item ∈ [((42 : UInt64), [(9 : UInt8), 10]), (0x8000000000000000, [])],
      ∀ b ∈ item.2, Input.isChar isBlank b = true :=
    List.forall_mem_cons.mpr ⟨hgap, by simp⟩
  obtain ⟨hread, ⟨memo, hend⟩, -⟩ := printed_integers_are_read_back hlead hgaps (by decide)
    (fun k _ => hcalls k) (by simp [listener, printedText]) fun k _ => rfl
  obtain ⟨memo₀, hfirst⟩ := hread 0 _ _ rfl
  obtain ⟨memo₁, hsecond⟩ := hread 1 _ _ rfl
  exact ⟨congrArg (·.1.memory) hfirst, congrArg (·.1.memory) hsecond, congrArg (·.2) hend⟩

end Machine

end TinyC
