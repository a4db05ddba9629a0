import TinyC.Text.Glyph

/-!
# Texts are read back from their bytes

A text is stored as the UTF-8 bytes of its characters. Reading the first glyph of such bytes gives
the first character with exactly its bytes (`first_utf8`), so the glyphs of a stored text are its
characters (`glyphs_bytesOf`). The four cases are the four lengths that a character can have; in
each of them the lead byte names the length, and the payload bits put together are the code point.
-/

namespace TinyC.Text

variable {n : Nat} {c : Char}

/-! ### Bytes as lists -/

theorem toList_loop (bs : ByteArray) (i : Nat) (r : List UInt8) :
    ByteArray.toList.loop bs i r = r.reverse ++ bs.data.toList.drop i := by
  fun_induction ByteArray.toList.loop bs i r with
  | case1 i r hlt ih =>
    have hlength : i < bs.data.toList.length := by simpa using hlt
    have hget : bs.get! i = bs.data.toList[i] := by
      cases bs
      exact (getElem!_pos _ i hlt).trans (Array.getElem_toList hlt).symm
    rw [ih, List.drop_eq_getElem_cons hlength, hget, List.reverse_cons, List.append_assoc]
    rfl
  | case2 i r hge =>
    have hlength : bs.data.toList.length ≤ i := by simpa using hge
    rw [List.drop_eq_nil_of_le hlength, List.append_nil]

theorem toUTF8_eq (s : String) : s.toUTF8.data.toList = s.toList.flatMap String.utf8EncodeChar := by
  rw [String.toUTF8_eq_toByteArray, ← String.utf8Encode_toList]
  exact List.toList_data_toByteArray

theorem bytesOf_eq (s : String) : bytesOf s = s.toList.flatMap String.utf8EncodeChar := by
  rw [bytesOf, ByteArray.toList, toList_loop, toUTF8_eq]
  rfl

/-- A literal is a list of characters, from which its bytes are computed without an array. -/
theorem bytesOf_ofList (cs : List Char) :
    bytesOf (String.ofList cs) = cs.flatMap String.utf8EncodeChar := by
  rw [bytesOf_eq, String.toList_ofList]

theorem bytesOf_concat (s : String) (cs : List Char) :
    bytesOf (s ++ String.ofList cs) = bytesOf s ++ cs.flatMap String.utf8EncodeChar := by
  simp only [bytesOf_eq, String.toList_append, List.flatMap_append, String.toList_ofList]

/-! ### One character -/

/-- The glyph of a character that is spelled in full. -/
def Glyph.ofChar (c : Char) : Glyph :=
  ⟨c, String.utf8EncodeChar c⟩

theorem toNat_byte (h : n < 256) : (UInt8.ofNat n).toNat = n :=
  UInt8.toNat_ofNat_of_lt' h

theorem isTail_ofNat (h : n < 64) : isTail (UInt8.ofNat (n + 128)) = true := by
  have hlow : 128 ≤ n + 128 := by omega
  have hhigh : n + 128 ≤ 191 := by omega
  simp only [isTail, Bool.and_eq_true, decide_eq_true_eq, UInt8.le_iff_toNat_le,
    toNat_byte (show n + 128 < 256 by omega)]
  exact ⟨hlow, hhigh⟩

theorem tailBits_ofNat (h : n < 64) : tailBits (UInt8.ofNat (n + 128)) = n := by
  rw [tailBits, toNat_byte (by omega)]
  omega

theorem scalar?_toNat {least n : Nat} (hn : n = c.toNat) (h : least ≤ n) :
    scalar? least n = some c := by
  subst hn
  rw [scalar?, if_pos ⟨h, c.valid⟩, Char.ofNat_toNat]

theorem byte_lt_iff (h : n < 256) (b : UInt8) : UInt8.ofNat n < b ↔ n < b.toNat := by
  rw [UInt8.lt_iff_toNat_lt, toNat_byte h]

theorem byte_within_iff (h : n < 256) (low high : UInt8) :
    (low ≤ UInt8.ofNat n && UInt8.ofNat n ≤ high) = true ↔ low.toNat ≤ n ∧ n ≤ high.toNat := by
  rw [Bool.and_eq_true, decide_eq_true_iff, decide_eq_true_iff, UInt8.le_iff_toNat_le,
    UInt8.le_iff_toNat_le, toNat_byte h]

theorem sequence?_one (h : n < 128) (rest : List UInt8) :
    sequence? (UInt8.ofNat n) rest = some (Char.ofNat n, 0) := by
  unfold sequence?
  rw [if_pos ((byte_lt_iff (by omega) _).mpr h), toNat_byte (by omega)]

theorem sequence?_two {x y : Nat} (hx : x < 32) (hy : y < 64) (rest : List UInt8) :
    sequence? (UInt8.ofNat (x + 192)) (UInt8.ofNat (y + 128) :: rest) =
      (scalar? 0x80 (x * 64 + y)).map (·, 1) := by
  have hsize : x + 192 < 256 := by omega
  have hpayload : (x + 192) % 32 = x := by omega
  simp only [sequence?, byte_lt_iff hsize, byte_within_iff hsize, UInt8.reduceToNat,
    isTail_ofNat hy, tailBits_ofNat hy, toNat_byte hsize, hpayload]
  rw [if_neg (by omega), if_pos (by omega), if_pos (by decide)]

theorem sequence?_three {x y z : Nat} (hx : x < 16) (hy : y < 64) (hz : z < 64)
    (rest : List UInt8) :
    sequence? (UInt8.ofNat (x + 224)) (UInt8.ofNat (y + 128) :: UInt8.ofNat (z + 128) :: rest) =
      (scalar? 0x800 ((x * 64 + y) * 64 + z)).map (·, 2) := by
  have hsize : x + 224 < 256 := by omega
  have hpayload : (x + 224) % 16 = x := by omega
  simp only [sequence?, byte_lt_iff hsize, byte_within_iff hsize, UInt8.reduceToNat,
    isTail_ofNat hy, isTail_ofNat hz, tailBits_ofNat hy, tailBits_ofNat hz, toNat_byte hsize,
    hpayload]
  rw [if_neg (by omega), if_neg (by omega), if_pos (by omega), if_pos (by decide)]

theorem sequence?_four {x y z w : Nat} (hx : x < 8) (hy : y < 64) (hz : z < 64) (hw : w < 64)
    (rest : List UInt8) :
    sequence? (UInt8.ofNat (x + 240))
        (UInt8.ofNat (y + 128) :: UInt8.ofNat (z + 128) :: UInt8.ofNat (w + 128) :: rest) =
      (scalar? 0x10000 (((x * 64 + y) * 64 + z) * 64 + w)).map (·, 3) := by
  have hsize : x + 240 < 256 := by omega
  have hpayload : (x + 240) % 8 = x := by omega
  simp only [sequence?, byte_lt_iff hsize, byte_within_iff hsize, UInt8.reduceToNat,
    isTail_ofNat hy, isTail_ofNat hz, isTail_ofNat hw, tailBits_ofNat hy, tailBits_ofNat hz,
    tailBits_ofNat hw, toNat_byte hsize, hpayload]
  rw [if_neg (by omega), if_neg (by omega), if_neg (by omega), if_pos (by omega),
    if_pos (by decide)]

/-- The bytes of a character are read as that character, whatever follows them. -/
theorem sequence?_utf8 (c : Char) (rest : List UInt8) :
    ∃ a tail, String.utf8EncodeChar c = a :: tail ∧
      sequence? a (tail ++ rest) = some (c, tail.length) := by
  have hmax : c.toNat < 0x110000 := by
    rcases c.valid with h | ⟨_, h⟩
    · exact Nat.lt_trans h (by decide)
    · exact h
  have hval : c.val.toNat = c.toNat := rfl
  simp only [String.utf8EncodeChar, hval]
  by_cases hone : c.toNat ≤ 127
  · rw [if_pos hone]
    refine ⟨_, _, rfl, (sequence?_one (by omega) rest).trans ?_⟩
    rw [Char.ofNat_toNat]
    rfl
  rw [if_neg hone]
  by_cases htwo : c.toNat ≤ 2047
  · rw [if_pos htwo]
    refine ⟨_, _, rfl, (sequence?_two (by omega) (by omega) rest).trans ?_⟩
    rw [scalar?_toNat (c := c) (by omega) (by omega)]
    rfl
  rw [if_neg htwo]
  by_cases hthree : c.toNat ≤ 65535
  · rw [if_pos hthree]
    refine ⟨_, _, rfl, (sequence?_three (by omega) (by omega) (by omega) rest).trans ?_⟩
    rw [scalar?_toNat (c := c) (by omega) (by omega)]
    rfl
  · rw [if_neg hthree]
    refine ⟨_, _, rfl, (sequence?_four (by omega) (by omega) (by omega) (by omega) rest).trans ?_⟩
    rw [scalar?_toNat (c := c) (by omega) (by omega)]
    rfl

theorem first_utf8 (c : Char) (rest : List UInt8) :
    ∃ a tail, String.utf8EncodeChar c = a :: tail ∧
      Glyph.first a (tail ++ rest) = (Glyph.ofChar c, rest) := by
  obtain ⟨a, tail, hbytes, hsequence⟩ := sequence?_utf8 c rest
  refine ⟨a, tail, hbytes, ?_⟩
  rw [Glyph.first, hsequence]
  simp [Glyph.ofChar, hbytes]

/-! ### Whole texts -/

theorem glyphs_utf8 (cs : List Char) :
    glyphs (cs.flatMap String.utf8EncodeChar) = cs.map Glyph.ofChar := by
  induction cs with
  | nil => simp [glyphs]
  | cons c cs ih =>
    obtain ⟨a, tail, hbytes, hfirst⟩ := first_utf8 c (cs.flatMap String.utf8EncodeChar)
    rw [List.flatMap_cons, hbytes, List.cons_append, glyphs, hfirst, ih, List.map_cons]

/-- The glyphs of a stored text are its characters. -/
theorem glyphs_bytesOf (s : String) : glyphs (bytesOf s) = s.toList.map Glyph.ofChar := by
  rw [bytesOf_eq, glyphs_utf8]

end TinyC.Text
