-- Numbers of a fixed width. A cursor reads and writes them by their type or by their width,
-- with a sign or without one, first byte lowest or highest, and all these steps agree.
import BytecodeDump.Proofs.Cursor
import BytecodeDump.Proofs.SignExtension

namespace BytecodeDump

namespace Cursor

variable {c : Cursor} {α β γ : Type} {width : Nat}

/-! ## Writing -/

/-- The low bytes of a signed number in two's complement, as one number. -/
def pattern (bytes : Nat) (n : Int) : Nat := (n % 256 ^ bytes).toNat

theorem pattern_toInt {bits bytes : Nat} (h : 2 ^ bits = 256 ^ bytes) (v : BitVec bits) :
    pattern bytes v.toInt = v.toNat := by
  have hpower : (256 : Int) ^ bytes = ((2 ^ bits : Nat) : Int) := by rw [h]; norm_cast
  rw [pattern, BitVec.toInt_eq_toNat_bmod, hpower, Int.bmod_emod, ← Int.natCast_emod,
    Nat.mod_eq_of_lt v.isLt, Int.toNat_natCast]

/-- The steps that write a type of numbers are cases of the one that is told the width, and a
signed number is written as its pattern. -/
structure WritersAgree (c : Cursor) : Prop where
  uint8 : ∀ v : UInt8, c.writeUInt v.toUInt32 1 = .ok (c.writeUInt8 v)
  uint16 : ∀ v : UInt16, c.writeUInt v.toUInt32 2 = .ok (c.writeUInt16 v)
  uint32 : ∀ v : UInt32, c.writeUInt v 4 = .ok (c.writeUInt32 v)
  int8 : ∀ v : Int8, c.writeInt8 v = c.writeUInt8 (.ofNat (pattern 1 v.toInt))
  int16 : ∀ v : Int16, c.writeInt16 v = c.writeUInt16 (.ofNat (pattern 2 v.toInt))
  int32 : ∀ v : Int32, c.writeInt32 v = c.writeUInt32 (.ofNat (pattern 4 v.toInt))
  int : ∀ (v : Int32) width, c.writeInt v width = c.writeUInt (.ofNat (pattern 4 v.toInt)) width

theorem writersAgree (c : Cursor) : c.WritersAgree where
  uint8 v := by
    have hv : v.toUInt32.toNat % 256 ^ 1 = v.toNat := by
      rw [UInt8.toNat_toUInt32]
      exact Nat.mod_eq_of_lt v.toNat_lt
    have hbyte : c.endian.write 1 v.toNat = [v] := by
      cases c.endian <;> simp [Endian.write, Endian.lowBytes]
    rw [writeUInt_eq_ok, hv, writeWord, hbyte]
    exact ⟨by decide, rfl⟩
  uint16 v := by
    have hv : v.toUInt32.toNat % 256 ^ 2 = v.toNat := by
      rw [UInt16.toNat_toUInt32]
      exact Nat.mod_eq_of_lt v.toNat_lt
    rw [writeUInt_eq_ok, hv]
    exact ⟨by decide, rfl⟩
  uint32 v := by
    have hv : v.toNat % 256 ^ 4 = v.toNat := Nat.mod_eq_of_lt v.toNat_lt
    rw [writeUInt_eq_ok, hv]
    exact ⟨by decide, rfl⟩
  int8 v := by
    rw [← Int8.toInt_toBitVec, pattern_toInt (by decide)]
    exact congrArg c.writeUInt8 (UInt8.ofNat_toNat).symm
  int16 v := by
    rw [← Int16.toInt_toBitVec, pattern_toInt (by decide)]
    exact congrArg c.writeUInt16 (UInt16.ofNat_toNat).symm
  int32 v := by
    rw [← Int32.toInt_toBitVec, pattern_toInt (by decide)]
    exact congrArg c.writeUInt32 (UInt32.ofNat_toNat).symm
  int v width := by
    rw [← Int32.toInt_toBitVec, pattern_toInt (by decide)]
    exact congrArg (c.writeUInt · width) (UInt32.ofNat_toNat).symm

/-! ## Reading -/

theorem Read.map_map (r : Read α) (f : α → β) (g : β → γ) : (r.map f).map g = r.map (g ∘ f) := by
  obtain ⟨found, after⟩ := r
  cases found <;> rfl

/-- What is made of so many bytes, if these can be a number. -/
def readFixed (c : Cursor) (width : Nat) (f : Bytes → α) : Read α :=
  match checkWidth width with
  | .error fault => (.error fault, c)
  | .ok () => (c.readBytes width).map f

theorem readUInt_eq (c : Cursor) (width : Nat) :
    c.readUInt width = c.readFixed width fun bytes => .ofNat (c.endian.read bytes) := rfl

theorem readInt_eq (c : Cursor) (width : Nat) :
    c.readInt width = c.readFixed width fun bytes =>
      .ofInt (Int.bmod (c.endian.read bytes) (Endian.span width)) := rfl

theorem readUInt8_eq (c : Cursor) : c.readUInt8 = c.readFixed 1 (·.headD 0) := rfl

theorem map_readFixed (f : Bytes → α) (g : α → β) :
    (c.readFixed width f).map g = c.readFixed width (g ∘ f) := by
  unfold readFixed
  split
  · rfl
  · exact Read.map_map ..

/-- The bytes that are read are as many as were asked for, and no more than four. -/
theorem readFixed_congr {f g : Bytes → α}
    (h : width ≤ 4 → ∀ bytes : Bytes, bytes.length = width → f bytes = g bytes) :
    c.readFixed width f = c.readFixed width g := by
  unfold readFixed
  by_cases hwidth : 1 ≤ width ∧ width ≤ 4
  · rw [checkWidth, if_pos hwidth]
    dsimp only
    unfold readBytes
    split
    · have hlength : ((c.bytes.drop c.pos).take width).length = width := by
        rw [List.length_take, List.length_drop]
        omega
      rw [Read.map, Read.map]
      exact congrArg (fun found => (Except.ok found, _)) (h hwidth.2 _ hlength)
    · rfl
  · rw [checkWidth, if_neg hwidth]

section Numbers

variable {bytes : Bytes} (e : Endian) (hlength : bytes.length = width)

include hlength

theorem read_lt_pow : e.read bytes < 256 ^ width := by
  rw [← hlength, ← Endian.span_eq_pow]
  exact e.read_lt bytes

/-- The number of some bytes fits a word of as many bits. -/
theorem toNat_read (h : width ≤ 4) : (UInt32.ofNat (e.read bytes)).toNat = e.read bytes := by
  apply UInt32.toNat_ofNat_of_lt'
  exact (read_lt_pow e hlength).trans_le (Nat.pow_le_pow_right (by decide) h)

omit hlength in
/-- The signed number of some bytes fits it too. -/
theorem toInt_read (h : width ≤ 4) :
    (Int32.ofInt (Int.bmod (e.read bytes) (Endian.span width))).toInt =
      Int.bmod (e.read bytes) (256 ^ width) := by
  have hpos : 0 < 256 ^ width := Nat.pow_pos (by decide)
  have hspan : 256 ^ width ≤ 256 ^ 4 := Nat.pow_le_pow_right (by decide) h
  have hlow := Int.le_bmod (x := e.read bytes) hpos
  have hhigh := Int.bmod_lt (x := e.read bytes) hpos
  rw [Endian.span_eq_pow]
  exact Int32.toInt_ofInt_of_le (by omega) (by omega)

theorem signed_read (h : width ≤ 4) :
    (Int32.ofInt (Int.bmod (e.read bytes) (Endian.span width))).toInt =
      (Word.signExtend (UInt32.ofNat (e.read bytes)).toUInt64 (.ofNat width)).toInt := by
  have hcount : (UInt32.ofNat width).toNat = width :=
    UInt32.toNat_ofNat_of_lt' (h.trans_lt (by decide))
  rw [toInt_read e h, Word.toInt_signExtend, hcount, Nat.mod_eq_of_lt (by omega),
    Word.denoted_eq_bmod _ (by omega), UInt32.toNat_toUInt64, toNat_read e hlength h]

end Numbers

/-- The step that reads a signed number extends the sign of the other one, and the steps that
read a type of numbers are cases of these two. -/
structure ReadersAgree (c : Cursor) : Prop where
  int : ∀ width, (c.readInt width).map Int32.toInt =
    (c.readUInt width).map fun n => (Word.signExtend n.toUInt64 (.ofNat width)).toInt
  uint8 : c.readUInt8.map UInt8.toNat = (c.readUInt 1).map UInt32.toNat
  uint16 : c.readUInt16.map UInt16.toNat = (c.readUInt 2).map UInt32.toNat
  uint32 : c.readUInt32 = c.readUInt 4
  int8 : c.readInt8.map Int8.toInt = (c.readInt 1).map Int32.toInt
  int16 : c.readInt16.map Int16.toInt = (c.readInt 2).map Int32.toInt
  int32 : c.readInt32 = c.readInt 4

theorem readersAgree (c : Cursor) : c.ReadersAgree where
  int width := by
    rw [readInt_eq, readUInt_eq, map_readFixed, map_readFixed]
    exact readFixed_congr fun h bytes hlength => signed_read c.endian hlength h
  uint8 := by
    rw [readUInt8_eq, readUInt_eq, map_readFixed, map_readFixed]
    refine readFixed_congr fun h bytes hlength => ?_
    obtain ⟨b, rfl⟩ := List.length_eq_one_iff.1 hlength
    rw [Function.comp_apply, Function.comp_apply, toNat_read c.endian hlength h]
    cases c.endian <;> rfl
  uint16 := by
    rw [readUInt16, readUInt_eq, Read.map_map, map_readFixed, map_readFixed]
    refine readFixed_congr fun h bytes hlength => ?_
    rw [Function.comp_apply, Function.comp_apply, Function.comp_apply, UInt32.toNat_toUInt16,
      toNat_read c.endian hlength h]
    exact Nat.mod_eq_of_lt (read_lt_pow c.endian hlength)
  uint32 := rfl
  int8 := by
    rw [readInt8, readInt_eq, Read.map_map, map_readFixed, map_readFixed]
    refine readFixed_congr fun h bytes _ => ?_
    rw [Function.comp_apply, Function.comp_apply, Function.comp_apply, Int32.toInt_toInt8,
      toInt_read c.endian h]
    exact Int.bmod_bmod
  int16 := by
    rw [readInt16, readInt_eq, Read.map_map, map_readFixed, map_readFixed]
    refine readFixed_congr fun h bytes _ => ?_
    rw [Function.comp_apply, Function.comp_apply, Function.comp_apply, Int32.toInt_toInt16,
      toInt_read c.endian h]
    exact Int.bmod_bmod
  int32 := rfl

/-! ## Byte order -/

/-- The cursor with so many of the next bytes in the other order. -/
def turned (c : Cursor) (width : Nat) : Cursor :=
  { c with
    bytes := c.bytes.take c.pos ++ (((c.bytes.drop c.pos).take width).reverse
      ++ c.bytes.drop (c.pos + width)) }

theorem length_turned (c : Cursor) (width : Nat) :
    (c.turned width).bytes.length = c.bytes.length := by
  simp [turned]
  omega

theorem turned_ahead (h : c.pos + width ≤ c.bytes.length) :
    ((c.turned width).bytes.drop c.pos).take width = ((c.bytes.drop c.pos).take width).reverse := by
  have hbefore : (c.bytes.take c.pos).length = c.pos := List.length_take_of_le (by omega)
  have hahead : ((c.bytes.drop c.pos).take width).reverse.length = width := by
    simp
    omega
  rw [turned, List.drop_left' hbefore, List.take_left' hahead]

/-- Two reads find the same and end at the same place. -/
def Read.Alike (r r' : Read α) : Prop := r.1 = r'.1 ∧ r.2.pos = r'.2.pos

theorem readFixed_turned (c : Cursor) (width : Nat) (f : Bytes → α) :
    ({ c with endian := .big }.readFixed width (f ∘ List.reverse)).Alike
      ({ c.turned width with endian := .little }.readFixed width f) := by
  have hlength := length_turned c width
  unfold readFixed
  split
  · exact ⟨rfl, rfl⟩
  · unfold readBytes short
    dsimp only
    rw [hlength]
    by_cases hfits : c.pos + width ≤ c.bytes.length
    · rw [if_pos hfits, if_pos (show (c.turned width).pos + width ≤ c.bytes.length from hfits)]
      refine ⟨?_, rfl⟩
      exact congrArg (fun bytes => Except.ok (f bytes)) (turned_ahead hfits).symm
    · rw [if_neg hfits, if_neg (show ¬(c.turned width).pos + width ≤ c.bytes.length from hfits)]
      exact ⟨rfl, rfl⟩

/-- A number with its highest byte first is read like the one whose bytes stand the other way
round and have the lowest first. -/
structure OrdersAgree (c : Cursor) : Prop where
  uint : ∀ width, ({ c with endian := .big }.readUInt width).Alike
    ({ c.turned width with endian := .little }.readUInt width)
  int : ∀ width, ({ c with endian := .big }.readInt width).Alike
    ({ c.turned width with endian := .little }.readInt width)

theorem ordersAgree (c : Cursor) : c.OrdersAgree where
  uint width := readFixed_turned c width fun bytes => UInt32.ofNat (Endian.lowValue bytes)
  int width := readFixed_turned c width fun bytes =>
    Int32.ofInt (Int.bmod (Endian.lowValue bytes) (Endian.span width))

/-! ## The law -/

/-- Wherever a cursor stands, the steps for a type of numbers do what the steps do that are told
its width, signed numbers are written as their patterns in two's complement and read by
extending the sign, and the two byte orders read the same bytes in opposite directions. -/
theorem fixed_width_steps_agree (c : Cursor) : c.WritersAgree ∧ c.ReadersAgree ∧ c.OrdersAgree :=
  ⟨writersAgree c, readersAgree c, ordersAgree c⟩

end Cursor

end BytecodeDump
