-- The steps of a cursor where it is known what lies ahead. A read takes the bytes of what was
-- written off the front of it, and at the end of the buffer a write only adds bytes.
import BytecodeDump.Cursor
import BytecodeDump.Proofs.Leb128

namespace BytecodeDump

theorem Endian.span_eq_pow (width : Nat) : span width = 256 ^ width := by
  induction width with
  | zero => rfl
  | succ width ih => rw [span, ih, pow_succ']

namespace Cursor

/-- These bytes lie between the place and the end. -/
def Ahead (c : Cursor) (bytes : Bytes) : Prop :=
  ∃ before, c.bytes = before ++ bytes ∧ c.pos = before.length

/-- The cursor just past some bytes. -/
def past (c : Cursor) (bytes : Bytes) : Cursor := { c with pos := c.pos + bytes.length }

variable {c : Cursor} {bytes rest : Bytes}

theorem Ahead.drop_eq (h : c.Ahead bytes) : c.bytes.drop c.pos = bytes := by
  obtain ⟨before, hbytes, hpos⟩ := h
  rw [hbytes, hpos, List.drop_left]

theorem Ahead.length_eq (h : c.Ahead bytes) : c.pos + bytes.length = c.bytes.length := by
  obtain ⟨before, hbytes, hpos⟩ := h
  rw [hbytes, hpos, List.length_append]

theorem Ahead.past (h : c.Ahead (bytes ++ rest)) : (c.past bytes).Ahead rest := by
  obtain ⟨before, hbytes, hpos⟩ := h
  refine ⟨before ++ bytes, ?_, ?_⟩
  · rw [List.append_assoc]
    exact hbytes
  · rw [List.length_append, ← hpos]
    rfl

theorem ahead_ofBytes (bytes : Bytes) : (ofBytes bytes).Ahead bytes := ⟨[], rfl, rfl⟩

/-! ## Reads -/

theorem Read.map_of_ok {α β : Type} {r : Read α} {f : α → β} {a : α} {b : β} {c' : Cursor}
    (h : r = (.ok a, c')) (hf : f a = b) : r.map f = (.ok b, c') := by
  rw [h, ← hf]
  rfl

theorem readBytes_of_ahead (h : c.Ahead (bytes ++ rest)) :
    c.readBytes bytes.length = (.ok bytes, c.past bytes) := by
  have hfits : c.pos + bytes.length ≤ c.bytes.length := by
    rw [← h.length_eq, List.length_append]
    omega
  rw [readBytes, if_pos hfits, h.drop_eq, List.take_left]
  rfl

theorem readCString_of_ahead (hname : 0 ∉ bytes) (h : c.Ahead (bytes ++ 0 :: rest)) :
    c.readCString = (.ok bytes, c.past (bytes ++ [0])) := by
  have htake : (bytes ++ 0 :: rest).takeWhile (· ≠ 0) = bytes := by
    rw [List.takeWhile_append_of_pos]
    · simp
    · intro b hb
      exact decide_eq_true fun hzero => hname (hzero ▸ hb)
  have hlen : bytes.length < (bytes ++ 0 :: rest).length := by simp
  rw [readCString, h.drop_eq]
  simp only [htake, if_pos hlen]
  simp [past, Nat.add_assoc]

section FixedWidth

variable {width n : Nat}

theorem readWord_of_ahead (h : c.Ahead (c.endian.write width n ++ rest)) :
    c.readBytes width = (.ok (c.endian.write width n), c.past (c.endian.write width n)) := by
  simpa using readBytes_of_ahead h

theorem readUInt_of_ahead (hwidth : 1 ≤ width ∧ width ≤ 4)
    (h : c.Ahead (c.endian.write width n ++ rest)) :
    c.readUInt width =
      (.ok (.ofNat (n % 256 ^ width)), c.past (c.endian.write width n)) := by
  rw [readUInt, checkWidth, if_pos hwidth, ← Endian.span_eq_pow, ← Endian.read_write c.endian]
  exact Read.map_of_ok (readWord_of_ahead h) rfl

/-- A signed number is the one in the middle of the range that has these low bytes. -/
theorem readInt_of_ahead (hwidth : 1 ≤ width ∧ width ≤ 4)
    (h : c.Ahead (c.endian.write width n ++ rest)) :
    c.readInt width =
      (.ok (.ofInt (Int.bmod n (256 ^ width))), c.past (c.endian.write width n)) := by
  rw [readInt, checkWidth, if_pos hwidth, ← Endian.span_eq_pow, ← Int.emod_bmod,
    ← Int.natCast_emod, ← Endian.read_write c.endian]
  exact Read.map_of_ok (readWord_of_ahead h) rfl

theorem readUInt8_of_ahead {v : UInt8} (h : c.Ahead (v :: rest)) :
    c.readUInt8 = (.ok v, c.past [v]) :=
  Read.map_of_ok (readBytes_of_ahead (show c.Ahead ([v] ++ rest) from h)) rfl

theorem readUInt16_of_ahead {v : UInt16} (h : c.Ahead (c.endian.write 2 v.toNat ++ rest)) :
    c.readUInt16 = (.ok v, c.past (c.endian.write 2 v.toNat)) := by
  have hv : v.toNat % 256 ^ 2 = v.toNat := Nat.mod_eq_of_lt v.toNat_lt
  refine Read.map_of_ok (readUInt_of_ahead (by decide) h) ?_
  rw [hv]
  simp

theorem readUInt32_of_ahead {v : UInt32} (h : c.Ahead (c.endian.write 4 v.toNat ++ rest)) :
    c.readUInt32 = (.ok v, c.past (c.endian.write 4 v.toNat)) := by
  have hv : v.toNat % 256 ^ 4 = v.toNat := Nat.mod_eq_of_lt v.toNat_lt
  rw [readUInt32, readUInt_of_ahead (by decide) h, hv, UInt32.ofNat_toNat]

theorem readInt8_of_ahead {v : Int8} (h : c.Ahead (v.toUInt8 :: rest)) :
    c.readInt8 = (.ok v, c.past [v.toUInt8]) := by
  have hwritten : c.endian.write 1 v.toUInt8.toNat = [v.toUInt8] := by
    cases c.endian <;> simp [Endian.write, Endian.lowBytes]
  have hv : v.toInt = Int.bmod v.toUInt8.toNat (256 ^ 1) := BitVec.toInt_eq_toNat_bmod _
  have hahead : c.Ahead (c.endian.write 1 v.toUInt8.toNat ++ rest) := hwritten ▸ h
  rw [← hwritten]
  refine Read.map_of_ok (readInt_of_ahead (by decide) hahead) ?_
  rw [Int32.toInt8_ofInt, ← hv, Int8.ofInt_toInt]

theorem readInt16_of_ahead {v : Int16}
    (h : c.Ahead (c.endian.write 2 v.toUInt16.toNat ++ rest)) :
    c.readInt16 = (.ok v, c.past (c.endian.write 2 v.toUInt16.toNat)) := by
  have hv : v.toInt = Int.bmod v.toUInt16.toNat (256 ^ 2) := BitVec.toInt_eq_toNat_bmod _
  refine Read.map_of_ok (readInt_of_ahead (by decide) h) ?_
  rw [Int32.toInt16_ofInt, ← hv, Int16.ofInt_toInt]

theorem readInt32_of_ahead {v : Int32}
    (h : c.Ahead (c.endian.write 4 v.toUInt32.toNat ++ rest)) :
    c.readInt32 = (.ok v, c.past (c.endian.write 4 v.toUInt32.toNat)) := by
  have hv : v.toInt = Int.bmod v.toUInt32.toNat (256 ^ 4) := BitVec.toInt_eq_toNat_bmod _
  rw [readInt32, readInt_of_ahead (by decide) h, ← hv, Int32.ofInt_toInt]

end FixedWidth

theorem readLeb_of_ahead {n : Nat} (hn : n < 0x10000000000000000)
    (h : c.Ahead (Leb128.encode n ++ rest)) :
    c.readLeb = (.ok n, c.past (Leb128.encode n)) := by
  have hlen : (Leb128.encode n).length ≤ Leb128.maxLength :=
    Leb128.length_encode_le (lt_of_lt_of_le hn (by norm_num [Leb128.maxLength]))
  rw [readLeb, h.drop_eq, Leb128.scan_encode rest hlen]
  exact congrArg (fun value => (Except.ok value, c.past (Leb128.encode n))) (Nat.mod_eq_of_lt hn)

theorem readLeb32_of_ahead {v : UInt32} (h : c.Ahead (Leb128.encode v.toNat ++ rest)) :
    c.readLeb32 = (.ok v, c.past (Leb128.encode v.toNat)) := by
  have hv := v.toNat_lt
  rw [readLeb32, readLeb_of_ahead (by omega) h]
  simp [Except.bind, hv]

theorem readMarked_of_ahead {mark : Bool} {v : UInt32}
    (h : c.Ahead (Leb128.encode (2 * v.toNat + if mark then 1 else 0) ++ rest)) :
    c.readMarked =
      (.ok (mark, v), c.past (Leb128.encode (2 * v.toNat + if mark then 1 else 0))) := by
  have hv := v.toNat_lt
  have hbit : (if mark then 1 else 0) < 2 := by split <;> decide
  have hhalf : (2 * v.toNat + if mark then 1 else 0) / 2 = v.toNat := by omega
  have hmark : (decide ((2 * v.toNat + if mark then 1 else 0) % 2 = 1)) = mark := by
    rw [Nat.mul_add_mod]
    cases mark <;> rfl
  rw [readMarked, readLeb_of_ahead (by omega) h]
  simp only [Except.bind, hhalf, if_pos hv, hmark, UInt32.ofNat_toNat]

/-! ## Writes at the end -/

/-- The second cursor is the first one with these bytes added, is at its end, and has this
byte order. -/
structure Adds (c c' : Cursor) (bytes : Bytes) (endian : Endian) : Prop where
  bytes_eq : c'.bytes = c.bytes ++ bytes
  pos_eq : c'.pos = c'.bytes.length
  endian_eq : c'.endian = endian

theorem Adds.trans {c' c'' : Cursor} {others : Bytes} {endian endian' : Endian}
    (h : c.Adds c' bytes endian) (h' : c'.Adds c'' others endian') :
    c.Adds c'' (bytes ++ others) endian' where
  bytes_eq := by rw [h'.bytes_eq, h.bytes_eq, List.append_assoc]
  pos_eq := h'.pos_eq
  endian_eq := h'.endian_eq

theorem adds_writeBytes (h : c.pos = c.bytes.length) (bytes : Bytes) :
    c.Adds (c.writeBytes bytes) bytes c.endian := by
  have hbytes : (c.writeBytes bytes).bytes = c.bytes ++ bytes := by
    rw [writeBytes, h, List.take_length, List.drop_of_length_le (Nat.le_add_right _ _),
      List.append_nil]
  refine ⟨hbytes, ?_, rfl⟩
  rw [hbytes, List.length_append, ← h]
  rfl

theorem adds_writeWord (h : c.pos = c.bytes.length) (width n : Nat) :
    c.Adds (c.writeWord width n) (c.endian.write width n) c.endian := adds_writeBytes h _

theorem adds_writeCString (h : c.pos = c.bytes.length) (bytes : Bytes) :
    c.Adds (c.writeCString bytes) (bytes ++ [0]) c.endian :=
  (adds_writeBytes h bytes).trans (adds_writeBytes (adds_writeBytes h bytes).pos_eq [0])

theorem writeUInt_eq_ok {c' : Cursor} {value : UInt32} {width : Nat} :
    c.writeUInt value width = .ok c' ↔
      (1 ≤ width ∧ width ≤ 4) ∧ c' = c.writeWord width (value.toNat % 256 ^ width) := by
  rw [writeUInt, checkWidth, Endian.span_eq_pow]
  split <;> simp_all [Except.map, eq_comm]

/-- Byte after byte is the same as all of them at once. -/
theorem adds_writeLeb (h : c.pos = c.bytes.length) (n : Nat) :
    c.Adds (c.writeLeb n) (Leb128.encode n) c.endian := by
  have hfold : ∀ (bytes : Bytes) (c : Cursor), c.pos = c.bytes.length →
      c.Adds (bytes.foldl (fun c b => c.writeBytes [b]) c) bytes c.endian := by
    intro bytes
    induction bytes with
    | nil => exact fun c h => ⟨(List.append_nil _).symm, h, rfl⟩
    | cons b bytes ih =>
      intro c h
      have hfirst := adds_writeBytes h [b]
      exact hfirst.trans (ih _ hfirst.pos_eq)
  exact hfold (Leb128.encode n) c h

end Cursor

end BytecodeDump
