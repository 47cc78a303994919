-- The laws of packed words. Halves and instruction words lose nothing but the bits
-- that the opcode does not declare, and packed upvalues lose nothing at all.
import BytecodeDump.Bytes.Word
import BytecodeDump.Instruction
import BytecodeDump.Upvalue
import Mathlib

namespace BytecodeDump

/-! ## Halves -/

namespace Word

theorem toNat_join (low high : UInt32) :
    (join low high).toNat = 0x100000000 * high.toNat + low.toNat := by
  have hor := Nat.two_pow_add_eq_or_of_lt (i := 32) low.toNat_lt high.toNat
  have hshift : (high.toUInt64 <<< 32).toNat = 2 ^ 32 * high.toNat := by
    have := high.toNat_lt
    have hwidth : (32 : UInt64).toNat % 64 = 32 := by decide
    rw [UInt64.toNat_shiftLeft, UInt32.toNat_toUInt64, Nat.shiftLeft_eq, hwidth]
    omega
  rw [join, UInt64.toNat_or, hshift, UInt32.toNat_toUInt64, Nat.or_comm, ← hor]

theorem toNat_halves (value : UInt64) :
    (halves value).1.toNat = value.toNat % 0x100000000 ∧
      (halves value).2.toNat = value.toNat / 0x100000000 := by
  have := value.toNat_lt
  simp [halves, Nat.shiftRight_eq_div_pow]
  omega

@[simp] theorem halves_join (low high : UInt32) : halves (join low high) = (low, high) := by
  have := low.toNat_lt
  obtain ⟨h1, h2⟩ := toNat_halves (join low high)
  rw [toNat_join] at h1 h2
  have hlow : (halves (join low high)).1 = low := by
    apply UInt32.toNat_inj.1
    omega
  have hhigh : (halves (join low high)).2 = high := by
    apply UInt32.toNat_inj.1
    omega
  exact Prod.ext hlow hhigh

@[simp] theorem join_halves (value : UInt64) :
    join (halves value).1 (halves value).2 = value := by
  obtain ⟨h1, h2⟩ := toNat_halves value
  apply UInt64.toNat_inj.1
  rw [toNat_join]
  omega

end Word

/-! ## The declared bits of an instruction word -/

namespace OperandSlots

/-- The bits of the opcode byte and of the declared fields. -/
def mask (s : OperandSlots) : UInt32 :=
  0xFF ||| (if s.a then 0xFF00 else 0) ||| (if s.b then 0xFF000000 else 0)
    ||| (if s.c then 0xFF0000 else 0) ||| (if s.d then 0xFFFF0000 else 0)

theorem bit_mask (s : OperandSlots) {n : Nat} (hn : n < 32) :
    s.mask.toBitVec.getLsbD n =
      (decide (n < 8) || s.a && decide (8 ≤ n ∧ n < 16) || s.b && decide (24 ≤ n)
        || s.c && decide (16 ≤ n ∧ n < 24) || s.d && decide (16 ≤ n)) := by
  have hall : ∀ a b c d : Bool, ∀ n : Fin 32,
      (mask ⟨a, b, c, d⟩).toBitVec.getLsbD n.val =
        (decide (n.val < 8) || a && decide (8 ≤ n.val ∧ n.val < 16) || b && decide (24 ≤ n.val)
          || c && decide (16 ≤ n.val ∧ n.val < 24) || d && decide (16 ≤ n.val)) := by
    decide
  exact hall s.a s.b s.c s.d ⟨n, hn⟩

end OperandSlots

namespace OpcodeTable

/-- The word without the bits that the table does not declare for its opcode. -/
def declared (table : OpcodeTable) (word : UInt32) : UInt32 :=
  word &&& (table.slots word.toUInt8).mask

/-- No opcode declares D together with one of its halves. -/
def Disjoint (table : OpcodeTable) : Prop :=
  ∀ opcode, (table.slots opcode).d = true →
    (table.slots opcode).b = false ∧ (table.slots opcode).c = false

end OpcodeTable

/-! ## Instruction words -/

theorem bit_part (present : Bool) (v : UInt32) (n : Nat) :
    (if present then v else 0).toBitVec.getLsbD n = (present && v.toBitVec.getLsbD n) := by
  cases present <;> simp

theorem eq_of_bits {v w : UInt32}
    (h : ∀ n < 32, v.toBitVec.getLsbD n = w.toBitVec.getLsbD n) : v = w :=
  UInt32.eq_of_toBitVec_eq (BitVec.eq_of_getLsbD_eq h)

theorem byte_eq_of_bits {v w : UInt8}
    (h : ∀ n < 8, v.toBitVec.getLsbD n = w.toBitVec.getLsbD n) : v = w :=
  UInt8.eq_of_toBitVec_eq (BitVec.eq_of_getLsbD_eq h)

theorem half_eq_of_bits {v w : UInt16}
    (h : ∀ n < 16, v.toBitVec.getLsbD n = w.toBitVec.getLsbD n) : v = w :=
  UInt16.eq_of_toBitVec_eq (BitVec.eq_of_getLsbD_eq h)

namespace Instruction

/-- Every field that the opcode does not declare is zero. -/
structure Clean (i : Instruction) : Prop where
  a : i.slots.a = false → i.a = 0
  b : i.slots.b = false → i.b = 0
  c : i.slots.c = false → i.c = 0
  d : i.slots.d = false → i.d = 0

instance (i : Instruction) : Decidable i.Clean :=
  decidable_of_iff ((i.slots.a = false → i.a = 0) ∧ (i.slots.b = false → i.b = 0) ∧
      (i.slots.c = false → i.c = 0) ∧ (i.slots.d = false → i.d = 0))
    ⟨fun ⟨a, b, c, d⟩ => ⟨a, b, c, d⟩, fun ⟨a, b, c, d⟩ => ⟨a, b, c, d⟩⟩

theorem bit_toWord (i : Instruction) {n : Nat} (hn : n < 32) :
    i.toWord.toBitVec.getLsbD n =
      (i.opcode.toBitVec.getLsbD n
        || i.slots.a && (decide (8 ≤ n) && i.a.toBitVec.getLsbD (n - 8))
        || i.slots.b && (decide (24 ≤ n) && i.b.toBitVec.getLsbD (n - 24))
        || i.slots.c && (decide (16 ≤ n) && i.c.toBitVec.getLsbD (n - 16))
        || i.slots.d && (decide (16 ≤ n) && i.d.toBitVec.getLsbD (n - 16))) := by
  have hnot : ∀ k, decide (k ≤ n) = !decide (n < k) := by
    intro k
    rw [← decide_not, decide_eq_decide]
    omega
  simp only [toWord, UInt32.toBitVec_or, BitVec.getLsbD_or, bit_part, hnot]
  simp [hn]

/-- The bits of the fields that a word is split into. -/
theorem bits_ofWord (table : OpcodeTable) (word : UInt32) (n : Nat) :
    (ofWord table word).opcode.toBitVec.getLsbD n = (decide (n < 8) && word.toBitVec.getLsbD n) ∧
    (ofWord table word).a.toBitVec.getLsbD n =
      ((table.slots word.toUInt8).a && (decide (n < 8) && word.toBitVec.getLsbD (8 + n))) ∧
    (ofWord table word).b.toBitVec.getLsbD n =
      ((table.slots word.toUInt8).b && (decide (n < 8) && word.toBitVec.getLsbD (24 + n))) ∧
    (ofWord table word).c.toBitVec.getLsbD n =
      ((table.slots word.toUInt8).c && (decide (n < 8) && word.toBitVec.getLsbD (16 + n))) ∧
    (ofWord table word).d.toBitVec.getLsbD n =
      ((table.slots word.toUInt8).d && (decide (n < 16) && word.toBitVec.getLsbD (16 + n))) := by
  simp only [ofWord]
  refine ⟨?_, ?_, ?_, ?_, ?_⟩
  · simp
  · cases (table.slots word.toUInt8).a <;> simp
  · cases (table.slots word.toUInt8).b <;> simp
  · cases (table.slots word.toUInt8).c <;> simp
  · cases (table.slots word.toUInt8).d <;> simp

/-- A word comes back without the bits that its opcode does not declare, also where
declared fields overlap. -/
theorem toWord_ofWord (table : OpcodeTable) (word : UInt32) :
    (ofWord table word).toWord = table.declared word := by
  apply eq_of_bits
  intro n hn
  have hslots : (ofWord table word).slots = table.slots word.toUInt8 := rfl
  rw [bit_toWord _ hn, OpcodeTable.declared, UInt32.toBitVec_and, BitVec.getLsbD_and,
    OperandSlots.bit_mask _ hn, hslots]
  obtain ⟨hop, -, -, -, -⟩ := bits_ofWord table word n
  obtain ⟨-, ha, -, -, -⟩ := bits_ofWord table word (n - 8)
  obtain ⟨-, -, hb, -, -⟩ := bits_ofWord table word (n - 24)
  obtain ⟨-, -, -, hc, hd⟩ := bits_ofWord table word (n - 16)
  rw [hop, ha, hb, hc, hd]
  generalize table.slots word.toUInt8 = s
  have hquarter : n < 8 ∨ (8 ≤ n ∧ n < 16) ∨ (16 ≤ n ∧ n < 24) ∨ 24 ≤ n := by omega
  rcases hquarter with h | ⟨h, h'⟩ | ⟨h, h'⟩ | h
  · have h₁ : ¬8 ≤ n := by omega
    have h₂ : ¬16 ≤ n := by omega
    have h₃ : ¬24 ≤ n := by omega
    simp [h, h₁, h₂, h₃]
  · have h₁ : ¬n < 8 := by omega
    have h₂ : ¬16 ≤ n := by omega
    have h₃ : ¬24 ≤ n := by omega
    have h₄ : n - 8 < 8 := by omega
    have h₅ : 8 + (n - 8) = n := by omega
    simp [h, h', h₁, h₂, h₃, h₄, h₅]
    exact Bool.and_comm _ _
  · have h₁ : ¬n < 8 := by omega
    have h₂ : ¬n < 16 := by omega
    have h₃ : 8 ≤ n := by omega
    have h₄ : ¬24 ≤ n := by omega
    have h₅ : ¬n - 8 < 8 := by omega
    have h₆ : n - 16 < 8 := by omega
    have h₇ : n - 16 < 16 := by omega
    have h₈ : 16 + (n - 16) = n := by omega
    simp [h, h', h₁, h₂, h₃, h₄, h₅, h₆, h₇, h₈]
    cases s.c <;> cases s.d <;> simp
  · have h₁ : ¬n < 8 := by omega
    have h₂ : ¬n < 16 := by omega
    have h₃ : ¬n < 24 := by omega
    have h₄ : 8 ≤ n := by omega
    have h₅ : 16 ≤ n := by omega
    have h₆ : ¬n - 8 < 8 := by omega
    have h₇ : n - 24 < 8 := by omega
    have h₈ : ¬n - 16 < 8 := by omega
    have h₉ : n - 16 < 16 := by omega
    have h₁₀ : 24 + (n - 24) = n := by omega
    have h₁₁ : 16 + (n - 16) = n := by omega
    simp [h, h₁, h₂, h₃, h₄, h₅, h₆, h₇, h₈, h₉, h₁₀, h₁₁]
    cases s.b <;> cases s.d <;> simp

/-! ### From the declared bits -/

section Declared

variable (table : OpcodeTable) (word : UInt32)

theorem bit_declared {n : Nat} (hn : n < 32) :
    (table.declared word).toBitVec.getLsbD n =
      (word.toBitVec.getLsbD n && (decide (n < 8)
        || (table.slots word.toUInt8).a && decide (8 ≤ n ∧ n < 16)
        || (table.slots word.toUInt8).b && decide (24 ≤ n)
        || (table.slots word.toUInt8).c && decide (16 ≤ n ∧ n < 24)
        || (table.slots word.toUInt8).d && decide (16 ≤ n))) := by
  rw [OpcodeTable.declared, UInt32.toBitVec_and, BitVec.getLsbD_and, OperandSlots.bit_mask _ hn]

theorem declared_opcode : (table.declared word).toUInt8 = word.toUInt8 := by
  apply byte_eq_of_bits
  intro n hn
  have := bit_declared table word (n := n) (by omega)
  simpa [hn] using this

theorem declared_a (h : (table.slots word.toUInt8).a = true) :
    (table.declared word >>> 8).toUInt8 = (word >>> 8).toUInt8 := by
  apply byte_eq_of_bits
  intro n hn
  have := bit_declared table word (n := 8 + n) (by omega)
  have h₁ : 8 + n < 16 := by omega
  simpa [hn, h, h₁] using this

theorem declared_b (h : (table.slots word.toUInt8).b = true) :
    (table.declared word >>> 24).toUInt8 = (word >>> 24).toUInt8 := by
  apply byte_eq_of_bits
  intro n hn
  have := bit_declared table word (n := 24 + n) (by omega)
  simpa [hn, h] using this

theorem declared_c (h : (table.slots word.toUInt8).c = true) :
    (table.declared word >>> 16).toUInt8 = (word >>> 16).toUInt8 := by
  apply byte_eq_of_bits
  intro n hn
  have := bit_declared table word (n := 16 + n) (by omega)
  have h₁ : 16 + n < 24 := by omega
  simpa [hn, h, h₁] using this

theorem declared_d (h : (table.slots word.toUInt8).d = true) :
    (table.declared word >>> 16).toUInt16 = (word >>> 16).toUInt16 := by
  apply half_eq_of_bits
  intro n hn
  have := bit_declared table word (n := 16 + n) (by omega)
  simpa [hn, h] using this

/-- The instruction of a word depends on the declared bits alone. -/
theorem ofWord_declared : ofWord table (table.declared word) = ofWord table word := by
  rw [ofWord, ofWord, declared_opcode]
  simp only [Instruction.mk.injEq, true_and]
  refine ⟨?_, ?_, ?_, ?_⟩
  · split
    · exact declared_a table word ‹_›
    · rfl
  · split
    · exact declared_b table word ‹_›
    · rfl
  · split
    · exact declared_c table word ‹_›
    · rfl
  · split
    · exact declared_d table word ‹_›
    · rfl

end Declared

/-! ### From the fields -/

section Fields

variable (i : Instruction)

theorem toWord_opcode : i.toWord.toUInt8 = i.opcode := by
  apply byte_eq_of_bits
  intro n hn
  have := bit_toWord i (n := n) (by omega)
  have h₁ : ¬8 ≤ n := by omega
  have h₂ : ¬16 ≤ n := by omega
  have h₃ : ¬24 ≤ n := by omega
  simpa [hn, h₁, h₂, h₃] using this

theorem toWord_a (h : i.slots.a = true) : (i.toWord >>> 8).toUInt8 = i.a := by
  apply byte_eq_of_bits
  intro n hn
  have := bit_toWord i (n := 8 + n) (by omega)
  have h₁ : ¬16 ≤ 8 + n := by omega
  have h₂ : ¬24 ≤ 8 + n := by omega
  simpa [hn, h, h₁, h₂] using this

theorem toWord_b (h : i.slots.b = true) (hd : i.slots.d = false) :
    (i.toWord >>> 24).toUInt8 = i.b := by
  apply byte_eq_of_bits
  intro n hn
  have := bit_toWord i (n := 24 + n) (by omega)
  rw [BitVec.getLsbD_of_ge i.opcode.toBitVec (24 + n) (by omega),
    BitVec.getLsbD_of_ge i.a.toBitVec (24 + n - 8) (by omega),
    BitVec.getLsbD_of_ge i.c.toBitVec (24 + n - 16) (by omega)] at this
  simpa [hn, h, hd] using this

theorem toWord_c (h : i.slots.c = true) (hd : i.slots.d = false) :
    (i.toWord >>> 16).toUInt8 = i.c := by
  apply byte_eq_of_bits
  intro n hn
  have := bit_toWord i (n := 16 + n) (by omega)
  rw [BitVec.getLsbD_of_ge i.opcode.toBitVec (16 + n) (by omega),
    BitVec.getLsbD_of_ge i.a.toBitVec (16 + n - 8) (by omega)] at this
  have h₁ : ¬24 ≤ 16 + n := by omega
  simpa [hn, h, hd, h₁] using this

theorem toWord_d (h : i.slots.d = true) (hb : i.slots.b = false) (hc : i.slots.c = false) :
    (i.toWord >>> 16).toUInt16 = i.d := by
  apply half_eq_of_bits
  intro n hn
  have := bit_toWord i (n := 16 + n) (by omega)
  rw [BitVec.getLsbD_of_ge i.opcode.toBitVec (16 + n) (by omega),
    BitVec.getLsbD_of_ge i.a.toBitVec (16 + n - 8) (by omega)] at this
  simpa [hn, h, hb, hc] using this

end Fields

/-- A clean instruction with the operands of its table comes back from its word, where
it does not declare D together with B or C. -/
theorem ofWord_toWord_of_alone {table : OpcodeTable} {i : Instruction}
    (hslots : i.slots = table.slots i.opcode) (hclean : i.Clean)
    (hd : i.slots.d = true → i.slots.b = false ∧ i.slots.c = false) :
    ofWord table i.toWord = i := by
  have halone : ∀ half : Bool, (i.slots.d = true → half = false) → half = true →
      i.slots.d = false := by
    intro half hhalf htrue
    by_contra hdt
    rw [hhalf (by simpa using hdt)] at htrue
    cases htrue
  rw [ofWord, toWord_opcode, ← hslots]
  change _ = Instruction.mk i.opcode i.slots i.a i.b i.c i.d
  simp only [Instruction.mk.injEq, true_and]
  refine ⟨?_, ?_, ?_, ?_⟩
  · split
    · exact toWord_a i ‹_›
    · rename_i h
      exact (hclean.a (by simpa using h)).symm
  · split
    · exact toWord_b i ‹_› (halone _ (fun h => (hd h).1) ‹_›)
    · rename_i h
      exact (hclean.b (by simpa using h)).symm
  · split
    · exact toWord_c i ‹_› (halone _ (fun h => (hd h).2) ‹_›)
    · rename_i h
      exact (hclean.c (by simpa using h)).symm
  · split
    · rename_i h
      exact toWord_d i h (hd h).1 (hd h).2
    · rename_i h
      exact (hclean.d (by simpa using h)).symm

/-- A clean instruction with the operands of its table comes back from its word, where
D shares no bits with a declared field. -/
theorem ofWord_toWord {table : OpcodeTable} (hT : table.Disjoint) {i : Instruction}
    (hslots : i.slots = table.slots i.opcode) (hclean : i.Clean) :
    ofWord table i.toWord = i := by
  apply ofWord_toWord_of_alone hslots hclean
  rw [hslots]
  exact hT i.opcode

end Instruction

/-! ## Upvalues -/

namespace Upvalue

theorem and_maxIndex {v : UInt16} (h : v ≤ maxIndex) : v &&& maxIndex = v := by
  have hv : v.toNat ≤ 0x3FFF := UInt16.le_iff_toNat_le.1 h
  have hmask : maxIndex.toNat = 2 ^ 14 - 1 := by decide
  apply UInt16.toNat_inj.1
  rw [UInt16.toNat_and, hmask, Nat.and_two_pow_sub_one_eq_mod]
  omega

theorem or_and_distrib (u v w : UInt16) : (u ||| v) &&& w = u &&& w ||| v &&& w := by
  apply half_eq_of_bits
  intro n _
  simp only [UInt16.toBitVec_and, UInt16.toBitVec_or, BitVec.getLsbD_and, BitVec.getLsbD_or,
    Bool.and_or_distrib_right]

theorem and_le_maxIndex (v : UInt16) : v &&& maxIndex ≤ maxIndex := by
  rw [UInt16.le_iff_toNat_le, UInt16.toNat_and]
  exact Nat.and_le_right

/-- One bit of a word is all of it or nothing. -/
theorem one_bit {bit : UInt16} {k : Nat}
    (hbit : ∀ n < 16, bit.toBitVec.getLsbD n = decide (n = k)) (v : UInt16) :
    (if v &&& bit != 0 then bit else 0) = v &&& bit := by
  have hand : ∀ n < 16, (v &&& bit).toBitVec.getLsbD n =
      (v.toBitVec.getLsbD k && decide (n = k)) := by
    intro n hn
    rw [UInt16.toBitVec_and, BitVec.getLsbD_and, hbit n hn]
    by_cases h : n = k
    · rw [h]
    · simp [h]
  cases hv : v.toBitVec.getLsbD k with
  | false =>
    have hzero : v &&& bit = 0 := by
      apply half_eq_of_bits
      intro n hn
      rw [hand n hn, hv]
      simp
    rw [hzero]
    rfl
  | true =>
    have hall : v &&& bit = bit := by
      apply half_eq_of_bits
      intro n hn
      rw [hand n hn, hv, hbit n hn, Bool.true_and]
    rw [hall]
    split
    · rfl
    · rename_i hzero
      simpa using (show bit = 0 by simpa using hzero).symm

theorem readonlyBit_eq (v : UInt16) :
    (if v &&& readonlyBit != 0 then readonlyBit else 0) = v &&& readonlyBit :=
  one_bit (k := 14) (by decide) v

theorem localBit_eq (v : UInt16) :
    (if v &&& localBit != 0 then localBit else 0) = v &&& localBit :=
  one_bit (k := 15) (by decide) v

theorem pack_unpack (raw : UInt16) : (unpack raw).pack = raw := by
  have hall : maxIndex ||| readonlyBit ||| localBit = 0xFFFF := by decide
  rw [pack, unpack]
  simp only
  rw [readonlyBit_eq, localBit_eq, and_maxIndex (and_le_maxIndex raw), UInt16.and_comm raw,
    UInt16.and_comm raw, UInt16.and_comm raw, ← or_and_distrib, ← or_and_distrib, hall]
  exact UInt16.neg_one_and

theorem unpack_pack {u : Upvalue} (h : u.index ≤ maxIndex) : unpack u.pack = u := by
  obtain ⟨index, readonly, isLocal⟩ := u
  simp only at h
  rw [pack, unpack, and_maxIndex h]
  simp only [Upvalue.mk.injEq]
  have hbit : ∀ bit, maxIndex &&& bit = 0 → index &&& bit = 0 := by
    intro bit hb
    rw [← and_maxIndex h, UInt16.and_assoc, hb, UInt16.and_zero]
  have hr := hbit readonlyBit (by decide)
  have hl := hbit localBit (by decide)
  have apart : readonlyBit &&& maxIndex = 0 ∧ localBit &&& maxIndex = 0 ∧
      readonlyBit &&& localBit = 0 ∧ localBit &&& readonlyBit = 0 ∧
      readonlyBit ≠ 0 ∧ localBit ≠ 0 := by decide
  obtain ⟨h1, h2, h3, h4, h5, h6⟩ := apart
  simp only [or_and_distrib, and_maxIndex h, hr, hl]
  cases readonly <;> cases isLocal <;> simp [h1, h2, h3, h4, h5, h6]

theorem index_unpack_le (raw : UInt16) : (unpack raw).index ≤ maxIndex := and_le_maxIndex raw

end Upvalue

end BytecodeDump
