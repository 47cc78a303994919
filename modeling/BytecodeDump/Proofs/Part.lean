-- The parts of a dump as readers come to them, and what writing makes of them. A
-- survey is a reader that also notes its parts: the bytes that each took, which number
-- they spell, and where the word of an instruction stands. Writing the value that was
-- read gives the same parts, if every number was spelled as short as it can be, no key
-- stood twice, and no word had a bit that its opcode does not declare.
import BytecodeDump.Proofs.Constant

namespace BytecodeDump

/-- A part of a dump. -/
inductive Part where
  /-- Bytes that stand for themselves. -/
  | plain (bytes : Bytes)
  /-- A number in groups of seven bits. -/
  | number (bytes : Bytes) (value : Nat)
  /-- The word of an instruction. -/
  | word (e : Endian) (bytes : Bytes)
  /-- The keys of a dictionary, in the order in which they were listed. They have no
  bytes of their own; those of each key are parts before this one. -/
  | keys (listed : List TableValue)

namespace Part

def bytes : Part → Bytes
  | plain bytes | number bytes _ | word _ bytes => bytes
  | keys _ => []

/-- The bytes of some parts in a row. -/
def join (parts : List Part) : Bytes := parts.flatMap bytes

/-- The word that some bytes stand for. -/
def wordOf (e : Endian) (bytes : Bytes) : UInt32 := .ofNat (e.read bytes)

/-- A number has no shorter spelling. -/
def Minimal : Part → Prop
  | number bytes value => ∀ other, Leb128.Spells other value → bytes.length ≤ other.length
  | _ => True

/-- No key is listed twice. -/
def Distinct : Part → Prop
  | keys listed => listed.Nodup
  | _ => True

/-- A word has no bit outside the opcode and the operands of the opcode. -/
def Declared (table : OpcodeTable) : Part → Prop
  | word e bytes => table.declared (wordOf e bytes) = wordOf e bytes
  | _ => True

/-- The part with the bits zero that the opcode does not declare. -/
def clear (table : OpcodeTable) : Part → Part
  | word e bytes => word e (e.write 4 (table.declared (wordOf e bytes)).toNat)
  | part => part

/-- Nothing in the part is longer than it has to be. -/
def Tight (part : Part) : Prop := part.Minimal ∧ part.Distinct

/-- A word has four bytes. -/
def Whole : Part → Prop
  | word _ bytes => bytes.length = 4
  | _ => True

theorem join_append (parts others : List Part) :
    join (parts ++ others) = join parts ++ join others :=
  List.flatMap_append

theorem length_clear {table : OpcodeTable} {part : Part} (h : part.Whole) :
    (part.clear table).bytes.length = part.bytes.length := by
  cases part with
  | word e bytes =>
    have hlength : bytes.length = 4 := h
    rw [clear, Part.bytes, Part.bytes, Endian.length_write, hlength]
  | _ => rfl

theorem length_join_clear {table : OpcodeTable} {parts : List Part} (h : ∀ x ∈ parts, x.Whole) :
    (join (parts.map (clear table))).length = (join parts).length := by
  induction parts with
  | nil => rfl
  | cons part parts ih =>
    have hpart : (part.clear table).bytes.length = part.bytes.length :=
      length_clear (h part List.mem_cons_self)
    have hparts := ih fun x hx => h x (List.mem_cons_of_mem part hx)
    simp only [join, List.map_cons, List.flatMap_cons, List.length_append] at hparts ⊢
    omega

theorem clear_eq_iff {table : OpcodeTable} {part : Part} (h : part.Whole) :
    (part.clear table).bytes = part.bytes ↔ part.Declared table := by
  cases part with
  | word e bytes =>
    have hlength : bytes.length = 4 := h
    have hlt : e.read bytes < 0x100000000 := by
      have hread := Endian.read_lt e bytes
      rw [hlength] at hread
      exact hread
    have hword : (wordOf e bytes).toNat = e.read bytes := UInt32.toNat_ofNat_of_lt' hlt
    have hwrite : e.write 4 (wordOf e bytes).toNat = bytes := by
      rw [hword, ← hlength, Endian.write_read]
    refine ⟨?_, ?_⟩
    · intro hsame
      have hread := congrArg e.read hsame
      simp only [clear, Part.bytes] at hread
      rw [Endian.read_write, Nat.mod_eq_of_lt (show _ < Endian.span 4 from UInt32.toNat_lt _),
        ← hword] at hread
      exact UInt32.toNat_inj.1 hread
    · intro hdeclared
      rw [clear, Part.bytes, Part.bytes, hdeclared]
      exact hwrite
  | _ => simp [clear, Declared]

/-- Only stray bits of words are lost when parts are cleared. -/
theorem join_clear_eq_iff {table : OpcodeTable} {parts : List Part} (h : ∀ x ∈ parts, x.Whole) :
    join (parts.map (clear table)) = join parts ↔ ∀ x ∈ parts, x.Declared table := by
  induction parts with
  | nil => simp [join]
  | cons part parts ih =>
    have hpart := h part List.mem_cons_self
    have hparts := ih fun x hx => h x (List.mem_cons_of_mem part hx)
    have hsplit : join ((part :: parts).map (clear table)) = join (part :: parts) ↔
        (part.clear table).bytes = part.bytes ∧ join (parts.map (clear table)) = join parts := by
      refine ⟨fun hsame => List.append_inj hsame (length_clear hpart), ?_⟩
      rintro ⟨hone, hrest⟩
      exact congrArg₂ (· ++ ·) hone hrest
    rw [hsplit, clear_eq_iff hpart, hparts, List.forall_mem_cons]

end Part

/-! ## What writing makes of parts -/

/-- What is written for some parts is no longer than they are. It is as long only if
they are tight, and for tight parts it is what they are, but for bits of words that no
opcode declares. All but the first may depend on a condition on what else is written. -/
structure Rewrites (table : OpcodeTable) (given : Prop) (parts : List Part) (out : Bytes) :
    Prop where
  whole : ∀ x ∈ parts, x.Whole
  length_le : out.length ≤ (Part.join parts).length
  tight : given → out.length = (Part.join parts).length → ∀ x ∈ parts, x.Tight
  same : given → (∀ x ∈ parts, x.Tight) → out = Part.join (parts.map (Part.clear table))

namespace Rewrites

variable {table : OpcodeTable} {given : Prop} {parts others : List Part} {out out' : Bytes}

theorem weaken (h : Rewrites table True parts out) : Rewrites table given parts out where
  whole := h.whole
  length_le := h.length_le
  tight := fun _ => h.tight trivial
  same := fun _ => h.same trivial

/-- The condition is met. -/
theorem met (h : Rewrites table given parts out) (hgiven : given) :
    Rewrites table True parts out where
  whole := h.whole
  length_le := h.length_le
  tight := fun _ => h.tight hgiven
  same := fun _ => h.same hgiven

theorem nil : Rewrites table given [] [] where
  whole := by simp
  length_le := Nat.le_refl _
  tight := by simp
  same := fun _ _ => rfl

theorem append (h : Rewrites table given parts out) (h' : Rewrites table given others out') :
    Rewrites table given (parts ++ others) (out ++ out') where
  whole := by
    intro x hx
    rcases List.mem_append.1 hx with hx | hx
    · exact h.whole x hx
    · exact h'.whole x hx
  length_le := by
    have := h.length_le
    have := h'.length_le
    rw [Part.join_append, List.length_append, List.length_append]
    omega
  tight := by
    intro hgiven hlength x hx
    have hle := h.length_le
    have hle' := h'.length_le
    rw [Part.join_append, List.length_append, List.length_append] at hlength
    rcases List.mem_append.1 hx with hx | hx
    · exact h.tight hgiven (by omega) x hx
    · exact h'.tight hgiven (by omega) x hx
  same := by
    intro hgiven htight
    have hparts := h.same hgiven fun x hx => htight x (List.mem_append_left _ hx)
    have hothers := h'.same hgiven fun x hx => htight x (List.mem_append_right _ hx)
    rw [hparts, hothers, List.map_append, Part.join_append]

/-- For tight parts the length is the same. -/
theorem length_eq (h : Rewrites table given parts out) (hgiven : given)
    (htight : ∀ x ∈ parts, x.Tight) : out.length = (Part.join parts).length := by
  rw [h.same hgiven htight, Part.length_join_clear h.whole]

/-- A condition on what follows, which holds if that keeps its length, is met. -/
theorem close (h : Rewrites table given parts out) (h' : Rewrites table True others out')
    (hgiven : out'.length = (Part.join others).length → given) :
    Rewrites table True (parts ++ others) (out ++ out') where
  whole := by
    intro x hx
    rcases List.mem_append.1 hx with hx | hx
    · exact h.whole x hx
    · exact h'.whole x hx
  length_le := by
    have := h.length_le
    have := h'.length_le
    rw [Part.join_append, List.length_append, List.length_append]
    omega
  tight := by
    intro _ hlength
    have hle := h.length_le
    have hle' := h'.length_le
    rw [Part.join_append, List.length_append, List.length_append] at hlength
    have hmet := hgiven (by omega)
    exact (h.append h'.weaken).tight hmet (by
      rw [Part.join_append, List.length_append, List.length_append]
      exact hlength)
  same := by
    intro _ htight
    have hlength := h'.length_eq trivial fun x hx => htight x (List.mem_append_right _ hx)
    exact (h.append h'.weaken).same (hgiven hlength) htight

theorem plain (bytes : Bytes) : Rewrites table given [.plain bytes] bytes where
  whole := by simp [Part.Whole]
  length_le := by simp [Part.join, Part.bytes]
  tight := by simp [Part.Tight, Part.Minimal, Part.Distinct]
  same := by simp [Part.join, Part.bytes, Part.clear]

/-- A number may be written that is smaller than the one that was read. -/
theorem number {spelling : Bytes} {value n : Nat} (h : Leb128.Spells spelling value)
    (hvalue : value < 0x8000000000000000) (hle : n ≤ value) :
    Rewrites table (n = value) [.number spelling value] (Leb128.encode n) := by
  have hshort : (Leb128.encode value).length ≤ spelling.length := h.length_le
  have hmono : (Leb128.encode n).length ≤ (Leb128.encode value).length :=
    Leb128.length_encode_mono hle
  have hjoin : Part.join [.number spelling value] = spelling := by simp [Part.join, Part.bytes]
  refine ⟨by simp [Part.Whole], ?_, ?_, ?_⟩
  · rw [hjoin]
    omega
  · rintro rfl hlength x hx
    rw [hjoin] at hlength
    rw [List.mem_singleton.1 hx]
    refine ⟨?_, trivial⟩
    intro other hother
    rw [← hlength]
    exact hother.length_le
  · rintro rfl htight
    have hminimal := (htight _ (List.mem_singleton_self _)).1 (Leb128.encode n)
      (Leb128.spells_encode (lt_trans hvalue (by norm_num)))
    rw [← h.eq_encode hvalue hminimal]
    simp [Part.join, Part.bytes, Part.clear]

theorem word (e : Endian) {bytes : Bytes} (h : bytes.length = 4) :
    Rewrites table given [.word e bytes]
      (e.write 4 (table.declared (Part.wordOf e bytes)).toNat) where
  whole := by simpa [Part.Whole] using h
  length_le := by simp [Part.join, Part.bytes, Endian.length_write, h]
  tight := by simp [Part.Tight, Part.Minimal, Part.Distinct]
  same := by simp [Part.join, Part.bytes, Part.clear]

end Rewrites

end BytecodeDump
