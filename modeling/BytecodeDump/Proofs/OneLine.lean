-- What is shown on one line. A string is shown in quotes, and there each newline is written
-- as two other characters; whatever else is shown of a number, a constant or an instruction is
-- put together from digits, marks and words.
import BytecodeDump.Listing
import BytecodeDump.Proofs.FlagText
import BytecodeDump.Proofs.Shortest

namespace BytecodeDump

namespace Text

/-- The character does not occur in the text. -/
def Lacks (c : Char) (text : String) : Prop := c ∉ text.toList

instance (c : Char) (text : String) : Decidable (Lacks c text) :=
  inferInstanceAs (Decidable (_ ∉ _))

variable {c : Char}

/-! ## Parts of a text -/

theorem lacks_ofList {cs : List Char} : Lacks c (String.ofList cs) ↔ c ∉ cs := by
  rw [Lacks, String.toList_ofList]

theorem lacks_append {s t : String} : Lacks c (s ++ t) ↔ Lacks c s ∧ Lacks c t := by
  rw [Lacks, String.toList_append, List.mem_append, not_or, Lacks, Lacks]

theorem lacks_join {ts : List String} (h : ∀ t ∈ ts, Lacks c t) : Lacks c (String.join ts) := by
  rw [Lacks, String.toList_join, List.mem_flatMap]
  rintro ⟨t, ht, hc⟩
  exact h t ht hc

theorem lacks_intercalate {mark : String} {ts : List String} (hmark : Lacks c mark)
    (h : ∀ t ∈ ts, Lacks c t) : Lacks c (mark.intercalate ts) := by
  rw [Lacks, String.toList_intercalate]
  intro hc
  rcases mem_intercalate hc with hc | ⟨part, hpart, hc⟩
  · exact hmark hc
  · obtain ⟨t, ht, rfl⟩ := List.mem_map.1 hpart
    exact h t ht hc

theorem lacks_replicate {fill : Char} (h : c ≠ fill) (count : Nat) :
    Lacks c (String.ofList (List.replicate count fill)) :=
  lacks_ofList.2 fun hc => h (List.eq_of_mem_replicate hc)

theorem lacks_padLeft {fill : Char} {text : String} (hfill : c ≠ fill) (h : Lacks c text)
    (width : Nat) : Lacks c (padLeft fill width text) :=
  lacks_append.2 ⟨lacks_replicate hfill _, h⟩

theorem lacks_padRight {text : String} (hblank : c ≠ ' ') (h : Lacks c text) (width : Nat) :
    Lacks c (padRight width text) :=
  lacks_append.2 ⟨h, lacks_replicate hblank _⟩

/-! ## Numbers -/

theorem lacks_nat (h : c.isDigit = false) (n : Nat) : Lacks c (toString n) := by
  rw [Nat.toString_eq_ofList_toDigits, lacks_ofList]
  exact fun hc => Json.Value.ne_of_isDigit (Json.Parser.isDigit_toDigits n c hc) h rfl

theorem lacks_index4 (h : c.isDigit = false) (n : Nat) : Lacks c (index4 n) :=
  lacks_padLeft (Json.Value.ne_of_isDigit (by decide) h).symm (lacks_nat h n) 4

theorem lacks_int (n : Int) : Lacks '\n' (toString n) := by
  cases n with
  | ofNat n => exact lacks_nat (by decide) n
  | negSucc n => exact lacks_append.2 ⟨by decide, lacks_nat (by decide) (n + 1)⟩

theorem lacks_hex (n : Nat) : Lacks '\n' (hex n) := by
  rw [hex, lacks_ofList]
  intro hc
  obtain ⟨d, hd, hdigit⟩ := digitChar_of_mem '\n' hc
  have hall : ∀ d < 16, '\n' ≠ d.digitChar := by decide
  exact hall d hd hdigit

theorem lacks_upperHex (n : Nat) : Lacks '\n' (hex n).toUpper := by
  rw [Lacks, String.toUpper, String.toList_map, hex, String.toList_ofList]
  intro hc
  obtain ⟨digit, hdigit, hupper⟩ := List.mem_map.1 hc
  obtain ⟨d, hd, rfl⟩ := digitChar_of_mem digit hdigit
  have hall : ∀ d < 16, d.digitChar.toUpper ≠ '\n' := by decide
  exact hall d hd hupper

theorem lacks_numeral {n : Numeral} (h : ∀ d ∈ n.fraction, d < 10) (plus : Bool) :
    Lacks '\n' (n.text plus) := by
  have hdigit : ∀ d < 10, '\n' ≠ Numeral.digit d := by decide
  have hfraction : Lacks '\n'
      (if n.fraction.isEmpty then "" else "." ++ String.ofList (n.fraction.map Numeral.digit)) := by
    split
    · decide
    · refine lacks_append.2 ⟨by decide, lacks_ofList.2 fun hc => ?_⟩
      obtain ⟨d, hd, heq⟩ := List.mem_map.1 hc
      exact hdigit d (h d hd) heq.symm
  have hexponent : ∀ e : Int, Lacks '\n' (Numeral.exponentText plus e) := by
    intro e
    rw [Numeral.exponentText, lacks_append, lacks_append]
    exact ⟨⟨by decide, by split_ifs <;> decide⟩, lacks_nat (by decide) _⟩
  rw [Numeral.text, lacks_append, lacks_append, lacks_append]
  refine ⟨⟨⟨by split_ifs <;> decide, lacks_nat (by decide) _⟩, hfraction⟩, ?_⟩
  cases n.exponent with
  | none => exact List.not_mem_nil
  | some e => exact hexponent e

/-! ## Quoted text -/

/-- A newline is written as a backslash and a letter, and no other character with one. -/
theorem Quoted.lacks_escape (d : Char) : Lacks '\n' (Quoted.escape d) := by
  unfold Quoted.escape
  split
  case h_7 hnewline _ _ =>
    -- the newline has a case of its own, so `d` is not one
    split
    · rw [lacks_append, lacks_append]
      exact ⟨⟨by decide, lacks_hex _⟩, by decide⟩
    · rw [Lacks, Char.toString_eq_singleton, String.toList_singleton, List.mem_singleton]
      exact fun h => hnewline h.symm
  all_goals decide

theorem lacks_quote (text : String) : Lacks '\n' (quote text) := by
  rw [quote, lacks_append, lacks_append]
  refine ⟨⟨by decide, lacks_join ?_⟩, by decide⟩
  exact List.forall_mem_map.2 fun d _ => Quoted.lacks_escape d

theorem lacks_quoteUpTo (limit : Nat) (text : String) : Lacks '\n' (quoteUpTo limit text) := by
  unfold quoteUpTo
  split
  · exact lacks_quote text
  · exact lacks_append.2 ⟨lacks_quote _, by decide⟩

end Text

namespace Listing

open Text

/-! ## Constants -/

theorem lacks_showDouble (style : Decimal.Style) (x : Double) :
    Lacks '\n' (showDouble style x) := by
  unfold showDouble
  split_ifs
  · decide
  · decide
  · decide
  · exact lacks_numeral (style.fraction_lt x) false

theorem lacks_showSigned (style : Decimal.Style) (x : Double) :
    Lacks '\n' (showSigned style x) :=
  lacks_append.2 ⟨by split_ifs <;> decide, lacks_showDouble style x⟩

theorem lacks_showNumber (n : NumberConstant) : Lacks '\n' (showNumber n) := by
  cases n with
  | int n => exact lacks_int n.toInt
  | double x => exact lacks_showDouble numberStyle x

theorem lacks_showValue (v : TableValue) : Lacks '\n' (showValue v) := by
  cases v with
  | nil => decide
  | bool value => cases value <;> decide
  | int32 n => exact lacks_int n.toInt
  | int64 n => exact lacks_append.2 ⟨by decide, lacks_padLeft (by decide) (lacks_hex _) 16⟩
  | string bytes => exact lacks_quoteUpTo stringLimit _

theorem lacks_showTable (t : Table) : Lacks '\n' (showTable t) := by
  have hentry : ∀ {key value : String}, Lacks '\n' key → Lacks '\n' value →
      Lacks '\n' ("[" ++ key ++ "]=" ++ value) := by
    intro key value hkey hvalue
    rw [lacks_append, lacks_append, lacks_append]
    exact ⟨⟨⟨by decide, hkey⟩, by decide⟩, hvalue⟩
  rw [showTable, lacks_append, lacks_append]
  refine ⟨⟨by decide, lacks_intercalate (by decide) ?_⟩, by decide⟩
  intro entry hmem
  rcases List.mem_append.1 hmem with hmem | hmem
  · obtain ⟨⟨v, index⟩, -, rfl⟩ := List.mem_map.1 hmem
    exact hentry (lacks_nat (by decide) index) (lacks_showValue v)
  · obtain ⟨⟨k, v⟩, -, rfl⟩ := List.mem_map.1 hmem
    exact hentry (lacks_showValue k) (lacks_showValue v)

theorem lacks_showExtent (p : Prototype) : Lacks '\n' (showExtent p) := by
  rw [showExtent, lacks_append, lacks_append, lacks_append]
  exact ⟨⟨⟨by decide, lacks_nat (by decide) p.body.args.toNat⟩, by decide⟩,
    lacks_nat (by decide) _⟩

theorem lacks_showConstant (p : Prototype) (k : Constant) : Lacks '\n' (showConstant p k) := by
  cases k with
  | child index =>
    rw [showConstant, lacks_append, lacks_append, lacks_append, lacks_append]
    refine ⟨⟨⟨⟨by decide, lacks_nat (by decide) index⟩, by decide⟩, ?_⟩, by decide⟩
    cases p.children[index]? with
    | none => decide
    | some c => exact lacks_showExtent c
  | table t => exact lacks_showTable t
  | int64 n => exact lacks_append.2 ⟨lacks_int n.toInt, by decide⟩
  | uint64 n => exact lacks_append.2 ⟨lacks_nat (by decide) n.toNat, by decide⟩
  | complex z =>
    rw [showConstant, lacks_append, lacks_append]
    exact ⟨⟨lacks_showDouble _ _, lacks_showSigned _ _⟩, by decide⟩
  | string bytes => exact lacks_quoteUpTo stringLimit _

/-! ## Instructions -/

/-- No opcode has a name with a newline in it. -/
def PlainNames (table : OpcodeTable) : Prop :=
  ∀ opcode name, table.mnemonic opcode = some name → Lacks '\n' name

theorem lacks_showOperand (i : Instruction) (o : Operand) : Lacks '\n' (showOperand i o) := by
  unfold showOperand
  split
  · rw [lacks_append, lacks_append, lacks_append]
    refine ⟨⟨⟨by decide, by cases o <;> decide⟩, by decide⟩, ?_⟩
    cases o with
    | a => exact lacks_nat (by decide) i.a.toNat
    | b => exact lacks_nat (by decide) i.b.toNat
    | c => exact lacks_nat (by decide) i.c.toNat
    | d => exact lacks_nat (by decide) i.d.toNat
  · decide

variable {table : OpcodeTable}

theorem lacks_showOpcode (h : PlainNames table) (opcode : UInt8) :
    Lacks '\n' (showOpcode table opcode) := by
  unfold showOpcode
  cases hname : table.mnemonic opcode with
  | none => exact lacks_append.2 ⟨by decide, lacks_padLeft (by decide) (lacks_upperHex _) 2⟩
  | some name => exact h opcode name hname

theorem lacks_showInstruction (h : PlainNames table) (i : Instruction) :
    Lacks '\n' (showInstruction table i) := by
  refine lacks_append.2 ⟨lacks_padRight (by decide) (lacks_showOpcode h i.opcode) 7, ?_⟩
  exact lacks_join (List.forall_mem_map.2 fun o _ => lacks_showOperand i o)

/-- What an instruction loads is shown on one line, whatever the opcodes are called. -/
theorem lacks_preview {p : Prototype} {i : Instruction} {text : String}
    (h : preview? table p i = some text) : Lacks '\n' text := by
  unfold preview? at h
  obtain ⟨reference, -, h⟩ := Option.bind_eq_some_iff.1 h
  dsimp only at h
  split at h
  case isFalse => cases h
  obtain ⟨d, -, h⟩ := Option.bind_eq_some_iff.1 h
  cases reference with
  | constant =>
    obtain ⟨k, -, rfl⟩ := Option.map_eq_some_iff.1 h
    exact lacks_showConstant p k
  | function =>
    obtain ⟨child, -, h⟩ := Option.bind_eq_some_iff.1 h
    cases h
    simp only [lacks_append]
    exact ⟨⟨⟨⟨by decide, lacks_nat (by decide) child.body.args.toNat⟩, by decide⟩,
      lacks_nat (by decide) _⟩, by decide⟩
  | number =>
    dsimp only at h
    split at h
    · obtain ⟨n, -, rfl⟩ := Option.map_eq_some_iff.1 h
      exact lacks_showNumber n
    · cases h

/-- An instruction is shown on one line with what it loads. -/
theorem lacks_showStep (h : PlainNames table) (p : Prototype) (i : Instruction) :
    Lacks '\n' (showStep table p i) := by
  refine lacks_append.2 ⟨lacks_showInstruction h i, ?_⟩
  cases hload : preview? table p i with
  | none => decide
  | some text => exact lacks_append.2 ⟨by decide, lacks_preview hload⟩

end Listing

end BytecodeDump
