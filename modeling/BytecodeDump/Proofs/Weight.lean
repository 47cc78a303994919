-- How much a dump can hold. Every prototype, instruction, constant, line and name of a
-- script that was decoded stands for bytes of the dump that nothing else stands for, so no
-- short dump makes a large script.
import BytecodeDump.Proofs.NormalForm

namespace BytecodeDump

/-- If each element pays for itself, all do. -/
theorem sum_le_length_flatMap {α : Type} {weight : α → Nat} {form : α → Bytes} {items : List α}
    (h : ∀ a ∈ items, weight a ≤ (form a).length) :
    (items.map weight).sum ≤ (items.flatMap form).length := by
  rw [List.length_flatMap]
  exact List.sum_le_sum h

theorem mul_length_le_length_flatMap {α : Type} {size : Nat} {form : α → Bytes} (items : List α)
    (h : ∀ a ∈ items, size ≤ (form a).length) :
    size * items.length ≤ (items.flatMap form).length := by
  have hall := sum_le_length_flatMap h
  rwa [List.map_const', List.sum_replicate, smul_eq_mul, Nat.mul_comm] at hall

/-! ## Constants -/

namespace TableValue

/-- How many bytes of text the value has. -/
def textLength : TableValue → Nat
  | string bytes => bytes.length
  | _ => 0

theorem weight_le_written (v : TableValue) : 1 + v.textLength ≤ v.written.length := by
  have := Leb128.length_encode_pos v.tag
  have hpayload : v.textLength ≤ v.payload.length := by
    cases v with
    | string bytes => exact Nat.le_refl bytes.length
    | _ => exact Nat.zero_le _
  rw [written, List.length_append]
  omega

end TableValue

namespace Table

/-- How many bytes of text the values of the table have. -/
def textLength (t : Table) : Nat :=
  (t.array.map TableValue.textLength).sum
    + (t.dict.map fun pair => pair.1.textLength + pair.2.textLength).sum

theorem weight_le_written (t : Table) :
    t.array.length + 2 * t.dict.length + t.textLength ≤ t.written.length := by
  have harray : t.array.length + (t.array.map TableValue.textLength).sum ≤
      (t.array.flatMap TableValue.written).length := by
    have := sum_le_length_flatMap fun v (_ : v ∈ t.array) => v.weight_le_written
    simpa [List.sum_map_add] using this
  have hdict : 2 * t.dict.length +
      (t.dict.map fun pair => pair.1.textLength + pair.2.textLength).sum ≤
      (t.dict.flatMap writtenPair).length := by
    have hpair : ∀ pair ∈ t.dict,
        2 + (pair.1.textLength + pair.2.textLength) ≤ (writtenPair pair).length := by
      intro pair _
      have := pair.1.weight_le_written
      have := pair.2.weight_le_written
      rw [writtenPair, List.length_append]
      omega
    have := sum_le_length_flatMap hpair
    rw [List.sum_map_add] at this
    simpa [Nat.mul_comm] using this
  simp only [written, textLength, List.length_append]
  omega

end Table

namespace Constant

/-- How many slots the array of the constant has, if it is a table. -/
def arraySlots : Constant → Nat
  | table t => t.array.length
  | _ => 0

/-- How many pairs the constant has, if it is a table. -/
def pairs : Constant → Nat
  | table t => t.dict.length
  | _ => 0

/-- How many bytes of text the constant has. -/
def textLength : Constant → Nat
  | table t => t.textLength
  | string bytes => bytes.length
  | _ => 0

theorem weight_le_written (k : Constant) :
    1 + k.arraySlots + 2 * k.pairs + k.textLength ≤ k.written.length := by
  have := Leb128.length_encode_pos k.tag
  have hpayload : k.arraySlots + 2 * k.pairs + k.textLength ≤ k.payload.length := by
    cases k with
    | table t => exact t.weight_le_written
    | string bytes => simp [arraySlots, pairs, textLength, payload]
    | _ => exact Nat.zero_le _
  rw [written, List.length_append]
  omega

end Constant

theorem NumberConstant.length_write_pos (n : NumberConstant) : 1 ≤ n.write.length := by
  cases n with
  | int value => exact Leb128.length_encode_pos _
  | double value =>
    have := Leb128.length_encode_pos (Word.halves value.bits).2.toNat
    simp only [write, Output.leb32, List.length_append]
    omega

/-! ## Debug blocks -/

/-- How many bytes of the source the name has. -/
def LocalName.textLength : LocalName → Nat
  | named bytes => bytes.length
  | loop _ => 0

namespace LocalVariable

theorem weight_le_written (previous : UInt32) (v : LocalVariable) :
    3 + v.name.textLength ≤ (v.written previous).length := by
  have := Leb128.length_encode_pos (v.first - previous).toNat
  have := Leb128.length_encode_pos v.count.toNat
  have hname : 1 + v.name.textLength ≤ v.name.written.length := by
    cases v.name with
    | named bytes => simp [LocalName.textLength, LocalName.written, Nat.add_comm]
    | loop _ => exact Nat.le_refl 1
  simp only [written, Output.leb32, List.length_append]
  omega

theorem weight_le_writtenAll (previous : UInt32) (vs : List LocalVariable) :
    3 * vs.length + (vs.map (·.name.textLength)).sum ≤ (writtenAll previous vs).length := by
  induction vs generalizing previous with
  | nil => exact Nat.le_refl 0
  | cons v vs ih =>
    have := weight_le_written previous v
    have := ih v.first
    rw [writtenAll, List.length_append, List.length_cons, List.map_cons, List.sum_cons]
    omega

end LocalVariable

namespace DebugInfo

/-- How many bytes the names of the block have. -/
def textLength (info : DebugInfo) : Nat :=
  (info.upvalueNames.map List.length).sum + (info.locals.map (·.name.textLength)).sum

theorem lineWidth_pos (info : DebugInfo) : 1 ≤ info.lineWidth := by
  unfold lineWidth
  split
  · exact Nat.le_refl 1
  · split
    · decide
    · decide

theorem weight_le_written (e : Endian) (info : DebugInfo) :
    info.lines.length + 3 * info.locals.length + info.textLength ≤ (info.written e).length := by
  have hlines : 1 * info.lines.length ≤
      (info.lines.flatMap fun line => e.write info.lineWidth line.toNat).length := by
    refine mul_length_le_length_flatMap info.lines fun line _ => ?_
    rw [Endian.length_write]
    exact info.lineWidth_pos
  have hnames : (info.upvalueNames.map List.length).sum ≤
      (info.upvalueNames.flatMap (· ++ [0])).length := by
    refine sum_le_length_flatMap fun name _ => ?_
    rw [List.length_append]
    exact Nat.le_add_right _ _
  have hlocals := LocalVariable.weight_le_writtenAll 0 info.locals
  simp only [written, textLength, List.length_append]
  omega

end DebugInfo

/-! ## Prototypes -/

namespace Body

/-- How many slots the arrays of the tables have. -/
def arraySlots (b : Body) : Nat := (b.constants.map Constant.arraySlots).sum

/-- How many pairs the tables have. -/
def pairs (b : Body) : Nat := (b.constants.map Constant.pairs).sum

/-- How many instructions have a line. -/
def lineEntries (b : Body) : Nat := b.debug.elim 0 (·.lines.length)

/-- How many local variables are listed. -/
def localVariables (b : Body) : Nat := b.debug.elim 0 (·.locals.length)

/-- How many bytes of text the constants and the debug block have. -/
def textLength (b : Body) : Nat :=
  (b.constants.map Constant.textLength).sum + b.debug.elim 0 DebugInfo.textLength

/-- How many bytes a record has at least. -/
def weight (b : Body) : Nat :=
  8 + 4 * b.code.length + 2 * b.upvalues.length + b.constants.length + b.numbers.length
    + b.arraySlots + b.lineEntries + 2 * b.pairs + 3 * b.localVariables + b.textLength

theorem weight_constants_le_written (b : Body) :
    b.constants.length + b.arraySlots + 2 * b.pairs + (b.constants.map Constant.textLength).sum ≤
      (b.constants.reverse.flatMap Constant.written).length := by
  have hall := sum_le_length_flatMap fun k (_ : k ∈ b.constants) => k.weight_le_written
  have hreverse : (b.constants.reverse.flatMap Constant.written).length =
      (b.constants.flatMap Constant.written).length :=
    ((List.reverse_perm b.constants).flatMap_right _).length_eq
  rw [hreverse]
  simpa [List.sum_map_add, List.sum_map_mul_left, arraySlots, pairs] using hall

theorem weight_debug_le_written (e : Endian) (b : Body) :
    b.lineEntries + 3 * b.localVariables + b.debug.elim 0 DebugInfo.textLength ≤
      (b.debug.elim [] (·.written e)).length := by
  rw [lineEntries, localVariables]
  cases b.debug with
  | none => exact Nat.le_refl 0
  | some info => exact info.weight_le_written e

theorem length_writtenCounts (b : Body) : 7 ≤ b.writtenCounts.length := by
  have := Leb128.length_encode_pos b.constants.length
  have := Leb128.length_encode_pos b.numbers.length
  have := Leb128.length_encode_pos b.code.length
  simp only [writtenCounts, List.length_append, List.length_cons, List.length_nil]
  omega

/-- The record of a body pays for it, if its debug block is written. -/
theorem weight_le_record {layout : Layout} {b : Body} (hdebug : b.kept layout = b.debug) :
    b.weight ≤ (b.record layout).length := by
  have hcode : 4 * b.code.length ≤
      (b.code.flatMap fun i => layout.endian.write 4 i.toWord.toNat).length :=
    mul_length_le_length_flatMap b.code fun i _ => (Endian.length_write _ _ _).ge
  have hupvalues : 2 * b.upvalues.length ≤
      (b.upvalues.flatMap fun u => layout.endian.write 2 u.pack.toNat).length :=
    mul_length_le_length_flatMap b.upvalues fun u _ => (Endian.length_write _ _ _).ge
  have hnumbers : 1 * b.numbers.reverse.length ≤
      (b.numbers.reverse.flatMap NumberConstant.write).length :=
    mul_length_le_length_flatMap _ fun n _ => n.length_write_pos
  have hblock : b.lineEntries + 3 * b.localVariables + b.debug.elim 0 DebugInfo.textLength ≤
      (b.writtenBlock layout).length := by
    rw [writtenBlock, hdebug]
    exact b.weight_debug_le_written layout.endian
  have hcounts := b.length_writtenCounts
  have hconstants := b.weight_constants_le_written
  have hwritten : b.weight ≤ 1 + (b.written layout).length := by
    rw [List.length_reverse] at hnumbers
    simp only [written, List.length_append, weight, textLength]
    omega
  have := Leb128.length_encode_pos (b.written layout).length
  rw [record, List.length_append]
  omega

end Body

/-! ## The law -/

namespace Script

/-- What all prototypes of the script have together. -/
def total (s : Script) (amount : Body → Nat) : Nat := (s.walk.map fun x => amount x.2.body).sum

theorem total_add (s : Script) (f g : Body → Nat) :
    s.total (fun b => f b + g b) = s.total f + s.total g :=
  List.sum_map_add

theorem total_mul (s : Script) (n : Nat) (f : Body → Nat) :
    s.total (fun b => n * f b) = n * s.total f :=
  List.sum_map_mul_left _ _ _

theorem total_const (s : Script) (n : Nat) : s.total (fun _ => n) = n * s.walk.length := by
  rw [total, List.map_const', List.sum_replicate, smul_eq_mul, Nat.mul_comm]

theorem total_weight (s : Script) :
    s.total Body.weight = 8 * s.walk.length + 4 * s.total (·.code.length)
      + 2 * s.total (·.upvalues.length) + s.total (·.constants.length)
      + s.total (·.numbers.length) + s.total Body.arraySlots + s.total Body.lineEntries
      + 2 * s.total Body.pairs + 3 * s.total Body.localVariables + s.total Body.textLength := by
  unfold Body.weight
  simp only [total_add, total_mul, total_const]

/-- A script in normal form has no debug block and no chunk name that is not written. -/
theorem Normal.kept_eq {table : OpcodeTable} {s : Script} (h : s.Normal table) :
    ∀ x ∈ s.walk, x.2.body.kept s.layout = x.2.body.debug := by
  intro x hx
  cases hdebug : s.hasDebug with
  | true => exact if_pos hdebug
  | false =>
    rw [h.debug hdebug x hx]
    exact if_neg (by simp [layout, hdebug])

theorem Normal.length_chunkName {table : OpcodeTable} {s : Script} (h : s.Normal table) :
    s.chunkName.length ≤ (writtenChunkName s.hasDebug s.chunkName).length := by
  cases hdebug : s.hasDebug with
  | true =>
    rw [writtenChunkName, if_pos rfl, List.length_append]
    exact Nat.le_add_left _ _
  | false =>
    rw [h.chunkName hdebug]
    exact Nat.zero_le _

theorem total_weight_le_written {s : Script} (hcomplete : s.root.Complete)
    (hkept : ∀ x ∈ s.walk, x.2.body.kept s.layout = x.2.body.debug) :
    s.total Body.weight ≤ (s.root.written s.layout).length := by
  have hkept' := (Prototype.forall_postOrder_iff
    (P := fun q => q.body.kept s.layout = q.body.debug) hcomplete .root).2 hkept
  have hwalk : (s.walk.map (·.2)).Perm s.root.postOrder :=
    Prototype.walk_perm_postOrder hcomplete .root
  calc s.total Body.weight
      = ((s.walk.map (·.2)).map fun q => q.body.weight).sum := by
        rw [List.map_map]
        rfl
    _ = (s.root.postOrder.map fun q => q.body.weight).sum := (hwalk.map _).sum_eq
    _ ≤ (s.root.written s.layout).length :=
        sum_le_length_flatMap fun q hq => Body.weight_le_record (hkept' q hq)

/-- A dump is at least as long as what was decoded from it is large. There are eight bytes
for each prototype, four for each instruction, three for each local variable, two for each
upvalue and each pair of a table, and one for each constant, array slot and line; and there
are all bytes of the text. -/
theorem dumps_pay_for_what_they_hold {table : OpcodeTable} {bytes : Bytes} {s : Script}
    (h : decode table bytes = .ok s) :
    6 + 8 * s.walk.length + 4 * s.total (·.code.length) + 2 * s.total (·.upvalues.length)
      + s.total (·.constants.length) + s.total (·.numbers.length) + s.total Body.arraySlots
      + s.total Body.lineEntries + 2 * s.total Body.pairs + 3 * s.total Body.localVariables
      + (s.chunkName.length + s.total Body.textLength) ≤ bytes.length := by
  obtain ⟨parts, hsurvey⟩ := survey_of_decode table h
  obtain ⟨rfl, hsound⟩ := sound_of_survey table hsurvey
  have hnormal := normal_of_sound hsound
  have hroot := total_weight_le_written hsound.fits.root.complete hnormal.kept_eq
  have hwritten : 6 + s.chunkName.length + s.total Body.weight ≤ s.written.length := by
    have := hnormal.length_chunkName
    have := Leb128.length_encode_pos s.flags.bits.toNat
    have : magic.length = 3 := rfl
    simp only [written, writtenHeader, writtenHead, Output.leb32, List.length_append,
      List.length_cons, List.length_nil]
    omega
  have hall := le_trans hwritten hsound.rewrites.length_le
  rw [total_weight] at hall
  omega

/-- A function with an upvalue, a string and a number. -/
def tightScript : Script where
  chunkName := []
  root := .node
    { maxSlot := 1
      code := [⟨1, ⟨true, false, false, true⟩, 2, 0, 0, 3⟩]
      upvalues := [⟨0, false, true⟩]
      constants := [.string [0x78]]
      numbers := [.int 1] }
    none []

/-- The dump of this function. It has no byte more than it has to. -/
def tightDump : Bytes :=
  [0x1B, 0x4C, 0x4A, 2, 2, 16, 0, 0, 1, 1, 1, 1, 1, 1, 2, 3, 0, 0, 0x80, 6, 0x78, 2, 0]

theorem tightDump_pays_just_enough : decode pairTable tightDump = .ok tightScript ∧
    6 + 8 * 1 + 4 * 1 + 2 * 1 + 1 + 1 + 0 + 0 + 2 * 0 + 3 * 0 + (0 + 1) ≤ tightDump.length ∧
    tightDump.length = 23 := by
  have hdecode : decode pairTable tightDump = .ok tightScript := by decide +kernel
  have hpays := dumps_pay_for_what_they_hold hdecode
  have hwalk : tightScript.walk = [(.root, tightScript.root)] := rfl
  simp only [total, hwalk, List.map_cons, List.map_nil, List.sum_singleton] at hpays
  exact ⟨hdecode, hpays, rfl⟩

end Script

end BytecodeDump
