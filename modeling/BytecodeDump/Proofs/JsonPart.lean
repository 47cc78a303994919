-- The parts of a script read back from their JSON values: integers of every width, bytes,
-- records, variants, and what is made of them. Each value has a text that the parser takes.
import BytecodeDump.Json.Script
import BytecodeDump.Proofs.FlagText

namespace BytecodeDump

open Json

/-! ## Forms of values -/

theorem Json.Piece.text_ofText (s : String) : Piece.text? (Piece.ofText s) = some s := by
  have hchars : ∀ cs : List Char, Piece.chars? (cs.map .char) = some cs := by
    intro cs
    induction cs with
    | nil => rfl
    | cons c cs ih => rw [List.map_cons, Piece.chars?, ih, Option.map_some]
  rw [Piece.text?, Piece.ofText, hchars, Option.map_some, String.ofList_toList]

namespace Json.Read

theorem int_int {low high n : Int} (h : low ≤ n) (h' : n ≤ high) :
    int low high (.int n) = some n := by
  have hvalue : (Numeral.ofInt n).toInt? = some n := by
    unfold Numeral.toInt? Numeral.ofInt
    rcases lt_or_ge n 0 with hneg | hpos
    · have hne : n.natAbs ≠ 0 := by omega
      simp only [hneg, hne, List.isEmpty_nil, Option.isNone_none, Bool.and_self, decide_true,
        if_true, if_false, Option.some.injEq]
      omega
    · simp only [not_lt.2 hpos, List.isEmpty_nil, Option.isNone_none, Bool.and_self, decide_false,
        if_true, Bool.false_eq_true, if_false, Option.some.injEq]
      omega
  rw [Value.int, int, hvalue, Option.filter_some, if_pos (by simp [h, h'])]

theorem nat_nat {bound n : Nat} (h : n < bound) : nat bound (.nat n) = some n := by
  have hint : Value.nat n = .int n := by
    rw [Value.nat, Value.int, Numeral.ofInt, Int.natAbs_natCast, decide_eq_false (by omega)]
  rw [nat, hint, int_int (by omega) (by omega)]
  rfl

@[simp]
theorem nat_uint8 (n : UInt8) : nat 0x100 (.nat n.toNat) = some n.toNat := nat_nat n.toNat_lt

@[simp]
theorem nat_uint16 (n : UInt16) : nat 0x10000 (.nat n.toNat) = some n.toNat := nat_nat n.toNat_lt

@[simp]
theorem nat_uint32 (n : UInt32) : nat 0x100000000 (.nat n.toNat) = some n.toNat :=
  nat_nat n.toNat_lt

@[simp]
theorem nat_uint64 (n : UInt64) : nat 0x10000000000000000 (.nat n.toNat) = some n.toNat :=
  nat_nat n.toNat_lt

@[simp]
theorem int32_int (n : Int32) : int32 (.int n.toInt) = some n := by
  have hlow := n.le_toInt
  have hhigh := n.toInt_lt
  rw [int32, int_int (by omega) (by omega), Option.map_some, Int32.ofInt_toInt]

@[simp]
theorem int64_int (n : Int64) : int64 (.int n.toInt) = some n := by
  have hlow := n.le_toInt
  have hhigh := n.toInt_lt
  rw [int64, int_int (by omega) (by omega), Option.map_some, Int64.ofInt_toInt]

@[simp]
theorem bool_bool (value : Bool) : bool (.bool value) = some value := rfl

theorem text_text (s : String) : text (.text s) = some s := Piece.text_ofText s

section Lists

variable {α β γ : Type}

theorem mapM_map {write : α → γ} {read : γ → Option β} {back : α → β} {xs : List α}
    (h : ∀ x ∈ xs, read (write x) = some (back x)) :
    (xs.map write).mapM read = some (xs.map back) := by
  induction xs with
  | nil => rfl
  | cons x xs ih =>
    rw [List.map_cons, List.mapM_cons, h x List.mem_cons_self,
      ih fun y hy => h y (List.mem_cons_of_mem x hy)]
    rfl

theorem mapM_self {write : α → γ} {read : γ → Option α} {xs : List α}
    (h : ∀ x ∈ xs, read (write x) = some x) : (xs.map write).mapM read = some xs := by
  rw [mapM_map h, List.map_id']

/-- An array of what was written item by item is read item by item. -/
theorem list_map {item : Read β} {toJson : α → Value} {back : α → β} {room : Nat} {xs : List α}
    (h : ∀ x ∈ xs, item room (toJson x) = some (back x)) :
    list item (room + 1) (.array (xs.map toJson)) = some (xs.map back) := mapM_map h

theorem list_array {item : Read α} {toJson : α → Value} {room : Nat} {xs : List α}
    (h : ∀ x ∈ xs, item room (toJson x) = some x) :
    list item (room + 1) (.array (xs.map toJson)) = some xs := mapM_self h

end Lists

theorem bytes_ofBytes {room : Nat} (h : 1 ≤ room) (bs : Bytes) :
    bytes room (ofBytes bs) = some bs := by
  obtain ⟨room, rfl⟩ := Nat.exists_eq_add_of_le' h
  refine list_array fun b _ => ?_
  rw [nat_uint8, Option.map_some, UInt8.ofNat_toNat]

/-! ## Records and variants -/

/-- A record has its fields, where they have the right names. -/
theorem record_record (names : List String) {fields : Fields}
    (h : fields.map (·.1) = names) (hnames : names.Nodup) :
    record names (.record fields) = some fields := by
  have honce : (names.all fun name => fields.countP (·.1 = name) ≤ 1) = true := by
    rw [List.all_eq_true]
    intro name _
    have hcount : fields.countP (·.1 = name) = names.count name := by
      rw [← h, List.count, List.countP_map]
      rfl
    rw [hcount]
    exact decide_eq_true (List.nodup_iff_count_le_one.1 hnames name)
  rw [Value.record, record, mapM_self]
  · exact if_pos honce
  · intro field _
    show (Piece.text? (Piece.ofText field.1)).map (·, field.2) = _
    rw [Piece.text_ofText]
    rfl

@[simp]
theorem get_self (name : String) (v : Value) (fields : Fields) :
    get ((name, v) :: fields) name = some v := by
  rw [get, List.lookup_cons_self]

@[simp]
theorem get_other {name other : String} (v : Value) (fields : Fields) (h : name ≠ other) :
    get ((other, v) :: fields) name = get fields name := by
  rw [get, List.lookup_cons, beq_false_of_ne h]
  rfl

theorem variant_text (room : Nat) (name : String) :
    variant room (.text name) = some (name, none, room) := by
  rw [Value.text, variant, Piece.text_ofText]
  rfl

theorem variant_variant {room : Nat} (h : 1 ≤ room) (name : String) (v : Value) :
    variant room (.variant name v) = some (name, some v, room - 1) := by
  obtain ⟨room, rfl⟩ := Nat.exists_eq_add_of_le' h
  show (Piece.text? (Piece.ofText name)).map _ = _
  rw [Piece.text_ofText]
  rfl

end Json.Read

/-! ## Texts of values -/

namespace Json.Value

/-- A record is readable, where the names are plain and the values are readable. -/
theorem readable_of_names (names : List String) {fields : List (String × Value)}
    (h : fields.map (·.1) = names) (hnames : ∀ name ∈ names, PlainText name)
    (hvalues : ∀ v ∈ fields.map (·.2), v.Readable) : Readable (.record fields) := by
  refine readable_record fun f hf => ⟨hnames _ ?_, hvalues _ ?_⟩
  · rw [← h]
    exact List.mem_map.2 ⟨f, hf, rfl⟩
  · exact List.mem_map.2 ⟨f, hf, rfl⟩

theorem readable_map {α : Type} {toJson : α → Value} {xs : List α}
    (h : ∀ x ∈ xs, (toJson x).Readable) : Readable (.array (xs.map toJson)) :=
  readable_array (List.forall_mem_map.2 h)

theorem readable_ofBytes (bs : Bytes) : (ofBytes bs).Readable :=
  readable_map fun _ _ => readable_nat _

end Json.Value

/-! ## Instructions and upvalues -/

namespace OperandSlots

theorem readable (s : OperandSlots) : s.toJson.Readable :=
  Value.readable_of_names fieldNames rfl (by decide) (by simp [Value.readable_bool])

theorem ofJson_toJson (s : OperandSlots) {room : Nat} (h : 1 ≤ room) :
    ofJson room s.toJson = some s := by
  obtain ⟨room, rfl⟩ := Nat.exists_eq_add_of_le' h
  rw [toJson, ofJson, Read.record_record fieldNames rfl (by decide)]
  simp

end OperandSlots

namespace Instruction

theorem readable (i : Instruction) : i.toJson.Readable :=
  Value.readable_of_names fieldNames rfl (by decide)
    (by simp [Value.readable_nat, OperandSlots.readable])

theorem ofJson_toJson (i : Instruction) {room : Nat} (h : 2 ≤ room) :
    ofJson room i.toJson = some i := by
  obtain ⟨room, rfl⟩ := Nat.exists_eq_add_of_le' h
  rw [toJson, ofJson, Read.record_record fieldNames rfl (by decide)]
  simp [OperandSlots.ofJson_toJson]

end Instruction

namespace Upvalue

theorem readable (u : Upvalue) : u.toJson.Readable :=
  Value.readable_of_names fieldNames rfl (by decide)
    (by simp [Value.readable_nat, Value.readable_bool])

theorem ofJson_toJson (u : Upvalue) {room : Nat} (h : 1 ≤ room) :
    ofJson room u.toJson = some u := by
  obtain ⟨room, rfl⟩ := Nat.exists_eq_add_of_le' h
  rw [toJson, ofJson, Read.record_record fieldNames rfl (by decide)]
  simp

end Upvalue

/-! ## Debug blocks -/

namespace LoopVariable

theorem readable (v : LoopVariable) : (Value.text v.jsonName).Readable :=
  Value.readable_text (by cases v <;> decide)

theorem ofJson_jsonName (v : LoopVariable) (room : Nat) :
    ofJson room (.text v.jsonName) = some v := by
  rw [ofJson, Read.variant_text]
  cases v <;> rfl

end LoopVariable

namespace LocalName

theorem readable (n : LocalName) : n.toJson.Readable := by
  cases n with
  | named bytes => exact Value.readable_variant (by decide) (Value.readable_ofBytes bytes)
  | loop v => exact Value.readable_variant (by decide) v.readable

theorem ofJson_toJson (n : LocalName) {room : Nat} (h : 2 ≤ room) :
    ofJson room n.toJson = some n := by
  cases n with
  | named bytes =>
    rw [toJson, ofJson, Read.variant_variant (by omega)]
    simp [Read.bytes_ofBytes (show 1 ≤ room - 1 by omega)]
  | loop v =>
    rw [toJson, ofJson, Read.variant_variant (by omega)]
    simp [LoopVariable.ofJson_jsonName]

end LocalName

namespace LocalVariable

theorem readable (v : LocalVariable) : v.toJson.Readable :=
  Value.readable_of_names fieldNames rfl (by decide)
    (by simp [Value.readable_nat, LocalName.readable])

theorem ofJson_toJson (v : LocalVariable) {room : Nat} (h : 3 ≤ room) :
    ofJson room v.toJson = some v := by
  obtain ⟨room, rfl⟩ := Nat.exists_eq_add_of_le' h
  rw [toJson, ofJson, Read.record_record fieldNames rfl (by decide)]
  simp [LocalName.ofJson_toJson]

end LocalVariable

namespace DebugInfo

theorem readable (d : DebugInfo) : d.toJson.Readable :=
  Value.readable_of_names fieldNames rfl (by decide)
    (by simp [Value.readable_nat, Value.readable_map, Value.readable_ofBytes,
      LocalVariable.readable])

theorem ofJson_toJson (d : DebugInfo) {room : Nat} (h : 5 ≤ room) :
    ofJson room d.toJson = some d := by
  obtain ⟨room, rfl⟩ := Nat.exists_eq_add_of_le' h
  have hlines : Read.list (fun _ => Read.nat 0x100000000) (room + 4)
      (.array (d.lines.map fun line => .nat line.toNat)) = some (d.lines.map UInt32.toNat) :=
    Read.list_map fun line _ => Read.nat_uint32 line
  have hback : (d.lines.map UInt32.toNat).map UInt32.ofNat = d.lines := by
    rw [List.map_map]
    exact (List.map_congr_left fun _ _ => UInt32.ofNat_toNat).trans (List.map_id _)
  have hnames : Read.list Read.bytes (room + 4) (.array (d.upvalueNames.map ofBytes)) =
      some d.upvalueNames := Read.list_array fun _ _ => Read.bytes_ofBytes (by omega) _
  have hlocals : Read.list LocalVariable.ofJson (room + 4)
      (.array (d.locals.map LocalVariable.toJson)) = some d.locals :=
    Read.list_array fun v _ => v.ofJson_toJson (by omega)
  rw [toJson, ofJson, Read.record_record fieldNames rfl (by decide)]
  simp only [Read.get_self, Read.get_other, ne_eq, String.reduceEq, not_false_eq_true,
    Option.bind_eq_bind, Option.bind_some, Read.nat_uint32, hlines, hnames, hlocals, hback,
    UInt32.ofNat_toNat]
  rfl

end DebugInfo

/-! ## Constants -/

namespace TableValue

theorem readable (v : TableValue) : v.toJson.Readable := by
  cases v with
  | nil => exact Value.readable_text (by decide)
  | bool value => exact Value.readable_text (by cases value <;> decide)
  | int32 n => exact Value.readable_variant (by decide) (Value.readable_int _)
  | int64 n => exact Value.readable_variant (by decide) (Value.readable_int _)
  | string bytes => exact Value.readable_variant (by decide) (Value.readable_ofBytes bytes)

theorem ofJson_toJson (v : TableValue) {room : Nat} (h : 2 ≤ room) :
    ofJson room v.toJson = some v := by
  cases v with
  | nil =>
    rw [toJson, ofJson, Read.variant_text]
    rfl
  | bool value =>
    rw [toJson, ofJson, Read.variant_text]
    cases value <;> rfl
  | int32 n =>
    rw [toJson, ofJson, Read.variant_variant (by omega)]
    simp
  | int64 n =>
    rw [toJson, ofJson, Read.variant_variant (by omega)]
    simp
  | string bytes =>
    rw [toJson, ofJson, Read.variant_variant (by omega)]
    simp [Read.bytes_ofBytes (show 1 ≤ room - 1 by omega)]

end TableValue

namespace Table

theorem readable (t : Table) : t.toJson.Readable := by
  have hpair : ∀ x ∈ t.dict, (Value.array [x.1.toJson, x.2.toJson]).Readable := by
    intro x _
    exact Value.readable_array (by simp [TableValue.readable])
  exact Value.readable_of_names fieldNames rfl (by decide)
    (by simp [Value.readable_map, TableValue.readable, Value.readable_map hpair])

/-- The pairs come back in their order. -/
theorem ofJson_toJson (t : Table) {room : Nat} (h : 5 ≤ room) :
    ofJson room t.toJson = some t := by
  obtain ⟨room, rfl⟩ := Nat.exists_eq_add_of_le' h
  have harray : Read.list TableValue.ofJson (room + 4)
      (.array (t.array.map TableValue.toJson)) = some t.array :=
    Read.list_array fun v _ => v.ofJson_toJson (by omega)
  rw [toJson, ofJson, Read.record_record fieldNames rfl (by decide)]
  simp only [Read.get_self, Read.get_other, ne_eq, String.reduceEq, not_false_eq_true,
    Option.bind_eq_bind, Option.bind_some, harray]
  rw [Read.list_array]
  · rfl
  · intro x _
    simp [Read.pair, TableValue.ofJson_toJson]

end Table

namespace Constant

/-- A constant that has a whole value, where the index of a child fits 64 bits. -/
def Whole : Constant → Prop
  | child index => index < 0x10000000000000000
  | complex _ => False
  | _ => True

instance : DecidablePred Whole
  | child index => inferInstanceAs (Decidable (index < 0x10000000000000000))
  | complex _ => isFalse id
  | table _ | int64 _ | uint64 _ | string _ => isTrue trivial

theorem readable {k : Constant} (h : k.Whole) : k.toJson.Readable := by
  cases k with
  | child index => exact Value.readable_variant (by decide) (Value.readable_nat _)
  | table t => exact Value.readable_variant (by decide) t.readable
  | int64 n => exact Value.readable_variant (by decide) (Value.readable_int _)
  | uint64 n => exact Value.readable_variant (by decide) (Value.readable_nat _)
  | complex z => cases h
  | string bytes => exact Value.readable_variant (by decide) (Value.readable_ofBytes bytes)

theorem ofJson_toJson {k : Constant} (hk : k.Whole) {room : Nat} (h : 6 ≤ room) :
    ofJson room k.toJson = some k := by
  cases k with
  | child index =>
    rw [toJson, ofJson, Read.variant_variant (by omega)]
    simp [Read.nat_nat hk]
  | table t =>
    rw [toJson, ofJson, Read.variant_variant (by omega)]
    simp [t.ofJson_toJson (show 5 ≤ room - 1 by omega)]
  | int64 n =>
    rw [toJson, ofJson, Read.variant_variant (by omega)]
    simp
  | uint64 n =>
    rw [toJson, ofJson, Read.variant_variant (by omega)]
    simp
  | complex z => cases hk
  | string bytes =>
    rw [toJson, ofJson, Read.variant_variant (by omega)]
    simp [Read.bytes_ofBytes (show 1 ≤ room - 1 by omega)]

end Constant

namespace NumberConstant

/-- An integer. -/
def Whole : NumberConstant → Prop
  | int _ => True
  | double _ => False

instance : DecidablePred Whole
  | int _ => isTrue trivial
  | double _ => isFalse id

theorem readable {n : NumberConstant} (h : n.Whole) : n.toJson.Readable := by
  cases n with
  | int n => exact Value.readable_variant (by decide) (Value.readable_int _)
  | double x => cases h

theorem ofJson_toJson {n : NumberConstant} (hn : n.Whole) {room : Nat} (h : 1 ≤ room) :
    ofJson room n.toJson = some n := by
  cases n with
  | int n =>
    rw [toJson, ofJson, Read.variant_variant h]
    simp
  | double x => cases hn

end NumberConstant

/-! ## Flags -/

namespace PrototypeFlags

theorem readable (f : PrototypeFlags) : f.toJson.Readable :=
  Value.readable_text (Flags.plain_text (by decide) _)

theorem ofJson_toJson (f : PrototypeFlags) : ofJson f.toJson = some f := by
  have hbits := Flags.ofText_text (show Flags.Legible names by decide) f.bits.toNat_lt
  rw [ofJson, toJson, Read.text_text]
  simp [hbits]

end PrototypeFlags

namespace ScriptFlags

theorem readable (f : ScriptFlags) : f.toJson.Readable :=
  Value.readable_text (Flags.plain_text (by decide) _)

theorem ofJson_toJson (f : ScriptFlags) : ofJson f.toJson = some f := by
  have hbits := Flags.ofText_text (show Flags.Legible names by decide) f.bits.toNat_lt
  rw [ofJson, toJson, Read.text_text]
  simp [hbits]

end ScriptFlags

end BytecodeDump
