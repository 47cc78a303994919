-- The laws of constants in a dump. Each kind of value has a condition under which it
-- fits into a dump and a form in it: writing succeeds just under the condition and
-- gives the form, and reading the form gives the value back.
import BytecodeDump.Proofs.Field
import BytecodeDump.Proofs.Output
import BytecodeDump.Wire.Constant

namespace BytecodeDump

open Reader Output

/-! ## Table values -/

namespace TableValue

/-- What follows the tag. -/
def payload : TableValue → Bytes
  | nil | bool _ => []
  | int32 n => Output.leb32 n.toUInt32
  | int64 n => Output.word64 n.toUInt64
  | string bytes => bytes

/-- The form of the value in a dump. -/
def written (v : TableValue) : Bytes := Leb128.encode v.tag ++ v.payload

/-- The tag fits 32 bits, so only a string can be too long. -/
def Fits (v : TableValue) : Prop := v.tag < 0x100000000

theorem write_eq_ok (v : TableValue) (out : Bytes) :
    v.write = .ok out ↔ v.Fits ∧ out = v.written := by
  unfold write
  rw [andThen_eq_ok]
  refine ⟨?_, ?_⟩
  · rintro ⟨tag, htag, hout⟩
    obtain ⟨hfits, rfl⟩ := tag_eq_ok.1 htag
    refine ⟨hfits, ?_⟩
    cases v <;> exact pure_eq_ok.1 hout
  · rintro ⟨hfits, rfl⟩
    refine ⟨_, tag_eq_ok.2 ⟨hfits, rfl⟩, ?_⟩
    cases v <;> rfl

theorem kind_of_ge {n : Nat} (h : 5 ≤ n) : TableValueKind.ofTag n = .string := by
  obtain ⟨k, rfl⟩ : ∃ k, n = 5 + k := ⟨n - 5, by omega⟩
  rw [Nat.add_comm]
  rfl

theorem reads {v : TableValue} (h : v.Fits) : Reads read v.written v := by
  have htag : (UInt32.ofNat v.tag).toNat = v.tag := UInt32.toNat_ofNat_of_lt' h
  apply reads_bind (reads_leb32_nat h)
  rw [htag]
  cases v with
  | nil => exact reads_pure _
  | bool value => cases value <;> exact reads_pure _
  | int32 n =>
    apply reads_bind_nil (reads_leb32 n.toUInt32)
    rw [Int32.toInt32_toUInt32]
    exact reads_pure _
  | int64 n =>
    apply reads_bind_nil (reads_word64 n.toUInt64)
    rw [Int64.toInt64_toUInt64]
    exact reads_pure _
  | string bytes =>
    simp only [tag]
    rw [kind_of_ge (by omega), Nat.add_sub_cancel_left]
    exact reads_bind_nil (reads_bytes bytes) (reads_pure _)

theorem local_read : Local read := by
  apply local_bind local_leb32
  intro tag
  split
  · exact local_pure _
  · exact local_pure _
  · exact local_pure _
  · exact local_bind local_leb32 fun _ => local_pure _
  · exact local_bind local_word64 fun _ => local_pure _
  · exact local_bind (local_bytes _) fun _ => local_pure _

end TableValue

/-! ## Tables -/

namespace Table

/-- The form of a pair in a dump. -/
def writtenPair (pair : TableValue × TableValue) : Bytes := pair.1.written ++ pair.2.written

/-- The form of the table in a dump. -/
def written (t : Table) : Bytes :=
  Leb128.encode t.array.length ++ Leb128.encode t.dict.length
    ++ t.array.flatMap TableValue.written ++ t.dict.flatMap writtenPair

/-- Both sizes fit 32 bits, and every value fits. -/
structure Fits (t : Table) : Prop where
  array_length : t.array.length < 0x100000000
  dict_length : t.dict.length < 0x100000000
  array : ∀ v ∈ t.array, v.Fits
  dict : ∀ pair ∈ t.dict, pair.1.Fits ∧ pair.2.Fits

/-- The keys of a dictionary, in their order. -/
def keys (pairs : List (TableValue × TableValue)) : List TableValue := pairs.map (·.1)

/-- No key stands twice. -/
def Keyed (t : Table) : Prop := (keys t.dict).Nodup

instance (t : Table) : Decidable t.Keyed := inferInstanceAs (Decidable (keys t.dict).Nodup)

theorem writePair_eq_ok (pair : TableValue × TableValue) (out : Bytes) :
    writePair pair = .ok out ↔ (pair.1.Fits ∧ pair.2.Fits) ∧ out = writtenPair pair := by
  unfold writePair
  simp only [andThen_eq_ok, TableValue.write_eq_ok, pure_eq_ok]
  refine ⟨?_, ?_⟩
  · rintro ⟨_, ⟨hkey, rfl⟩, _, ⟨hvalue, rfl⟩, rfl⟩
    exact ⟨⟨hkey, hvalue⟩, rfl⟩
  · rintro ⟨⟨hkey, hvalue⟩, rfl⟩
    exact ⟨_, ⟨hkey, rfl⟩, _, ⟨hvalue, rfl⟩, rfl⟩

theorem write_eq_ok (t : Table) (out : Bytes) : t.write = .ok out ↔ t.Fits ∧ out = t.written := by
  have harray := each_eq_ok fun v (_ : v ∈ t.array) piece => TableValue.write_eq_ok v piece
  have hdict := each_eq_ok fun pair (_ : pair ∈ t.dict) piece => writePair_eq_ok pair piece
  unfold write
  simp only [andThen_eq_ok, size_eq_ok, harray, hdict, pure_eq_ok]
  refine ⟨?_, ?_⟩
  · rintro ⟨_, ⟨h1, rfl⟩, _, ⟨h2, rfl⟩, _, ⟨h3, rfl⟩, _, ⟨h4, rfl⟩, rfl⟩
    exact ⟨⟨h1, h2, h3, h4⟩, rfl⟩
  · rintro ⟨⟨h1, h2, h3, h4⟩, rfl⟩
    exact ⟨_, ⟨h1, rfl⟩, _, ⟨h2, rfl⟩, _, ⟨h3, rfl⟩, _, ⟨h4, rfl⟩, rfl⟩

/-! ### The dictionary, pair by pair -/

theorem setIn_of_notMem {key value : TableValue} {pairs : List (TableValue × TableValue)}
    (h : key ∉ keys pairs) : setIn key value pairs = pairs ++ [(key, value)] := by
  induction pairs with
  | nil => rfl
  | cons pair pairs ih =>
    simp only [keys, List.map_cons, List.mem_cons, not_or] at h
    rw [setIn, if_neg (Ne.symm h.1), ih h.2, List.cons_append]

/-- The table after some pairs were set one after the other. -/
def setAll (t : Table) (pairs : List (TableValue × TableValue)) : Table :=
  pairs.foldl (fun t (key, value) => t.set key value) t

/-- Pairs with new keys are put at the end, in their order. -/
theorem foldl_set {array : List TableValue} {pairs : List (TableValue × TableValue)} :
    ∀ before : List (TableValue × TableValue), (keys (before ++ pairs)).Nodup →
      setAll ⟨array, before⟩ pairs = ⟨array, before ++ pairs⟩ := by
  induction pairs with
  | nil => simp [setAll]
  | cons pair pairs ih =>
    intro before hnodup
    have hnew : pair.1 ∉ keys before := by
      simp only [keys, List.map_append, List.map_cons, List.nodup_append] at hnodup
      intro hmem
      exact hnodup.2.2 _ hmem _ List.mem_cons_self rfl
    have hstep : (⟨array, before⟩ : Table).set pair.1 pair.2 = ⟨array, before ++ [pair]⟩ := by
      rw [set, setIn_of_notMem hnew]
    rw [setAll, List.foldl_cons]
    simp only [hstep]
    rw [← setAll, ih (before ++ [pair]) (by simpa using hnodup), List.append_assoc]
    rfl

/-- The table with the pairs of one key merged: what reading makes of a table. -/
def merged (t : Table) : Table := setAll ⟨t.array, []⟩ t.dict

theorem merged_of_keyed {t : Table} (h : t.Keyed) : t.merged = t :=
  foldl_set [] h

theorem reads_pair {pair : TableValue × TableValue} (h : pair.1.Fits ∧ pair.2.Fits) :
    Reads readPair (writtenPair pair) pair :=
  reads_bind (TableValue.reads h.1) (reads_bind_nil (TableValue.reads h.2) (reads_pure _))

theorem reads {t : Table} (h : t.Fits) : Reads read t.written t.merged := by
  have harray : (UInt32.ofNat t.array.length).toNat = t.array.length :=
    UInt32.toNat_ofNat_of_lt' h.array_length
  have hdict : (UInt32.ofNat t.dict.length).toNat = t.dict.length :=
    UInt32.toNat_ofNat_of_lt' h.dict_length
  unfold written
  rw [List.append_assoc, List.append_assoc]
  apply reads_bind (reads_leb32_nat h.array_length)
  apply reads_bind (reads_leb32_nat h.dict_length)
  rw [harray, hdict]
  apply reads_bind (reads_times fun v hv => TableValue.reads (h.array v hv))
  apply reads_bind_nil (reads_times fun pair hpair => reads_pair (h.dict pair hpair))
  rw [List.map_id', List.map_id']
  exact reads_pure t.merged

theorem local_read : Local read := by
  apply local_bind local_leb32
  intro arraySize
  apply local_bind local_leb32
  intro dictSize
  apply local_bind (local_times TableValue.local_read _)
  intro array
  have hpair : Local readPair :=
    local_bind TableValue.local_read fun _ => local_bind TableValue.local_read fun _ => local_pure _
  exact local_bind (local_times hpair _) fun _ => local_pure _

end Table

/-! ## Constants -/

namespace Constant

/-- What follows the tag. -/
def payload : Constant → Bytes
  | child _ => []
  | table t => t.written
  | int64 n => Output.word64 n.toUInt64
  | uint64 n => Output.word64 n
  | complex z => Output.word64 z.re.bits ++ Output.word64 z.im.bits
  | string bytes => bytes

/-- The form of the constant in a dump. -/
def written (k : Constant) : Bytes := Leb128.encode k.tag ++ k.payload

/-- The tag fits 32 bits, and so does all of a table. -/
structure Fits (k : Constant) : Prop where
  tag : k.tag < 0x100000000
  table : ∀ t, k = .table t → t.Fits

/-- No key stands twice in a table. -/
def Keyed (k : Constant) : Prop := ∀ t, k = .table t → t.Keyed

instance : (k : Constant) → Decidable k.Keyed
  | table t => decidable_of_iff t.Keyed ⟨fun h _ ht => by cases ht; exact h, fun h => h t rfl⟩
  | child _ | int64 _ | uint64 _ | complex _ | string _ => isTrue fun _ ht => by cases ht

/-- The constant with another index, if it names a child. -/
def withIndex (index : Nat) : Constant → Constant
  | child _ => child index
  | k => k

/-- The constant with the pairs of one key merged, if it is a table. -/
def merged : Constant → Constant
  | table t => table t.merged
  | k => k

/-- How many of the constants name a child. -/
def childCount (ks : List Constant) : Nat := (ks.filterMap childIndex?).length

theorem write_eq_ok (k : Constant) (out : Bytes) :
    k.write = .ok out ↔ k.Fits ∧ out = k.written := by
  unfold write
  rw [andThen_eq_ok]
  refine ⟨?_, ?_⟩
  · rintro ⟨tag, htag, hout⟩
    obtain ⟨hlt, rfl⟩ := tag_eq_ok.1 htag
    cases k with
    | table t =>
      obtain ⟨payload, hpayload, hout⟩ := andThen_eq_ok.1 hout
      obtain ⟨hfits, rfl⟩ := (t.write_eq_ok payload).1 hpayload
      exact ⟨⟨hlt, fun _ h => by cases h; exact hfits⟩, pure_eq_ok.1 hout⟩
    | _ =>
      cases hout
      exact ⟨⟨hlt, fun _ h => by cases h⟩, rfl⟩
  · rintro ⟨⟨hlt, htable⟩, rfl⟩
    refine ⟨_, tag_eq_ok.2 ⟨hlt, rfl⟩, ?_⟩
    cases k with
    | table t => exact andThen_eq_ok.2 ⟨_, (t.write_eq_ok _).2 ⟨htable t rfl, rfl⟩, rfl⟩
    | _ => rfl

theorem kind_of_ge {n : Nat} (h : 5 ≤ n) : ConstantKind.ofTag n = .string := by
  obtain ⟨k, rfl⟩ : ∃ k, n = 5 + k := ⟨n - 5, by omega⟩
  rw [Nat.add_comm]
  rfl

theorem merged_of_keyed {k : Constant} (h : k.Keyed) : k.merged = k := by
  cases k with
  | table t => exact congrArg table (Table.merged_of_keyed (h t rfl))
  | _ => rfl

@[simp] theorem childIndex_merged (k : Constant) : k.merged.childIndex? = k.childIndex? := by
  cases k <;> rfl

/-- A constant comes back, but for a child constant, which gets the next index, and for a
table, whose pairs of one key are merged. -/
theorem reads {k : Constant} {pending taken : Nat} (h : k.Fits)
    (hchild : taken + k.childIndex?.toList.length ≤ pending) :
    Reads (read pending taken) k.written (k.merged.withIndex taken) := by
  have htag : (UInt32.ofNat k.tag).toNat = k.tag := UInt32.toNat_ofNat_of_lt' h.tag
  apply reads_bind (reads_leb32_nat h.tag)
  rw [htag]
  cases k with
  | child index =>
    have hlt : taken < pending := hchild
    have hread : Reads (if taken < pending then pure (Constant.child taken)
        else fail fun _ => .noPrototypeLeft) [] (Constant.child taken) := by
      rw [if_pos hlt]
      exact reads_pure _
    exact hread
  | table t =>
    exact reads_bind_nil (Table.reads (h.table t rfl)) (reads_pure _)
  | int64 n =>
    apply reads_bind_nil (reads_word64 n.toUInt64)
    rw [Int64.toInt64_toUInt64]
    exact reads_pure _
  | uint64 n => exact reads_bind_nil (reads_word64 n) (reads_pure _)
  | complex z =>
    apply reads_bind (reads_word64 z.re.bits)
    exact reads_bind_nil (reads_word64 z.im.bits) (reads_pure _)
  | string bytes =>
    simp only [Constant.tag]
    rw [kind_of_ge (by omega), Nat.add_sub_cancel_left]
    exact reads_bind_nil (reads_bytes bytes) (reads_pure _)

theorem local_read (pending taken : Nat) : Local (read pending taken) := by
  apply local_bind local_leb32
  intro tag
  split
  · exact local_ite (local_pure _) (local_fail _)
  · exact local_bind Table.local_read fun _ => local_pure _
  · exact local_bind local_word64 fun _ => local_pure _
  · exact local_bind local_word64 fun _ => local_pure _
  · exact local_bind local_word64 fun _ => local_bind local_word64 fun _ => local_pure _
  · exact local_bind (local_bytes _) fun _ => local_pure _

theorem local_readAll (pending taken count : Nat) : Local (readAll pending taken count) := by
  induction count generalizing taken with
  | zero => exact local_pure []
  | succ count ih =>
    exact local_bind (local_read pending taken) fun _ => local_bind (ih _) fun _ => local_pure _

/-! ### Numbering the children -/

@[simp] theorem childIndex_withIndex (k : Constant) (index : Nat) :
    (k.withIndex index).childIndex? = k.childIndex?.map fun _ => index := by
  cases k <;> rfl

@[simp] theorem length_childIndex_withIndex (k : Constant) (index : Nat) :
    (k.withIndex index).childIndex?.toList.length = k.childIndex?.toList.length := by
  cases k <;> rfl

theorem childCount_cons (k : Constant) (ks : List Constant) :
    childCount (k :: ks) = k.childIndex?.toList.length + childCount ks := by
  unfold childCount
  rw [List.filterMap_cons]
  cases k.childIndex? with
  | none => simp
  | some index =>
    simp
    omega

theorem childCount_reverse (ks : List Constant) : childCount ks.reverse = childCount ks := by
  simp [childCount]

/-- The constants with the children numbered in the order in which they stand. -/
def countUp : Nat → List Constant → List Constant
  | _, [] => []
  | index, k :: ks => k.withIndex index :: countUp (index + k.childIndex?.toList.length) ks

/-- The constants with each child constant naming the number of child constants that
stand after it. -/
def countDown : List Constant → List Constant
  | [] => []
  | k :: ks => k.withIndex (childCount ks) :: countDown ks

theorem countUp_append (index : Nat) (ks ls : List Constant) :
    countUp index (ks ++ ls) = countUp index ks ++ countUp (index + childCount ks) ls := by
  induction ks generalizing index with
  | nil => rfl
  | cons k ks ih =>
    rw [List.cons_append, countUp, ih, countUp, childCount_cons, Nat.add_assoc, List.cons_append]

/-- Numbered from the last to the first, the children are counted down. -/
theorem reverse_countUp_reverse (ks : List Constant) :
    (countUp 0 ks.reverse).reverse = countDown ks := by
  induction ks with
  | nil => rfl
  | cons k ks ih =>
    rw [List.reverse_cons, countUp_append, List.reverse_append, ih, childCount_reverse,
      Nat.zero_add]
    rfl

theorem reads_all {pending taken : Nat} {ks : List Constant} (h : ∀ k ∈ ks, k.Fits)
    (hchild : taken + childCount ks ≤ pending) :
    Reads (readAll pending taken ks.length) (ks.flatMap written)
      (countUp taken (ks.map merged)) := by
  induction ks generalizing taken with
  | nil => exact reads_pure []
  | cons k ks ih =>
    rw [childCount_cons] at hchild
    rw [List.flatMap_cons]
    apply reads_bind (reads (h k List.mem_cons_self) (by omega))
    rw [length_childIndex_withIndex, childIndex_merged]
    apply reads_bind_nil (ih (fun l hl => h l (List.mem_cons_of_mem k hl)) (by omega))
    rw [List.map_cons, countUp, childIndex_merged]
    exact reads_pure _

end Constant

/-! ## Numbers -/

namespace NumberConstant

theorem reads (n : NumberConstant) : Reads read n.write n := by
  cases n with
  | int n =>
    apply reads_bind_nil (reads_marked false n.toUInt32)
    change Reads (pure (NumberConstant.int n.toUInt32.toInt32)) [] _
    rw [Int32.toInt32_toUInt32]
    exact reads_pure _
  | double x =>
    apply reads_bind (reads_marked true (Word.halves x.bits).1)
    apply reads_bind_nil (reads_leb32 (Word.halves x.bits).2)
    rw [Word.join_halves]
    exact reads_pure _

theorem local_read : Local read := by
  apply local_bind local_marked
  rintro ⟨isDouble, low⟩
  exact local_ite (local_bind local_leb32 fun _ => local_pure _) (local_pure _)

end NumberConstant

end BytecodeDump
