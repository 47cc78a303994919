-- The sections of a record: its length, what stands before the constants, the constants and the
-- numbers, each with bytes of its own, and the debug block. Every dump that is decoded is a
-- header, records in such sections, and a zero.
import BytecodeDump.Proofs.Reencoding

namespace BytecodeDump

open Reader

/-! ## Repetition, item by item -/

/-- Each item that was found has its own bytes. -/
theorem Reader.times_eq_ok {α : Type} {step : Reader α} (hstep : Local step) {count : Nat}
    {f f' : Feed} {found : List α} (h : times step count f = .ok (found, f')) :
    ∃ items : List (Bytes × α), items.map (·.2) = found ∧ items.length = count ∧
      f.rest = items.flatMap (·.1) ++ f'.rest ∧ ∀ x ∈ items, Reads step x.1 x.2 := by
  induction count generalizing f found with
  | zero =>
    cases h
    exact ⟨[], rfl, rfl, rfl, by simp⟩
  | succ count ih =>
    obtain ⟨first, f₁, hfirst, h⟩ := bind_eq_ok.1 h
    obtain ⟨others, f₂, hothers, h⟩ := bind_eq_ok.1 h
    cases h
    obtain ⟨bytes, hrest, -, hreads⟩ := hstep _ _ _ hfirst
    obtain ⟨items, rfl, rfl, hitems, hall⟩ := ih hothers
    refine ⟨(bytes, first) :: items, rfl, rfl, ?_, ?_⟩
    · rw [hrest, hitems, List.flatMap_cons, List.append_assoc]
    · simpa using ⟨hreads, fun a b hab => hall (a, b) hab⟩

namespace Constant

/-- Constants with their bytes, as they stand one after the other in a record of which `taken`
children were taken before. A child constant has the number of those before it. -/
inductive Stored : Nat → List (Bytes × Constant) → Prop
  | nil (taken : Nat) : Stored taken []
  | cons {taken pending : Nat} {bytes : Bytes} {k : Constant} {items : List (Bytes × Constant)}
      (first : Reads (read pending taken) bytes k)
      (others : Stored (taken + k.childIndex?.toList.length) items) :
      Stored taken ((bytes, k) :: items)

theorem readAll_eq_ok {pending taken count : Nat} {f f' : Feed} {ks : List Constant}
    (h : readAll pending taken count f = .ok (ks, f')) :
    ∃ items : List (Bytes × Constant), items.map (·.2) = ks ∧ items.length = count ∧
      f.rest = items.flatMap (·.1) ++ f'.rest ∧ Stored taken items := by
  induction count generalizing taken f ks with
  | zero =>
    cases h
    exact ⟨[], rfl, rfl, rfl, .nil taken⟩
  | succ count ih =>
    obtain ⟨k, f₁, hk, h⟩ := bind_eq_ok.1 h
    obtain ⟨others, f₂, hothers, h⟩ := bind_eq_ok.1 h
    cases h
    obtain ⟨bytes, hrest, -, hreads⟩ := local_read pending taken _ _ _ hk
    obtain ⟨items, rfl, rfl, hitems, hstored⟩ := ih hothers
    refine ⟨(bytes, k) :: items, rfl, rfl, ?_, .cons hreads hstored⟩
    rw [hrest, hitems, List.flatMap_cons, List.append_assoc]

/-- The child constants are numbered in the order in which they stand. -/
theorem Stored.childIndices {taken : Nat} {items : List (Bytes × Constant)}
    (h : Stored taken items) :
    (items.map (·.2)).filterMap childIndex? =
      List.range' taken (childCount (items.map (·.2))) := by
  induction h with
  | nil taken => rfl
  | @cons taken pending bytes k items first others ih =>
    rw [List.map_cons, childCount_cons]
    rcases read_cases (first 0 []) with ⟨rfl, -⟩ | ⟨hnone, -⟩
    · rw [List.filterMap_cons_some (f := childIndex?) rfl, ih, childIndex?, Option.toList_some,
        List.length_singleton, Nat.add_comm 1, List.range'_succ]
    · rw [hnone] at ih ⊢
      rw [List.filterMap_cons_none (f := childIndex?) hnone, ih]
      simp

end Constant

/-! ## Records -/

/-- A record in its sections, each with its bytes and what these say. -/
structure Record where
  /-- The number before the body. -/
  length : Bytes
  front : Bytes × Body.Front
  constants : List (Bytes × Constant)
  numbers : List (Bytes × NumberConstant)
  debug : Bytes × Option DebugInfo

namespace Record

/-- The bytes of the body. -/
def inside (r : Record) : Bytes :=
  r.front.1 ++ r.constants.flatMap (·.1) ++ r.numbers.flatMap (·.1) ++ r.debug.1

/-- The bytes of the record. -/
def bytes (r : Record) : Bytes := r.length ++ r.inside

/-- The constants in the order in which they stand in the record. -/
def entries (r : Record) : List Constant := r.constants.map (·.2)

/-- The body: its constants and its numbers stand the other way round. -/
def body (table : OpcodeTable) (r : Record) : Body :=
  r.front.2.body table r.entries.reverse (r.numbers.map (·.2)).reverse r.debug.2

/-- The bytes of each section say what the section holds, and there are as many constants and
numbers as the front of the body says. -/
structure Sound (layout : Layout) (r : Record) : Prop where
  length : Leb128.Spells r.length r.inside.length
  front : Reads (Body.readFront layout) r.front.1 r.front.2
  constant_count : r.constants.length = r.front.2.constantCount.toNat
  number_count : r.numbers.length = r.front.2.numberCount.toNat
  constants : Constant.Stored 0 r.constants
  numbers : ∀ x ∈ r.numbers, Reads NumberConstant.read x.1 x.2
  debug : Reads (r.front.2.readBlock layout) r.debug.1 r.debug.2

/-- A record that was read has its sections. -/
theorem exists_of_readRecord {table : OpcodeTable} {layout : Layout} {pending : Nat} {f f' : Feed}
    {b : Body} (h : Body.readRecord table layout pending f = .ok (b, f')) :
    ∃ r : Record, r.Sound layout ∧ f.rest = r.bytes ++ f'.rest ∧ b = r.body table := by
  obtain ⟨length, bytes, hrest, -, -, hlength, hbody⟩ := Body.readRecord_eq_ok h
  have hread := hbody 0 []
  rw [Body.read_eq, List.append_nil] at hread
  obtain ⟨front, f₁, hfront, hread⟩ := bind_eq_ok.1 hread
  obtain ⟨constants, f₂, hconstants, hread⟩ := bind_eq_ok.1 hread
  obtain ⟨numbers, f₃, hnumbers, hread⟩ := bind_eq_ok.1 hread
  obtain ⟨debug, f₄, hdebug, hread⟩ := bind_eq_ok.1 hread
  cases hread
  obtain ⟨frontBytes, (hrest₁ : bytes = _), -, hfront⟩ := Body.local_readFront _ _ _ _ hfront
  obtain ⟨constants, rfl, hcount, hrest₂, hstored⟩ := Constant.readAll_eq_ok hconstants
  obtain ⟨numbers, rfl, hcount', hrest₃, hnumbers⟩ :=
    times_eq_ok NumberConstant.local_read hnumbers
  obtain ⟨debugBytes, (hrest₄ : f₃.rest = debugBytes ++ []), -, hdebug⟩ :=
    front.local_readBlock layout _ _ _ hdebug
  let r : Record := ⟨length, (frontBytes, front), constants, numbers, (debugBytes, debug)⟩
  have hinside : r.inside = bytes := by
    rw [hrest₁, hrest₂, hrest₃, hrest₄, List.append_nil, ← List.append_assoc, ← List.append_assoc]
    rfl
  refine ⟨r, ⟨?_, hfront, hcount, hcount', hstored, hnumbers, hdebug⟩, ?_, rfl⟩
  · rw [hinside]
    exact hlength
  · rw [Record.bytes, hinside]
    exact hrest

end Record

/-! ## Dumps -/

theorem Prototype.exists_records {table : OpcodeTable} {layout : Layout} {steps : Nat}
    {stack out : List Prototype} {f f' : Feed}
    (h : readAll table layout steps stack f = .ok (out, f')) :
    ∃ records : List Record, (∀ r ∈ records, r.Sound layout) ∧
      f.rest = records.flatMap Record.bytes ++ 0 :: f'.rest ∧
      build stack (records.map (Record.body table)) = some out := by
  induction steps generalizing stack f with
  | zero => cases h
  | succ steps ih =>
    obtain ⟨lead, f₁, hlead, h⟩ := bind_eq_ok.1 h
    obtain ⟨pos, _ | ⟨byte, rest⟩⟩ := f
    · cases hlead
    · cases hlead
      by_cases hzero : lead = 0
      · rw [if_pos hzero] at h
        cases h
        exact ⟨[], by simp, by rw [hzero]; rfl, rfl⟩
      · rw [if_neg hzero] at h
        obtain ⟨b, f₂, hrecord, h⟩ := bind_eq_ok.1 h
        have hpush := push_of_readRecord table hrecord
        obtain ⟨r, hsound, hrest, rfl⟩ := Record.exists_of_readRecord hrecord
        obtain ⟨records, hall, hrest', hbuild⟩ := ih h
        refine ⟨r :: records, ?_, ?_, ?_⟩
        · simpa using ⟨hsound, hall⟩
        · rw [hrest, hrest', List.flatMap_cons, List.append_assoc]
        · rw [List.map_cons, build_cons, hpush]
          exact hbuild

/-- A dump that is decoded is a header, records in their sections, and a zero; and the records
make the tree. -/
theorem Script.exists_records {table : OpcodeTable} {bytes : Bytes} {s : Script}
    (h : decode table bytes = .ok s) :
    ∃ (header : Bytes) (head : Script) (records : List Record) (root : Prototype),
      IsHeader header head ∧ (∀ r ∈ records, r.Sound head.layout) ∧
      bytes = header ++ (records.flatMap Record.bytes ++ [0]) ∧
      Prototype.build [] (records.map (Record.body table)) = some [root] ∧
      s = linkParents { head with root } := by
  have hmagic : bytes.take 3 = magic := by
    by_contra hne
    rw [decode, if_neg hne] at h
    cases h
  obtain ⟨f', hread⟩ : ∃ f', read table ⟨3, bytes.drop 3⟩ = .ok (s, f') := by
    rw [decode, if_pos hmagic] at h
    cases hread : read table ⟨3, bytes.drop 3⟩ with
    | error fault =>
      rw [hread] at h
      cases h
    | ok found =>
      rw [hread] at h
      cases h
      exact ⟨found.2, rfl⟩
  rw [read_eq] at hread
  obtain ⟨head, f₁, hhead, htree⟩ := bind_eq_ok.1 hread
  obtain ⟨taken, (hrest : bytes.drop 3 = taken ++ f₁.rest), -, hreads⟩ :=
    local_readHeader _ _ _ hhead
  have hheader : IsHeader (magic ++ taken) head := by
    refine ⟨rfl, ?_⟩
    have hall := hreads 3 []
    rw [List.append_nil] at hall
    have hlength : (magic ++ taken).length = 3 + taken.length := List.length_append
    rw [hlength]
    exact hall
  rw [readTree, left_bind] at htree
  obtain ⟨stack, f₂, hrecords, htree⟩ := bind_eq_ok.1 htree
  obtain ⟨records, hsound, hrest', hbuild⟩ := Prototype.exists_records hrecords
  rw [left_bind] at htree
  by_cases hempty : f₂.rest.length = 0
  · rw [if_neg (not_not.2 hempty)] at htree
    obtain ⟨root, rfl⟩ : ∃ root, stack = [root] := by
      rcases stack with _ | ⟨root, _ | ⟨other, others⟩⟩
      · cases htree
      · exact ⟨root, rfl⟩
      · cases htree
    cases htree
    refine ⟨magic ++ taken, head, records, root, hheader, hsound, ?_, hbuild, rfl⟩
    rw [← List.take_append_drop 3 bytes, hmagic, hrest, hrest',
      List.length_eq_zero_iff.1 hempty, List.append_assoc]
  · rw [if_pos hempty] at htree
    cases htree

end BytecodeDump
