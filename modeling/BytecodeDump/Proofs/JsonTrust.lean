-- What the reader of JSON takes on trust. The other ways to a script see to it that its version
-- is 2, that no table lists a key twice, and that an instruction has no value in an operand that
-- its opcode does not declare. The reader looks at none of these, so a script that was read
-- keeps them just where its text does.
import BytecodeDump.Proofs.JsonScript
import BytecodeDump.Proofs.NormalForm

namespace BytecodeDump

open Json

/-! ## The rules -/

/-- No table lists a key twice, and no instruction has a value in an undeclared operand. -/
structure Body.Kept (b : Body) : Prop where
  tables : ∀ k ∈ b.constants, k.Keyed
  code : ∀ i ∈ b.code, i.Clean

instance : DecidablePred Body.Kept := fun b =>
  decidable_of_iff ((∀ k ∈ b.constants, k.Keyed) ∧ ∀ i ∈ b.code, i.Clean)
    ⟨fun h => ⟨h.1, h.2⟩, fun h => ⟨h.tables, h.code⟩⟩

/-- The version is 2, and every body keeps the rules. -/
structure Script.Kept (s : Script) : Prop where
  version : s.version = 2
  bodies : ∀ x ∈ s.walk, x.2.body.Kept

/-! ## The rules of the text -/

namespace Json.Read

/-- The value of a field of a record with these names. -/
def field? (names : List String) (name : String) (v : Value) : Option Value :=
  (record names v).bind (get · name)

/-- The items of an array that is such a field. -/
def items (names : List String) (name : String) (v : Value) : List Value :=
  match field? names name v with
  | some (.array vs) => vs
  | _ => []

end Json.Read

/-- Each operand whose slot is false is zero. -/
def Instruction.SaysClean (v : Value) : Prop :=
  ∀ name ∈ OperandSlots.fieldNames,
    ((Read.field? fieldNames "slots" v).bind (Read.field? OperandSlots.fieldNames name)).bind
      Read.bool = some false → (Read.field? fieldNames name v).bind (Read.nat 1) = some 0

/-- The keys of the pairs, as they are read. -/
def Table.keysSaid (room : Nat) (v : Value) : List (Option TableValue) :=
  (Read.items fieldNames "dict" v).map fun pair =>
    (Read.pair TableValue.ofJson (room - 2) pair).map (·.1)

/-- No two pairs have keys that read alike. -/
def Table.SaysKeyed (room : Nat) (v : Value) : Prop := (keysSaid room v).Nodup

/-- What is named a table is one without repeated keys. -/
def Constant.SaysKeyed (room : Nat) (v : Value) : Prop :=
  ∀ said room', Read.variant room v = some ("Table", some said, room') → Table.SaysKeyed room' said

/-- The rules for a prototype and for those below it. -/
def Prototype.SaysKept : Nat → Value → Prop
  | room + 2, v =>
    (∀ k ∈ Read.items fieldNames "constants" v, Constant.SaysKeyed room k) ∧
      (∀ i ∈ Read.items fieldNames "code" v, Instruction.SaysClean i) ∧
        ∀ child ∈ Read.items fieldNames "children" v, SaysKept room child
  | _, _ => True

/-- The rules for a script. -/
def Script.SaysKept (v : Value) : Prop :=
  (Read.field? fieldNames "version" v).bind (Read.nat 0x100) = some 2 ∧
    ∀ root, Read.field? fieldNames "root" v = some root → Prototype.SaysKept (maxLevels - 1) root

/-! ## Forms of values -/

namespace Json.Read

/-- What is read as a number below a bound is read as one below 1 just where it is zero. -/
theorem nat_eq_some {bound n : Nat} {v : Value} (h : nat bound v = some n) :
    n < bound ∧ (nat 1 v = some 0 ↔ n = 0) := by
  cases v with
  | number m =>
    obtain ⟨i, hi, rfl⟩ := Option.map_eq_some_iff.1 h
    obtain ⟨hi, hrange⟩ := Option.filter_eq_some_iff.1 hi
    simp only [decide_eq_true_eq] at hrange
    refine ⟨by omega, ?_⟩
    rw [nat, int, hi, Option.filter_some]
    rcases eq_or_ne i 0 with rfl | hne
    · decide
    · rw [if_neg (by simp; omega)]
      simp
      omega
  | _ => cases h

theorem field_eq_get {names : List String} {v : Value} {fields : Fields}
    (h : record names v = some fields) (name : String) : field? names name v = get fields name := by
  rw [field?, h, Option.bind_some]

/-- A field that was read as a number below a bound. -/
theorem bind_nat_eq_some {bound n : Nat} {v : Option Value} (h : v.bind (nat bound) = some n) :
    n < bound ∧ (v.bind (nat 1) = some 0 ↔ n = 0) := by
  obtain ⟨v, rfl, h⟩ := Option.bind_eq_some_iff.1 h
  exact nat_eq_some h

theorem bind_nat_uint8 {n : UInt8} {v : Option Value} (h : v.bind (nat 0x100) = some n.toNat) :
    v.bind (nat 1) = some 0 ↔ n = 0 := by
  rw [(bind_nat_eq_some h).2, ← UInt8.toNat_inj, UInt8.toNat_zero]

theorem bind_nat_uint16 {n : UInt16} {v : Option Value} (h : v.bind (nat 0x10000) = some n.toNat) :
    v.bind (nat 1) = some 0 ↔ n = 0 := by
  rw [(bind_nat_eq_some h).2, ← UInt16.toNat_inj, UInt16.toNat_zero]

section Lists

variable {α : Type}

theorem forall₂_of_mapM {f : Value → Option α} {vs : List Value} {xs : List α}
    (h : vs.mapM f = some xs) : List.Forall₂ (fun v x => f v = some x) vs xs := by
  induction vs generalizing xs with
  | nil =>
    cases h
    exact .nil
  | cons v vs ih =>
    rw [List.mapM_cons] at h
    obtain ⟨x, hx, h⟩ := Option.bind_eq_some_iff.1 h
    obtain ⟨xs, hxs, h⟩ := Option.bind_eq_some_iff.1 h
    cases h
    exact .cons hx (ih hxs)

/-- A rule holds of what was read item by item just where it holds of the items. -/
theorem forall_of_mapM {f : Value → Option α} {P : α → Prop} {Q : Value → Prop}
    {vs : List Value} {xs : List α} (h : vs.mapM f = some xs)
    (hrule : ∀ v x, f v = some x → (P x ↔ Q v)) : (∀ x ∈ xs, P x) ↔ ∀ v ∈ vs, Q v := by
  have hread := forall₂_of_mapM h
  clear h
  induction hread with
  | nil => simp
  | cons hx _ ih =>
    rw [List.forall_mem_cons, List.forall_mem_cons]
    exact and_congr (hrule _ _ hx) ih

theorem exists_of_mapM {f : Value → Option α} {vs : List Value} {xs : List α} {x : α}
    (h : vs.mapM f = some xs) (hx : x ∈ xs) : ∃ v ∈ vs, f v = some x := by
  have hread := forall₂_of_mapM h
  clear h
  induction hread with
  | nil => cases hx
  | cons hfirst _ ih =>
    rcases List.mem_cons.1 hx with rfl | hx
    · exact ⟨_, List.mem_cons_self, hfirst⟩
    · obtain ⟨v, hv, hread⟩ := ih hx
      exact ⟨v, List.mem_cons_of_mem _ hv, hread⟩

theorem map_of_mapM {β : Type} {f : Value → Option α} {said : Value → β} {back : α → β}
    {vs : List Value} {xs : List α} (h : vs.mapM f = some xs)
    (hrule : ∀ v x, f v = some x → said v = back x) : vs.map said = xs.map back := by
  rw [← List.forall₂_eq_eq_eq, List.forall₂_map_left_iff, List.forall₂_map_right_iff]
  exact (forall₂_of_mapM h).imp fun v x hx => hrule v x hx

/-- A list that was read is that of the items of its field. -/
theorem items_of_list {item : Read α} {names : List String} {name : String} {room : Nat}
    {v : Value} {fields : Fields} {xs : List α} (hfields : record names v = some fields)
    (h : (get fields name).bind (list item room) = some xs) :
    (items names name v).mapM (item (room - 1)) = some xs := by
  obtain ⟨listed, hget, h⟩ := Option.bind_eq_some_iff.1 h
  cases room with
  | zero => cases h
  | succ room =>
    cases listed with
    | array vs =>
      rw [items, field?, hfields, Option.bind_some, hget]
      exact h
    | _ => cases h

end Lists

end Json.Read

/-! ## Instructions -/

theorem OperandSlots.ofJson_eq_some {room : Nat} {v : Value} {s : OperandSlots}
    (h : ofJson room v = some s) :
    (Read.field? fieldNames "a" v).bind Read.bool = some s.a ∧
      (Read.field? fieldNames "b" v).bind Read.bool = some s.b ∧
      (Read.field? fieldNames "c" v).bind Read.bool = some s.c ∧
      (Read.field? fieldNames "d" v).bind Read.bool = some s.d := by
  cases room with
  | zero => cases h
  | succ room =>
    obtain ⟨fields, hfields, h⟩ := Option.bind_eq_some_iff.1 h
    obtain ⟨a, ha, h⟩ := Option.bind_eq_some_iff.1 h
    obtain ⟨b, hb, h⟩ := Option.bind_eq_some_iff.1 h
    obtain ⟨c, hc, h⟩ := Option.bind_eq_some_iff.1 h
    obtain ⟨d, hd, h⟩ := Option.bind_eq_some_iff.1 h
    cases h
    simp only [Read.field_eq_get hfields]
    exact ⟨ha, hb, hc, hd⟩

namespace Instruction

theorem ofJson_eq_some {room : Nat} {v : Value} {i : Instruction} (h : ofJson room v = some i) :
    (Read.field? fieldNames "slots" v).bind (OperandSlots.ofJson (room - 1)) = some i.slots ∧
      (Read.field? fieldNames "a" v).bind (Read.nat 0x100) = some i.a.toNat ∧
      (Read.field? fieldNames "b" v).bind (Read.nat 0x100) = some i.b.toNat ∧
      (Read.field? fieldNames "c" v).bind (Read.nat 0x100) = some i.c.toNat ∧
      (Read.field? fieldNames "d" v).bind (Read.nat 0x10000) = some i.d.toNat := by
  cases room with
  | zero => cases h
  | succ room =>
    obtain ⟨fields, hfields, h⟩ := Option.bind_eq_some_iff.1 h
    obtain ⟨opcode, -, h⟩ := Option.bind_eq_some_iff.1 h
    obtain ⟨slots, hslots, h⟩ := Option.bind_eq_some_iff.1 h
    obtain ⟨a, ha, h⟩ := Option.bind_eq_some_iff.1 h
    obtain ⟨b, hb, h⟩ := Option.bind_eq_some_iff.1 h
    obtain ⟨c, hc, h⟩ := Option.bind_eq_some_iff.1 h
    obtain ⟨d, hd, h⟩ := Option.bind_eq_some_iff.1 h
    cases h
    simp only [Read.field_eq_get hfields]
    refine ⟨hslots, ?_, ?_, ?_, ?_⟩
    · rw [ha, UInt8.toNat_ofNat_of_lt' (Read.bind_nat_eq_some ha).1]
    · rw [hb, UInt8.toNat_ofNat_of_lt' (Read.bind_nat_eq_some hb).1]
    · rw [hc, UInt8.toNat_ofNat_of_lt' (Read.bind_nat_eq_some hc).1]
    · rw [hd, UInt16.toNat_ofNat_of_lt' (Read.bind_nat_eq_some hd).1]

theorem clean_of_ofJson {room : Nat} {v : Value} {i : Instruction} (h : ofJson room v = some i) :
    i.Clean ↔ SaysClean v := by
  obtain ⟨hslots, ha, hb, hc, hd⟩ := ofJson_eq_some h
  obtain ⟨said, hsaid, hslots⟩ := Option.bind_eq_some_iff.1 hslots
  obtain ⟨hsa, hsb, hsc, hsd⟩ := OperandSlots.ofJson_eq_some hslots
  unfold SaysClean
  simp only [OperandSlots.fieldNames, List.forall_mem_cons] at hsa hsb hsc hsd ⊢
  simp only [hsaid, Option.bind_some, hsa, hsb, hsc, hsd, Read.bind_nat_uint8 ha,
    Read.bind_nat_uint8 hb, Read.bind_nat_uint8 hc, Read.bind_nat_uint16 hd, Option.some.injEq]
  exact ⟨fun h => ⟨h.a, h.b, h.c, h.d, by simp⟩, fun h => ⟨h.1, h.2.1, h.2.2.1, h.2.2.2.1⟩⟩

end Instruction

/-! ## Tables -/

namespace Table

theorem keyed_of_ofJson {room : Nat} {v : Value} {t : Table} (h : ofJson room v = some t) :
    t.Keyed ↔ SaysKeyed room v := by
  cases room with
  | zero => cases h
  | succ room =>
    obtain ⟨fields, hfields, h⟩ := Option.bind_eq_some_iff.1 h
    obtain ⟨array, -, h⟩ := Option.bind_eq_some_iff.1 h
    obtain ⟨dict, hdict, h⟩ := Option.bind_eq_some_iff.1 h
    cases h
    have hkeys : keysSaid (room + 1) v = dict.map fun pair => some pair.1 := by
      refine Read.map_of_mapM (Read.items_of_list hfields hdict) fun said pair hpair => ?_
      rw [Nat.succ_sub_succ, hpair, Option.map_some]
    rw [SaysKeyed, hkeys, Keyed, keys, ← List.nodup_map_iff (Option.some_injective _),
      List.map_map]
    rfl

end Table

namespace Constant

theorem keyed_of_ofJson {room : Nat} {v : Value} {k : Constant} (h : ofJson room v = some k) :
    k.Keyed ↔ SaysKeyed room v := by
  obtain ⟨named, hvariant, h⟩ := Option.bind_eq_some_iff.1 h
  unfold SaysKeyed
  rw [hvariant]
  split at h
  case h_2 said room' =>
    obtain ⟨t, ht, rfl⟩ := Option.map_eq_some_iff.1 h
    have hsaid := Table.keyed_of_ofJson ht
    refine ⟨?_, ?_⟩
    · rintro hkeyed _ _ ⟨⟩
      exact hsaid.1 (hkeyed t rfl)
    · rintro hrules _ ⟨⟩
      exact hsaid.2 (hrules said room' rfl)
  case h_7 => cases h
  all_goals
    obtain ⟨_, -, rfl⟩ := Option.map_eq_some_iff.1 h
    exact iff_of_true (fun _ ht => by cases ht) (fun _ _ hsaid => by simp at hsaid)

end Constant

/-! ## Trees -/

theorem Body.kept_of_ofJsonFields {room : Nat} {names : List String} {v : Value}
    {fields : Read.Fields} {b : Body} (hfields : Read.record names v = some fields)
    (h : ofJsonFields room fields = some b) :
    b.Kept ↔ (∀ k ∈ Read.items names "constants" v, Constant.SaysKeyed (room - 1) k) ∧
      ∀ i ∈ Read.items names "code" v, Instruction.SaysClean i := by
  obtain ⟨flags, -, h⟩ := Option.bind_eq_some_iff.1 h
  obtain ⟨args, -, h⟩ := Option.bind_eq_some_iff.1 h
  obtain ⟨maxSlot, -, h⟩ := Option.bind_eq_some_iff.1 h
  obtain ⟨debug, -, h⟩ := Option.bind_eq_some_iff.1 h
  obtain ⟨code, hcode, h⟩ := Option.bind_eq_some_iff.1 h
  obtain ⟨upvalues, -, h⟩ := Option.bind_eq_some_iff.1 h
  obtain ⟨constants, hconstants, h⟩ := Option.bind_eq_some_iff.1 h
  obtain ⟨numbers, -, h⟩ := Option.bind_eq_some_iff.1 h
  cases h
  rw [← Read.forall_of_mapM (Read.items_of_list hfields hconstants)
      fun _ _ hk => Constant.keyed_of_ofJson hk,
    ← Read.forall_of_mapM (Read.items_of_list hfields hcode)
      fun _ _ hi => Instruction.clean_of_ofJson hi]
  exact ⟨fun h => ⟨h.tables, h.code⟩, fun h => ⟨h.1, h.2⟩⟩

namespace Prototype

theorem kept_of_ofJson {room : Nat} {v : Value} {p : Prototype} (h : ofJson room v = some p)
    (path : Path) : (∀ x ∈ p.walk path, x.2.body.Kept) ↔ SaysKept room v := by
  induction room using Nat.twoStepInduction generalizing v p path with
  | zero => cases h
  | one => cases h
  | more room ih _ =>
    obtain ⟨fields, hfields, h⟩ := Option.bind_eq_some_iff.1 h
    obtain ⟨body, hbody, h⟩ := Option.bind_eq_some_iff.1 h
    obtain ⟨listed, hlisted, h⟩ := Option.bind_eq_some_iff.1 h
    cases listed with
    | array vs =>
      obtain ⟨children, hchildren, h⟩ := Option.bind_eq_some_iff.1 h
      cases h
      have hitems : Read.items fieldNames "children" v = vs := by
        rw [Read.items, Read.field_eq_get hfields, hlisted]
      have hbelow : (∀ (k : Nat) (c : Prototype), children[k]? = some c →
          ∀ x ∈ c.walk (path.child k), x.2.body.Kept) ↔ ∀ child ∈ vs, SaysKept room child := by
        have hall := Read.forall_of_mapM hchildren (P := fun c => ∀ path, ∀ x ∈ c.walk path,
          x.2.body.Kept) fun _ _ hc => ⟨fun h => (ih hc .root).1 (h .root), fun h path =>
            (ih hc path).2 h⟩
        refine ⟨fun h => hall.1 fun c hc other => ?_, fun h k c hk =>
          hall.2 h c (List.mem_of_getElem? hk) (path.child k)⟩
        -- The rules do not look at the path, so a child keeps them at every one.
        obtain ⟨k, hk⟩ := List.mem_iff_getElem?.1 hc
        obtain ⟨said, -, hsaid⟩ := Read.exists_of_mapM hchildren hc
        exact (ih hsaid other).2 ((ih hsaid (path.child k)).1 (h k c hk))
      rw [forall_walk_node, hbelow, SaysKept, hitems, ← and_assoc]
      exact and_congr_left' (Body.kept_of_ofJsonFields hfields hbody)
    | _ => cases h

end Prototype

/-! ## The law -/

namespace Script

/-- A script that was read from JSON text keeps the rules where its text says so, and only
there. -/
theorem read_scripts_keep_what_their_text_keeps {text : String} {s : Script}
    (h : parseJson? text = some s) :
    s.Kept ↔ ∃ v, Value.parse? text = some v ∧ SaysKept v := by
  obtain ⟨v, hv, h⟩ := Option.bind_eq_some_iff.1 h
  obtain ⟨fields, hfields, h⟩ := Option.bind_eq_some_iff.1 h
  obtain ⟨version, hversion, h⟩ := Option.bind_eq_some_iff.1 h
  obtain ⟨flags, -, h⟩ := Option.bind_eq_some_iff.1 h
  obtain ⟨chunkName, -, h⟩ := Option.bind_eq_some_iff.1 h
  obtain ⟨root, hroot, h⟩ := Option.bind_eq_some_iff.1 h
  cases h
  obtain ⟨said, hsaid, hroot⟩ := Option.bind_eq_some_iff.1 hroot
  have hlt := (Read.bind_nat_eq_some hversion).1
  have hkept := Prototype.kept_of_ofJson hroot .root
  have hrules : SaysKept v ↔ version = 2 ∧ Prototype.SaysKept (maxLevels - 1) said := by
    rw [SaysKept, Read.field_eq_get hfields, Read.field_eq_get hfields, hversion, hsaid]
    simp
  have hwritten : UInt8.ofNat version = 2 ↔ version = 2 := by
    rw [← UInt8.toNat_inj, UInt8.toNat_ofNat_of_lt' hlt]
    rfl
  refine ⟨fun h => ⟨v, hv, hrules.2 ⟨hwritten.1 h.version, hkept.1 h.bodies⟩⟩, ?_⟩
  rintro ⟨w, hw, hsaid⟩
  obtain rfl : v = w := Option.some.inj (hv.symm.trans hw)
  obtain ⟨hversion, hbodies⟩ := hrules.1 hsaid
  exact ⟨hwritten.2 hversion, hkept.2 hbodies⟩

theorem wideScript_says_so : parseJson? wideScript.toJson.compact = some wideScript.unlink ∧
    wideScript.unlink.Kept ∧
    ∃ v, Value.parse? wideScript.toJson.compact = some v ∧ SaysKept v := by
  have hparse : parseJson? wideScript.toJson.compact = some wideScript.unlink :=
    parseJson_toJson (by decide +kernel) (by decide +kernel)
  have hkept : wideScript.unlink.Kept := ⟨rfl, by decide +kernel⟩
  exact ⟨hparse, hkept, (read_scripts_keep_what_their_text_keeps hparse).1 hkept⟩

/-- A script of version 7 with a key that stands twice and an operand without a slot. -/
def unkeptScript : Script where
  version := 7
  root := .node
    { code := [⟨14, ⟨false, false, false, true⟩, 5, 0, 0, 3⟩]
      constants := [.table ⟨[], [(.int32 1, .nil), (.int32 1, .bool true)]⟩] }
    none []

theorem unkeptScript_is_read : parseJson? unkeptScript.toJson.compact = some unkeptScript ∧
    unkeptScript.version ≠ 2 ∧ (∃ k ∈ unkeptScript.root.body.constants, ¬k.Keyed) ∧
    ∃ i ∈ unkeptScript.root.body.code, ¬i.Clean := by
  have hunlink : unkeptScript.unlink = unkeptScript := rfl
  have hparse := parseJson_toJson (s := unkeptScript) (by decide +kernel) (by decide +kernel)
  rw [hunlink] at hparse
  exact ⟨hparse, by decide, by decide +kernel, by decide +kernel⟩

end Script

end BytecodeDump
