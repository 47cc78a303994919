-- Which dumps have a JSON text that is accepted. The text of a number that is not finite is
-- null, and no number is null, so a script is accepted exactly where it has only finite
-- numbers; everything else in a dump is accepted as it is written.
import BytecodeDump.Opcode.InstructionSet
import BytecodeDump.Proofs.JsonDouble
import BytecodeDump.Proofs.JsonScript
import BytecodeDump.Proofs.NormalForm

namespace BytecodeDump

open Json

/-! ## Steps that may fail -/

namespace Json.Read

theorem isSome_bind {α β : Type} {x : Option α} {f : α → Option β} {p : Prop}
    (h : ∀ a, (f a).isSome = true ↔ p) :
    (x.bind f).isSome = true ↔ x.isSome = true ∧ p := by
  cases x with
  | none => simp
  | some a => simp [h a]

theorem isSome_mapM {α β γ : Type} {write : α → γ} {read : γ → Option β} {xs : List α} :
    ((xs.map write).mapM read).isSome = true ↔ ∀ x ∈ xs, (read (write x)).isSome = true := by
  induction xs with
  | nil => simp
  | cons x xs ih =>
    rw [List.map_cons, List.mapM_cons, List.forall_mem_cons, ← ih]
    refine isSome_bind fun y => ?_
    cases (xs.map write).mapM read <;> simp

theorem isSome_list {α β : Type} {item : Read β} {toJson : α → Value} {room : Nat} {xs : List α} :
    (list item (room + 1) (.array (xs.map toJson))).isSome = true ↔
      ∀ x ∈ xs, (item room (toJson x)).isSome = true := isSome_mapM

end Json.Read

/-! ## Constants -/

namespace Complex

/-- Both parts are finite. -/
def Finite (z : Complex) : Prop := z.re.isFinite = true ∧ z.im.isFinite = true

instance : DecidablePred Finite := fun _ => inferInstanceAs (Decidable (_ ∧ _))

theorem readable (z : Complex) : z.toJson.Readable :=
  Value.readable_of_names fieldNames rfl (by decide) (by simp [Double.readable])

theorem isSome_ofJson (z : Complex) {room : Nat} (h : 1 ≤ room) :
    (ofJson room z.toJson).isSome = true ↔ z.Finite := by
  obtain ⟨room, rfl⟩ := Nat.exists_eq_add_of_le' h
  rw [toJson, ofJson, Read.record_record fieldNames rfl (by decide)]
  simp only [Read.get_self, Read.get_other, ne_eq, String.reduceEq, not_false_eq_true,
    Option.bind_eq_bind, Option.bind_some]
  rw [Read.isSome_bind fun _ => Read.isSome_bind (p := True) fun _ => by simp,
    Double.isSome_double_toJson, Double.isSome_double_toJson, and_true, Finite]

end Complex

namespace Constant

/-- No part of the constant is infinite or no number. -/
def Finite : Constant → Prop
  | complex z => z.Finite
  | _ => True

instance : DecidablePred Finite
  | complex z => inferInstanceAs (Decidable z.Finite)
  | child _ | table _ | int64 _ | uint64 _ | string _ => isTrue trivial

/-- Its index fits 64 bits, if it is one of a child. -/
def Indexed (k : Constant) : Prop := ∀ index ∈ k.childIndex?, index < 0x10000000000000000

theorem whole_of_indexed {k : Constant} (h : k.Indexed) : k.Whole ∨ ∃ z, k = complex z := by
  cases k with
  | child index => exact .inl (h index rfl)
  | complex z => exact .inr ⟨z, rfl⟩
  | _ => exact .inl trivial

theorem readable_always (k : Constant) : k.toJson.Readable := by
  cases k with
  | child index => exact Value.readable_variant (by decide) (Value.readable_nat _)
  | complex z => exact Value.readable_variant (by decide) z.readable
  | _ => exact readable trivial

theorem finite_of_whole {k : Constant} (h : k.Whole) : k.Finite := by
  cases k with
  | complex z => cases h
  | _ => trivial

theorem isSome_ofJson {k : Constant} (h : k.Indexed) {room : Nat} (hroom : 6 ≤ room) :
    (ofJson room k.toJson).isSome = true ↔ k.Finite := by
  rcases whole_of_indexed h with hwhole | ⟨z, rfl⟩
  · rw [ofJson_toJson hwhole hroom]
    exact iff_of_true rfl (finite_of_whole hwhole)
  · rw [toJson, ofJson, Read.variant_variant (by omega)]
    simp only [Option.bind_eq_bind, Option.bind_some, Option.isSome_map]
    exact z.isSome_ofJson (by omega)

end Constant

namespace NumberConstant

/-- An integer or a finite double. -/
def Finite : NumberConstant → Prop
  | int _ => True
  | double x => x.isFinite = true

instance : DecidablePred Finite
  | int _ => isTrue trivial
  | double x => inferInstanceAs (Decidable (x.isFinite = true))

theorem readable_always (n : NumberConstant) : n.toJson.Readable := by
  cases n with
  | int n => exact Value.readable_variant (by decide) (Value.readable_int _)
  | double x => exact Value.readable_variant (by decide) x.readable

theorem isSome_ofJson (n : NumberConstant) {room : Nat} (h : 1 ≤ room) :
    (ofJson room n.toJson).isSome = true ↔ n.Finite := by
  cases n with
  | int n =>
    rw [ofJson_toJson (n := int n) trivial h]
    exact iff_of_true rfl trivial
  | double x =>
    rw [toJson, ofJson, Read.variant_variant h]
    simp only [Option.bind_eq_bind, Option.bind_some, Option.isSome_map]
    exact x.isSome_double_toJson

end NumberConstant

/-! ## Bodies -/

namespace Body

/-- All numbers of the body are finite. -/
structure Finite (b : Body) : Prop where
  constants : ∀ k ∈ b.constants, k.Finite
  numbers : ∀ n ∈ b.numbers, n.Finite

instance : DecidablePred Finite := fun b =>
  decidable_of_iff ((∀ k ∈ b.constants, k.Finite) ∧ ∀ n ∈ b.numbers, n.Finite)
    ⟨fun h => ⟨h.1, h.2⟩, fun h => ⟨h.constants, h.numbers⟩⟩

/-- The child constants have indices that fit 64 bits. -/
def Indexed (b : Body) : Prop := ∀ k ∈ b.constants, k.Indexed

theorem isSome_ofJsonFields {b : Body} (hb : b.Indexed) {room : Nat} (h : 7 ≤ room)
    (others : Read.Fields) :
    (ofJsonFields room (b.toJsonFields ++ others)).isSome = true ↔ b.Finite := by
  have hlists := b.ofJsonFields_eq h others
  obtain ⟨room, rfl⟩ := Nat.exists_eq_add_of_le' h
  have hconstants : (Read.list Constant.ofJson (room + 7)
      (.array (b.constants.map Constant.toJson))).isSome = true ↔ ∀ k ∈ b.constants, k.Finite :=
    Read.isSome_list.trans (forall₂_congr fun k hk => Constant.isSome_ofJson (hb k hk) (by omega))
  have hnumbers : (Read.list NumberConstant.ofJson (room + 7)
      (.array (b.numbers.map NumberConstant.toJson))).isSome = true ↔ ∀ n ∈ b.numbers, n.Finite :=
    Read.isSome_list.trans (forall₂_congr fun n _ => n.isSome_ofJson (by omega))
  rw [hlists, Read.isSome_bind fun _ => by rw [Option.isSome_map, hnumbers], hconstants]
  exact ⟨fun h => ⟨h.1, h.2⟩, fun h => ⟨h.constants, h.numbers⟩⟩

theorem readable (b : Body) : b.Readable :=
  readable_of_constants (fun k _ => k.readable_always) fun n _ => n.readable_always

end Body

/-! ## Trees -/

namespace Prototype

/-- A tree that is not too deep for the room that is left is read where it is finite. -/
theorem isSome_ofJson {p : Prototype} {path : Path} {room : Nat}
    (hindexed : ∀ x ∈ p.walk path, x.2.body.Indexed) (hdepth : ∀ x ∈ p.walk path, x.1.depth ≤ 50)
    (hroom : 126 ≤ room + 2 * path.depth) :
    (ofJson room p.toJson).isSome = true ↔ ∀ x ∈ p.walk path, x.2.body.Finite := by
  induction p using induct generalizing path room with
  | node b parent children ih =>
    obtain ⟨hbody, hindexes⟩ := forall_walk_node.1 hindexed
    obtain ⟨hhere, hdepths⟩ := forall_walk_node.1 hdepth
    replace hbody : b.Indexed := hbody
    replace hhere : path.depth ≤ 50 := hhere
    have hchildren : ((children.map toJson).mapM (ofJson (room - 2))).isSome = true ↔
        ∀ (k : Nat) (c : Prototype), children[k]? = some c →
          ∀ x ∈ c.walk (path.child k), x.2.body.Finite := by
      have hchild : ∀ (k : Nat) (c : Prototype), children[k]? = some c →
          ((ofJson (room - 2) c.toJson).isSome = true ↔
            ∀ x ∈ c.walk (path.child k), x.2.body.Finite) := by
        intro k c hk
        refine ih c (List.mem_of_getElem? hk) (hindexes k c hk) (hdepths k c hk) ?_
        rw [Path.depth_child]
        omega
      rw [Read.isSome_mapM]
      refine ⟨fun h k c hk => (hchild k c hk).1 (h c (List.mem_of_getElem? hk)), ?_⟩
      intro h c hc
      obtain ⟨k, hk⟩ := List.mem_iff_getElem?.1 hc
      exact (hchild k c hk).2 (h k c hk)
    obtain ⟨others, hnode⟩ := ofJson_node b parent children (show 8 ≤ room by omega)
    rw [hnode, Read.isSome_bind fun _ => by rw [Option.isSome_map, hchildren],
      Body.isSome_ofJsonFields hbody (by omega), forall_walk_node]
    rfl

end Prototype

/-! ## The law -/

namespace Script

theorem isSome_parseJson {s : Script} (hindexed : ∀ x ∈ s.walk, x.2.body.Indexed)
    (hdepth : ∀ x ∈ s.walk, x.1.depth ≤ 50) :
    (parseJson? s.toJson.compact).isSome = true ↔ ∀ x ∈ s.walk, x.2.body.Finite := by
  rw [parseJson?, (readable_of_bodies fun x _ => x.2.body.readable).parse, Option.bind_some,
    ofJson_eq, Option.isSome_map]
  exact Prototype.isSome_ofJson hindexed hdepth (Nat.le_add_right _ _)

/-- A prototype of a dump has no more children than constants, so their indices are small. -/
theorem indexed_of_decode {table : OpcodeTable} {bytes : Bytes} {s : Script}
    (h : decode table bytes = .ok s) : ∀ x ∈ s.walk, x.2.body.Indexed := by
  obtain ⟨parts, hsurvey⟩ := survey_of_decode table h
  have hsound := (sound_of_survey table hsurvey).2
  intro x hx k hk index hindex
  have hdown : x.2.body.childIndices = (List.range x.2.children.length).reverse :=
    (normal_of_sound hsound).children x hx
  have hmem : index ∈ x.2.body.childIndices := List.mem_filterMap.2 ⟨k, hk, hindex⟩
  have hcount : x.2.body.childIndices.length ≤ x.2.body.constants.length :=
    List.length_filterMap_le _ _
  have hlength := ((fits_iff.1 hsound.fits).2.bodies x hx).constants_length
  rw [hdown, List.mem_reverse, List.mem_range] at hmem
  rw [hdown, List.length_reverse, List.length_range] at hcount
  omega

/-- Of a dump whose prototypes are nested at most 50 deep the JSON text is accepted where no
number of it is infinite or no number, and only there. -/
theorem json_of_finite_dumps_is_accepted {table : OpcodeTable} {bytes : Bytes} {s : Script}
    (h : decode table bytes = .ok s) (hdepth : ∀ x ∈ s.walk, x.1.depth ≤ 50) :
    (parseJson? s.toJson.compact).isSome = true ↔ ∀ x ∈ s.walk, x.2.body.Finite :=
  isSome_parseJson (indexed_of_decode h) hdepth

/-- A dump with the largest double, the least above zero, minus zero, and a complex number. -/
def extremeDump : Bytes :=
  [0x1B, 0x4C, 0x4A, 2, 2, 51, 0, 0, 0, 0, 1, 4, 0, 4, 0xFF, 0xFF, 0xFF, 0xFF, 15, 0xFF, 0xFF, 0xBF,
    0xFF, 15, 0x9A, 0xB3, 0xE6, 0xCC, 9, 0x99, 0xB3, 0xE6, 0xFD, 3, 0xF2, 0xFF, 0xFF, 0xFF, 31, 1,
    0x80, 0x80, 0x80, 0x80, 8, 3, 0, 0xFF, 0xFF, 0xFF, 0xFF, 31, 0xFF, 0xFF, 0xBF, 0xFF, 7, 0]

/-- What it decodes to. -/
def extremeScript : Script where
  chunkName := []
  root := .node
    { constants := [.complex ⟨⟨0xFFEFFFFFFFFFFFFF⟩, ⟨0x3FB999999999999A⟩⟩]
      numbers := [.double ⟨0x7FEFFFFFFFFFFFFF⟩, .double ⟨1⟩, .double ⟨0x8000000000000000⟩,
        .int (-7)] }
    none []

theorem extremeDump_is_accepted : decode OpcodeTable.builtin extremeDump = .ok extremeScript ∧
    (∀ x ∈ extremeScript.walk, x.1.depth ≤ 50) ∧
    (parseJson? extremeScript.toJson.compact).isSome = true := by
  have hdecode : decode OpcodeTable.builtin extremeDump = .ok extremeScript := by decide +kernel
  have hdepth : ∀ x ∈ extremeScript.walk, x.1.depth ≤ 50 := by decide +kernel
  have hfinite : ∀ x ∈ extremeScript.walk, x.2.body.Finite := by decide +kernel
  exact ⟨hdecode, hdepth, (json_of_finite_dumps_is_accepted hdecode hdepth).2 hfinite⟩

/-- A dump with an infinite number. -/
def infiniteDump : Bytes :=
  [0x1B, 0x4C, 0x4A, 2, 2, 13, 0, 0, 0, 0, 0, 1, 0, 1, 0x80, 0x80, 0xC0, 0xFF, 7, 0]

/-- What it decodes to. -/
def infiniteScript : Script where
  chunkName := []
  root := .node { numbers := [.double ⟨0x7FF0000000000000⟩] } none []

theorem infiniteDump_is_not_accepted :
    decode OpcodeTable.builtin infiniteDump = .ok infiniteScript ∧
      (∀ x ∈ infiniteScript.walk, x.1.depth ≤ 50) ∧
      parseJson? infiniteScript.toJson.compact = none := by
  have hdecode : decode OpcodeTable.builtin infiniteDump = .ok infiniteScript := by decide +kernel
  have hdepth : ∀ x ∈ infiniteScript.walk, x.1.depth ≤ 50 := by decide +kernel
  have hinfinite : ¬∀ x ∈ infiniteScript.walk, x.2.body.Finite := by decide +kernel
  have haccepted := isSome_parseJson (indexed_of_decode hdecode) hdepth
  exact ⟨hdecode, hdepth, Option.not_isSome_iff_eq_none.1 (mt haccepted.1 hinfinite)⟩

end Script

end BytecodeDump
