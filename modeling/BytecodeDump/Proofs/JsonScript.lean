-- Scripts read back from their JSON text. What comes back is the script without the parents
-- that were noted in it, so once linked it is the same script, and it has the same dump.
import BytecodeDump.Proofs.Hidden
import BytecodeDump.Proofs.JsonPart

namespace BytecodeDump

open Json

theorem Path.depth_child (path : Path) (index : Nat) :
    (path.child index).depth = path.depth + 1 := by
  rw [Path.depth, Path.child, List.length_append, List.length_singleton]
  rfl

/-! ## Bodies -/

namespace Body

/-- No constant of the body is a complex number, and no number of it is a double. -/
structure Whole (b : Body) : Prop where
  constants : ∀ k ∈ b.constants, k.Whole
  numbers : ∀ n ∈ b.numbers, n.Whole

instance : DecidablePred Whole := fun b =>
  decidable_of_iff ((∀ k ∈ b.constants, k.Whole) ∧ ∀ n ∈ b.numbers, n.Whole)
    ⟨fun h => ⟨h.1, h.2⟩, fun h => ⟨h.constants, h.numbers⟩⟩

/-- The fields have readable values. -/
def Readable (b : Body) : Prop := ∀ v ∈ b.toJsonFields.map (·.2), v.Readable

/-- Of the parts of a body only the constants and the numbers may be not readable. -/
theorem readable_of_constants {b : Body} (hconstants : ∀ k ∈ b.constants, k.toJson.Readable)
    (hnumbers : ∀ n ∈ b.numbers, n.toJson.Readable) : b.Readable := by
  have hdebug : (b.debug.elim .null DebugInfo.toJson).Readable := by
    cases b.debug with
    | none => exact Value.readable_null
    | some d => exact d.readable
  simp [Readable, toJsonFields, PrototypeFlags.readable, Value.readable_nat, hdebug,
    Value.readable_map, Instruction.readable, Upvalue.readable, Value.readable_map hconstants,
    Value.readable_map hnumbers]

theorem Whole.readable {b : Body} (h : b.Whole) : b.Readable :=
  readable_of_constants (fun k hk => Constant.readable (h.constants k hk))
    fun n hn => NumberConstant.readable (h.numbers n hn)

theorem optional_debug (b : Body) {room : Nat} (h : 5 ≤ room) {fields : Read.Fields}
    (hget : Read.get fields "debug" = some (b.debug.elim .null DebugInfo.toJson)) :
    Read.optional fields "debug" (DebugInfo.ofJson room) = some b.debug := by
  rw [Read.optional, hget]
  cases b.debug with
  | none => rfl
  | some d =>
    show (DebugInfo.ofJson room d.toJson).map some = _
    rw [d.ofJson_toJson h]
    rfl

/-- Only the constants and the numbers of a body may be not read, whatever fields follow. -/
theorem ofJsonFields_eq (b : Body) {room : Nat} (h : 7 ≤ room) (others : Read.Fields) :
    ofJsonFields room (b.toJsonFields ++ others) =
      (Read.list Constant.ofJson room (.array (b.constants.map Constant.toJson))).bind
        fun constants =>
          (Read.list NumberConstant.ofJson room (.array (b.numbers.map NumberConstant.toJson))).map
            fun numbers => { b with constants, numbers } := by
  obtain ⟨room, rfl⟩ := Nat.exists_eq_add_of_le' h
  have hcode : Read.list Instruction.ofJson (room + 7)
      (.array (b.code.map Instruction.toJson)) = some b.code :=
    Read.list_array fun i _ => i.ofJson_toJson (by omega)
  have hupvalues : Read.list Upvalue.ofJson (room + 7)
      (.array (b.upvalues.map Upvalue.toJson)) = some b.upvalues :=
    Read.list_array fun u _ => u.ofJson_toJson (by omega)
  have hget : Read.get (b.toJsonFields ++ others) "debug" =
      some (b.debug.elim .null DebugInfo.toJson) := by simp [toJsonFields]
  rw [ofJsonFields, b.optional_debug (show 5 ≤ room + 7 by omega) hget]
  simp [toJsonFields, PrototypeFlags.ofJson_toJson, hcode, hupvalues, Option.map_eq_bind]

/-- The body comes back from its fields, whatever fields follow. -/
theorem ofJsonFields_toJsonFields {b : Body} (hb : b.Whole) {room : Nat} (h : 7 ≤ room)
    (others : Read.Fields) : ofJsonFields room (b.toJsonFields ++ others) = some b := by
  have hlists := b.ofJsonFields_eq h others
  obtain ⟨room, rfl⟩ := Nat.exists_eq_add_of_le' h
  rw [hlists, Read.list_array fun k hk => Constant.ofJson_toJson (hb.constants k hk) (by omega),
    Option.bind_some,
    Read.list_array fun n hn => NumberConstant.ofJson_toJson (hb.numbers n hn) (by omega)]
  rfl

end Body

/-! ## Trees -/

namespace Prototype

mutual

/-- The tree without any parent noted in it. -/
def unlink : Prototype → Prototype
  | node body _ children => node body none (unlinkList children)

/-- Some trees without the parents noted in them. -/
def unlinkList : List Prototype → List Prototype
  | [] => []
  | p :: ps => unlink p :: unlinkList ps

end

theorem unlinkList_eq_map (ps : List Prototype) : unlinkList ps = ps.map unlink := by
  induction ps with
  | nil => rfl
  | cons p ps ih => rw [unlinkList, ih, List.map_cons]

theorem toJsonList_eq_map (ps : List Prototype) : toJsonList ps = ps.map toJson := by
  induction ps with
  | nil => rfl
  | cons p ps ih => rw [toJsonList, ih, List.map_cons]

theorem unlink_node (b : Body) (parent : Option Path) (children : List Prototype) :
    (node b parent children).unlink = node b none (children.map unlink) := by
  rw [unlink, unlinkList_eq_map]

/-- To take the parents out changes nothing that linking keeps. -/
theorem link_unlink (p : Prototype) (parent : Option Path) (path : Path) :
    p.unlink.link parent path = p.link parent path := by
  induction p using induct generalizing parent path with
  | node b old children ih =>
    rw [unlink_node, link_node, link_node]
    congr 1
    apply List.ext_getElem?
    intro k
    rw [getElem?_linkList, getElem?_linkList, List.getElem?_map, Option.map_map]
    cases hc : children[k]? with
    | none => rfl
    | some c => exact congrArg some (ih c (List.mem_of_getElem? hc) _ _)

theorem unlink_link (p : Prototype) (parent : Option Path) (path : Path) :
    (p.link parent path).unlink = p.unlink := by
  induction p using induct generalizing parent path with
  | node b old children ih =>
    rw [link_node, unlink_node, unlink_node, map_linkList path 0 ih]

theorem alike_unlink (p : Prototype) (shown : Bool) : p.Alike shown p.unlink := by
  induction p using induct with
  | node b parent children ih =>
    rw [unlink_node]
    refine .node ⟨rfl, fun _ => rfl⟩ (List.length_map _) ?_
    intro k c c' hc hc'
    rw [List.getElem?_map, hc, Option.map_some, Option.some.injEq] at hc'
    rw [← hc']
    exact ih c (List.mem_of_getElem? hc)

theorem readable {p : Prototype} {path : Path} (h : ∀ x ∈ p.walk path, x.2.body.Readable) :
    p.toJson.Readable := by
  induction p using induct generalizing path with
  | node b parent children ih =>
    obtain ⟨hbody, hbelow⟩ := forall_walk_node.1 h
    have hchildren : ∀ c ∈ children, c.toJson.Readable := by
      intro c hc
      obtain ⟨k, hk⟩ := List.mem_iff_getElem?.1 hc
      exact ih c hc (hbelow k c hk)
    rw [toJson, toJsonList_eq_map]
    refine Value.readable_of_names fieldNames rfl (by decide) ?_
    rw [List.map_append]
    intro v hv
    rcases List.mem_append.1 hv with hv | hv
    · exact hbody v hv
    · rw [List.mem_singleton.1 hv]
      exact Value.readable_map hchildren

/-- A tree is read as its body and its children are. -/
theorem ofJson_node (b : Body) (parent : Option Path) (children : List Prototype) {room : Nat}
    (h : 8 ≤ room) :
    ∃ others, ofJson room (node b parent children).toJson =
      (Body.ofJsonFields (room - 1) (b.toJsonFields ++ others)).bind fun body =>
        ((children.map toJson).mapM (ofJson (room - 2))).map (node body none) := by
  obtain ⟨room, rfl⟩ := Nat.exists_eq_add_of_le' h
  refine ⟨[("children", .array (children.map toJson))], ?_⟩
  have hget : Read.get (b.toJsonFields ++ [("children", .array (children.map toJson))])
      "children" = some (.array (children.map toJson)) := by simp [Body.toJsonFields]
  rw [toJson, toJsonList_eq_map, ofJson, Read.record_record fieldNames rfl (by decide),
    Option.bind_eq_bind, Option.bind_some, hget]
  simp [Option.map_eq_bind]

/-- A tree comes back where it is not too deep for the room that is left. -/
theorem ofJson_toJson {p : Prototype} {path : Path} {room : Nat}
    (hwhole : ∀ x ∈ p.walk path, x.2.body.Whole) (hdepth : ∀ x ∈ p.walk path, x.1.depth ≤ 50)
    (hroom : 126 ≤ room + 2 * path.depth) : ofJson room p.toJson = some p.unlink := by
  induction p using induct generalizing path room with
  | node b parent children ih =>
    obtain ⟨hbody, hwholes⟩ := forall_walk_node.1 hwhole
    obtain ⟨hhere, hdepths⟩ := forall_walk_node.1 hdepth
    replace hbody : b.Whole := hbody
    replace hhere : path.depth ≤ 50 := hhere
    have hchildren : (children.map toJson).mapM (ofJson (room - 2)) =
        some (children.map unlink) := by
      refine Read.mapM_map fun c hc => ?_
      obtain ⟨k, hk⟩ := List.mem_iff_getElem?.1 hc
      refine ih c hc (hwholes k c hk) (hdepths k c hk) ?_
      rw [Path.depth_child]
      omega
    obtain ⟨others, hnode⟩ := ofJson_node b parent children (show 8 ≤ room by omega)
    rw [hnode, Body.ofJsonFields_toJsonFields hbody (by omega), Option.bind_some, hchildren,
      unlink_node]
    rfl

end Prototype

/-! ## The law -/

namespace Script

/-- The script without any parent noted in it. -/
def unlink (s : Script) : Script := { s with root := s.root.unlink }

theorem readable_of_bodies {s : Script} (h : ∀ x ∈ s.walk, x.2.body.Readable) :
    s.toJson.Readable :=
  Value.readable_of_names fieldNames rfl (by decide) (by
    simp [Value.readable_nat, ScriptFlags.readable, Value.readable_ofBytes,
      Prototype.readable h])

theorem readable {s : Script} (h : ∀ x ∈ s.walk, x.2.body.Whole) : s.toJson.Readable :=
  readable_of_bodies fun x hx => (h x hx).readable

theorem ofJson_eq (s : Script) :
    ofJson maxLevels s.toJson =
      (Prototype.ofJson 126 s.root.toJson).map fun root => { s with root } := by
  rw [maxLevels, toJson, ofJson, Read.record_record fieldNames rfl (by decide)]
  simp [ScriptFlags.ofJson_toJson, Read.bytes_ofBytes, Option.map_eq_bind]

theorem ofJson_toJson {s : Script} (hwhole : ∀ x ∈ s.walk, x.2.body.Whole)
    (hdepth : ∀ x ∈ s.walk, x.1.depth ≤ 50) : ofJson maxLevels s.toJson = some s.unlink := by
  have hroot : Prototype.ofJson 126 s.root.toJson = some s.root.unlink :=
    Prototype.ofJson_toJson hwhole hdepth (Nat.le_add_right _ _)
  rw [ofJson_eq, hroot]
  rfl

theorem parseJson_toJson {s : Script} (hwhole : ∀ x ∈ s.walk, x.2.body.Whole)
    (hdepth : ∀ x ∈ s.walk, x.1.depth ≤ 50) :
    parseJson? s.toJson.compact = some s.unlink := by
  rw [parseJson?, (readable hwhole).parse, Option.bind_some, ofJson_toJson hwhole hdepth]

theorem linkParents_unlink (s : Script) : s.unlink.linkParents = s.linkParents := by
  rw [linkParents, unlink, s.root.link_unlink]
  rfl

theorem unlink_linkParents (s : Script) : s.linkParents.unlink = s.unlink := by
  rw [unlink, linkParents, s.root.unlink_link]
  rfl

theorem encode_unlink (table : OpcodeTable) (s : Script) :
    encode table s.unlink = encode table s := by
  have hroot : s.unlink.root.write table s.unlink.layout .root =
      s.root.write table s.layout .root := (s.root.alike_unlink s.layout.debug).write_eq .root
  rw [encode, encode, hroot]
  rfl

/-- A script whose prototypes are nested at most 50 deep, and that has neither doubles nor
complex numbers, comes back from its JSON text without the parents that were noted in it.
Linked it is the same script as the first one linked, and it has the same dump. -/
theorem json_restores_the_script {s : Script} (hdepth : ∀ x ∈ s.walk, x.1.depth ≤ 50)
    (hwhole : ∀ x ∈ s.walk, x.2.body.Whole) :
    parseJson? s.toJson.compact = some s.unlink ∧ s.unlink.linkParents = s.linkParents ∧
      ∀ table, encode table s.unlink = encode table s ∧
        encode table s.unlink.linkParents = encode table s := by
  refine ⟨parseJson_toJson hwhole hdepth, s.linkParents_unlink, fun table =>
    ⟨encode_unlink table s, ?_⟩⟩
  rw [linkParents_unlink, ← encode_unlink table s.linkParents, unlink_linkParents, encode_unlink]

/-- A linked script with integers at both ends of their ranges, names that are no text, and
flags that have no name. -/
def wideScript : Script where
  flags := ⟨0x80000005⟩
  chunkName := [0xFF, 0x22]
  root := .node
    { flags := ⟨0x43⟩
      debug := some
        { firstLine := 0xFFFFFFFF, lineCount := 1, lines := [0], upvalueNames := [[0x5C]]
          locals := [⟨.loop .step, 0, 1⟩, ⟨.named [0x80], 1, 0⟩] }
      code := [⟨1, ⟨true, false, false, true⟩, 2, 0, 0, 0xFFFF⟩]
      upvalues := [⟨0x3FFF, true, false⟩]
      constants := [.child 0, .uint64 0xFFFFFFFFFFFFFFFF,
        .table ⟨[.nil], [(.string [0], .int64 (-0x8000000000000000)), (.int32 (-1), .bool true)]⟩]
      numbers := [.int (-0x80000000)] }
    none [.node { maxSlot := 1 } (some .root) []]

theorem wideScript_comes_back : wideScript.unlink ≠ wideScript ∧
    parseJson? wideScript.toJson.compact = some wideScript.unlink ∧
    wideScript.unlink.linkParents = wideScript ∧
    ∀ table, encode table wideScript.unlink.linkParents = encode table wideScript := by
  have hdepth : ∀ x ∈ wideScript.walk, x.1.depth ≤ 50 := by decide +kernel
  have hwhole : ∀ x ∈ wideScript.walk, x.2.body.Whole := by decide +kernel
  obtain ⟨hparse, hlinked, hencode⟩ := json_restores_the_script hdepth hwhole
  have hlink : wideScript.linkParents = wideScript := by decide +kernel
  exact ⟨by decide +kernel, hparse, hlinked.trans hlink, fun table => (hencode table).2⟩

end Script

end BytecodeDump
