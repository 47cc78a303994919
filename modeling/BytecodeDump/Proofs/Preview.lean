-- What a listing shows after an instruction. Constants and numbers are stored the other way
-- round than they are counted, but what is shown is what the instruction loads: the number that
-- stands at its place from the front of its record, the constant that stands at its place from
-- the back, and for a function the record that its constant took.
import BytecodeDump.Listing
import BytecodeDump.Opcode.InstructionSet
import BytecodeDump.Proofs.Claims

namespace BytecodeDump

namespace Listing

/-! ## What is shown -/

section Preview

variable {opcodes : OpcodeTable} {p : Prototype} {i : Instruction} {d : UInt16} {name : String}

theorem get_d_eq_ok : i.get .d = .ok d ↔ i.slots.d = true ∧ i.d = d := by
  by_cases h : i.slots.d = true
  · simp [Instruction.get, OperandSlots.declares, Instruction.field, h]
  · simp [Instruction.get, OperandSlots.declares, h]

/-- The words for a function. -/
def showFunction (args : UInt8) (ops : Nat) : String :=
  "function (args=" ++ toString args ++ ", ops=" ++ toString ops ++ ")"

theorem preview_constant (hname : name ∈ ["KSTR", "GGET", "GSET", "KCDATA", "TDUP"])
    (hopcode : opcodes.mnemonic i.opcode = some name) (hd : i.get .d = .ok d) :
    preview? opcodes p i = (p.body.constants[d.toNat]?).map (showConstant p) := by
  obtain ⟨hslot, rfl⟩ := get_d_eq_ok.1 hd
  have hreference : Reference.ofMnemonic? name = some .constant := if_pos hname
  simp [preview?, hopcode, hreference, hslot]

theorem preview_function (hopcode : opcodes.mnemonic i.opcode = some "FNEW")
    (hd : i.get .d = .ok d) :
    preview? opcodes p i = ((p.body.constants[d.toNat]?).bind p.child?).map fun child =>
      showFunction child.body.args child.body.code.length := by
  obtain ⟨hslot, rfl⟩ := get_d_eq_ok.1 hd
  have hreference : Reference.ofMnemonic? "FNEW" = some .function := by decide
  simp only [preview?, hopcode, Option.bind_some, hreference, hslot, if_true, Option.bind_eq_bind,
    Option.map_eq_bind]
  rfl

theorem preview_number (hopcode : opcodes.mnemonic i.opcode = some "KNUM")
    (hd : i.get .d = .ok d) :
    preview? opcodes p i = if d.toNat < p.body.numbers.length then
      (p.body.numbers[p.body.numbers.length - (d.toNat + 1)]?).map showNumber else none := by
  obtain ⟨hslot, rfl⟩ := get_d_eq_ok.1 hd
  have hreference : Reference.ofMnemonic? "KNUM" = some .number := by decide
  simp [preview?, hopcode, hreference, hslot]

end Preview

/-! ## What is stored -/

/-- The preview of an instruction of a prototype with the operand `d`, where record number `n` is
that of the prototype: which section it looks into, and from which end. -/
structure Shows (opcodes : OpcodeTable) (records : List Record) (n : Nat) (r : Record)
    (p : Prototype) (i : Instruction) (d : Nat) : Prop where
  number : opcodes.mnemonic i.opcode = some "KNUM" →
    (∀ h : d < r.numbers.length, preview? opcodes p i = some (showNumber r.numbers[d].2)) ∧
      (r.numbers.length ≤ d → preview? opcodes p i = none)
  constant : ∀ name ∈ ["KSTR", "GGET", "GSET", "KCDATA", "TDUP"],
    opcodes.mnemonic i.opcode = some name →
    (∀ h : d < r.constants.length, preview? opcodes p i =
        some (showConstant p r.constants[r.constants.length - 1 - d].2)) ∧
      (r.constants.length ≤ d → preview? opcodes p i = none)
  function : opcodes.mnemonic i.opcode = some "FNEW" →
    (∀ h : d < r.constants.length,
      ((preview? opcodes p i).isSome ↔
        r.constants[r.constants.length - 1 - d].2.kind = .child) ∧
      (r.constants[r.constants.length - 1 - d].2.kind = .child → ∃ c child,
        (Record.claimed records n)[r.constants.length - 1 - d]? = some (some c) ∧
        records[c]? = some child ∧ preview? opcodes p i =
          some (showFunction child.front.2.args child.front.2.words.length))) ∧
      (r.constants.length ≤ d → preview? opcodes p i = none)

section Stored

variable {table opcodes : OpcodeTable} {r : Record} {p : Prototype} {i : Instruction} {d : UInt16}

/-- The constants of a body stand in its record the other way round. -/
theorem getElem?_constants (hbody : p.body = r.body table) {k : Nat} (hk : k < r.constants.length) :
    p.body.constants[k]? = some r.constants[r.constants.length - 1 - k].2 := by
  have hconstants : p.body.constants = (r.constants.map (·.2)).reverse := by
    rw [hbody]
    rfl
  rw [hconstants, List.getElem?_reverse (by simpa using hk), List.length_map, List.getElem?_map,
    List.getElem?_eq_getElem (by omega)]
  rfl

theorem getElem?_constants_of_ge (hbody : p.body = r.body table) {k : Nat}
    (hk : r.constants.length ≤ k) : p.body.constants[k]? = none := by
  have hlength : p.body.constants.length = r.constants.length := by
    rw [hbody]
    simp [Record.body, Body.Front.body, Record.entries]
  exact List.getElem?_eq_none (by omega)

/-- The place of a number from the front of its record is its place from the back of the body. -/
theorem preview_stored_number (hbody : p.body = r.body table)
    (hopcode : opcodes.mnemonic i.opcode = some "KNUM") (hd : i.get .d = .ok d) :
    preview? opcodes p i = (r.numbers[d.toNat]?).map fun x => showNumber x.2 := by
  have hnumbers : p.body.numbers = (r.numbers.map (·.2)).reverse := by
    rw [hbody]
    rfl
  rw [preview_number hopcode hd, hnumbers, List.length_reverse, List.length_map]
  by_cases h : d.toNat < r.numbers.length
  · rw [if_pos h, List.getElem?_reverse (by simp; omega), List.length_map, List.getElem?_map,
      show r.numbers.length - 1 - (r.numbers.length - (d.toNat + 1)) = d.toNat by omega,
      List.getElem?_eq_getElem h]
    rfl
  · rw [if_neg h, List.getElem?_eq_none (by omega)]
    rfl

section Script

variable {s : Script} {records : List Record} {path : Path} {n : Nat}
  (hall : ∀ path p, s.prototype? path = some p → ∃ n r, HasRecord table records path p n r)
  (hnames : p.NamesEachChild) (hp : s.prototype? path = some p)
  (h : HasRecord table records path p n r) (hstored : Constant.Stored 0 r.constants)

include hall hnames hp h hstored

/-- A child constant of a record names a child that has the body of the record that it took. -/
theorem child_stored {place index : Nat} (hplace : r.entries[place]? = some (.child index)) :
    ∃ c child q, (Record.claimed records n)[place]? = some (some c) ∧ records[c]? = some child ∧
      p.child? (.child index) = some q ∧ q.body = child.body table := by
  have hindex : index ∈ p.body.childIndices := by
    rw [h.body]
    refine List.mem_filterMap.2 ⟨.child index, ?_, rfl⟩
    exact List.mem_reverse.2 (List.mem_of_getElem? hplace)
  have hlt : index < p.children.length :=
    List.mem_range.1 ((Prototype.perm_range_iff_count.2 hnames).mem_iff.1 hindex)
  have hq := List.getElem?_eq_getElem hlt
  have hchild : s.prototype? (path.child index) = some p.children[index] := by
    rw [Script.prototype?_child, hp, Option.bind_some, hq]
  obtain ⟨c, child, hc⟩ := hall _ _ hchild
  refine ⟨c, child, _, ?_, hc.record, hq, hc.body⟩
  -- The path leads to what the child constant with this number took, counted from the top of
  -- the stack; the constant itself took it at its place.
  have htop : (Record.waiting records n)[index]? = some c := by
    have hleads := hc.leads
    rw [Record.at?_child h.leads, Record.claimed, h.record, Option.elim_some,
      (claim_eq _ r.entries).1, List.getElem?_take] at hleads
    split at hleads
    · exact hleads
    · cases hleads
  obtain ⟨-, hclaim⟩ := getElem?_claim (Record.waiting records n) hstored.childIndices hplace
  rw [Record.claimed, h.record, Option.elim_some]
  rwa [Nat.sub_zero, htop] at hclaim

/-- The preview of a function is there just if a child constant is stored, and it tells of the
record that this constant took. -/
theorem preview_stored_function (hopcode : opcodes.mnemonic i.opcode = some "FNEW")
    (hd : i.get .d = .ok d) {place : Nat} {k : Constant}
    (hplace : r.entries[place]? = some k) (hk : p.body.constants[d.toNat]? = some k) :
    ((preview? opcodes p i).isSome ↔ k.kind = .child) ∧
      (k.kind = .child → ∃ c child, (Record.claimed records n)[place]? = some (some c) ∧
        records[c]? = some child ∧ preview? opcodes p i =
          some (showFunction child.front.2.args child.front.2.words.length)) := by
  rw [preview_function hopcode hd, hk, Option.bind_some]
  cases k with
  | child index =>
    obtain ⟨c, child, q, hclaimed, hchild, hq, hbody⟩ :=
      child_stored hall hnames hp h hstored hplace
    have hshown : (p.child? (.child index)).map (fun child =>
          showFunction child.body.args child.body.code.length) =
        some (showFunction child.front.2.args child.front.2.words.length) := by
      rw [hq, Option.map_some, hbody]
      simp [Record.body, Body.Front.body]
    exact ⟨by simp [hshown, Constant.kind], fun _ => ⟨c, child, hclaimed, hchild, hshown⟩⟩
  | _ => simp [Prototype.child?, Constant.childIndex?, Constant.kind]

end Script

end Stored

/-! ## The law -/

/-- A dump that is decoded is a header, records in their sections, and a zero; and each prototype
has the body of the record to which its path leads. Its instructions show what stands there: the
number that stands `d` places from the front, the constant that stands `d` places from the back,
and for a function how many parameters and instructions the record has that the child constant
there took. Nothing is shown where nothing stands, nor for a function that is no child
constant. -/
theorem previews_show_what_is_loaded {table opcodes : OpcodeTable} {bytes : Bytes} {s : Script}
    (h : Script.decode table bytes = .ok s) :
    ∃ (header : Bytes) (records : List Record),
      bytes = header ++ (records.flatMap Record.bytes ++ [0]) ∧
      (∃ head, Script.IsHeader header head ∧ head.layout = s.layout) ∧
      (∀ r ∈ records, r.Sound s.layout) ∧
      ∀ path p, s.prototype? path = some p → ∃ n r, HasRecord table records path p n r ∧
        ∀ i ∈ p.body.code, ∀ d, i.get .d = .ok d → Shows opcodes records n r p i d.toNat := by
  obtain ⟨_, -, hnormal⟩ := Script.sound_of_decode table h
  obtain ⟨header, head, records, root, hheader, hsound, hbytes, hbuild, rfl⟩ :=
    Script.exists_records h
  have hall : ∀ path p, (Script.linkParents { head with root }).prototype? path = some p →
      ∃ n r, HasRecord table records path p n r :=
    fun _ _ => Script.hasRecord_of_build hbuild
  refine ⟨header, records, hbytes, ⟨head, hheader, rfl⟩, hsound, ?_⟩
  intro path p hp
  obtain ⟨n, r, hr⟩ := hall path p hp
  have hnames : p.NamesEachChild :=
    (Prototype.complete_iff .root).1 hnormal.fits.root.complete _ (Script.mem_walk_iff.2 hp)
  have hstored := (hsound r (List.mem_of_getElem? hr.record)).constants
  refine ⟨n, r, hr, ?_⟩
  intro i _ d hd
  constructor
  · intro hopcode
    rw [preview_stored_number hr.body hopcode hd]
    refine ⟨fun hlt => ?_, fun hge => ?_⟩
    · rw [List.getElem?_eq_getElem hlt, Option.map_some]
    · rw [List.getElem?_eq_none hge, Option.map_none]
  · intro name hname hopcode
    rw [preview_constant hname hopcode hd]
    refine ⟨fun hlt => ?_, fun hge => ?_⟩
    · rw [getElem?_constants hr.body hlt, Option.map_some]
    · rw [getElem?_constants_of_ge hr.body hge, Option.map_none]
  · intro hopcode
    refine ⟨fun hlt => ?_, fun hge => ?_⟩
    · refine preview_stored_function hall hnames hp hr hstored hopcode hd ?_
        (getElem?_constants hr.body hlt)
      rw [Record.entries, List.getElem?_map, List.getElem?_eq_getElem (by omega), Option.map_some]
    · rw [preview_function hopcode hd, getElem?_constants_of_ge hr.body hge]
      rfl

/-- A function that makes two others, and loads a string, a number, and a number too many. -/
def loadingScript : Script where
  chunkName := []
  root := .node
    { code := [⟨51, .ad, 0, 0, 0, 0⟩, ⟨51, .ad, 0, 0, 0, 2⟩, ⟨39, .ad, 0, 0, 0, 1⟩,
        ⟨42, .ad, 0, 0, 0, 0⟩, ⟨42, .ad, 0, 0, 0, 1⟩]
      constants := [.child 1, .string [0x78], .child 0]
      numbers := [.int 7] }
    none [.node { args := 2 } (some .root) [], .node { args := 1 } (some .root) []]

/-- The dump of these functions. -/
def loadingDump : Bytes :=
  [0x1B, 0x4C, 0x4A, 2, 2, 7, 0, 1, 0, 0, 0, 0, 0, 7, 0, 2, 0, 0, 0, 0, 0, 32, 0, 0, 0, 0, 3, 1, 5,
    51, 0, 0, 0, 51, 0, 2, 0, 39, 0, 1, 0, 42, 0, 0, 0, 42, 0, 1, 0, 0, 6, 0x78, 0, 14, 0]

theorem loadingDump_shows_what_is_loaded :
    Script.decode .builtin loadingDump = .ok loadingScript ∧
    loadingScript.root.body.code.map (preview? .builtin loadingScript.root) =
      [some "function (args=1, ops=0)", some "function (args=2, ops=0)", some "\"x\"", some "7",
        none] ∧
    ∃ records n r, HasRecord .builtin records .root loadingScript.root n r ∧
      ∀ i ∈ loadingScript.root.body.code, ∀ d, i.get .d = .ok d →
        Shows .builtin records n r loadingScript.root i d.toNat := by
  have hdecode : Script.decode .builtin loadingDump = .ok loadingScript := by decide +kernel
  obtain ⟨header, records, -, -, -, hall⟩ := previews_show_what_is_loaded hdecode
  obtain ⟨n, r, hr⟩ := hall .root loadingScript.root rfl
  exact ⟨hdecode, by decide +kernel, records, n, r, hr⟩

end Listing

end BytecodeDump
