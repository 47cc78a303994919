-- Where the words of the instructions stand in a dump. Every instruction has four bytes
-- of its own, and another value of an operand changes none but these.
import BytecodeDump.Proofs.Dump
import BytecodeDump.Proofs.RoundTrip
import BytecodeDump.Proofs.Subtree

namespace BytecodeDump

/-! ## One stretch of bytes -/

/-- The bytes that stand at a place. -/
def stretch (bytes : Bytes) (start width : Nat) : Bytes := (bytes.drop start).take width

/-- The second bytes are as many as the first, and differ from them at most in the stretch
of `width` bytes from `start` on. -/
structure DiffersWithin (start width : Nat) (bytes bytes' : Bytes) : Prop where
  length : bytes'.length = bytes.length
  outside : ∀ k, k < start ∨ start + width ≤ k → bytes'[k]? = bytes[k]?

theorem stretch_append (before old after : Bytes) :
    stretch (before ++ old ++ after) before.length old.length = old := by
  rw [stretch, List.append_assoc, List.drop_left, List.take_left]

theorem differsWithin_append (before after : Bytes) {old new : Bytes}
    (h : new.length = old.length) :
    DiffersWithin before.length old.length (before ++ old ++ after) (before ++ new ++ after) where
  length := by simp only [List.length_append, h]
  outside := by
    intro k hk
    rw [List.append_assoc, List.append_assoc]
    rcases hk with hk | hk
    · rw [List.getElem?_append_left hk, List.getElem?_append_left hk]
    · rw [List.getElem?_append_right (by omega), List.getElem?_append_right (by omega),
        List.getElem?_append_right (by omega), List.getElem?_append_right (by omega), h]

/-! ## The words of a body -/

namespace Instruction

/-- The form of the instruction. -/
def written (e : Endian) (i : Instruction) : Bytes := e.write 4 i.toWord.toNat

theorem length_written (e : Endian) (i : Instruction) : (i.written e).length = 4 :=
  Endian.length_write e 4 _

/-- To set an operand leaves the opcode and its operands as they are. -/
theorem same_of_set {i new : Instruction} {o : Operand} {value : o.Word}
    (h : i.set o value = .ok new) : new.opcode = i.opcode ∧ new.slots = i.slots := by
  unfold set at h
  split at h
  · cases h
    cases o <;> exact ⟨rfl, rfl⟩
  · cases h

end Instruction

namespace Body

variable {table : OpcodeTable} {layout : Layout} {b : Body} {i : Nat} {old new : Instruction}

/-- The body with another instruction in the place of one. -/
def replace (i : Nat) (new : Instruction) (b : Body) : Body := { b with code := b.code.set i new }

/-- Where the word of an instruction starts in the record. -/
def wordStart (layout : Layout) (b : Body) (i : Nat) : Nat :=
  (Leb128.encode (b.written layout).length).length
    + (b.writtenCounts ++ b.writtenDebugHeader layout).length + 4 * i

theorem length_words (e : Endian) (code : List Instruction) :
    (code.flatMap (Instruction.written e)).length = 4 * code.length := by
  rw [List.length_flatMap, List.map_congr_left fun i _ => Instruction.length_written e i]
  rw [List.map_const', List.sum_replicate, smul_eq_mul, Nat.mul_comm]

/-- The form of a body is that of an instruction between bytes in which it has no part. -/
theorem written_split (layout : Layout) (h : b.code[i]? = some old) :
    ∃ before after,
      before.length = (b.writtenCounts ++ b.writtenDebugHeader layout).length + 4 * i ∧
      b.written layout = before ++ old.written layout.endian ++ after ∧
      ∀ new, (b.replace i new).written layout = before ++ new.written layout.endian ++ after := by
  obtain ⟨hi, hget⟩ := List.getElem?_eq_some_iff.1 h
  have hlength : (b.code.take i).length = i := List.length_take_of_le hi.le
  have hcode : b.code = b.code.take i ++ old :: b.code.drop (i + 1) := by
    rw [← hget, List.getElem_cons_drop, List.take_append_drop]
  have hset : ∀ new, b.code.set i new = b.code.take i ++ new :: b.code.drop (i + 1) := by
    intro new
    rw [List.set_eq_take_append_cons_drop, if_pos hi]
  have hcounts : ∀ new, (b.replace i new).writtenCounts = b.writtenCounts := by
    intro new
    simp only [writtenCounts, replace, List.length_set]
  refine ⟨b.writtenCounts ++ b.writtenDebugHeader layout ++
      (b.code.take i).flatMap (Instruction.written layout.endian),
    (b.code.drop (i + 1)).flatMap (Instruction.written layout.endian) ++
      b.upvalues.flatMap (fun u => layout.endian.write 2 u.pack.toNat) ++
      b.constants.reverse.flatMap Constant.written ++
      b.numbers.reverse.flatMap NumberConstant.write ++ b.writtenBlock layout, ?_, ?_, ?_⟩
  · rw [List.length_append, length_words, hlength]
  · conv_lhs => rw [written, hcode, List.flatMap_append, List.flatMap_cons]
    simp only [Instruction.written, List.append_assoc]
    rfl
  · intro new
    rw [written, hcounts, show (b.replace i new).code = b.code.set i new from rfl, hset,
      List.flatMap_append, List.flatMap_cons]
    simp only [Instruction.written, List.append_assoc]
    rfl

theorem length_written_replace (h : b.code[i]? = some old) (new : Instruction) :
    ((b.replace i new).written layout).length = (b.written layout).length := by
  obtain ⟨before, after, -, hold, hnew⟩ := written_split layout h
  rw [hold, hnew]
  simp only [List.length_append, Instruction.length_written]

theorem record_split (layout : Layout) (h : b.code[i]? = some old) :
    ∃ before after, before.length = b.wordStart layout i ∧
      b.record layout = before ++ old.written layout.endian ++ after ∧
      ∀ new, (b.replace i new).record layout = before ++ new.written layout.endian ++ after := by
  obtain ⟨before, after, hbefore, hold, hnew⟩ := written_split layout h
  refine ⟨Leb128.encode (b.written layout).length ++ before, after, ?_, ?_, ?_⟩
  · rw [List.length_append, hbefore, wordStart, Nat.add_assoc]
  · rw [record, hold]
    simp only [List.append_assoc]
  · intro new
    rw [record, length_written_replace h, hnew]
    simp only [List.append_assoc]

/-- Every word ends in its record. -/
theorem wordStart_add_le (layout : Layout) (h : b.code[i]? = some old) :
    b.wordStart layout i + 4 ≤ (b.record layout).length := by
  obtain ⟨before, after, hbefore, hrecord, -⟩ := record_split layout h
  rw [hrecord, List.length_append, List.length_append, hbefore, Instruction.length_written]
  omega

/-- A body still fits after an operand of an instruction is set. -/
theorem recordFits_replace (h : b.code[i]? = some old)
    (hopcode : new.opcode = old.opcode) (hslots : new.slots = old.slots)
    (hb : b.RecordFits table layout) : (b.replace i new).RecordFits table layout := by
  obtain ⟨hfits, hlength⟩ := hb
  have hcount : (b.replace i new).code.length = b.code.length := List.length_set
  have hcode : ∀ j ∈ (b.replace i new).code, j.slots = table.slots j.opcode := by
    intro j hj
    rcases List.mem_or_eq_of_mem_set hj with hj | rfl
    · exact hfits.code j hj
    · rw [hslots, hopcode]
      exact hfits.code old (List.mem_of_getElem? h)
  refine ⟨{ hfits with code_length := ?_, debug := ?_, code := hcode }, ?_⟩
  · rw [hcount]
    exact hfits.code_length
  · rw [hcount]
    exact hfits.debug
  · rw [length_written_replace h]
    exact hlength

end Body

/-! ## The words of a script -/

namespace Prototype

variable {table : OpcodeTable} {layout : Layout} {p : Prototype} {i : Nat}
  {old new : Instruction}

/-- The prototype with another instruction in the place of one. -/
def replace (i : Nat) (new : Instruction) (p : Prototype) : Prototype :=
  p.mapBody (Body.replace i new)

theorem written_replace (layout : Layout) (i : Nat) (new : Instruction) (p : Prototype) : ∃ below,
    below.length = p.sizeBelow layout ∧ p.written layout = below ++ p.body.record layout ∧
      (p.replace i new).written layout = below ++ (p.body.replace i new).record layout := by
  obtain ⟨b, parent, children⟩ := p
  exact ⟨_, rfl, written_node _ _ _ _, written_node _ _ _ _⟩

theorem fits_replace (h : p.body.code[i]? = some old) (hopcode : new.opcode = old.opcode)
    (hslots : new.slots = old.slots) (hp : p.Fits table layout) :
    (p.replace i new).Fits table layout := by
  obtain ⟨b, parent, children⟩ := p
  obtain ⟨named, below, hrecord⟩ := fits_node.1 hp
  exact fits_node.2 ⟨named, below, Body.recordFits_replace h hopcode hslots hrecord⟩

end Prototype

namespace Script

variable {table : OpcodeTable} {s : Script} {path path' : Path} {p p' : Prototype} {i i' : Nat}
  {old new : Instruction}

/-- The script with another instruction in the place of one of the prototype at a path. -/
def replace (s : Script) (path : Path) (i : Nat) (new : Instruction) : Script :=
  s.modify path (Prototype.replace i new)

/-- Where the word of an instruction of the prototype at a path starts in the dump. -/
def wordStart (s : Script) (path : Path) (i : Nat) : Nat :=
  s.writtenHeader.length + (s.prototype? path).elim 0 fun p =>
    s.root.recordStart s.layout p path.indices + p.body.wordStart s.layout i

theorem wordStart_eq (h : s.prototype? path = some p) (i : Nat) :
    s.wordStart path i = s.writtenHeader.length +
      (s.root.recordStart s.layout p path.indices + p.body.wordStart s.layout i) := by
  rw [wordStart, h, Option.elim_some]

/-- A dump is the word of an instruction between bytes in which it has no part. -/
theorem written_split (hs : s.Fits table) (hp : s.prototype? path = some p)
    (h : p.body.code[i]? = some old) :
    ∃ before after, before.length = s.wordStart path i ∧
      s.written = before ++ old.written s.endian ++ after ∧
      ∀ new, (s.replace path i new).written = before ++ new.written s.endian ++ after := by
  obtain ⟨outer, outer', houter, hwhole, hmodified⟩ :=
    Prototype.written_split s.layout hs.root.complete hp
  obtain ⟨inner, inner', hinner, hrecord, hreplaced⟩ := Body.record_split s.layout h
  obtain ⟨below, hbelow, hwritten, -⟩ :=
    Prototype.written_replace s.layout i old p
  refine ⟨s.writtenHeader ++ outer ++ below ++ inner, inner' ++ outer' ++ [0], ?_, ?_, ?_⟩
  · rw [wordStart_eq hp, Prototype.recordStart]
    simp only [List.length_append, houter, hbelow, hinner, Nat.add_assoc]
  · rw [written, hwhole, hwritten, hrecord]
    simp only [List.append_assoc]
    rfl
  · intro new
    obtain ⟨below', hbelow', hwritten', hnew⟩ :=
      Prototype.written_replace s.layout i new p
    have hsame : below' = below :=
      (List.append_inj (hwritten'.symm.trans hwritten) (hbelow'.trans hbelow.symm)).1
    have hroot : (s.replace path i new).root.written s.layout =
        outer ++ (p.replace i new).written s.layout ++ outer' := hmodified _
    have hshape : (s.replace path i new).written =
        s.writtenHeader ++ (s.replace path i new).root.written s.layout ++ [0] := rfl
    rw [hshape, hroot, hnew, hsame, hreplaced]
    simp only [List.append_assoc]
    rfl

theorem fits_replace (hs : s.Fits table) (hp : s.prototype? path = some p)
    (h : p.body.code[i]? = some old) (hopcode : new.opcode = old.opcode)
    (hslots : new.slots = old.slots) : (s.replace path i new).Fits table where
  version := hs.version
  chunkName_length := hs.chunkName_length
  root := hs.root.modifyAt hp (Prototype.fits_replace h hopcode hslots (hs.root.at? hp))

/-- Of two words one ends before the other starts. -/
theorem words_apart (hs : s.Fits table) (hp : s.prototype? path = some p)
    (h : i < p.body.code.length) (hp' : s.prototype? path' = some p')
    (h' : i' < p'.body.code.length) (hne : (path, i) ≠ (path', i')) :
    s.wordStart path i + 4 ≤ s.wordStart path' i' ∨
      s.wordStart path' i' + 4 ≤ s.wordStart path i := by
  rw [wordStart_eq hp, wordStart_eq hp']
  by_cases hpath : path = path'
  · subst hpath
    rw [hp] at hp'
    cases hp'
    have hi : i ≠ i' := fun hi => hne (by rw [hi])
    simp only [Body.wordStart]
    omega
  · have hindices : path.indices ≠ path'.indices := fun h => hpath (congrArg Path.mk h)
    have hrecords := Prototype.records_apart s.layout hs.root.complete hp hp' hindices
    have hword := Body.wordStart_add_le s.layout (List.getElem?_eq_getElem h)
    have hword' := Body.wordStart_add_le s.layout (List.getElem?_eq_getElem h')
    omega

/-! ## The law -/

/-- In a dump each instruction of each prototype has its word, and no two words overlap.
Whatever value an operand of the instruction is set to, the script still has a dump, which
is as long and has the new word in the place of the old one; no other byte differs. -/
theorem operands_are_patched_in_place {table : OpcodeTable} {s : Script} {bytes : Bytes}
    (h : encode table s = .ok bytes) :
    (∀ path p i old, s.prototype? path = some p → p.body.code[i]? = some old →
      stretch bytes (s.wordStart path i) 4 = old.written s.endian ∧
      ∀ (o : Operand) (value : o.Word) new, old.set o value = .ok new →
        ∃ patched, encode table (s.replace path i new) = .ok patched ∧
          DiffersWithin (s.wordStart path i) 4 bytes patched ∧
          stretch patched (s.wordStart path i) 4 = new.written s.endian) ∧
    ∀ path p i path' p' i', s.prototype? path = some p → i < p.body.code.length →
      s.prototype? path' = some p' → i' < p'.body.code.length → (path, i) ≠ (path', i') →
      s.wordStart path i + 4 ≤ s.wordStart path' i' ∨
        s.wordStart path' i' + 4 ≤ s.wordStart path i := by
  obtain ⟨hfits, rfl⟩ := encode_eq_ok.1 h
  refine ⟨?_, fun path p i path' p' i' hp hi hp' hi' => words_apart hfits hp hi hp' hi'⟩
  intro path p i old hp hold
  obtain ⟨before, after, hbefore, hwritten, hreplaced⟩ := written_split hfits hp hold
  have hfour := Instruction.length_written s.endian
  refine ⟨?_, fun o value new hset => ?_⟩
  · rw [hwritten, ← hbefore, ← hfour old]
    exact stretch_append _ _ _
  · obtain ⟨hopcode, hslots⟩ := Instruction.same_of_set hset
    have hnew := fits_replace hfits hp hold hopcode hslots
    refine ⟨_, encode_eq_ok.2 ⟨hnew, rfl⟩, ?_, ?_⟩
    · rw [hwritten, hreplaced, ← hbefore, ← hfour old]
      exact differsWithin_append _ _ ((hfour new).trans (hfour old).symm)
    · rw [hreplaced, ← hbefore, ← hfour new]
      exact stretch_append _ _ _

/-- Two functions with an instruction each, one of which makes the other. -/
def nestedScript : Script where
  root := .node
    { code := [⟨1, ⟨true, false, false, true⟩, 2, 0, 0, 3⟩]
      constants := [.child 0] }
    none
    [.node { maxSlot := 1, code := [⟨4, ⟨true, false, false, true⟩, 5, 0, 0, 6⟩] } none []]

/-- The dump of these functions. -/
def nestedDump : Bytes :=
  [0x1B, 0x4C, 0x4A, 2, 2, 11, 0, 0, 1, 0, 0, 0, 1, 4, 5, 6, 0, 12, 0, 0, 0, 0, 1, 0, 1, 1, 2, 3, 0,
    0, 0]

theorem nestedScript_is_patched : encode pairTable nestedScript = .ok nestedDump ∧
    (∃ patched, encode pairTable
        (nestedScript.replace ⟨[0]⟩ 0 ⟨4, ⟨true, false, false, true⟩, 5, 0, 0, 0x0708⟩) =
          .ok patched ∧
      DiffersWithin 13 4 nestedDump patched ∧ stretch patched 13 4 = [4, 5, 8, 7]) ∧
    (nestedScript.wordStart ⟨[0]⟩ 0 + 4 ≤ nestedScript.wordStart .root 0 ∨
      nestedScript.wordStart .root 0 + 4 ≤ nestedScript.wordStart ⟨[0]⟩ 0) := by
  have hencode : encode pairTable nestedScript = .ok nestedDump := by decide +kernel
  have hstart : nestedScript.wordStart ⟨[0]⟩ 0 = 13 := by decide +kernel
  obtain ⟨hwords, happart⟩ := operands_are_patched_in_place hencode
  have hchild := hwords ⟨[0]⟩
    (.node { maxSlot := 1, code := [⟨4, ⟨true, false, false, true⟩, 5, 0, 0, 6⟩] } none []) 0
    ⟨4, ⟨true, false, false, true⟩, 5, 0, 0, 6⟩ rfl rfl
  obtain ⟨patched, hpatched, hdiffers, hword⟩ := hchild.2 .d 0x0708
    ⟨4, ⟨true, false, false, true⟩, 5, 0, 0, 0x0708⟩ rfl
  rw [hstart] at hdiffers hword
  exact ⟨hencode, ⟨patched, hpatched, hdiffers, hword⟩,
    happart ⟨[0]⟩ _ 0 .root _ 0 rfl (by decide) rfl (by decide) (by decide)⟩

end Script

end BytecodeDump
