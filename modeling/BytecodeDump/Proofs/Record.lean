-- The laws of single records: when a body fits into a dump, its form, and that reading
-- the form gives the body back, settled and with its child constants counted down.
import BytecodeDump.Proofs.Constant
import BytecodeDump.Proofs.Debug
import BytecodeDump.Wire.Record

namespace BytecodeDump

open Reader Output

namespace Body

/-! ## The form of a body -/

/-- The debug block that goes into a dump. -/
def kept (layout : Layout) (b : Body) : Option DebugInfo := if layout.debug then b.debug else none

/-- The form of the header of the debug block. -/
def writtenDebugHeader (layout : Layout) (b : Body) : Bytes :=
  match b.kept layout with
  | some info =>
    Leb128.encode (info.written layout.endian).length ++ Output.leb32 info.firstLine
      ++ Output.leb32 info.lineCount
  | none => if layout.debug then [0] else []

/-- The form of the debug block. -/
def writtenBlock (layout : Layout) (b : Body) : Bytes :=
  (b.kept layout).elim [] (·.written layout.endian)

/-- The form of the counts before the debug header. -/
def writtenCounts (b : Body) : Bytes :=
  [b.flags.bits, b.args, b.maxSlot] ++ [UInt8.ofNat b.upvalues.length]
    ++ Leb128.encode b.constants.length ++ Leb128.encode b.numbers.length
    ++ Leb128.encode b.code.length

/-- The form of the body in a dump. -/
def written (layout : Layout) (b : Body) : Bytes :=
  b.writtenCounts ++ b.writtenDebugHeader layout
    ++ b.code.flatMap (fun i => layout.endian.write 4 i.toWord.toNat)
    ++ b.upvalues.flatMap (fun u => layout.endian.write 2 u.pack.toNat)
    ++ b.constants.reverse.flatMap Constant.written
    ++ b.numbers.reverse.flatMap NumberConstant.write ++ b.writtenBlock layout

/-- The form of the record: the length of the body, and the body. -/
def record (layout : Layout) (b : Body) : Bytes :=
  Leb128.encode (b.written layout).length ++ b.written layout

/-- The body fits into a dump: every count fits its field, the instructions have the
operands of their opcodes, and upvalues, constants and the debug block fit. -/
structure Fits (table : OpcodeTable) (layout : Layout) (b : Body) : Prop where
  upvalues_length : b.upvalues.length < 256
  constants_length : b.constants.length < 0x100000000
  numbers_length : b.numbers.length < 0x100000000
  code_length : b.code.length < 0x100000000
  debug : ∀ info, b.kept layout = some info → info.Fits b.code.length b.upvalues.length
  debug_length : ∀ info, b.kept layout = some info →
    (info.written layout.endian).length < 0x100000000
  code : ∀ i ∈ b.code, i.slots = table.slots i.opcode
  upvalues : ∀ u ∈ b.upvalues, u.index ≤ Upvalue.maxIndex
  constants : ∀ k ∈ b.constants, k.Fits

/-- The body fits, and its length fits 32 bits. -/
def RecordFits (table : OpcodeTable) (layout : Layout) (b : Body) : Prop :=
  b.Fits table layout ∧ (b.written layout).length < 0x100000000

/-! ## Writing -/

theorem writeUpvalueCount_eq_ok (path : Path) (b : Body) (out : Bytes) :
    writeUpvalueCount path b = .ok out ↔
      b.upvalues.length < 256 ∧ out = [UInt8.ofNat b.upvalues.length] := by
  unfold writeUpvalueCount
  exact check_eq_ok

theorem writeInstruction_eq_ok (table : OpcodeTable) (e : Endian) (path : Path) (pc : Nat)
    (i : Instruction) (out : Bytes) :
    writeInstruction table e path pc i = .ok out ↔
      i.slots = table.slots i.opcode ∧ out = e.write 4 i.toWord.toNat := by
  unfold writeInstruction
  exact check_eq_ok

theorem writeUpvalue_eq_ok (e : Endian) (path : Path) (position : Nat) (u : Upvalue) (out : Bytes) :
    writeUpvalue e path position u = .ok out ↔
      u.index ≤ Upvalue.maxIndex ∧ out = e.write 2 u.pack.toNat := by
  unfold writeUpvalue
  exact check_eq_ok

theorem writeDebug_eq_ok (layout : Layout) (path : Path) (b : Body)
    (found : Option (DebugInfo × Bytes)) :
    writeDebug layout path b = .ok found ↔
      (∀ info, b.kept layout = some info → info.Fits b.code.length b.upvalues.length) ∧
        found = (b.kept layout).map fun info => (info, info.written layout.endian) := by
  unfold writeDebug kept
  cases layout.debug with
  | false =>
    simp only [Except.ok.injEq, Bool.false_eq_true, if_false, reduceCtorEq, false_implies,
      implies_true, true_and, Option.map_none]
    exact eq_comm
  | true =>
    cases b.debug with
    | none =>
      simp only [Except.ok.injEq, if_true, reduceCtorEq, false_implies, implies_true, true_and,
        Option.map_none]
      exact eq_comm
    | some info =>
      simp only [andThen_eq_ok, DebugInfo.write_eq_ok, pure_eq_ok, if_true, Option.some.injEq,
        forall_eq', Option.map_some]
      refine ⟨?_, ?_⟩
      · rintro ⟨_, ⟨hfits, rfl⟩, rfl⟩
        exact ⟨hfits, rfl⟩
      · rintro ⟨hfits, rfl⟩
        exact ⟨_, ⟨hfits, rfl⟩, rfl⟩

theorem writeDebugHeader_eq_ok (layout : Layout) (b : Body) (out : Bytes) :
    writeDebugHeader layout
        ((b.kept layout).map fun info => (info, info.written layout.endian)) = .ok out ↔
      (∀ info, b.kept layout = some info → (info.written layout.endian).length < 0x100000000) ∧
        out = b.writtenDebugHeader layout := by
  unfold writtenDebugHeader
  cases b.kept layout with
  | none =>
    simp only [Option.map_none, writeDebugHeader, Except.ok.injEq, reduceCtorEq, false_implies,
      implies_true, true_and]
    exact eq_comm
  | some info =>
    simp only [Option.map_some, writeDebugHeader, andThen_eq_ok, size_eq_ok, pure_eq_ok,
      Option.some.injEq, forall_eq']
    refine ⟨?_, ?_⟩
    · rintro ⟨_, ⟨hlen, rfl⟩, rfl⟩
      exact ⟨hlen, rfl⟩
    · rintro ⟨hlen, rfl⟩
      exact ⟨_, ⟨hlen, rfl⟩, rfl⟩

theorem write_eq_ok (table : OpcodeTable) (layout : Layout) (path : Path) (b : Body) (out : Bytes) :
    b.write table layout path = .ok out ↔ b.Fits table layout ∧ out = b.written layout := by
  have hcode := each_zipIdx_eq_ok
    (fun x => writeInstruction table layout.endian path x.2 x.1) b.code
    fun i pc piece => writeInstruction_eq_ok table layout.endian path pc i piece
  have hupvalues := each_zipIdx_eq_ok
    (fun x => writeUpvalue layout.endian path x.2 x.1) b.upvalues
    fun u position piece => writeUpvalue_eq_ok layout.endian path position u piece
  have hconstants := each_eq_ok fun k (_ : k ∈ b.constants.reverse) piece =>
    Constant.write_eq_ok k piece
  have hblock : ((b.kept layout).map fun info => (info, info.written layout.endian)).elim []
      (·.2) = b.writtenBlock layout := by
    unfold writtenBlock
    cases b.kept layout <;> rfl
  simp only [List.mem_reverse] at hconstants
  unfold write
  simp only [andThen_eq_ok, writeUpvalueCount_eq_ok, size_eq_ok, writeDebug_eq_ok, hcode,
    hupvalues, hconstants, pure_eq_ok]
  refine ⟨?_, ?_⟩
  · rintro ⟨_, ⟨h1, rfl⟩, _, ⟨h2, rfl⟩, _, ⟨h3, rfl⟩, _, ⟨h4, rfl⟩, _, ⟨h5, rfl⟩, _, hheader,
      _, ⟨h7, rfl⟩, _, ⟨h8, rfl⟩, _, ⟨h9, rfl⟩, rfl⟩
    obtain ⟨h6, rfl⟩ := (writeDebugHeader_eq_ok layout b _).1 hheader
    rw [hblock]
    exact ⟨⟨h1, h2, h3, h4, h5, h6, h7, h8, h9⟩, rfl⟩
  · rintro ⟨⟨h1, h2, h3, h4, h5, h6, h7, h8, h9⟩, rfl⟩
    refine ⟨_, ⟨h1, rfl⟩, _, ⟨h2, rfl⟩, _, ⟨h3, rfl⟩, _, ⟨h4, rfl⟩, _, ⟨h5, rfl⟩, _,
      (writeDebugHeader_eq_ok layout b _).2 ⟨h6, rfl⟩, _, ⟨h7, rfl⟩, _, ⟨h8, rfl⟩, _, ⟨h9, rfl⟩, ?_⟩
    rw [hblock]
    rfl

/-- A record is written just when the body fits, and the path plays no part in it. -/
theorem writeRecord_eq_ok (table : OpcodeTable) (layout : Layout) (path : Path) (b : Body)
    (out : Bytes) :
    b.writeRecord table layout path = .ok out ↔
      b.RecordFits table layout ∧ out = b.record layout := by
  unfold writeRecord
  simp only [andThen_eq_ok, write_eq_ok, size_eq_ok, pure_eq_ok]
  refine ⟨?_, ?_⟩
  · rintro ⟨_, ⟨hfits, rfl⟩, _, ⟨hlen, rfl⟩, rfl⟩
    exact ⟨⟨hfits, hlen⟩, rfl⟩
  · rintro ⟨⟨hfits, hlen⟩, rfl⟩
    exact ⟨_, ⟨hfits, rfl⟩, _, ⟨hlen, rfl⟩, rfl⟩

/-! ## What stands before the constants -/

/-- What the bytes of a body say before the constants. -/
structure Front where
  flags : UInt8
  args : UInt8
  maxSlot : UInt8
  upvalueCount : UInt8
  constantCount : UInt32
  numberCount : UInt32
  instructionCount : UInt32
  debug : Option DebugHeader
  words : List Nat
  packed : List Nat

/-- Reads a body up to its constants. -/
def readFront (layout : Layout) : Reader Front := do
  let flags ← Reader.byte
  let args ← Reader.byte
  let maxSlot ← Reader.byte
  let upvalueCount ← Reader.byte
  let constantCount ← Reader.leb32
  let numberCount ← Reader.leb32
  let instructionCount ← Reader.leb32
  let debug ← readDebugHeader layout
  let words ← Reader.times (Reader.fixed layout.endian 4) instructionCount.toNat
  let packed ← Reader.times (Reader.fixed layout.endian 2) upvalueCount.toNat
  return ⟨flags, args, maxSlot, upvalueCount, constantCount, numberCount, instructionCount, debug,
    words, packed⟩

namespace Front

/-- Reads the debug block that was announced. -/
def readBlock (layout : Layout) (front : Front) : Reader (Option DebugInfo) :=
  front.debug.mapM fun header =>
    readDebug layout.endian header front.instructionCount.toNat front.upvalueCount.toNat

/-- The body with what stands after this. -/
def body (table : OpcodeTable) (front : Front) (constants : List Constant)
    (numbers : List NumberConstant) (debug : Option DebugInfo) : Body where
  flags := ⟨front.flags⟩
  args := front.args
  maxSlot := front.maxSlot
  debug := debug
  code := front.words.map fun word => Instruction.ofWord table (.ofNat word)
  upvalues := front.packed.map fun raw => Upvalue.unpack (.ofNat raw)
  constants := constants
  numbers := numbers

@[simp] theorem constants_body (table : OpcodeTable) (front : Front) (constants : List Constant)
    (numbers : List NumberConstant) (debug : Option DebugInfo) :
    (front.body table constants numbers debug).constants = constants :=
  rfl

end Front

theorem read_eq (table : OpcodeTable) (layout : Layout) (pending : Nat) :
    read table layout pending = readFront layout >>= fun front => do
      let constants ← Constant.readAll pending 0 front.constantCount.toNat
      let numbers ← Reader.times NumberConstant.read front.numberCount.toNat
      let debug ← front.readBlock layout
      return front.body table constants.reverse numbers.reverse debug := by
  unfold read readFront
  simp only [bind_assoc, pure_bind]
  rfl

/-! ## Reading -/

/-- What reading makes of the body: the debug block is there if the dump has room for
it, and each child constant names the number of child constants after it. -/
def readBack (layout : Layout) (b : Body) : Body :=
  { b with debug := b.kept layout, constants := Constant.countDown b.constants }

/-- The body with each instruction as its word is read, and the pairs of one key merged in
each table. -/
def settled (table : OpcodeTable) (b : Body) : Body :=
  { b with
    code := b.code.map fun i => Instruction.ofWord table i.toWord
    constants := b.constants.map Constant.merged }

/-- No field of an instruction and no pair of a table is lost in a dump. -/
structure Stable (table : OpcodeTable) (b : Body) : Prop where
  code : ∀ i ∈ b.code, Instruction.ofWord table i.toWord = i
  constants : ∀ k ∈ b.constants, k.Keyed

theorem settled_of_stable {table : OpcodeTable} {b : Body} (h : b.Stable table) :
    b.settled table = b := by
  have hcode : (b.code.map fun i => Instruction.ofWord table i.toWord) = b.code := by
    simpa using List.map_congr_left (g := id) h.code
  have hconstants : b.constants.map Constant.merged = b.constants := by
    simpa using List.map_congr_left (g := id) fun k hk =>
      Constant.merged_of_keyed (h.constants k hk)
  rw [settled, hcode, hconstants]

theorem childIndices_settled (table : OpcodeTable) (b : Body) :
    (b.settled table).childIndices = b.childIndices := by
  simp [childIndices, settled, List.filterMap_map]

theorem reads_debugHeader {layout : Layout} {b : Body}
    (h : ∀ info, b.kept layout = some info → (info.written layout.endian).length < 0x100000000) :
    Reads (readDebugHeader layout) (b.writtenDebugHeader layout)
      ((b.kept layout).map fun info =>
        ⟨(info.written layout.endian).length, info.firstLine, info.lineCount⟩) := by
  unfold readDebugHeader writtenDebugHeader
  by_cases hlayout : layout.debug
  · simp only [hlayout, if_true]
    cases hkept : b.kept layout with
    | none =>
      have hzero : Reads leb32 [0] 0 := reads_leb32_of_spells ⟨0, rfl, rfl⟩
      exact reads_bind_nil hzero (reads_pure none)
    | some info =>
      have hlt := h info hkept
      have hlength : (UInt32.ofNat (info.written layout.endian).length).toNat =
          (info.written layout.endian).length := UInt32.toNat_ofNat_of_lt' hlt
      have hne : UInt32.ofNat (info.written layout.endian).length ≠ 0 := by
        intro h0
        rw [h0] at hlength
        simp [DebugInfo.written] at hlength
      dsimp only
      rw [List.append_assoc]
      apply reads_bind (reads_leb32_nat hlt)
      rw [if_neg hne]
      apply reads_bind (reads_leb32 info.firstLine)
      apply reads_bind_nil (reads_leb32 info.lineCount)
      rw [hlength]
      exact reads_pure _
  · have hkept : b.kept layout = none := if_neg hlayout
    rw [hkept, if_neg hlayout]
    dsimp only
    rw [if_neg hlayout]
    exact reads_pure none

theorem reads_debug {e : Endian} {instructions upvalues : Nat} {info : DebugInfo}
    (h : info.Fits instructions upvalues) :
    Reads (readDebug e ⟨(info.written e).length, info.firstLine, info.lineCount⟩
      instructions upvalues) (info.written e) info := by
  refine reads_measured (k := fun start found used => if used = (info.written e).length then
    pure found else fail fun _ => .corrupted (.debugLength start (info.written e).length used))
    (DebugInfo.reads h) ?_
  intro start
  rw [if_pos rfl]
  exact reads_pure info

theorem reads_keptBlock {table : OpcodeTable} {layout : Layout} {b : Body}
    (h : b.Fits table layout) :
    Reads (((b.kept layout).map fun info => (⟨(info.written layout.endian).length, info.firstLine,
        info.lineCount⟩ : DebugHeader)).mapM fun header =>
          readDebug layout.endian header b.code.length b.upvalues.length)
      (b.writtenBlock layout) (b.kept layout) := by
  unfold writtenBlock
  cases hkept : b.kept layout with
  | none => exact reads_pure none
  | some info => exact reads_map some (reads_debug (h.debug info hkept))

theorem map_ofWord (table : OpcodeTable) (code : List Instruction) :
    (code.map fun i => i.toWord.toNat).map (fun word => Instruction.ofWord table (.ofNat word)) =
      code.map fun i => Instruction.ofWord table i.toWord := by
  simp

theorem map_unpack {upvalues : List Upvalue} (h : ∀ u ∈ upvalues, u.index ≤ Upvalue.maxIndex) :
    (upvalues.map fun u => u.pack.toNat).map
      (fun raw => Upvalue.unpack (.ofNat raw)) = upvalues := by
  rw [List.map_map]
  refine (List.map_congr_left ?_).trans (List.map_id upvalues)
  intro u hu
  simp only [Function.comp_apply, UInt16.ofNat_toNat, id_eq]
  exact Upvalue.unpack_pack (h u hu)

/-- The form of a body gives the settled body back, as long as enough prototypes are left
for its child constants. -/
theorem reads {table : OpcodeTable} {layout : Layout} {pending : Nat} {b : Body}
    (h : b.Fits table layout) (hpending : b.childIndices.length ≤ pending) :
    Reads (read table layout pending) (b.written layout)
      ((b.settled table).readBack layout) := by
  have hconstants : (UInt32.ofNat b.constants.length).toNat = b.constants.reverse.length := by
    rw [List.length_reverse]
    exact UInt32.toNat_ofNat_of_lt' h.constants_length
  have hnumbers : (UInt32.ofNat b.numbers.length).toNat = b.numbers.reverse.length := by
    rw [List.length_reverse]
    exact UInt32.toNat_ofNat_of_lt' h.numbers_length
  have hcode : (UInt32.ofNat b.code.length).toNat = b.code.length :=
    UInt32.toNat_ofNat_of_lt' h.code_length
  have hupvalues : (UInt8.ofNat b.upvalues.length).toNat = b.upvalues.length :=
    UInt8.toNat_ofNat_of_lt' h.upvalues_length
  unfold written writtenCounts
  simp only [List.append_assoc]
  apply reads_bind (reads_byte b.flags.bits)
  apply reads_bind (reads_byte b.args)
  apply reads_bind (reads_byte b.maxSlot)
  apply reads_bind (reads_byte _)
  apply reads_bind (reads_leb32_nat h.constants_length)
  apply reads_bind (reads_leb32_nat h.numbers_length)
  apply reads_bind (reads_leb32_nat h.code_length)
  apply reads_bind (reads_debugHeader h.debug_length)
  rw [hcode, hupvalues, hconstants, hnumbers]
  apply reads_bind (reads_times fun i _ => reads_fixed_write layout.endian
    (show i.toWord.toNat < Endian.span 4 from i.toWord.toNat_lt))
  apply reads_bind (reads_times fun u _ => reads_fixed_write layout.endian
    (show u.pack.toNat < Endian.span 2 from u.pack.toNat_lt))
  have hall : Reads (Constant.readAll pending 0 b.constants.reverse.length)
      (b.constants.reverse.flatMap Constant.written)
      (Constant.countUp 0 (b.constants.reverse.map Constant.merged)) := by
    apply Constant.reads_all
    · intro k hk
      exact h.constants k (List.mem_reverse.1 hk)
    · rw [Constant.childCount_reverse, Nat.zero_add]
      exact hpending
  apply reads_bind hall
  apply reads_bind (reads_times fun n _ => NumberConstant.reads n)
  rw [map_ofWord, map_unpack h.upvalues, List.map_id', List.map_reverse,
    Constant.reverse_countUp_reverse, List.reverse_reverse]
  apply reads_bind_nil (reads_keptBlock h)
  exact reads_pure _

/-- The length may be spelled in any way. -/
theorem reads_record_of_spells {table : OpcodeTable} {layout : Layout} {pending : Nat}
    {spelling bytes : Bytes} {b : Body} (hread : Reads (read table layout pending) bytes b)
    (hspells : Leb128.Spells spelling bytes.length) (hlt : bytes.length < 0x100000000) :
    Reads (readRecord table layout pending) (spelling ++ bytes) b := by
  have hlength : (UInt32.ofNat bytes.length).toNat = bytes.length := UInt32.toNat_ofNat_of_lt' hlt
  rw [← hlength] at hspells
  apply reads_bind (reads_leb32_of_spells hspells)
  rw [hlength]
  intro start rest
  have hleft : ¬(bytes ++ rest).length < bytes.length := by
    rw [List.length_append]
    omega
  have hused : start + bytes.length - start = bytes.length := Nat.add_sub_cancel_left _ _
  rw [pos_bind, left_bind, if_neg hleft, bind_of_ok (hread start rest), pos_bind, if_pos hused]
  rfl

theorem reads_record {table : OpcodeTable} {layout : Layout} {pending : Nat} {b : Body}
    (h : b.RecordFits table layout) (hpending : b.childIndices.length ≤ pending) :
    Reads (readRecord table layout pending) (b.record layout)
      ((b.settled table).readBack layout) :=
  reads_record_of_spells (reads h.1 hpending)
    (Leb128.spells_encode (lt_trans h.2 (by norm_num))) h.2

/-! ## Locality -/

theorem local_readDebugHeader (layout : Layout) : Local (readDebugHeader layout) := by
  apply local_ite
  · apply local_bind local_leb32
    intro length
    apply local_ite (local_pure none)
    exact local_bind local_leb32 fun _ => local_bind local_leb32 fun _ => local_pure _
  · exact local_pure none

theorem local_readDebug (e : Endian) (header : DebugHeader) (instructions upvalues : Nat) :
    Local (readDebug e header instructions upvalues) := by
  refine local_measured (k := fun start found used => if used = header.length then
    pure found else fail fun _ => .corrupted (.debugLength start header.length used))
    (DebugInfo.local_read e _ _ _ _) ?_
  intro start a used f b f' h
  by_cases hused : used = header.length
  · rw [if_pos hused] at h
    cases h
    refine ⟨rfl, ?_⟩
    intro other
    rw [if_pos hused]
    exact reads_pure a
  · rw [if_neg hused] at h
    cases h

theorem local_readFront (layout : Layout) : Local (readFront layout) := by
  apply local_bind local_byte
  intro flags
  apply local_bind local_byte
  intro args
  apply local_bind local_byte
  intro maxSlot
  apply local_bind local_byte
  intro upvalueCount
  apply local_bind local_leb32
  intro constantCount
  apply local_bind local_leb32
  intro numberCount
  apply local_bind local_leb32
  intro instructionCount
  apply local_bind (local_readDebugHeader layout)
  intro header
  apply local_bind (local_times (local_fixed _ _) _)
  intro words
  exact local_bind (local_times (local_fixed _ _) _) fun _ => local_pure _

theorem Front.local_readBlock (layout : Layout) (front : Front) :
    Local (front.readBlock layout) := by
  unfold readBlock
  cases front.debug with
  | none => exact local_pure none
  | some header => exact local_map some (local_readDebug _ header _ _)

theorem local_read (table : OpcodeTable) (layout : Layout) (pending : Nat) :
    Local (read table layout pending) := by
  rw [read_eq]
  apply local_bind (local_readFront layout)
  intro front
  apply local_bind (Constant.local_readAll _ _ _)
  intro constants
  apply local_bind (local_times NumberConstant.local_read _)
  intro numbers
  exact local_bind (front.local_readBlock layout) fun _ => local_pure _

theorem readRecord_eq_ok {table : OpcodeTable} {layout : Layout} {pending : Nat} {f f' : Feed}
    {b : Body} (h : readRecord table layout pending f = .ok (b, f')) :
    ∃ spelling bytes, f.rest = spelling ++ bytes ++ f'.rest ∧
      f'.pos = f.pos + (spelling ++ bytes).length ∧ bytes.length < 0x100000000 ∧
      Leb128.Spells spelling bytes.length ∧ Reads (read table layout pending) bytes b := by
  obtain ⟨length, f₁, hlength, h⟩ := bind_eq_ok.1 h
  obtain ⟨spelling, hrest, hpos, hspells⟩ := leb32_eq_ok hlength
  rw [pos_bind, left_bind] at h
  split at h
  · cases h
  · obtain ⟨body, f₂, hbody, h⟩ := bind_eq_ok.1 h
    obtain ⟨bytes, hrest', hpos', hreads⟩ := local_read table layout pending _ _ _ hbody
    rw [pos_bind] at h
    by_cases hused : f₂.pos - f₁.pos = length.toNat
    · simp only [hused, if_true] at h
      cases h
      have hlen : bytes.length = length.toNat := by omega
      rw [← hlen] at hspells
      refine ⟨spelling, bytes, ?_, ?_, ?_, hspells, hreads⟩
      · rw [hrest, hrest', List.append_assoc]
      · rw [hpos', hpos, List.length_append, Nat.add_assoc]
      · rw [hlen]
        exact length.toNat_lt
    · simp only [hused, if_false] at h
      cases h

theorem local_readRecord (table : OpcodeTable) (layout : Layout) (pending : Nat) :
    Local (readRecord table layout pending) := by
  intro f b f' h
  obtain ⟨spelling, bytes, hrest, hpos, hlt, hspells, hreads⟩ := readRecord_eq_ok h
  exact ⟨spelling ++ bytes, hrest, hpos, reads_record_of_spells hreads hspells hlt⟩

end Body

end BytecodeDump
