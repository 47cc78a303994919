-- The byte order of a dump. A dump is a row of segments. When the order is toggled, those
-- that hold an integer of a fixed width are reversed in place, one bit changes in the flags
-- of the header, and nothing else does. What the dump decodes to is the same in either order.
import BytecodeDump.Proofs.ReadBack

namespace BytecodeDump

/-! ## Integers in the other order -/

namespace Endian

/-- The other byte order. -/
def flip : Endian → Endian
  | big => little
  | little => big

theorem write_flip (e : Endian) (width n : Nat) :
    e.flip.write width n = (e.write width n).reverse := by
  cases e with
  | little => rfl
  | big => exact (List.reverse_reverse _).symm

end Endian

/-! ## One bit of the flags -/

/-- The first byte with its lowest bit the other way. -/
def flipLowest : Bytes → Bytes
  | [] => []
  | b :: bs => (b ^^^ 1) :: bs

namespace Leb128

theorem xor_one (n : Nat) : n ^^^ 1 = if n % 2 = 0 then n + 1 else n - 1 := by
  split
  · rename_i heven
    exact Nat.xor_one_of_even (Nat.even_iff.2 heven)
  · rename_i hodd
    exact Nat.xor_one_of_odd (Nat.odd_iff.2 (by omega))

/-- The lowest bit of a number is that of the first byte of its form. -/
theorem encode_xor_one (n : Nat) : encode (n ^^^ 1) = flipLowest (encode n) := by
  by_cases hn : n < 128
  · have hlt : n ^^^ 1 < 128 := Nat.xor_lt_two_pow (n := 7) hn (by norm_num)
    rw [encode_of_lt hlt, encode_of_lt hn, UInt8.ofNat_xor]
    rfl
  · have hge : 128 ≤ n ^^^ 1 := by
      rw [xor_one]
      split <;> omega
    have hhigh : (n ^^^ 1) / 128 = n / 128 := by
      rw [xor_one]
      split <;> omega
    have hlow : (n ^^^ 1) % 128 + 128 = (n % 128 + 128) ^^^ 1 := by
      rw [xor_one, xor_one]
      split <;> split <;> omega
    rw [encode_of_ge hge, encode_of_ge (Nat.not_lt.1 hn), hhigh, hlow, UInt8.ofNat_xor]
    rfl

end Leb128

namespace ScriptFlags

/-- The flags with one bit the other way. -/
def toggle (f : ScriptFlags) (bit : UInt32) : ScriptFlags := ⟨f.bits ^^^ bit⟩

theorem xor_and_bits (u v w : UInt32) : (u ^^^ v) &&& w = (u &&& w) ^^^ (v &&& w) := by
  apply eq_of_bits
  intro n _
  simp only [UInt32.toBitVec_and, UInt32.toBitVec_xor, BitVec.getLsbD_and, BitVec.getLsbD_xor,
    Bool.and_xor_distrib_right]

theorem has_toggle_of_disjoint (f : ScriptFlags) {bit other : UInt32} (h : bit &&& other = 0) :
    (f.toggle bit).has other = f.has other := by
  rw [has, has, toggle, xor_and_bits, h, UInt32.xor_zero]

theorem has_bigEndian (f : ScriptFlags) : f.has bigEndian = f.bits.toBitVec.getLsbD 0 := by
  have hbit : f.bits &&& bigEndian = bigEndian ↔ f.bits.toNat % 2 = 1 := by
    rw [← UInt32.toNat_inj, UInt32.toNat_and]
    exact Eq.congr (Nat.and_one_is_mod _) rfl
  have hlow : f.bits.toBitVec.getLsbD 0 = decide (f.bits.toNat % 2 = 1) := Nat.testBit_zero _
  rw [hlow]
  exact decide_eq_decide.2 hbit

theorem has_toggle_bigEndian (f : ScriptFlags) :
    (f.toggle bigEndian).has bigEndian = !f.has bigEndian := by
  rw [has_bigEndian, has_bigEndian, toggle, UInt32.toBitVec_xor, BitVec.getLsbD_xor]
  exact Bool.xor_true _

end ScriptFlags

/-! ## Segments -/

/-- A part of a dump, by what becomes of it when the byte order is toggled. -/
inductive Segment where
  /-- Bytes that stay as they are. -/
  | shared (bytes : Bytes)
  /-- The flags of the header, whose lowest bit is the byte order. -/
  | flags (bytes : Bytes)
  /-- An integer of a fixed width. -/
  | fixed (bytes : Bytes)

namespace Segment

def bytes : Segment → Bytes
  | shared bytes | flags bytes | fixed bytes => bytes

/-- The segment in the other byte order. -/
def flip : Segment → Segment
  | shared bytes => shared bytes
  | flags bytes => flags (flipLowest bytes)
  | fixed bytes => fixed bytes.reverse

/-- The bytes of some segments in a row. -/
def join (segments : List Segment) : Bytes := segments.flatMap bytes

theorem join_singleton (segment : Segment) : join [segment] = segment.bytes :=
  List.flatMap_singleton ..

theorem join_append (segments others : List Segment) :
    join (segments ++ others) = join segments ++ join others :=
  List.flatMap_append

theorem join_map {α : Type} (segment : α → Segment) (items : List α) :
    join (items.map segment) = items.flatMap fun x => (segment x).bytes :=
  List.flatMap_map ..

theorem join_flatMap {α : Type} (segments : α → List Segment) (items : List α) :
    join (items.flatMap segments) = items.flatMap fun x => join (segments x) :=
  List.flatMap_assoc ..

theorem length_flip (segment : Segment) : segment.flip.bytes.length = segment.bytes.length := by
  cases segment with
  | shared bytes => rfl
  | flags bytes =>
    cases bytes with
    | nil => rfl
    | cons b bs => rfl
  | fixed bytes => exact List.length_reverse

/-- No segment changes its length, so none moves. -/
theorem length_join_flip (segments : List Segment) :
    (join (segments.map flip)).length = (join segments).length := by
  rw [join_map, join, List.length_flatMap, List.length_flatMap]
  exact congrArg List.sum (List.map_congr_left fun segment _ => segment.length_flip)

end Segment

/-! ## Bodies -/

namespace Layout

/-- The layout of a dump in the other byte order. -/
def flip (layout : Layout) : Layout := { layout with endian := layout.endian.flip }

end Layout

/-- The segments of a debug block: one for each line, and the names after them. -/
def DebugInfo.segments (e : Endian) (info : DebugInfo) : List Segment :=
  info.lines.map (fun line => .fixed (e.write info.lineWidth line.toNat))
    ++ [.shared (info.upvalueNames.flatMap (· ++ [0])
      ++ LocalVariable.writtenAll 0 info.locals ++ [0])]

namespace Body

/-- The segments of a body: what stands before the code, one segment for each instruction
and one for each upvalue, the constants, and the debug block. -/
def segments (layout : Layout) (b : Body) : List Segment :=
  [.shared (b.writtenCounts ++ b.writtenDebugHeader layout)]
    ++ b.code.map (fun i => .fixed (layout.endian.write 4 i.toWord.toNat))
    ++ b.upvalues.map (fun u => .fixed (layout.endian.write 2 u.pack.toNat))
    ++ [.shared (b.constants.reverse.flatMap Constant.written
      ++ b.numbers.reverse.flatMap NumberConstant.write)]
    ++ (b.kept layout).elim [] (·.segments layout.endian)

/-- The segments of a record: the length of the body, and the body. -/
def recordSegments (layout : Layout) (b : Body) : List Segment :=
  [.shared (Leb128.encode (b.written layout).length)] ++ b.segments layout

end Body

theorem DebugInfo.join_segments (e : Endian) (info : DebugInfo) :
    Segment.join (info.segments e) = info.written e := by
  rw [segments, Segment.join_append, Segment.join_map]
  simp only [Segment.join, List.flatMap_singleton, Segment.bytes, written, List.append_assoc]

theorem DebugInfo.segments_flip (e : Endian) (info : DebugInfo) :
    info.segments e.flip = (info.segments e).map Segment.flip := by
  rw [segments, segments, List.map_append, List.map_map]
  simp only [Endian.write_flip]
  rfl

namespace Body

variable {table : OpcodeTable} {layout : Layout} {b : Body}

theorem join_segments (layout : Layout) (b : Body) :
    Segment.join (b.segments layout) = b.written layout := by
  have hblock : Segment.join ((b.kept layout).elim [] (·.segments layout.endian)) =
      b.writtenBlock layout := by
    unfold writtenBlock
    cases b.kept layout with
    | none => rfl
    | some info => exact info.join_segments layout.endian
  simp only [segments, Segment.join_append, Segment.join_map, hblock]
  simp only [Segment.join, List.flatMap_singleton, Segment.bytes, written, List.append_assoc]

theorem kept_flip (layout : Layout) (b : Body) : b.kept layout.flip = b.kept layout := rfl

theorem length_block_flip (layout : Layout) (info : DebugInfo) :
    (info.written layout.flip.endian).length = (info.written layout.endian).length := by
  have hflip : info.segments layout.flip.endian = (info.segments layout.endian).map Segment.flip :=
    info.segments_flip layout.endian
  rw [← info.join_segments, hflip, Segment.length_join_flip, info.join_segments]

theorem writtenDebugHeader_flip (layout : Layout) (b : Body) :
    b.writtenDebugHeader layout.flip = b.writtenDebugHeader layout := by
  unfold writtenDebugHeader
  rw [kept_flip]
  cases b.kept layout with
  | none => rfl
  | some info => simp only [length_block_flip]

theorem segments_flip (layout : Layout) (b : Body) :
    b.segments layout.flip = (b.segments layout).map Segment.flip := by
  have hcode : b.code.map (fun i => Segment.fixed (layout.flip.endian.write 4 i.toWord.toNat)) =
      (b.code.map fun i => .fixed (layout.endian.write 4 i.toWord.toNat)).map Segment.flip := by
    rw [List.map_map]
    exact List.map_congr_left fun i _ => congrArg Segment.fixed (Endian.write_flip ..)
  have hupvalues : b.upvalues.map
        (fun u => Segment.fixed (layout.flip.endian.write 2 u.pack.toNat)) =
      (b.upvalues.map fun u => .fixed (layout.endian.write 2 u.pack.toNat)).map Segment.flip := by
    rw [List.map_map]
    exact List.map_congr_left fun u _ => congrArg Segment.fixed (Endian.write_flip ..)
  have hblock : (b.kept layout).elim [] (·.segments layout.flip.endian) =
      ((b.kept layout).elim [] (·.segments layout.endian)).map Segment.flip := by
    cases b.kept layout with
    | none => rfl
    | some info => exact info.segments_flip layout.endian
  simp only [segments, kept_flip, writtenDebugHeader_flip, hcode, hupvalues, hblock,
    List.map_append]
  rfl

theorem length_written_flip (layout : Layout) (b : Body) :
    (b.written layout.flip).length = (b.written layout).length := by
  rw [← join_segments, segments_flip, Segment.length_join_flip, join_segments]

theorem join_recordSegments (layout : Layout) (b : Body) :
    Segment.join (b.recordSegments layout) = b.record layout := by
  rw [recordSegments, Segment.join_append, Segment.join_singleton, join_segments]
  rfl

theorem recordSegments_flip (layout : Layout) (b : Body) :
    b.recordSegments layout.flip = (b.recordSegments layout).map Segment.flip := by
  rw [recordSegments, recordSegments, length_written_flip, segments_flip, List.map_append]
  rfl

theorem recordFits_flip (h : b.RecordFits table layout) : b.RecordFits table layout.flip := by
  obtain ⟨hfits, hlength⟩ := h
  refine ⟨{ hfits with debug_length := ?_ }, ?_⟩
  · intro info hinfo
    rw [length_block_flip]
    exact hfits.debug_length info hinfo
  · rw [length_written_flip]
    exact hlength

end Body

/-! ## Trees -/

namespace Prototype

variable {table : OpcodeTable} {layout : Layout} {p : Prototype}

/-- The segments of a tree: those of each record. -/
def segments (layout : Layout) (p : Prototype) : List Segment :=
  p.postOrder.flatMap fun q => q.body.recordSegments layout

theorem join_segments (layout : Layout) (p : Prototype) :
    Segment.join (p.segments layout) = p.written layout := by
  rw [segments, Segment.join_flatMap]
  exact List.flatMap_congr fun q _ => q.body.join_recordSegments layout

theorem segments_flip (layout : Layout) (p : Prototype) :
    p.segments layout.flip = (p.segments layout).map Segment.flip := by
  rw [segments, segments, List.map_flatMap]
  exact List.flatMap_congr fun q _ => q.body.recordSegments_flip layout

theorem Fits.flip (h : p.Fits table layout) : p.Fits table layout.flip where
  complete := h.complete
  records := fun q hq => Body.recordFits_flip (h.records q hq)

/-- Reading gives the same tree in either byte order. -/
theorem readBack_flip (layout : Layout) (p : Prototype) :
    p.readBack layout.flip = p.readBack layout := by
  induction p using induct with
  | node b parent children ih =>
    have hchildren : (select children b.childIndices).map (readBack layout.flip) =
        (select children b.childIndices).map (readBack layout) :=
      List.map_congr_left fun c hc => ih c (mem_of_mem_select hc)
    rw [readBack_node, readBack_node, hchildren]
    rfl

end Prototype

/-! ## Scripts -/

namespace Script

variable {table : OpcodeTable} {s : Script}

/-- The script with the other byte order in its flags. -/
def toggleOrder (s : Script) : Script :=
  { s with flags := s.flags.toggle ScriptFlags.bigEndian }

/-- The segments of a dump: what stands before the flags, the flags, the chunk name, the
records, and the zero at the end. -/
def segments (s : Script) : List Segment :=
  [.shared (magic ++ [s.version]), .flags (Output.leb32 s.flags.bits),
      .shared (writtenChunkName s.hasDebug s.chunkName)]
    ++ s.root.segments s.layout ++ [.shared [0]]

theorem hasDebug_toggleOrder (s : Script) : s.toggleOrder.hasDebug = s.hasDebug :=
  congrArg (!·) (ScriptFlags.has_toggle_of_disjoint s.flags (by decide))

theorem layout_toggleOrder (s : Script) : s.toggleOrder.layout = s.layout.flip := by
  have hendian : s.toggleOrder.endian = s.endian.flip := by
    rw [endian, toggleOrder, ScriptFlags.has_toggle_bigEndian, endian]
    cases s.flags.has ScriptFlags.bigEndian with
    | true => rfl
    | false => rfl
  rw [layout, hasDebug_toggleOrder, hendian]
  rfl

theorem join_segments (s : Script) : Segment.join s.segments = s.written := by
  rw [segments, Segment.join_append, Segment.join_append, Prototype.join_segments]
  simp only [Segment.join, List.flatMap_cons, List.flatMap_nil, Segment.bytes, written,
    writtenHeader, writtenHead, List.append_assoc, List.append_nil]

theorem segments_toggleOrder (s : Script) :
    s.toggleOrder.segments = s.segments.map Segment.flip := by
  have hflags : Output.leb32 s.toggleOrder.flags.bits = flipLowest (Output.leb32 s.flags.bits) := by
    have hbits : s.toggleOrder.flags.bits.toNat = s.flags.bits.toNat ^^^ 1 := UInt32.toNat_xor ..
    rw [Output.leb32, hbits, Leb128.encode_xor_one, Output.leb32]
  rw [segments, hflags, hasDebug_toggleOrder, layout_toggleOrder]
  simp only [segments, List.map_append, ← Prototype.segments_flip]
  rfl

theorem fits_toggleOrder (h : s.Fits table) : s.toggleOrder.Fits table where
  version := h.version
  chunkName_length := fun hdebug => h.chunkName_length (hasDebug_toggleOrder s ▸ hdebug)
  root := by
    rw [layout_toggleOrder]
    exact h.root.flip

theorem readBack_toggleOrder (table : OpcodeTable) (s : Script) :
    s.toggleOrder.readBack table = (s.readBack table).toggleOrder := by
  rw [readBack, headBack, hasDebug_toggleOrder, layout_toggleOrder, Prototype.readBack_flip]
  rfl

/-! ## The law -/

/-- A script that is written is written also in the other byte order, in as many bytes. Of
the segments of its dump those that hold an integer of a fixed width are reversed in place,
and the lowest bit of the flags changes. The dump decodes to what it decoded to before, in
the other byte order. -/
theorem byte_order_is_transparent {table : OpcodeTable} {s : Script} {bytes : Bytes}
    (hconstants : ∀ x ∈ s.walk, ∀ k ∈ x.2.body.constants, k.Keyed)
    (h : encode table s = .ok bytes) :
    ∃ other s', encode table s.toggleOrder = .ok other ∧ other.length = bytes.length ∧
      bytes = Segment.join s.segments ∧ other = Segment.join (s.segments.map Segment.flip) ∧
      decode table bytes = .ok s' ∧ decode table other = .ok s'.toggleOrder := by
  obtain ⟨hfits, rfl⟩ := encode_eq_ok.1 h
  have hkeyed := hfits.keyed hconstants
  have hother := fits_toggleOrder hfits
  have hflip : s.toggleOrder.written = Segment.join (s.segments.map Segment.flip) := by
    rw [← join_segments, segments_toggleOrder]
  refine ⟨s.toggleOrder.written, s.readBack table, encode_eq_ok.2 ⟨hother, rfl⟩, ?_,
    (join_segments s).symm, hflip, decode_of_fits hfits hkeyed, ?_⟩
  · rw [hflip, Segment.length_join_flip, join_segments]
  · rw [← readBack_toggleOrder]
    exact decode_of_fits hother hkeyed

/-- A function with an instruction, an upvalue and a line of two bytes. -/
def farLineScript : Script where
  flags := ⟨0⟩
  chunkName := [0x40, 0x61]
  root := .node
    { code := [⟨1, ⟨true, false, false, true⟩, 2, 0, 0, 0x0304⟩]
      upvalues := [⟨5, false, true⟩]
      debug := some
        { firstLine := 1, lineCount := 300, lines := [259], upvalueNames := [[0x62]] } }
    none []

/-- The dump of the function, with the low bytes first. -/
def lowFirstDump : Bytes :=
  [0x1B, 0x4C, 0x4A, 2, 0, 2, 0x40, 0x61, 22, 0, 0, 0, 1, 0, 0, 1, 5, 1, 0xAC, 2, 1, 2, 4, 3, 5,
    0x80, 3, 1, 0x62, 0, 0, 0]

/-- The dump of the function, with the high bytes first. -/
def highFirstDump : Bytes :=
  [0x1B, 0x4C, 0x4A, 2, 1, 2, 0x40, 0x61, 22, 0, 0, 0, 1, 0, 0, 1, 5, 1, 0xAC, 2, 3, 4, 2, 1, 0x80,
    5, 1, 3, 0x62, 0, 0, 0]

theorem farLineScript_in_either_order : encode pairTable farLineScript = .ok lowFirstDump ∧
    encode pairTable farLineScript.toggleOrder = .ok highFirstDump ∧
    Segment.join (farLineScript.segments.map Segment.flip) = highFirstDump ∧
    ∃ s', decode pairTable lowFirstDump = .ok s' ∧
      decode pairTable highFirstDump = .ok s'.toggleOrder := by
  have hencode : encode pairTable farLineScript = .ok lowFirstDump := by decide +kernel
  have hother : encode pairTable farLineScript.toggleOrder = .ok highFirstDump := by decide +kernel
  have hconstants : ∀ x ∈ farLineScript.walk, ∀ k ∈ x.2.body.constants, k.Keyed := by
    decide +kernel
  obtain ⟨other, s', hencode', -, -, hflip, hdecode, hdecode'⟩ :=
    byte_order_is_transparent hconstants hencode
  obtain rfl : highFirstDump = other := Except.ok.inj (hother.symm.trans hencode')
  exact ⟨hencode, hother, hflip.symm, s', hdecode, hdecode'⟩

end Script

end BytecodeDump
