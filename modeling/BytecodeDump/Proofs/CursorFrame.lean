-- What the steps of a cursor leave as it was, in every run. The place stays within the bytes,
-- and these within what is reserved. A read or a move changes no more than the place, a write
-- no bytes but those that it covers, and a step that fails changes nothing, if it is not one
-- for a number in groups of seven bits.
import BytecodeDump.Proofs.Transcript

namespace BytecodeDump

theorem Leb128.lt_length_of_tooLong {limit : Nat} {bytes : Bytes} (h : scan limit bytes = .tooLong) :
    limit < bytes.length := by
  fun_induction scan limit bytes with
  | case1 => cases h
  | case2 => simp
  | case3 => cases h
  | case4 => cases h
  | case5 limit b bs _ _ ih => simp_all

namespace Cursor

/-! ## Steps -/

/-- A step of reading. -/
inductive Request where
  | bytes (count : Nat)
  | cstring
  /-- The byte at the place, which is not passed. -/
  | peek
  | uint8
  | uint16
  | uint32
  | int8
  | int16
  | int32
  | uint (width : Nat)
  | int (width : Nat)
  | leb32
  | marked
  deriving DecidableEq

namespace Request

def read : Request → Cursor → Read Finding
  | bytes count, c => (c.readBytes count).map .bytes
  | cstring, c => c.readCString.map .bytes
  | peek, c => (c.peek.map .uint8, c)
  | uint8, c => c.readUInt8.map .uint8
  | uint16, c => c.readUInt16.map .uint16
  | uint32, c => c.readUInt32.map .uint32
  | int8, c => c.readInt8.map .int8
  | int16, c => c.readInt16.map .int16
  | int32, c => c.readInt32.map .int32
  | uint width, c => (c.readUInt width).map .uint32
  | int width, c => (c.readInt width).map .int32
  | leb32, c => c.readLeb32.map .uint32
  | marked, c => c.readMarked.map fun (mark, value) => .marked mark value

/-- Whether a number in groups of seven bits is asked for. -/
def Grouped : Request → Prop
  | leb32 | marked => True
  | _ => False

end Request

/-- Any step. A step of writing may also be one that says the byte order. -/
inductive Operation where
  | seek (pos : Nat)
  | skip (delta : Int)
  | clear
  | read (request : Request)
  | write (entry : Entry)
  deriving DecidableEq

/-- The step, and the cursor after it. -/
def Operation.step : Operation → Cursor → Read Finding
  | seek pos, c => (.ok .nothing, c.seek pos)
  | skip delta, c => (.ok .nothing, c.skip delta)
  | clear, c => (.ok .nothing, c.clear)
  | read request, c => request.read c
  | write entry, c =>
    match entry.write c with
    | .ok c' => (.ok .nothing, c')
    | .error fault => (.error fault, c)

/-- The cursor after some steps, also of such as fail. -/
def run (steps : List Operation) (c : Cursor) : Cursor :=
  steps.foldl (fun c operation => (operation.step c).2) c

/-- How a cursor comes about. -/
inductive Origin where
  | new
  /-- Over bytes that are handed over, with room reserved for so many more. -/
  | handedOver (bytes : Bytes) (spare : Nat)
  /-- Over a copy of some bytes. -/
  | copied (bytes : Bytes)

def Origin.cursor : Origin → Cursor
  | new => empty
  | handedOver bytes spare => { ofBytes bytes with capacity := bytes.length + spare }
  | copied bytes => ofBytes bytes

/-! ## Places -/

/-- The place is within the bytes, and these are within what is reserved. -/
structure Sound (c : Cursor) : Prop where
  pos_le : c.pos ≤ c.bytes.length
  length_le : c.bytes.length ≤ c.capacity

/-- The second cursor is the first one at some place of the buffer. -/
def Moved (c c' : Cursor) : Prop := ∃ pos ≤ c.bytes.length, c' = { c with pos }

/-- The second cursor is the first one at the same or a later place of the buffer. -/
def Onward (c c' : Cursor) : Prop := ∃ pos, c.pos ≤ pos ∧ pos ≤ c.bytes.length ∧ c' = { c with pos }

variable {c c' c'' : Cursor} {α β : Type} {read : Read α} {bytes others : Bytes}

theorem Onward.moved (h : c.Onward c') : c.Moved c' := by
  obtain ⟨pos, -, hpos, rfl⟩ := h
  exact ⟨pos, hpos, rfl⟩

theorem Moved.sound (h : c.Moved c') (hc : c.Sound) : c'.Sound := by
  obtain ⟨pos, hpos, rfl⟩ := h
  exact ⟨hpos, hc.length_le⟩

theorem onward_self (h : c.pos ≤ c.bytes.length) : c.Onward c := ⟨c.pos, le_rfl, h, rfl⟩

theorem moved_seek (c : Cursor) (pos : Nat) : c.Moved (c.seek pos) :=
  ⟨min pos c.bytes.length, Nat.min_le_right _ _, rfl⟩

theorem moved_skip (c : Cursor) (delta : Int) : c.Moved (c.skip delta) := moved_seek c _

/-! ## Reads -/

/-- A read goes on in the buffer, and one that fails leaves the cursor where it was. -/
structure Careful (c : Cursor) (read : Read α) : Prop where
  onward : c.Onward read.2
  failed : ∀ fault, read.1 = .error fault → read.2 = c

theorem Careful.map (h : c.Careful read) (f : α → β) : c.Careful (read.map f) := by
  refine ⟨h.onward, ?_⟩
  intro fault hfault
  obtain ⟨found, after⟩ := read
  cases found with
  | ok a => cases hfault
  | error other => exact h.failed other rfl

theorem careful_readBytes (h : c.pos ≤ c.bytes.length) (count : Nat) :
    c.Careful (c.readBytes count) := by
  unfold readBytes
  split
  · rename_i hfits
    exact ⟨⟨_, Nat.le_add_right _ _, hfits, rfl⟩, by simp⟩
  · exact ⟨onward_self h, fun _ _ => rfl⟩

theorem careful_readCString (h : c.pos ≤ c.bytes.length) : c.Careful c.readCString := by
  unfold readCString
  dsimp only
  split
  · rename_i hzero
    rw [List.length_drop] at hzero
    exact ⟨⟨_, by omega, by omega, rfl⟩, by simp⟩
  · exact ⟨onward_self h, fun _ _ => rfl⟩

/-- A number of a fixed width, whatever is made of its bytes. -/
theorem careful_fixed (h : c.pos ≤ c.bytes.length) (width : Nat) (f : Bytes → α) :
    c.Careful (match checkWidth width with
      | .error fault => ((.error fault, c) : Read α)
      | .ok () => (c.readBytes width).map f) := by
  split
  · exact ⟨onward_self h, fun _ _ => rfl⟩
  · exact (careful_readBytes h width).map f

theorem onward_readLeb (h : c.pos ≤ c.bytes.length) : c.Onward c.readLeb.2 := by
  have hleft : (c.bytes.drop c.pos).length = c.bytes.length - c.pos := List.length_drop
  unfold readLeb
  split
  · rename_i value width rest hscan
    obtain ⟨used, hsplit, rfl, -⟩ := Leb128.scan_split hscan
    rw [hsplit, List.length_append] at hleft
    exact ⟨_, Nat.le_add_right _ _, by omega, rfl⟩
  · exact ⟨_, h, le_rfl, rfl⟩
  · rename_i hscan
    have hlong := Leb128.lt_length_of_tooLong hscan
    exact ⟨_, by omega, by omega, rfl⟩

namespace Request

theorem onward_read (h : c.pos ≤ c.bytes.length) (request : Request) :
    c.Onward (request.read c).2 ∧
      (¬request.Grouped → ∀ fault, (request.read c).1 = .error fault → (request.read c).2 = c) := by
  have hcareful : ∀ {read : Read Finding}, c.Careful read →
      c.Onward read.2 ∧ (¬request.Grouped → ∀ fault, read.1 = .error fault → read.2 = c) :=
    fun h => ⟨h.onward, fun _ => h.failed⟩
  have huint : ∀ width, c.Careful (c.readUInt width) := fun width => careful_fixed h width _
  have hint : ∀ width, c.Careful (c.readInt width) := fun width => careful_fixed h width _
  cases request with
  | bytes count => exact hcareful ((careful_readBytes h count).map _)
  | cstring => exact hcareful ((careful_readCString h).map _)
  | peek => exact ⟨onward_self h, fun _ _ _ => rfl⟩
  | uint8 => exact hcareful (((careful_readBytes h 1).map _).map _)
  | uint16 => exact hcareful (((huint 2).map _).map _)
  | uint32 => exact hcareful ((huint 4).map _)
  | int8 => exact hcareful (((hint 1).map _).map _)
  | int16 => exact hcareful (((hint 2).map _).map _)
  | int32 => exact hcareful ((hint 4).map _)
  | uint width => exact hcareful ((huint width).map _)
  | int width => exact hcareful ((hint width).map _)
  | leb32 => exact ⟨onward_readLeb h, fun hgrouped => absurd trivial hgrouped⟩
  | marked => exact ⟨onward_readLeb h, fun hgrouped => absurd trivial hgrouped⟩

end Request

/-! ## Writes -/

/-- The second cursor is the first one after a write of some bytes: these stand at the place,
which is now behind them, and all others stand where they stood. -/
structure Covers (c c' : Cursor) (bytes : Bytes) : Prop where
  inside : ∀ k < bytes.length, c'.bytes[c.pos + k]? = bytes[k]?
  outside : ∀ k, k < c.pos ∨ c.pos + bytes.length ≤ k → c'.bytes[k]? = c.bytes[k]?
  length_eq : c'.bytes.length = max c.bytes.length (c.pos + bytes.length)
  pos_eq : c'.pos = c.pos + bytes.length

theorem covers_writeBytes (h : c.pos ≤ c.bytes.length) (bytes : Bytes) :
    c.Covers (c.writeBytes bytes) bytes := by
  have hbefore : (c.bytes.take c.pos).length = c.pos := List.length_take_of_le h
  have hbytes : (c.writeBytes bytes).bytes =
      c.bytes.take c.pos ++ (bytes ++ c.bytes.drop (c.pos + bytes.length)) := by
    rw [writeBytes, List.append_assoc]
  refine ⟨?_, ?_, ?_, rfl⟩
  · intro k hk
    rw [hbytes, List.getElem?_append_right (by omega), hbefore, Nat.add_sub_cancel_left,
      List.getElem?_append_left hk]
  · rintro k (hk | hk)
    · rw [hbytes, List.getElem?_append_left (by omega), List.getElem?_take_of_lt hk]
    · rw [hbytes, List.getElem?_append_right (by omega), hbefore,
        List.getElem?_append_right (by omega), List.getElem?_drop]
      congr 1
      omega
  · rw [hbytes, List.length_append, List.length_append, List.length_drop, hbefore]
    omega

theorem covers_nil (h : c.pos ≤ c.bytes.length) : c.Covers c [] :=
  ⟨by simp, fun _ _ => rfl, by simpa using h, rfl⟩

/-- Two writes in a row cover what one write of all their bytes covers. -/
theorem Covers.trans (h : c.Covers c' bytes) (h' : c'.Covers c'' others) :
    c.Covers c'' (bytes ++ others) := by
  have hpos := h.pos_eq
  refine ⟨?_, ?_, ?_, ?_⟩
  · intro k hk
    by_cases hfirst : k < bytes.length
    · rw [h'.outside _ (.inl (by omega)), h.inside k hfirst, List.getElem?_append_left hfirst]
    · rw [List.length_append] at hk
      have hplace : c.pos + k = c'.pos + (k - bytes.length) := by omega
      rw [hplace, h'.inside _ (by omega), List.getElem?_append_right (by omega)]
  · intro k hk
    rw [List.length_append] at hk
    rw [h'.outside k (by omega), h.outside k (by omega)]
  · rw [h'.length_eq, h.length_eq, hpos, List.length_append]
    omega
  · rw [h'.pos_eq, hpos, List.length_append, Nat.add_assoc]

/-- What is reserved after writes of some pieces from a place on. A piece that fits leaves it
as it was, and another one makes it half as large again, or as large as it needs. -/
def reservedAfter : Nat → Nat → List Bytes → Nat
  | capacity, _, [] => capacity
  | capacity, pos, piece :: pieces =>
    let stop := pos + piece.length
    reservedAfter (if stop ≤ capacity then capacity else max (capacity + capacity / 2) stop) stop pieces

theorem reservedAfter_of_fits {capacity pos : Nat} {pieces : List Bytes}
    (h : pos + pieces.flatten.length ≤ capacity) : reservedAfter capacity pos pieces = capacity := by
  induction pieces generalizing pos with
  | nil => rfl
  | cons piece pieces ih =>
    rw [List.flatten_cons, List.length_append, ← Nat.add_assoc] at h
    rw [reservedAfter, if_pos (by omega)]
    exact ih h

/-- Writes of some pieces, one after the other. -/
def writeEach (pieces : List Bytes) (c : Cursor) : Cursor := pieces.foldl writeBytes c

theorem covers_writeEach (h : c.Sound) (pieces : List Bytes) :
    c.Covers (writeEach pieces c) pieces.flatten ∧ (writeEach pieces c).Sound ∧
      (writeEach pieces c).capacity = reservedAfter c.capacity c.pos pieces := by
  induction pieces generalizing c with
  | nil => exact ⟨covers_nil h.pos_le, h, rfl⟩
  | cons piece pieces ih =>
    have hfirst := covers_writeBytes h.pos_le piece
    have hcapacity : (c.writeBytes piece).capacity =
        if c.pos + piece.length ≤ c.capacity then c.capacity
        else max (c.capacity + c.capacity / 2) (c.pos + piece.length) := by
      simp only [writeBytes, grown, ← Nat.not_le, ite_not]
    have hsound : (c.writeBytes piece).Sound := by
      have := h.length_le
      refine ⟨?_, ?_⟩
      · rw [hfirst.pos_eq, hfirst.length_eq]
        exact Nat.le_max_right _ _
      · rw [hfirst.length_eq, hcapacity]
        split <;> omega
    obtain ⟨hrest, hlast, hreserved⟩ := ih hsound
    refine ⟨hfirst.trans hrest, hlast, ?_⟩
    rw [reservedAfter, ← hcapacity, ← hfirst.pos_eq]
    exact hreserved

theorem endian_writeEach (pieces : List Bytes) (c : Cursor) :
    (writeEach pieces c).endian = c.endian := by
  induction pieces generalizing c with
  | nil => rfl
  | cons piece pieces ih => exact ih _

theorem writeLeb_eq_writeEach (c : Cursor) (n : Nat) :
    c.writeLeb n = { writeEach ((Leb128.encode n).map ([·])) c with endian := c.endian } := by
  rw [writeLeb, ← List.foldl_map]
  exact congrArg (Cursor.mk _ _ _) (endian_writeEach _ c)

namespace Entry

/-- The pieces in which the bytes of an entry are written. The zero after a name is a piece of
its own, and so is each byte of a number in groups of seven bits. -/
def pieces (endian : Endian) : Entry → List Bytes
  | order _ => []
  | cstring name => [name, [0]]
  | e@(leb32 _) | e@(marked _ _) => (e.written endian).map ([·])
  | e => [e.written endian]

theorem flatten_pieces (endian : Endian) (e : Entry) :
    (e.pieces endian).flatten = e.written endian := by
  have hsingle : ∀ bytes : Bytes, (bytes.map ([·])).flatten = bytes := by
    intro bytes
    simp [← List.flatMap_def]
  cases e <;> simp [pieces, hsingle, written]

theorem eq_writeEach_of_write {e : Entry} (h : e.write c = .ok c') :
    c' = { writeEach (e.pieces c.endian) c with endian := e.orderAfter c.endian } := by
  cases e with
  | uint value width =>
    obtain ⟨-, rfl⟩ := writeUInt_eq_ok.1 h
    rfl
  | int value width =>
    obtain ⟨-, rfl⟩ := writeUInt_eq_ok.1 h
    rfl
  | leb32 value =>
    obtain rfl := Except.ok.inj h
    exact writeLeb_eq_writeEach c _
  | marked mark value =>
    obtain rfl := Except.ok.inj h
    exact writeLeb_eq_writeEach c _
  | _ =>
    obtain rfl := Except.ok.inj h
    rfl

end Entry

/-! ## Runs -/

theorem sound_step (h : c.Sound) (operation : Operation) : (operation.step c).2.Sound := by
  cases operation with
  | seek pos => exact (moved_seek c pos).sound h
  | skip delta => exact (moved_skip c delta).sound h
  | clear => exact ⟨le_rfl, Nat.zero_le _⟩
  | read request => exact (request.onward_read h.pos_le).1.moved.sound h
  | write entry =>
    rw [Operation.step]
    split
    · rename_i c' hwrite
      have hlast := (covers_writeEach h (entry.pieces c.endian)).2.1
      rw [Entry.eq_writeEach_of_write hwrite]
      exact ⟨hlast.pos_le, hlast.length_le⟩
    · exact h

theorem sound_run (h : c.Sound) (steps : List Operation) : (run steps c).Sound := by
  induction steps generalizing c with
  | nil => exact h
  | cons operation steps ih => exact ih (sound_step h operation)

theorem Origin.sound_cursor (origin : Origin) : origin.cursor.Sound := by
  cases origin with
  | new => exact ⟨le_rfl, Nat.zero_le _⟩
  | handedOver bytes spare => exact ⟨Nat.zero_le _, Nat.le_add_right _ _⟩
  | copied bytes => exact ⟨Nat.zero_le _, le_rfl⟩

/-! ## The law -/

/-- What one more step does to a cursor. -/
structure Framed (c : Cursor) : Prop where
  seek : ∀ pos, c.Moved (c.seek pos)
  skip : ∀ delta, c.Moved (c.skip delta)
  read : ∀ request : Request, c.Moved (request.read c).2
  write : ∀ (entry : Entry) c', entry.write c = .ok c' → c.Covers c' (entry.written c.endian)
  reserved : ∀ (entry : Entry) c', entry.write c = .ok c' →
    c'.capacity = reservedAfter c.capacity c.pos (entry.pieces c.endian)
  fits : ∀ (entry : Entry) c', entry.write c = .ok c' →
    c.pos + (entry.written c.endian).length ≤ c.capacity → c'.capacity = c.capacity
  /-- A write of all its bytes at once that does not fit. -/
  grows : ∀ (entry : Entry) c', entry.write c = .ok c' →
    entry.pieces c.endian = [entry.written c.endian] →
    c.capacity < c.pos + (entry.written c.endian).length →
    c'.capacity = max (c.capacity + c.capacity / 2) (c.pos + (entry.written c.endian).length)
  failed : ∀ (operation : Operation) fault c', operation.step c = (.error fault, c') →
    (∀ request, operation = .read request → ¬request.Grouped) → c' = c
  failed_number : ∀ (request : Request) fault c', request.read c = (.error fault, c') → c.Onward c'

theorem framed_of_sound (h : c.Sound) : c.Framed where
  seek := moved_seek c
  skip := moved_skip c
  read request := (request.onward_read h.pos_le).1.moved
  write entry c' hwrite := by
    have hcovers := (covers_writeEach h (entry.pieces c.endian)).1
    rw [Entry.flatten_pieces] at hcovers
    rw [Entry.eq_writeEach_of_write hwrite]
    exact ⟨hcovers.inside, hcovers.outside, hcovers.length_eq, hcovers.pos_eq⟩
  reserved entry c' hwrite := by
    rw [Entry.eq_writeEach_of_write hwrite]
    exact (covers_writeEach h _).2.2
  fits entry c' hwrite hfits := by
    rw [← Entry.flatten_pieces] at hfits
    rw [Entry.eq_writeEach_of_write hwrite, ← reservedAfter_of_fits hfits]
    exact (covers_writeEach h _).2.2
  grows entry c' hwrite honce hgrows := by
    have hreserved := (covers_writeEach h (entry.pieces c.endian)).2.2
    rw [Entry.eq_writeEach_of_write hwrite]
    rw [honce, reservedAfter, if_neg (by omega)] at hreserved
    rw [honce]
    exact hreserved
  failed operation fault c' hstep hplain := by
    cases operation with
    | seek pos => cases hstep
    | skip delta => cases hstep
    | clear => cases hstep
    | read request =>
      have hsame := (request.onward_read h.pos_le).2 (hplain request rfl) fault
      rw [Operation.step] at hstep
      rw [hstep] at hsame
      exact hsame rfl
    | write entry =>
      rw [Operation.step] at hstep
      split at hstep <;> cases hstep
      rfl
  failed_number request fault c' hread := by
    have honward := (request.onward_read h.pos_le).1
    rw [hread] at honward
    exact honward

/-- After any steps the place is within the bytes and these are within what is reserved, and
one more step keeps to its part of the cursor. -/
theorem runs_stay_within_the_buffer (origin : Origin) (steps : List Operation) :
    (run steps origin.cursor).Sound ∧ (run steps origin.cursor).Framed :=
  have hsound := sound_run origin.sound_cursor steps
  ⟨hsound, framed_of_sound hsound⟩

/-- A name and the zero after it are two writes, and can reserve more than one write of as many
bytes: for four bytes and the zero these are six. -/
theorem names_may_grow_a_buffer_twice :
    ¬∀ (origin : Origin) (steps : List Operation) (entry : Entry) (c' : Cursor),
      let c := run steps origin.cursor
      let stop := c.pos + (entry.written c.endian).length
      entry.write c = .ok c' →
        c'.capacity =
          if stop ≤ c.capacity then c.capacity else max (c.capacity + c.capacity / 2) stop := by
  intro h
  have hname := h (.copied []) [] (.cstring [1, 2, 3, 4]) _ rfl
  exact absurd hname (by decide)

end Cursor

end BytecodeDump
