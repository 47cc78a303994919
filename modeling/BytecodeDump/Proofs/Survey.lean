-- Surveys: readers that also note the parts that they read. For each reader of a dump
-- there is a survey with the same steps, and without its notes the survey is the reader.
import BytecodeDump.Proofs.Part
import BytecodeDump.Wire.Dump

namespace BytecodeDump

/-- A reader that also notes the parts that it read. -/
def Survey (α : Type) := Reader (α × List Part)

namespace Survey

variable {α β : Type}

instance : Monad Survey where
  pure a := fun f => .ok ((a, []), f)
  bind s k := fun f =>
    match s f with
    | .ok ((a, parts), f') =>
      match k a f' with
      | .ok ((b, others), f'') => .ok ((b, parts ++ others), f'')
      | .error fault => .error fault
    | .error fault => .error fault

/-- The survey without its notes. -/
def forget (s : Survey α) : Reader α := fun f =>
  match s f with
  | .ok ((a, _), f') => .ok (a, f')
  | .error fault => .error fault

/-- Notes the bytes that a reader took as one part. -/
def taking (r : Reader α) (part : Bytes → α → Part) : Survey α := fun f =>
  match r f with
  | .ok (a, f') => .ok ((a, [part (f.rest.take (f'.pos - f.pos)) a]), f')
  | .error fault => .error fault

/-- Notes nothing. -/
def quiet (r : Reader α) : Survey α := fun f =>
  match r f with
  | .ok (a, f') => .ok ((a, []), f')
  | .error fault => .error fault

/-- Notes a part that has no bytes. -/
def note (part : Part) : Survey Unit := fun f => .ok (((), [part]), f)

def fail (fault : Feed → Fault) : Survey α := quiet (Reader.fail fault)

def short (needed : Nat) : Survey α := quiet (Reader.short needed)

def pos : Survey Nat := quiet Reader.pos

def left : Survey Nat := quiet Reader.left

def peek : Survey UInt8 := quiet Reader.peek

def byte : Survey UInt8 := taking Reader.byte fun bytes _ => .plain bytes

def bytes (count : Nat) : Survey Bytes := taking (Reader.bytes count) fun bytes _ => .plain bytes

def fixed (e : Endian) (width : Nat) : Survey Nat :=
  taking (Reader.fixed e width) fun bytes _ => .plain bytes

/-- The word of an instruction. -/
def word (e : Endian) : Survey Nat := taking (Reader.fixed e 4) fun bytes _ => .word e bytes

def cstring : Survey Bytes := taking Reader.cstring fun bytes _ => .plain bytes

def leb32 : Survey UInt32 := taking Reader.leb32 fun bytes n => .number bytes n.toNat

def marked : Survey (Bool × UInt32) :=
  taking Reader.marked fun bytes (mark, n) => .number bytes (Reader.markedNumber mark n)

def word64 : Survey UInt64 := do
  let low ← leb32
  let high ← leb32
  return Word.join low high

def times (step : Survey α) : Nat → Survey (List α)
  | 0 => return []
  | count + 1 => do
    let first ← step
    let others ← times step count
    return first :: others

/-! ## Without the notes -/

@[simp] theorem forget_pure (a : α) : (pure a : Survey α).forget = pure a := rfl

@[simp] theorem forget_bind (s : Survey α) (k : α → Survey β) :
    (s >>= k).forget = s.forget >>= fun a => (k a).forget := by
  funext f
  change (match (s >>= k) f with
    | .ok ((b, _), f'') => Except.ok (b, f'')
    | .error fault => .error fault) = _
  cases hs : s f with
  | error fault =>
    have hforget : s.forget f = .error fault := by simp only [forget, hs]
    rw [Reader.bind_of_error hforget]
    simp only [bind, hs]
  | ok found =>
    obtain ⟨⟨a, parts⟩, f'⟩ := found
    have hforget : s.forget f = .ok (a, f') := by simp only [forget, hs]
    rw [Reader.bind_of_ok hforget]
    simp only [bind, hs, forget]
    cases k a f' <;> rfl

@[simp] theorem forget_quiet (r : Reader α) : (quiet r).forget = r := by
  funext f
  unfold forget quiet
  cases r f <;> rfl

@[simp] theorem forget_taking (r : Reader α) (part : Bytes → α → Part) :
    (taking r part).forget = r := by
  funext f
  unfold forget taking
  cases r f <;> rfl

@[simp] theorem forget_note (part : Part) : (note part).forget = pure () := rfl

@[simp] theorem forget_word64 : word64.forget = Reader.word64 := by
  simp [word64, Reader.word64, leb32]

theorem forget_times {s : Survey α} {r : Reader α} (h : s.forget = r) (count : Nat) :
    (times s count).forget = Reader.times r count := by
  induction count with
  | zero => rfl
  | succ count ih => simp [times, Reader.times, h, ih]

@[simp] theorem forget_ite {c : Prop} [Decidable c] (s t : Survey α) :
    (if c then s else t).forget = if c then s.forget else t.forget := by
  split <;> rfl

@[simp] theorem forget_fail (fault : Feed → Fault) :
    (fail fault : Survey α).forget = Reader.fail fault :=
  forget_quiet _

@[simp] theorem forget_short (needed : Nat) :
    (short needed : Survey α).forget = Reader.short needed :=
  forget_quiet _

@[simp] theorem forget_pos : pos.forget = Reader.pos := forget_quiet _

@[simp] theorem forget_left : left.forget = Reader.left := forget_quiet _

@[simp] theorem forget_peek : peek.forget = Reader.peek := forget_quiet _

@[simp] theorem forget_byte : byte.forget = Reader.byte := forget_taking _ _

@[simp] theorem forget_bytes (count : Nat) : (bytes count).forget = Reader.bytes count :=
  forget_taking _ _

@[simp] theorem forget_fixed (e : Endian) (width : Nat) :
    (fixed e width).forget = Reader.fixed e width := forget_taking _ _

@[simp] theorem forget_word (e : Endian) : (word e).forget = Reader.fixed e 4 := forget_taking _ _

@[simp] theorem forget_cstring : cstring.forget = Reader.cstring := forget_taking _ _

@[simp] theorem forget_leb32 : leb32.forget = Reader.leb32 := forget_taking _ _

@[simp] theorem forget_marked : marked.forget = Reader.marked := forget_taking _ _

end Survey

/-! ## Constants -/

namespace TableValue

def survey : Survey TableValue := do
  let tag ← Survey.leb32
  match TableValueKind.ofTag tag.toNat with
  | .nil => return .nil
  | .false => return .bool false
  | .true => return .bool true
  | .int32 => return .int32 (← Survey.leb32).toInt32
  | .int64 => return .int64 (← Survey.word64).toInt64
  | .string => return .string (← Survey.bytes (tag.toNat - 5))

@[simp] theorem forget_survey : survey.forget = read := by
  unfold survey read
  simp only [Survey.forget_bind, Survey.forget_leb32]
  congr 1
  funext tag
  cases TableValueKind.ofTag tag.toNat <;> simp

end TableValue

namespace Table

def surveyPair : Survey (TableValue × TableValue) := do
  let key ← TableValue.survey
  let value ← TableValue.survey
  return (key, value)

/-- The keys are noted as they were listed. -/
def survey : Survey Table := do
  let arraySize ← Survey.leb32
  let dictSize ← Survey.leb32
  let array ← Survey.times TableValue.survey arraySize.toNat
  let pairs ← Survey.times surveyPair dictSize.toNat
  Survey.note (.keys (keys pairs))
  return pairs.foldl (fun t (key, value) => t.set key value) ⟨array, []⟩

@[simp] theorem forget_surveyPair : surveyPair.forget = readPair := by
  simp [surveyPair, readPair]

@[simp] theorem forget_survey : survey.forget = read := by
  simp [survey, read, Survey.forget_times TableValue.forget_survey,
    Survey.forget_times forget_surveyPair]

end Table

namespace Constant

def survey (pending taken : Nat) : Survey Constant := do
  let tag ← Survey.leb32
  match ConstantKind.ofTag tag.toNat with
  | .child =>
    if taken < pending then return .child taken else Survey.fail fun _ => .noPrototypeLeft
  | .table => return .table (← Table.survey)
  | .int64 => return .int64 (← Survey.word64).toInt64
  | .uint64 => return .uint64 (← Survey.word64)
  | .complex =>
    let re ← Survey.word64
    let im ← Survey.word64
    return .complex ⟨⟨re⟩, ⟨im⟩⟩
  | .string => return .string (← Survey.bytes (tag.toNat - 5))

def surveyAll (pending : Nat) : Nat → Nat → Survey (List Constant)
  | _, 0 => return []
  | taken, count + 1 => do
    let first ← survey pending taken
    let others ← surveyAll pending (taken + first.childIndex?.toList.length) count
    return first :: others

@[simp] theorem forget_survey (pending taken : Nat) :
    (survey pending taken).forget = read pending taken := by
  unfold survey read
  simp only [Survey.forget_bind, Survey.forget_leb32]
  congr 1
  funext tag
  cases ConstantKind.ofTag tag.toNat <;> simp

@[simp] theorem forget_surveyAll (pending taken count : Nat) :
    (surveyAll pending taken count).forget = readAll pending taken count := by
  induction count generalizing taken with
  | zero => rfl
  | succ count ih => simp [surveyAll, readAll, ih]

end Constant

namespace NumberConstant

def survey : Survey NumberConstant := do
  let (isDouble, low) ← Survey.marked
  if isDouble then
    let high ← Survey.leb32
    return .double ⟨Word.join low high⟩
  else return .int low.toInt32

@[simp] theorem forget_survey : survey.forget = read := by
  simp [survey, read]

end NumberConstant

/-! ## Debug blocks -/

namespace LocalVariable

def surveyName (lead : UInt8) : Survey LocalName := do
  match LoopVariable.ofCode? lead with
  | some v =>
    let _ ← Survey.byte
    return .loop v
  | none => return .named (← Survey.cstring)

def survey (lead : UInt8) (previous : UInt32) : Survey LocalVariable := do
  let start ← Survey.pos
  let name ← surveyName lead
  let distance ← Survey.leb32
  let count ← Survey.leb32
  if previous.toNat + distance.toNat < 0x100000000 then return ⟨name, previous + distance, count⟩
  else Survey.fail fun _ => .corrupted (.scopeTooLarge start)

def surveyAll : Nat → UInt32 → Survey (List LocalVariable)
  | 0, _ => Survey.short 1
  | steps + 1, previous => do
    let lead ← Survey.peek
    if lead = 0 then
      let _ ← Survey.byte
      return []
    else
      let first ← survey lead previous
      let others ← surveyAll steps first.first
      return first :: others

@[simp] theorem forget_surveyName (lead : UInt8) : (surveyName lead).forget = readName lead := by
  unfold surveyName readName
  cases LoopVariable.ofCode? lead <;> simp

@[simp] theorem forget_survey (lead : UInt8) (previous : UInt32) :
    (survey lead previous).forget = read lead previous := by
  simp [survey, read]

@[simp] theorem forget_surveyAll (steps : Nat) (previous : UInt32) :
    (surveyAll steps previous).forget = readAll steps previous := by
  induction steps generalizing previous with
  | zero => simp [surveyAll, readAll]
  | succ steps ih => simp [surveyAll, readAll, ih]

end LocalVariable

namespace DebugInfo

def survey (e : Endian) (firstLine lineCount : UInt32) (instructions upvalues : Nat) :
    Survey DebugInfo := do
  let info : DebugInfo := { firstLine, lineCount }
  let lines ← Survey.times (Survey.fixed e info.lineWidth) instructions
  let upvalueNames ← Survey.times Survey.cstring upvalues
  let locals ← LocalVariable.surveyAll (← Survey.left) 0
  return { info with lines := lines.map UInt32.ofNat, upvalueNames, locals }

@[simp] theorem forget_survey (e : Endian) (firstLine lineCount : UInt32)
    (instructions upvalues : Nat) :
    (survey e firstLine lineCount instructions upvalues).forget =
      read e firstLine lineCount instructions upvalues := by
  simp [survey, read, Survey.forget_times (Survey.forget_fixed e _),
    Survey.forget_times Survey.forget_cstring]

end DebugInfo

/-! ## Records -/

namespace Body

def surveyDebugHeader (layout : Layout) : Survey (Option DebugHeader) := do
  if layout.debug then
    let length ← Survey.leb32
    if length = 0 then return none
    else
      let firstLine ← Survey.leb32
      let lineCount ← Survey.leb32
      return some ⟨length.toNat, firstLine, lineCount⟩
  else return none

def surveyDebug (e : Endian) (header : DebugHeader) (instructions upvalues : Nat) :
    Survey DebugInfo := do
  let start ← Survey.pos
  let info ← DebugInfo.survey e header.firstLine header.lineCount instructions upvalues
  let used := (← Survey.pos) - start
  if used = header.length then return info
  else Survey.fail fun _ => .corrupted (.debugLength start header.length used)

/-- The debug block, if the header says that there is one. -/
def surveyBlock (e : Endian) (header : Option DebugHeader) (instructions upvalues : Nat) :
    Survey (Option DebugInfo) :=
  match header with
  | some header => return some (← surveyDebug e header instructions upvalues)
  | none => return none

def survey (table : OpcodeTable) (layout : Layout) (pending : Nat) : Survey Body := do
  let flags ← Survey.byte
  let args ← Survey.byte
  let maxSlot ← Survey.byte
  let upvalueCount ← Survey.byte
  let constantCount ← Survey.leb32
  let numberCount ← Survey.leb32
  let instructionCount ← Survey.leb32
  let header ← surveyDebugHeader layout
  let words ← Survey.times (Survey.word layout.endian) instructionCount.toNat
  let packed ← Survey.times (Survey.fixed layout.endian 2) upvalueCount.toNat
  let constants ← Constant.surveyAll pending 0 constantCount.toNat
  let numbers ← Survey.times NumberConstant.survey numberCount.toNat
  let debug ← surveyBlock layout.endian header instructionCount.toNat upvalueCount.toNat
  return {
    flags := ⟨flags⟩, args, maxSlot, debug
    code := words.map fun word => Instruction.ofWord table (.ofNat word)
    upvalues := packed.map fun raw => Upvalue.unpack (.ofNat raw)
    constants := constants.reverse
    numbers := numbers.reverse }

def surveyRecord (table : OpcodeTable) (layout : Layout) (pending : Nat) : Survey Body := do
  let length ← Survey.leb32
  let start ← Survey.pos
  if (← Survey.left) < length.toNat then Survey.short length.toNat
  else
    let body ← survey table layout pending
    let used := (← Survey.pos) - start
    if used = length.toNat then return body
    else Survey.fail fun _ => .corrupted (.prototypeLength start length.toNat used)

@[simp] theorem forget_surveyDebugHeader (layout : Layout) :
    (surveyDebugHeader layout).forget = readDebugHeader layout := by
  simp [surveyDebugHeader, readDebugHeader]

@[simp] theorem forget_surveyDebug (e : Endian) (header : DebugHeader)
    (instructions upvalues : Nat) :
    (surveyDebug e header instructions upvalues).forget =
      readDebug e header instructions upvalues := by
  simp [surveyDebug, readDebug]

@[simp] theorem forget_surveyBlock (e : Endian) (header : Option DebugHeader)
    (instructions upvalues : Nat) :
    (surveyBlock e header instructions upvalues).forget =
      header.mapM fun header => readDebug e header instructions upvalues := by
  cases header with
  | none => rfl
  | some header => simp [surveyBlock]

@[simp] theorem forget_survey (table : OpcodeTable) (layout : Layout) (pending : Nat) :
    (survey table layout pending).forget = read table layout pending := by
  simp [survey, read, Survey.forget_times (Survey.forget_word _),
    Survey.forget_times (Survey.forget_fixed _ _), Survey.forget_times NumberConstant.forget_survey]

@[simp] theorem forget_surveyRecord (table : OpcodeTable) (layout : Layout) (pending : Nat) :
    (surveyRecord table layout pending).forget = readRecord table layout pending := by
  simp [surveyRecord, readRecord]

end Body

/-! ## Dumps -/

namespace Prototype

def surveyAll (table : OpcodeTable) (layout : Layout) :
    Nat → List Prototype → Survey (List Prototype)
  | 0, _ => Survey.short 1
  | steps + 1, stack => do
    if (← Survey.peek) = 0 then
      let _ ← Survey.byte
      return stack
    else
      let body ← Body.surveyRecord table layout stack.length
      surveyAll table layout steps (finish stack body)

@[simp] theorem forget_surveyAll (table : OpcodeTable) (layout : Layout) (steps : Nat)
    (stack : List Prototype) :
    (surveyAll table layout steps stack).forget = readAll table layout steps stack := by
  induction steps generalizing stack with
  | zero => simp [surveyAll, readAll]
  | succ steps ih => simp [surveyAll, readAll, ih]

end Prototype

namespace Script

def surveyFlags : Survey Script := do
  let flags ← Survey.leb32
  return { flags := ⟨flags⟩, chunkName := [] }

def surveyChunkName (debug : Bool) : Survey Bytes := do
  if debug then
    let length ← Survey.leb32
    Survey.bytes length.toNat
  else return []

/-- The survey of what follows the magic bytes. -/
def surveyBytes (table : OpcodeTable) : Survey Script := do
  let version ← Survey.byte
  if version ≠ formatVersion then Survey.fail fun _ => .version version
  else
    let header ← surveyFlags
    let chunkName ← surveyChunkName header.hasDebug
    let stack ← Prototype.surveyAll table header.layout (← Survey.left) []
    let trailing ← Survey.left
    if trailing ≠ 0 then Survey.fail fun _ => .corrupted (.trailing trailing)
    else match stack with
      | [root] => return linkParents { header with chunkName, root }
      | _ => Survey.fail fun _ => .corrupted (.roots stack.length)

/-- The script of a dump and the parts that its decoder reads. -/
def survey (table : OpcodeTable) (bytes : Bytes) : Except Fault (Script × List Part) :=
  if bytes.take 3 = magic then do
    let (s, parts) := (← surveyBytes table ⟨3, bytes.drop 3⟩).1
    return (s, .plain magic :: parts)
  else .error .notADump

@[simp] theorem forget_surveyFlags : surveyFlags.forget = readFlags := by
  simp [surveyFlags, readFlags]

@[simp] theorem forget_surveyChunkName (debug : Bool) :
    (surveyChunkName debug).forget = readChunkName debug := by
  simp [surveyChunkName, readChunkName]

@[simp] theorem forget_surveyBytes (table : OpcodeTable) :
    (surveyBytes table).forget = read table := by
  unfold surveyBytes read
  simp only [Survey.forget_bind, Survey.forget_ite, Survey.forget_byte, Survey.forget_fail,
    forget_surveyFlags, forget_surveyChunkName, Survey.forget_left, Prototype.forget_surveyAll]
  congr 1
  funext version
  congr 1
  congr 1
  funext header
  congr 1
  funext chunkName
  congr 1
  funext left
  congr 1
  funext stack
  congr 1
  funext trailing
  congr 1
  split <;> simp

/-- Without its notes the survey of a dump is decoding. -/
theorem survey_eq_decode (table : OpcodeTable) (bytes : Bytes) :
    (·.1) <$> survey table bytes = decode table bytes := by
  unfold survey decode
  split
  · rw [← forget_surveyBytes]
    unfold Survey.forget
    cases surveyBytes table ⟨3, bytes.drop 3⟩ <;> rfl
  · rfl

end Script

end BytecodeDump
