-- What a script can be refused for. Besides another version, writing finds only parts of
-- the tree that no dump can hold, and debug lists of the wrong length.
import BytecodeDump.Proofs.Tree
import BytecodeDump.Wire.Dump

namespace BytecodeDump

/-- What is wrong with a tree that cannot be written. -/
inductive Fault.Refusal : Fault → Prop
  | invalidGraph (cause : GraphFault) : Refusal (.invalidGraph cause)
  | debugCount (list : String) (expected found : Nat) : Refusal (.debugCount list expected found)

namespace Output

variable {α β : Type}

/-- If there is a fault, it is one of the tree. -/
def Refuses (x : Except Fault α) : Prop := ∀ fault, x = .error fault → fault.Refusal

theorem refuses_ok (a : α) : Refuses (.ok a) := by
  intro fault h
  cases h

theorem refuses_error {fault : Fault} (h : fault.Refusal) :
    Refuses (.error fault : Except Fault α) := by
  intro other hother
  cases hother
  exact h

theorem refuses_graph (cause : GraphFault) :
    Refuses (.error (.invalidGraph cause) : Except Fault α) := refuses_error (.invalidGraph cause)

theorem refuses_bind {x : Except Fault α} {k : α → Except Fault β} (h : Refuses x)
    (hk : ∀ a, Refuses (k a)) : Refuses (x >>= k) := by
  cases x with
  | error fault => exact refuses_error (h fault rfl)
  | ok a => exact hk a

/-- A check that passes or finds a part that no dump can hold. -/
theorem refuses_check {c : Prop} [Decidable c] (a : α) (cause : GraphFault) :
    Refuses (if c then .ok a else .error (.invalidGraph cause)) := by
  split
  · exact refuses_ok a
  · exact refuses_graph cause

theorem refuses_size (part : String) (n : Nat) : Refuses (size part n) := refuses_check _ _

theorem refuses_tag (n : Nat) : Refuses (tag n) := refuses_check _ _

theorem refuses_each {write : α → Except Fault Bytes} {items : List α}
    (h : ∀ x ∈ items, Refuses (write x)) : Refuses (each write items) := by
  have hall : Refuses (items.mapM write) := by
    induction items with
    | nil => exact refuses_ok []
    | cons x xs ih =>
      rw [List.mapM_cons]
      apply refuses_bind (h x List.mem_cons_self)
      intro piece
      apply refuses_bind (ih fun y hy => h y (List.mem_cons_of_mem x hy))
      exact fun _ => refuses_ok _
  exact refuses_bind hall fun _ => refuses_ok _

end Output

open Output

/-! ## Constants -/

theorem TableValue.refuses_write (v : TableValue) : Refuses v.write :=
  refuses_bind (refuses_tag _) fun _ => refuses_ok _

theorem Table.refuses_write (t : Table) : Refuses t.write := by
  apply refuses_bind (refuses_size _ _)
  intro arraySize
  apply refuses_bind (refuses_size _ _)
  intro dictSize
  apply refuses_bind (refuses_each fun v _ => v.refuses_write)
  intro array
  have hpair (pair : TableValue × TableValue) : Refuses (writePair pair) :=
    refuses_bind pair.1.refuses_write fun _ => refuses_bind pair.2.refuses_write fun _ =>
      refuses_ok _
  exact refuses_bind (refuses_each fun pair _ => hpair pair) fun _ => refuses_ok _

theorem Constant.refuses_write (k : Constant) : Refuses k.write := by
  apply refuses_bind (refuses_tag _)
  intro tag
  cases k with
  | table t => exact refuses_bind t.refuses_write fun _ => refuses_ok _
  | _ => exact refuses_ok _

/-! ## Debug blocks -/

namespace DebugInfo

theorem refuses_writeName (path : Path) (name : Bytes) : Refuses (writeName path name) := by
  unfold writeName
  split
  · exact refuses_graph _
  · exact refuses_ok _

theorem refuses_writeLocalName (path : Path) (name : LocalName) :
    Refuses (writeLocalName path name) := by
  cases name with
  | loop v => exact refuses_ok _
  | named name =>
    unfold writeLocalName
    dsimp only
    split
    · exact refuses_graph _
    · exact refuses_writeName path name

theorem refuses_writeLocals (path : Path) (previous : UInt32) (vs : List LocalVariable) :
    Refuses (writeLocals path previous vs) := by
  induction vs generalizing previous with
  | nil => exact refuses_ok []
  | cons v vs ih =>
    apply refuses_bind (refuses_writeLocalName path v.name)
    intro name
    split
    · exact refuses_graph _
    · exact refuses_bind (ih v.first) fun _ => refuses_ok _

theorem refuses_write (e : Endian) (path : Path) (instructions upvalues : Nat)
    (info : DebugInfo) : Refuses (info.write e path instructions upvalues) := by
  unfold write
  dsimp only
  split
  · exact refuses_error (.debugCount _ _ _)
  · split
    · exact refuses_error (.debugCount _ _ _)
    · apply refuses_bind (refuses_each fun _ _ => refuses_check _ _)
      intro lines
      apply refuses_bind (refuses_each fun name _ => refuses_writeName path name)
      intro names
      exact refuses_bind (refuses_writeLocals path 0 info.locals) fun _ => refuses_ok _

end DebugInfo

/-! ## Records -/

namespace Body

theorem refuses_writeDebug (layout : Layout) (path : Path) (b : Body) :
    Refuses (writeDebug layout path b) := by
  unfold writeDebug
  split
  · exact refuses_bind (DebugInfo.refuses_write _ _ _ _ _) fun _ => refuses_ok _
  · exact refuses_ok _

theorem refuses_writeDebugHeader (layout : Layout) (debug : Option (DebugInfo × Bytes)) :
    Refuses (writeDebugHeader layout debug) := by
  cases debug with
  | none => exact refuses_ok _
  | some block => exact refuses_bind (refuses_size _ _) fun _ => refuses_ok _

theorem refuses_write (table : OpcodeTable) (layout : Layout) (path : Path) (b : Body) :
    Refuses (b.write table layout path) := by
  apply refuses_bind (refuses_check _ _)
  intro upvalueCount
  apply refuses_bind (refuses_size _ _)
  intro constantCount
  apply refuses_bind (refuses_size _ _)
  intro numberCount
  apply refuses_bind (refuses_size _ _)
  intro instructionCount
  apply refuses_bind (refuses_writeDebug layout path b)
  intro debug
  apply refuses_bind (refuses_writeDebugHeader layout debug)
  intro debugHeader
  apply refuses_bind (refuses_each fun _ _ => refuses_check _ _)
  intro code
  apply refuses_bind (refuses_each fun _ _ => refuses_check _ _)
  intro upvalues
  exact refuses_bind (refuses_each fun k _ => k.refuses_write) fun _ => refuses_ok _

theorem refuses_writeRecord (table : OpcodeTable) (layout : Layout) (path : Path) (b : Body) :
    Refuses (b.writeRecord table layout path) :=
  refuses_bind (b.refuses_write table layout path) fun _ =>
    refuses_bind (refuses_size _ _) fun _ => refuses_ok _

end Body

/-! ## Trees -/

namespace Prototype

theorem refuses_childOrder (path : Path) (body : Body) (children : Nat) :
    Refuses (childOrder path body children) := by
  unfold childOrder
  generalize body.childIndices = indices
  generalize ([] : List Nat) = seen
  induction indices generalizing seen with
  | nil =>
    unfold childOrder.go
    split
    · exact refuses_graph _
    · exact refuses_ok []
  | cons index rest ih =>
    unfold childOrder.go
    split
    · exact refuses_graph _
    · split
      · exact refuses_graph _
      · exact refuses_bind (ih (index :: seen)) fun _ => refuses_ok _

theorem refuses_write (table : OpcodeTable) (layout : Layout) (path : Path) (p : Prototype) :
    Refuses (p.write table layout path) := by
  induction p using induct generalizing path with
  | node body parent children ih =>
    unfold write
    apply refuses_bind (refuses_childOrder path body children.length)
    intro order
    dsimp only
    refine refuses_bind (refuses_each ?_) fun _ =>
      refuses_bind (body.refuses_writeRecord table layout path) fun _ => refuses_ok _
    intro index _
    rw [List.getD_eq_getElem?_getD, getElem?_writeList]
    cases hchild : children[index]? with
    | none => exact refuses_ok []
    | some c => exact ih c (List.mem_of_getElem? hchild) _

end Prototype

/-! ## Scripts -/

namespace Script

theorem refuses_writeChunkName (s : Script) : Refuses s.writeChunkName := by
  unfold writeChunkName
  split
  · exact refuses_bind (refuses_size _ _) fun _ => refuses_ok _
  · exact refuses_ok []

/-- A script is refused for its version or for something in its tree. -/
theorem encode_eq_error {table : OpcodeTable} {s : Script} {fault : Fault}
    (h : encode table s = .error fault) :
    (s.version ≠ formatVersion ∧ fault = .version s.version) ∨ fault.Refusal := by
  unfold encode at h
  by_cases hversion : s.version = formatVersion
  · rw [if_neg (not_not.2 hversion)] at h
    refine .inr (refuses_bind (refuses_writeChunkName s) (fun _ => ?_) fault h)
    exact refuses_bind (Prototype.refuses_write table s.layout .root s.root) fun _ => refuses_ok _
  · rw [if_pos hversion] at h
    cases h
    exact .inl ⟨hversion, rfl⟩

end Script

end BytecodeDump
