-- What an opcode table decides. Decoding with any table gives the same fault, or the same
-- script but for the slots and the operands of the instructions. Encoding with any table
-- gives the same bytes, if the table gives each opcode the slots that the script has.
import BytecodeDump.Proofs.ReadBack

namespace BytecodeDump

/-! ## Opcodes alone -/

namespace Instruction

/-- The opcode alone, without slots and operands. -/
def bare (i : Instruction) : Instruction := blank i.opcode .none

end Instruction

namespace Body

/-- The body with the opcodes of its instructions alone. -/
def bare (b : Body) : Body := { b with code := b.code.map Instruction.bare }

theorem childIndices_bare (b : Body) : b.bare.childIndices = b.childIndices := rfl

end Body

namespace Script

/-- The script with the opcodes of its instructions alone. -/
def bare (s : Script) : Script := { s with root := s.root.mapBodies Body.bare }

end Script

/-! ## Reading with any table -/

namespace Reader

variable {α β : Type}

theorem map_fail (g : α → β) (fault : Feed → Fault) :
    g <$> (fail fault : Reader α) = fail fault := rfl

theorem map_apply (g : α → β) (r : Reader α) (f : Feed) :
    (g <$> r) f = (fun found => (g found.1, found.2)) <$> r f := by
  show (r f >>= fun found => pure (g found.1, found.2)) = _
  rw [bind_pure_comp]

theorem map_short (g : α → β) (needed : Nat) : g <$> (short needed : Reader α) = short needed := rfl

end Reader

namespace Body

variable (table : OpcodeTable) (layout : Layout) (pending : Nat)

theorem bare_read : bare <$> read table layout pending = read Script.bareTable layout pending := by
  simp only [read, map_bind, map_pure, bare, List.map_map]
  rfl

theorem bare_readRecord :
    bare <$> readRecord table layout pending = readRecord Script.bareTable layout pending := by
  simp only [readRecord, map_bind, apply_ite (bare <$> ·), Reader.map_short, Reader.map_fail,
    map_pure, ← bare_read table, bind_map_left]

end Body

namespace Prototype

theorem map_finish (stack : List Prototype) (b : Body) :
    (finish stack b).map (mapBodies Body.bare) =
      finish (stack.map (mapBodies Body.bare)) b.bare := by
  rw [finish, finish, List.map_cons, mapBodies_node, List.map_take, List.map_drop,
    Body.childIndices_bare]

theorem bare_readAll (table : OpcodeTable) (layout : Layout) (steps : Nat)
    (stack : List Prototype) :
    List.map (mapBodies Body.bare) <$> readAll table layout steps stack =
      readAll Script.bareTable layout steps (stack.map (mapBodies Body.bare)) := by
  induction steps generalizing stack with
  | zero => rfl
  | succ steps ih =>
    simp only [readAll, map_bind, apply_ite (List.map (mapBodies Body.bare) <$> ·), map_pure, ih,
      map_finish, ← Body.bare_readRecord table, bind_map_left, List.length_map]

end Prototype

namespace Script

theorem bare_linkParents (s : Script) : s.linkParents.bare = s.bare.linkParents :=
  congrArg (fun root => { s with root }) (Prototype.link_mapBodies Body.bare s.root none .root).symm

theorem bare_readTree (table : OpcodeTable) (head : Script) :
    bare <$> readTree table head = readTree bareTable head := by
  have hall : ∀ left, Prototype.readAll bareTable head.layout left [] =
      List.map (Prototype.mapBodies Body.bare) <$> Prototype.readAll table head.layout left [] :=
    fun left => (Prototype.bare_readAll table head.layout left []).symm
  simp only [readTree, map_bind, hall, bind_map_left]
  refine bind_congr fun _ => bind_congr fun stack => bind_congr fun _ => ?_
  rw [apply_ite (bare <$> ·), Reader.map_fail]
  congr 1
  -- The one prototype that is left is the root; how many there are does not change.
  rcases stack with _ | ⟨root, _ | ⟨second, others⟩⟩
  · rfl
  · rw [List.map_singleton, map_pure, bare_linkParents]
    rfl
  · simp only [List.map_cons, List.length_cons, List.length_map, Reader.map_fail]

/-- Every table finds the same fault, or the same script but for slots and operands. -/
theorem bare_decode (table : OpcodeTable) (bytes : Bytes) :
    bare <$> decode table bytes = decode bareTable bytes := by
  have hread : bare <$> read table = read bareTable := by
    rw [read_eq, read_eq, map_bind]
    exact congrArg (readHeader >>= ·) (funext (bare_readTree table))
  have hfound : (bare ·.1) <$> read table ⟨3, bytes.drop 3⟩ =
      (·.1) <$> read bareTable ⟨3, bytes.drop 3⟩ := by
    rw [← hread, Reader.map_apply, Functor.map_map]
  unfold decode
  split
  · rw [bind_pure_comp, bind_pure_comp, Functor.map_map, hfound]
  · rfl

/-! ## Writing with another table -/

variable {table other : OpcodeTable} {s : Script}

/-- The slots of a script that fits are those of the table, for each opcode in it. -/
theorem Fits.slots (h : s.Fits table) :
    ∀ x ∈ s.walk, ∀ i ∈ x.2.body.code, i.slots = table.slots i.opcode :=
  (Prototype.forall_postOrder_iff
    (P := fun q => ∀ i ∈ q.body.code, i.slots = table.slots i.opcode) h.root.complete .root).1
    fun q hq => (h.root.records q hq).1.code

/-- A script fits for another table if this one gives it the slots that it has. -/
theorem Fits.of_slots (h : s.Fits table)
    (hslots : ∀ x ∈ s.walk, ∀ i ∈ x.2.body.code, i.slots = other.slots i.opcode) :
    s.Fits other where
  version := h.version
  chunkName_length := h.chunkName_length
  root := by
    refine ⟨h.root.complete, fun q hq => ?_⟩
    have hcode := (Prototype.forall_postOrder_iff
      (P := fun q => ∀ i ∈ q.body.code, i.slots = other.slots i.opcode)
      h.root.complete .root).2 hslots q hq
    obtain ⟨hfits, hlength⟩ := h.root.records q hq
    exact ⟨{ hfits with code := hcode }, hlength⟩

theorem fits_iff_same_slots (h : s.Fits table) :
    s.Fits other ↔
      ∀ x ∈ s.walk, ∀ i ∈ x.2.body.code, table.slots i.opcode = other.slots i.opcode := by
  refine ⟨?_, ?_⟩
  · intro hother x hx i hi
    exact (h.slots x hx i hi).symm.trans (hother.slots x hx i hi)
  · intro hsame
    exact h.of_slots fun x hx i hi => (h.slots x hx i hi).trans (hsame x hx i hi)

/-! ## The law -/

/-- An opcode table decides how words are read, and no more. Any two tables find the same
fault in the same bytes, or the same script but for the slots and operands of instructions.
If both encode a script they give the same bytes. And what one of them decoded is encoded by
the other just if both declare the same slots for each opcode in it. -/
theorem tables_decide_words_alone (table other : OpcodeTable) :
    (∀ bytes,
      (∃ fault, decode table bytes = .error fault ∧ decode other bytes = .error fault) ∨
        ∃ s t, decode table bytes = .ok s ∧ decode other bytes = .ok t ∧ s.bare = t.bare) ∧
      (∀ s out out', encode table s = .ok out → encode other s = .ok out' → out = out') ∧
      ∀ bytes s, decode table bytes = .ok s →
        ((∃ out, encode other s = .ok out) ↔
          ∀ x ∈ s.walk, ∀ i ∈ x.2.body.code, table.slots i.opcode = other.slots i.opcode) := by
  refine ⟨?_, ?_, ?_⟩
  · intro bytes
    have hsame : bare <$> decode table bytes = bare <$> decode other bytes :=
      (bare_decode table bytes).trans (bare_decode other bytes).symm
    cases htable : decode table bytes with
    | error fault =>
      cases hother : decode other bytes with
      | error fault' =>
        rw [htable, hother] at hsame
        cases hsame
        exact .inl ⟨fault, rfl, rfl⟩
      | ok t =>
        rw [htable, hother] at hsame
        cases hsame
    | ok s =>
      cases hother : decode other bytes with
      | error fault =>
        rw [htable, hother] at hsame
        cases hsame
      | ok t =>
        rw [htable, hother] at hsame
        exact .inr ⟨s, t, rfl, rfl, Except.ok.inj hsame⟩
  · intro s out out' hout hout'
    exact (encode_eq_ok.1 hout).2.trans (encode_eq_ok.1 hout').2.symm
  · intro bytes s h
    obtain ⟨_, -, hsound⟩ := sound_of_decode table h
    rw [← fits_iff_same_slots hsound.fits]
    simp only [encode_eq_ok, exists_and_left, exists_eq, and_true]

/-- The table in which an opcode declares nothing does not encode what was decoded with
operands, and reads the same dump without them. -/
theorem pairNormal_needs_its_table : decode pairTable pairDump = .ok pairNormal ∧
    (∃ t, decode bareTable pairDump = .ok t ∧ t.bare = pairNormal.bare) ∧
    ¬∃ out, encode bareTable pairNormal = .ok out := by
  have hdecode : decode pairTable pairDump = .ok pairNormal := by decide +kernel
  obtain ⟨hreads, -, hencodes⟩ := tables_decide_words_alone pairTable bareTable
  refine ⟨hdecode, ?_, ?_⟩
  · obtain ⟨fault, hfault, -⟩ | ⟨s, t, hs, ht, hbare⟩ := hreads pairDump
    · cases hdecode.symm.trans hfault
    · cases hdecode.symm.trans hs
      exact ⟨t, ht, hbare.symm⟩
  · rw [hencodes pairDump pairNormal hdecode]
    intro hall
    have hslots : ∀ x ∈ pairNormal.walk, ∀ i ∈ x.2.body.code, False := by
      intro x hx i hi
      cases hall x hx i hi
    exact absurd hslots (by decide +kernel)

end Script

end BytecodeDump
