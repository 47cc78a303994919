-- How reading a record depends on the number of finished prototypes: with enough of
-- them for its child constants it reads the same body, and with fewer it fails for
-- the want of one. The indices that it gives the children count down to zero.
import BytecodeDump.Proofs.Record

namespace BytecodeDump

open Reader

namespace Reader

variable {α β : Type}

/-- Where `r` finds something, `s` finds the same if there is `enough` for it, and
lacks a prototype if not. -/
def Depends (r s : Reader α) (enough : α → Prop) : Prop :=
  ∀ f a f', r f = .ok (a, f') →
    (enough a → s f = .ok (a, f')) ∧ (¬enough a → s f = .error .noPrototypeLeft)

/-- The first step is the same. -/
theorem depends_bind {r : Reader α} {k l : α → Reader β} {enough : β → Prop}
    (h : ∀ a, Depends (k a) (l a) enough) : Depends (r >>= k) (r >>= l) enough := by
  intro f b f'' hb
  obtain ⟨a, f', ha, hk⟩ := bind_eq_ok.1 hb
  rw [bind_of_ok ha]
  exact h a f' b f'' hk

/-- The first step decides whether there is enough. -/
theorem depends_bind_same {r s : Reader α} {k : α → Reader β} {enough : α → Prop}
    {enough' : β → Prop} (h : Depends r s enough)
    (hk : ∀ a f b f', k a f = .ok (b, f') → (enough' b ↔ enough a)) :
    Depends (r >>= k) (s >>= k) enough' := by
  intro f b f'' hb
  obtain ⟨a, f', ha, hka⟩ := bind_eq_ok.1 hb
  obtain ⟨henough, hlack⟩ := h f a f' ha
  rw [hk a f' b f'' hka]
  refine ⟨?_, ?_⟩
  · intro h
    rw [bind_of_ok (henough h), hka]
  · intro h
    exact bind_of_error (hlack h)

end Reader

/-! ## Constants -/

namespace Constant

/-- Only a child constant looks at the prototypes that are left. -/
theorem read_cases {pending taken : Nat} {f f' : Feed} {k : Constant}
    (h : read pending taken f = .ok (k, f')) :
    (k = .child taken ∧ ∀ other, read other taken f =
        if taken < other then .ok (k, f') else .error .noPrototypeLeft) ∨
      (k.childIndex? = none ∧ ∀ other, read other taken f = .ok (k, f')) := by
  obtain ⟨tag, f₁, htag, h⟩ := bind_eq_ok.1 h
  unfold read
  simp only [bind_of_ok htag]
  generalize ConstantKind.ofTag tag.toNat = kind at h ⊢
  cases kind with
  | child =>
    left
    dsimp only at h ⊢
    split at h
    · cases h
      refine ⟨rfl, ?_⟩
      intro other
      split <;> rfl
    · cases h
  | _ =>
    right
    refine ⟨?_, fun _ => h⟩
    obtain ⟨value, f₂, -, h⟩ := bind_eq_ok.1 h
    first
      | cases h; rfl
      | obtain ⟨value, f₃, -, h⟩ := bind_eq_ok.1 h
        cases h
        rfl

theorem depends_read (pending other taken : Nat) (htaken : taken ≤ other) :
    Depends (read pending taken) (read other taken)
      fun k => taken + k.childIndex?.toList.length ≤ other := by
  intro f k f' h
  rcases read_cases h with ⟨rfl, hother⟩ | ⟨hnone, hother⟩
  · rw [hother other]
    refine ⟨?_, ?_⟩
    · intro h
      exact if_pos h
    · intro h
      exact if_neg h
  · dsimp only
    rw [hother other, hnone]
    exact ⟨fun _ => rfl, fun hlack => absurd htaken hlack⟩

theorem depends_readAll {pending other taken : Nat} (count : Nat) (htaken : taken ≤ other) :
    Depends (readAll pending taken count) (readAll other taken count)
      fun ks => taken + childCount ks ≤ other := by
  induction count generalizing taken with
  | zero =>
    rintro f ks f' h
    cases h
    exact ⟨fun _ => rfl, fun hlack => absurd htaken hlack⟩
  | succ count ih =>
    intro f ks f'' h
    obtain ⟨k, f', hk, h⟩ := bind_eq_ok.1 h
    obtain ⟨others, f₂, hothers, h⟩ := bind_eq_ok.1 h
    cases h
    obtain ⟨hstep, hlack⟩ := depends_read pending other taken htaken f k f' hk
    dsimp only at hstep hlack ⊢
    rw [childCount_cons, ← Nat.add_assoc]
    by_cases henough : taken + k.childIndex?.toList.length ≤ other
    · obtain ⟨hrest, hlack'⟩ := ih henough f' others f'' hothers
      unfold readAll
      rw [bind_of_ok (hstep henough)]
      refine ⟨?_, ?_⟩
      · intro h
        rw [bind_of_ok (hrest h)]
        rfl
      · intro h
        exact bind_of_error (hlack' h)
    · refine ⟨?_, ?_⟩
      · intro h
        omega
      · intro _
        exact bind_of_error (hlack henough)

/-- The children are numbered in the order in which their constants stand. -/
theorem childIndices_readAll {pending taken count : Nat} {f f' : Feed} {ks : List Constant}
    (h : readAll pending taken count f = .ok (ks, f')) :
    ks.filterMap childIndex? = List.range' taken (childCount ks) := by
  induction count generalizing taken f ks with
  | zero =>
    cases h
    rfl
  | succ count ih =>
    obtain ⟨k, f', hk, h⟩ := bind_eq_ok.1 h
    obtain ⟨others, f₂, hothers, h⟩ := bind_eq_ok.1 h
    cases h
    have hrest := ih hothers
    rw [childCount_cons]
    rcases read_cases hk with ⟨rfl, -⟩ | ⟨hnone, -⟩
    · have hone : (Constant.child taken).childIndex? = some taken := rfl
      rw [hone, Option.toList_some, List.length_singleton] at hrest
      rw [List.filterMap_cons_some hone, hrest, hone, Option.toList_some, List.length_singleton,
        Nat.add_comm 1, List.range'_succ]
    · rw [hnone, Option.toList_none, List.length_nil, Nat.add_zero] at hrest
      rw [List.filterMap_cons_none hnone, hrest, hnone, Option.toList_none, List.length_nil,
        Nat.zero_add]

end Constant

/-! ## Records -/

namespace Body

theorem childCount_constants (b : Body) : Constant.childCount b.constants = b.childIndices.length :=
  rfl

theorem depends_read (table : OpcodeTable) (layout : Layout) (pending other : Nat) :
    Depends (read table layout pending) (read table layout other)
      fun b => b.childIndices.length ≤ other := by
  rw [read_eq, read_eq]
  apply depends_bind
  intro front
  apply depends_bind_same (Constant.depends_readAll _ (Nat.zero_le other))
  -- What follows the constants does not change them.
  intro constants f b f' h
  obtain ⟨numbers, f₁, -, h⟩ := bind_eq_ok.1 h
  obtain ⟨debug, f₂, -, h⟩ := bind_eq_ok.1 h
  cases h
  rw [← childCount_constants, Front.constants_body, Constant.childCount_reverse, Nat.zero_add]

theorem depends_readRecord (table : OpcodeTable) (layout : Layout) (pending other : Nat) :
    Depends (readRecord table layout pending) (readRecord table layout other)
      fun b => b.childIndices.length ≤ other := by
  apply depends_bind
  intro length
  apply depends_bind
  intro start
  apply depends_bind
  intro left f b f' h
  split at h
  · cases h
  · rename_i hleft
    rw [if_neg hleft]
    obtain ⟨body, f₁, hbody, h⟩ := bind_eq_ok.1 h
    obtain ⟨henough, hlack⟩ := depends_read table layout pending other f body f₁ hbody
    have hsame : b = body := by
      rw [pos_bind] at h
      split at h <;> cases h
      rfl
    rw [hsame]
    refine ⟨?_, ?_⟩
    · intro hb
      rw [bind_of_ok (henough hb), h, hsame]
    · intro hb
      exact bind_of_error (hlack hb)

/-- The child constants of a body that was read count down to zero. -/
theorem childIndices_read {table : OpcodeTable} {layout : Layout} {pending : Nat} {f f' : Feed}
    {b : Body} (h : read table layout pending f = .ok (b, f')) :
    b.childIndices = (List.range b.childIndices.length).reverse := by
  rw [read_eq] at h
  obtain ⟨front, _, -, h⟩ := bind_eq_ok.1 h
  obtain ⟨constants, f₁, hconstants, h⟩ := bind_eq_ok.1 h
  obtain ⟨numbers, f₂, -, h⟩ := bind_eq_ok.1 h
  obtain ⟨debug, f₃, -, h⟩ := bind_eq_ok.1 h
  cases h
  have hindices := Constant.childIndices_readAll hconstants
  unfold childIndices
  rw [Front.constants_body, List.filterMap_reverse, hindices, List.length_reverse,
    List.length_range', List.range_eq_range']

/-! ## Single records -/

/-- The bytes are one record, and this is its body. How many prototypes are left for
its child constants is another matter. -/
def IsRecord (table : OpcodeTable) (layout : Layout) (bytes : Bytes) (b : Body) : Prop :=
  ∃ pending, readRecord table layout pending (.ofBytes bytes) = .ok (b, ⟨bytes.length, []⟩)

namespace IsRecord

variable {table : OpcodeTable} {layout : Layout} {bytes : Bytes} {b : Body} {pending : Nat}

theorem of_reads (h : Reads (readRecord table layout pending) bytes b) :
    IsRecord table layout bytes b := by
  refine ⟨pending, ?_⟩
  have hall := h 0 []
  rw [List.append_nil, Nat.zero_add] at hall
  exact hall

theorem exists_reads (h : IsRecord table layout bytes b) :
    ∃ pending, Reads (readRecord table layout pending) bytes b := by
  obtain ⟨pending, h⟩ := h
  obtain ⟨taken, hrest, -, hreads⟩ := local_readRecord table layout pending _ _ _ h
  have htaken : bytes = taken := by simpa [Feed.ofBytes] using hrest
  rw [htaken]
  exact ⟨pending, hreads⟩

/-- With enough prototypes left the record is read at any place. -/
theorem reads (h : IsRecord table layout bytes b) (hpending : b.childIndices.length ≤ pending) :
    Reads (readRecord table layout pending) bytes b := by
  obtain ⟨first, hreads⟩ := h.exists_reads
  intro start rest
  exact (depends_readRecord table layout first pending _ _ _ (hreads start rest)).1 hpending

/-- With fewer prototypes left than the record has child constants there is no reading it. -/
theorem lacks (h : IsRecord table layout bytes b) (hpending : pending < b.childIndices.length)
    (start : Nat) (rest : Bytes) :
    readRecord table layout pending ⟨start, bytes ++ rest⟩ = .error .noPrototypeLeft := by
  obtain ⟨first, hreads⟩ := h.exists_reads
  exact (depends_readRecord table layout first pending _ _ _ (hreads start rest)).2
    (Nat.not_le.2 hpending)

/-- A body takes at least the byte of its flags. -/
theorem not_reads_body_nil : ¬Reads (read table layout pending) [] b := by
  intro h
  have hnil := h 0 []
  cases hnil

/-- No record begins with the zero that ends the records. -/
theorem lead (h : IsRecord table layout bytes b) :
    ∃ first others, bytes = first :: others ∧ first ≠ 0 := by
  obtain ⟨pending, h⟩ := h
  obtain ⟨spelling, body, hrest, -, hlt, hspells, hreads⟩ := readRecord_eq_ok h
  have hbytes : bytes = spelling ++ body := by simpa [Feed.ofBytes] using hrest
  have hbody : body ≠ [] := by
    rintro rfl
    exact not_reads_body_nil hreads
  obtain ⟨value, hscan, hvalue⟩ := hspells
  cases spelling with
  | nil => cases hscan
  | cons first others =>
    refine ⟨first, others ++ body, by rw [hbytes, List.cons_append], ?_⟩
    rintro rfl
    have hzero : Leb128.scan Leb128.maxLength (0 :: others) = .done 0 1 others := rfl
    rw [hzero] at hscan
    injection hscan with hscan
    rw [← hscan] at hvalue
    exact hbody (List.length_eq_zero_iff.1 hvalue.symm)

theorem childIndices (h : IsRecord table layout bytes b) :
    b.childIndices = (List.range b.childIndices.length).reverse := by
  obtain ⟨pending, h⟩ := h
  obtain ⟨spelling, body, -, -, -, -, hreads⟩ := readRecord_eq_ok h
  exact childIndices_read (hreads 0 [])

end IsRecord

/-- The form of a body that fits is a record of what reading makes of the body. -/
theorem isRecord_record {table : OpcodeTable} {layout : Layout} {b : Body}
    (h : b.RecordFits table layout) :
    IsRecord table layout (b.record layout) ((b.settled table).readBack layout) :=
  IsRecord.of_reads (reads_record h (Nat.le_refl _))

end Body

end BytecodeDump
