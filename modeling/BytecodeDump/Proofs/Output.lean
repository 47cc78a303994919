-- The laws of the parts that every writer is made of: when they succeed, and what
-- they write then.
import BytecodeDump.Wire.Output
import Mathlib

namespace BytecodeDump

namespace Output

variable {ε α β : Type}

theorem andThen_eq_ok {x : Except ε α} {k : α → Except ε β} {b : β} :
    (x >>= k) = .ok b ↔ ∃ a, x = .ok a ∧ k a = .ok b := by
  refine ⟨?_, ?_⟩
  · intro h
    cases x with
    | error fault => cases h
    | ok a => exact ⟨a, rfl, h⟩
  · rintro ⟨a, rfl, h⟩
    exact h

theorem pure_eq_ok {a b : α} : (pure a : Except ε α) = .ok b ↔ b = a := by
  refine ⟨?_, ?_⟩
  · intro h
    cases h
    rfl
  · rintro rfl
    rfl

/-- A check that passes or ends in a fault. -/
theorem check_eq_ok {c : Prop} [Decidable c] {a b : α} {fault : Fault} :
    (if c then Except.ok a else .error fault) = .ok b ↔ c ∧ b = a := by
  by_cases h : c
  · rw [if_pos h]
    simp [h, eq_comm]
  · rw [if_neg h]
    simp [h]

theorem size_eq_ok {part : String} {n : Nat} {out : Bytes} :
    size part n = .ok out ↔ n < 0x100000000 ∧ out = Leb128.encode n := by
  unfold size
  exact check_eq_ok

theorem tag_eq_ok {n : Nat} {out : Bytes} :
    tag n = .ok out ↔ n < 0x100000000 ∧ out = Leb128.encode n := by
  unfold tag
  exact check_eq_ok

/-- A step with a condition for success and a form for each item is done for all of
them just when all conditions hold, and gives the forms in a row. -/
theorem each_eq_ok {write : α → Except Fault Bytes} {fits : α → Prop} {written : α → Bytes}
    {items : List α} (h : ∀ x ∈ items, ∀ piece, write x = .ok piece ↔ fits x ∧ piece = written x)
    (out : Bytes) :
    each write items = .ok out ↔ (∀ x ∈ items, fits x) ∧ out = items.flatMap written := by
  have hall : ∀ pieces, items.mapM write = .ok pieces ↔
      (∀ x ∈ items, fits x) ∧ pieces = items.map written := by
    induction items with
    | nil =>
      intro pieces
      simp [pure_eq_ok]
    | cons x xs ih =>
      intro pieces
      have hx := h x List.mem_cons_self
      have hxs := ih fun y hy => h y (List.mem_cons_of_mem x hy)
      rw [List.mapM_cons, andThen_eq_ok]
      refine ⟨?_, ?_⟩
      · rintro ⟨piece, hpiece, hrest⟩
        obtain ⟨others, hothers, hpieces⟩ := andThen_eq_ok.1 hrest
        obtain ⟨hfx, rfl⟩ := (hx piece).1 hpiece
        obtain ⟨hfxs, rfl⟩ := (hxs others).1 hothers
        refine ⟨?_, pure_eq_ok.1 hpieces⟩
        intro y hy
        rcases List.mem_cons.1 hy with rfl | hy
        · exact hfx
        · exact hfxs y hy
      · rintro ⟨hfits, rfl⟩
        refine ⟨written x, (hx _).2 ⟨hfits x List.mem_cons_self, rfl⟩, ?_⟩
        refine andThen_eq_ok.2 ⟨xs.map written, (hxs _).2 ⟨?_, rfl⟩, rfl⟩
        exact fun y hy => hfits y (List.mem_cons_of_mem x hy)
  unfold each
  rw [andThen_eq_ok]
  refine ⟨?_, ?_⟩
  · rintro ⟨pieces, hpieces, hout⟩
    obtain ⟨hfits, rfl⟩ := (hall pieces).1 hpieces
    exact ⟨hfits, pure_eq_ok.1 hout⟩
  · rintro ⟨hfits, rfl⟩
    exact ⟨_, (hall _).2 ⟨hfits, rfl⟩, rfl⟩

/-- The same where each item stands with its number and the number plays no part. -/
theorem each_zipIdx_eq_ok (write : α × Nat → Except Fault Bytes) {fits : α → Prop}
    {written : α → Bytes} (items : List α)
    (h : ∀ x n piece, write (x, n) = .ok piece ↔ fits x ∧ piece = written x) (out : Bytes) :
    each write items.zipIdx = .ok out ↔ (∀ x ∈ items, fits x) ∧ out = items.flatMap written := by
  have hfst : items.zipIdx.map (·.1) = items := List.zipIdx_map_fst 0 items
  have hfits : (∀ x ∈ items.zipIdx, fits x.1) ↔ ∀ x ∈ items, fits x := by
    conv_rhs => rw [← hfst]
    simp only [List.mem_map, forall_exists_index, and_imp, forall_apply_eq_imp_iff₂]
  have hwritten : items.zipIdx.flatMap (fun x => written x.1) = items.flatMap written := by
    conv_rhs => rw [← hfst, List.flatMap_map]
  have hstep : ∀ x ∈ items.zipIdx, ∀ piece, write x = .ok piece ↔
      (fun x : α × Nat => fits x.1) x ∧ piece = (fun x : α × Nat => written x.1) x :=
    fun x _ piece => h x.1 x.2 piece
  rw [each_eq_ok hstep, hfits, hwritten]

end Output

end BytecodeDump
