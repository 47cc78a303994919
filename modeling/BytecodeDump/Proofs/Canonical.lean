-- Numbers in groups of seven bits are written in one way. No other bytes that are read as the
-- number are as few, and of up to nine bytes the written ones are told from the rest by the
-- last one, which is zero only where it stands alone.
import BytecodeDump.Proofs.Denotation

namespace BytecodeDump

namespace Leb128

/-! ## The last byte -/

theorem getLast?_encode_ne_zero {n : Nat} (h : 0 < n) : (encode n).getLast? ≠ some 0 := by
  induction n using Nat.strongRecOn with
  | ind n ih =>
    by_cases hn : n < 128
    · rw [encode_of_lt hn, List.getLast?_singleton, ne_eq, Option.some.injEq, ← UInt8.toNat_inj,
        UInt8.toNat_ofNat_of_lt' (lt_trans hn (by decide))]
      exact h.ne'
    · have hne : encode (n / 128) ≠ [] := List.ne_nil_of_length_pos (length_encode_pos _)
      rw [encode_of_ge (by omega), List.getLast?_cons_of_ne_nil hne]
      exact ih (n / 128) (by omega) (by omega)

/-- Bytes that are read as a number are its shortest form just if there is but one of them or
the last one is not zero. -/
theorem eq_encode_iff_of_scan {limit value width : Nat} {bytes : Bytes}
    (h : scan limit bytes = .done value width []) :
    bytes = encode value ↔ bytes.length = 1 ∨ bytes.getLast? ≠ some 0 := by
  refine ⟨?_, fun hlast => ?_⟩
  · rintro rfl
    rcases Nat.eq_zero_or_pos value with rfl | hpos
    · exact .inl (by simp [encode_of_lt])
    · exact .inr (getLast?_encode_ne_zero hpos)
  · induction limit generalizing bytes value width with
    | zero =>
      obtain ⟨_, _, _, hlimit, _⟩ := scan_cases h
      cases hlimit
    | succ limit ih =>
      obtain ⟨_, b, bs, hlimit, rfl, hcases⟩ := scan_cases h
      cases hlimit
      rcases hcases with ⟨hb, rfl, -, rfl⟩ | ⟨hb, inner, width, hinner, rfl, -⟩
      · rw [encode_of_lt hb, UInt8.ofNat_toNat]
      · have hne : bs ≠ [] := by
          rintro rfl
          simp [scan] at hinner
        have hbs : bs.getLast? ≠ some 0 := by
          simpa [hne, List.getLast?_cons_of_ne_nil hne] using hlast
        obtain rfl := ih hinner (.inr hbs)
        -- The higher groups are not all zero, so these are not more bytes than it takes.
        have hpos : 0 < inner := by
          by_contra hzero
          obtain rfl : inner = 0 := by omega
          simp [encode_of_lt] at hbs
        rw [encode_cons hb hpos]

/-- Up to nine bytes keep every bit, so what is true of their number is true of what is kept
of it. -/
theorem Spells.eq_encode_iff {bytes : Bytes} {n : Nat} (h : Spells bytes n)
    (hlen : bytes.length ≤ 9) :
    bytes = encode n ↔ bytes.length = 1 ∨ bytes.getLast? ≠ some 0 := by
  obtain ⟨value, hscan, hreg⟩ := h
  obtain ⟨enc, -, -, rfl, hwidth⟩ := numeral_of_scan hscan
  have hkept : register (denoted enc) = denoted enc := by
    refine Nat.mod_eq_of_lt (lt_of_not_ge fun hlarge => ?_)
    have := length_of_denoted_ge hlarge
    omega
  rw [← hreg, hkept]
  exact eq_encode_iff_of_scan hscan

end Leb128

namespace Cursor

open Leb128

variable {α : Type} {write : Cursor → Cursor} {read : Cursor → Read α} {a : α} {bytes : Bytes}
  {n : Nat}

/-! ## Forms -/

/-- At some place of some buffer the read takes just these bytes, and finds `a`. -/
def Accepts (read : Cursor → Read α) (bytes : Bytes) (a : α) : Prop :=
  ∃ c rest, c.Ahead (bytes ++ rest) ∧ read c = (.ok a, c.past bytes)

theorem spells_of_accepts (h : Accepts readLeb bytes n) : Spells bytes n := by
  obtain ⟨c, rest, hahead, hread⟩ := h
  rw [readLeb, hahead.drop_eq] at hread
  split at hread
  · rename_i value width after hscan
    obtain ⟨hvalue, hcursor⟩ := Prod.mk.inj hread
    obtain ⟨used, hsplit, rfl, hused⟩ := scan_split hscan
    have hlen : bytes.length = used.length := by
      simpa [past] using congrArg pos hcursor.symm
    obtain ⟨rfl, -⟩ := List.append_inj hsplit hlen
    refine ⟨value, ?_, Except.ok.inj hvalue⟩
    simpa using hused []
  · cases hread
  · cases hread

/-- The form in which `write` puts the value at the end of a buffer, and which `read` takes for
it: no other one is as short. -/
structure Form (write : Cursor → Cursor) (read : Cursor → Read α) (a : α) (form : Bytes) :
    Prop where
  appended : ∀ c : Cursor, c.pos = c.bytes.length → c.Adds (write c) form c.endian
  read_back : ∀ (c : Cursor) rest, c.Ahead (form ++ rest) → read c = (.ok a, c.past form)
  shortest : ∀ bytes, Accepts read bytes a → form.length ≤ bytes.length
  unique : ∀ bytes, Accepts read bytes a → bytes.length = form.length → bytes = form
  /-- Nine bytes are read without a loss of bits, and no number of 33 bits takes more than five. -/
  last : ∀ bytes, Accepts read bytes a → bytes.length ≤ 9 →
    (bytes = form ↔ bytes.length = 1 ∨ bytes.getLast? ≠ some 0)

/-- The shortest form, where both steps are those of a number of 33 bits. -/
theorem form_encode (hn : n < 2 ^ 33) (hwrite : ∀ c, write c = c.writeLeb n)
    (hread : ∀ c c', read c = (.ok a, c') ↔ c.readLeb = (.ok n, c')) :
    Form write read a (encode n) := by
  have hspells : ∀ bytes, Accepts read bytes a → Spells bytes n := by
    rintro bytes ⟨c, rest, hahead, h⟩
    exact spells_of_accepts ⟨c, rest, hahead, (hread c _).1 h⟩
  refine ⟨?_, ?_, ?_, ?_, ?_⟩
  · intro c hend
    rw [hwrite]
    exact adds_writeLeb hend n
  · intro c rest hahead
    exact (hread c _).2 (readLeb_of_ahead (by omega) hahead)
  · intro bytes h
    exact (hspells bytes h).length_le
  · intro bytes h hlen
    exact (hspells bytes h).eq_encode (by omega) hlen.le
  · intro bytes h hlen
    exact (hspells bytes h).eq_encode_iff hlen

/-! ## The law -/

/-- Each number of 32 bits, with or without a mark below it, is written in one form, which is
read back, and is the only one as short. -/
theorem numbers_have_one_shortest_form (mark : Bool) (v : UInt32) :
    (∃ form, form.length ≤ 5 ∧ Form (·.writeLeb32 v) readLeb32 v form) ∧
      ∃ form, form.length ≤ 5 ∧ Form (·.writeMarked mark v) readMarked (mark, v) form := by
  have hv := v.toNat_lt
  have hmark : (if mark then 1 else 0) = mark.toNat := by cases mark <;> rfl
  have hbit := mark.toNat_lt
  refine ⟨⟨encode v.toNat, length_encode_le (by omega), ?_⟩,
    ⟨encode (2 * v.toNat + mark.toNat), length_encode_le (by omega), ?_⟩⟩
  · refine form_encode (by omega) (fun c => rfl) fun c c' => ?_
    simp [readLeb32_eq_ok]
  · refine form_encode (by omega) (fun c => ?_) fun c c' => ?_
    · rw [writeMarked, hmark]
    · simp [readMarked_eq_ok]

end Cursor

end BytecodeDump
