-- The laws of the single fields of a dump: raw bytes, integers of a fixed width,
-- numbers in groups of seven bits, and names that end with a zero. For each, what it
-- reads and that it is local.
import BytecodeDump.Proofs.Reader
import BytecodeDump.Wire.Output

namespace BytecodeDump

namespace Reader

/-! ## Raw bytes -/

theorem reads_byte (b : UInt8) : Reads byte [b] b := fun _ _ => rfl

theorem byte_eq_ok {f f' : Feed} {b : UInt8} (h : byte f = .ok (b, f')) :
    f.rest = b :: f'.rest ∧ f'.pos = f.pos + 1 := by
  obtain ⟨start, rest⟩ := f
  rcases rest with _ | ⟨c, cs⟩
  · cases h
  · cases h
    exact ⟨rfl, rfl⟩

theorem local_byte : Local byte := by
  intro f b f' h
  obtain ⟨hrest, hpos⟩ := byte_eq_ok h
  exact ⟨[b], hrest, hpos, reads_byte b⟩

theorem reads_bytes (found : Bytes) : Reads (bytes found.length) found found := by
  intro start rest
  simp [bytes]

theorem bytes_eq_ok {count : Nat} {f f' : Feed} {found : Bytes}
    (h : bytes count f = .ok (found, f')) :
    found.length = count ∧ f.rest = found ++ f'.rest ∧ f'.pos = f.pos + count := by
  unfold bytes at h
  by_cases hlen : (f.rest.take count).length = count
  · rw [if_pos hlen] at h
    cases h
    exact ⟨hlen, (List.take_append_drop count f.rest).symm, rfl⟩
  · rw [if_neg hlen] at h
    cases h

theorem local_bytes (count : Nat) : Local (bytes count) := by
  intro f found f' h
  obtain ⟨rfl, hrest, hpos⟩ := bytes_eq_ok h
  exact ⟨found, hrest, hpos, reads_bytes found⟩

/-! ## Integers of a fixed width -/

theorem reads_fixed (e : Endian) (found : Bytes) :
    Reads (fixed e found.length) found (e.read found) :=
  reads_bind_nil (reads_bytes found) (reads_pure _)

theorem reads_fixed_write (e : Endian) {width n : Nat} (h : n < Endian.span width) :
    Reads (fixed e width) (e.write width n) n := by
  have hread := reads_fixed e (e.write width n)
  rw [Endian.length_write, Endian.read_write, Nat.mod_eq_of_lt h] at hread
  exact hread

theorem local_fixed (e : Endian) (width : Nat) : Local (fixed e width) :=
  local_bind (local_bytes width) fun _ => local_pure _

/-! ## Numbers in groups of seven bits -/

theorem reads_leb {spelling : Bytes} {n : Nat} (h : Leb128.Spells spelling n) :
    Reads leb spelling n := by
  obtain ⟨value, hscan, rfl⟩ := h
  intro start rest
  obtain ⟨used, hsplit, -, hothers⟩ := Leb128.scan_split hscan
  rw [List.append_nil] at hsplit
  subst hsplit
  unfold leb
  rw [hothers rest]

theorem leb_eq_ok {f f' : Feed} {n : Nat} (h : leb f = .ok (n, f')) :
    ∃ spelling, f.rest = spelling ++ f'.rest ∧ f'.pos = f.pos + spelling.length ∧
      Leb128.Spells spelling n := by
  unfold leb at h
  split at h
  · rename_i value width rest hscan
    cases h
    obtain ⟨used, hsplit, rfl, hothers⟩ := Leb128.scan_split hscan
    have halone := hothers []
    rw [List.append_nil] at halone
    exact ⟨used, hsplit, rfl, value, halone, rfl⟩
  · cases h
  · cases h

/-- The number that stands for a mark and a number of 32 bits. -/
def markedNumber (mark : Bool) (n : UInt32) : Nat := 2 * n.toNat + if mark then 1 else 0

theorem markedNumber_lt (mark : Bool) (n : UInt32) : markedNumber mark n < 0x200000000 := by
  have := n.toNat_lt
  unfold markedNumber
  split <;> omega

theorem reads_leb32_of_spells {spelling : Bytes} {n : UInt32}
    (h : Leb128.Spells spelling n.toNat) : Reads leb32 spelling n := by
  apply reads_pos
  intro start
  apply reads_bind_nil (reads_leb h)
  rw [if_pos n.toNat_lt, UInt32.ofNat_toNat]
  exact reads_pure n

theorem leb32_eq_ok {f f' : Feed} {n : UInt32} (h : leb32 f = .ok (n, f')) :
    ∃ spelling, f.rest = spelling ++ f'.rest ∧ f'.pos = f.pos + spelling.length ∧
      Leb128.Spells spelling n.toNat := by
  obtain ⟨start, _, hstart, h⟩ := bind_eq_ok.1 h
  cases hstart
  obtain ⟨value, f₁, hleb, hn⟩ := bind_eq_ok.1 h
  by_cases hlt : value < 0x100000000
  · rw [if_pos hlt] at hn
    cases hn
    have hvalue : (UInt32.ofNat value).toNat = value := UInt32.toNat_ofNat_of_lt' hlt
    rw [hvalue]
    exact leb_eq_ok hleb
  · rw [if_neg hlt] at hn
    cases hn

theorem reads_leb32 (n : UInt32) : Reads leb32 (Output.leb32 n) n :=
  reads_leb32_of_spells (Leb128.spells_encode (lt_trans n.toNat_lt (by norm_num)))

theorem reads_leb32_nat {n : Nat} (h : n < 0x100000000) :
    Reads leb32 (Leb128.encode n) (UInt32.ofNat n) := by
  have hread := reads_leb32 (UInt32.ofNat n)
  rw [Output.leb32, UInt32.toNat_ofNat_of_lt' h] at hread
  exact hread

theorem local_leb32 : Local leb32 := by
  intro f n f' h
  obtain ⟨spelling, hrest, hpos, hspells⟩ := leb32_eq_ok h
  exact ⟨spelling, hrest, hpos, reads_leb32_of_spells hspells⟩

theorem reads_marked_of_spells {spelling : Bytes} {mark : Bool} {n : UInt32}
    (h : Leb128.Spells spelling (markedNumber mark n)) : Reads marked spelling (mark, n) := by
  have hn := n.toNat_lt
  have hhalf : markedNumber mark n / 2 = n.toNat := by
    unfold markedNumber
    split <;> omega
  have hmark : decide (markedNumber mark n % 2 = 1) = mark := by
    unfold markedNumber
    cases mark <;> simp
  apply reads_pos
  intro start
  apply reads_bind_nil (reads_leb h)
  rw [hhalf, hmark, if_pos hn, UInt32.ofNat_toNat]
  exact reads_pure (mark, n)

theorem marked_eq_ok {f f' : Feed} {mark : Bool} {n : UInt32}
    (h : marked f = .ok ((mark, n), f')) :
    ∃ spelling, f.rest = spelling ++ f'.rest ∧ f'.pos = f.pos + spelling.length ∧
      Leb128.Spells spelling (markedNumber mark n) := by
  obtain ⟨start, _, hstart, h⟩ := bind_eq_ok.1 h
  cases hstart
  obtain ⟨value, f₁, hleb, hn⟩ := bind_eq_ok.1 h
  by_cases hlt : value / 2 < 0x100000000
  · rw [if_pos hlt] at hn
    cases hn
    have hhalf : (UInt32.ofNat (value / 2)).toNat = value / 2 := UInt32.toNat_ofNat_of_lt' hlt
    have hvalue : markedNumber (decide (value % 2 = 1)) (UInt32.ofNat (value / 2)) = value := by
      rw [markedNumber, hhalf]
      simp only [decide_eq_true_eq]
      split <;> omega
    rw [hvalue]
    exact leb_eq_ok hleb
  · rw [if_neg hlt] at hn
    cases hn

theorem local_marked : Local marked := by
  rintro f ⟨mark, n⟩ f' h
  obtain ⟨spelling, hrest, hpos, hspells⟩ := marked_eq_ok h
  exact ⟨spelling, hrest, hpos, reads_marked_of_spells hspells⟩

theorem reads_marked (mark : Bool) (n : UInt32) :
    Reads marked (Output.marked mark n) (mark, n) :=
  reads_marked_of_spells
    (Leb128.spells_encode (lt_trans (markedNumber_lt mark n) (by norm_num)))

theorem reads_word64 (n : UInt64) : Reads word64 (Output.word64 n) n := by
  apply reads_bind (reads_leb32 (Word.halves n).1)
  apply reads_bind_nil (reads_leb32 (Word.halves n).2)
  rw [Word.join_halves]
  exact reads_pure n

theorem local_word64 : Local word64 :=
  local_bind local_leb32 fun _ => local_bind local_leb32 fun _ => local_pure _

/-! ## Names -/

theorem takeWhile_name {name : Bytes} (h : 0 ∉ name) (rest : Bytes) :
    (name ++ 0 :: rest).takeWhile (· ≠ 0) = name ∧
      (name ++ 0 :: rest).dropWhile (· ≠ 0) = 0 :: rest := by
  have hall : ∀ b ∈ name, (decide (b ≠ 0)) = true := by
    intro b hb
    simp only [decide_eq_true_eq]
    rintro rfl
    exact h hb
  refine ⟨?_, ?_⟩
  · rw [List.takeWhile_append_of_pos hall]
    simp
  · rw [List.dropWhile_append_of_pos hall]
    simp

theorem reads_cstring {name : Bytes} (h : 0 ∉ name) : Reads cstring (name ++ [0]) name := by
  intro start rest
  obtain ⟨htake, hdrop⟩ := takeWhile_name h rest
  simp only [cstring, List.append_assoc, List.cons_append, List.nil_append, htake, hdrop,
    List.length_append, List.length_singleton, Nat.add_assoc]

theorem cstring_eq_ok {f f' : Feed} {name : Bytes} (h : cstring f = .ok (name, f')) :
    0 ∉ name ∧ f.rest = name ++ 0 :: f'.rest ∧ f'.pos = f.pos + (name.length + 1) := by
  unfold cstring at h
  dsimp only at h
  split at h
  · cases h
  · rename_i b rest hdrop
    cases h
    have hb : b = 0 := by
      have := List.head?_dropWhile_not (· ≠ (0 : UInt8)) f.rest
      rw [hdrop] at this
      simpa using this
    refine ⟨?_, ?_, rfl⟩
    · intro hmem
      simpa using List.mem_takeWhile_imp hmem
    · subst hb
      rw [← hdrop, List.takeWhile_append_dropWhile]

theorem local_cstring : Local cstring := by
  intro f name f' h
  obtain ⟨hzero, hrest, hpos⟩ := cstring_eq_ok h
  refine ⟨name ++ [0], ?_, ?_, reads_cstring hzero⟩
  · rw [hrest, List.append_assoc]
    rfl
  · rw [hpos, List.length_append, List.length_singleton]

/-! ## Repetition -/

variable {α γ : Type}

/-- A step that reads the form of each item finds them all, one after the other. -/
theorem reads_times {step : Reader α} {written : γ → Bytes} {found : γ → α} {items : List γ}
    (h : ∀ x ∈ items, Reads step (written x) (found x)) :
    Reads (times step items.length) (items.flatMap written) (items.map found) := by
  induction items with
  | nil => exact reads_pure []
  | cons x xs ih =>
    rw [List.flatMap_cons, List.map_cons]
    apply reads_bind (h x List.mem_cons_self)
    apply reads_bind_nil (ih fun y hy => h y (List.mem_cons_of_mem x hy))
    exact reads_pure _

theorem local_times {step : Reader α} (h : Local step) (count : Nat) :
    Local (times step count) := by
  induction count with
  | zero => exact local_pure []
  | succ count ih => exact local_bind h fun _ => local_bind ih fun _ => local_pure _

end Reader

end BytecodeDump
