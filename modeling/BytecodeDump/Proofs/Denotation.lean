-- What a cursor makes of a number in groups of seven bits. It finds the number that the
-- bytes denote, up to what 64 bits cannot keep: a tenth byte of 2 or more loses bits, and
-- then what is left may pass for a number of 32 bits.
import BytecodeDump.Proofs.Cursor

namespace BytecodeDump

namespace Leb128

/-! ## What bytes denote -/

/-- The bytes up to and including the first one below 0x80. -/
def numeral? : Bytes → Option Bytes
  | [] => none
  | b :: bs => if b.toNat < 128 then some [b] else (numeral? bs).map (b :: ·)

/-- The number without any bound whose digits to the base 128 are the low seven bits of the
bytes, the lowest digit first. -/
def denoted (bytes : Bytes) : Nat := Nat.ofDigits 128 (bytes.map fun b => b.toNat % 128)

@[simp]
theorem denoted_cons (b : UInt8) (bs : Bytes) :
    denoted (b :: bs) = b.toNat % 128 + 128 * denoted bs := Nat.ofDigits_cons

theorem denoted_lt (bytes : Bytes) : denoted bytes < 128 ^ bytes.length := by
  have hdigits : ∀ d ∈ bytes.map (fun b => b.toNat % 128), d < 128 :=
    List.forall_mem_map.2 fun _ _ => Nat.mod_lt _ (by decide)
  simpa [denoted] using Nat.ofDigits_lt_base_pow_length (by decide) hdigits

/-- Nine bytes lose no bit. -/
theorem length_of_denoted_ge {bytes : Bytes} (h : 0x10000000000000000 ≤ denoted bytes) :
    9 < bytes.length := by
  by_contra hle
  have hlt : denoted bytes < 128 ^ 9 :=
    lt_of_lt_of_le (denoted_lt bytes) (Nat.pow_le_pow_right (by decide) (by omega))
  norm_num at hlt
  omega

/-! ## Reading -/

theorem scan_of_numeral {limit : Nat} {bytes enc : Bytes} (h : numeral? bytes = some enc)
    (hlen : enc.length ≤ limit) :
    ∃ rest, scan limit bytes = .done (denoted enc) enc.length rest := by
  induction bytes generalizing limit enc with
  | nil => cases h
  | cons b bs ih =>
    rw [numeral?] at h
    split at h
    · rename_i hb
      cases h
      obtain ⟨limit, rfl⟩ := Nat.exists_eq_add_of_le' hlen
      refine ⟨bs, ?_⟩
      rw [List.length_singleton, scan, if_pos hb, denoted_cons, Nat.mod_eq_of_lt hb]
      rfl
    · rename_i hb
      obtain ⟨below, hbelow, rfl⟩ := Option.map_eq_some_iff.1 h
      rw [List.length_cons] at hlen
      obtain ⟨limit, rfl⟩ := Nat.exists_eq_add_of_le' (Nat.le_of_add_left_le hlen)
      obtain ⟨rest, hrest⟩ := ih hbelow (show below.length ≤ limit by omega)
      refine ⟨rest, ?_⟩
      rw [scan, if_neg hb, hrest, denoted_cons, List.length_cons]

theorem numeral_of_scan {limit value width : Nat} {bytes rest : Bytes}
    (h : scan limit bytes = .done value width rest) :
    ∃ enc, numeral? bytes = some enc ∧ enc.length ≤ limit ∧ denoted enc = value ∧
      enc.length = width := by
  induction limit generalizing bytes value width with
  | zero =>
    obtain ⟨_, _, _, hlimit, _⟩ := scan_cases h
    cases hlimit
  | succ limit ih =>
    obtain ⟨_, b, bs, hlimit, rfl, hcases⟩ := scan_cases h
    cases hlimit
    rcases hcases with ⟨hb, rfl, rfl, rfl⟩ | ⟨hb, inner, width, hinner, rfl, rfl⟩
    · refine ⟨[b], by rw [numeral?, if_pos hb], by simp, ?_, rfl⟩
      simp [denoted, Nat.mod_eq_of_lt hb]
    · obtain ⟨enc, henc, hlen, rfl, rfl⟩ := ih hinner
      refine ⟨b :: enc, ?_, Nat.succ_le_succ hlen, denoted_cons b enc, rfl⟩
      rw [numeral?, if_neg (by omega), henc, Option.map_some]

end Leb128

namespace Cursor

open Leb128

/-- The bytes from the place on up to and including the first one below 0x80. -/
def numeral? (c : Cursor) : Option Bytes := Leb128.numeral? (c.bytes.drop c.pos)

variable {c c' : Cursor}

theorem readLeb_eq_ok {n : Nat} : c.readLeb = (.ok n, c') ↔
    ∃ enc, c.numeral? = some enc ∧ enc.length ≤ maxLength ∧ register (denoted enc) = n ∧
      c' = c.past enc := by
  refine ⟨?_, ?_⟩
  · intro h
    rw [readLeb] at h
    split at h
    · rename_i value width rest hscan
      cases h
      obtain ⟨enc, henc, hlen, rfl, rfl⟩ := numeral_of_scan hscan
      exact ⟨enc, henc, hlen, rfl, rfl⟩
    · cases h
    · cases h
  · rintro ⟨enc, henc, hlen, rfl, rfl⟩
    obtain ⟨rest, hscan⟩ := scan_of_numeral henc hlen
    rw [readLeb, hscan]
    rfl

/-- A success is one of the number, and of the check that follows it. -/
theorem bind_readLeb_eq_ok {α : Type} {check : Nat → Except Fault α} {a : α} :
    (c.readLeb.1.bind check, c.readLeb.2) = (.ok a, c') ↔
      ∃ n, c.readLeb = (.ok n, c') ∧ check n = .ok a := by
  rcases c.readLeb with ⟨read, after⟩
  cases read with
  | error fault => simp [Except.bind]
  | ok n => simp [Except.bind, and_comm]

theorem readLeb32_eq_ok {v : UInt32} : c.readLeb32 = (.ok v, c') ↔
    ∃ n, c.readLeb = (.ok n, c') ∧ n = v.toNat := by
  refine bind_readLeb_eq_ok.trans (exists_congr fun n => and_congr_right fun _ => ?_)
  have hv := v.toNat_lt
  split
  · rename_i hn
    rw [Except.ok.injEq, ← UInt32.toNat_inj, UInt32.toNat_ofNat_of_lt' hn]
  · refine iff_of_false (by simp) ?_
    omega

theorem readMarked_eq_ok {mark : Bool} {v : UInt32} : c.readMarked = (.ok (mark, v), c') ↔
    ∃ n, c.readLeb = (.ok n, c') ∧ n = 2 * v.toNat + mark.toNat := by
  refine bind_readLeb_eq_ok.trans (exists_congr fun n => and_congr_right fun _ => ?_)
  have hv := v.toNat_lt
  have hmark := mark.toNat_lt
  split
  · rename_i hn
    rw [Except.ok.injEq, Prod.mk.injEq, ← UInt32.toNat_inj, UInt32.toNat_ofNat_of_lt' hn]
    cases mark <;> simp <;> omega
  · refine iff_of_false (by simp) ?_
    omega

/-! ## The law -/

/-- Both readers find a number just where a numeral of at most ten bytes denotes it, and go
just past this numeral. -/
structure ReadsRight (c : Cursor) : Prop where
  plain : ∀ v c', c.readLeb32 = (.ok v, c') ↔
    ∃ enc, c.numeral? = some enc ∧ enc.length ≤ 10 ∧ denoted enc = v.toNat ∧ c' = c.past enc
  marked : ∀ mark v c', c.readMarked = (.ok (mark, v), c') ↔
    ∃ enc, c.numeral? = some enc ∧ enc.length ≤ 10 ∧
      denoted enc = 2 * v.toNat + mark.toNat ∧ c' = c.past enc

/-- Where no numeral of ten bytes has lost bits down to 33 or fewer, the number that is kept
is the one that is denoted. -/
theorem kept_iff {enc : Bytes} {k : Nat}
    (h : enc.length = 10 → denoted enc % 2 ^ 64 < 2 ^ 33 → denoted enc < 2 ^ 64)
    (hlen : enc.length ≤ 10) (hk : k < 2 ^ 33) : denoted enc % 2 ^ 64 = k ↔ denoted enc = k := by
  refine ⟨?_, ?_⟩
  · intro hkept
    have hsmall : denoted enc < 2 ^ 64 := by
      by_contra hlarge
      have hlong := length_of_denoted_ge (Nat.le_of_not_lt hlarge)
      exact hlarge (h (by omega) (by omega))
    rw [← hkept, Nat.mod_eq_of_lt hsmall]
  · rintro rfl
    exact Nat.mod_eq_of_lt (lt_trans hk (by norm_num))

/-- A number of 33 bits is a mark and a number of 32 bits. -/
theorem exists_marked {n : Nat} (h : n < 2 ^ 33) :
    ∃ (mark : Bool) (v : UInt32), n = 2 * v.toNat + mark.toNat := by
  have hhalf : n / 2 < 2 ^ 32 := by omega
  have hparts := n.bodd_add_div2
  rw [Nat.div2_val] at hparts
  refine ⟨n.bodd, .ofNat (n / 2), ?_⟩
  rw [UInt32.toNat_ofNat_of_lt' hhalf]
  omega

/-- A number is read as the low 64 bits of what its bytes denote, where these are few enough,
and the cursor goes just past it. So both readers are right at a place just if no numeral of
ten bytes stands there that denotes more than 64 bits and has 33 or fewer of them left. -/
theorem numbers_are_read_modulo_64_bits (c : Cursor) :
    (∀ v c', c.readLeb32 = (.ok v, c') ↔
      ∃ enc, c.numeral? = some enc ∧ enc.length ≤ 10 ∧
        denoted enc % 2 ^ 64 = v.toNat ∧ c' = c.past enc) ∧
    (∀ mark v c', c.readMarked = (.ok (mark, v), c') ↔
      ∃ enc, c.numeral? = some enc ∧ enc.length ≤ 10 ∧
        denoted enc % 2 ^ 64 = 2 * v.toNat + mark.toNat ∧ c' = c.past enc) ∧
    (c.ReadsRight ↔ ∀ enc, c.numeral? = some enc → enc.length = 10 →
      denoted enc % 2 ^ 64 < 2 ^ 33 → denoted enc < 2 ^ 64) := by
  have hkept : ∀ {c' k}, (∃ n, c.readLeb = (.ok n, c') ∧ n = k) ↔
      ∃ enc, c.numeral? = some enc ∧ enc.length ≤ 10 ∧ denoted enc % 2 ^ 64 = k ∧
        c' = c.past enc := by
    intro c' k
    rw [exists_eq_right]
    exact readLeb_eq_ok
  have hmarked : ∀ (mark : Bool) (v : UInt32), 2 * v.toNat + mark.toNat < 2 ^ 33 := by
    intro mark v
    have := v.toNat_lt
    have := mark.toNat_lt
    omega
  refine ⟨fun v c' => readLeb32_eq_ok.trans hkept, fun mark v c' => readMarked_eq_ok.trans hkept,
    ?_, ?_⟩
  · intro hright enc henc hlen hfew
    -- What is left is read as a marked number, which has to be the one that is denoted.
    obtain ⟨mark, v, hleft⟩ := exists_marked hfew
    have hread : c.readMarked = (.ok (mark, v), c.past enc) :=
      (readMarked_eq_ok.trans hkept).2 ⟨enc, henc, hlen.le, hleft, rfl⟩
    obtain ⟨enc', henc', -, hdenoted, -⟩ := (hright.marked _ _ _).1 hread
    obtain rfl : enc = enc' := Option.some.inj (henc.symm.trans henc')
    rw [hdenoted]
    exact lt_trans (hmarked _ _) (by norm_num)
  · intro hfew
    refine ⟨?_, ?_⟩
    · intro v c'
      refine (readLeb32_eq_ok.trans hkept).trans (exists_congr fun enc => ?_)
      refine and_congr_right fun henc => and_congr_right fun hlen => and_congr_left fun _ => ?_
      exact kept_iff (hfew enc henc) hlen (lt_trans v.toNat_lt (by norm_num))
    · intro mark v c'
      refine (readMarked_eq_ok.trans hkept).trans (exists_congr fun enc => ?_)
      refine and_congr_right fun henc => and_congr_right fun hlen => and_congr_left fun _ => ?_
      exact kept_iff (hfew enc henc) hlen (hmarked mark v)

/-- Ten bytes that denote `2 ^ 64`. -/
def lossy : Cursor := ofBytes [0x80, 0x80, 0x80, 0x80, 0x80, 0x80, 0x80, 0x80, 0x80, 0x02]

/-- The one bit that is denoted is lost, and zero is read. -/
theorem a_lost_bit_reads_as_zero :
    lossy.numeral? = some lossy.bytes ∧ denoted lossy.bytes = 2 ^ 64 ∧
      lossy.readLeb32 = (.ok 0, lossy.past lossy.bytes) ∧ ¬ lossy.ReadsRight := by
  have hnumeral : lossy.numeral? = some lossy.bytes := by decide
  have hdenoted : denoted lossy.bytes = 2 ^ 64 := by decide
  have hread : lossy.readLeb32 = (.ok 0, lossy.past lossy.bytes) := by decide
  refine ⟨hnumeral, hdenoted, hread, ?_⟩
  intro hright
  obtain ⟨enc, henc, -, hzero, -⟩ := (hright.plain 0 _).1 hread
  obtain rfl : lossy.bytes = enc := Option.some.inj (hnumeral.symm.trans henc)
  rw [hdenoted] at hzero
  cases hzero

end Cursor

end BytecodeDump
