-- The laws of numbers in groups of seven bits. The shortest form is read back as
-- its number, whatever follows it, and no other bytes that are read as the same
-- number are as short.
import BytecodeDump.Bytes.Leb128
import Mathlib

namespace BytecodeDump

namespace Leb128

/-- These bytes, all of them, are read as the number `n`. -/
def Spells (bytes : Bytes) (n : Nat) : Prop :=
  ∃ value, scan maxLength bytes = .done value bytes.length [] ∧ register value = n

/-! ## The length of the shortest form -/

theorem length_encode_of_ge {n : Nat} (h : 128 ≤ n) :
    (encode n).length = (encode (n / 128)).length + 1 := by
  rw [encode_of_ge h, List.length_cons]

theorem length_encode_pos (n : Nat) : 0 < (encode n).length := by
  by_cases h : n < 128
  · rw [encode_of_lt h]
    simp
  · rw [length_encode_of_ge (by omega)]
    omega

theorem length_encode_mono {m n : Nat} (h : m ≤ n) : (encode m).length ≤ (encode n).length := by
  induction n using Nat.strongRecOn generalizing m with
  | ind n ih =>
    by_cases hm : m < 128
    · rw [encode_of_lt hm]
      exact length_encode_pos n
    · have hn : 128 ≤ n := by omega
      rw [length_encode_of_ge (by omega), length_encode_of_ge hn]
      have := ih (n / 128) (by omega) (Nat.div_le_div_right (c := 128) h)
      omega

theorem length_encode_le {n k : Nat} (h : n < 128 ^ (k + 1)) : (encode n).length ≤ k + 1 := by
  induction k generalizing n with
  | zero =>
    rw [encode_of_lt (by simpa using h)]
    simp
  | succ k ih =>
    by_cases hn : n < 128
    · rw [encode_of_lt hn]
      simp
    · rw [length_encode_of_ge (by omega)]
      have hdiv : n / 128 < 128 ^ (k + 1) := by
        rw [Nat.div_lt_iff_lt_mul (by norm_num), ← pow_succ]
        exact h
      have := ih hdiv
      omega

theorem lt_length_encode {n k : Nat} (h : 128 ^ k ≤ n) : k < (encode n).length := by
  induction k generalizing n with
  | zero => exact length_encode_pos n
  | succ k ih =>
    have hn : 128 ≤ n := by
      calc 128 = 128 ^ 1 := by norm_num
        _ ≤ 128 ^ (k + 1) := Nat.pow_le_pow_right (by norm_num) (by omega)
        _ ≤ n := h
    rw [length_encode_of_ge hn]
    have hdiv : 128 ^ k ≤ n / 128 := by
      rw [Nat.le_div_iff_mul_le (by norm_num), ← pow_succ]
      exact h
    have := ih hdiv
    omega

/-! ## Reading the shortest form -/

theorem scan_encode {n limit : Nat} (rest : Bytes) (h : (encode n).length ≤ limit) :
    scan limit (encode n ++ rest) = .done n (encode n).length rest := by
  induction n using Nat.strongRecOn generalizing limit with
  | ind n ih =>
    obtain ⟨limit, rfl⟩ : ∃ k, limit = k + 1 :=
      ⟨limit - 1, by have := length_encode_pos n; omega⟩
    by_cases hn : n < 128
    · have hbyte : (UInt8.ofNat n).toNat = n := by
        rw [UInt8.toNat_ofNat']
        omega
      simp [encode_of_lt hn, scan, hbyte, hn]
    · have hbyte : (UInt8.ofNat (n % 128 + 128)).toNat = n % 128 + 128 := by
        rw [UInt8.toNat_ofNat']
        omega
      rw [length_encode_of_ge (by omega)] at h ⊢
      rw [encode_of_ge (by omega), List.cons_append, scan, hbyte, if_neg (by omega),
        ih (n / 128) (by omega) (by omega)]
      simp only [Scan.done.injEq, and_true]
      omega

theorem spells_encode {n : Nat} (h : n < 0x10000000000000000) : Spells (encode n) n := by
  refine ⟨n, ?_, ?_⟩
  · have hlen : (encode n).length ≤ maxLength :=
      length_encode_le (lt_of_lt_of_le h (by norm_num [maxLength]))
    simpa using scan_encode [] hlen
  · rw [register, Nat.mod_eq_of_lt h]

/-! ## Every form that is read -/

/-- A byte with the top bit set stands before the shortest form of what is above its group. -/
theorem encode_cons {b : UInt8} {inner : Nat} (hb : 128 ≤ b.toNat) (h : 0 < inner) :
    encode (b.toNat % 128 + 128 * inner) = b :: encode inner := by
  have hdiv : (b.toNat % 128 + 128 * inner) / 128 = inner := by omega
  have hbyte : UInt8.ofNat ((b.toNat % 128 + 128 * inner) % 128 + 128) = b := by
    have := b.toNat_lt
    apply UInt8.toNat_inj.1
    rw [UInt8.toNat_ofNat']
    omega
  rw [encode_of_ge (by omega), hdiv, hbyte]

/-- What one turn of the reading can find. -/
theorem scan_cases {limit value width : Nat} {bytes rest : Bytes}
    (h : scan limit bytes = .done value width rest) :
    ∃ limit' b bs, limit = limit' + 1 ∧ bytes = b :: bs ∧
      ((b.toNat < 128 ∧ value = b.toNat ∧ width = 1 ∧ rest = bs) ∨
        (128 ≤ b.toNat ∧ ∃ inner width', scan limit' bs = .done inner width' rest ∧
          value = b.toNat % 128 + 128 * inner ∧ width = width' + 1)) := by
  cases bytes with
  | nil => simp [scan] at h
  | cons b bs =>
    cases limit with
    | zero => simp [scan] at h
    | succ limit =>
      refine ⟨limit, b, bs, rfl, rfl, ?_⟩
      rw [scan] at h
      split at h
      · rename_i hb
        cases h
        exact Or.inl ⟨hb, rfl, rfl, rfl⟩
      · rename_i hb
        cases hinner : scan limit bs with
        | done inner width' rest' =>
          rw [hinner] at h
          cases h
          exact Or.inr ⟨by omega, inner, width', rfl, rfl, rfl⟩
        | cut => simp [hinner] at h
        | tooLong => simp [hinner] at h

/-- A number that was read is the first bytes, and what follows them plays no part. -/
theorem scan_split {limit value width : Nat} {bytes rest : Bytes}
    (h : scan limit bytes = .done value width rest) :
    ∃ used, bytes = used ++ rest ∧ used.length = width ∧
      ∀ others, scan limit (used ++ others) = .done value width others := by
  induction limit generalizing bytes value width with
  | zero =>
    obtain ⟨_, _, _, hlimit, _⟩ := scan_cases h
    cases hlimit
  | succ limit ih =>
    obtain ⟨_, b, bs, hlimit, rfl, hcases⟩ := scan_cases h
    cases hlimit
    rcases hcases with ⟨hb, rfl, rfl, rfl⟩ | ⟨hb, inner, width, hinner, rfl, rfl⟩
    · exact ⟨[b], rfl, rfl, fun others => by simp [scan, hb]⟩
    · obtain ⟨used, rfl, rfl, hothers⟩ := ih hinner
      refine ⟨b :: used, rfl, rfl, ?_⟩
      intro others
      rw [List.cons_append, scan, if_neg (by omega), hothers]

theorem length_encode_le_of_scan {limit value width : Nat} {bytes rest : Bytes}
    (h : scan limit bytes = .done value width rest) : (encode value).length ≤ width := by
  induction limit generalizing bytes value width with
  | zero =>
    obtain ⟨_, _, _, hlimit, _⟩ := scan_cases h
    cases hlimit
  | succ limit ih =>
    obtain ⟨_, b, bs, hlimit, rfl, hcases⟩ := scan_cases h
    cases hlimit
    rcases hcases with ⟨hb, rfl, rfl, rfl⟩ | ⟨hb, inner, width, hinner, rfl, rfl⟩
    · rw [encode_of_lt hb]
      simp
    · have hle := ih hinner
      by_cases hv : b.toNat % 128 + 128 * inner < 128
      · rw [encode_of_lt hv]
        simp
      · rw [length_encode_of_ge (by omega),
          show (b.toNat % 128 + 128 * inner) / 128 = inner by omega]
        omega

/-- A form with as few bytes as the shortest one is the shortest one. -/
theorem eq_encode_of_scan {limit value width : Nat} {bytes rest : Bytes}
    (h : scan limit bytes = .done value width rest) (hlen : width ≤ (encode value).length) :
    bytes = encode value ++ rest := by
  induction limit generalizing bytes value width with
  | zero =>
    obtain ⟨_, _, _, hlimit, _⟩ := scan_cases h
    cases hlimit
  | succ limit ih =>
    obtain ⟨_, b, bs, hlimit, rfl, hcases⟩ := scan_cases h
    cases hlimit
    rcases hcases with ⟨hb, rfl, rfl, rfl⟩ | ⟨hb, inner, width, hinner, rfl, rfl⟩
    · rw [encode_of_lt hb, UInt8.ofNat_toNat]
      rfl
    · have hpos : 0 < width :=
        lt_of_lt_of_le (length_encode_pos inner) (length_encode_le_of_scan hinner)
      -- A number below 128 takes one byte, and this one was read from more.
      have hinside : 0 < inner := by
        by_contra hv
        rw [encode_of_lt (by omega), List.length_singleton] at hlen
        omega
      rw [encode_cons hb hinside, List.length_cons] at hlen
      rw [encode_cons hb hinside, List.cons_append, ← ih hinner (by omega)]

theorem Spells.length_le {bytes : Bytes} {n : Nat} (h : Spells bytes n) :
    (encode n).length ≤ bytes.length := by
  obtain ⟨value, hscan, rfl⟩ := h
  calc (encode (register value)).length
      ≤ (encode value).length := length_encode_mono (Nat.mod_le _ _)
    _ ≤ bytes.length := length_encode_le_of_scan hscan

/-- Below 63 bits no ten bytes are needed, so a tenth byte that loses bits is never
in a form as short as the shortest one. -/
theorem Spells.eq_encode {bytes : Bytes} {n : Nat} (h : Spells bytes n)
    (hn : n < 0x8000000000000000) (hlen : bytes.length ≤ (encode n).length) :
    bytes = encode n := by
  obtain ⟨value, hscan, hreg⟩ := h
  have hshort : (encode n).length ≤ 9 := length_encode_le (lt_of_lt_of_le hn (by norm_num))
  by_cases hv : value < 0x10000000000000000
  · rw [register, Nat.mod_eq_of_lt hv] at hreg
    subst hreg
    simpa using eq_encode_of_scan hscan hlen
  · have hlong : 9 < (encode value).length := lt_length_encode (by norm_num; omega)
    have := length_encode_le_of_scan hscan
    omega

end Leb128

end BytecodeDump
