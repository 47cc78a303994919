-- What debug blocks yield when they are surveyed.
import BytecodeDump.Proofs.Yield
import BytecodeDump.Proofs.Record

namespace BytecodeDump

open Survey

variable (table : OpcodeTable)

/-! ## Local variables -/

namespace LocalVariable

/-- The byte that was looked at is the first one of the name. -/
theorem yields_name {f f' : Feed} {lead : UInt8} {others : Bytes} {name : LocalName}
    {parts : List Part} (hlead : f.rest = lead :: others) (hzero : lead ≠ 0)
    (h : surveyName lead f = .ok ((name, parts), f')) :
    Took f parts f' ∧ name.Fits ∧ Rewrites table True parts name.written := by
  unfold surveyName at h
  cases hcode : LoopVariable.ofCode? lead with
  | some v =>
    rw [hcode] at h
    obtain ⟨b, hb, rfl⟩ := bind_pure_eq_ok.1 h
    obtain ⟨htook, -, hrewrites⟩ := yields_byte table _ _ _ _ hb
    have hread := (taking_eq_ok hb).1
    have hsame : b = lead := by
      have hrest := (Reader.byte_eq_ok hread).1
      rw [hlead] at hrest
      exact (List.cons.inj hrest).1.symm
    refine ⟨htook, trivial, ?_⟩
    rw [LocalName.written, LoopVariable.code_ofCode hcode, ← hsame]
    exact hrewrites
  | none =>
    rw [hcode] at h
    obtain ⟨bytes, hbytes, rfl⟩ := bind_pure_eq_ok.1 h
    obtain ⟨htook, hnozero, hrewrites⟩ := yields_cstring table _ _ _ _ hbytes
    have hrest := (Reader.cstring_eq_ok (taking_eq_ok hbytes).1).2.1
    refine ⟨htook, ⟨?_, hnozero⟩, hrewrites⟩
    have hhead : bytes.headD 0 = lead := by
      rw [hlead] at hrest
      cases bytes with
      | nil => exact absurd (List.cons.inj hrest).1 hzero
      | cons b bs => exact (List.cons.inj hrest).1.symm
    rw [hhead]
    exact LoopVariable.le_of_ofCode hcode hzero

theorem yields {f f' : Feed} {lead : UInt8} {others : Bytes} {previous : UInt32} {v : LocalVariable}
    {parts : List Part} (hlead : f.rest = lead :: others) (hzero : lead ≠ 0)
    (h : survey lead previous f = .ok ((v, parts), f')) :
    Took f parts f' ∧ (v.name.Fits ∧ previous ≤ v.first) ∧
      Rewrites table True parts (v.written previous) := by
  unfold survey at h
  rw [pos_bind] at h
  obtain ⟨name, p₁, f₁, q₁, hname, hk₁, rfl⟩ := bind_eq_ok.1 h
  obtain ⟨distance, p₂, f₂, q₂, hdistance, hk₂, rfl⟩ := bind_eq_ok.1 hk₁
  obtain ⟨count, p₃, f₃, q₃, hcount, hk₃, rfl⟩ := bind_eq_ok.1 hk₂
  by_cases hsum : previous.toNat + distance.toNat < 0x100000000
  · rw [if_pos hsum] at hk₃
    obtain ⟨rfl, rfl, rfl⟩ := pure_eq_ok.1 hk₃
    obtain ⟨t₁, hfits, r₁⟩ := yields_name table hlead hzero hname
    obtain ⟨t₂, -, r₂⟩ := yields_leb32 table _ _ _ _ hdistance
    obtain ⟨t₃, -, r₃⟩ := yields_leb32 table _ _ _ _ hcount
    have hback : previous + distance - previous = distance := add_sub_cancel_left _ _
    have hle : previous ≤ previous + distance := by
      rw [UInt32.le_iff_toNat_le, UInt32.toNat_add, Nat.mod_eq_of_lt hsum]
      omega
    refine ⟨t₁.append (t₂.append (t₃.append (.nil _))), ⟨hfits, hle⟩, ?_⟩
    simp only [written, hback, List.append_nil]
    rw [← List.append_assoc]
    exact (r₁.append r₂).append r₃
  · rw [if_neg hsum] at hk₃
    cases hk₃

theorem yields_all (steps : Nat) (previous : UInt32) :
    Yields table (surveyAll steps previous) (FitAll previous) (writtenAll previous · ++ [0]) := by
  induction steps generalizing previous with
  | zero =>
    intro f vs parts f' h
    cases h
  | succ steps ih =>
    intro f vs parts f' h
    obtain ⟨lead, others, hlead, h⟩ := peek_bind_eq_ok h
    by_cases hzero : lead = 0
    · rw [if_pos hzero] at h
      obtain ⟨b, hb, rfl⟩ := bind_pure_eq_ok.1 h
      obtain ⟨htook, -, hrewrites⟩ := yields_byte table _ _ _ _ hb
      have hrest := (Reader.byte_eq_ok (taking_eq_ok hb).1).1
      rw [hlead, hzero] at hrest
      rw [← (List.cons.inj hrest).1] at hrewrites
      exact ⟨htook, trivial, hrewrites⟩
    · rw [if_neg hzero] at h
      obtain ⟨first, ps, f₁, qs, hfirst, hk, rfl⟩ := bind_eq_ok.1 h
      obtain ⟨tail, htail, rfl⟩ := bind_pure_eq_ok.1 hk
      obtain ⟨htook, ⟨hname, hprevious⟩, hrewrites⟩ := yields table hlead hzero hfirst
      obtain ⟨htook', hall, hrewrites'⟩ := ih _ _ _ _ _ htail
      refine ⟨htook.append htook', ⟨hname, hprevious, hall⟩, ?_⟩
      have hform : writtenAll previous (first :: tail) ++ [0] =
          first.written previous ++ (writtenAll first.first tail ++ [0]) := by
        rw [writtenAll, List.append_assoc]
      dsimp only
      rw [hform]
      exact hrewrites.append hrewrites'

end LocalVariable

/-! ## Debug blocks -/

namespace DebugInfo

theorem span_lineWidth_le (info : DebugInfo) : Endian.span info.lineWidth ≤ 0x100000000 := by
  unfold lineWidth
  split
  · decide
  · split <;> decide

theorem yields (e : Endian) (firstLine lineCount : UInt32) (instructions upvalues : Nat) :
    Yields table (survey e firstLine lineCount instructions upvalues)
      (fun info => info.Fits instructions upvalues ∧ info.firstLine = firstLine ∧
        info.lineCount = lineCount) (written e) := by
  intro f info parts f' h
  obtain ⟨numbers, p₁, f₁, q₁, hnumbers, hk₁, rfl⟩ := bind_eq_ok.1 h
  obtain ⟨names, p₂, f₂, q₂, hnames, hk₂, rfl⟩ := bind_eq_ok.1 hk₁
  rw [left_bind] at hk₂
  obtain ⟨locals, hlocals, rfl⟩ := bind_pure_eq_ok.1 hk₂
  obtain ⟨t₁, ⟨hlength, hspan⟩, r₁⟩ := yields_times (yields_fixed table e _) _ _ _ _ _ hnumbers
  obtain ⟨t₂, ⟨hlength', hzero⟩, r₂⟩ := yields_times (yields_cstring table) _ _ _ _ _ hnames
  obtain ⟨t₃, hall, r₃⟩ := LocalVariable.yields_all table _ _ _ _ _ _ hlocals
  have hwidth := span_lineWidth_le { firstLine, lineCount }
  -- Each line was read from its width, so 32 bits hold it.
  have hback : ∀ n ∈ numbers, (UInt32.ofNat n).toNat = n := by
    intro n hn
    exact UInt32.toNat_ofNat_of_lt' (lt_of_lt_of_le (hspan n hn) hwidth)
  refine ⟨t₁.append (t₂.append t₃), ⟨⟨?_, hlength', ?_, hzero, hall⟩, rfl, rfl⟩, ?_⟩
  · rw [List.length_map, hlength]
  · intro line hline
    obtain ⟨n, hn, rfl⟩ := List.mem_map.1 hline
    rw [hback n hn]
    exact hspan n hn
  · have hlines : (numbers.map UInt32.ofNat).flatMap
        (fun line => e.write (lineWidth { firstLine, lineCount }) line.toNat) =
        numbers.flatMap (e.write (lineWidth { firstLine, lineCount })) := by
      rw [List.flatMap_map]
      refine List.flatMap_congr fun n hn => ?_
      rw [hback n hn]
    have hform := r₁.append (r₂.append r₃)
    rw [← hlines] at hform
    rw [written, List.append_assoc, List.append_assoc]
    exact hform

end DebugInfo

end BytecodeDump
