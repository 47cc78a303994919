-- Readers on more bytes. What follows some bytes changes neither what a reader finds in
-- them nor what it finds wrong with them; only a reader that ran out of bytes goes on. A
-- reader is `Steady` if that is so and if it tells the truth about running out.
import BytecodeDump.Proofs.Field

namespace BytecodeDump

namespace Fault

/-- A read went past the end of `size` bytes: it began no later than there, and it needed
bytes past it. -/
inductive Short (size : Nat) : Fault → Prop
  | outOfRange {offset needed : Nat} (begins : offset ≤ size) (ends : size < offset + needed) :
      Short size (.outOfRange offset needed size)

/-- One byte was missing at the end. -/
theorem Short.at_end (size : Nat) : Short size (.outOfRange size 1 size) :=
  .outOfRange (Nat.le_refl size) (Nat.lt_succ_self size)

/-- What the bytes are at fault for, whatever follows them. -/
inductive Flaw : Fault → Prop
  | noPrototypeLeft : Flaw .noPrototypeLeft
  | corrupted (cause : Corruption) : Flaw (.corrupted cause)

end Fault

/-- The feed with more bytes at its end. -/
def Feed.extend (f : Feed) (more : Bytes) : Feed := ⟨f.pos, f.rest ++ more⟩

namespace Reader

variable {α β : Type}

/-- What `r` makes of a feed, `s` makes of the feed with more bytes at its end, unless `r`
runs out of bytes. -/
inductive Keeps (r s : Reader α) (f : Feed) (more : Bytes) : Prop
  | found (a : α) (f' : Feed) (size : f'.size = f.size) (here : r f = .ok (a, f'))
      (there : s (f.extend more) = .ok (a, f'.extend more))
  | short (fault : Fault) (short : fault.Short f.size) (here : r f = .error fault)
  | flaw (fault : Fault) (flaw : fault.Flaw) (here : r f = .error fault)
      (there : s (f.extend more) = .error fault)

/-- More bytes change nothing of what the reader makes of any feed. -/
def Steady (r : Reader α) : Prop := ∀ f more, Keeps r r f more

/-! ## Steps in a row -/

theorem Keeps.bind {r s : Reader α} {k l : α → Reader β} {f : Feed} {more : Bytes}
    (h : Keeps r s f more)
    (hk : ∀ a f', r f = .ok (a, f') → f'.size = f.size → Keeps (k a) (l a) f' more) :
    Keeps (r >>= k) (s >>= l) f more := by
  cases h with
  | found a f' hsize here there =>
    rcases hk a f' here hsize with ⟨b, f'', hsize', here', there'⟩ | ⟨fault, hshort, here'⟩ |
      ⟨fault, hflaw, here', there'⟩
    · refine .found b f'' (hsize'.trans hsize) ?_ ?_
      · rw [bind_of_ok here, here']
      · rw [bind_of_ok there, there']
    · refine .short fault (hsize ▸ hshort) ?_
      rw [bind_of_ok here, here']
    · refine .flaw fault hflaw ?_ ?_
      · rw [bind_of_ok here, here']
      · rw [bind_of_ok there, there']
  | short fault hshort here => exact .short fault hshort (bind_of_error here)
  | flaw fault hflaw here there => exact .flaw fault hflaw (bind_of_error here) (bind_of_error there)

theorem steady_pure (a : α) : Steady (pure a : Reader α) := fun f _ => .found a f rfl rfl rfl

/-- A reader that finds a flaw at any place. -/
theorem steady_flaw {fault : Fault} (h : fault.Flaw) : Steady (fail fun _ => fault : Reader α) :=
  fun _ _ => .flaw fault h rfl rfl

theorem steady_bind {r : Reader α} {k : α → Reader β} (h : Steady r) (hk : ∀ a, Steady (k a)) :
    Steady (r >>= k) := fun f more => (h f more).bind fun a f' _ _ => hk a f' more

theorem steady_map {r : Reader α} (g : α → β) (h : Steady r) : Steady (g <$> r) := by
  rw [map_eq_pure_bind]
  exact steady_bind h fun a => steady_pure (g a)

theorem steady_ite {c : Prop} [Decidable c] {r s : Reader α} (h : Steady r) (h' : Steady s) :
    Steady (if c then r else s) := by
  split
  · exact h
  · exact h'

theorem steady_pos : Steady pos := fun f _ => .found f.pos f rfl rfl rfl

/-- Only what the readers make of the two feeds counts. -/
theorem Keeps.congr {r r' s s' : Reader α} {f : Feed} {more : Bytes} (h : Keeps r s f more)
    (hr : r' f = r f) (hs : s' (f.extend more) = s (f.extend more)) : Keeps r' s' f more := by
  cases h with
  | found a f' size here there => exact .found a f' size (hr.trans here) (hs.trans there)
  | short fault short here => exact .short fault short (hr.trans here)
  | flaw fault flaw here there => exact .flaw fault flaw (hr.trans here) (hs.trans there)

/-- With more bytes at the end more are left. -/
theorem steady_left {k : Nat → Reader β}
    (h : ∀ f more, Keeps (k f.rest.length) (k (f.rest ++ more).length) f more) :
    Steady (left >>= k) := fun f more =>
  (h f more).congr (left_bind k f) (left_bind k (f.extend more))

/-- A look ahead whether enough bytes are left, which says so where they are too few. -/
theorem steady_guard {r : Reader α} (h : Steady r) (needed : Nat) :
    Steady (left >>= fun count => if count < needed then short needed else r) := by
  apply steady_left
  intro f more
  by_cases hleft : f.rest.length < needed
  · rw [if_pos hleft]
    refine .short (.outOfRange f.pos needed f.size) (.outOfRange ?_ ?_) rfl
    · exact Nat.le_add_right _ _
    · unfold Feed.size
      omega
  · have hthere : ¬(f.rest ++ more).length < needed := by
      rw [List.length_append]
      omega
    rw [if_neg hleft, if_neg hthere]
    exact h f more

/-- At the end of the bytes one is missing. -/
theorem keeps_at_end {r s : Reader α} {start : Nat} {more : Bytes}
    (h : r ⟨start, []⟩ = .error (.outOfRange start 1 start)) : Keeps r s ⟨start, []⟩ more :=
  .short _ (.at_end start) h

theorem steady_peek : Steady peek := by
  rintro ⟨start, rest⟩ more
  cases rest with
  | nil => exact keeps_at_end rfl
  | cons b bs => exact .found b _ rfl rfl rfl

/-! ## Single fields -/

theorem steady_byte : Steady byte := by
  rintro ⟨start, rest⟩ more
  cases rest with
  | nil => exact keeps_at_end rfl
  | cons b bs =>
    refine .found b ⟨start + 1, bs⟩ ?_ rfl rfl
    simp only [Feed.size, List.length_cons]
    omega

theorem steady_bytes (count : Nat) : Steady (bytes count) := by
  rintro ⟨start, rest⟩ more
  by_cases hcount : count ≤ rest.length
  · have hlength : (rest.take count).length = count := List.length_take_of_le hcount
    refine .found (rest.take count) ⟨start + count, rest.drop count⟩ ?_ ?_ ?_
    · simp only [Feed.size, List.length_drop]
      omega
    · simp only [bytes, if_pos hlength]
    · simp only [bytes, Feed.extend, List.take_append_of_le_length hcount,
        List.drop_append_of_le_length hcount, if_pos hlength]
  · have hlength : (rest.take count).length ≠ count := by
      rw [List.length_take]
      omega
    refine .short (.outOfRange start count (start + rest.length)) (.outOfRange ?_ ?_) ?_
    · exact Nat.le_add_right _ _
    · simp only [Feed.size]
      omega
    · simp only [bytes, if_neg hlength]
      rfl

theorem steady_fixed (e : Endian) (width : Nat) : Steady (fixed e width) :=
  steady_bind (steady_bytes width) fun _ => steady_pure _

end Reader

namespace Leb128

/-- Bytes that are too many for one number are so whatever follows them. -/
theorem scan_append_of_tooLong {limit : Nat} {bytes : Bytes} (h : scan limit bytes = .tooLong)
    (more : Bytes) : scan limit (bytes ++ more) = .tooLong := by
  induction limit generalizing bytes with
  | zero =>
    cases bytes with
    | nil => cases h
    | cons b bs => rfl
  | succ limit ih =>
    cases bytes with
    | nil => cases h
    | cons b bs =>
      rw [List.cons_append, scan]
      rw [scan] at h
      by_cases hlast : b.toNat < 128
      · rw [if_pos hlast] at h
        cases h
      · rw [if_neg hlast] at h ⊢
        cases hscan : scan limit bs with
        | done value width rest => simp [hscan] at h
        | cut => simp [hscan] at h
        | tooLong => rw [ih hscan]

end Leb128

namespace Reader

variable {α : Type}

theorem steady_leb : Steady leb := by
  rintro ⟨start, rest⟩ more
  cases hscan : Leb128.scan Leb128.maxLength rest with
  | done value width others =>
    obtain ⟨used, rfl, rfl, hothers⟩ := Leb128.scan_split hscan
    refine .found (Leb128.register value) ⟨start + used.length, others⟩ ?_ ?_ ?_
    · simp only [Feed.size, List.length_append]
      omega
    · simp only [leb, hscan]
    · simp only [leb, Feed.extend, List.append_assoc, hothers]
  | cut =>
    refine .short _ (.at_end (start + rest.length)) ?_
    simp only [leb, hscan, Feed.size]
  | tooLong =>
    refine .flaw (.corrupted (.numberTooLong start)) (.corrupted _) ?_ ?_
    · simp only [leb, hscan]
    · simp only [leb, Feed.extend, Leb128.scan_append_of_tooLong hscan]

theorem steady_leb32 : Steady leb32 :=
  steady_bind steady_pos fun _ => steady_bind steady_leb fun _ =>
    steady_ite (steady_pure _) (steady_flaw (.corrupted _))

theorem steady_marked : Steady marked :=
  steady_bind steady_pos fun _ => steady_bind steady_leb fun _ =>
    steady_ite (steady_pure _) (steady_flaw (.corrupted _))

theorem steady_word64 : Steady word64 :=
  steady_bind steady_leb32 fun _ => steady_bind steady_leb32 fun _ => steady_pure _

/-- A name that has no end in these bytes may have one in the bytes after them. -/
theorem steady_cstring : Steady cstring := by
  rintro ⟨start, rest⟩ more
  by_cases hzero : (0 : UInt8) ∈ rest
  · obtain ⟨name, others, rfl, hname⟩ := List.eq_append_cons_of_mem hzero
    obtain ⟨htake, hdrop⟩ := takeWhile_name hname others
    obtain ⟨htake', hdrop'⟩ := takeWhile_name hname (others ++ more)
    refine .found name ⟨start + name.length + 1, others⟩ ?_ ?_ ?_
    · simp only [Feed.size, List.length_append, List.length_cons]
      omega
    · simp only [cstring, htake, hdrop]
    · simp only [cstring, Feed.extend, List.append_assoc, List.cons_append, htake', hdrop']
  · have hdrop : rest.dropWhile (· ≠ 0) = [] := by
      rw [List.dropWhile_eq_nil_iff]
      intro b hb
      simp only [decide_eq_true_eq]
      rintro rfl
      exact hzero hb
    refine .short _ (.at_end (start + rest.length)) ?_
    simp only [cstring, hdrop, Feed.size]

theorem steady_times {step : Reader α} (h : Steady step) (count : Nat) :
    Steady (times step count) := by
  induction count with
  | zero => exact steady_pure []
  | succ count ih => exact steady_bind h fun _ => steady_bind ih fun _ => steady_pure _

end Reader

end BytecodeDump
