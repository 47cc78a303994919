-- The laws of the readers. `Reads r bytes a` says that `r` takes just these bytes and
-- finds `a`, at any place and whatever follows; a reader is `Local` if each of its
-- successes is of that kind. Both pass from the parts of a reader to the whole.
import BytecodeDump.Wire.Feed
import BytecodeDump.Proofs.Leb128
import BytecodeDump.Proofs.Word

namespace BytecodeDump

namespace Reader

variable {α β : Type}

/-! ## Steps in a row -/

@[simp] theorem pure_apply (a : α) (f : Feed) : (pure a : Reader α) f = .ok (a, f) := rfl

theorem bind_of_ok {r : Reader α} {k : α → Reader β} {f f' : Feed} {a : α}
    (h : r f = .ok (a, f')) : (r >>= k) f = k a f' := by
  change (r f >>= fun p => k p.1 p.2) = _
  rw [h]
  rfl

theorem bind_of_error {r : Reader α} {k : α → Reader β} {f : Feed} {fault : Fault}
    (h : r f = .error fault) : (r >>= k) f = .error fault := by
  change (r f >>= fun p => k p.1 p.2) = _
  rw [h]
  rfl

theorem bind_eq_ok {r : Reader α} {k : α → Reader β} {f f'' : Feed} {b : β} :
    (r >>= k) f = .ok (b, f'') ↔ ∃ a f', r f = .ok (a, f') ∧ k a f' = .ok (b, f'') := by
  refine ⟨?_, ?_⟩
  · intro h
    cases hr : r f with
    | error fault =>
      rw [bind_of_error hr] at h
      cases h
    | ok p =>
      rw [bind_of_ok hr] at h
      exact ⟨p.1, p.2, rfl, h⟩
  · rintro ⟨a, f', hr, hk⟩
    rw [bind_of_ok hr, hk]

theorem pos_bind (k : Nat → Reader β) (f : Feed) : (pos >>= k) f = k f.pos f := rfl

theorem left_bind (k : Nat → Reader β) (f : Feed) : (left >>= k) f = k f.rest.length f := rfl

/-! ## Readers that take just these bytes -/

/-- The reader takes just these bytes and finds `a`, wherever they stand. -/
def Reads (r : Reader α) (bytes : Bytes) (a : α) : Prop :=
  ∀ pos rest, r ⟨pos, bytes ++ rest⟩ = .ok (a, ⟨pos + bytes.length, rest⟩)

theorem reads_pure (a : α) : Reads (pure a : Reader α) [] a := fun _ _ => rfl

theorem reads_bind {r : Reader α} {k : α → Reader β} {bytes others : Bytes} {a : α} {b : β}
    (h : Reads r bytes a) (hk : Reads (k a) others b) : Reads (r >>= k) (bytes ++ others) b := by
  intro pos rest
  rw [List.append_assoc, bind_of_ok (h pos _), hk, List.length_append, Nat.add_assoc]

/-- The last step takes nothing. -/
theorem reads_bind_nil {r : Reader α} {k : α → Reader β} {bytes : Bytes} {a : α} {b : β}
    (h : Reads r bytes a) (hk : Reads (k a) [] b) : Reads (r >>= k) bytes b := by
  simpa using reads_bind h hk

theorem reads_map {r : Reader α} {bytes : Bytes} {a : α} (g : α → β) (h : Reads r bytes a) :
    Reads (g <$> r) bytes (g a) := by
  intro pos rest
  change (r ⟨pos, bytes ++ rest⟩ >>= fun p => Except.ok (g p.1, p.2)) = _
  rw [h]
  rfl

/-- The place serves only to name it in a fault. -/
theorem reads_pos {k : Nat → Reader β} {bytes : Bytes} {b : β}
    (h : ∀ start, Reads (k start) bytes b) : Reads (pos >>= k) bytes b := fun start rest => h start start rest

theorem reads_left {k : Nat → Reader β} {bytes : Bytes} {b : β}
    (h : ∀ count, bytes.length ≤ count → Reads (k count) bytes b) : Reads (left >>= k) bytes b := by
  intro start rest
  exact h (bytes ++ rest).length (by simp) start rest

theorem reads_peek {k : UInt8 → Reader β} {lead : UInt8} {bytes : Bytes} {b : β}
    (h : Reads (k lead) (lead :: bytes) b) : Reads (peek >>= k) (lead :: bytes) b := h

/-- A step, and after it a look at how many bytes it took. -/
theorem reads_measured {r : Reader α} {k : Nat → α → Nat → Reader β} {bytes : Bytes} {a : α} {b : β}
    (h : Reads r bytes a) (hk : ∀ start, Reads (k start a bytes.length) [] b) :
    Reads (do
      let start ← pos
      let found ← r
      let stop ← pos
      k start found (stop - start)) bytes b := by
  intro start rest
  change (r >>= fun found => pos >>= fun stop => k start found (stop - start)) _ = _
  rw [bind_of_ok (h start rest)]
  change k start a (start + bytes.length - start) _ = _
  rw [Nat.add_sub_cancel_left]
  exact hk start _ rest

/-! ## Readers whose successes depend on nothing else -/

/-- Each success is one of just the bytes that were taken. -/
def Local (r : Reader α) : Prop :=
  ∀ f a f', r f = .ok (a, f') →
    ∃ bytes, f.rest = bytes ++ f'.rest ∧ f'.pos = f.pos + bytes.length ∧ Reads r bytes a

theorem local_pure (a : α) : Local (pure a : Reader α) := by
  intro f b f' h
  cases h
  exact ⟨[], rfl, rfl, reads_pure a⟩

theorem local_fail (fault : Feed → Fault) : Local (fail fault : Reader α) := by
  intro f a f' h
  cases h

theorem local_bind {r : Reader α} {k : α → Reader β} (h : Local r) (hk : ∀ a, Local (k a)) :
    Local (r >>= k) := by
  intro f b f'' hb
  obtain ⟨a, f', ha, hka⟩ := bind_eq_ok.1 hb
  obtain ⟨bytes, hrest, hpos, hreads⟩ := h f a f' ha
  obtain ⟨others, hrest', hpos', hreads'⟩ := hk a f' b f'' hka
  refine ⟨bytes ++ others, ?_, ?_, reads_bind hreads hreads'⟩
  · rw [hrest, hrest', List.append_assoc]
  · rw [hpos', hpos, List.length_append, Nat.add_assoc]

theorem local_map {r : Reader α} (g : α → β) (h : Local r) : Local (g <$> r) := by
  rw [map_eq_pure_bind]
  exact local_bind h fun a => local_pure (g a)

theorem local_ite {c : Prop} [Decidable c] {r s : Reader α} (h : Local r) (h' : Local s) :
    Local (if c then r else s) := by
  split
  · exact h
  · exact h'

/-- Whatever the first reader finds, the second one finds too. -/
def Follows (s r : Reader α) : Prop := ∀ f x, r f = .ok x → s f = .ok x

theorem follows_bind {r : Reader α} {k l : α → Reader β} (h : ∀ a, Follows (l a) (k a)) :
    Follows (r >>= l) (r >>= k) := by
  rintro f ⟨b, f''⟩ hb
  obtain ⟨a, f', ha, hk⟩ := bind_eq_ok.1 hb
  exact bind_eq_ok.2 ⟨a, f', ha, h a f' _ hk⟩

/-- A reader that names its place only in a fault is as local as at any one place. -/
theorem local_pos {k : Nat → Reader β} (h : ∀ start, Local (k start))
    (same : ∀ start other, Follows (k other) (k start)) : Local (pos >>= k) := by
  intro f b f' hb
  obtain ⟨bytes, hrest, hpos, hreads⟩ := h f.pos f b f' hb
  refine ⟨bytes, hrest, hpos, ?_⟩
  intro start rest
  exact same f.pos start _ _ (hreads start rest)

/-- A local step, and after it a look at how many bytes it took, which takes none. -/
theorem local_measured {r : Reader α} {k : Nat → α → Nat → Reader β} (h : Local r)
    (hk : ∀ start a used f b f', k start a used f = .ok (b, f') →
      f' = f ∧ ∀ other, Reads (k other a used) [] b) :
    Local (do
      let start ← pos
      let found ← r
      let stop ← pos
      k start found (stop - start)) := by
  intro f b f'' hb
  obtain ⟨a, f', ha, hb⟩ := bind_eq_ok.1
    (show (r >>= fun found => pos >>= fun stop => k f.pos found (stop - f.pos)) f = _ from hb)
  obtain ⟨bytes, hrest, hpos, hreads⟩ := h f a f' ha
  obtain ⟨rfl, hother⟩ := hk f.pos a (f'.pos - f.pos) f' b f'' hb
  refine ⟨bytes, hrest, hpos, ?_⟩
  have hused : f''.pos - f.pos = bytes.length := by omega
  rw [hused] at hother
  exact reads_measured hreads hother

end Reader

end BytecodeDump
