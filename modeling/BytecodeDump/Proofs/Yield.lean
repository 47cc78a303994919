-- What the single fields yield when they are surveyed: the parts are the bytes that
-- were taken, and writing what was found rewrites them.
import BytecodeDump.Proofs.Survey

namespace BytecodeDump

/-- Between two feeds stand just the bytes of some parts. -/
structure Took (f : Feed) (parts : List Part) (f' : Feed) : Prop where
  rest : f.rest = Part.join parts ++ f'.rest
  pos : f'.pos = f.pos + (Part.join parts).length

namespace Took

theorem nil (f : Feed) : Took f [] f := ⟨rfl, rfl⟩

theorem single {f f' : Feed} {part : Part} (hrest : f.rest = part.bytes ++ f'.rest)
    (hpos : f'.pos = f.pos + part.bytes.length) : Took f [part] f' where
  rest := by rw [hrest, Part.join, List.flatMap_singleton]
  pos := by rw [hpos, Part.join, List.flatMap_singleton]

theorem append {f f' f'' : Feed} {parts others : List Part} (h : Took f parts f')
    (h' : Took f' others f'') : Took f (parts ++ others) f'' where
  rest := by rw [h.rest, h'.rest, Part.join_append, List.append_assoc]
  pos := by rw [h'.pos, h.pos, Part.join_append, List.length_append, Nat.add_assoc]

/-- A part that has no bytes may be noted at any place. -/
theorem note {f f' : Feed} {parts : List Part} (h : Took f parts f') {part : Part}
    (hpart : part.bytes = []) : Took f (parts ++ [part]) f' := by
  refine h.append ⟨?_, ?_⟩ <;> simp [Part.join, hpart]

end Took

namespace Survey

variable {α β : Type}

/-! ## Steps in a row -/

theorem bind_of_ok {s : Survey α} {k : α → Survey β} {f f' f'' : Feed} {a : α} {b : β}
    {parts others : List Part} (hs : s f = .ok ((a, parts), f'))
    (hk : k a f' = .ok ((b, others), f'')) :
    (s >>= k) f = .ok ((b, parts ++ others), f'') := by
  simp only [bind, hs, hk]

theorem bind_eq_ok {s : Survey α} {k : α → Survey β} {f f'' : Feed} {b : β} {all : List Part} :
    (s >>= k) f = .ok ((b, all), f'') ↔ ∃ a parts f' others, s f = .ok ((a, parts), f') ∧
      k a f' = .ok ((b, others), f'') ∧ all = parts ++ others := by
  refine ⟨?_, ?_⟩
  · intro h
    cases hs : s f with
    | error fault =>
      simp only [bind, hs] at h
      cases h
    | ok found =>
      obtain ⟨⟨a, parts⟩, f'⟩ := found
      cases hk : k a f' with
      | error fault =>
        simp only [bind, hs, hk] at h
        cases h
      | ok last =>
        obtain ⟨⟨c, others⟩, f₂⟩ := last
        rw [bind_of_ok hs hk] at h
        cases h
        exact ⟨a, parts, f', others, rfl, hk, rfl⟩
  · rintro ⟨a, parts, f', others, hs, hk, rfl⟩
    exact bind_of_ok hs hk

theorem pure_eq_ok {a b : α} {f f' : Feed} {parts : List Part} :
    (pure a : Survey α) f = .ok ((b, parts), f') ↔ b = a ∧ parts = [] ∧ f' = f := by
  refine ⟨?_, ?_⟩
  · intro h
    cases h
    exact ⟨rfl, rfl, rfl⟩
  · rintro ⟨rfl, rfl, rfl⟩
    rfl

/-- A last step that notes nothing. -/
theorem bind_pure_eq_ok {s : Survey α} {g : α → β} {f f' : Feed} {b : β} {parts : List Part} :
    (s >>= fun a => pure (g a)) f = .ok ((b, parts), f') ↔
      ∃ a, s f = .ok ((a, parts), f') ∧ b = g a := by
  rw [bind_eq_ok]
  refine ⟨?_, ?_⟩
  · rintro ⟨a, _, _, _, hs, hpure, rfl⟩
    obtain ⟨rfl, rfl, rfl⟩ := pure_eq_ok.1 hpure
    exact ⟨a, by rw [List.append_nil, hs], rfl⟩
  · rintro ⟨a, hs, rfl⟩
    exact ⟨a, parts, f', [], hs, rfl, (List.append_nil _).symm⟩

/-- A first step that notes nothing. -/
theorem quiet_bind {r : Reader α} {k : α → Survey β} {f f' : Feed} {a : α}
    (h : r f = .ok (a, f')) : (quiet r >>= k) f = k a f' := by
  have hquiet : quiet r f = .ok ((a, []), f') := by simp only [quiet, h]
  simp only [bind, hquiet]
  cases k a f' <;> rfl

theorem pos_bind (k : Nat → Survey β) (f : Feed) : (pos >>= k) f = k f.pos f := quiet_bind rfl

theorem left_bind (k : Nat → Survey β) (f : Feed) : (left >>= k) f = k f.rest.length f :=
  quiet_bind rfl

theorem peek_bind_eq_ok {k : UInt8 → Survey α} {f f' : Feed} {a : α} {parts : List Part}
    (h : (peek >>= k) f = .ok ((a, parts), f')) :
    ∃ lead others, f.rest = lead :: others ∧ k lead f = .ok ((a, parts), f') := by
  obtain ⟨start, rest⟩ := f
  cases rest with
  | nil => cases h
  | cons lead others =>
    have hpeek : Reader.peek ⟨start, lead :: others⟩ = .ok (lead, ⟨start, lead :: others⟩) := rfl
    unfold peek at h
    rw [quiet_bind hpeek] at h
    exact ⟨lead, others, rfl, h⟩

theorem forget_of_ok {s : Survey α} {f f' : Feed} {a : α} {parts : List Part}
    (h : s f = .ok ((a, parts), f')) : s.forget f = .ok (a, f') := by
  simp only [forget, h]

theorem taking_eq_ok {r : Reader α} {part : Bytes → α → Part} {f f' : Feed} {a : α}
    {parts : List Part} (h : taking r part f = .ok ((a, parts), f')) :
    r f = .ok (a, f') ∧ ∀ used, f.rest = used ++ f'.rest → f'.pos = f.pos + used.length →
      parts = [part used a] := by
  unfold taking at h
  cases hr : r f with
  | error fault =>
    rw [hr] at h
    cases h
  | ok found =>
    rw [hr] at h
    cases h
    refine ⟨rfl, ?_⟩
    intro used hrest hpos
    rw [hrest, hpos, Nat.add_sub_cancel_left, List.take_left]

/-! ## What a survey yields -/

/-- Whatever the survey finds is `good`, it took just the bytes of its parts, and the
form of what it found rewrites these parts. -/
def Yields (table : OpcodeTable) (s : Survey α) (good : α → Prop) (form : α → Bytes) : Prop :=
  ∀ f a parts f', s f = .ok ((a, parts), f') →
    Took f parts f' ∧ good a ∧ Rewrites table True parts (form a)

variable (table : OpcodeTable)

theorem yields_byte : Yields table byte (fun _ => True) fun b => [b] := by
  intro f b parts f' h
  obtain ⟨hread, hparts⟩ := taking_eq_ok h
  obtain ⟨hrest, hpos⟩ := Reader.byte_eq_ok hread
  rw [hparts [b] hrest hpos]
  exact ⟨.single hrest hpos, trivial, .plain [b]⟩

theorem yields_bytes (count : Nat) :
    Yields table (bytes count) (fun found => found.length = count) id := by
  intro f found parts f' h
  obtain ⟨hread, hparts⟩ := taking_eq_ok h
  obtain ⟨hlength, hrest, hpos⟩ := Reader.bytes_eq_ok hread
  rw [← hlength] at hpos
  rw [hparts found hrest hpos]
  exact ⟨.single hrest hpos, hlength, .plain found⟩

theorem fixed_eq_ok {e : Endian} {width n : Nat} {f f' : Feed}
    (h : Reader.fixed e width f = .ok (n, f')) :
    ∃ used, f.rest = used ++ f'.rest ∧ f'.pos = f.pos + used.length ∧ used.length = width ∧
      n = e.read used := by
  obtain ⟨used, f₁, hread, h⟩ := Reader.bind_eq_ok.1 h
  cases h
  obtain ⟨hlength, hrest, hpos⟩ := Reader.bytes_eq_ok hread
  rw [← hlength] at hpos
  exact ⟨used, hrest, hpos, hlength, rfl⟩

theorem yields_fixed (e : Endian) (width : Nat) :
    Yields table (fixed e width) (· < Endian.span width) (e.write width) := by
  intro f n parts f' h
  obtain ⟨hread, hparts⟩ := taking_eq_ok h
  obtain ⟨used, hrest, hpos, rfl, rfl⟩ := fixed_eq_ok hread
  rw [hparts used hrest hpos, Endian.write_read]
  exact ⟨.single hrest hpos, Endian.read_lt e used, .plain used⟩

theorem yields_word (e : Endian) : Yields table (word e) (fun _ => True)
    fun n => e.write 4 (table.declared (.ofNat n)).toNat := by
  intro f n parts f' h
  obtain ⟨hread, hparts⟩ := taking_eq_ok h
  obtain ⟨used, hrest, hpos, hlength, rfl⟩ := fixed_eq_ok hread
  rw [hparts used hrest hpos]
  exact ⟨.single hrest hpos, trivial, .word e hlength⟩

theorem yields_cstring : Yields table cstring (fun name => 0 ∉ name) (· ++ [0]) := by
  intro f name parts f' h
  obtain ⟨hread, hparts⟩ := taking_eq_ok h
  obtain ⟨hzero, hrest, hpos⟩ := Reader.cstring_eq_ok hread
  have hrest' : f.rest = (name ++ [0]) ++ f'.rest := by simpa using hrest
  have hpos' : f'.pos = f.pos + (name ++ [0]).length := by simpa using hpos
  rw [hparts _ hrest' hpos']
  exact ⟨.single hrest' hpos', hzero, .plain _⟩

/-- Any number up to the one that was read may be written in its place. -/
theorem leb32_shrinks {f f' : Feed} {n : UInt32} {parts : List Part}
    (h : leb32 f = .ok ((n, parts), f')) :
    Took f parts f' ∧ ∀ m ≤ n.toNat, Rewrites table (m = n.toNat) parts (Leb128.encode m) := by
  obtain ⟨hread, hparts⟩ := taking_eq_ok h
  obtain ⟨spelling, hrest, hpos, hspells⟩ := Reader.leb32_eq_ok hread
  rw [hparts spelling hrest hpos]
  refine ⟨.single hrest hpos, ?_⟩
  intro m hm
  exact .number hspells (lt_trans n.toNat_lt (by norm_num)) hm

theorem yields_leb32 : Yields table leb32 (fun _ => True) Output.leb32 := by
  intro f n parts f' h
  obtain ⟨htook, hshrinks⟩ := leb32_shrinks table h
  exact ⟨htook, trivial, (hshrinks n.toNat (Nat.le_refl _)).met rfl⟩

theorem yields_marked :
    Yields table marked (fun _ => True) fun x => Output.marked x.1 x.2 := by
  rintro f ⟨mark, n⟩ parts f' h
  obtain ⟨hread, hparts⟩ := taking_eq_ok h
  obtain ⟨spelling, hrest, hpos, hspells⟩ := Reader.marked_eq_ok hread
  rw [hparts spelling hrest hpos]
  have hlt : Reader.markedNumber mark n < 0x8000000000000000 :=
    lt_trans (Reader.markedNumber_lt mark n) (by norm_num)
  exact ⟨.single hrest hpos, trivial, (Rewrites.number hspells hlt (Nat.le_refl _)).met rfl⟩

theorem yields_word64 : Yields table word64 (fun _ => True) Output.word64 := by
  intro f n parts f' h
  obtain ⟨low, ps, f₁, qs, hlow, hk, rfl⟩ := bind_eq_ok.1 h
  obtain ⟨high, hhigh, rfl⟩ := bind_pure_eq_ok.1 hk
  obtain ⟨htook, -, hrewrites⟩ := yields_leb32 table _ _ _ _ hlow
  obtain ⟨htook', -, hrewrites'⟩ := yields_leb32 table _ _ _ _ hhigh
  refine ⟨htook.append htook', trivial, ?_⟩
  rw [Output.word64, Word.halves_join]
  exact hrewrites.append hrewrites'

variable {table} in
theorem yields_times {s : Survey α} {good : α → Prop} {form : α → Bytes}
    (h : Yields table s good form) (count : Nat) :
    Yields table (times s count) (fun found => found.length = count ∧ ∀ a ∈ found, good a)
      (List.flatMap form) := by
  induction count with
  | zero =>
    intro f found parts f' hs
    obtain ⟨rfl, rfl, rfl⟩ := pure_eq_ok.1 hs
    exact ⟨.nil _, ⟨rfl, by simp⟩, .nil⟩
  | succ count ih =>
    intro f found parts f' hs
    obtain ⟨first, ps, f₁, qs, hfirst, hk, rfl⟩ := bind_eq_ok.1 hs
    obtain ⟨others, hothers, rfl⟩ := bind_pure_eq_ok.1 hk
    obtain ⟨htook, hgood, hrewrites⟩ := h _ _ _ _ hfirst
    obtain ⟨htook', ⟨hlength, hall⟩, hrewrites'⟩ := ih _ _ _ _ hothers
    refine ⟨htook.append htook', ⟨by rw [List.length_cons, hlength], ?_⟩, ?_⟩
    · intro a ha
      rcases List.mem_cons.1 ha with rfl | ha
      · exact hgood
      · exact hall a ha
    · rw [List.flatMap_cons]
      exact hrewrites.append hrewrites'

end Survey

end BytecodeDump
