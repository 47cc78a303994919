-- What constants yield when they are surveyed. The one thing that a table loses is a
-- pair whose key comes again, and losing it makes the table shorter.
import BytecodeDump.Proofs.Yield

namespace BytecodeDump

open Survey

variable (table : OpcodeTable)

/-! ## Table values -/

namespace TableValue

/-- The tag of the value is the one that was read, and so is what follows it. -/
theorem yields : Yields table survey Fits written := by
  intro f v parts f' h
  obtain ⟨tag, ps, f₁, qs, htag, hk, rfl⟩ := bind_eq_ok.1 h
  obtain ⟨htook, -, hrewrites⟩ := yields_leb32 table _ _ _ _ htag
  have hlt := tag.toNat_lt
  unfold Output.leb32 at hrewrites
  generalize tag.toNat = n at hk hrewrites hlt
  -- What follows the tag decides what is found; in each case it has the same tag.
  suffices hpayload : Took f₁ qs f' ∧ v.tag = n ∧ Rewrites table True qs v.payload by
    obtain ⟨htook', rfl, hrewrites'⟩ := hpayload
    exact ⟨htook.append htook', hlt, hrewrites.append hrewrites'⟩
  match n with
  | 0 | 1 | 2 =>
    obtain ⟨rfl, rfl, rfl⟩ := pure_eq_ok.1 hk
    exact ⟨.nil _, rfl, .nil⟩
  | 3 =>
    obtain ⟨value, hvalue, rfl⟩ := bind_pure_eq_ok.1 hk
    obtain ⟨htook', -, hrewrites'⟩ := yields_leb32 table _ _ _ _ hvalue
    refine ⟨htook', rfl, ?_⟩
    rw [payload, UInt32.toUInt32_toInt32]
    exact hrewrites'
  | 4 =>
    obtain ⟨value, hvalue, rfl⟩ := bind_pure_eq_ok.1 hk
    obtain ⟨htook', -, hrewrites'⟩ := yields_word64 table _ _ _ _ hvalue
    refine ⟨htook', rfl, ?_⟩
    rw [payload, UInt64.toUInt64_toInt64]
    exact hrewrites'
  | n + 5 =>
    rw [kind_of_ge (Nat.le_add_left 5 n)] at hk
    obtain ⟨value, hvalue, rfl⟩ := bind_pure_eq_ok.1 hk
    obtain ⟨htook', hlength, hrewrites'⟩ := yields_bytes table _ _ _ _ _ hvalue
    refine ⟨htook', ?_, hrewrites'⟩
    rw [TableValue.tag, hlength]
    omega

end TableValue

/-! ## Dictionaries -/

namespace Table

/-- The number of bytes that some pairs take. -/
def size (pairs : List (TableValue × TableValue)) : Nat := (pairs.flatMap writtenPair).length

theorem size_cons (pair : TableValue × TableValue) (pairs : List (TableValue × TableValue)) :
    size (pair :: pairs) = (writtenPair pair).length + size pairs := by
  rw [size, List.flatMap_cons, List.length_append, size]

theorem size_append (pairs others : List (TableValue × TableValue)) :
    size (pairs ++ others) = size pairs + size others := by
  rw [size, List.flatMap_append, List.length_append, size, size]

theorem length_written_pos (v : TableValue) : 0 < v.written.length := by
  have := Leb128.length_encode_pos v.tag
  rw [TableValue.written, List.length_append]
  omega

theorem mem_setIn {key value : TableValue} {pairs : List (TableValue × TableValue)}
    {pair : TableValue × TableValue} (h : pair ∈ setIn key value pairs) :
    pair = (key, value) ∨ pair ∈ pairs := by
  induction pairs with
  | nil => exact .inl (List.mem_singleton.1 h)
  | cons first rest ih =>
    unfold setIn at h
    by_cases hkey : first.1 = key
    · rw [if_pos hkey] at h
      rcases List.mem_cons.1 h with rfl | h
      · exact .inl (by rw [hkey])
      · exact .inr (List.mem_cons_of_mem _ h)
    · rw [if_neg hkey] at h
      rcases List.mem_cons.1 h with rfl | h
      · exact .inr List.mem_cons_self
      · rcases ih h with h | h
        · exact .inl h
        · exact .inr (List.mem_cons_of_mem _ h)

theorem keys_setIn_of_mem {key value : TableValue} {pairs : List (TableValue × TableValue)}
    (h : key ∈ keys pairs) : keys (setIn key value pairs) = keys pairs := by
  induction pairs with
  | nil => cases h
  | cons first rest ih =>
    unfold setIn
    by_cases hkey : first.1 = key
    · rw [if_pos hkey]
      rfl
    · rw [if_neg hkey]
      simp only [keys, List.map_cons, List.mem_cons] at h ih ⊢
      rw [ih (h.resolve_left (Ne.symm hkey))]

theorem length_setIn_of_mem {key value : TableValue} {pairs : List (TableValue × TableValue)}
    (h : key ∈ keys pairs) : (setIn key value pairs).length = pairs.length := by
  have hkeys : keys (setIn key value pairs) = keys pairs := keys_setIn_of_mem h
  simpa [keys] using congrArg List.length hkeys

/-- A pair whose key was there takes less room than a pair more. -/
theorem size_setIn_of_mem {key value : TableValue} {pairs : List (TableValue × TableValue)}
    (h : key ∈ keys pairs) :
    size (setIn key value pairs) < size pairs + (writtenPair (key, value)).length := by
  induction pairs with
  | nil => cases h
  | cons first rest ih =>
    unfold setIn
    by_cases hkey : first.1 = key
    · rw [if_pos hkey]
      have hpos := length_written_pos first.2
      rw [size_cons, size_cons]
      simp only [writtenPair, List.length_append, hkey]
      omega
    · rw [if_neg hkey]
      simp only [keys, List.map_cons, List.mem_cons] at h
      have hrest := ih (h.resolve_left (Ne.symm hkey))
      rw [size_cons, size_cons, Prod.mk.eta]
      omega

theorem setAll_cons (t : Table) (pair : TableValue × TableValue)
    (pairs : List (TableValue × TableValue)) :
    t.setAll (pair :: pairs) = (t.set pair.1 pair.2).setAll pairs := rfl

theorem array_setAll (t : Table) (pairs : List (TableValue × TableValue)) :
    (t.setAll pairs).array = t.array := by
  induction pairs generalizing t with
  | nil => rfl
  | cons pair pairs ih => rw [setAll_cons, ih, set]

theorem mem_setAll {t : Table} {pairs : List (TableValue × TableValue)}
    {pair : TableValue × TableValue} (h : pair ∈ (t.setAll pairs).dict) :
    pair ∈ t.dict ∨ pair ∈ pairs := by
  induction pairs generalizing t with
  | nil => exact .inl h
  | cons first pairs ih =>
    rw [setAll_cons] at h
    rcases ih h with h | h
    · rcases mem_setIn h with rfl | h
      · exact .inr List.mem_cons_self
      · exact .inl h
    · exact .inr (List.mem_cons_of_mem _ h)

/-- Pairs that are set one after the other leave no key twice, and are no more and no
longer than they were. They are as long only if no key came again. -/
theorem setAll_shrinks {t : Table} (ht : t.Keyed) (pairs : List (TableValue × TableValue)) :
    (t.setAll pairs).Keyed ∧ (t.setAll pairs).dict.length ≤ t.dict.length + pairs.length ∧
      size (t.setAll pairs).dict ≤ size t.dict + size pairs ∧
      (size (t.setAll pairs).dict = size t.dict + size pairs →
        (keys (t.dict ++ pairs)).Nodup) := by
  induction pairs generalizing t with
  | nil =>
    refine ⟨ht, Nat.le_refl _, Nat.le_refl _, ?_⟩
    intro _
    rw [List.append_nil]
    exact ht
  | cons pair pairs ih =>
    rw [setAll_cons, List.length_cons, size_cons]
    by_cases hmem : pair.1 ∈ keys t.dict
    · have hkeyed : (t.set pair.1 pair.2).Keyed := by
        unfold Keyed set
        rw [keys_setIn_of_mem hmem]
        exact ht
      obtain ⟨h1, h2, h3, -⟩ := ih hkeyed
      have hlength : (t.set pair.1 pair.2).dict.length = t.dict.length := length_setIn_of_mem hmem
      have hsize : size (t.set pair.1 pair.2).dict < size t.dict + (writtenPair pair).length :=
        size_setIn_of_mem hmem
      exact ⟨h1, by omega, by omega, fun heq => by omega⟩
    · have hset : (t.set pair.1 pair.2).dict = t.dict ++ [pair] := setIn_of_notMem hmem
      have hkeyed : (t.set pair.1 pair.2).Keyed := by
        unfold Keyed keys
        rw [hset, List.map_append, List.nodup_append]
        refine ⟨ht, List.nodup_singleton _, ?_⟩
        rintro k hk l hl rfl
        rw [List.mem_singleton.1 hl] at hk
        exact hmem hk
      obtain ⟨h1, h2, h3, h4⟩ := ih hkeyed
      rw [hset] at h2 h3 h4
      rw [List.length_append, List.length_singleton] at h2
      have hone : size [pair] = (writtenPair pair).length := by
        rw [size_cons]
        rfl
      rw [size_append, hone] at h3 h4
      refine ⟨h1, by omega, by omega, ?_⟩
      intro heq
      have hnodup := h4 (by omega)
      rwa [List.append_assoc, List.singleton_append] at hnodup

/-- The same for a table that had no pairs before. -/
theorem setAll_empty_shrinks (array : List TableValue) (pairs : List (TableValue × TableValue)) :
    (setAll ⟨array, []⟩ pairs).Keyed ∧ (setAll ⟨array, []⟩ pairs).dict.length ≤ pairs.length ∧
      size (setAll ⟨array, []⟩ pairs).dict ≤ size pairs ∧
      (size (setAll ⟨array, []⟩ pairs).dict = size pairs → (keys pairs).Nodup) := by
  have hempty : (⟨array, []⟩ : Table).Keyed := List.nodup_nil
  have hsize : size ([] : List (TableValue × TableValue)) = 0 := rfl
  have hshrinks := setAll_shrinks hempty pairs
  rw [hsize, List.length_nil, Nat.zero_add, Nat.zero_add] at hshrinks
  exact hshrinks

theorem yields_pair :
    Yields table surveyPair (fun pair => pair.1.Fits ∧ pair.2.Fits) writtenPair := by
  intro f pair parts f' h
  obtain ⟨key, ps, f₁, qs, hkey, hk, rfl⟩ := bind_eq_ok.1 h
  obtain ⟨value, hvalue, rfl⟩ := bind_pure_eq_ok.1 hk
  obtain ⟨htook, hfits, hrewrites⟩ := TableValue.yields table _ _ _ _ hkey
  obtain ⟨htook', hfits', hrewrites'⟩ := TableValue.yields table _ _ _ _ hvalue
  exact ⟨htook.append htook', ⟨hfits, hfits'⟩, hrewrites.append hrewrites'⟩

variable {table} in
/-- The pairs that are left of a dictionary rewrite all its pairs and its keys. -/
theorem rewrites_dict (array : List TableValue) {pairs : List (TableValue × TableValue)}
    {parts : List Part} (h : Rewrites table True parts (pairs.flatMap writtenPair)) :
    Rewrites table True (parts ++ [.keys (keys pairs)])
      ((setAll ⟨array, []⟩ pairs).dict.flatMap writtenPair) := by
  obtain ⟨-, -, hle, hnodup⟩ := setAll_empty_shrinks array pairs
  have hjoin : Part.join (parts ++ [.keys (keys pairs)]) = Part.join parts := by
    simp [Part.join, Part.bytes]
  have hlength := h.length_le
  refine ⟨?_, ?_, ?_, ?_⟩
  · intro x hx
    rcases List.mem_append.1 hx with hx | hx
    · exact h.whole x hx
    · rw [List.mem_singleton.1 hx]
      trivial
  · rw [hjoin]
    exact le_trans hle hlength
  · intro _ heq x hx
    rw [hjoin] at heq
    have hpairs : (pairs.flatMap writtenPair).length = (Part.join parts).length :=
      le_antisymm hlength (heq ▸ hle)
    rcases List.mem_append.1 hx with hx | hx
    · exact h.tight trivial hpairs x hx
    · rw [List.mem_singleton.1 hx]
      refine ⟨trivial, hnodup ?_⟩
      exact heq.trans hpairs.symm
  · intro _ htight
    have hkeys : (keys ([] ++ pairs)).Nodup := (htight _ (List.mem_append_right _
      (List.mem_singleton_self _))).2
    have hall : setAll ⟨array, []⟩ pairs = ⟨array, pairs⟩ := foldl_set [] hkeys
    rw [hall, h.same trivial fun x hx => htight x (List.mem_append_left _ hx)]
    simp [Part.join, Part.clear, Part.bytes]

/-- A table whose pairs kept their length kept all of them. -/
theorem setAll_of_size {array : List TableValue} {pairs : List (TableValue × TableValue)}
    (h : size (setAll ⟨array, []⟩ pairs).dict = size pairs) :
    setAll ⟨array, []⟩ pairs = ⟨array, pairs⟩ := by
  obtain ⟨-, -, -, hnodup⟩ := setAll_empty_shrinks array pairs
  exact foldl_set [] (hnodup h)

theorem yields : Yields table survey (fun t => t.Fits ∧ t.Keyed) written := by
  intro f t parts f' h
  obtain ⟨arraySize, p₁, f₁, q₁, harraySize, hk₁, rfl⟩ := bind_eq_ok.1 h
  obtain ⟨dictSize, p₂, f₂, q₂, hdictSize, hk₂, rfl⟩ := bind_eq_ok.1 hk₁
  obtain ⟨array, p₃, f₃, q₃, harray, hk₃, rfl⟩ := bind_eq_ok.1 hk₂
  obtain ⟨pairs, p₄, f₄, q₄, hpairs, hk₄, rfl⟩ := bind_eq_ok.1 hk₃
  obtain ⟨_, p₅, f₅, q₅, hnote, hpure, rfl⟩ := bind_eq_ok.1 hk₄
  cases hnote
  obtain ⟨ht, rfl, rfl⟩ := pure_eq_ok.1 hpure
  replace ht : t = setAll ⟨array, []⟩ pairs := ht
  obtain ⟨t₁, -, r₁⟩ := yields_leb32 table _ _ _ _ harraySize
  obtain ⟨t₂, r₂⟩ := leb32_shrinks table hdictSize
  obtain ⟨t₃, ⟨harrayLength, harrayFits⟩, r₃⟩ :=
    yields_times (TableValue.yields table) _ _ _ _ _ harray
  obtain ⟨t₄, ⟨hpairsLength, hpairsFits⟩, r₄⟩ :=
    yields_times (yields_pair table) _ _ _ _ _ hpairs
  obtain ⟨hkeyed, hle, hsize, -⟩ := setAll_empty_shrinks array pairs
  rw [← ht] at hkeyed hle hsize
  have harrayEq : t.array = array := by rw [ht, array_setAll]
  have hdictLength : t.dict.length ≤ dictSize.toNat := by
    rw [← hpairsLength]
    exact hle
  have harraySizeLt := arraySize.toNat_lt
  have hdictSizeLt := dictSize.toNat_lt
  refine ⟨?_, ⟨⟨?_, ?_, ?_, ?_⟩, hkeyed⟩, ?_⟩
  · exact t₁.append (t₂.append (t₃.append (t₄.append ((Took.nil _).note rfl))))
  · rw [harrayEq, harrayLength]
    exact harraySizeLt
  · exact lt_of_le_of_lt hdictLength hdictSizeLt
  · rw [harrayEq]
    exact harrayFits
  · intro pair hpair
    rw [ht] at hpair
    rcases mem_setAll hpair with hpair | hpair
    · cases hpair
    · exact hpairsFits pair hpair
  · have hdict : Rewrites table True (p₄ ++ [.keys (keys pairs)]) (t.dict.flatMap writtenPair) := by
      rw [ht]
      exact rewrites_dict array r₄
    have hclosed :
        Rewrites table True (p₁ ++ p₂ ++ p₃ ++ (p₄ ++ [.keys (keys pairs)])) t.written := by
      unfold written
      rw [harrayEq, harrayLength]
      refine ((r₁.weaken.append (r₂ _ hdictLength)).append r₃.weaken).close hdict ?_
      intro heq
      have hjoin : Part.join (p₄ ++ [.keys (keys pairs)]) = Part.join p₄ := by
        simp [Part.join, Part.bytes]
      rw [hjoin] at heq
      have hkept : size t.dict = size pairs := by
        refine le_antisymm hsize ?_
        exact le_trans r₄.length_le heq.ge
      rw [ht] at hkept ⊢
      rw [setAll_of_size hkept, hpairsLength]
    simpa only [List.append_assoc, List.append_nil] using hclosed

end Table

/-! ## Constants -/

namespace Constant

/-- A constant that names a child names the next one. -/
theorem yields (pending taken : Nat) : Yields table (survey pending taken)
    (fun k => k.Fits ∧ k.Keyed ∧ k.withIndex taken = k) written := by
  intro f k parts f' h
  obtain ⟨tag, ps, f₁, qs, htag, hk, rfl⟩ := bind_eq_ok.1 h
  obtain ⟨htook, -, hrewrites⟩ := yields_leb32 table _ _ _ _ htag
  have hlt := tag.toNat_lt
  unfold Output.leb32 at hrewrites
  generalize tag.toNat = n at hk hrewrites hlt
  suffices hpayload : Took f₁ qs f' ∧ k.tag = n ∧ (∀ t, k = .table t → t.Fits ∧ t.Keyed) ∧
      k.withIndex taken = k ∧ Rewrites table True qs k.payload by
    obtain ⟨htook', rfl, htable, hindex, hrewrites'⟩ := hpayload
    exact ⟨htook.append htook', ⟨⟨hlt, fun t ht => (htable t ht).1⟩, fun t ht => (htable t ht).2,
      hindex⟩, hrewrites.append hrewrites'⟩
  match n with
  | 0 =>
    have hchild : (if taken < pending then pure (Constant.child taken)
        else Survey.fail fun _ => .noPrototypeLeft) f₁ = .ok ((k, qs), f') := hk
    by_cases hleft : taken < pending
    · rw [if_pos hleft] at hchild
      obtain ⟨rfl, rfl, rfl⟩ := pure_eq_ok.1 hchild
      exact ⟨.nil _, rfl, fun _ ht => (by cases ht), rfl, .nil⟩
    · rw [if_neg hleft] at hchild
      cases hchild
  | 1 =>
    obtain ⟨value, hvalue, rfl⟩ := bind_pure_eq_ok.1 hk
    obtain ⟨htook', hgood, hrewrites'⟩ := Table.yields table _ _ _ _ hvalue
    exact ⟨htook', rfl, fun _ ht => (by cases ht; exact hgood), rfl, hrewrites'⟩
  | 2 =>
    obtain ⟨value, hvalue, rfl⟩ := bind_pure_eq_ok.1 hk
    obtain ⟨htook', -, hrewrites'⟩ := yields_word64 table _ _ _ _ hvalue
    refine ⟨htook', rfl, fun _ ht => (by cases ht), rfl, ?_⟩
    rw [payload, UInt64.toUInt64_toInt64]
    exact hrewrites'
  | 3 =>
    obtain ⟨value, hvalue, rfl⟩ := bind_pure_eq_ok.1 hk
    obtain ⟨htook', -, hrewrites'⟩ := yields_word64 table _ _ _ _ hvalue
    exact ⟨htook', rfl, fun _ ht => (by cases ht), rfl, hrewrites'⟩
  | 4 =>
    obtain ⟨re, rs, f₂, is, hre, hk', rfl⟩ := bind_eq_ok.1 hk
    obtain ⟨im, him, rfl⟩ := bind_pure_eq_ok.1 hk'
    obtain ⟨htookRe, -, hrewritesRe⟩ := yields_word64 table _ _ _ _ hre
    obtain ⟨htookIm, -, hrewritesIm⟩ := yields_word64 table _ _ _ _ him
    exact ⟨htookRe.append htookIm, rfl, fun _ ht => (by cases ht), rfl,
      hrewritesRe.append hrewritesIm⟩
  | n + 5 =>
    rw [kind_of_ge (Nat.le_add_left 5 n)] at hk
    obtain ⟨value, hvalue, rfl⟩ := bind_pure_eq_ok.1 hk
    obtain ⟨htook', hlength, hrewrites'⟩ := yields_bytes table _ _ _ _ _ hvalue
    refine ⟨htook', ?_, fun _ ht => (by cases ht), rfl, hrewrites'⟩
    rw [Constant.tag, hlength]
    omega

/-- Constants in a row name the children in their order. -/
theorem yields_all (pending taken count : Nat) : Yields table (surveyAll pending taken count)
    (fun ks => ks.length = count ∧ (∀ k ∈ ks, k.Fits ∧ k.Keyed) ∧ countUp taken ks = ks)
    (List.flatMap written) := by
  induction count generalizing taken with
  | zero =>
    intro f ks parts f' h
    obtain ⟨rfl, rfl, rfl⟩ := pure_eq_ok.1 h
    exact ⟨.nil _, ⟨rfl, by simp, rfl⟩, .nil⟩
  | succ count ih =>
    intro f ks parts f' h
    obtain ⟨first, ps, f₁, qs, hfirst, hk, rfl⟩ := bind_eq_ok.1 h
    obtain ⟨others, hothers, rfl⟩ := bind_pure_eq_ok.1 hk
    obtain ⟨htook, ⟨hfits, hkeyed, hindex⟩, hrewrites⟩ := yields table _ _ _ _ _ _ hfirst
    obtain ⟨htook', ⟨hlength, hall, hcount⟩, hrewrites'⟩ := ih _ _ _ _ _ hothers
    refine ⟨htook.append htook', ⟨by rw [List.length_cons, hlength], ?_, ?_⟩, ?_⟩
    · intro k hk
      rcases List.mem_cons.1 hk with rfl | hk
      · exact ⟨hfits, hkeyed⟩
      · exact hall k hk
    · rw [countUp, hindex, hcount]
    · rw [List.flatMap_cons]
      exact hrewrites.append hrewrites'

end Constant

/-! ## Numbers -/

namespace NumberConstant

theorem yields : Yields table survey (fun _ => True) write := by
  intro f n parts f' h
  obtain ⟨⟨isDouble, low⟩, ps, f₁, qs, hmarked, hk, rfl⟩ := bind_eq_ok.1 h
  obtain ⟨htook, -, hrewrites⟩ := yields_marked table _ _ _ _ hmarked
  cases isDouble with
  | true =>
    obtain ⟨high, hhigh, rfl⟩ := bind_pure_eq_ok.1 hk
    obtain ⟨htook', -, hrewrites'⟩ := yields_leb32 table _ _ _ _ hhigh
    refine ⟨htook.append htook', trivial, ?_⟩
    rw [write, Word.halves_join]
    exact hrewrites.append hrewrites'
  | false =>
    obtain ⟨rfl, rfl, rfl⟩ := pure_eq_ok.1 hk
    refine ⟨htook.append (.nil _), trivial, ?_⟩
    rw [write, UInt32.toUInt32_toInt32, List.append_nil]
    exact hrewrites

end NumberConstant

end BytecodeDump
