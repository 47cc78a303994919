-- The laws of table constants, for any calls on a new table. The dictionary is a map that
-- lists its keys in the order in which they came: a key that is given another value keeps its
-- place, and one that was taken out comes back at the end. The array is a list without gaps.
-- Neither changes the other.
import BytecodeDump.Proofs.ConstantYield

namespace BytecodeDump

namespace Table

/-! ## Calls -/

/-- A call that changes a table. -/
inductive Operation where
  | set (key value : TableValue)
  | remove (key : TableValue)
  | push (index : Slot) (value : TableValue)
  | pop (index : Nat)
  deriving DecidableEq

namespace Operation

/-- The table after the call. -/
def apply : Operation → Table → Table
  | set key value, t => t.set key value
  | remove key, t => (t.remove key).2
  | push index value, t => t.push index value
  | pop index, t => (t.pop index).2

/-- The call is one on the dictionary. -/
def OnDict : Operation → Prop
  | set _ _ | remove _ => True
  | push _ _ | pop _ => False

/-- The call sets the key or takes it out. -/
def Names (key : TableValue) : Operation → Prop
  | set k _ | remove k => k = key
  | push _ _ | pop _ => False

/-- What the call does to the slots of a list: a push writes one slot and fills those before
it that were not there, and with a pop the slots after one move down. -/
def slots : Operation → (Nat → Option TableValue) → Nat → Option TableValue
  | push index value, slot, i =>
    if i = index.val then some value
    else if i < index.val then some ((slot i).getD .nil) else slot i
  | pop index, slot, i => if i < index then slot i else slot (i + 1)
  | set _ _, slot, i | remove _, slot, i => slot i

end Operation

/-- The table after some calls on a new one. -/
def run (calls : List Operation) : Table := calls.foldl (fun t call => call.apply t) empty

theorem run_append_singleton (calls : List Operation) (call : Operation) :
    run (calls ++ [call]) = call.apply (run calls) := by
  simp [run]

/-! ## What the calls say of a key -/

/-- The key was last set to the value, and not taken out after that. -/
def LastSet (calls : List Operation) (key value : TableValue) : Prop :=
  ∃ before after, calls = before ++ .set key value :: after ∧ ∀ call ∈ after, ¬call.Names key

/-- The key was set and not taken out after that. -/
def Present (calls : List Operation) (key : TableValue) : Prop := ∃ value, LastSet calls key value

/-- The key is present since the call number `n`: before that call it was absent, the call set
it, and no later one took it out. -/
def Came (calls : List Operation) (key : TableValue) (n : Nat) : Prop :=
  ∃ before value after, calls = before ++ .set key value :: after ∧ before.length = n ∧
    ¬Present before key ∧ .remove key ∉ after

variable {calls : List Operation} {call : Operation} {key other value : TableValue} {n n' : Nat}

/-- An element of a list with one more at its end is that one, or stands in the list before. -/
theorem append_singleton_eq {α : Type} {xs before after : List α} {x y : α}
    (h : xs ++ [x] = before ++ y :: after) :
    (xs = before ∧ x = y ∧ after = []) ∨
      ∃ earlier, after = earlier ++ [x] ∧ xs = before ++ y :: earlier := by
  rcases List.eq_nil_or_concat after with rfl | ⟨earlier, z, rfl⟩
  · obtain ⟨hxs, hx⟩ := List.append_singleton_inj.1 h
    exact .inl ⟨hxs, hx, rfl⟩
  · rw [List.concat_eq_append, ← List.cons_append, ← List.append_assoc] at h
    obtain ⟨hxs, rfl⟩ := List.append_singleton_inj.1 h
    exact .inr ⟨earlier, List.concat_eq_append, hxs⟩

theorem lastSet_append_singleton :
    LastSet (calls ++ [call]) key value ↔
      call = .set key value ∨ LastSet calls key value ∧ ¬call.Names key := by
  unfold LastSet
  constructor
  · rintro ⟨before, after, hcalls, hafter⟩
    rcases append_singleton_eq hcalls with ⟨-, hcall, -⟩ | ⟨earlier, rfl, rfl⟩
    · exact .inl hcall
    · refine .inr ⟨⟨before, earlier, rfl, ?_⟩, hafter call (by simp)⟩
      intro c hc
      exact hafter c (List.mem_append_left _ hc)
  · rintro (rfl | ⟨⟨before, after, rfl, hafter⟩, hcall⟩)
    · exact ⟨calls, [], rfl, by simp⟩
    · refine ⟨before, after ++ [call], by simp, ?_⟩
      intro c hc
      rcases List.mem_append.1 hc with hc | hc
      · exact hafter c hc
      · rwa [List.mem_singleton.1 hc]

theorem not_present_nil : ¬Present [] key := by
  rintro ⟨value, before, after, h, -⟩
  simp at h

theorem present_append_singleton :
    Present (calls ++ [call]) key ↔
      (∃ value, call = .set key value) ∨ Present calls key ∧ ¬call.Names key := by
  simp only [Present, lastSet_append_singleton, exists_or, exists_and_right]

theorem came_append_singleton :
    Came (calls ++ [call]) key n ↔
      (n = calls.length ∧ (∃ value, call = .set key value) ∧ ¬Present calls key) ∨
        Came calls key n ∧ call ≠ .remove key := by
  unfold Came
  constructor
  · rintro ⟨before, value, after, hcalls, rfl, habsent, hkept⟩
    rcases append_singleton_eq hcalls with ⟨rfl, rfl, -⟩ | ⟨earlier, rfl, rfl⟩
    · exact .inl ⟨rfl, ⟨value, rfl⟩, habsent⟩
    · simp only [List.mem_append, List.mem_singleton, not_or] at hkept
      exact .inr ⟨⟨before, value, earlier, rfl, rfl, habsent, hkept.1⟩, Ne.symm hkept.2⟩
  · rintro (⟨rfl, ⟨value, rfl⟩, habsent⟩ | ⟨⟨before, value, after, rfl, rfl, habsent, hkept⟩, hne⟩)
    · exact ⟨calls, value, [], rfl, rfl, habsent, by simp⟩
    · refine ⟨before, value, after ++ [call], by simp, rfl, habsent, ?_⟩
      simp [hkept, Ne.symm hne]

theorem Came.lt_length (h : Came calls key n) : n < calls.length := by
  obtain ⟨before, value, after, rfl, rfl, -, -⟩ := h
  simp

/-- A call that names a key sets it or takes it out. -/
theorem Operation.eq_of_names (h : call.Names key) :
    (∃ value, call = .set key value) ∨ call = .remove key := by
  cases call with
  | set k v =>
    obtain rfl : k = key := h
    exact .inl ⟨v, rfl⟩
  | remove k =>
    obtain rfl : k = key := h
    exact .inr rfl
  | push index v => exact absurd h id
  | pop index => exact absurd h id

theorem Came.present (h : Came calls key n) : Present calls key := by
  induction calls using List.reverseRecOn with
  | nil => exact absurd h.lt_length (Nat.not_lt_zero n)
  | append_singleton calls call ih =>
    rw [present_append_singleton]
    rcases came_append_singleton.1 h with ⟨-, hset, -⟩ | ⟨hcame, hne⟩
    · exact .inl hset
    · by_cases hnames : call.Names key
      · exact .inl ((Operation.eq_of_names hnames).resolve_right hne)
      · exact .inr ⟨ih hcame, hnames⟩

/-- A key that is present came with just one call. -/
theorem existsUnique_came (h : Present calls key) : ∃! n, Came calls key n := by
  induction calls using List.reverseRecOn with
  | nil => exact absurd h not_present_nil
  | append_singleton calls call ih =>
    by_cases hold : Present calls key
    · have hne : call ≠ .remove key := by
        rintro rfl
        rcases present_append_singleton.1 h with ⟨v, hv⟩ | ⟨-, hnames⟩
        · cases hv
        · exact hnames rfl
      obtain ⟨n, hcame, honly⟩ := ih hold
      refine ⟨n, came_append_singleton.2 (.inr ⟨hcame, hne⟩), ?_⟩
      intro m hm
      rcases came_append_singleton.1 hm with ⟨-, -, habsent⟩ | ⟨hm, -⟩
      · exact absurd hold habsent
      · exact honly m hm
    · have hset := (present_append_singleton.1 h).resolve_right fun hboth => hold hboth.1
      refine ⟨calls.length, came_append_singleton.2 (.inl ⟨rfl, hset, hold⟩), ?_⟩
      intro m hm
      rcases came_append_singleton.1 hm with ⟨hm, -, -⟩ | ⟨hm, -⟩
      · exact hm
      · exact absurd hm.present hold

/-! ## The dictionary -/

@[simp] theorem getKey?_nil (array : List TableValue) (key : TableValue) :
    getKey? ⟨array, []⟩ key = none := rfl

@[simp] theorem getKey?_cons (array : List TableValue) (pair : TableValue × TableValue)
    (rest : List (TableValue × TableValue)) (key : TableValue) :
    getKey? ⟨array, pair :: rest⟩ key =
      if pair.1 = key then some pair.2 else getKey? ⟨array, rest⟩ key := by
  by_cases h : pair.1 = key <;> simp [getKey?, h]

theorem getKey?_eq_none_iff {t : Table} : t.getKey? key = none ↔ key ∉ keys t.dict := by
  simp only [getKey?, Option.map_eq_none_iff, List.find?_eq_none, decide_eq_true_eq, keys,
    List.mem_map, not_exists, not_and]

theorem getKey?_set (t : Table) (key value other : TableValue) :
    (t.set key value).getKey? other = if key = other then some value else t.getKey? other := by
  obtain ⟨array, dict⟩ := t
  simp only [set]
  induction dict with
  | nil => simp [setIn]
  | cons pair rest ih =>
    obtain ⟨k, v⟩ := pair
    by_cases hk : k = key
    · by_cases ho : k = other <;> simp_all [setIn]
    · by_cases ho : k = other
      · have hne : key ≠ other := fun h => hk (ho.trans h.symm)
        rw [setIn, if_neg hk, getKey?_cons, if_pos ho, if_neg hne, getKey?_cons, if_pos ho]
      · simp [setIn, hk, ho, ih]

theorem removeFrom_cons (key : TableValue) (pair : TableValue × TableValue)
    (rest : List (TableValue × TableValue)) :
    removeFrom key (pair :: rest) =
      if pair.1 = key then (some pair.2, rest)
      else ((removeFrom key rest).1, pair :: (removeFrom key rest).2) := by
  rw [removeFrom]

theorem keys_removeFrom (key : TableValue) (pairs : List (TableValue × TableValue)) :
    keys (removeFrom key pairs).2 = (keys pairs).erase key := by
  induction pairs with
  | nil => rfl
  | cons pair rest ih =>
    rw [removeFrom_cons]
    by_cases hk : pair.1 = key
    · simp [keys, hk]
    · simp only [keys] at ih
      simp [keys, hk, ih]

/-- Taking a key out gives the value that it had. -/
theorem remove_fst (t : Table) (key : TableValue) : (t.remove key).1 = t.getKey? key := by
  obtain ⟨array, dict⟩ := t
  simp only [remove]
  induction dict with
  | nil => rfl
  | cons pair rest ih =>
    rw [removeFrom_cons, getKey?_cons]
    by_cases hk : pair.1 = key <;> simp [hk, ih]

theorem getKey?_remove_of_ne {t : Table} (h : key ≠ other) :
    (t.remove key).2.getKey? other = t.getKey? other := by
  obtain ⟨array, dict⟩ := t
  simp only [remove]
  induction dict with
  | nil => rfl
  | cons pair rest ih =>
    rw [removeFrom_cons]
    by_cases hk : pair.1 = key
    · have hne : pair.1 ≠ other := fun ho => h (hk.symm.trans ho)
      simp [hk, h]
    · simp [hk, ih]

theorem getKey?_remove_self {t : Table} (h : t.Keyed) : (t.remove key).2.getKey? key = none := by
  rw [getKey?_eq_none_iff]
  simp only [remove, keys_removeFrom]
  exact List.Nodup.not_mem_erase h

/-- The dictionary is what the calls say: no key stands in it twice, each key has the value
that it was last set to, and the keys stand in the order in which they came. -/
structure Follows (calls : List Operation) (t : Table) : Prop where
  keyed : t.Keyed
  getKey? : ∀ key value, t.getKey? key = some value ↔ LastSet calls key value
  ordered : (keys t.dict).Pairwise fun key other =>
    ∀ n n', Came calls key n → Came calls other n' → n < n'

variable {t : Table}

theorem Follows.mem_keys (h : t.Follows calls) : key ∈ keys t.dict ↔ Present calls key := by
  rw [← not_iff_not, ← getKey?_eq_none_iff, Option.eq_none_iff_forall_ne_some]
  simp only [Present, ne_eq, h.getKey?, not_exists]

/-- Keys that were present stay in the order in which they came. -/
theorem Follows.ordered_of_sublist {ks : List TableValue} (h : t.Follows calls)
    (hks : ks.Sublist (keys t.dict)) (call : Operation) :
    ks.Pairwise fun key other => ∀ n n', Came (calls ++ [call]) key n →
      Came (calls ++ [call]) other n' → n < n' := by
  have hold : ∀ key ∈ ks, ∀ n, Came (calls ++ [call]) key n → Came calls key n := by
    intro key hkey n hcame
    rcases came_append_singleton.1 hcame with ⟨-, -, habsent⟩ | ⟨hcame, -⟩
    · exact absurd (h.mem_keys.1 (hks.subset hkey)) habsent
    · exact hcame
  refine (h.ordered.sublist hks).imp_of_mem ?_
  intro key other hkey hother hlt n n' hn hn'
  exact hlt n n' (hold key hkey n hn) (hold other hother n' hn')

/-- A key that is set keeps its place, or is put at the end if it was absent. -/
theorem Follows.set (h : t.Follows calls) (key value : TableValue) :
    (t.set key value).Follows (calls ++ [.set key value]) := by
  have hgetKey : ∀ other v, (t.set key value).getKey? other = some v ↔
      LastSet (calls ++ [.set key value]) other v := by
    intro other v
    rw [getKey?_set, lastSet_append_singleton]
    by_cases hk : key = other
    · simp [hk, Operation.Names]
    · simp [hk, Operation.Names, h.getKey?]
  by_cases hmem : key ∈ keys t.dict
  · have hkeys : keys (t.set key value).dict = keys t.dict := keys_setIn_of_mem hmem
    refine ⟨?_, hgetKey, ?_⟩
    · rw [Keyed, hkeys]
      exact h.keyed
    · rw [hkeys]
      exact h.ordered_of_sublist (List.Sublist.refl _) _
  · have hkeys : keys (t.set key value).dict = keys t.dict ++ [key] := by
      simp only [Table.set, setIn_of_notMem hmem, keys, List.map_append, List.map_singleton]
    have habsent : ¬Present calls key := fun hpresent => hmem (h.mem_keys.2 hpresent)
    refine ⟨?_, hgetKey, ?_⟩
    · rw [Keyed, hkeys, List.nodup_append]
      refine ⟨h.keyed, List.nodup_singleton key, ?_⟩
      rintro k hk l hl rfl
      exact hmem (List.mem_singleton.1 hl ▸ hk)
    · rw [hkeys, List.pairwise_append]
      refine ⟨h.ordered_of_sublist (List.Sublist.refl _) _, List.pairwise_singleton _ _, ?_⟩
      intro k hk l hl n n' hn hn'
      rw [List.mem_singleton.1 hl] at hn'
      -- The new key comes with this call, and all the others came before.
      rcases came_append_singleton.1 hn' with ⟨rfl, -, -⟩ | ⟨hcame, -⟩
      · rcases came_append_singleton.1 hn with ⟨-, -, hk'⟩ | ⟨hcame, -⟩
        · exact absurd (h.mem_keys.1 hk) hk'
        · exact hcame.lt_length
      · exact absurd hcame.present habsent

/-- A key that is taken out is absent, and the others stay where they were. -/
theorem Follows.remove (h : t.Follows calls) (key : TableValue) :
    (t.remove key).2.Follows (calls ++ [.remove key]) := by
  have hkeys : keys (t.remove key).2.dict = (keys t.dict).erase key := keys_removeFrom key t.dict
  refine ⟨?_, ?_, ?_⟩
  · rw [Keyed, hkeys]
    exact List.Nodup.erase key h.keyed
  · intro other v
    rw [lastSet_append_singleton]
    by_cases hk : key = other
    · subst hk
      simp [getKey?_remove_self h.keyed, Operation.Names]
    · simp [getKey?_remove_of_ne hk, Operation.Names, hk, h.getKey?]
  · rw [hkeys]
    exact h.ordered_of_sublist List.erase_sublist _

/-- A call on the array is none on the dictionary. -/
theorem Follows.of_dict_eq {t' : Table} (h : t.Follows calls) (hdict : t'.dict = t.dict)
    (hcall : ¬call.OnDict) : t'.Follows (calls ++ [call]) := by
  have hgetKey : t'.getKey? = t.getKey? := by
    funext key
    rw [Table.getKey?, Table.getKey?, hdict]
  refine ⟨?_, ?_, ?_⟩
  · rw [Keyed, hdict]
    exact h.keyed
  · intro key value
    rw [hgetKey, h.getKey?, lastSet_append_singleton]
    cases call <;> simp_all [Operation.OnDict, Operation.Names]
  · rw [hdict]
    exact h.ordered_of_sublist (List.Sublist.refl _) _

theorem Follows.apply (h : t.Follows calls) (call : Operation) :
    (call.apply t).Follows (calls ++ [call]) := by
  cases call with
  | set key value => exact h.set key value
  | remove key => exact h.remove key
  | push index value => exact h.of_dict_eq rfl id
  | pop index => exact h.of_dict_eq rfl id

theorem follows_run (calls : List Operation) : (run calls).Follows calls := by
  induction calls using List.reverseRecOn with
  | nil =>
    refine ⟨List.nodup_nil, ?_, List.Pairwise.nil⟩
    intro key value
    simp [run, empty, LastSet]
  | append_singleton calls call ih =>
    rw [run_append_singleton]
    exact ih.apply call

/-! ## The array -/

theorem get?_push (t : Table) (index : Slot) (value : TableValue) (i : Nat) :
    (t.push index value).get? i =
      if i = index.val then some value
      else if i < index.val then some ((t.get? i).getD .nil) else t.get? i := by
  simp only [get?, push]
  rcases Nat.lt_trichotomy i index.val with hlt | rfl | hgt
  · rw [List.getElem?_set_ne (by omega), if_neg (by omega), if_pos hlt]
    by_cases hlen : i < t.array.length
    · rw [List.getElem?_append_left hlen, List.getElem?_eq_getElem hlen, Option.getD_some]
    · rw [List.getElem?_append_right (by omega), List.getElem?_replicate, if_pos (by omega),
        List.getElem?_eq_none (by omega), Option.getD_none]
  · simp only [if_true]
    apply List.getElem?_set_self
    rw [List.length_append, List.length_replicate]
    omega
  · rw [List.getElem?_set_ne (by omega), if_neg (by omega), if_neg (by omega)]
    by_cases hlen : i < t.array.length
    · rw [List.getElem?_append_left hlen]
    · rw [List.getElem?_append_right (by omega), List.getElem?_replicate, if_neg (by omega),
        List.getElem?_eq_none (by omega)]

theorem get?_apply (t : Table) (call : Operation) : (call.apply t).get? = call.slots t.get? := by
  funext i
  cases call with
  | set key value => rfl
  | remove key => rfl
  | push index value => exact get?_push t index value i
  | pop index => exact List.getElem?_eraseIdx

/-- The array has the slots that the calls make of none. -/
theorem get?_run (calls : List Operation) :
    (run calls).get? = calls.foldl (fun slot call => call.slots slot) fun _ => none := by
  induction calls using List.reverseRecOn with
  | nil => rfl
  | append_singleton calls call ih =>
    rw [run_append_singleton, get?_apply, ih, List.foldl_append]
    rfl

/-! ## The law -/

/-- After any calls no key stands twice in the dictionary; a key has the value that it was last
set to, if it was not taken out after that; and the keys that are present stand in the order of
the calls with which they came. Keys of different kinds do not meet, and taking a key out gives
the value that it had. The array has the slots that the calls make of an empty list, and a call
on one part of the table leaves the other as it was. -/
theorem tables_are_ordered_maps_and_lists (calls : List Operation) :
    (keys (run calls).dict).Nodup ∧
      (∀ key value, (run calls).getKey? key = some value ↔ LastSet calls key value) ∧
      (∀ key, (run calls).getKey? key = none ↔ ¬Present calls key) ∧
      (∀ key, key ∈ keys (run calls).dict ↔ Present calls key) ∧
      (∀ key ∈ keys (run calls).dict, ∃! n, Came calls key n) ∧
      (keys (run calls).dict).Pairwise (fun key other =>
        ∀ n n', Came calls key n → Came calls other n' → n < n') ∧
      (∀ key other value, key.kind ≠ other.kind →
        ((run calls).set key value).getKey? other = (run calls).getKey? other ∧
          ((run calls).remove key).2.getKey? other = (run calls).getKey? other) ∧
      (∀ key, ((run calls).remove key).1 = (run calls).getKey? key) ∧
      (run calls).get? = calls.foldl (fun slot call => call.slots slot) (fun _ => none) ∧
      ∀ call : Operation, (call.OnDict → (call.apply (run calls)).array = (run calls).array) ∧
        (¬call.OnDict → (call.apply (run calls)).dict = (run calls).dict) := by
  have h := follows_run calls
  refine ⟨h.keyed, h.getKey?, ?_, fun key => h.mem_keys, ?_, h.ordered, ?_, ?_, get?_run calls, ?_⟩
  · intro key
    rw [getKey?_eq_none_iff, h.mem_keys]
  · intro key hkey
    exact existsUnique_came (h.mem_keys.1 hkey)
  · intro key other value hkind
    have hne : key ≠ other := fun hsame => hkind (congrArg TableValue.kind hsame)
    exact ⟨by rw [getKey?_set, if_neg hne], getKey?_remove_of_ne hne⟩
  · exact fun key => remove_fst _ key
  · intro call
    cases call <;> simp [Operation.OnDict, Operation.apply, set, remove, push, pop]

/-- A key that was taken out and set again stands after one of another kind that stayed. -/
example : keys (run [.set (.int32 1) .nil, .set (.int64 1) .nil, .remove (.int32 1),
    .set (.int32 1) .nil]).dict = [.int64 1, .int32 1] := by
  decide

end Table

end BytecodeDump
