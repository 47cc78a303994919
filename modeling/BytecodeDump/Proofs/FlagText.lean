-- Flag words read back from their text. The names of bits and the number that follows them
-- are found between the bars again, so no bit of a word is lost, whether it has a name or not.
import BytecodeDump.Flags
import BytecodeDump.Proofs.JsonText
import BytecodeDump.Proofs.Split

namespace BytecodeDump

/-! ## Base 16 -/

namespace Text

theorem hexDigit_digitChar {d : Nat} (h : d < 16) : hexDigit? d.digitChar = some d := by
  have hall : ∀ k < 16, hexDigit? (Nat.digitChar k) = some k := by decide
  exact hall d h

theorem hexValue_toDigits (n : Nat) : hexValue? (Nat.toDigits 16 n) = some n := by
  induction n using Nat.strong_induction_on with
  | h n ih =>
    unfold hexValue? at ih ⊢
    rcases Nat.lt_or_ge n 16 with hlt | hge
    · rw [Nat.toDigits_of_lt_base hlt]
      simp [hexDigit_digitChar hlt]
    · have hdigit := hexDigit_digitChar (Nat.mod_lt n (show 0 < 16 by decide))
      rw [Nat.toDigits_of_base_le (by decide) hge, List.foldlM_append, ih (n / 16) (by omega)]
      simp [hdigit, Nat.div_add_mod]

theorem digitChar_of_mem {n : Nat} : ∀ c ∈ Nat.toDigits 16 n, ∃ d < 16, c = d.digitChar := by
  induction n using Nat.strong_induction_on with
  | h n ih =>
    rcases Nat.lt_or_ge n 16 with hlt | hge
    · rw [Nat.toDigits_of_lt_base hlt]
      intro c hc
      exact ⟨n, hlt, List.mem_singleton.1 hc⟩
    · rw [Nat.toDigits_of_base_le (by decide) hge]
      intro c hc
      rcases List.mem_append.1 hc with hc | hc
      · exact ih (n / 16) (by omega) c hc
      · exact ⟨n % 16, Nat.mod_lt n (by decide), List.mem_singleton.1 hc⟩

/-! ## Parts -/

/-- Some characters, and no blank or bar among them. -/
def Solid (part : List Char) : Prop :=
  part ≠ [] ∧ ∀ c ∈ part, whiteSpace.has c = false ∧ c ≠ '|'

instance (part : List Char) : Decidable (Solid part) :=
  decidable_of_iff (part ≠ [] ∧ part.all fun c => !whiteSpace.has c && c != '|')
    (by simp [Solid])

/-- Parts with bars between them. -/
abbrev barred (parts : List (List Char)) : List Char := [' ', '|', ' '].intercalate parts

theorem barred_cons_cons (part second : List Char) (parts : List (List Char)) :
    barred (part :: second :: parts) =
      part ++ [' '] ++ '|' :: ([' '] ++ barred (second :: parts)) := by
  rw [barred, List.intercalate_cons_cons]
  simp

theorem barred_cons_ne_nil {part : List Char} (h : part ≠ []) (parts : List (List Char)) :
    barred (part :: parts) ≠ [] := by
  obtain ⟨tail, (htail : barred (part :: parts) = _)⟩ := intercalate_cons _ part parts
  rw [htail]
  exact List.append_ne_nil_of_left_ne_nil h tail

theorem trim_solid {lead tail part : List Char} (h : Solid part)
    (hlead : ∀ c ∈ lead, c = ' ') (htail : ∀ c ∈ tail, c = ' ') :
    trim (lead ++ (part ++ tail)) = part := by
  have hwhite : ∀ {cs : List Char}, (∀ c ∈ cs, c = ' ') → ∀ c ∈ cs, whiteSpace.has c = true := by
    intro cs hcs c hc
    rw [hcs c hc]
    decide
  refine trim_append (hwhite hlead) (hwhite htail) h.1 ?_ ?_
  · exact fun c hc => (h.2 c (List.mem_of_mem_head? hc)).1
  · exact fun c hc => (h.2 c (List.mem_of_getLast? hc)).1

/-- Between the bars stand the parts, and blanks around them. -/
theorem split_barred {parts : List (List Char)} (hne : parts ≠ []) (h : ∀ p ∈ parts, Solid p)
    {lead : List Char} (hlead : ∀ c ∈ lead, c = ' ') :
    (split '|' (lead ++ barred parts)).map trim = parts := by
  have hbar : ∀ {cs : List Char}, (∀ c ∈ cs, c = ' ') → '|' ∉ cs := by
    intro cs hcs hmem
    exact absurd (hcs '|' hmem) (by decide)
  induction parts generalizing lead with
  | nil => exact absurd rfl hne
  | cons part parts ih =>
    have hpart := h part List.mem_cons_self
    have hnot : '|' ∉ part := fun hmem => (hpart.2 '|' hmem).2 rfl
    cases parts with
    | nil =>
      have htrim : trim (lead ++ (part ++ [])) = part := trim_solid hpart hlead (by simp)
      rw [List.append_nil] at htrim
      rw [barred, List.intercalate_singleton, split_of_notMem, List.map_singleton, htrim]
      rw [List.mem_append, not_or]
      exact ⟨hbar hlead, hnot⟩
    | cons second parts =>
      have hblank : ∀ c ∈ [' '], c = ' ' := fun c hc => List.mem_singleton.1 hc
      have hothers := ih (List.cons_ne_nil second parts)
        (fun p hp => h p (List.mem_cons_of_mem part hp)) hblank
      have hmark : '|' ∉ lead ++ (part ++ [' ']) := by
        simp only [List.mem_append, not_or]
        exact ⟨hbar hlead, hnot, hbar hblank⟩
      rw [barred_cons_cons, ← List.append_assoc, split_append hmark, List.map_cons,
        trim_solid hpart hlead hblank, hothers]

/-- The text begins and ends with a part, so there is nothing to take off it. -/
theorem trim_barred {parts : List (List Char)} (hne : parts ≠ []) (h : ∀ p ∈ parts, Solid p) :
    trim (barred parts) = barred parts := by
  have hends : ∀ c ∈ (barred parts).getLast?, whiteSpace.has c = false := by
    induction parts with
    | nil => exact absurd rfl hne
    | cons part parts ih =>
      cases parts with
      | nil =>
        rw [barred, List.intercalate_singleton]
        exact fun c hc => ((h part List.mem_cons_self).2 c (List.mem_of_getLast? hc)).1
      | cons second parts =>
        have hothers := ih (List.cons_ne_nil second parts)
          fun p hp => h p (List.mem_cons_of_mem part hp)
        have hsecond := barred_cons_ne_nil (h second (by simp)).1 parts
        rw [barred, List.intercalate_cons_cons, List.getLast?_append_of_ne_nil _ hsecond]
        exact hothers
  obtain ⟨part, parts, rfl⟩ := List.exists_cons_of_ne_nil hne
  have hpart := h part List.mem_cons_self
  have hstarts : ∀ c ∈ (barred (part :: parts)).head?, whiteSpace.has c = false := by
    obtain ⟨tail, (htail : barred (part :: parts) = _)⟩ :=
      intercalate_cons _ part parts
    rw [htail, List.head?_append_of_ne_nil _ hpart.1]
    exact fun c hc => (hpart.2 c (List.mem_of_mem_head? hc)).1
  have htrim : trim ([] ++ (barred (part :: parts) ++ [])) = barred (part :: parts) :=
    trim_append (by simp) (by simp) (barred_cons_ne_nil hpart.1 parts) hstarts hends
  rwa [List.append_nil, List.nil_append] at htrim

end Text

/-! ## Flags -/

namespace Flags

theorem foldl_and {named : Names} {bits start : Nat} (hstart : bits &&& start = start)
    (h : ∀ x ∈ named, bits &&& x.2 = x.2) :
    bits &&& named.foldl (fun sum (_, bit) => sum ||| bit) start =
      named.foldl (fun sum (_, bit) => sum ||| bit) start := by
  induction named generalizing start with
  | nil => exact hstart
  | cons x named ih =>
    refine ih ?_ fun y hy => h y (List.mem_cons_of_mem x hy)
    rw [Nat.and_or_distrib_left, hstart, h x List.mem_cons_self]

theorem or_xor_of_and {bits known : Nat} (h : bits &&& known = known) :
    known ||| (bits ^^^ known) = bits := by
  apply Nat.eq_of_testBit_eq
  intro k
  have hbit := congrArg (Nat.testBit · k) h
  simp only [Nat.testBit_and, Nat.testBit_or, Nat.testBit_xor] at hbit ⊢
  cases hb : bits.testBit k <;> cases hk : known.testBit k <;> simp_all

/-- The names whose bits are set. -/
def named (names : Names) (bits : Nat) : Names := names.filter fun (_, bit) => bits &&& bit = bit

/-- The bits that have a name. -/
def known (names : Names) (bits : Nat) : Nat :=
  (named names bits).foldl (fun sum (_, bit) => sum ||| bit) 0

theorem parts_eq (names : Names) (bits : Nat) :
    parts names bits = (named names bits).map (·.1) ++
      if bits ^^^ known names bits = 0 then []
      else ["0x" ++ Text.hex (bits ^^^ known names bits)] := rfl

theorem known_or_others (names : Names) (bits : Nat) :
    known names bits ||| (bits ^^^ known names bits) = bits := by
  refine or_xor_of_and (foldl_and (Nat.and_zero bits) fun x hx => ?_)
  simpa using (List.mem_filter.1 hx).2

theorem toList_number (n : Nat) :
    ("0x" ++ Text.hex n).toList = '0' :: 'x' :: Nat.toDigits 16 n := by
  rw [String.toList_append]
  exact congrArg (['0', 'x'] ++ ·) String.toList_ofList

/-- Every name is solid, is not taken for a number, and is that of one bit. -/
def Legible (names : Names) : Prop :=
  ∀ x ∈ names, Text.Solid x.1.toList ∧ x.1.toList.head? ≠ some '0' ∧ names.lookup x.1 = some x.2

instance (names : Names) : Decidable (Legible names) :=
  inferInstanceAs (Decidable (∀ x ∈ names, _ ∧ _ ∧ _))

theorem number_toDigits {n bound : Nat} (h : n < bound) :
    number? bound (Nat.toDigits 16 n) = some n := by
  have hplus : (Nat.toDigits 16 n).head? ≠ some '+' := by
    intro hhead
    obtain ⟨d, hd, heq⟩ := Text.digitChar_of_mem _ (List.mem_of_mem_head? hhead)
    have hall : ∀ k < 16, '+' ≠ Nat.digitChar k := by decide
    exact hall d hd heq
  rw [number?, if_neg hplus, if_neg (by simp [Nat.toDigits_ne_nil]), Text.hexValue_toDigits]
  simp [h]

theorem part_name {names : Names} (h : Legible names) (bound : Nat) {x : String × Nat}
    (hx : x ∈ names) : part? names bound x.1.toList = some x.2 := by
  obtain ⟨-, hzero, hlookup⟩ := h x hx
  rw [part?, String.ofList_toList, hlookup]
  intro cs hcs
  exact hzero (by rw [hcs]; rfl)

theorem foldlM_names {names named : Names} (h : Legible names) (hnamed : ∀ x ∈ named, x ∈ names)
    (bound start : Nat) :
    (named.map fun x => x.1.toList).foldlM
        (fun bits part => (part? names bound part).map (bits ||| ·)) start =
      some (named.foldl (fun sum (_, bit) => sum ||| bit) start) := by
  induction named generalizing start with
  | nil => rfl
  | cons x named ih =>
    rw [List.map_cons, List.foldlM_cons, part_name h bound (hnamed x List.mem_cons_self)]
    exact ih (fun y hy => hnamed y (List.mem_cons_of_mem x hy)) _

/-- The bits of the parts make up the word. -/
theorem foldlM_parts {names : Names} (h : Legible names) {bits bound : Nat} (hbits : bits < bound) :
    ((parts names bits).map String.toList).foldlM
      (fun sum part => (part? names bound part).map (sum ||| ·)) 0 = some bits := by
  have hnamed : ∀ x ∈ named names bits, x ∈ names := fun x hx => (List.mem_filter.1 hx).1
  have hwhole := known_or_others names bits
  have hfold : (((named names bits).map (·.1)).map String.toList).foldlM
      (fun sum part => (part? names bound part).map (sum ||| ·)) 0 = some (known names bits) := by
    rw [List.map_map]
    exact foldlM_names h hnamed bound 0
  rw [parts_eq, List.map_append, List.foldlM_append, hfold]
  simp only [Option.bind_eq_bind, Option.bind_some]
  split
  · rename_i hnone
    rw [hnone, Nat.or_zero] at hwhole
    rw [hwhole]
    rfl
  · have hothers : bits ^^^ known names bits < bound := by
      refine lt_of_le_of_lt ?_ hbits
      conv_rhs => rw [← hwhole]
      exact Nat.right_le_or
    rw [List.map_singleton, toList_number, List.foldlM_cons, part?, number_toDigits hothers]
    simp [hwhole]

/-- What holds of the characters of the names and of a number holds of the parts. -/
theorem forall_parts {P : Char → Prop} {names : Names} (hnames : ∀ x ∈ names, ∀ c ∈ x.1.toList, P c)
    (hmark : P '0' ∧ P 'x') (hdigits : ∀ d < 16, P (Nat.digitChar d)) (bits : Nat) :
    ∀ part ∈ (parts names bits).map String.toList, ∀ c ∈ part, P c := by
  rw [parts_eq, List.map_append, List.map_map]
  intro part hpart c hc
  rcases List.mem_append.1 hpart with hpart | hpart
  · obtain ⟨x, hx, rfl⟩ := List.mem_map.1 hpart
    exact hnames x (List.mem_filter.1 hx).1 c hc
  · split at hpart
    · cases hpart
    · rw [List.map_singleton, List.mem_singleton, toList_number] at hpart
      subst hpart
      rcases List.mem_cons.1 hc with rfl | hc
      · exact hmark.1
      · rcases List.mem_cons.1 hc with rfl | hc
        · exact hmark.2
        · obtain ⟨d, hd, rfl⟩ := Text.digitChar_of_mem c hc
          exact hdigits d hd

theorem solid_parts {names : Names} (h : Legible names) (bits : Nat) :
    ∀ part ∈ (parts names bits).map String.toList, Text.Solid part := by
  intro part hpart
  refine ⟨?_, forall_parts (fun x hx => (h x hx).1.2) (by decide) (by decide) bits part hpart⟩
  rw [parts_eq, List.map_append, List.map_map] at hpart
  rcases List.mem_append.1 hpart with hpart | hpart
  · obtain ⟨x, hx, rfl⟩ := List.mem_map.1 hpart
    exact (h x (List.mem_filter.1 hx).1).1.1
  · split at hpart
    · cases hpart
    · rw [List.map_singleton, List.mem_singleton, toList_number] at hpart
      rw [hpart]
      exact List.cons_ne_nil _ _

theorem toList_text (names : Names) (bits : Nat) :
    (text names bits).toList = Text.barred ((parts names bits).map String.toList) := by
  rw [text, String.toList_intercalate]
  rfl

/-- No bit of a flag word is lost in its text. -/
theorem ofText_text {names : Names} (h : Legible names) {bits bound : Nat}
    (hbits : bits < bound) : ofText? names bound (text names bits) = some bits := by
  have hfold := foldlM_parts h hbits
  have hsolid := solid_parts h bits
  rw [ofText?, toList_text]
  generalize (parts names bits).map String.toList = found at hfold hsolid
  cases found with
  | nil => exact hfold
  | cons part found =>
    have hne := List.cons_ne_nil part found
    have hbarred := Text.barred_cons_ne_nil (hsolid part List.mem_cons_self).1 found
    have hsplit : (Text.split '|' (Text.barred (part :: found))).map Text.trim = part :: found :=
      Text.split_barred hne hsolid (List.forall_mem_nil _)
    rw [Text.trim_barred hne hsolid, if_neg (by simpa using hbarred)]
    generalize Text.split '|' (Text.barred (part :: found)) = pieces at hsplit ⊢
    rw [← hsplit, List.foldlM_map] at hfold
    exact hfold

theorem plain_text {names : Names} (h : ∀ x ∈ names, Json.PlainText x.1) (bits : Nat) :
    Json.PlainText (text names bits) := by
  have hparts := forall_parts h (by decide) (by decide) bits
  intro c hc
  rw [toList_text] at hc
  rcases mem_intercalate hc with hc | ⟨part, hpart, hc⟩
  · simp only [List.mem_cons, List.not_mem_nil, or_false] at hc
    rcases hc with rfl | rfl | rfl <;> decide
  · exact hparts part hpart c hc

end Flags

end BytecodeDump
