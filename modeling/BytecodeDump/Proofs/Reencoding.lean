-- Everything that decodes can be written again, into a dump that is no longer and that
-- decodes to the same script, and it is the same dump just where nothing was written
-- in more bytes than it takes, no key came twice, and no word had a stray bit.
import BytecodeDump.Proofs.RecordYield
import BytecodeDump.Proofs.RoundTrip

namespace BytecodeDump

open Survey

variable (table : OpcodeTable)

/-! ## Trees -/

namespace Prototype

/-- A record that was read found enough prototypes on the stack. -/
theorem push_of_readRecord {layout : Layout} {stack : List Prototype} {f f' : Feed} {b : Body}
    (h : Body.readRecord table layout stack.length f = .ok (b, f')) :
    push stack b = some (finish stack b) := by
  refine if_pos ?_
  by_contra hlack
  have herror := (Body.depends_readRecord table layout _ stack.length _ _ _ h).2 hlack
  rw [h] at herror
  cases herror

/-- The stack that was read is made of bodies that fit, and their records rewrite all
that was read. -/
theorem yields_all {layout : Layout} {steps : Nat} {stack out : List Prototype} {f f' : Feed}
    {parts : List Part} (h : surveyAll table layout steps stack f = .ok ((out, parts), f')) :
    ∃ bodies, build stack bodies = some out ∧ Took f parts f' ∧
      (∀ b ∈ bodies, b.RecordFits table layout ∧ b.Sound table layout) ∧
      Rewrites table True parts (bodies.flatMap (Body.record layout) ++ [0]) := by
  induction steps generalizing stack f parts with
  | zero => cases h
  | succ steps ih =>
    obtain ⟨lead, others, hlead, h⟩ := peek_bind_eq_ok h
    by_cases hzero : lead = 0
    · rw [if_pos hzero] at h
      obtain ⟨b, hb, rfl⟩ := bind_pure_eq_ok.1 h
      obtain ⟨htook, -, hrewrites⟩ := yields_byte table _ _ _ _ hb
      have hrest := (Reader.byte_eq_ok (taking_eq_ok hb).1).1
      rw [hlead, hzero] at hrest
      rw [← (List.cons.inj hrest).1] at hrewrites
      exact ⟨[], rfl, htook, by simp, hrewrites⟩
    · rw [if_neg hzero] at h
      obtain ⟨b, ps, f₁, qs, hrecord, hk, rfl⟩ := bind_eq_ok.1 h
      obtain ⟨htook, hgood, hrewrites⟩ := Body.yields_record table _ _ _ _ _ _ hrecord
      obtain ⟨bodies, hbuild, htook', hall, hrewrites'⟩ := ih hk
      have hread := forget_of_ok hrecord
      rw [Body.forget_surveyRecord] at hread
      refine ⟨b :: bodies, ?_, htook.append htook', ?_, ?_⟩
      · rw [build_cons, push_of_readRecord table hread]
        exact hbuild
      · intro c hc
        rcases List.mem_cons.1 hc with rfl | hc
        · exact hgood
        · exact hall c hc
      · rw [List.flatMap_cons, List.append_assoc]
        exact hrewrites.append hrewrites'

/-- A tree that was built of bodies that reading does not change is what reading makes
of it, but for the parents. -/
theorem readBack_of_build {layout : Layout} {bodies : List Body} {root : Prototype}
    (h : build [] bodies = some [root]) (hsame : ∀ b ∈ bodies, b.readBack layout = b)
    (parent : Option Path) (path : Path) :
    (root.link parent path).Complete ∧ (root.link parent path).postOrder.map body = bodies ∧
      (root.link parent path).readBack layout = root := by
  have hindices : ∀ b ∈ bodies, b.childIndices = (List.range b.childIndices.length).reverse := by
    intro b hb
    have hindices := (b.image_readBack layout).indices
    rwa [hsame b hb] at hindices
  obtain ⟨hcomplete, hbodies⟩ := build_sound hindices (by simp) h
  have hlinked := (hcomplete root (List.mem_singleton_self root)).link parent path
  have hpost : (root.link parent path).postOrder.map body = bodies := by
    rw [bodies_link]
    simpa using hbodies
  have hback : (root.link parent path).bodiesBack layout = bodies := by
    have hmap : (root.link parent path).bodiesBack layout =
        ((root.link parent path).postOrder.map body).map (Body.readBack layout) := by
      rw [bodiesBack, List.map_map]
      rfl
    rw [hmap, hpost]
    exact (List.map_congr_left hsame).trans (List.map_id bodies)
  have hbuild : build [] ((root.link parent path).bodiesBack layout) =
      some [(root.link parent path).readBack layout] := build_bodiesBack hlinked []
  rw [hback, h] at hbuild
  exact ⟨hlinked, hpost, (List.cons.inj (Option.some.inj hbuild)).1.symm⟩

end Prototype

/-! ## Scripts -/

namespace Script

theorem yields_chunkName (debug : Bool) : Yields table (surveyChunkName debug)
    (fun name => name.length < 0x100000000 ∧ (debug = false → name = []))
    (writtenChunkName debug) := by
  intro f name parts f' h
  cases debug with
  | false =>
    obtain ⟨rfl, rfl, rfl⟩ := pure_eq_ok.1 h
    exact ⟨.nil _, ⟨by decide, fun _ => rfl⟩, .nil⟩
  | true =>
    obtain ⟨length, ps, f₁, qs, hlength, hk, rfl⟩ := bind_eq_ok.1 h
    obtain ⟨t₁, -, r₁⟩ := yields_leb32 table _ _ _ _ hlength
    obtain ⟨t₂, hname, r₂⟩ := yields_bytes table _ _ _ _ _ hk
    refine ⟨t₁.append t₂, ⟨?_, fun hfalse => (by cases hfalse)⟩, ?_⟩
    · rw [hname]
      exact length.toNat_lt
    · rw [writtenChunkName, if_pos rfl, hname]
      exact r₁.append r₂

/-- A script that was decoded fits into a dump, reading its dump would give it back, and
writing it rewrites all parts of the dump that it came from. -/
structure Sound (parts : List Part) (s : Script) : Prop where
  fits : s.Fits table
  stable : ∀ q ∈ s.root.postOrder, q.body.Stable table
  same : linkParents { s.headBack with root := s.root.readBack s.layout } = s
  rewrites : Rewrites table True parts s.written

/-- A header, and bodies that fit and make one tree, are a script that was decoded. -/
theorem sound_of_build (head : Script) {root : Prototype} {bodies : List Body} {parts : List Part}
    (hversion : head.version = formatVersion) (hlength : head.chunkName.length < 0x100000000)
    (hstripped : head.hasDebug = false → head.chunkName = [])
    (hbuild : Prototype.build [] bodies = some [root])
    (hbodies : ∀ b ∈ bodies, b.RecordFits table head.layout ∧ b.Sound table head.layout)
    (hparts : Rewrites table True parts
      (head.writtenHeader ++ (bodies.flatMap (Body.record head.layout) ++ [0]))) :
    (linkParents { head with root }).Sound table parts := by
  obtain ⟨hcomplete, hpost, hback⟩ :=
    Prototype.readBack_of_build hbuild (fun b hb => (hbodies b hb).2.same) none .root
  have hmem : ∀ q ∈ (root.link none .root).postOrder, q.body ∈ bodies := by
    intro q hq
    rw [← hpost]
    exact List.mem_map_of_mem hq
  have hname : (if head.hasDebug then head.chunkName else []) = head.chunkName := by
    by_cases hdebug : head.hasDebug
    · exact if_pos hdebug
    · rw [if_neg hdebug, hstripped (by simpa using hdebug)]
  have hroot : (root.link none .root).written head.layout =
      bodies.flatMap (Body.record head.layout) := by
    rw [← hpost, List.flatMap_map]
    rfl
  refine ⟨⟨hversion, fun _ => hlength, hcomplete, ?_⟩, ?_, ?_, ?_⟩
  · intro q hq
    exact (hbodies q.body (hmem q hq)).1
  · intro q hq
    exact (hbodies q.body (hmem q hq)).2.stable
  · exact congrArg₂ (fun chunkName root => linkParents { head with chunkName, root }) hname hback
  · rw [← hroot, ← List.append_assoc] at hparts
    exact hparts

theorem sound_of_surveyBytes {s : Script} {parts : List Part} {f f' : Feed}
    (h : surveyBytes table f = .ok ((s, parts), f')) :
    Took f parts f' ∧ f'.rest = [] ∧ s.Sound table (.plain magic :: parts) := by
  obtain ⟨version, p₁, f₁, q₁, hversion, hk₁, rfl⟩ := bind_eq_ok.1 h
  by_cases hformat : version = formatVersion
  · rw [if_neg (not_not.2 hformat)] at hk₁
    obtain ⟨header, p₂, f₂, q₂, hflags, hk₂, rfl⟩ := bind_eq_ok.1 hk₁
    obtain ⟨flags, hbits, rfl⟩ := bind_pure_eq_ok.1 hflags
    obtain ⟨name, p₃, f₃, q₃, hname, hk₃, rfl⟩ := bind_eq_ok.1 hk₂
    rw [left_bind] at hk₃
    obtain ⟨stack, p₄, f₄, q₄, hstack, hk₄, rfl⟩ := bind_eq_ok.1 hk₃
    rw [left_bind] at hk₄
    by_cases hrest : f₄.rest.length = 0
    · rw [if_neg (not_not.2 hrest)] at hk₄
      rcases stack with _ | ⟨root, _ | ⟨second, others⟩⟩
      · cases hk₄
      · obtain ⟨rfl, rfl, rfl⟩ := pure_eq_ok.1 hk₄
        obtain ⟨t₁, -, r₁⟩ := yields_byte table _ _ _ _ hversion
        obtain ⟨t₂, -, r₂⟩ := yields_leb32 table _ _ _ _ hbits
        obtain ⟨t₃, ⟨hlength, hstripped⟩, r₃⟩ := yields_chunkName table _ _ _ _ _ hname
        obtain ⟨bodies, hbuild, t₄, hbodies, r₄⟩ := Prototype.yields_all table hstack
        refine ⟨t₁.append (t₂.append (t₃.append (t₄.append (.nil _)))),
          List.length_eq_zero_iff.1 hrest,
          sound_of_build table { flags := ⟨flags⟩, chunkName := name, root }
            rfl hlength hstripped hbuild hbodies ?_⟩
        have hheader := (Rewrites.plain magic).append (r₁.append (r₂.append r₃))
        have hall := hheader.append r₄
        rw [hformat] at hall
        simp only [writtenHeader, writtenHead, List.append_assoc, List.append_nil] at hall ⊢
        exact hall
      · cases hk₄
    · rw [if_pos hrest] at hk₄
      cases hk₄
  · rw [if_pos hformat] at hk₁
    cases hk₁

theorem sound_of_survey {bytes : Bytes} {s : Script} {parts : List Part}
    (h : survey table bytes = .ok (s, parts)) : Part.join parts = bytes ∧ s.Sound table parts := by
  unfold survey at h
  split at h
  · rename_i hmagic
    obtain ⟨⟨⟨t, others⟩, f⟩, hsurvey, h⟩ := Output.andThen_eq_ok.1 h
    obtain ⟨rfl, rfl⟩ := Prod.mk.inj (Output.pure_eq_ok.1 h)
    obtain ⟨htook, hrest, hsound⟩ := sound_of_surveyBytes table hsurvey
    have hall := htook.rest
    rw [hrest, List.append_nil] at hall
    refine ⟨?_, hsound⟩
    calc Part.join (.plain magic :: others) = magic ++ Part.join others := rfl
      _ = bytes.take 3 ++ bytes.drop 3 := by rw [hmagic, ← hall]
      _ = bytes := List.take_append_drop 3 bytes
  · cases h

theorem survey_of_decode {bytes : Bytes} {s : Script} (h : decode table bytes = .ok s) :
    ∃ parts, survey table bytes = .ok (s, parts) := by
  rw [← survey_eq_decode] at h
  cases hsurvey : survey table bytes with
  | error fault =>
    rw [hsurvey] at h
    cases h
  | ok found =>
    rw [hsurvey] at h
    cases h
    exact ⟨found.2, rfl⟩

/-- What decodes is a script that fits, from the parts that make up its dump. -/
theorem sound_of_decode {bytes : Bytes} {s : Script} (h : decode table bytes = .ok s) :
    ∃ parts, Part.join parts = bytes ∧ s.Sound table parts := by
  obtain ⟨parts, hsurvey⟩ := survey_of_decode table h
  exact ⟨parts, sound_of_survey table hsurvey⟩

/-! ## The laws -/

variable {table}

/-- Whatever decodes can be encoded again, in no more bytes, and decodes to the same
script again. -/
theorem decoded_scripts_encode_again {bytes : Bytes} {s : Script}
    (h : decode table bytes = .ok s) : ∃ again, encode table s = .ok again ∧
      again.length ≤ bytes.length ∧ decode table again = .ok s := by
  obtain ⟨parts, hsurvey⟩ := survey_of_decode table h
  obtain ⟨rfl, hsound⟩ := sound_of_survey table hsurvey
  refine ⟨s.written, encode_eq_ok.2 ⟨hsound.fits, rfl⟩, hsound.rewrites.length_le, ?_⟩
  rw [decode_written hsound.fits hsound.stable, hsound.same]

/-- A dump that spells the length of its one record in two bytes. -/
def looseDump : Bytes := [0x1B, 0x4C, 0x4A, 2, 2, 0x87, 0, 0, 0, 1, 0, 0, 0, 0, 0]

/-- What it decodes to. -/
def looseScript : Script where
  chunkName := []
  root := .node { maxSlot := 1 } none []

theorem looseScript_encodes_again : ∃ again, encode bareTable looseScript = .ok again ∧
    again.length ≤ looseDump.length ∧ decode bareTable again = .ok looseScript := by
  have hdecode : decode bareTable looseDump = .ok looseScript := by decide +kernel
  exact decoded_scripts_encode_again hdecode

/-- A dump is encoded again as it was just if its decoder read no number that was spelled
in more bytes than it takes, no dictionary that lists a key twice, and no word with a
bit that its opcode does not declare. It keeps its length just if the first two hold, and
then only such bits are changed: they are cleared. -/
theorem dumps_come_back_if_canonical {bytes again : Bytes} {s : Script}
    (h : decode table bytes = .ok s) (hagain : encode table s = .ok again) :
    ∃ parts, survey table bytes = .ok (s, parts) ∧ Part.join parts = bytes ∧
      (again = bytes ↔ (∀ x ∈ parts, x.Minimal) ∧ (∀ x ∈ parts, x.Distinct) ∧
        ∀ x ∈ parts, x.Declared table) ∧
      (again.length = bytes.length ↔ (∀ x ∈ parts, x.Minimal) ∧ ∀ x ∈ parts, x.Distinct) ∧
      (again.length = bytes.length → again = Part.join (parts.map (Part.clear table))) := by
  obtain ⟨parts, hsurvey⟩ := survey_of_decode table h
  obtain ⟨rfl, hsound⟩ := sound_of_survey table hsurvey
  obtain ⟨-, rfl⟩ := encode_eq_ok.1 hagain
  obtain ⟨hwhole, -, htight, hsame⟩ := hsound.rewrites
  have hsplit : (∀ x ∈ parts, x.Tight) ↔ (∀ x ∈ parts, x.Minimal) ∧ ∀ x ∈ parts, x.Distinct := by
    simp only [Part.Tight, forall_and]
  have hlength : s.written.length = (Part.join parts).length ↔
      (∀ x ∈ parts, x.Minimal) ∧ ∀ x ∈ parts, x.Distinct := by
    rw [← hsplit]
    refine ⟨htight trivial, ?_⟩
    intro hall
    exact hsound.rewrites.length_eq trivial hall
  refine ⟨parts, hsurvey, rfl, ?_, hlength, ?_⟩
  · refine ⟨?_, ?_⟩
    · intro heq
      obtain ⟨hminimal, hdistinct⟩ := hlength.1 (by rw [heq])
      refine ⟨hminimal, hdistinct, (Part.join_clear_eq_iff hwhole).1 ?_⟩
      rw [← hsame trivial (hsplit.2 ⟨hminimal, hdistinct⟩), heq]
    · rintro ⟨hminimal, hdistinct, hdeclared⟩
      rw [hsame trivial (hsplit.2 ⟨hminimal, hdistinct⟩)]
      exact (Part.join_clear_eq_iff hwhole).2 hdeclared
  · intro heq
    exact hsame trivial (hsplit.2 (hlength.1 heq))

theorem looseDump_comes_back_shorter : ∃ parts,
    survey bareTable looseDump = .ok (looseScript, parts) ∧ Part.join parts = looseDump ∧
      ¬((∀ x ∈ parts, x.Minimal) ∧ ∀ x ∈ parts, x.Distinct) := by
  have hdecode : decode bareTable looseDump = .ok looseScript := by decide +kernel
  have hencode : encode bareTable looseScript =
      .ok [0x1B, 0x4C, 0x4A, 2, 2, 7, 0, 0, 1, 0, 0, 0, 0, 0] := by decide +kernel
  obtain ⟨parts, hsurvey, hjoin, -, hlength, -⟩ := dumps_come_back_if_canonical hdecode hencode
  refine ⟨parts, hsurvey, hjoin, ?_⟩
  rw [← hlength]
  decide

end Script

end BytecodeDump
