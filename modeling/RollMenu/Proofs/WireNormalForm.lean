import Mathlib
import RollMenu.Proofs.ButtonLength
import RollMenu.Proofs.CanonicalNumerals
import RollMenu.Proofs.WireReading

/-!
# Old ids written anew

Buttons stay in old messages for good, in the layout and with the spelling of their time. What
is read from such an id is written in the current layout from then on. The main statement
says that nothing drifts by that: the new id reads as what the old one was read as, it is
the old one itself unless the layout or the spelling of the target was another, and it
gets longer only by the separator of a target field that was not there.

Reading keeps the texts of all fields but the target, so two ids are compared field by field
and only the target field can differ.
-/

namespace RollMenu.WireId

/-! ## Ids as fields -/

/-- The text that some fields make up. -/
def joined (fields : List String) : String := (String.singleton fieldSeparator).intercalate fields

theorem joined_splitAt (wire : String) : joined (splitAt fieldSeparator wire) = wire :=
  intercalate_splitAt fieldSeparator wire

theorem length_joined (fields : List String) :
    (joined fields).length = (fields.map String.length).sum + (fields.length - 1) :=
  length_intercalate fieldSeparator fields

/-- An id that was read is written with the same selections field. -/
theorem encode_readSelections (command selections : String) (target : Option UInt64)
    (click : String) :
    encode ⟨command, readSelections selections, target, click⟩ =
      joined [command, selections, targetField target, click] := by
  rw [encode, intercalate_readSelections, joined]

theorem splitAt_joined_of_separable {command selections click : String} {target : Option UInt64}
    (h : Separable ⟨command, readSelections selections, target, click⟩) :
    splitAt fieldSeparator (joined [command, selections, targetField target, click]) =
      [command, selections, targetField target, click] := by
  rw [← encode_readSelections, splitAt_encode h, intercalate_readSelections]

/-! ## The target field -/

theorem readTarget_eq_ok_iff {field : String} {target : Option UInt64} :
    readTarget field = .ok target ↔
      field = "" ∧ target = none ∨
        field ≠ "" ∧ ∃ n, target = some n ∧ Decimal.word? field.toList = some n := by
  unfold readTarget
  by_cases h : field = ""
  · rw [if_pos (String.isEmpty_iff.mpr h)]
    simp [h, eq_comm]
  · rw [if_neg (by simpa using h)]
    cases hn : Decimal.word? field.toList with
    | none => simp [h]
    | some n => simp [h, eq_comm]

/-- A target field is written as it was read exactly if it was empty or canonical. -/
theorem eq_targetField_iff {field : String} {target : Option UInt64}
    (h : readTarget field = .ok target) :
    field = targetField target ↔ field = "" ∨ ∃ n, target = some n ∧ Decimal.Canonical n field := by
  rcases readTarget_eq_ok_iff.mp h with ⟨hfield, rfl⟩ | ⟨hne, n, rfl, -⟩
  · simp [hfield, targetField]
  · simp [hne, targetField, Decimal.canonical_iff_eq_ofWord]

theorem length_targetField_le {field : String} {target : Option UInt64}
    (h : readTarget field = .ok target) : (targetField target).length ≤ field.length := by
  rcases readTarget_eq_ok_iff.mp h with ⟨-, rfl⟩ | ⟨-, n, rfl, hn⟩
  · exact Nat.zero_le _
  · exact Decimal.length_ofWord_le hn

/-! ## Writing what was read -/

/--
**Reading an id and writing it again brings it into normal form.** The new id is in the current
layout and reads as the same parts. It is the old one exactly if that was in the current
layout and its target field was empty or the target's canonical numeral. From the old
layout it is one character longer, and from the current one it is not longer.
-/
theorem encode_of_decodeLayout {wire : String} {layout : Layout} {id : WireId}
    (h : decodeLayout wire = .ok (layout, id)) :
    decodeLayout id.encode = .ok (.current, id) ∧
      (id.encode = wire ↔ layout = .current ∧
        ∃ field, (splitAt fieldSeparator wire)[2]? = some field ∧
          (field = "" ∨ ∃ n, id.target = some n ∧ Decimal.Canonical n field)) ∧
      (layout = .legacy → id.encode.length = wire.length + 1) ∧
      (layout = .current → id.encode.length ≤ wire.length) := by
  have hseparable := separable_of_decodeLayout h
  refine ⟨decodeLayout_encode hseparable, ?_⟩
  cases readAs_of_decodeLayout h with
  | @current command selections field click target hsplit htarget =>
    have hwire : wire = joined [command, selections, field, click] := by
      rw [← hsplit, joined_splitAt]
    refine ⟨?_, nofun, fun _ => ?_⟩
    · rw [encode_readSelections, hsplit]
      constructor
      · intro heq
        -- the fields are those of the old id, the target's among them
        have hfields := splitAt_joined_of_separable hseparable
        rw [heq, hsplit] at hfields
        have hfield : field = targetField target := by simpa using hfields
        exact ⟨rfl, field, rfl, (eq_targetField_iff htarget).mp hfield⟩
      · rintro ⟨-, field', hfield', hcanonical⟩
        obtain rfl : field = field' := by simpa using hfield'
        rw [hwire, ← (eq_targetField_iff htarget).mpr hcanonical]
    · have hle := length_targetField_le htarget
      simp only [encode_readSelections, hwire, length_joined, List.map_cons, List.map_nil,
        List.sum_cons, List.sum_nil, List.length_cons, List.length_nil]
      omega
  | @legacy command selections click hsplit =>
    have hwire : wire = joined [command, selections, click] := by
      rw [← hsplit, joined_splitAt]
    have hlength : (encode ⟨command, readSelections selections, none, click⟩).length =
        wire.length + 1 := by
      have hnone : (targetField none).length = 0 := rfl
      simp only [encode_readSelections, hwire, length_joined, hnone, List.map_cons, List.map_nil,
        List.sum_cons, List.sum_nil, List.length_cons, List.length_nil]
      omega
    refine ⟨⟨fun heq => ?_, fun hcurrent => nomatch hcurrent.1⟩, fun _ => hlength, nofun⟩
    rw [heq] at hlength
    omega

/-- A target with a plus sign and leading zeros, behind two empty selections. -/
theorem encode_of_decodeLayout_padded_target :
    ∃ id, decodeLayout "roll\x1e\t4\t\x1e+007\x1eid1" = .ok (.current, id) ∧
      id.selections = ["", "4", ""] ∧ id.target = some 7 ∧
      decodeLayout id.encode = .ok (.current, id) ∧
      id.encode ≠ "roll\x1e\t4\t\x1e+007\x1eid1" ∧ id.encode.length ≤ 17 := by
  have hread : decodeLayout "roll\x1e\t4\t\x1e+007\x1eid1" =
      .ok (.current, ⟨"roll", ["", "4", ""], some 7, "id1"⟩) := by cbv
  have hsplit : splitAt fieldSeparator "roll\x1e\t4\t\x1e+007\x1eid1" =
      ["roll", "\t4\t", "+007", "id1"] := by cbv
  obtain ⟨hagain, hsame, -, hlength⟩ := encode_of_decodeLayout hread
  refine ⟨_, hread, rfl, rfl, hagain, fun heq => ?_, hlength rfl⟩
  obtain ⟨-, field, hfield, hcanonical⟩ := hsame.mp heq
  rw [hsplit] at hfield
  obtain rfl := Option.some.inj hfield
  rcases hcanonical with hempty | ⟨n, -, hcanonical⟩
  · exact absurd hempty (by decide)
  · exact hcanonical.unsigned (by decide)

end RollMenu.WireId
