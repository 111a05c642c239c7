import Mathlib
import RollMenu.Proofs.Corners

/-!
# What the reduction to corner cases keeps

The search follows the corner cases of a placeholder in place of all its choices. How long it
takes and what it may conclude rest on what this reduction does to any list of choices.

* It only takes choices out, and never all of them.
* It takes out integers only, and none that is beyond those it keeps.
* Of the choices that are not kept for themselves it keeps two at most, the last one of the
  greatest integers and the first one of the least.
* What it keeps are corner cases among each other, so it is done after one pass.

The last point needs to know which one of several equal integers is kept. The greatest integer
that is found among the corner cases is the one that was found among all choices, because it is
still there, and no choice that would be preferred to it can have come in.
-/

namespace RollMenu.Validation

variable {choices : List Choice} {c : Choice}

/-- A choice that is an integer, not a written zero and not direct. -/
theorem not_isSpecial_eq (c : Choice) : (!isSpecial c) =
    (!c.direct && c.numeric?.isSome && Text.trim c.value.toList != ['0']) := by
  rw [isSpecial, bne]
  cases c.direct <;> cases c.numeric? <;> simp

/-! ## One pass -/

/-- Where ids tell choices apart, the extremes and the special choices are kept and no others. -/
theorem mem_corners_iff_of_nodup (hids : (choices.map Choice.id).Nodup) :
    c ∈ corners choices ↔ Extreme choices c ∨ c ∈ choices ∧ isSpecial c = true := by
  constructor
  · intro hc
    obtain ⟨hmem, hid⟩ := mem_corners_iff.mp hc
    obtain ⟨d, hd, hsame⟩ := mem_cornerIds_iff.mp hid
    -- whatever has put the id there is this choice
    have hd' : d ∈ choices := hd.elim Extreme.mem And.left
    obtain rfl := List.inj_on_of_nodup_map hids hd' hmem hsame
    exact hd
  · rintro (h | ⟨hmem, h⟩)
    · exact h.mem_corners
    · exact mem_corners_of_special hmem h

/-- **Of the choices that are not special two are kept at most.** -/
theorem length_ordinary_corners_le (hids : (choices.map Choice.id).Nodup) :
    ((corners choices).filter fun c => !isSpecial c).length ≤ 2 := by
  have hsubset : ((corners choices).filter fun c => !isSpecial c) ⊆
      ((greatest (numerics choices)).toList ++ (least (numerics choices)).toList).map Prod.snd := by
    intro c hc
    obtain ⟨hc, hordinary⟩ := List.mem_filter.mp hc
    rcases (mem_corners_iff_of_nodup hids).mp hc with ⟨n, hn⟩ | ⟨-, hspecial⟩
    · refine List.mem_map.mpr ⟨(n, c), ?_, rfl⟩
      rcases hn with h | h <;> simp [h]
    · rw [hspecial] at hordinary
      cases hordinary
  have hnodup : ((corners choices).filter fun c => !isSpecial c).Nodup :=
    ((hids.of_map _).filter _).filter _
  refine (hnodup.subperm hsubset).length_le.trans ?_
  cases greatest (numerics choices) <;> cases least (numerics choices) <;> simp

/-! ## A second pass -/

theorem numerics_filter (p : Choice → Bool) :
    numerics (choices.filter p) = (numerics choices).filter fun n => p n.2 := by
  unfold numerics
  rw [List.filterMap_filter, List.filter_filterMap]
  congr 1
  funext c
  cases hp : p c <;> cases c.numeric? <;> simp [Option.filter, hp]

/-- **The corner cases have the same extremes as all choices.** -/
theorem extreme_corners (h : Extreme choices c) : Extreme (corners choices) c := by
  obtain ⟨n, hn⟩ := h
  have hid : (fun d : Choice => (cornerIds choices).contains d.id) c = true := by
    simpa using mem_cornerIds_iff.mpr ⟨c, Or.inl ⟨n, hn⟩, rfl⟩
  refine ⟨n, ?_⟩
  rw [corners, numerics_filter, greatest_eq_some_iff, least_eq_some_iff]
  rw [greatest_eq_some_iff, least_eq_some_iff] at hn
  exact hn.imp (fun h => h.filter hid) fun h => h.filter hid

/-- **The corner cases of corner cases are all of them.** -/
theorem corners_corners : corners (corners choices) = corners choices := by
  refine List.filter_eq_self.mpr fun c hc => List.contains_iff_mem.mpr ?_
  obtain ⟨hmem, hid⟩ := mem_corners_iff.mp hc
  obtain ⟨d, hd, hsame⟩ := mem_cornerIds_iff.mp hid
  refine mem_cornerIds_iff.mpr ⟨d, ?_, hsame⟩
  exact hd.imp extreme_corners fun h => ⟨mem_corners_of_special h.1 h.2, h.2⟩

/--
**The corner-case reduction.** Let ids tell the choices of a list apart. What is kept of them
stands in the same order and without repetition, and if there is any choice, one is kept. Direct
choices are kept, what is no integer is kept, and so is every written zero. A choice that is left
out is an integer, is not direct, and lies between two integers that are kept. Of such choices, the
written zeros aside, at most two are kept. And nothing more is left out in a second pass.
-/
theorem corners_reduction (hids : (choices.map Choice.id).Nodup) :
    (corners choices).Sublist choices ∧ (corners choices).Nodup ∧
      (choices ≠ [] → corners choices ≠ []) ∧
      (∀ c ∈ choices, c.direct = true ∨ c.numeric? = none ∨ Text.trim c.value.toList = ['0'] →
        c ∈ corners choices) ∧
      (∀ c ∈ choices, c ∉ corners choices → c.direct = false ∧
        ∃ n, c.numeric? = some n ∧ ∃ low ∈ corners choices, ∃ high ∈ corners choices,
          ∃ lo hi, low.numeric? = some lo ∧ high.numeric? = some hi ∧ lo ≤ n ∧ n ≤ hi) ∧
      ((corners choices).filter fun c =>
        !c.direct && c.numeric?.isSome && Text.trim c.value.toList != ['0']).length ≤ 2 ∧
      corners (corners choices) = corners choices := by
  have hsublist : (corners choices).Sublist choices := List.filter_sublist
  refine ⟨hsublist, hsublist.nodup (hids.of_map _), corners_ne_nil, ?_, ?_, ?_, corners_corners⟩
  · exact fun c hc h => mem_corners_of_special hc (isSpecial_eq_true_iff.mpr h)
  · intro c hc hout
    obtain ⟨hdirect, n, hn⟩ := exists_numeric_of_not_special (mt (mem_corners_of_special hc) hout)
    obtain ⟨lo, low, hi, high, hlow, hlo, hhigh, hhi, hbounds⟩ := exists_corners_of_numeric hc hn
    exact ⟨hdirect, n, hn, low, hlow, high, hhigh, lo, hi, hlo, hhi, hbounds⟩
  · simpa only [not_isSpecial_eq] using length_ordinary_corners_le hids

/-- Equal integers in different spellings, the least of them direct: the last of the greatest is
kept and the first of the least, and a zero that is not written `0` is left out. -/
theorem corners_reduction_spellings :
    let choices := Choice.number [.plain "007", { value := "-2", label := "now", direct := true },
      .plain "5", .plain " 7 ", .plain "-02", .plain "0", .plain "00", .plain "x",
      { value := "3", label := "now", direct := true }, .plain "9223372036854775808"]
    (choices.map Choice.id).Nodup ∧
      (corners choices).map Choice.value =
        ["-2", " 7 ", "0", "x", "3", "9223372036854775808"] ∧
      ((corners choices).filter fun c =>
        !c.direct && c.numeric?.isSome && Text.trim c.value.toList != ['0']).length ≤ 2 ∧
      corners (corners choices) = corners choices := by
  intro choices
  have hids : (choices.map Choice.id).Nodup := by decide
  obtain ⟨-, -, -, -, -, htwo, hsecond⟩ := corners_reduction hids
  exact ⟨hids, by cbv, htwo, hsecond⟩

end RollMenu.Validation
