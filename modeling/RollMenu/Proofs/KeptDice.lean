import Mathlib
import RollMenu.Dice.Roll
import RollMenu.Proofs.NumberPlaces

/-!
# Which dice of a pool count

A pool rolls all its dice and then lets some of them count. Which ones, is decided by sorting:
the better face goes first. Only the faces are compared, but the sort is stable, and so of equal
faces the earlier one goes first. Faces and places together are never equal, so wherever the
sorted dice are cut there is no doubt who is on which side. Each die before the cut is better
than each die behind it, and no other choice of as many dice is like that.

The kept dice are sorted back into the order of their places. So they are the dice of the roll
without the others, and the total is a sum over the same places that the line shows.
-/

namespace RollMenu.Dice

variable {σ : Type}

/-! ## Rolling all dice -/

section Drawing

variable (face : FaceSource σ) (sides : Nat)

/-- The random source once a die is rolled. -/
def afterDie (s : σ) : σ := (face sides s).2

/-- The face of die number `i`, counted from 0, of dice that are rolled one after another. -/
def faceOfDie (s : σ) (i : Nat) : Nat := (face sides ((afterDie face sides)^[i] s)).1

/-- **So many dice are drawn**, one after another and no more. -/
theorem drawFaces_eq (count : Nat) (s : σ) :
    drawFaces face sides count s =
      ((List.range count).map (faceOfDie face sides s), (afterDie face sides)^[count] s) := by
  induction count generalizing s with
  | zero => rfl
  | succ count ih =>
    -- the other dice are rolled with what the first one leaves of the source
    have hfaces : (List.range (count + 1)).map (faceOfDie face sides s) = (face sides s).1 ::
        (List.range count).map (faceOfDie face sides (afterDie face sides s)) := by
      rw [List.range_succ_eq_map, List.map_cons, List.map_map]
      rfl
    calc drawFaces face sides (count + 1) s
        = ((face sides s).1 :: (drawFaces face sides count (afterDie face sides s)).1,
            (drawFaces face sides count (afterDie face sides s)).2) := rfl
      _ = _ := by rw [ih, hfaces, Function.iterate_succ_apply]

end Drawing

/-- **Words make faces from 1 up to the number of sides.** The second word may add one, but not
to the highest face, for that would take a first word that is none. -/
theorem Words.face_bounds {sides : Nat} (hpos : 1 ≤ sides) (w : Words) :
    1 ≤ (w.face sides).1 ∧ (w.face sides).1 ≤ sides := by
  have hsize : UInt32.size = 4294967296 := rfl
  have hfirst : w.next.1 ≤ 4294967295 := Nat.le_of_lt_succ (UInt32.toNat_lt _)
  have hscaled : w.next.1 * sides ≤ 4294967295 * sides := Nat.mul_le_mul_right sides hfirst
  unfold face
  simp only [hsize]
  generalize w.next.1 * sides = scaled at hscaled ⊢
  split
  · dsimp only
    split <;> omega
  · dsimp only
    omega

/-! ## Sorting -/

/-- The dice of a roll are in the order of their places. -/
theorem pairwise_zipIdx (faces : List Nat) : faces.zipIdx.Pairwise fun a b => a.2 ≤ b.2 := by
  rw [← List.pairwise_map (R := fun i j => i ≤ j), List.zipIdx_map_snd]
  exact List.pairwise_le_range' 1

/-- Numbering the dice of a roll once more repeats their places. -/
theorem snd_eq_of_mem_zipIdx_zipIdx {faces : List Nat} {die : Nat × Nat} {n : Nat}
    (h : (die, n) ∈ faces.zipIdx.zipIdx) : die.2 = n := by
  have hdie := List.mem_zipIdx_iff_getElem?.mp h
  rw [List.getElem?_zipIdx] at hdie
  obtain ⟨face, -, hface⟩ := Option.map_eq_some_iff.mp hdie
  exact (congrArg Prod.snd hface).symm.trans (Nat.zero_add n)

namespace Keep

/-- Whether a face is at least as good as another. -/
def Prefers : Keep → Nat → Nat → Prop
  | highest _, a, b => b ≤ a
  | lowest _, a, b => a ≤ b

theorem ahead_iff {keep : Keep} {a b : Nat × Nat} :
    keep.ahead a b = true ↔ keep.Prefers a.1 b.1 := by
  cases keep <;> exact decide_eq_true_iff

theorem Prefers.trans {keep : Keep} {a b c : Nat} (hab : keep.Prefers a b)
    (hbc : keep.Prefers b c) : keep.Prefers a c := by
  cases keep with
  | highest _ => exact Nat.le_trans hbc hab
  | lowest _ => exact Nat.le_trans hab hbc

theorem Prefers.antisymm {keep : Keep} {a b : Nat} (hab : keep.Prefers a b)
    (hba : keep.Prefers b a) : a = b := by
  cases keep with
  | highest _ => exact Nat.le_antisymm hba hab
  | lowest _ => exact Nat.le_antisymm hab hba

theorem prefers_total (keep : Keep) (a b : Nat) : keep.Prefers a b ∨ keep.Prefers b a := by
  cases keep with
  | highest _ => exact Nat.le_total b a
  | lowest _ => exact Nat.le_total a b

theorem ahead_trans (keep : Keep) (a b c : Nat × Nat) (hab : keep.ahead a b = true)
    (hbc : keep.ahead b c = true) : keep.ahead a c = true :=
  ahead_iff.mpr ((ahead_iff.mp hab).trans (ahead_iff.mp hbc))

theorem ahead_total (keep : Keep) (a b : Nat × Nat) :
    (keep.ahead a b || keep.ahead b a) = true := by
  rw [Bool.or_eq_true, ahead_iff, ahead_iff]
  exact keep.prefers_total a.1 b.1

/-- **Sorted dice are in order**, and those with equal faces are as they fell. -/
theorem pairwise_mergeSort_ahead (keep : Keep) (faces : List Nat) :
    (faces.zipIdx.mergeSort keep.ahead).Pairwise fun a b =>
      keep.Prefers a.1 b.1 ∧ (a.1 = b.1 → a.2 ≤ b.2) := by
  -- a stable sort is one that also compares numbers, if the elements are numbered before
  have hnumbered := List.pairwise_mergeSort (List.zipIdxLE_trans keep.ahead_trans)
    (List.zipIdxLE_total keep.ahead_total) faces.zipIdx.zipIdx
  rw [← List.mergeSort_zipIdx, List.pairwise_map]
  refine hnumbered.imp_of_mem ?_
  rintro ⟨a, m⟩ ⟨b, n⟩ ha hb hle
  -- the number of a die is its place
  obtain rfl : a.2 = m := snd_eq_of_mem_zipIdx_zipIdx (List.mem_mergeSort.mp ha)
  obtain rfl : b.2 = n := snd_eq_of_mem_zipIdx_zipIdx (List.mem_mergeSort.mp hb)
  unfold List.zipIdxLE at hle
  split at hle
  · rename_i hahead
    have hprefers : keep.Prefers a.1 b.1 := ahead_iff.mp hahead
    refine ⟨hprefers, fun heq => ?_⟩
    have hback : keep.ahead b a = true := ahead_iff.mpr (heq ▸ hprefers)
    rw [if_pos hback] at hle
    exact of_decide_eq_true hle
  · cases hle

end Keep

/-- **Sorting and cutting** leaves the kept dice and others, each of which is behind each kept
one. -/
theorem exists_dropped (keep : Option Keep) (faces : List Nat) :
    ∃ dropped, (keptDice keep faces ++ dropped).Perm faces.zipIdx ∧
      ∀ k, keep = some k → ∀ a ∈ keptDice keep faces, ∀ b ∈ dropped,
        k.Prefers a.1 b.1 ∧ (a.1 = b.1 → a.2 ≤ b.2) := by
  cases keep with
  | none => exact ⟨[], by simp [keptDice], fun k hk => nomatch hk⟩
  | some k =>
    have hsorted := k.pairwise_mergeSort_ahead faces
    have hperm := List.mergeSort_perm faces.zipIdx k.ahead
    rw [← List.take_append_drop k.count (faces.zipIdx.mergeSort k.ahead)] at hsorted hperm
    refine ⟨_, ((List.mergeSort_perm _ _).append_right _).trans hperm, ?_⟩
    intro k' hk' a ha
    obtain rfl := Option.some.inj hk'
    exact (List.pairwise_append.mp hsorted).2.2 a (List.mem_mergeSort.mp ha)

/-- The kept dice are in the order of their places. -/
theorem pairwise_keptDice (keep : Option Keep) (faces : List Nat) :
    (keptDice keep faces).Pairwise fun a b => a.2 ≤ b.2 := by
  cases keep with
  | none => exact pairwise_zipIdx faces
  | some k =>
    refine (List.pairwise_mergeSort ?_ ?_ _).imp of_decide_eq_true
    · intro a b c hab hbc
      exact decide_eq_true ((of_decide_eq_true hab).trans (of_decide_eq_true hbc))
    · intro a b
      rw [Bool.or_eq_true, decide_eq_true_iff, decide_eq_true_iff]
      exact Nat.le_total a.2 b.2

/-! ## The places of the kept dice -/

/-- The faces at some places, in the order in which they fell. -/
def facesAt (kept : Finset Nat) (faces : List Nat) : List Nat :=
  (faces.zipIdx.filter (·.2 ∈ kept)).map Prod.fst

/-- All faces in the order in which they fell, those at other places between tildes. -/
def marked (kept : Finset Nat) (faces : List Nat) : List String :=
  faces.zipIdx.map fun die => if die.2 ∈ kept then die.1.repr else "~" ++ die.1.repr ++ "~"

/-- The places of the dice that count. -/
def keptPlaces (keep : Option Keep) (faces : List Nat) : Finset Nat :=
  ((keptDice keep faces).map Prod.snd).toFinset

section Places

variable {keep : Option Keep} {faces : List Nat}

theorem mem_zipIdx_of_mem_keptDice {die : Nat × Nat} (h : die ∈ keptDice keep faces) :
    die ∈ faces.zipIdx := by
  obtain ⟨dropped, hperm, -⟩ := exists_dropped keep faces
  exact hperm.subset (List.mem_append_left _ h)

/-- No die is kept twice. -/
theorem nodup_keptDice (keep : Option Keep) (faces : List Nat) :
    ((keptDice keep faces).map Prod.snd).Nodup := by
  obtain ⟨dropped, hperm, -⟩ := exists_dropped keep faces
  have hnodup := (hperm.map Prod.snd).nodup_iff.mpr (List.nodup_zipIdx_map_snd faces)
  rw [List.map_append] at hnodup
  exact hnodup.of_append_left

/-- A die is kept if its place is. -/
theorem mem_keptDice_iff {a i : Nat} :
    (a, i) ∈ keptDice keep faces ↔ (a, i) ∈ faces.zipIdx ∧ i ∈ keptPlaces keep faces := by
  rw [keptPlaces, List.mem_toFinset, List.mem_map]
  constructor
  · intro h
    exact ⟨mem_zipIdx_of_mem_keptDice h, (a, i), h, rfl⟩
  · rintro ⟨hmem, ⟨b, j⟩, hkept, rfl⟩
    -- there is one face at a place
    have hface := List.mem_zipIdx_iff_getElem?.mp (mem_zipIdx_of_mem_keptDice hkept)
    rw [List.mem_zipIdx_iff_getElem?.mp hmem] at hface
    obtain rfl : a = b := Option.some.inj hface
    exact hkept

theorem keptDice_perm (keep : Option Keep) (faces : List Nat) :
    (keptDice keep faces).Perm (faces.zipIdx.filter (·.2 ∈ keptPlaces keep faces)) := by
  refine (List.perm_ext_iff_of_nodup (nodup_keptDice keep faces).of_map
    ((List.nodup_zipIdx_map_snd faces).of_map.filter _)).mpr ?_
  rintro ⟨a, i⟩
  rw [mem_keptDice_iff, List.mem_filter, decide_eq_true_iff]

/-- **Sorting back** leaves the dice of the roll without the dropped ones. -/
theorem keptDice_eq_filter (keep : Option Keep) (faces : List Nat) :
    keptDice keep faces = faces.zipIdx.filter (·.2 ∈ keptPlaces keep faces) := by
  refine (keptDice_perm keep faces).eq_of_pairwise ?_ (pairwise_keptDice keep faces)
    ((pairwise_zipIdx faces).filter _)
  intro a b ha hb hab hba
  -- two dice at one place are the same
  have hplace : a.2 = b.2 := Nat.le_antisymm hab hba
  have hkept : b ∈ keptDice keep faces := (keptDice_perm keep faces).mem_iff.mpr hb
  exact List.inj_on_of_nodup_map (nodup_keptDice keep faces) ha hkept hplace

theorem map_fst_keptDice (keep : Option Keep) (faces : List Nat) :
    (keptDice keep faces).map Prod.fst = facesAt (keptPlaces keep faces) faces :=
  congrArg (List.map Prod.fst) (keptDice_eq_filter keep faces)

end Places

/-! ## Rolling a pool -/

namespace Pool

variable {p : Pool} {faces : List Nat} {kept other : Finset Nat}

/-- How many dice of a pool count. -/
def keptCount (p : Pool) : Nat := p.keep.elim p.count Keep.count

/-- The dice at these places are those of a roll that count. -/
structure Keeps (p : Pool) (faces : List Nat) (kept : Finset Nat) : Prop where
  card : kept.card = p.keptCount
  lt : ∀ i ∈ kept, i < faces.length
  /-- A kept face is at least as good as a dropped one, and of equal faces the earlier one is
  kept. -/
  ahead : ∀ keep, p.keep = some keep → ∀ i ∈ kept, ∀ j ∉ kept, ∀ a b, faces[i]? = some a →
    faces[j]? = some b → keep.Prefers a b ∧ (a = b → i < j)

theorem total_eq (p : Pool) (faces : List Nat) :
    p.total faces = (facesAt (keptPlaces p.keep faces) faces).sum := by
  rw [total, ← map_fst_keptDice, List.sum, List.foldr_map]

theorem line_eq (p : Pool) (faces : List Nat) :
    p.line faces = p.text ++ " [" ++
      ", ".intercalate (marked (keptPlaces p.keep faces) faces) ++ "]" := by
  have hshown : (faces.zipIdx.map fun die =>
      if die ∈ keptDice p.keep faces then die.1.repr else "~" ++ die.1.repr ++ "~") =
        marked (keptPlaces p.keep faces) faces := by
    refine List.map_congr_left ?_
    rintro ⟨a, i⟩ hdie
    simp only [mem_keptDice_iff, hdie, true_and]
  rw [line, hshown]

/-- As many dice count as the pool says. -/
theorem length_keptDice (hcheck : p.check = .ok ()) (hfaces : faces.length = p.count) :
    (keptDice p.keep faces).length = p.keptCount := by
  obtain ⟨-, -, hkeep⟩ := check_eq_ok_iff.mp hcheck
  unfold keptCount keptDice
  cases hp : p.keep with
  | none => simpa using hfaces
  | some keep =>
    obtain ⟨-, hle⟩ := hkeep keep hp
    simpa [hfaces] using hle

/-- **The dice that count are the best ones.** -/
theorem keeps_keptPlaces (hcheck : p.check = .ok ()) (hfaces : faces.length = p.count) :
    p.Keeps faces (keptPlaces p.keep faces) where
  card := by
    rw [keptPlaces, List.toFinset_card_of_nodup (nodup_keptDice _ _), List.length_map,
      length_keptDice hcheck hfaces]
  lt := by
    intro i hi
    obtain ⟨⟨a, j⟩, hdie, rfl⟩ := List.mem_map.mp (List.mem_toFinset.mp hi)
    exact List.snd_lt_of_mem_zipIdx (mem_zipIdx_of_mem_keptDice hdie)
  ahead := by
    intro keep hkeep i hi j hj a b ha hb
    obtain ⟨dropped, hperm, hahead⟩ := exists_dropped p.keep faces
    have hkept : (a, i) ∈ keptDice p.keep faces :=
      mem_keptDice_iff.mpr ⟨List.mem_zipIdx_iff_getElem?.mpr ha, hi⟩
    have hnot : (b, j) ∉ keptDice p.keep faces := fun h => hj (mem_keptDice_iff.mp h).2
    have hdropped : (b, j) ∈ dropped := by
      have hdie : (b, j) ∈ faces.zipIdx := List.mem_zipIdx_iff_getElem?.mpr hb
      have hmem := hperm.mem_iff.mpr hdie
      exact (List.mem_append.mp hmem).resolve_left hnot
    obtain ⟨hprefers, hle⟩ := hahead keep hkeep _ hkept _ hdropped
    refine ⟨hprefers, fun hab => Nat.lt_of_le_of_ne (hle hab) ?_⟩
    rintro rfl
    exact hj hi

/-- **No other dice are the best ones.** A die that only one choice keeps and one that only the
other keeps would each be better than the other. -/
theorem Keeps.unique (h : p.Keeps faces kept) (h' : p.Keeps faces other)
    (hfaces : faces.length = p.count) : other = kept := by
  by_contra hne
  obtain ⟨i, hi, hi'⟩ : ∃ i ∈ kept, i ∉ other := by
    refine Finset.not_subset.mp fun hsubset => hne ?_
    exact (Finset.eq_of_subset_of_card_le hsubset (by rw [h.card, h'.card])).symm
  obtain ⟨j, hj, hj'⟩ : ∃ j ∈ other, j ∉ kept := by
    refine Finset.not_subset.mp fun hsubset => hne ?_
    exact Finset.eq_of_subset_of_card_le hsubset (by rw [h.card, h'.card])
  cases hkeep : p.keep with
  | none =>
    -- all dice count, and so does the one that is left out
    have hcard : (insert j kept).card ≤ (Finset.range p.count).card := by
      refine Finset.card_le_card (Finset.insert_subset ?_ fun k hk => ?_)
      · rw [Finset.mem_range, ← hfaces]
        exact h'.lt j hj
      · rw [Finset.mem_range, ← hfaces]
        exact h.lt k hk
    rw [Finset.card_insert_of_notMem hj', h.card, keptCount, hkeep, Finset.card_range] at hcard
    exact Nat.not_succ_le_self _ hcard
  | some keep =>
    obtain ⟨a, ha⟩ : ∃ a, faces[i]? = some a := ⟨_, List.getElem?_eq_getElem (h.lt i hi)⟩
    obtain ⟨b, hb⟩ : ∃ b, faces[j]? = some b := ⟨_, List.getElem?_eq_getElem (h'.lt j hj)⟩
    obtain ⟨hprefers, hlt⟩ := h.ahead keep hkeep i hi j hj' a b ha hb
    obtain ⟨hprefers', hlt'⟩ := h'.ahead keep hkeep j hj i hi' b a hb ha
    have heq : a = b := hprefers.antisymm hprefers'
    exact Nat.lt_asymm (hlt heq) (hlt' heq.symm)

theorem length_facesAt (hcheck : p.check = .ok ()) (hfaces : faces.length = p.count) :
    (facesAt (keptPlaces p.keep faces) faces).length = p.keptCount := by
  rw [← map_fst_keptDice, List.length_map, length_keptDice hcheck hfaces]

/-- Faces from 1 up to the number of sides make a total between the number of dice and so many
times as much. -/
theorem sum_facesAt_bounds {sides : Nat} (kept : Finset Nat)
    (hfaces : ∀ a ∈ faces, 1 ≤ a ∧ a ≤ sides) :
    (facesAt kept faces).length ≤ (facesAt kept faces).sum ∧
      (facesAt kept faces).sum ≤ (facesAt kept faces).length * sides := by
  have hmem : ∀ a ∈ facesAt kept faces, a ∈ faces := by
    intro a ha
    obtain ⟨⟨b, i⟩, hdie, rfl⟩ := List.mem_map.mp ha
    exact List.fst_mem_of_mem_zipIdx (List.mem_filter.mp hdie).1
  constructor
  · exact List.length_le_sum_of_one_le _ fun a ha => (hfaces a (hmem a ha)).1
  · exact List.sum_le_card_nsmul _ _ fun a ha => (hfaces a (hmem a ha)).2

/-- A pool within bounds is far from the greatest word. -/
theorem fits_of_check {n : Nat} (hcheck : p.check = .ok ()) (hn : n ≤ p.keptCount * p.sides) :
    Decimal.Fits (n : Int) := by
  obtain ⟨⟨-, hcount⟩, ⟨-, hsides⟩, hkeep⟩ := check_eq_ok_iff.mp hcheck
  have hmany : p.keptCount ≤ p.count := by
    unfold keptCount
    cases hp : p.keep with
    | none => exact Nat.le_refl _
    | some keep => exact (hkeep keep hp).2
  have hmost : p.keptCount * p.sides ≤ maxCount * maxSides :=
    Nat.mul_le_mul (hmany.trans hcount) hsides
  have hmax : maxCount * maxSides = 100000 := rfl
  constructor
  · exact Int.le_trans (by decide) (Int.natCast_nonneg _)
  · unfold Decimal.greatest
    omega

/--
**A pool keeps its best dice.** A pool within bounds rolls all its dice, no more and no fewer, and
it keeps as many of them as it says. No dropped face is better than a kept one, and of equal faces
the earlier ones are kept, which leaves no choice. The line shows all faces as they fell and the
dropped ones between tildes. The total is the sum of the kept faces, and nothing on the way to it
is too large.
-/
theorem roll_keeps_best {face : FaceSource σ} (hcheck : p.check = .ok ())
    (hface : ∀ s, 1 ≤ (face p.sides s).1 ∧ (face p.sides s).1 ≤ p.sides) (tray : Tray σ) :
    ∃ faces kept, faces = (List.range p.count).map (faceOfDie face p.sides tray.source) ∧
      p.Keeps faces kept ∧ (∀ other, p.Keeps faces other → other = kept) ∧
      p.roll face tray = (.ok ((facesAt kept faces).sum : Nat),
        { source := (afterDie face p.sides)^[p.count] tray.source
          lines := tray.lines ++
            [p.text ++ " [" ++ ", ".intercalate (marked kept faces) ++ "]"] }) ∧
      (facesAt kept faces).length = p.keptCount ∧
      p.keptCount ≤ (facesAt kept faces).sum ∧
      (facesAt kept faces).sum ≤ p.keptCount * p.sides ∧
      ∀ k, Decimal.Fits (((facesAt kept faces).take k).sum : Nat) := by
  obtain ⟨faces, hdrawn⟩ :
      ∃ faces, faces = (List.range p.count).map (faceOfDie face p.sides tray.source) := ⟨_, rfl⟩
  have hlength : faces.length = p.count := by rw [hdrawn, List.length_map, List.length_range]
  have hbounds : ∀ a ∈ faces, 1 ≤ a ∧ a ≤ p.sides := by
    intro a ha
    rw [hdrawn] at ha
    obtain ⟨i, -, rfl⟩ := List.mem_map.mp ha
    exact hface _
  have hkeeps := keeps_keptPlaces hcheck hlength
  have hkept := length_facesAt hcheck hlength
  obtain ⟨hlow, hhigh⟩ := sum_facesAt_bounds (keptPlaces p.keep faces) hbounds
  rw [hkept] at hlow hhigh
  refine ⟨faces, _, hdrawn, hkeeps, fun other h => hkeeps.unique h hlength, ?_, hkept, hlow,
    hhigh, ?_⟩
  · simp only [roll, hcheck, drawFaces_eq, ← hdrawn, total_eq, line_eq]
  · intro k
    have hpart : ((facesAt (keptPlaces p.keep faces) faces).take k).sum ≤
        (facesAt (keptPlaces p.keep faces) faces).sum :=
      (List.take_sublist _ _).sum_le_sum fun _ _ => Nat.zero_le _
    exact fits_of_check hcheck (hpart.trans hhigh)

/-- Three dice show the best face and two dice count, which are the earlier ones. -/
theorem roll_keeps_best_tie :
    let p : Pool := ⟨4, 6, some (.highest 2)⟩
    let words := #[0x80000000, 0, 0x80000000, 0x80000000]
    let tray : Tray Words := { source := { words }, lines := ["1d1 [1]"] }
    p.check = .ok () ∧ (∀ w, 1 ≤ (Words.face p.sides w).1 ∧ (Words.face p.sides w).1 ≤ p.sides) ∧
      (∃ kept, p.Keeps [4, 1, 4, 4] kept ∧ (∀ other, p.Keeps [4, 1, 4, 4] other → other = kept) ∧
        (facesAt kept [4, 1, 4, 4]).length = 2 ∧ (facesAt kept [4, 1, 4, 4]).sum ≤ 12) ∧
      p.roll Words.face tray = (.ok 8,
        { source := { words, drawn := 4 }
          lines := ["1d1 [1]", "4d6k2 [4, ~1~, 4, ~4~]"] }) := by
  intro p words tray
  have hcheck : p.check = .ok () := rfl
  have hface := fun w : Words => w.face_bounds (show 1 ≤ p.sides by decide)
  obtain ⟨faces, kept, hdrawn, hkeeps, hunique, -, hlength, -, hsum, -⟩ :=
    roll_keeps_best hcheck hface tray
  obtain rfl : faces = [4, 1, 4, 4] := hdrawn.trans (by cbv)
  exact ⟨hcheck, hface, ⟨kept, hkeeps, hunique, hlength, hsum⟩, by cbv⟩

end Pool

end RollMenu.Dice
