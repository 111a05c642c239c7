import RollMenu.Proofs.OpenPaths
import RollMenu.Proofs.RollableTexts
import RollMenu.Proofs.Substitution

/-!
# Values that the search vouches for

The search asks the engine about corner cases only. A value that it has not tried is
covered when the values that it has tried vouch for it: it differs from them in one
number, and the number lies between theirs, or it belongs to no pool and lies below one of
them. Values may be combined freely, because what covers a value does not depend on the
others: in a selection the covered values are exchanged for tried ones, one place after
the other, until the search knows the text.
-/

namespace RollMenu

/-! ## What covers a value -/

/-- Whether neither a number nor a pool goes on with a character. -/
def Dice.isApart (c : Char) : Bool := !c.isDigit && !Dice.poolLetters.contains c

theorem Dice.isApart_iff {c : Char} :
    Dice.isApart c = true ↔ c.isDigit = false ∧ c ∉ Dice.poolLetters := by
  simp [Dice.isApart]

/-- Whether a number that stands between `s` and `e` in a value of placeholder `i` belongs to no
pool and has no other digits next to it, whatever else is selected. -/
def Template.isApart (t : Template) (i : Nat) (s e : List Char) : Bool :=
  (t.leadAt i ++ s).getLast?.elim (i == 0) Dice.isApart
    && (e ++ t.followAt i).head?.elim (i + 1 == t.slots.length) Dice.isApart

/-- The value is the number `n`, written `w`, between two texts. -/
structure HasNumber (s e : List Char) (v : String) (w : List Char) (n : Nat) : Prop where
  toList_eq : v.toList = s ++ (w ++ e)
  digits : Decimal.digits? w = some n

/-- The values that the search follows vouch for a value. -/
inductive Menu.Covered (m : Menu) (v : String) (p : Parameter) : Prop where
  | followed (h : p.Followed v)
  /-- A number of the value lies between those of two others, in value and in length. -/
  | between {s e low w high : List Char} {l n h : Nat} {u u' : String} (hu : p.Followed u)
      (hu' : p.Followed u') (hlow : HasNumber s e u low l) (hv : HasNumber s e v w n)
      (hhigh : HasNumber s e u' high h) (hvalue : l ≤ n ∧ n ≤ h)
      (hlength : low.length ≤ w.length ∧ w.length ≤ high.length)
  /-- A number of the value lies below that of another, and it belongs to no pool. -/
  | below {s e w high : List Char} {n h : Nat} {u : String} (hu : p.Followed u)
      (hv : HasNumber s e v w n) (hhigh : HasNumber s e u high h) (hvalue : 0 < n ∧ n ≤ h)
      (hapart : m.template.isApart p.placeholder.index s e = true)

/-- The last character of a text that goes on with `ys`, which is nothing only if all of it is. -/
theorem last_of_append {q : Char → Bool} {atEnd : Bool} {xs ys : List Char}
    (h : ys.getLast?.elim atEnd q = true) (hnil : atEnd = true → xs = []) :
    ∀ c, [c] <:+ xs ++ ys → q c = true := by
  rintro c ⟨cs, hcs⟩
  have hlast : (xs ++ ys).getLast? = some c := by rw [← hcs, List.getLast?_concat]
  rw [List.getLast?_append] at hlast
  cases hys : ys.getLast? with
  | none =>
    rw [hys] at h hlast
    rw [hnil h] at hlast
    cases hlast
  | some d =>
    rw [hys] at h hlast
    obtain rfl := Option.some.inj hlast
    exact h

theorem head_of_append {q : Char → Bool} {atEnd : Bool} {xs ys : List Char}
    (h : xs.head?.elim atEnd q = true) (hnil : atEnd = true → ys = []) :
    ∀ c, [c] <+: xs ++ ys → q c = true := by
  rintro c ⟨cs, hcs⟩
  cases xs with
  | nil =>
    rw [hnil h] at hcs
    cases hcs
  | cons x xs =>
    obtain ⟨rfl, -⟩ := List.cons.inj hcs
    exact h

namespace Menu

variable {m : Menu} {p : Parameter} {us ws : List String} {v : String}

/-- What is rolled in the end. -/
def rolledText (m : Menu) (values : List String) : List Char :=
  (m.template.substitute (m.filling { selections := values })).toList

/-- What is rolled, as a function of one value. -/
theorem exists_rolledText_eq (hm : m.Aligned) (hlength : us.length + ws.length < m.size) :
    ∃ before behind,
      (∀ v, m.rolledText (us ++ v :: ws) = (before ++ m.template.leadAt us.length) ++
        (v.toList ++ (m.template.followAt us.length ++ behind))) ∧
      (us.length = 0 → before = []) ∧
      (us.length + 1 = m.template.slots.length → behind = []) := by
  have hsize := hm.size_eq
  have hfilling : ∀ v, m.filling { selections := us ++ v :: ws } =
      us ++ v :: (ws ++ List.replicate (m.size - (us.length + (ws.length + 1))) skippedValue) := by
    intro v
    rw [filling_eq (by simp; omega)]
    simp
  obtain ⟨before, behind, htext, hbefore, hbehind⟩ :=
    Template.exists_substitute_eq us
      (ws ++ List.replicate (m.size - (us.length + (ws.length + 1))) skippedValue)
      hm.numbered (by simp; omega)
  refine ⟨before, behind, ?_, ?_, ?_⟩
  · intro v
    rw [rolledText, hfilling, htext]
  · intro h
    exact hbefore (List.length_eq_zero_iff.mp h)
  · intro h
    refine hbehind (List.length_eq_zero_iff.mp ?_)
    rw [List.length_append, List.length_replicate]
    omega

/-- **A covered value may stand where the values that cover it may stand.** -/
theorem Covered.rollable (hv : m.Covered v p) (hm : m.Aligned)
    (hp : m.parameters[us.length]? = some p) (hlength : us.length + ws.length < m.size)
    (h : ∀ u, p.Followed u → Dice.Rollable (m.rolledText (us ++ u :: ws))) :
    Dice.Rollable (m.rolledText (us ++ v :: ws)) := by
  obtain ⟨before, behind, htext, hbefore, hbehind⟩ := exists_rolledText_eq hm hlength
  -- the text around a number in the value
  have hnumber : ∀ {s e : List Char} {u : String} {w : List Char} {n : Nat}, HasNumber s e u w n →
      m.rolledText (us ++ u :: ws) = (before ++ (m.template.leadAt us.length ++ s)) ++
        (w ++ ((e ++ m.template.followAt us.length) ++ behind)) := by
    intro s e u w n hu
    rw [htext, hu.toList_eq]
    simp only [List.append_assoc]
  cases hv with
  | followed hfollowed => exact h v hfollowed
  | between hu hu' hlow hv hhigh hvalue hlength =>
    have hrolllow := h _ hu
    have hrollhigh := h _ hu'
    rw [hnumber hlow] at hrolllow
    rw [hnumber hhigh] at hrollhigh
    rw [hnumber hv]
    exact Dice.rollable_of_between hlow.digits hv.digits hhigh.digits hvalue hlength hrolllow
      hrollhigh
  | @below s e w high n top u hu hv hhigh hvalue hapart =>
    rw [hm.index_eq hp] at hapart
    obtain ⟨hlast, hhead⟩ := Bool.and_eq_true_iff.mp hapart
    have hbeforeapart := last_of_append hlast fun h => hbefore (beq_iff_eq.mp h)
    have hbehindapart := head_of_append hhead fun h => hbehind (beq_iff_eq.mp h)
    let g : Dice.Gap := {
      before := before ++ (m.template.leadAt us.length ++ s)
      behind := (e ++ m.template.followAt us.length) ++ behind
      before_isDigit := fun c hc => (Dice.isApart_iff.mp (hbeforeapart c hc)).1
      behind_isDigit := fun c hc => (Dice.isApart_iff.mp (hbehindapart c hc)).1
      numeral := high
      top := top
      numeral_value := hhigh.digits }
    have halone : g.Alone :=
      ⟨fun c hc => (Dice.isApart_iff.mp (hbeforeapart c hc)).2,
        fun c hc => (Dice.isApart_iff.mp (hbehindapart c hc)).2⟩
    have hroll := h u hu
    rw [hnumber hhigh] at hroll
    rw [hnumber hv]
    exact halone.rollable hroll hv.digits hvalue.1 hvalue.2

/-! ## Exchanging one value after the other -/

/-- **A text with covered values rolls if the texts with followed values do.** By induction on the
places in which values are exchanged, from the right. -/
theorem rollable_of_covered (us ws : List String) (hm : m.Aligned)
    (hlength : us.length + ws.length ≤ m.size)
    (hus : List.Forall₂ m.Covered us (m.parameters.take us.length))
    (h : ∀ us', us'.length = us.length →
      List.Forall₂ (fun v p => p.Followed v) us' (m.parameters.take us'.length) →
        Dice.Rollable (m.rolledText (us' ++ ws))) :
    Dice.Rollable (m.rolledText (us ++ ws)) := by
  induction us using List.reverseRecOn generalizing ws with
  | nil => exact h [] rfl .nil
  | append_singleton us v ih =>
    rw [List.length_append, List.length_singleton] at hus hlength h
    obtain ⟨hus, p, hp, hv⟩ := forall₂_take_concat_iff.mp hus
    rw [List.append_assoc, List.singleton_append]
    refine ih (v :: ws) (by simpa using by omega) hus ?_
    intro us' hus' hfollowed
    rw [← hus'] at hp
    refine hv.rollable hm hp (by omega) ?_
    intro u hu
    have hconcat := h (us' ++ [u]) (by simp [hus']) (by
      rw [List.length_append, List.length_singleton]
      exact forall₂_take_concat_iff.mpr ⟨hfollowed, p, hp, hu⟩)
    rwa [List.append_assoc, List.singleton_append] at hconcat

end Menu

end RollMenu
