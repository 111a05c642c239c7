import Mathlib
import RollMenu.Proofs.TemplateText

/-!
# Which texts are templates, and where their placeholders stand

Reading a template goes through the text once, from one brace to the next. Which texts
it accepts can be said without any reading: the braces come in pairs with no brace in
between, and in each pair there is a name. The reader and this description are brought
together along the reader's own steps. A step takes a text apart into plain text, one pair
of braces and the rest, and such a text is `Paired` exactly if the pair has a name and the
rest is `Paired`.

Along the same steps the reader counts bytes. What it counts are positions between two
characters, and what stands between two of them is the placeholder as it is written. So a
text can be cut at every position that a template reports, and an error is reported at a
brace.
-/

namespace RollMenu

/-! ## Pieces of a text by their bytes -/

namespace Text

theorem byteLength_toList (s : String) : byteLength s.toList = s.utf8ByteSize := by
  induction s using String.push_induction with
  | empty => rfl
  | push s c ih =>
    rw [String.toList_push, byteLength_append, ih, String.utf8ByteSize_push]
    rfl

/-- From byte `start` up to byte `stop` of a text stands `piece`, and neither position lies within
a character. -/
structure CutAt (text : String) (start stop : Nat) (piece : String) : Prop where
  start_isValid : String.Pos.Raw.IsValid text ⟨start⟩
  stop_isValid : String.Pos.Raw.IsValid text ⟨stop⟩
  bytes : text.toByteArray.extract start stop = piece.toByteArray

theorem cutAt_append (before piece behind : String) :
    CutAt (before ++ piece ++ behind) before.utf8ByteSize
      (before.utf8ByteSize + piece.utf8ByteSize) piece where
  start_isValid := String.Pos.Raw.isValid_iff_exists_append.mpr
    ⟨before, piece ++ behind, String.append_assoc, rfl⟩
  stop_isValid := String.Pos.Raw.isValid_iff_exists_append.mpr
    ⟨before ++ piece, behind, rfl, by rw [String.rawEndPos, String.utf8ByteSize_append]⟩
  bytes := by
    rw [String.append_assoc, String.toByteArray_append, String.toByteArray_append,
      ← String.size_toByteArray, ← String.size_toByteArray]
    have hskip := ByteArray.extract_append_size_add (a := before.toByteArray)
      (b := piece.toByteArray ++ behind.toByteArray) (i := 0) (j := piece.toByteArray.size)
    rw [Nat.add_zero] at hskip
    rw [hskip, ByteArray.extract_append_eq_left rfl]

/-- A text that is put together from characters is cut where the pieces meet. -/
theorem cutAt_of_toList {text piece : String} {before behind : List Char}
    (h : text.toList = before ++ (piece.toList ++ behind)) :
    CutAt text (byteLength before) (byteLength before + byteLength piece.toList) piece := by
  have htext : text = String.ofList before ++ piece ++ String.ofList behind := by
    apply String.toList_inj.mp
    simp [h]
  have hcut := cutAt_append (String.ofList before) piece (String.ofList behind)
  rwa [← htext, ← byteLength_toList, ← byteLength_toList, String.toList_ofList] at hcut

end Text

namespace Template

/-! ## Pairs of braces -/

/-- What stands in a pair of braces up to the first colon. -/
def nameIn (inner : List Char) : List Char := inner.takeWhile (· != ':')

/-- The braces of a text come in pairs that do not overlap, and each pair holds a name. -/
structure Paired (cs : List Char) : Prop where
  /-- What is opened is closed, and there is no brace in between. -/
  closed : ∀ before behind, cs = before ++ '{' :: behind →
    ∃ inner rest, behind = inner ++ '}' :: rest ∧ Plain inner
  /-- What is closed was opened. -/
  opened : ∀ before behind, cs = before ++ '}' :: behind →
    ∃ front inner, before = front ++ '{' :: inner ∧ Plain inner
  named : ∀ before inner behind, cs = before ++ '{' :: (inner ++ '}' :: behind) →
    Plain inner → ¬ Text.Blank (nameIn inner)

/-- Behind a plain beginning the next brace is at its end, or further on. -/
theorem brace_of_append {lead rest before behind : List Char} {c b : Char} (hlead : Plain lead)
    (hb : isPlain b = false) (h : lead ++ c :: rest = before ++ b :: behind) :
    (before = lead ∧ b = c ∧ behind = rest) ∨
      ∃ more, before = lead ++ c :: more ∧ rest = more ++ b :: behind := by
  rcases List.append_eq_append_iff.mp h with ⟨xs, hbefore, hrest⟩ | ⟨xs, hlead', hrest⟩
  · cases xs with
    | nil =>
      obtain ⟨hc, hbehind⟩ := List.cons.inj hrest
      exact Or.inl ⟨by rw [hbefore, List.append_nil], hc.symm, hbehind.symm⟩
    | cons x xs =>
      obtain ⟨rfl, hmore⟩ := List.cons.inj hrest
      exact Or.inr ⟨xs, hbefore, hmore⟩
  · cases xs with
    | nil =>
      obtain ⟨hc, hbehind⟩ := List.cons.inj hrest
      exact Or.inl ⟨by rw [hlead', List.append_nil], hc, hbehind⟩
    | cons x xs =>
      -- the brace would belong to the plain beginning
      obtain ⟨rfl, -⟩ := List.cons.inj hrest
      have hmem : b ∈ lead := by
        rw [hlead']
        exact List.mem_append_right _ List.mem_cons_self
      rw [hlead b hmem] at hb
      cases hb

/-- Plain text up to a closing brace ends at the first one. -/
theorem inner_unique {inner inner' rest rest' : List Char} (h : Plain inner) (h' : Plain inner')
    (heq : inner ++ '}' :: rest = inner' ++ '}' :: rest') : inner' = inner ∧ rest' = rest := by
  rcases brace_of_append h rfl heq with ⟨hinner, -, hrest⟩ | ⟨more, hinner, -⟩
  · exact ⟨hinner, hrest⟩
  · have hbrace := h' '}' (by rw [hinner]; simp)
    cases hbrace

/-- A brace in a text that begins with a pair is one of the pair, or it belongs to the rest. -/
theorem brace_of_pair {lead inner rest before behind : List Char} {b : Char} (hlead : Plain lead)
    (hinner : Plain inner) (hb : isPlain b = false)
    (h : lead ++ '{' :: (inner ++ '}' :: rest) = before ++ b :: behind) :
    (b = '{' ∧ before = lead ∧ behind = inner ++ '}' :: rest) ∨
    (b = '}' ∧ before = lead ++ '{' :: inner) ∨
    ∃ more, before = lead ++ '{' :: (inner ++ '}' :: more) ∧ rest = more ++ b :: behind := by
  rcases brace_of_append hlead hb h with ⟨hbefore, hopen, hbehind⟩ | ⟨more, hbefore, hmore⟩
  · exact Or.inl ⟨hopen, hbefore, hbehind⟩
  rcases brace_of_append hinner hb hmore with ⟨hfirst, hclose, -⟩ | ⟨further, hfirst, hrest⟩
  · exact Or.inr (Or.inl ⟨hclose, by rw [hbefore, hfirst]⟩)
  · exact Or.inr (Or.inr ⟨further, by rw [hbefore, hfirst], hrest⟩)

theorem paired_of_plain {cs : List Char} (h : Plain cs) : Paired cs := by
  have hnone : ∀ before b behind, isPlain b = false → cs ≠ before ++ b :: behind := by
    rintro before b behind hb rfl
    rw [h b (by simp)] at hb
    cases hb
  constructor
  · intro before behind heq
    exact absurd heq (hnone before '{' behind rfl)
  · intro before behind heq
    exact absurd heq (hnone before '}' behind rfl)
  · intro before inner behind heq
    exact absurd heq (hnone before '{' _ rfl)

/-- **A text that begins with a pair is paired exactly if the pair is named and the rest is
paired.** -/
theorem paired_pair_iff {lead inner rest : List Char} (hlead : Plain lead) (hinner : Plain inner) :
    Paired (lead ++ '{' :: (inner ++ '}' :: rest)) ↔
      ¬ Text.Blank (nameIn inner) ∧ Paired rest := by
  constructor
  · intro h
    have hshift : ∀ before behind, rest = before ++ behind →
        lead ++ '{' :: (inner ++ '}' :: rest) =
          (lead ++ '{' :: (inner ++ '}' :: before)) ++ behind := by
      rintro before behind rfl
      simp
    refine ⟨h.named lead inner rest rfl hinner, ?_, ?_, ?_⟩
    · intro before behind heq
      exact h.closed _ behind (hshift before _ heq)
    · intro before behind heq
      obtain ⟨front, inner', hfront, hinner'⟩ := h.opened _ behind (hshift before _ heq)
      rcases brace_of_pair hlead hinner rfl hfront with
        ⟨-, -, hover⟩ | ⟨hbrace, -⟩ | ⟨more, -, hmore⟩
      · -- the first pair is closed already, so nothing behind it closes it again
        have hbrace := hinner' '}' (by rw [hover]; simp)
        cases hbrace
      · cases hbrace
      · exact ⟨more, inner', hmore, hinner'⟩
    · intro before inner' behind heq
      exact h.named _ inner' behind (hshift before _ heq)
  · rintro ⟨hname, hrest⟩
    refine ⟨?_, ?_, ?_⟩
    · intro before behind heq
      rcases brace_of_pair hlead hinner rfl heq with
        ⟨-, -, hbehind⟩ | ⟨hbrace, -⟩ | ⟨more, -, hmore⟩
      · exact ⟨inner, rest, hbehind, hinner⟩
      · cases hbrace
      · exact hrest.closed more behind hmore
    · intro before behind heq
      rcases brace_of_pair hlead hinner rfl heq with
        ⟨hbrace, -⟩ | ⟨-, hbefore⟩ | ⟨more, hbefore, hmore⟩
      · cases hbrace
      · exact ⟨lead, inner, hbefore, hinner⟩
      · obtain ⟨front, inner', hfront, hinner'⟩ := hrest.opened more behind hmore
        refine ⟨lead ++ '{' :: (inner ++ '}' :: front), inner', ?_, hinner'⟩
        rw [hbefore, hfront]
        simp
    · intro before inner' behind heq hinner'
      rcases brace_of_pair hlead hinner rfl heq with
        ⟨-, -, hbehind⟩ | ⟨hbrace, -⟩ | ⟨more, -, hmore⟩
      · rwa [← (inner_unique hinner hinner' hbehind.symm).1] at hname
      · cases hbrace
      · exact hrest.named more inner' behind hmore hinner'

theorem not_paired_of_unopened {lead rest : List Char} (hlead : Plain lead) :
    ¬ Paired (lead ++ '}' :: rest) := by
  intro h
  obtain ⟨front, inner, hfront, -⟩ := h.opened lead rest rfl
  have hbrace := hlead '{' (by rw [hfront]; simp)
  cases hbrace

theorem not_paired_of_unclosed {lead behind : List Char} (hbehind : Plain behind) :
    ¬ Paired (lead ++ '{' :: behind) := by
  intro h
  obtain ⟨inner, rest, heq, -⟩ := h.closed lead behind rfl
  have hbrace := hbehind '}' (by rw [heq]; simp)
  cases hbrace

theorem not_paired_of_nested {lead inner rest : List Char} (hinner : Plain inner) :
    ¬ Paired (lead ++ '{' :: (inner ++ '{' :: rest)) := by
  intro h
  obtain ⟨inner', rest', heq, hinner'⟩ := h.closed lead _ rfl
  rcases brace_of_append hinner rfl heq with ⟨-, hbrace, -⟩ | ⟨more, hmore, -⟩
  · cases hbrace
  · have hbrace := hinner' '{' (by rw [hmore]; simp)
    cases hbrace

/-! ## What the reader accepts -/

theorem fst_splitSpec (inner : List Char) : (splitSpec inner).1 = nameIn inner := by
  unfold splitSpec nameIn
  split
  · rename_i hdrop
    have happend := List.takeWhile_append_dropWhile (p := (· != ':')) (l := inner)
    rw [hdrop, List.append_nil] at happend
    exact happend.symm
  · rfl

/-- A placeholder is read exactly if it has a name, and an error is reported where it begins. -/
theorem readPlaceholder_cases (index start : Nat) (inner : List Char) :
    (¬ Text.Blank (nameIn inner) ∧ ∃ p, readPlaceholder index start inner = .ok p ∧
      p.start = start ∧ p.stop = start + Text.byteLength inner + 2) ∨
    (Text.Blank (nameIn inner) ∧
      ∃ flaw, readPlaceholder index start inner = .error ⟨start, flaw⟩) := by
  unfold readPlaceholder
  dsimp only
  rw [fst_splitSpec]
  by_cases hempty : Text.Blank inner
  · have hname : Text.Blank (nameIn inner) := by
      intro c hc
      exact hempty c ((List.takeWhile_sublist _).subset hc)
    rw [if_pos hempty]
    exact Or.inr ⟨hname, _, rfl⟩
  · rw [if_neg hempty]
    by_cases hname : Text.Blank (nameIn inner)
    · rw [if_pos hname]
      exact Or.inr ⟨hname, _, rfl⟩
    · rw [if_neg hname]
      exact Or.inl ⟨hname, _, rfl, rfl, rfl⟩

/-! ## Where slots stand -/

/-- A brace stands at byte `n`, counted from `position` on. -/
def BraceAt (position : Nat) (cs : List Char) (n : Nat) : Prop :=
  ∃ before b behind, cs = before ++ b :: behind ∧ (b = '{' ∨ b = '}') ∧
    n = position + Text.byteLength before

/-- A placeholder stands in a text that begins at byte `position`. -/
def StandsIn (position : Nat) (cs : List Char) (p : Placeholder) : Prop :=
  ∃ before behind, cs = before ++ (p.expression.toList ++ behind) ∧
    p.start = position + Text.byteLength before ∧
    p.stop = p.start + Text.byteLength p.expression.toList

/-- Slots that stand in a text one behind another, and the tail behind them. -/
structure Placed (position : Nat) (cs : List Char) (slots : List Slot) (tail : List Char) :
    Prop where
  stands : ∀ slot ∈ slots, StandsIn position cs slot.placeholder
  ordered : slots.Pairwise fun a b => a.placeholder.stop ≤ b.placeholder.start
  tail : ∃ before, cs = before ++ tail ∧
    ∀ slot ∈ slots, slot.placeholder.stop ≤ position + Text.byteLength before

theorem BraceAt.shift {position n : Nat} {cs : List Char} (front : List Char)
    (h : BraceAt (position + Text.byteLength front) cs n) : BraceAt position (front ++ cs) n := by
  obtain ⟨before, b, behind, rfl, hb, rfl⟩ := h
  refine ⟨front ++ before, b, behind, (List.append_assoc ..).symm, hb, ?_⟩
  rw [Text.byteLength_append, Nat.add_assoc]

theorem StandsIn.shift {position : Nat} {cs : List Char} {p : Placeholder} (front : List Char)
    (h : StandsIn (position + Text.byteLength front) cs p) :
    StandsIn position (front ++ cs) p := by
  obtain ⟨before, behind, rfl, hstart, hstop⟩ := h
  refine ⟨front ++ before, behind, (List.append_assoc ..).symm, ?_, hstop⟩
  rw [hstart, Text.byteLength_append, Nat.add_assoc]

theorem Placed.nil {position : Nat} {tail : List Char} : Placed position tail [] tail where
  stands := by simp
  ordered := List.Pairwise.nil
  tail := ⟨[], rfl, by simp⟩

/-- One slot more in front. -/
theorem Placed.cons {position : Nat} {lead rest tail : List Char} {p : Placeholder}
    {slots : List Slot} (hstart : p.start = position + Text.byteLength lead)
    (hstop : p.stop = p.start + Text.byteLength p.expression.toList)
    (h : Placed p.stop rest slots tail) :
    Placed position (lead ++ (p.expression.toList ++ rest)) (⟨String.ofList lead, p⟩ :: slots)
      tail := by
  have hfront : p.stop = position + Text.byteLength (lead ++ p.expression.toList) := by
    rw [hstop, hstart, Text.byteLength_append, Nat.add_assoc]
  rw [hfront] at h
  refine ⟨?_, ?_, ?_⟩
  · intro slot hslot
    rcases List.mem_cons.mp hslot with rfl | hslot
    · exact ⟨lead, rest, rfl, hstart, hstop⟩
    · have hstands := (h.stands slot hslot).shift
      rwa [List.append_assoc] at hstands
  · refine List.Pairwise.cons ?_ h.ordered
    intro slot hslot
    obtain ⟨before, -, -, hbegin, -⟩ := h.stands slot hslot
    rw [hbegin, ← hfront]
    exact Nat.le_add_right _ _
  · obtain ⟨before, htail, hbound⟩ := h.tail
    refine ⟨lead ++ p.expression.toList ++ before, by rw [htail]; simp, ?_⟩
    rw [Text.byteLength_append, ← Nat.add_assoc]
    intro slot hslot
    rcases List.mem_cons.mp hslot with rfl | hslot
    · rw [← hfront]
      exact Nat.le_add_right _ _
    · exact hbound slot hslot

/-! ## What the reader accepts -/

/-- A verdict on a text that begins at byte `position`, as it should be. -/
inductive Justified (position : Nat) (cs : List Char) :
    Except Fault (List Slot × List Char) → Prop where
  | accepted {slots : List Slot} {tail : List Char} (hpaired : Paired cs)
      (hplaced : Placed position cs slots tail) : Justified position cs (.ok (slots, tail))
  | refused {fault : Fault} (hpaired : ¬ Paired cs)
      (hbrace : BraceAt position cs fault.position) : Justified position cs (.error fault)

/-- One pair of braces more in front, which is read before the rest. -/
theorem Justified.pair {index position : Nat} {lead inner rest : List Char}
    {more : Placeholder → Except Fault (List Slot × List Char)} (hlead : Plain lead)
    (hinner : Plain inner) (h : ∀ p, Justified p.stop rest (more p)) :
    Justified position (lead ++ '{' :: (inner ++ '}' :: rest)) (do
      let p ← readPlaceholder index (position + Text.byteLength lead) inner
      let (slots, tail) ← more p
      return (⟨String.ofList lead, p⟩ :: slots, tail)) := by
  have hiff : Paired (lead ++ '{' :: (inner ++ '}' :: rest)) ↔
      ¬ Text.Blank (nameIn inner) ∧ Paired rest := paired_pair_iff hlead hinner
  rcases readPlaceholder_cases index (position + Text.byteLength lead) inner with
    ⟨hname, p, hp, hstart, hstop⟩ | ⟨hname, flaw, hp⟩
  · have hexpression : p.expression.toList = '{' :: (inner ++ ['}']) := by
      rw [toList_expression, (inner_of_readPlaceholder hp).1]
    have hlength : p.stop = p.start + Text.byteLength p.expression.toList := by
      have hopen : '{'.utf8Size = 1 := rfl
      have hclose : '}'.utf8Size = 1 := rfl
      rw [hstop, hstart, hexpression, Text.byteLength_cons, Text.byteLength_append,
        Text.byteLength_cons, Text.byteLength_nil]
      omega
    have htext : lead ++ '{' :: (inner ++ '}' :: rest) = lead ++ (p.expression.toList ++ rest) := by
      rw [hexpression]
      simp
    have hrest := h p
    rw [hp]
    change Justified position _
      (more p >>= fun result => .ok (⟨String.ofList lead, p⟩ :: result.1, result.2))
    generalize more p = result at hrest
    cases hrest with
    | accepted hpaired hplaced =>
      refine .accepted (hiff.mpr ⟨hname, hpaired⟩) ?_
      rw [htext]
      exact .cons hstart hlength hplaced
    | refused hpaired hbrace =>
      refine .refused (fun hall => hpaired (hiff.mp hall).2) ?_
      rw [htext, ← List.append_assoc]
      refine BraceAt.shift _ ?_
      rwa [Text.byteLength_append, ← Nat.add_assoc, ← hstart, ← hlength]
  · rw [hp]
    refine .refused (fun hall => (hiff.mp hall).1 hname) ?_
    exact ⟨lead, '{', _, rfl, Or.inl rfl, rfl⟩

/-- **Slots are read exactly from paired texts, and they stand where it is said.** By induction
along the reader: each way in which it fails is a way in which a text is not paired. -/
theorem justified_readSlots (index position : Nat) (cs : List Char) :
    Justified position cs (readSlots index position cs) := by
  fun_induction readSlots index position cs with
  | @case1 index position cs lead hopen =>
    have hplain : Plain cs := by
      intro c hc
      simpa using List.dropWhile_eq_nil_iff.mp hopen c hc
    have hlead : lead = cs := List.takeWhile_eq_self_iff.mpr hplain
    rw [hlead]
    exact .accepted (paired_of_plain hplain) .nil
  | @case2 index position cs lead start behind hopen =>
    have hcs := (eq_append_of_dropWhile hopen).1
    refine .refused ?_ ⟨lead, '}', behind, hcs, Or.inr rfl, rfl⟩
    rw [hcs]
    exact not_paired_of_unopened (plain_takeWhile cs)
  | @case3 index position cs lead start o behind ho hopen hclose =>
    obtain ⟨hcs, hbrace⟩ := eq_append_of_dropWhile hopen
    obtain rfl := (eq_brace_of_isPlain hbrace).resolve_right ho
    have hbehind : Plain behind := by
      intro c hc
      simpa using List.dropWhile_eq_nil_iff.mp hclose c hc
    refine .refused ?_ ⟨lead, '{', behind, hcs, Or.inl rfl, rfl⟩
    rw [hcs]
    exact not_paired_of_unclosed hbehind
  | @case4 index position cs lead start o behind ho hopen inner rest hclose =>
    obtain ⟨hcs, hbrace⟩ := eq_append_of_dropWhile hopen
    obtain rfl := (eq_brace_of_isPlain hbrace).resolve_right ho
    have hbehind : behind = inner ++ '{' :: rest := (eq_append_of_dropWhile hclose).1
    have htext : cs = lead ++ '{' :: (inner ++ '{' :: rest) := by
      rw [← hbehind]
      exact hcs
    refine .refused ?_ ⟨lead ++ '{' :: inner, '{', rest, by rw [htext]; simp, Or.inl rfl, ?_⟩
    · rw [htext]
      exact not_paired_of_nested (plain_takeWhile behind)
    · have hone : '{'.utf8Size = 1 := rfl
      rw [Text.byteLength_append, Text.byteLength_cons, hone, ← Nat.add_assoc, ← Nat.add_assoc]
  | @case5 index position cs lead start o behind ho hopen inner d rest hd hclose hlt ih =>
    obtain ⟨hcs, hobrace⟩ := eq_append_of_dropWhile hopen
    obtain rfl := (eq_brace_of_isPlain hobrace).resolve_right ho
    obtain ⟨hbehind, hdbrace⟩ := eq_append_of_dropWhile hclose
    obtain rfl := (eq_brace_of_isPlain hdbrace).resolve_left hd
    have htext : cs = lead ++ '{' :: (inner ++ '}' :: rest) := by
      change cs = lead ++ '{' :: (behind.takeWhile isPlain ++ '}' :: rest)
      rw [← hbehind]
      exact hcs
    rw [htext]
    exact .pair (plain_takeWhile cs) (plain_takeWhile behind) ih

/-! ## Templates -/

/-- What is read of a template besides its label are its slots and the text behind them. -/
theorem readSlots_of_parse {source : String} {t : Template} (h : parse source = .ok t) :
    readSlots 0 0 source.toList = .ok (t.slots, t.body.toList ++ t.labelText.toList) := by
  obtain ⟨⟨slots, tail⟩, hread, hresult⟩ := exists_of_bind_ok h
  obtain rfl := Except.ok.inj hresult
  rw [hread]
  obtain ⟨hsplit, -⟩ | ⟨body, label, hsplit, rfl, -⟩ := splitLabel_cases tail
  · simp [hsplit, labelText]
  · simp [hsplit, labelText]

theorem parse_of_readSlots {source : String} {result : List Slot × List Char}
    (h : readSlots 0 0 source.toList = .ok result) : ∃ t, parse source = .ok t := by
  rw [parse, h]
  exact ⟨_, rfl⟩

theorem readSlots_of_parse_error {source : String} {fault : Fault}
    (h : parse source = .error fault) : readSlots 0 0 source.toList = .error fault := by
  cases hread : readSlots 0 0 source.toList with
  | error fault' =>
    rw [parse, hread] at h
    exact congrArg Except.error (Except.error.inj h)
  | ok result =>
    obtain ⟨t, ht⟩ := parse_of_readSlots hread
    rw [ht] at h
    cases h

theorem toList_renderSlots_expression (slots : List Slot) :
    (renderSlots Placeholder.expression slots).toList =
      filledSlots slots (slots.map fun slot => slot.placeholder.expression) := by
  induction slots with
  | nil => simp [filledSlots]
  | cons slot slots ih =>
    rw [renderSlots_cons, String.toList_append, String.toList_append, ih, List.map_cons,
      filledSlots_cons, List.append_assoc]

theorem NumberedFrom.map_index {k : Nat} {slots : List Slot} (h : NumberedFrom k slots) :
    slots.map (fun slot => slot.placeholder.index) = List.range' k slots.length := by
  induction slots generalizing k with
  | nil => rfl
  | cons slot slots ih =>
    obtain ⟨hindex, hslots⟩ := h
    rw [List.map_cons, hindex, ih hslots, List.length_cons, List.range'_succ]

/-- With a value for every placeholder, people see what is rolled and the label behind it. -/
theorem display_eq_of_length_le {source : String} {t : Template} {values : List String}
    (h : parse source = .ok t) (hvalues : t.placeholders.length ≤ values.length) :
    t.display values = t.substitute values ++ t.labelText := by
  have hindex := (numberedFrom_of_parse h).map_index
  have hfill : ∀ slot ∈ t.slots, values[slot.placeholder.index]?.getD slot.placeholder.gap =
      values[slot.placeholder.index]?.getD slot.placeholder.expression := by
    intro slot hslot
    have hmem : slot.placeholder.index ∈ t.slots.map fun slot => slot.placeholder.index :=
      List.mem_map_of_mem hslot
    rw [hindex, List.mem_range'_1] at hmem
    rw [placeholders, List.length_map] at hvalues
    have hlt : slot.placeholder.index < values.length := by omega
    rw [List.getElem?_eq_getElem hlt, Option.getD_some, Option.getD_some]
  have hslots : t.slots.map (fun slot =>
        slot.lead ++ values[slot.placeholder.index]?.getD slot.placeholder.gap) =
      t.slots.map fun slot =>
        slot.lead ++ values[slot.placeholder.index]?.getD slot.placeholder.expression := by
    refine List.map_congr_left fun slot hslot => ?_
    rw [hfill slot hslot]
  rw [display, substitute, renderSlots, renderSlots, hslots]

/-- The positions of a template in its source. -/
structure LocatedIn (source : String) (t : Template) : Prop where
  /-- Nothing is lost. -/
  source_eq : t.source = source
  index : t.placeholders.map Placeholder.index = List.range t.placeholders.length
  /-- A placeholder is cut out of the source, braces included. -/
  cut : ∀ p ∈ t.placeholders, Text.CutAt source p.start p.stop p.expression
  written : ∀ p ∈ t.placeholders,
    p.expression = "\x7b" ++ p.name ++ (p.spec.elim "" fun spec => ":" ++ spec) ++ "\x7d"
  start_lt_stop : ∀ p ∈ t.placeholders, p.start < p.stop
  ordered : t.placeholders.Pairwise fun p q => p.stop ≤ q.start
  stop_le : ∀ p ∈ t.placeholders, p.stop ≤ source.utf8ByteSize
  /-- A label is what follows an `@` somewhere behind the last placeholder. -/
  label : ∀ label, t.label = some label → ∃ position,
    (∀ p ∈ t.placeholders, p.stop ≤ position) ∧
      Text.CutAt source position source.utf8ByteSize ("@" ++ label)

theorem cutAt_of_standsIn {source : String} {p : Placeholder} (h : StandsIn 0 source.toList p) :
    Text.CutAt source p.start p.stop p.expression := by
  obtain ⟨before, behind, htext, hstart, hstop⟩ := h
  rw [hstop, hstart, Nat.zero_add]
  exact Text.cutAt_of_toList htext

theorem start_lt_stop_of_standsIn {position : Nat} {cs : List Char} {p : Placeholder}
    (h : StandsIn position cs p) : p.start < p.stop := by
  obtain ⟨-, -, -, -, hstop⟩ := h
  have hsize := '{'.utf8Size_pos
  rw [toList_expression, Text.byteLength_cons] at hstop
  omega

theorem expression_eq (p : Placeholder) :
    p.expression = "\x7b" ++ p.name ++ (p.spec.elim "" fun spec => ":" ++ spec) ++ "\x7d" := by
  rw [Placeholder.expression, Placeholder.inner]
  cases p.spec with
  | none => rw [Option.elim_none, String.append_empty]
  | some spec => simp only [Option.elim_some, String.append_assoc]

/-- **A template that is read is located in its source.** -/
theorem locatedIn_of_parse {source : String} {t : Template} (h : parse source = .ok t) :
    t.LocatedIn source := by
  have hjustified := justified_readSlots 0 0 source.toList
  rw [readSlots_of_parse h] at hjustified
  obtain ⟨-, hplaced⟩ := hjustified
  have hstands : ∀ p ∈ t.placeholders, StandsIn 0 source.toList p := by
    intro p hp
    obtain ⟨slot, hslot, rfl⟩ := List.mem_map.mp hp
    exact hplaced.stands slot hslot
  refine ⟨?_, ?_, ?_, fun p _ => expression_eq p, ?_, ?_, ?_, ?_⟩
  · apply String.toList_inj.mp
    rw [Template.source, String.toList_append, String.toList_append,
      toList_renderSlots_expression, List.append_assoc]
    exact (cutFrom_of_parse h).pieces.text.symm
  · have hindex := (numberedFrom_of_parse h).map_index
    rw [placeholders, List.map_map, List.length_map, List.range_eq_range']
    exact hindex
  · exact fun p hp => cutAt_of_standsIn (hstands p hp)
  · exact fun p hp => start_lt_stop_of_standsIn (hstands p hp)
  · exact List.pairwise_map.mpr hplaced.ordered
  · intro p hp
    exact (cutAt_of_standsIn (hstands p hp)).stop_isValid.le_rawEndPos
  · intro label hlabel
    obtain ⟨before, htext, hbound⟩ := hplaced.tail
    have hpiece : source.toList =
        (before ++ t.body.toList) ++ (("@" ++ label).toList ++ []) := by
      rw [htext, labelText, hlabel]
      simp
    have hcut := Text.cutAt_of_toList hpiece
    rw [← Text.byteLength_append, ← List.append_nil ("@" ++ label).toList, ← hpiece,
      Text.byteLength_toList] at hcut
    refine ⟨Text.byteLength (before ++ t.body.toList), ?_, hcut⟩
    intro p hp
    obtain ⟨slot, hslot, rfl⟩ := List.mem_map.mp hp
    have hle := hbound slot hslot
    rw [Text.byteLength_append]
    omega

/--
**Reading accepts exactly the texts whose braces come in named pairs, and loses nothing.** An
accepted text is cut at its placeholders and at the label, at positions between characters, and
with all values in place people see what is rolled with the label behind it. A text that is not
accepted is reported at one of its braces.
-/
theorem parse_iff_paired_and_located (source : String) :
    ((∃ t, parse source = .ok t) ↔ Paired source.toList) ∧
    (∀ t, parse source = .ok t → t.LocatedIn source ∧
      ∀ values : List String, t.placeholders.length ≤ values.length →
        t.display values = t.substitute values ++ (t.label.elim "" fun label => "@" ++ label)) ∧
    ∀ fault, parse source = .error fault → BraceAt 0 source.toList fault.position := by
  have hjustified := justified_readSlots 0 0 source.toList
  refine ⟨?_, ?_, ?_⟩
  · constructor
    · rintro ⟨t, ht⟩
      rw [readSlots_of_parse ht] at hjustified
      obtain ⟨hpaired, -⟩ := hjustified
      exact hpaired
    · intro hpaired
      generalize hread : readSlots 0 0 source.toList = result at hjustified
      cases hjustified with
      | accepted => exact parse_of_readSlots hread
      | refused hnot => exact absurd hpaired hnot
  · intro t ht
    refine ⟨locatedIn_of_parse ht, fun values hvalues => ?_⟩
    rw [display_eq_of_length_le ht hvalues, labelText]
    cases t.label <;> rfl
  · intro fault hfault
    rw [readSlots_of_parse_error hfault] at hjustified
    cases hjustified with
    | refused _ hbrace => exact hbrace

/-- Characters of two bytes before and within a placeholder. -/
example : (parse "é+{Zähler:1/2}d{n}@ß").toOption.map (fun t =>
    t.placeholders.map fun p => (p.start, p.stop, p.expression)) =
      some [(3, 16, "\x7bZähler:1/2\x7d"), (17, 20, "\x7bn\x7d")] := by cbv

end Template

end RollMenu
