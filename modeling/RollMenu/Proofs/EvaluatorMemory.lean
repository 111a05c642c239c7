import RollMenu.Dice.Evaluator

/-!
# What an evaluator remembers

An evaluator keeps the trees of texts that it has read, and its answers come from there
when they can. The tree that is stored under a text is what the text reads into, and every
call keeps that so. Hence an answer is the same as without a memory: no call before it
makes a difference, whether the text was among them or has been given up since.
-/

namespace RollMenu.Dice

namespace Cache

variable {α : Type} {c c' : Cache α} {name : String} {value : α} {entry : String × α}

/-- A hit is an entry of that name, and it leaves the same entries in another order. -/
theorem mem_of_touch (h : c.touch name = some (value, c')) :
    (name, value) ∈ c.entries ∧ ∀ entry ∈ c'.entries, entry ∈ c.entries := by
  unfold touch at h
  split at h
  · cases h
  · rename_i found hfound
    obtain ⟨rfl, rfl⟩ := Prod.mk.inj (Option.some.inj h)
    have hmem := List.mem_of_find?_eq_some hfound
    obtain rfl : found.1 = name := by simpa using List.find?_some hfound
    refine ⟨hmem, ?_⟩
    intro entry hentry
    rcases List.mem_cons.mp hentry with rfl | hentry
    · exact hmem
    · exact List.mem_of_mem_eraseP hentry

/-- A new entry comes first, and all others were there before. -/
theorem mem_of_push (h : entry ∈ (c.push name value).entries) :
    entry = (name, value) ∨ entry ∈ c.entries := by
  rcases List.mem_cons.mp h with h | h
  · exact Or.inl h
  · exact Or.inr (List.mem_of_mem_take h)

end Cache

namespace Evaluator

variable {σ : Type} {ev : Evaluator}

/-- The memories that calls lead to. They start out empty. -/
inductive Used : Evaluator → Prop where
  | empty (capacity : Nat) : Used (.empty capacity)
  | get {ev : Evaluator} (h : Used ev) (source : String) : Used (ev.get source).2
  | complaint {ev : Evaluator} (h : Used ev) (source : String) : Used (ev.complaint source).2
  | roll {σ : Type} {ev : Evaluator} (h : Used ev) (face : FaceSource σ) (source : String) (s : σ) :
      Used (ev.roll face source s).2

/-- What is stored under a text is what the text reads into. -/
def Faithful (ev : Evaluator) : Prop :=
  ∀ entry ∈ ev.cache.entries, parse entry.1 = .ok entry.2.expression

/-- **Getting an expression is reading it**, and what is remembered stays faithful. -/
theorem Faithful.get (h : ev.Faithful) (source : String) :
    (ev.get source).1.map Parsed.expression = parse source ∧ (ev.get source).2.Faithful := by
  unfold Evaluator.get
  split
  · -- a hit leaves the same entries, only the order changes
    rename_i parsed cache htouch
    obtain ⟨hmem, hold⟩ := Cache.mem_of_touch htouch
    exact ⟨(h _ hmem).symm, fun entry hentry => h entry (hold entry hentry)⟩
  · cases hparse : parse source with
    | error e => exact ⟨rfl, h⟩
    | ok expression =>
      refine ⟨rfl, ?_⟩
      -- on a miss the new entry is what was just read, and some old ones may be given up
      intro entry hentry
      rcases Cache.mem_of_push hentry with rfl | hentry
      · exact hparse
      · exact h entry hentry

/-- Looking for a problem leaves what getting the expression leaves. -/
theorem snd_complaint (ev : Evaluator) (source : String) :
    (ev.complaint source).2 = (ev.get source).2 := by
  unfold complaint
  rcases ev.get source with ⟨_ | parsed, ev'⟩
  · rfl
  · dsimp only
    split <;> rfl

/-- And so does rolling. -/
theorem snd_roll (ev : Evaluator) (face : FaceSource σ) (source : String) (s : σ) :
    (ev.roll face source s).2 = (ev.get source).2 := by
  unfold roll
  rcases ev.get source with ⟨_ | parsed, ev'⟩ <;> rfl

theorem Used.faithful (h : ev.Used) : ev.Faithful := by
  induction h with
  | empty capacity =>
    intro entry hentry
    cases hentry
  | get _ source ih => exact (ih.get source).2
  | complaint _ source ih =>
    rw [snd_complaint]
    exact (ih.get source).2
  | roll _ face source s ih =>
    rw [snd_roll]
    exact (ih.get source).2

/-- **The memory does not show in a complaint.** -/
theorem Used.complaint_eq (h : ev.Used) (source : String) :
    (ev.complaint source).1 = Dice.complaint source := by
  have hget := (h.faithful.get source).1
  unfold Evaluator.complaint Dice.complaint
  rw [← hget]
  rcases ev.get source with ⟨e | parsed, ev'⟩
  · rfl
  · dsimp only [Except.map]
    split <;> rfl

/-- **The memory does not show in a roll.** -/
theorem Used.roll_eq (h : ev.Used) (face : FaceSource σ) (source : String) (s : σ) :
    (ev.roll face source s).1 = Dice.roll face source s := by
  have hget := (h.faithful.get source).1
  unfold Evaluator.roll Dice.roll
  rw [← hget]
  rcases ev.get source with ⟨e | parsed, ev'⟩ <;> rfl

end Evaluator

end RollMenu.Dice
