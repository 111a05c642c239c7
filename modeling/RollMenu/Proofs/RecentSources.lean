import Mathlib
import RollMenu.Proofs.EvaluatorMemory

/-!
# Which texts an evaluator remembers

An evaluator is asked for the tree of a text, for what is wrong with it, or for a roll of it,
and every one of these calls begins by getting the tree. `recent` says which texts a list of
calls has asked for, each where it was asked for last. A text that does not read is as good as
never asked for.

The main statement is that the memory is the front part of that list, as long as it has room
for. One call is enough to see why: it moves its text to the front, and what has to go is at the
back, whether the text was there before or not (`names_get`). The list of recent texts moves in
the same way (`recent_concat_of_ok`), and cutting it off before or after the move makes no
difference.
-/

namespace RollMenu

/-! ## Lists that keep the last occurrence -/

section

variable {α : Type} [DecidableEq α]

theorem dedup_concat (xs : List α) (x : α) : (xs ++ [x]).dedup = xs.dedup.erase x ++ [x] := by
  induction xs with
  | nil => rfl
  | cons y ys ih =>
    by_cases hy : y ∈ ys
    · rw [List.cons_append, List.dedup_cons_of_mem (List.mem_append_left _ hy), ih,
        List.dedup_cons_of_mem hy]
    · rw [List.cons_append, List.dedup_cons_of_notMem hy]
      by_cases hx : y = x
      · -- the element in front comes once more at the end, and nowhere in between
        subst hx
        rw [List.dedup_cons_of_mem (by simp), ih, List.erase_cons_head,
          List.erase_of_not_mem (by simpa using hy)]
      · rw [List.dedup_cons_of_notMem (by simp [hy, hx]), ih,
          List.erase_cons_tail (by simpa using hx), List.cons_append]

theorem reverse_dedup_concat (xs : List α) (x : α) :
    (xs ++ [x]).dedup.reverse = x :: xs.dedup.reverse.erase x := by
  have hnodup := List.nodup_dedup xs
  rw [dedup_concat, List.reverse_append, hnodup.erase_eq_filter,
    (List.nodup_reverse.mpr hnodup).erase_eq_filter, List.filter_reverse]
  rfl

/-- What moves to the front of a list may move to the front of its first part as well. -/
theorem take_cons_erase_take (n : Nat) (x : α) (xs : List α) :
    (x :: (xs.take n).erase x).take n = (x :: xs.erase x).take n := by
  cases n with
  | zero => rfl
  | succ n =>
    rw [List.take_succ_cons, List.take_succ_cons]
    congr 1
    induction xs generalizing n with
    | nil => simp
    | cons y ys ih =>
      by_cases hx : y = x
      · subst hx
        simp
      · have hne : ¬ (y == x) = true := by simpa using hx
        rw [List.take_succ_cons, List.erase_cons_tail hne, List.erase_cons_tail hne]
        cases n with
        | zero => rfl
        | succ n => rw [List.take_succ_cons, List.take_succ_cons, ih]

end

namespace Dice

/-! ## One call -/

namespace Cache

variable {α : Type} {c c' : Cache α} {name : String} {value : α}

/-- The names of the entries, the one used last in front. -/
def names (c : Cache α) : List String := c.entries.map Prod.fst

/-- A text is found exactly if there is an entry of its name. -/
theorem isSome_touch_iff : (c.touch name).isSome = true ↔ name ∈ c.names := by
  have hfound : (c.touch name).isSome = (c.entries.find? fun entry => entry.1 == name).isSome := by
    unfold touch
    split
    · rename_i hnone
      rw [hnone, Option.isSome_none, Option.isSome_none]
    · rename_i entry hsome
      rw [hsome, Option.isSome_some, Option.isSome_some]
  simp [hfound, names, List.find?_isSome]

/-- A hit moves its name to the front. -/
theorem names_of_touch (h : c.touch name = some (value, c')) :
    c'.names = name :: c.names.erase name := by
  unfold touch at h
  split at h
  · cases h
  · rename_i entry hsome
    obtain ⟨-, rfl⟩ := Prod.mk.inj (Option.some.inj h)
    have hname : entry.1 = name := by simpa using List.find?_some hsome
    have hrest : (c.entries.eraseP fun e => e.1 == name).map Prod.fst = c.names.erase name := by
      rw [names, List.erase_eq_eraseP, List.eraseP_map]
      simp only [Function.comp_def, BEq.comm]
    rw [names, List.map_cons, hname, hrest]

/-- A new name comes in front, and the last one of a full cache goes. -/
theorem names_push (h : 1 ≤ c.capacity) :
    (c.push name value).names = (name :: c.names).take c.capacity := by
  obtain ⟨n, hn⟩ := Nat.exists_eq_add_of_le' h
  rw [names, push, hn, List.map_cons, List.map_take, Nat.add_sub_cancel, List.take_succ_cons, names]

end Cache

namespace Evaluator

variable {ev : Evaluator} {source : String}

/-- The capacity never changes. -/
theorem capacity_get (ev : Evaluator) (source : String) :
    (ev.get source).2.cache.capacity = ev.cache.capacity := by
  unfold get
  split
  · rename_i parsed cache htouch
    unfold Cache.touch at htouch
    split at htouch
    · cases htouch
    · obtain ⟨-, rfl⟩ := Prod.mk.inj (Option.some.inj htouch)
      rfl
  · split
    · rfl
    · rfl

/-- **A text that reads moves to the front, and the memory stays within its capacity.** Whether it
was there before makes no difference. -/
theorem names_get (hcapacity : 1 ≤ ev.cache.capacity)
    (hfits : ev.cache.names.length ≤ ev.cache.capacity) {e : Expression}
    (he : parse source = .ok e) :
    (ev.get source).2.cache.names =
      (source :: ev.cache.names.erase source).take ev.cache.capacity := by
  unfold get
  split
  · rename_i parsed cache htouch
    -- a hit leaves as many names as there were
    have hmem : source ∈ ev.cache.names := Cache.isSome_touch_iff.mp (by rw [htouch]; rfl)
    have hlength : (source :: ev.cache.names.erase source).length ≤ ev.cache.capacity := by
      rw [List.length_cons, List.length_erase_add_one hmem]
      exact hfits
    rw [List.take_of_length_le hlength]
    exact Cache.names_of_touch htouch
  · rename_i htouch
    have hmem : source ∉ ev.cache.names := by
      rw [← Cache.isSome_touch_iff, htouch]
      exact Bool.false_ne_true
    rw [he, List.erase_of_not_mem hmem]
    exact Cache.names_push hcapacity

/-- **A text that does not read leaves the memory as it is**, if it is faithful. -/
theorem Faithful.get_of_error (h : ev.Faithful) {e : RollError} (he : parse source = .error e) :
    (ev.get source).2 = ev := by
  unfold Evaluator.get
  split
  · rename_i parsed cache htouch
    have hread := h _ (Cache.mem_of_touch htouch).1
    rw [he] at hread
    cases hread
  · rw [he]

end Evaluator

/-! ## Any number of calls -/

/-- A call of an evaluator. Every roll brings its own random source. -/
inductive Call where
  | get (source : String)
  | complaint (source : String)
  | roll {σ : Type} (face : FaceSource σ) (source : String) (s : σ)

namespace Call

/-- The text that a call asks for. -/
def source : Call → String
  | get source | complaint source | roll _ source _ => source

/-- What a call gives back. -/
def Answer : Call → Type
  | get _ => Except RollError Expression
  | complaint _ => Option String
  | @roll σ _ _ _ => Except RollError RollResult × σ

/-- Makes a call: the answer, and the evaluator after it. -/
def make (ev : Evaluator) : (call : Call) → call.Answer × Evaluator
  | get source => ((ev.get source).1.map Parsed.expression, (ev.get source).2)
  | complaint source => ev.complaint source
  | roll face source s => ev.roll face source s

/-- The answer to a call where nothing is remembered. -/
def plainAnswer : (call : Call) → call.Answer
  | get source => parse source
  | complaint source => Dice.complaint source
  | roll face source s => Dice.roll face source s

/-- Every call leaves what getting its text leaves. -/
theorem snd_make (ev : Evaluator) (call : Call) : (call.make ev).2 = (ev.get call.source).2 := by
  cases call with
  | get source => rfl
  | complaint source => exact Evaluator.snd_complaint ev source
  | roll face source s => exact Evaluator.snd_roll ev face source s

end Call

/-- Whether a text reads into an expression. -/
def reads (source : String) : Bool := (parse source).isOk

/-- The texts that have been asked for and that read, each one once, the last one in front. -/
def recent (calls : List Call) : List String :=
  ((calls.map Call.source).filter reads).dedup.reverse

theorem recent_concat_of_ok {calls : List Call} {call : Call} {e : Expression}
    (he : parse call.source = .ok e) :
    recent (calls ++ [call]) = call.source :: (recent calls).erase call.source := by
  have hreads : reads call.source = true := by rw [reads, he]; rfl
  rw [recent, List.map_append, List.filter_append, List.map_singleton,
    List.filter_cons_of_pos hreads, List.filter_nil, reverse_dedup_concat, recent]

theorem recent_concat_of_error {calls : List Call} {call : Call} {e : RollError}
    (he : parse call.source = .error e) : recent (calls ++ [call]) = recent calls := by
  have hreads : ¬ reads call.source = true := by rw [reads, he]; exact Bool.false_ne_true
  rw [recent, List.map_append, List.filter_append, List.map_singleton,
    List.filter_cons_of_neg hreads, List.filter_nil, List.append_nil, recent]

namespace Evaluator

variable {capacity : Nat}

/-- The evaluator after some calls. -/
def after (ev : Evaluator) (calls : List Call) : Evaluator :=
  calls.foldl (fun ev call => (call.make ev).2) ev

theorem after_concat (ev : Evaluator) (calls : List Call) (call : Call) :
    ev.after (calls ++ [call]) = ((ev.after calls).get call.source).2 := by
  rw [after, List.foldl_concat, Call.snd_make, after]

theorem used_after (capacity : Nat) (calls : List Call) : ((empty capacity).after calls).Used := by
  induction calls using List.reverseRecOn with
  | nil => exact .empty capacity
  | append_singleton calls call ih =>
    rw [after_concat]
    exact .get ih call.source

theorem capacity_after (capacity : Nat) (calls : List Call) :
    ((empty capacity).after calls).cache.capacity = capacity := by
  induction calls using List.reverseRecOn with
  | nil => rfl
  | append_singleton calls call ih => rw [after_concat, capacity_get, ih]

/-- **The names in memory are those of the most recent texts.** By induction on the calls, from
the last one back. -/
theorem names_after (hcapacity : 1 ≤ capacity) (calls : List Call) :
    ((empty capacity).after calls).cache.names = (recent calls).take capacity := by
  induction calls using List.reverseRecOn with
  | nil => exact List.take_nil.symm
  | append_singleton calls call ih =>
    have hsame := capacity_after capacity calls
    have hfaithful := (used_after capacity calls).faithful
    rw [after_concat]
    generalize (empty capacity).after calls = ev at ih hsame hfaithful
    subst hsame
    cases he : parse call.source with
    | error e => rw [hfaithful.get_of_error he, ih, recent_concat_of_error he]
    | ok e =>
      have hfits : ev.cache.names.length ≤ ev.cache.capacity := by
        rw [ih]
        exact List.length_take_le _ _
      rw [names_get hcapacity hfits he, ih, recent_concat_of_ok he, take_cons_erase_take]

/-- What is stored under a name is what the name reads into. -/
theorem Faithful.entries_eq {ev : Evaluator} (h : ev.Faithful) :
    ev.cache.entries.map (fun entry => (entry.1, Except.ok entry.2.expression)) =
      ev.cache.names.map fun source => (source, parse source) := by
  rw [Cache.names, List.map_map]
  refine List.map_congr_left ?_
  intro entry hentry
  rw [Function.comp_apply, h entry hentry]

end Evaluator

/-- The answer to a call does not depend on what is remembered. -/
theorem Call.fst_make {ev : Evaluator} (h : ev.Used) (call : Call) :
    (call.make ev).1 = call.plainAnswer := by
  cases call with
  | get source => exact (h.faithful.get source).1
  | complaint source => exact h.complaint_eq source
  | roll face source s => exact h.roll_eq face source s

/--
**The memory keeps the most recent texts.** Before any call it holds as many of the texts asked
for last as its capacity allows, in that order, each with what it reads into. So a call finds its
text exactly if that is among them, there are never more entries than the capacity, a text that
does not read changes nothing, and every answer is the one that would be given without a memory.
-/
theorem Evaluator.remembers_recent {capacity : Nat} (hcapacity : 1 ≤ capacity)
    (before : List Call) (call : Call) :
    let ev := (empty capacity).after before
    let kept := (recent before).take capacity
    ev.cache.entries.map (fun entry => (entry.1, Except.ok entry.2.expression)) =
        kept.map (fun source => (source, parse source)) ∧
      ((ev.cache.touch call.source).isSome = true ↔ call.source ∈ kept) ∧
      ev.cache.size ≤ capacity ∧
      (∀ e, parse call.source = .error e → (call.make ev).2 = ev) ∧
      (call.make ev).1 = call.plainAnswer := by
  intro ev kept
  have hnames : ev.cache.names = kept := names_after hcapacity before
  have hused : ev.Used := used_after capacity before
  refine ⟨?_, ?_, ?_, ?_, Call.fst_make hused call⟩
  · rw [hused.faithful.entries_eq, hnames]
  · rw [Cache.isSome_touch_iff, hnames]
  · calc ev.cache.size
        = ev.cache.names.length := (List.length_map Prod.fst).symm
      _ = kept.length := by rw [hnames]
      _ ≤ capacity := List.length_take_le _ _
  · intro e he
    rw [Call.snd_make]
    exact hused.faithful.get_of_error he

/-- A cache of two. The text `2` is asked for again after it has been given up: the text `1` was
asked for in between, and so was one that does not read. -/
theorem Evaluator.remembers_recent_given_up :
    let before := [.get "1", .complaint "2", .get "1", .get "(", .get "3"]
    let ev := (empty 2).after before
    1 ≤ 2 ∧
      ev.cache.entries.map (fun entry => (entry.1, Except.ok entry.2.expression)) =
        [("3", parse "3"), ("1", parse "1")] ∧
      (ev.cache.touch "2").isSome = false ∧ ev.cache.size ≤ 2 ∧
      ((Call.get "2").make ev).1 = parse "2" := by
  intro before ev
  have hrecent : (recent before).take 2 = ["3", "1"] := by cbv
  obtain ⟨hentries, hhit, hsize, -, hanswer⟩ :=
    remembers_recent (by decide : 1 ≤ 2) before (.get "2")
  rw [hrecent] at hentries hhit
  refine ⟨by decide, hentries, ?_, hsize, hanswer⟩
  have hgone : "2" ∉ ["3", "1"] := by decide
  exact Bool.eq_false_iff.mpr (mt hhit.mp hgone)

end Dice

end RollMenu
