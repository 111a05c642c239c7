import Mathlib
import RollMenu.Proofs.LawfulStore
import RollMenu.Proofs.Replay

/-!
# Who holds a message

The state of a selection is split: a button carries the values, and the store knows who
owns them. The owner is written when a selection goes on, dropped when it is cleared or
rolled, and left alone otherwise, so whether two users can get into each other's way is
a question about whole runs of calls, with any users, messages, configurations and ids in
any order.

`Effect` says what a single call does to the store. From it two facts follow by induction
on the run, and the main statement puts them together. Every selection that is stored was
saved by the user it is locked for, and makes sense to the menu of that call. And from the
moment a selection goes on for a user, nobody else gets anything done on the message until
that user clears it or rolls.
-/

namespace RollMenu

theorem Flow.clickCase {flow : Flow} {p : Progress} {clicked user : String} {outcome : Outcome}
    (h : flow.click p clicked user = outcome) :
    flow.menu.ClickCase p clicked user flow.config.answerFormat outcome := by
  rw [← h]
  exact flow.menu.click_cases p clicked user flow.config.answerFormat

/-- A call of the click handler. -/
structure Call where
  config : ConfigId
  message : UInt64
  wire : String
  user : String

namespace Service

variable {σ ε : Type} [Store σ]

/-- Handles a call. -/
def call (svc : Service ε) (c : Call) (w : World σ ε) :
    Except ServiceError ClickResponse × World σ ε :=
  svc.handleClick c.config c.message c.wire c.user w

/-- The world that some calls leave behind. -/
def after (svc : Service ε) (w : World σ ε) (calls : List Call) : World σ ε :=
  calls.foldl (fun w c => (svc.call c w).2) w

theorem after_concat (svc : Service ε) (w : World σ ε) (calls : List Call) (c : Call) :
    svc.after w (calls ++ [c]) = (svc.call c (svc.after w calls)).2 := by
  rw [after, List.foldl_append]
  rfl

theorem after_append (svc : Service ε) (w : World σ ε) (before later : List Call) :
    svc.after w (before ++ later) = svc.after (svc.after w before) later :=
  List.foldl_append

/-! ## What a response says -/

/-- The selection goes on and stands at `p`. -/
def Continues (result : Except ServiceError ClickResponse) (p : Progress) : Prop :=
  ∃ response, result = .ok response ∧ response.outcome = .continued p

/-- The selection is cleared or rolled. -/
def Releases (result : Except ServiceError ClickResponse) : Prop :=
  ∃ response, result = .ok response ∧
    ((∃ p, response.outcome = .cleared p) ∨ ∃ p roll, response.outcome = .completed p roll)

/-- The call fails, or it is ignored because `owner` holds the message. -/
def Refused (owner user : String) (result : Except ServiceError ClickResponse) : Prop :=
  (∃ e, result = .error e) ∨ ∃ response, result = .ok response ∧ response.answer = none ∧
    ∃ p, response.outcome = .ignored p (.lockedBy owner user)

theorem not_continues_error (e : ServiceError) (p : Progress) : ¬ Continues (.error e) p := by
  rintro ⟨response, h, -⟩
  cases h

/-! ## What a call does to the store -/

/-- A selection that a call on this store may save. -/
structure Saves (svc : Service ε) (c : Call) (store : σ) (p : Progress) : Prop where
  /-- It belongs to the user who clicks. -/
  lock : p.lock = some c.user
  /-- Something is selected. -/
  selections_ne_nil : p.selections ≠ []
  /-- To the menu of the configuration it is a selection that replays and is incomplete. -/
  replays : ∃ config flow, Store.loadConfig store c.config = .ok (some config) ∧
    Flow.ofConfig svc.limits config = .ok flow ∧
    flow.menu.checkSelections p.selections = .ok () ∧ flow.menu.status p ≠ .complete

/-- What a call does to the store, and who may do it. -/
inductive Effect (svc : Service ε) (c : Call) (w : World σ ε)
    (result : Except ServiceError ClickResponse) : σ → Prop where
  | kept (h : ∀ p, ¬ Continues result p) : Effect svc c w result w.store
  | saved {p : Progress} (hmay : MayClick w.store c.message c.user) (h : Continues result p)
      (hp : svc.Saves c w.store p) :
      Effect svc c w result (persist c.message (some p) w.store)
  | released (hmay : MayClick w.store c.message c.user) (h : Releases result) :
      Effect svc c w result (persist c.message none w.store)

theorem effect_of_call (svc : Service ε) (c : Call) (w : World σ ε) :
    svc.Effect c w (svc.call c w).1 (svc.call c w).2.store := by
  have hcase := svc.handleClick_cases c.config c.message c.wire c.user w
  rw [call]
  generalize svc.handleClick c.config c.message c.wire c.user w = result at hcase
  cases hcase with
  | unreadable | notFound | undecodable | mismatch | uncompilable =>
    exact .kept (not_continues_error _)
  | @answered config parts flow _ hload _ _ hflow hanswer =>
    cases hanswer with
    | unknownEngine | notRolled => exact .kept (not_continues_error _)
    | ignored =>
      refine .kept ?_
      rintro p ⟨response, h, houtcome⟩
      obtain rfl := Except.ok.inj h
      cases houtcome
    | @continued p hclick =>
      cases Flow.clickCase hclick with
      | continued hfree hclear hcheck hp hc hnext =>
        refine .saved (Menu.lockedOut_eq_none_iff.mp hfree) ⟨_, rfl, rfl⟩ ⟨rfl, ?_, ?_⟩
        · exact List.append_ne_nil_of_right_ne_nil _ (List.cons_ne_nil _ _)
        · refine ⟨config, flow, hload, hflow, ?_, ?_⟩
          · exact Menu.checkSelections_choose hcheck hp (Parameter.mem_of_choice hc)
          · exact Menu.status_ne_complete hnext
    | @cleared p hclick =>
      cases Flow.clickCase hclick with
      | cleared hfree _ =>
        exact .released (Menu.lockedOut_eq_none_iff.mp hfree) ⟨_, rfl, Or.inl ⟨_, rfl⟩⟩
    | @rolled p roll _ _ _ hclick _ _ =>
      cases Flow.clickCase hclick with
      | completed hfree =>
        exact .released (Menu.lockedOut_eq_none_iff.mp hfree) ⟨_, rfl, Or.inr ⟨_, _, rfl⟩⟩

/-- **Whoever does not hold the message is refused.** -/
theorem refused_of_lockOwner {svc : Service ε} {c : Call} {w : World σ ε} {owner : String}
    (hlock : lockOwner w.store c.message = some owner) (hne : c.user ≠ owner) :
    Refused owner c.user (svc.call c w).1 ∧ (svc.call c w).2.store = w.store := by
  have hcase := svc.handleClick_cases c.config c.message c.wire c.user w
  rw [call]
  generalize svc.handleClick c.config c.message c.wire c.user w = result at hcase
  cases hcase with
  | unreadable | notFound | undecodable | mismatch | uncompilable => exact ⟨Or.inl ⟨_, rfl⟩, rfl⟩
  | @answered config parts flow _ _ _ _ _ hanswer =>
    have hclick : flow.click (carried w.store c.message parts) parts.click c.user =
        .ignored (carried w.store c.message parts) (.lockedBy owner c.user) :=
      Menu.click_of_lock hlock hne.symm
    cases hanswer with
    | ignored hignored =>
      rw [hclick] at hignored
      obtain ⟨rfl, rfl⟩ := Outcome.ignored.inj hignored
      exact ⟨Or.inr ⟨_, rfl, rfl, _, rfl⟩, rfl⟩
    | continued h | cleared h | unknownEngine h | notRolled h | rolled h =>
      rw [hclick] at h
      cases h

/-! ## What is stored along a run -/

section Lawful

variable [LawfulStore σ] {svc : Service ε} {message : UInt64} {user : String}

open LawfulStore

theorem lockOwner_eq (store : σ) (message : UInt64) :
    lockOwner store message = ((contents store).progress message).bind Progress.lock := by
  rw [lockOwner, loadProgress_eq]
  cases (contents store).progress message <;> rfl

theorem progress_persist (store : σ) (message other : UInt64) (p : Option Progress) :
    (contents (persist message p store)).progress other =
      if other = message then p else (contents store).progress other := by
  rw [contents_persist]
  rfl

/-- A selection that appears on a message was saved by this call. -/
theorem progress_call {c : Call} {w : World σ ε} {p : Progress}
    (h : (contents (svc.call c w).2.store).progress message = some p) :
    (contents w.store).progress message = some p ∨
      c.message = message ∧ Continues (svc.call c w).1 p ∧ svc.Saves c w.store p := by
  have heffect := svc.effect_of_call c w
  generalize (svc.call c w).2.store = store at heffect h
  cases heffect with
  | kept => exact Or.inl h
  | saved _ hcontinues hsaves =>
    rw [progress_persist] at h
    split at h
    · rename_i heq
      obtain rfl := Option.some.inj h
      exact Or.inr ⟨heq.symm, hcontinues, hsaves⟩
    · exact Or.inl h
  | released =>
    rw [progress_persist] at h
    split at h
    · cases h
    · exact Or.inl h

/-- **What is stored was saved by one of the calls and has been stored ever since.** -/
theorem saved_of_stored {w₀ : World σ ε}
    (hempty : ∀ message, Store.loadProgress w₀.store message = .ok none) {calls : List Call}
    {p : Progress} (h : Store.loadProgress (svc.after w₀ calls).store message = .ok (some p)) :
    ∃ before c later, calls = before ++ c :: later ∧ c.message = message ∧
      Continues (svc.call c (svc.after w₀ before)).1 p ∧
      svc.Saves c (svc.after w₀ before).store p ∧
      ∀ since, since <+: later →
        Store.loadProgress (svc.after w₀ (before ++ c :: since)).store message = .ok (some p) := by
  induction calls using List.reverseRecOn with
  | nil => cases (hempty message).symm.trans h
  | append_singleton calls d ih =>
    have hstored := h
    rw [after_concat, loadProgress_eq] at h
    rcases progress_call (Except.ok.inj h) with hkept | ⟨hmessage, hcontinues, hsaves⟩
    · -- stored before this call, so an earlier one has saved it
      obtain ⟨before, c, later, rfl, hmessage, hcontinues, hsaves, hsince⟩ :=
        ih (by rw [loadProgress_eq, hkept])
      refine ⟨before, c, later ++ [d], by simp, hmessage, hcontinues, hsaves, ?_⟩
      intro since hprefix
      rcases List.prefix_concat_iff.mp hprefix with rfl | hprefix
      · simpa using hstored
      · exact hsince since hprefix
    · refine ⟨calls, d, [], rfl, hmessage, hcontinues, hsaves, ?_⟩
      intro since hprefix
      obtain rfl := List.prefix_nil.mp hprefix
      exact hstored

/-- No call of the user on the message clears the selection or rolls it. -/
def Holds (svc : Service ε) (user : String) (message : UInt64) : World σ ε → List Call → Prop
  | _, [] => True
  | w, c :: cs =>
    ¬ (c.user = user ∧ c.message = message ∧ Releases (svc.call c w).1) ∧
      Holds svc user message (svc.call c w).2 cs

theorem lockOwner_call {c : Call} {w : World σ ε}
    (hlock : lockOwner w.store message = some user)
    (hheld : ¬ (c.user = user ∧ c.message = message ∧ Releases (svc.call c w).1)) :
    lockOwner (svc.call c w).2.store message = some user := by
  have heffect := svc.effect_of_call c w
  -- who may click on the message is its owner
  have howner : MayClick w.store c.message c.user → c.message = message → c.user = user := by
    rintro (hnone | hsome) rfl
    · cases hnone.symm.trans hlock
    · exact Option.some.inj (hsome.symm.trans hlock)
  rw [lockOwner_eq] at hlock ⊢
  generalize (svc.call c w).2.store = store at heffect ⊢
  cases heffect with
  | kept => exact hlock
  | saved hmay _ hsaves =>
    rw [progress_persist]
    split
    · rename_i heq
      rw [Option.bind_some, hsaves.lock, howner hmay heq.symm]
    · exact hlock
  | released hmay hreleases =>
    rw [progress_persist]
    split
    · rename_i heq
      exact absurd ⟨howner hmay heq.symm, heq.symm, hreleases⟩ hheld
    · exact hlock

/-- **The lock stays as long as its owner holds it.** -/
theorem lockOwner_after {w : World σ ε} {calls : List Call}
    (hlock : lockOwner w.store message = some user) (hheld : svc.Holds user message w calls) :
    lockOwner (svc.after w calls).store message = some user := by
  induction calls generalizing w with
  | nil => exact hlock
  | cons c cs ih => exact ih (lockOwner_call hlock hheld.1) hheld.2

theorem lockOwner_of_continues {c : Call} {w : World σ ε} {p : Progress}
    (h : Continues (svc.call c w).1 p) :
    lockOwner (svc.call c w).2.store c.message = some c.user := by
  have heffect := svc.effect_of_call c w
  generalize (svc.call c w).2.store = store at heffect ⊢
  cases heffect with
  | kept hnot => exact absurd h (hnot p)
  | saved _ _ hsaves =>
    rw [lockOwner_eq, progress_persist, if_pos rfl, Option.bind_some, hsaves.lock]
  | released _ hreleases =>
    obtain ⟨response, hresponse, houtcome⟩ := h
    obtain ⟨response', hresponse', hreleased⟩ := hreleases
    obtain rfl := Except.ok.inj (hresponse.symm.trans hresponse')
    rcases hreleased with ⟨_, hreleased⟩ | ⟨_, _, hreleased⟩
    · cases houtcome.symm.trans hreleased
    · cases houtcome.symm.trans hreleased

/--
**Messages are locked over whole runs.** Starting from a store without selections, each
selection that is stored at some point was saved by a call that made the selection go on,
is locked for the user of that call and is one that its menu can lead to and complete.
And once a call has made the selection go on, every call by somebody else is refused and
leaves the store alone, until the owner clears the selection or rolls it.
-/
theorem locked_of_run (svc : Service ε) {w₀ : World σ ε}
    (hempty : ∀ message, Store.loadProgress w₀.store message = .ok none) :
    (∀ calls message p, Store.loadProgress (svc.after w₀ calls).store message = .ok (some p) →
      ∃ before c later, calls = before ++ c :: later ∧ c.message = message ∧
        Continues (svc.call c (svc.after w₀ before)).1 p ∧
        svc.Saves c (svc.after w₀ before).store p ∧
        ∀ since, since <+: later →
          Store.loadProgress (svc.after w₀ (before ++ c :: since)).store message =
            .ok (some p)) ∧
      ∀ before c between d p, Continues (svc.call c (svc.after w₀ before)).1 p →
        svc.Holds c.user c.message (svc.after w₀ (before ++ [c])) between →
        d.message = c.message → d.user ≠ c.user →
        Refused c.user d.user (svc.call d (svc.after w₀ (before ++ c :: between))).1 ∧
          (svc.call d (svc.after w₀ (before ++ c :: between))).2.store =
            (svc.after w₀ (before ++ c :: between)).store := by
  refine ⟨fun calls message p h => saved_of_stored hempty h, ?_⟩
  intro before c between d p hcontinues hheld hmessage huser
  have hlock := lockOwner_of_continues hcontinues
  rw [← after_concat] at hlock
  have hlater := lockOwner_after hlock hheld
  rw [← after_append, List.append_assoc, List.singleton_append, ← hmessage] at hlater
  exact refused_of_lockOwner hlater huser

end Lawful

/-- Alice has selected `1`. Bob tries to clear the message with a button he made up, and gets
nowhere. -/
theorem locked_of_run_forged_clear :
    ∃ w, w = (Service.constant 7).after (World.showing { template := "{A:1/2}+{B:3/4}" } none)
        [⟨.zero, 5, "custom_parameter\x1e\x1e\x1eid1", "alice"⟩] ∧
      Store.loadProgress w.store 5 = .ok (some { selections := ["1"], lock := some "alice" }) ∧
      Refused "alice" "bob"
        ((Service.constant 7).call ⟨.zero, 5, "custom_parameter\x1e2\x1e\x1eclear", "bob"⟩ w).1 ∧
      ((Service.constant 7).call
        ⟨.zero, 5, "custom_parameter\x1e2\x1e\x1eclear", "bob"⟩ w).2.store = w.store := by
  obtain ⟨response, hresponse, houtcome⟩ := exists_of_map_ok (by cbv :
    ((Service.constant 7).call ⟨.zero, 5, "custom_parameter\x1e\x1e\x1eid1", "alice"⟩
      (World.showing { template := "{A:1/2}+{B:3/4}" } none)).1.map ClickResponse.outcome =
        .ok (.continued { selections := ["1"], lock := some "alice" }))
  have hempty : ∀ message, Store.loadProgress
      (World.showing { template := "{A:1/2}+{B:3/4}" } none).store message = .ok none :=
    fun _ => rfl
  obtain ⟨-, hrefused⟩ := locked_of_run (Service.constant 7) hempty
  refine ⟨_, rfl, by cbv, ?_⟩
  exact hrefused [] ⟨.zero, 5, "custom_parameter\x1e\x1e\x1eid1", "alice"⟩ []
    ⟨.zero, 5, "custom_parameter\x1e2\x1e\x1eclear", "bob"⟩ _ ⟨response, hresponse, houtcome⟩
    trivial rfl (by decide)

end Service

end RollMenu
