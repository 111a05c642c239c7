import RollMenu.Proofs.HonestRun
import RollMenu.Proofs.LawfulStore
import RollMenu.Proofs.Shown

/-!
# No dead buttons

Whatever the service answers, the message is replaced by the prompt in the answer, and its
buttons are all that a user has to go on. They were written from what a click brought
along, which may have been forged, or from a selection that somebody else holds, or from
one that was just completed. The main statement is that none of this shows: a button of
any prompt that was ever returned is taken when a user presses it who may, now or later,
and nothing but the roll itself can fail.

The argument has two halves that meet in `Shown`. Every prompt in an answer shows only
parts that the menu shows, by cases on how the answer came about. And whatever a menu
shows is read back, replays and is taken, by `Shown.separable` and `Shown.taken`.
-/

namespace RollMenu

variable {σ ε : Type} [Store σ]

namespace Service

/-- The service has an engine for the configuration, and its template can be compiled and has no
reserved character. -/
structure Accepted (svc : Service ε) (config : Config) (flow : Flow) : Prop where
  engine : ∃ engine, svc.engine config.engine = some engine
  flow : Flow.ofConfig svc.limits config = .ok flow
  source : ∀ c ∈ config.template.toList, Validation.isReserved c = false

/-- The responses to a click that is taken, and the failed rolls. -/
inductive Answered : Except ServiceError ClickResponse → Prop where
  | ok {response : ClickResponse} (h : response.outcome.Taken) : Answered (.ok response)
  | notRolled (e : RollError) : Answered (.error (.roll e))

/-- On any message, the button can be read and is answered whoever may click it. -/
def Alive (svc : Service ε) (id : ConfigId) (b : Button) (w : World σ ε) : Prop :=
  ∀ message user, MayClick w.store message user →
    (∃ parts, WireId.decode b.id = .ok parts) ∧
      Answered (svc.handleClick id message b.id user w).1

variable {svc : Service ε} {id : ConfigId} {config : Config} {flow : Flow} {message : UInt64}
  {wire user : String} {w : World σ ε}

/-! ## What is accepted -/

theorem reserved_of_validate {limits : Limits} {complaint : String → Option String}
    (h : Validation.validate limits config complaint = .ok ()) :
    ∀ c ∈ config.template.toList, Validation.isReserved c = false := by
  unfold Validation.validate Validation.report at h
  split at h
  · cases h
  · rename_i hreserved
    exact Validation.firstReserved_eq_none_iff.mp hreserved

theorem accepted_of_configure {store store' : σ} {prompt : Prompt}
    (h : svc.configure id config store = (.ok prompt, store')) :
    ∃ flow, svc.Accepted config flow ∧ prompt = flow.prompt {} := by
  obtain ⟨engine, flow, hengine, hvalid, hflow, -, hprompt⟩ := configure_ok h
  exact ⟨flow, ⟨⟨engine, hengine⟩, hflow, reserved_of_validate hvalid⟩, hprompt⟩

namespace Accepted

theorem compile (h : svc.Accepted config flow) :
    Menu.compile svc.limits config.template = .ok flow.menu :=
  (Flow.ofConfig_ok h.flow).2

theorem config_eq (h : svc.Accepted config flow) : flow.config = config :=
  (Flow.ofConfig_ok h.flow).1

end Accepted

/-! ## What is returned -/

/-- The prompt after a click that is taken. -/
theorem shown_of_taken {p : Progress} {clicked : String} {outcome : Outcome}
    (h : flow.click p clicked user = outcome) (htaken : outcome.Taken) :
    ∀ b ∈ (flow.prompt outcome.progress).buttons,
      ∃ parts, flow.menu.Shown parts ∧ b.id = parts.encode := by
  subst h
  intro b hb
  exact Menu.shown_of_mem_prompt (Menu.checkSelections_of_taken htaken) hb

/-- **Every prompt in an answer shows only what the menu shows.** -/
theorem shown_of_response {response : ClickResponse} {w' : World σ ε}
    (hflow : Flow.ofConfig svc.limits config = .ok flow)
    (hstored : Store.loadConfig w.store id = .ok (some config))
    (h : svc.handleClick id message wire user w = (.ok response, w')) :
    ∀ b ∈ response.prompt.buttons, ∃ parts, flow.menu.Shown parts ∧ b.id = parts.encode := by
  have hcase := svc.handleClick_cases id message wire user w
  rw [h] at hcase
  intro b hb
  cases hcase with
  | @answered config' parts flow' _ hload _ _ hflow' hanswer =>
    obtain rfl := Option.some.inj (Except.ok.inj (hload.symm.trans hstored))
    obtain rfl := Except.ok.inj (hflow'.symm.trans hflow)
    cases hanswer with
    | @continued p hclick => exact shown_of_taken hclick (.continued p) b hb
    | @cleared p hclick => exact shown_of_taken hclick (.cleared p) b hb
    | rolled => exact Menu.shown_of_mem_prompt Menu.checkSelections_nil hb
    | @ignored p why hclick =>
      -- forged selections are replaced by none, all others replay
      have hprompt : b ∈ (promptAfterRefusal flow' p).buttons := hb
      unfold promptAfterRefusal at hprompt
      split at hprompt
      · rename_i hcheck
        exact Menu.shown_of_mem_prompt hcheck hprompt
      · exact Menu.shown_of_mem_prompt Menu.checkSelections_nil hprompt

/-! ## What is clicked -/

/-- **Whatever the menu shows is answered.** -/
theorem answered_of_shown {parts : WireId}
    (hcommand : fieldSeparator ∉ svc.limits.commandName.toList)
    (haccepted : svc.Accepted config flow)
    (hstored : Store.loadConfig w.store id = .ok (some config))
    (hshown : flow.menu.Shown parts) (hmay : MayClick w.store message user) :
    WireId.decode parts.encode = .ok parts ∧
      Answered (svc.handleClick id message parts.encode user w).1 := by
  have hcompiled := Menu.compiledFrom_of_compile haccepted.compile
  have hdecode := WireId.decode_encode (hshown.separable hcompiled haccepted.source hcommand)
  have htaken : (flow.click (carried w.store message parts) parts.click user).Taken :=
    hshown.taken hcompiled.numbered (Menu.lockedOut_eq_none_iff.mpr hmay) _
  refine ⟨hdecode, ?_⟩
  have hcase := svc.handleClick_cases id message parts.encode user w
  generalize svc.handleClick id message parts.encode user w = result at hcase
  cases hcase with
  | unreadable hload | notFound hload => rw [hstored] at hload; cases hload
  | undecodable _ hdecode' => rw [hdecode] at hdecode'; cases hdecode'
  | mismatch _ hdecode' hne =>
    obtain rfl := Except.ok.inj (hdecode'.symm.trans hdecode)
    exact absurd (hshown.command.trans (congrArg Limits.commandName hcompiled.limits_eq)) hne
  | uncompilable hload _ _ hflow =>
    obtain rfl := Option.some.inj (Except.ok.inj (hload.symm.trans hstored))
    rw [haccepted.flow] at hflow
    cases hflow
  | @answered config' parts' flow' _ hload hdecode' _ hflow hanswer =>
    obtain rfl := Option.some.inj (Except.ok.inj (hload.symm.trans hstored))
    obtain rfl := Except.ok.inj (hdecode'.symm.trans hdecode)
    obtain rfl := Except.ok.inj (hflow.symm.trans haccepted.flow)
    -- the click is taken, so what is left is how the roll goes
    cases hanswer with
    | @continued p _ => exact .ok (.continued p)
    | @cleared p _ => exact .ok (.cleared p)
    | @rolled p roll _ _ _ _ _ _ => exact .ok (.completed p roll)
    | @notRolled _ _ _ e _ _ _ _ => exact .notRolled e
    | ignored hclick => rw [hclick] at htaken; cases htaken
    | unknownEngine _ hengine =>
      obtain ⟨engine, hsome⟩ := haccepted.engine
      rw [haccepted.config_eq, hsome] at hengine
      cases hengine

/-- So the button is alive wherever the configuration is stored. -/
theorem alive_of_shown {b : Button} (hcommand : fieldSeparator ∉ svc.limits.commandName.toList)
    (haccepted : svc.Accepted config flow)
    (hstored : Store.loadConfig w.store id = .ok (some config))
    (h : ∃ parts, flow.menu.Shown parts ∧ b.id = parts.encode) : svc.Alive id b w := by
  intro message user hmay
  obtain ⟨parts, hshown, hid⟩ := h
  obtain ⟨hdecode, hanswered⟩ := answered_of_shown hcommand haccepted hstored hshown hmay
  rw [hid]
  exact ⟨⟨parts, hdecode⟩, hanswered⟩

/-! ## Runs of the service -/

variable [LawfulStore σ]

/--
**No prompt has a dead button.** From a configuration on that the service accepts, each button
of its first prompt stays alive, and so does each button of the prompt in any answer,
whatever was clicked by whom to get it.
-/
theorem alive_of_returned {first : Prompt} {store : σ} {w₀ w : World σ ε}
    (hcommand : fieldSeparator ∉ svc.limits.commandName.toList)
    (hconfigure : svc.configure id config w₀.store = (.ok first, store))
    (hw : svc.Later { w₀ with store } w) :
    (∀ b ∈ first.buttons, svc.Alive id b w) ∧
      ∀ message wire user response w',
        svc.handleClick id message wire user w = (.ok response, w') →
          ∀ later, svc.Later w' later → ∀ b ∈ response.prompt.buttons, svc.Alive id b later := by
  obtain ⟨flow, haccepted, rfl⟩ := accepted_of_configure hconfigure
  have hstored : Store.loadConfig w.store id = .ok (some config) :=
    stored_of_later (stored_of_configure hconfigure) hw
  constructor
  · intro b hb
    exact alive_of_shown hcommand haccepted hstored
      (Menu.shown_of_mem_prompt Menu.checkSelections_nil hb)
  · intro message wire user response w' hclick later hlater b hb
    have hnext : svc.Later w w' := by
      have hclicked := (Later.refl : svc.Later w w).clicked id message wire user
      rwa [hclick] at hclicked
    exact alive_of_shown hcommand haccepted (stored_of_later hstored (hnext.trans hlater))
      (shown_of_response haccepted.flow hstored hclick b hb)

/-- A click on what is not offered, after a selection that nobody has made. -/
theorem alive_of_returned_after_forgery :
    ∃ response w,
      (Service.constant 7).handleClick ⟨1⟩ 5 "custom_parameter\x1e1\x1e\x1eid9" "mallory"
        (World.configured (Service.constant 7) ⟨1⟩ { template := "{A:1/2@!Two}+{B:3/4}" }) =
          (.ok response, w) ∧
      response.outcome = .ignored { selections := ["1"] } (.notOffered "id9" "{B:3/4}") ∧
      response.prompt.buttons.length = 3 ∧
      ∀ b ∈ response.prompt.buttons, (Service.constant 7).Alive ⟨1⟩ b w := by
  obtain ⟨first, hfirst, -⟩ := exists_of_map_ok (by cbv :
    ((Service.constant 7).configure ⟨1⟩ { template := "{A:1/2@!Two}+{B:3/4}" }
      ({} : MemoryStore)).1.map (fun _ => ()) = .ok ())
  obtain ⟨response, hresponse, hshown⟩ := exists_of_map_ok (by cbv :
    ((Service.constant 7).handleClick ⟨1⟩ 5 "custom_parameter\x1e1\x1e\x1eid9" "mallory"
      (World.configured (Service.constant 7) ⟨1⟩ { template := "{A:1/2@!Two}+{B:3/4}" })).1.map
        (fun response => (response.outcome, response.prompt.buttons.length)) =
          .ok (.ignored { selections := ["1"] } (.notOffered "id9" "{B:3/4}"), 3))
  obtain ⟨houtcome, hcount⟩ := Prod.mk.inj hshown
  refine ⟨response, _, Prod.ext hresponse rfl, houtcome, hcount, ?_⟩
  have hconfigure : (Service.constant 7).configure ⟨1⟩ { template := "{A:1/2@!Two}+{B:3/4}" }
      (⟨{}, ()⟩ : World MemoryStore Unit).store = (.ok first, _) := Prod.ext hfirst rfl
  have hreturned := alive_of_returned (by decide) hconfigure .refl
  exact hreturned.2 5 _ "mallory" response _ (Prod.ext hresponse rfl) _ .refl

end Service

end RollMenu
