import Mathlib
import RollMenu.Proofs.LiveButtons
import RollMenu.Proofs.LockedRuns
import RollMenu.Proofs.WireReading

/-!
# What a refused click leaves on the screen

Two users may press buttons of one prompt, and whoever comes second is refused. The message
is replaced all the same, by a prompt that is made of two parts from two places: the
selections come from the button that was pressed, and the owner from the store. As a
button of an older prompt carries older selections, the owner may be shown a step that
was already taken, under the owner's own name.

`History` lists what can have happened to a message when a button is pressed, with the
prompts that were returned for it. The main statement says what a refusal then shows,
and that this is what the owner has selected exactly if the button carries it.
-/

namespace RollMenu

namespace Menu

variable {m : Menu} {source : String} {limits : Limits}

/-! ## Prompts tell selections apart -/

/-- What is shown on a button can be told from its id. -/
theorem Shown.inj {parts parts' : WireId} (hm : m.CompiledFrom source limits)
    (hsource : ∀ c ∈ source.toList, Validation.isReserved c = false)
    (hcommand : fieldSeparator ∉ limits.commandName.toList) (h : m.Shown parts)
    (h' : m.Shown parts') (hid : parts.encode = parts'.encode) : parts = parts' := by
  have hread := WireId.decode_encode (h.separable hm hsource hcommand)
  rw [hid, WireId.decode_encode (h'.separable hm hsource hcommand)] at hread
  exact (Except.ok.inj hread).symm

/-- **Incomplete selections with the same prompt are the same,** since each of its buttons carries
them. -/
theorem selections_eq_of_prompt {p q : Progress} {target : Option UInt64} {format : AnswerFormat}
    (hm : m.CompiledFrom source limits)
    (hsource : ∀ c ∈ source.toList, Validation.isReserved c = false)
    (hcommand : fieldSeparator ∉ limits.commandName.toList)
    (hp : m.checkSelections p.selections = .ok ()) (hincomplete : m.status p ≠ .complete)
    (hq : m.checkSelections q.selections = .ok ()) (hincomplete' : m.status q ≠ .complete)
    (h : m.prompt p target format = m.prompt q target format) : p.selections = q.selections := by
  obtain ⟨parameter, hpending⟩ := status_ne_complete_iff.mp hincomplete
  obtain ⟨parameter', hpending'⟩ := status_ne_complete_iff.mp hincomplete'
  have hbuttons := congrArg Prompt.buttons h
  rw [buttons_prompt_of_pending hpending, buttons_prompt_of_pending hpending'] at hbuttons
  -- a parameter has choices, so there is a button to compare
  obtain ⟨c, hc⟩ := List.exists_mem_of_ne_nil _
    (hm.parameter parameter (mem_of_pending hpending)).choices_ne_nil
  have hb : m.choiceButton p target c ∈ m.buttons q target := by
    rw [← hbuttons, buttons, hpending]
    exact List.mem_append_left _ (List.mem_map_of_mem hc)
  obtain ⟨_, hq', click, hclick, hid⟩ := exists_click_of_mem_buttons hb
  have hshown : m.Shown (m.wireId p.selections target c.id) :=
    ⟨rfl, hp, parameter, hpending, Parameter.mem_clicks_iff.mpr (Or.inl ⟨c, hc, rfl⟩)⟩
  have hshown' : m.Shown (m.wireId q.selections target click) := ⟨rfl, hq, _, hq', hclick⟩
  exact congrArg WireId.selections (hshown.inj hm hsource hcommand hshown' hid)

end Menu

namespace Service

variable {σ ε : Type} [Store σ]

/-! ## What has happened to a message -/

/-- The prompt that a result brings. -/
def promptOf : Except ServiceError ClickResponse → List Prompt
  | .ok response => [response.prompt]
  | .error _ => []

/-- What can have happened since the first prompt of a configuration was posted: the prompts
that were returned for the message, newest first, and the world. On the message anybody may
press any button of these prompts, and elsewhere anything may be done. -/
inductive History (svc : Service ε) (id : ConfigId) (message : UInt64) (first : Prompt)
    (w₀ : World σ ε) : List Prompt → World σ ε → Prop where
  | posted : History svc id message first w₀ [first] w₀
  | pressed {prompts : List Prompt} {w : World σ ε} {prompt : Prompt} {b : Button}
      (h : History svc id message first w₀ prompts w) (hprompt : prompt ∈ prompts)
      (hb : b ∈ prompt.buttons) (user : String) :
      History svc id message first w₀
        (promptOf (svc.handleClick id message b.id user w).1 ++ prompts)
        (svc.handleClick id message b.id user w).2
  | elsewhere {prompts : List Prompt} {w : World σ ε}
      (h : History svc id message first w₀ prompts w) (c : Call) (hne : c.message ≠ message) :
      History svc id message first w₀ prompts (svc.call c w).2
  | configured {prompts : List Prompt} {w : World σ ε}
      (h : History svc id message first w₀ prompts w) {other : ConfigId} (config : Config)
      (hnew : Store.loadConfig w.store other = .ok none) :
      History svc id message first w₀ prompts
        { w with store := (svc.configure other config w.store).2 }

namespace History

variable {svc : Service ε} {id : ConfigId} {message : UInt64} {first : Prompt} {w₀ w : World σ ε}
  {prompts : List Prompt}

theorem later (h : History svc id message first w₀ prompts w) : svc.Later w₀ w := by
  induction h with
  | posted => exact .refl
  | pressed _ _ _ user ih => exact .clicked ih id message _ user
  | elsewhere _ c _ ih => exact .clicked ih c.config c.message c.wire c.user
  | configured _ config hnew ih => exact .configured ih config hnew

variable [LawfulStore σ]

open LawfulStore

variable {config : Config} {flow : Flow}

/-- **Prompts of the past show what the menu shows.** -/
theorem shown (hflow : Flow.ofConfig svc.limits config = .ok flow)
    (hstored : Store.loadConfig w₀.store id = .ok (some config))
    (h : History svc id message (flow.prompt {}) w₀ prompts w) :
    ∀ prompt ∈ prompts, ∀ b ∈ prompt.buttons,
      ∃ parts, flow.menu.Shown parts ∧ b.id = parts.encode := by
  induction h with
  | posted =>
    intro prompt hprompt b hb
    obtain rfl := List.mem_singleton.mp hprompt
    exact Menu.shown_of_mem_prompt Menu.checkSelections_nil hb
  | @pressed prompts w _ b h _ _ user ih =>
    have hstored' := stored_of_later hstored h.later
    intro prompt hprompt
    rcases List.mem_append.mp hprompt with hnew | hold
    · rcases hresult : svc.handleClick id message b.id user w with ⟨e | response, w'⟩
      · rw [hresult] at hnew
        cases hnew
      · rw [hresult] at hnew
        obtain rfl := List.mem_singleton.mp hnew
        exact shown_of_response hflow hstored' hresult
    · exact ih prompt hold
  | elsewhere _ _ _ ih => exact ih
  | configured _ _ _ ih => exact ih

/-- What is stored on the message, if nothing was at first, is incomplete and replays. -/
theorem incomplete (hflow : Flow.ofConfig svc.limits config = .ok flow)
    (hstored : Store.loadConfig w₀.store id = .ok (some config))
    (hempty : (contents w₀.store).progress message = none)
    (h : History svc id message first w₀ prompts w) {p : Progress}
    (hp : (contents w.store).progress message = some p) :
    flow.menu.checkSelections p.selections = .ok () ∧ flow.menu.status p ≠ .complete := by
  induction h with
  | posted =>
    rw [hempty] at hp
    cases hp
  | @pressed prompts w _ b h _ _ user ih =>
    have hstored' := stored_of_later hstored h.later
    rcases progress_call (c := ⟨id, message, b.id, user⟩) hp with hkept | ⟨-, -, hsaves⟩
    · exact ih hkept
    · -- what is saved makes sense to the menu of the call, which is this one
      obtain ⟨config', flow', hload, hflow', hcheck, hstatus⟩ := hsaves.replays
      obtain rfl := Option.some.inj (Except.ok.inj (hload.symm.trans hstored'))
      obtain rfl := Except.ok.inj (hflow'.symm.trans hflow)
      exact ⟨hcheck, hstatus⟩
  | elsewhere _ c hne ih =>
    rcases progress_call hp with hkept | ⟨heq, -, -⟩
    · exact ih hkept
    · exact absurd heq hne
  | @configured prompts w _ other config' _ ih =>
    rcases hresult : svc.configure other config' w.store with ⟨e | prompt, s⟩
    · rw [hresult, configure_error hresult] at hp
      exact ih hp
    · rw [hresult, contents_configure hresult] at hp
      exact ih hp

end History

/-! ## A button that is out of date -/

/-- Two placeholders, the first of which Alice is past. -/
def twoSteps : Config := { template := "{A:1/2}+{B:3/4}" }

/-- Alice has selected `1`, and Bob presses the other button of the prompt that was there before. -/
theorem exists_refused_older_button :
    ∃ (first : Prompt) (b : Button) (w w' : World MemoryStore Unit) (response : ClickResponse)
      (prompts : List Prompt),
      (Service.constant 7).configure ⟨1⟩ twoSteps ({} : MemoryStore) =
          (.ok first, (World.configured (Service.constant 7) ⟨1⟩ twoSteps).store) ∧
        History (Service.constant 7) ⟨1⟩ 5 first
          (World.configured (Service.constant 7) ⟨1⟩ twoSteps) prompts w ∧
        first ∈ prompts ∧ b ∈ first.buttons ∧
        WireId.decode b.id = .ok ⟨"custom_parameter", [], none, "id2"⟩ ∧
        (Service.constant 7).handleClick ⟨1⟩ 5 b.id "bob" w = (.ok response, w') ∧
        response.outcome = .ignored { lock := some "alice" } (.lockedBy "alice" "bob") ∧
        response.prompt.text = "alice: Please select value for **A**" ∧
        Store.loadProgress w'.store 5 =
          .ok (some { selections := ["1"], lock := some "alice" }) := by
  obtain ⟨first, hfirst, hbuttons⟩ := exists_of_map_ok (by cbv :
    ((Service.constant 7).configure ⟨1⟩ twoSteps ({} : MemoryStore)).1.map Prompt.buttons =
      .ok [⟨"custom_parameter\x1e\x1e\x1eid1", "1", .primary⟩,
        ⟨"custom_parameter\x1e\x1e\x1eid2", "2", .primary⟩])
  obtain ⟨response, hresponse, hview⟩ := exists_of_map_ok (by cbv :
    ((Service.constant 7).handleClick ⟨1⟩ 5 "custom_parameter\x1e\x1e\x1eid2" "bob"
      ((Service.constant 7).handleClick ⟨1⟩ 5 "custom_parameter\x1e\x1e\x1eid1" "alice"
        (World.configured (Service.constant 7) ⟨1⟩ twoSteps)).2).1.map
          (fun response => (response.outcome, response.prompt.text)) =
      .ok (.ignored { lock := some "alice" } (.lockedBy "alice" "bob"),
        "alice: Please select value for **A**"))
  obtain ⟨houtcome, htext⟩ := Prod.mk.inj hview
  have hposted : History (Service.constant 7) ⟨1⟩ 5 first
      (World.configured (Service.constant 7) ⟨1⟩ twoSteps) [first] _ := .posted
  have halice := hposted.pressed List.mem_cons_self (hbuttons ▸ List.mem_cons_self) "alice"
  refine ⟨first, ⟨"custom_parameter\x1e\x1e\x1eid2", "2", .primary⟩, _, _, response, _,
    Prod.ext hfirst rfl, halice, List.mem_append_right _ List.mem_cons_self, ?_, by cbv,
    Prod.ext hresponse rfl, houtcome, htext, by cbv⟩
  rw [hbuttons]
  exact List.mem_cons_of_mem _ List.mem_cons_self

/-! ## What a refusal shows -/

variable [LawfulStore σ] {svc : Service ε} {id : ConfigId} {config : Config} {flow : Flow}
  {message : UInt64} {w : World σ ε}

open LawfulStore

/-- **A button of the menu is ignored for the lock only.** The prompt that comes with it has the
selections of the button and the owner that is stored. -/
theorem response_of_ignored {b : Button} {parts : WireId} {user : String}
    {response : ClickResponse} {w' : World σ ε} {p : Progress} {why : Refusal}
    (haccepted : svc.Accepted config flow)
    (hstored : Store.loadConfig w.store id = .ok (some config)) (hshown : flow.menu.Shown parts)
    (hid : b.id = parts.encode)
    (hclick : svc.handleClick id message b.id user w = (.ok response, w'))
    (houtcome : response.outcome = .ignored p why) :
    fieldSeparator ∉ svc.limits.commandName.toList ∧ WireId.decode b.id = .ok parts ∧ w' = w ∧
      ∃ stored owner, (contents w.store).progress message = some stored ∧
        stored.lock = some owner ∧
        response.prompt = flow.prompt { stored with selections := parts.selections } := by
  have hcompiled := Menu.compiledFrom_of_compile haccepted.compile
  have hcase := svc.handleClick_cases id message b.id user w
  rw [hclick] at hcase
  cases hcase with
  | @answered config' parts' flow' _ hload hdecode hcommand hflow' hanswer =>
    obtain rfl := Option.some.inj (Except.ok.inj (hload.symm.trans hstored))
    obtain rfl := Except.ok.inj (hflow'.symm.trans haccepted.flow)
    -- the command was read from an id, so it has no separator
    have hseparator : fieldSeparator ∉ svc.limits.commandName.toList :=
      hcommand ▸ (WireId.separable_of_decode hdecode).command
    have hread := WireId.decode_encode (hshown.separable hcompiled haccepted.source hseparator)
    rw [← hid] at hread
    obtain rfl := Except.ok.inj (hread.symm.trans hdecode)
    cases hanswer with
    | continued | cleared | rolled => cases houtcome
    | @ignored q why' hignored =>
      -- otherwise the click would have been taken
      have hlocked : ¬ MayClick w.store message user := by
        intro hmay
        have htaken : (flow'.click (carried w.store message parts) parts.click user).Taken :=
          hshown.taken hcompiled.numbered (Menu.lockedOut_eq_none_iff.mpr hmay) _
        rw [hignored] at htaken
        cases htaken
      obtain ⟨owner, howner⟩ : ∃ owner, lockOwner w.store message = some owner :=
        Option.ne_none_iff_exists'.mp fun hnone => hlocked (Or.inl hnone)
      have hne : owner ≠ user := fun heq => hlocked (Or.inr (heq ▸ howner))
      have hkept : flow'.click (carried w.store message parts) parts.click user =
          .ignored (carried w.store message parts) (.lockedBy owner user) :=
        Menu.click_of_lock howner hne
      obtain ⟨rfl, -⟩ := Outcome.ignored.inj (hignored.symm.trans hkept)
      rw [lockOwner_eq] at howner
      obtain ⟨stored, hprogress, hlock⟩ := Option.bind_eq_some_iff.mp howner
      refine ⟨hseparator, hdecode, rfl, stored, owner, hprogress, hlock, ?_⟩
      have hcarried : carried w.store message parts =
          { stored with selections := parts.selections } := by
        rw [carried, lockOwner_eq, howner, ← hlock]
      rw [← hcarried]
      change promptAfterRefusal flow' (carried w.store message parts) = _
      rw [promptAfterRefusal, carried, hshown.replays]

/--
**A refusal shows what the button carries.** When a button that was shown on a message is
refused for the lock, the message gets the prompt of the selection that is stored, with
the selections that the button carries in place of those of the owner. So it shows what
is stored if the button carries that, and, on a message on which nothing was stored at
first, only then.
-/
theorem prompt_of_lockedBy {first prompt : Prompt} {store : σ} {w₀ w' : World σ ε}
    {prompts : List Prompt} {b : Button} {user owner other : String} {response : ClickResponse}
    {p : Progress} (hconfigure : svc.configure id config w₀.store = (.ok first, store))
    (hhistory : History svc id message first { w₀ with store } prompts w)
    (hprompt : prompt ∈ prompts) (hb : b ∈ prompt.buttons)
    (hclick : svc.handleClick id message b.id user w = (.ok response, w'))
    (houtcome : response.outcome = .ignored p (.lockedBy owner other)) :
    ∃ flow parts stored, Flow.ofConfig svc.limits config = .ok flow ∧
      WireId.decode b.id = .ok parts ∧
      Store.loadProgress w'.store message = .ok (some stored) ∧
      response.prompt = flow.prompt { stored with selections := parts.selections } ∧
      (parts.selections = stored.selections → response.prompt = flow.prompt stored) ∧
      (Store.loadProgress w₀.store message = .ok none →
        response.prompt = flow.prompt stored → parts.selections = stored.selections) := by
  obtain ⟨flow, haccepted, rfl⟩ := accepted_of_configure hconfigure
  have hconfig := stored_of_configure hconfigure
  have hstored := stored_of_later hconfig hhistory.later
  obtain ⟨parts, hshown, hid⟩ := hhistory.shown haccepted.flow hconfig prompt hprompt b hb
  obtain ⟨hseparator, hdecode, rfl, stored, lock, hprogress, -, hresponse⟩ :=
    response_of_ignored haccepted hstored hshown hid hclick houtcome
  refine ⟨flow, parts, stored, haccepted.flow, hdecode, ?_, hresponse, fun hsame => ?_,
    fun hempty hsame => ?_⟩
  · rw [loadProgress_eq, hprogress]
  · rw [hresponse, hsame]
  · -- both are incomplete, so their prompts tell them apart
    have hempty' : (contents store).progress message = none := by
      rw [contents_configure hconfigure]
      rw [loadProgress_eq] at hempty
      exact Except.ok.inj hempty
    obtain ⟨hcheck, hstatus⟩ := hhistory.incomplete haccepted.flow hconfig hempty' hprogress
    obtain ⟨parameter, hpending, -⟩ := hshown.click
    have hstatus' :
        flow.menu.status { stored with selections := parts.selections } ≠ .complete := by
      rw [ne_eq, Menu.status_eq_complete_iff]
      exact Option.ne_none_iff_exists'.mpr ⟨parameter, hpending⟩
    rw [hresponse] at hsame
    exact Menu.selections_eq_of_prompt (Menu.compiledFrom_of_compile haccepted.compile)
      haccepted.source hseparator hshown.replays hstatus' hcheck hstatus hsame

/-- The prompt shows nothing selected, under the name of Alice. -/
theorem prompt_of_lockedBy_older_button :
    ∃ (w w' : World MemoryStore Unit) (b : Button) (response : ClickResponse) (flow : Flow),
      Flow.ofConfig (Service.constant 7).limits twoSteps = .ok flow ∧
        (Service.constant 7).handleClick ⟨1⟩ 5 b.id "bob" w = (.ok response, w') ∧
        response.outcome = .ignored { lock := some "alice" } (.lockedBy "alice" "bob") ∧
        Store.loadProgress w'.store 5 = .ok (some { selections := ["1"], lock := some "alice" }) ∧
        response.prompt = flow.prompt { selections := [], lock := some "alice" } ∧
        response.prompt ≠ flow.prompt { selections := ["1"], lock := some "alice" } := by
  obtain ⟨first, b, w, w', response, prompts, hfirst, hhistory, hposted, hb, hread, hclick,
    houtcome, -, hstored⟩ := exists_refused_older_button
  have hconfigure : (Service.constant 7).configure ⟨1⟩ twoSteps
      (⟨{}, ()⟩ : World MemoryStore Unit).store = (.ok first, _) := hfirst
  obtain ⟨flow, parts, stored, hflow, hdecode, hload, hprompt, -, honly⟩ :=
    prompt_of_lockedBy hconfigure hhistory hposted hb hclick houtcome
  obtain rfl := Except.ok.inj (hread.symm.trans hdecode)
  obtain rfl := Option.some.inj (Except.ok.inj (hstored.symm.trans hload))
  refine ⟨w, w', b, response, flow, hflow, hclick, houtcome, hstored, hprompt, fun heq => ?_⟩
  exact absurd (honly rfl heq) (by decide)

/-- **Somebody else's refused click can undo what the owner sees.** The owner has gone on to the
second placeholder, and the prompt asks for the first one again. -/
theorem prompt_ne_stored_of_older_button :
    ∃ (first : Prompt) (b : Button) (w w' : World MemoryStore Unit) (response : ClickResponse)
      (prompts : List Prompt) (flow : Flow) (stored : Progress),
      (Service.constant 7).configure ⟨1⟩ twoSteps ({} : MemoryStore) =
          (.ok first, (World.configured (Service.constant 7) ⟨1⟩ twoSteps).store) ∧
        History (Service.constant 7) ⟨1⟩ 5 first
          (World.configured (Service.constant 7) ⟨1⟩ twoSteps) prompts w ∧
        first ∈ prompts ∧ b ∈ first.buttons ∧
        (Service.constant 7).handleClick ⟨1⟩ 5 b.id "bob" w = (.ok response, w') ∧
        response.outcome = .ignored { lock := some "alice" } (.lockedBy "alice" "bob") ∧
        Flow.ofConfig (Service.constant 7).limits twoSteps = .ok flow ∧
        Store.loadProgress w'.store 5 = .ok (some stored) ∧
        response.prompt ≠ flow.prompt stored := by
  obtain ⟨first, b, w, w', response, prompts, hconfigure, hhistory, hfirst, hb, -, hclick,
    houtcome, htext, hstored⟩ := exists_refused_older_button
  obtain ⟨flow, hflow, htext'⟩ := exists_of_map_ok (by cbv :
    (Flow.ofConfig (Service.constant 7).limits twoSteps).map
      (fun flow => (flow.prompt { selections := ["1"], lock := some "alice" }).text) =
        .ok "alice: Please select value for **B**")
  refine ⟨first, b, w, w', response, prompts, flow, _, hconfigure, hhistory, hfirst, hb, hclick,
    houtcome, hflow, hstored, fun heq => ?_⟩
  rw [heq, htext'] at htext
  exact absurd htext (by decide)

end Service

end RollMenu
