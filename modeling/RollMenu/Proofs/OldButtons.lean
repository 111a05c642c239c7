import Mathlib
import RollMenu.Proofs.LiveButtons
import RollMenu.Proofs.StoreEffects

/-!
# Buttons of old messages

Buttons stay in old messages for good. Those from before answers could be routed have an id
without a target field, and what they click is the value of a choice, since choices had no
ids yet. They are read in a layout of their own and look their choice up in another way, and
from there on nothing tells them from the buttons of today.

The main statement compares an old button with the new one for the same choice after the
same selections, whatever these are, whoever presses it and whoever holds the message. It
asks of the value that it leads back to the choice. So no other choice of the placeholder
may have it, be it for its value or for its id, and it may not be what the clear button
clicks.
-/

namespace RollMenu

/-! ## Reading an old id -/

namespace WireId

/-- The id of an old button: command, selections and click. -/
def encodeLegacy (command : String) (selections : List String) (click : String) : String :=
  (String.singleton fieldSeparator).intercalate
    [command, (String.singleton selectionSeparator).intercalate selections, click]

/-- **An old id without stray separators reads back as it was**, with no target. -/
theorem decodeLayout_encodeLegacy {command click : String} {selections : List String}
    (h : Separable ⟨command, selections, none, click⟩) :
    decodeLayout (encodeLegacy command selections click) =
      .ok (.legacy, ⟨command, selections, none, click⟩) := by
  have hsplit : splitAt fieldSeparator (encodeLegacy command selections click) =
      [command, (String.singleton selectionSeparator).intercalate selections, click] := by
    refine splitAt_intercalate ?_ (List.cons_ne_nil _ _)
    simp only [List.forall_mem_cons]
    exact ⟨h.command, not_mem_intercalate (by decide) h.field, h.click, List.forall_mem_nil _⟩
  rw [decodeLayout, hsplit]
  simp only [readSelections_intercalate h.selection h.ne_blank]

theorem decode_encodeLegacy {command click : String} {selections : List String}
    (h : Separable ⟨command, selections, none, click⟩) :
    decode (encodeLegacy command selections click) = .ok ⟨command, selections, none, click⟩ := by
  rw [decode, decodeLayout_encodeLegacy h]
  rfl

end WireId

/-! ## Finding the choice -/

/-- **A value leads back to its choice** if no other choice has it for its value or for its id. -/
theorem Parameter.choice_value {p : Parameter} {c : Choice}
    (hdistinct : (p.choices.map Choice.value).Nodup) (hc : c ∈ p.choices)
    (hid : ∀ d ∈ p.choices, d.id = c.value → d = c) : p.choice c.value = some c := by
  rw [choice]
  cases hfind : p.choices.find? fun d => d.id == c.value with
  | none => exact choiceByValue_of_nodup hdistinct hc
  | some d =>
    have hd : d.id = c.value := by simpa using List.find?_some hfind
    obtain rfl := hid d (List.mem_of_find?_eq_some hfind) hd
    rfl

namespace Menu

variable {m : Menu} {p : Progress} {clicked clicked' : String}

theorem advance_congr
    (h : ∀ parameter, m.pending p = some parameter →
      ∃ c, parameter.choice clicked = some c ∧ parameter.choice clicked' = some c) :
    m.advance p clicked = m.advance p clicked' := by
  unfold advance
  cases hp : m.pending p with
  | none => rfl
  | some parameter =>
    obtain ⟨c, hc, hc'⟩ := h parameter hp
    simp only [hc, hc']

/-- **Clicks that find the same choice come to the same**, also when they are ignored. -/
theorem click_congr (hclear : clicked ≠ clearClick) (hclear' : clicked' ≠ clearClick)
    (h : ∀ parameter, m.pending p = some parameter →
      ∃ c, parameter.choice clicked = some c ∧ parameter.choice clicked' = some c)
    (user : String) (format : AnswerFormat) :
    m.click p clicked user format = m.click p clicked' user format := by
  unfold click
  rw [if_neg hclear, if_neg hclear', advance_congr h]

end Menu

/-! ## At the service -/

namespace Service

variable {σ ε : Type} [Store σ] {svc : Service ε} {id : ConfigId} {config : Config} {flow : Flow}
  {message : UInt64} {user : String} {w : World σ ε}

/-- A click that can be read is answered by the menu of its configuration. -/
theorem handleClick_of_decode {wire : String} {parts : WireId}
    (hstored : Store.loadConfig w.store id = .ok (some config))
    (hdecode : WireId.decode wire = .ok parts) (hcommand : parts.command = svc.limits.commandName)
    (hflow : Flow.ofConfig svc.limits config = .ok flow) :
    svc.handleClick id message wire user w = svc.answer flow message parts user w := by
  unfold handleClick
  simp only [hstored, hdecode, hcommand, hflow, ne_eq, not_true_eq_false, if_false]

/-- Buttons that carry the same selections and find the same choice get the same answer. -/
theorem answer_congr_click {command : String} {selections : List String} {target : Option UInt64}
    {clicked clicked' : String} (hclear : clicked ≠ clearClick) (hclear' : clicked' ≠ clearClick)
    (h : ∀ parameter, flow.menu.pending { selections } = some parameter →
      ∃ c, parameter.choice clicked = some c ∧ parameter.choice clicked' = some c) :
    svc.answer flow message ⟨command, selections, target, clicked⟩ user w =
      svc.answer flow message ⟨command, selections, target, clicked'⟩ user w := by
  have hclick : ∀ lock, flow.click { selections, lock } clicked user =
      flow.click { selections, lock } clicked' user :=
    -- what is pending does not depend on the lock
    fun lock => Menu.click_congr (p := { selections, lock }) hclear hclear' h user _
  simp only [answer, hclick]

/-- The values of an accepted configuration have no reserved character. -/
theorem Accepted.isReserved_of_mem_value (haccepted : svc.Accepted config flow)
    {parameter : Parameter} (hparameter : parameter ∈ flow.menu.parameters) {c : Choice}
    (hc : c ∈ parameter.choices) : ∀ x ∈ c.value.toList, Validation.isReserved x = false := by
  have hcompiled := Menu.compiledFrom_of_compile haccepted.compile
  intro x hx
  have hallowed := ((hcompiled.parameter parameter hparameter).value c hc).2 x hx
  exact Validation.isReserved_of_allowed haccepted.source hallowed

/-- **An old button and a new one of the same choice are answered alike**, in one and the same
world. -/
theorem handleClick_encodeLegacy {selections : List String} {parameter : Parameter} {c : Choice}
    (hcommand : fieldSeparator ∉ svc.limits.commandName.toList)
    (haccepted : svc.Accepted config flow)
    (hstored : Store.loadConfig w.store id = .ok (some config))
    (hfree : ∀ s ∈ selections, fieldSeparator ∉ s.toList ∧ selectionSeparator ∉ s.toList)
    (hblank : selections ≠ [""])
    (hparameter : flow.menu.parameters[selections.length]? = some parameter)
    (hdistinct : (parameter.choices.map Choice.value).Nodup) (hc : c ∈ parameter.choices)
    (hclear : c.value ≠ clearClick) (hid : ∀ d ∈ parameter.choices, d.id = c.value → d = c)
    (message : UInt64) (user : String) :
    svc.handleClick id message
        (WireId.encodeLegacy svc.limits.commandName selections c.value) user w =
      svc.handleClick id message
        (WireId.encode ⟨svc.limits.commandName, selections, none, c.id⟩) user w := by
  have hmem := List.mem_of_getElem? hparameter
  have hnumbered := Menu.numbered_of_compile haccepted.compile parameter hmem
  have hseparable : ∀ click : String, (∀ x ∈ click.toList, Validation.isReserved x = false) →
      WireId.Separable ⟨svc.limits.commandName, selections, none, click⟩ := by
    intro click hclick
    refine ⟨hcommand, fun hx => ?_, fun s hs => (hfree s hs).1, fun s hs => (hfree s hs).2, hblank⟩
    exact (Validation.isReserved_eq_false_iff.mp (hclick _ hx)).1 rfl
  have hold := WireId.decode_encodeLegacy
    (hseparable c.value (haccepted.isReserved_of_mem_value hmem hc))
  have hnew := WireId.decode_encode
    (hseparable c.id fun _ hx => Menu.isReserved_of_mem_id hnumbered hc hx)
  rw [handleClick_of_decode hstored hold rfl haccepted.flow,
    handleClick_of_decode hstored hnew rfl haccepted.flow]
  -- if anything is pending it is the placeholder of the choice
  refine answer_congr_click hclear (hnumbered.id_ne_clearClick hc) fun pending hpending => ?_
  obtain rfl := Option.some.inj
    (hparameter.symm.trans (Menu.pending_eq_some_iff.mp hpending).2)
  exact ⟨c, Parameter.choice_value hdistinct hc hid, hnumbered.choice_id hc⟩

/--
**Old buttons behave like new ones.** Take a configuration that was accepted and in which no
placeholder offers a value twice, any selections that can be written on a button, and a choice
of the placeholder behind them whose value is neither what the clear button clicks nor the id
of another choice. Then the old button that clicks the value and the new one that clicks the id
get the same response from every user and on every message, and leave the same in the store.
The engines may have rolled before, as long as what they roll depends on the expression.
-/
theorem handleClick_old_eq_new {other : ConfigId} {first : Prompt} {store store' : σ}
    {w w' : World σ ε} {parameter : Parameter} {c : Choice} (selections : List String)
    (hcommand : fieldSeparator ∉ svc.limits.commandName.toList) (hroll : svc.RollsByExpression)
    (hconfigure : svc.configure other config store = (.ok first, store'))
    (hflow : Flow.ofConfig svc.limits config = .ok flow)
    (hdistinct : ∀ parameter ∈ flow.menu.parameters, (parameter.choices.map Choice.value).Nodup)
    (hstored : Store.loadConfig w.store id = .ok (some config)) (hsame : w.store = w'.store)
    (hfree : ∀ s ∈ selections, fieldSeparator ∉ s.toList ∧ selectionSeparator ∉ s.toList)
    (hblank : selections ≠ [""])
    (hparameter : flow.menu.parameters[selections.length]? = some parameter)
    (hc : c ∈ parameter.choices) (hclear : c.value ≠ clearClick)
    (hid : ∀ d ∈ parameter.choices, d.id = c.value → d = c) (message : UInt64) (user : String) :
    let old := WireId.encodeLegacy svc.limits.commandName selections c.value
    let new := WireId.encode ⟨svc.limits.commandName, selections, none, c.id⟩
    (svc.handleClick id message old user w).1 = (svc.handleClick id message new user w').1 ∧
      (svc.handleClick id message old user w).2.store =
        (svc.handleClick id message new user w').2.store := by
  intro old new
  obtain ⟨flow', haccepted, -⟩ := accepted_of_configure hconfigure
  obtain rfl := Except.ok.inj (haccepted.flow.symm.trans hflow)
  have hequal : svc.handleClick id message old user w = svc.handleClick id message new user w :=
    handleClick_encodeLegacy hcommand haccepted hstored hfree hblank hparameter
      (hdistinct parameter (List.mem_of_getElem? hparameter)) hc hclear hid message user
  rw [hequal]
  exact call_of_store_eq hroll hsame ⟨id, message, new, user⟩

/-- A value that looks like the id of another choice, but there are only two, after a value that is
the id of its own choice. -/
theorem handleClick_old_eq_new_direct :
    let svc := Service.constant 7
    let w := World.showing { template := "{A:id1/}+{B:7/id3@!Three}+{C:1/}" }
      (some { selections := ["id1"], lock := some "alice" })
    let old := WireId.encodeLegacy "custom_parameter" ["id1"] "id3"
    let new := WireId.encode ⟨"custom_parameter", ["id1"], none, "id2"⟩
    ∃ response,
      (svc.handleClick .zero 5 old "alice" w).1 = .ok response ∧
      (svc.handleClick .zero 5 new "alice" w).1 = .ok response ∧
      response.answer.map RollAnswer.expression = some "id1+id3+''" ∧
      (svc.handleClick .zero 5 old "alice" w).2.store =
        (svc.handleClick .zero 5 new "alice" w).2.store := by
  obtain ⟨response, hresponse, hexpression⟩ := exists_of_map_ok (by cbv :
    ((Service.constant 7).handleClick .zero 5
      (WireId.encodeLegacy "custom_parameter" ["id1"] "id3") "alice"
      (World.showing { template := "{A:id1/}+{B:7/id3@!Three}+{C:1/}" }
        (some { selections := ["id1"], lock := some "alice" }))).1.map
          (fun response => response.answer.map RollAnswer.expression) = .ok (some "id1+id3+''"))
  obtain ⟨first, hfirst, -⟩ := exists_of_map_ok (by cbv :
    ((Service.constant 7).configure .zero { template := "{A:id1/}+{B:7/id3@!Three}+{C:1/}" }
      ({} : MemoryStore)).1.map (fun _ => ()) = .ok ())
  obtain ⟨flow, hflow, hchoices⟩ := exists_of_map_ok (by cbv :
    (Flow.ofConfig {} { template := "{A:id1/}+{B:7/id3@!Three}+{C:1/}" }).map (fun flow =>
      flow.menu.parameters.map Parameter.choices) =
        .ok [[⟨"id1", "id1", "id1", false, some 1⟩],
          [⟨"7", "7", "id1", false, some 2⟩, ⟨"id3", "Three", "id2", true, none⟩],
          [⟨"1", "1", "id1", false, none⟩]])
  have hroll : (Service.constant 7).RollsByExpression := by
    rintro name engine hengine source s s'
    obtain rfl := Option.some.inj hengine
    rfl
  have hdistinct : ∀ parameter ∈ flow.menu.parameters,
      (parameter.choices.map Choice.value).Nodup := by
    have hall : ∀ choices ∈ flow.menu.parameters.map Parameter.choices,
        (choices.map Choice.value).Nodup := by
      rw [hchoices]
      decide
    exact fun parameter hp => hall _ (List.mem_map_of_mem hp)
  have hsecond := congrArg (fun css : List (List Choice) => css[1]?) hchoices
  simp only [List.getElem?_map] at hsecond
  obtain ⟨parameter, hget, hparts⟩ := Option.map_eq_some_iff.mp hsecond
  have hparameter : flow.menu.parameters[["id1"].length]? = some parameter := hget
  have hc : (⟨"id3", "Three", "id2", true, none⟩ : Choice) ∈ parameter.choices := by
    rw [hparts]
    decide
  have hid : ∀ d ∈ parameter.choices, d.id = "id3" → d = ⟨"id3", "Three", "id2", true, none⟩ := by
    rw [hparts]
    decide
  have hconfigure : (Service.constant 7).configure .zero _ ({} : MemoryStore) = (.ok first, _) :=
    Prod.ext hfirst rfl
  have hstored : Store.loadConfig (World.showing { template := "{A:id1/}+{B:7/id3@!Three}+{C:1/}" }
        (some { selections := ["id1"], lock := some "alice" })).store .zero =
      .ok (some { template := "{A:id1/}+{B:7/id3@!Three}+{C:1/}" }) := rfl
  obtain ⟨hequal, hstore⟩ := handleClick_old_eq_new ["id1"] (by decide) hroll hconfigure hflow
    hdistinct hstored rfl (by decide) (by decide) hparameter hc (by decide) hid 5 "alice"
  exact ⟨response, hresponse, hequal.symm.trans hresponse, hexpression, hstore⟩

end Service

end RollMenu
