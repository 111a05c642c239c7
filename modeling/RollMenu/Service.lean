import RollMenu.Engine
import RollMenu.Store.Basic
import RollMenu.Validation.Search

/-!
# The service

Configuring a message checks the configuration, stores it and shows the first prompt. A
click on a button is handled from what its id carries: the selections are replayed, the
lock is looked up, and the answer comes with the prompt that replaces the message. What
a store or an engine holds is passed along explicitly.
-/

namespace RollMenu

/-- A roll that is ready to be posted. -/
structure RollAnswer where
  /-- The channel to post to, in place of the message's own. -/
  target : Option UInt64
  user : String
  expression : String
  label : Option String
  result : RollResult
  deriving DecidableEq, Repr

/-- What a click leads to. -/
structure ClickResponse where
  outcome : Outcome
  /-- Replaces the content of the message. -/
  prompt : Prompt
  answer : Option RollAnswer
  deriving DecidableEq, Repr

/-- Why the service does not do what it is asked. -/
inductive ServiceError where
  | config (e : ConfigError)
  | wire (e : WireError)
  | store (e : StoreError)
  | roll (e : RollError)
  /-- Nothing is stored under the id. -/
  | configNotFound (id : ConfigId)
  deriving DecidableEq, Repr

/-- The wording of a service error. -/
def ServiceError.message : ServiceError → String
  | config e => e.message
  | wire e => e.message
  | store e => e.message
  | roll e => e.message
  | configNotFound id => "No configuration stored under id '" ++ id.text ++ "'"

/-- The limits and the engines that a service works with. -/
structure Service (ε : Type) where
  limits : Limits
  /-- The engine registered under a name. -/
  engine : EngineName → Option (Engine ε)

/-- What a service changes: the contents of the store and the state of the engines. -/
structure World (σ ε : Type) where
  store : σ
  engines : ε

namespace Service

variable {σ ε : Type} [Store σ]

/-- Checks and stores a configuration under a new id and shows its first prompt. Nothing is
stored if anything fails. -/
def configure (svc : Service ε) (id : ConfigId) (config : Config) (store : σ) :
    Except ServiceError Prompt × σ :=
  match svc.engine config.engine with
  | none => (.error (.config (.unknownEngine config.engine)), store)
  | some engine =>
    match Validation.validate svc.limits config engine.complaint with
    | .error e => (.error (.config e), store)
    | .ok () =>
      match Flow.ofConfig svc.limits config with
      | .error e => (.error (.config e), store)
      | .ok flow =>
        match Store.saveConfig store id config with
        | .error e => (.error (.store e), store)
        | .ok store => (.ok (flow.prompt {}), store)

/-- The user who holds the selection on a message. A store that does not answer counts as
knowing nobody. -/
def lockOwner (store : σ) (message : UInt64) : Option String :=
  match Store.loadProgress store message with
  | .ok (some p) => p.lock
  | _ => none

/-- Stores the selection on a message, or forgets it. The store keeps its contents if it fails,
and the click counts all the same. -/
def persist (message : UInt64) (p : Option Progress) (store : σ) : σ :=
  let saved := match p with
    | some p => Store.saveProgress store message p
    | none => Store.deleteProgress store message
  match saved with
  | .ok store => store
  | .error _ => store

/-- The prompt after an ignored click: the selections that the button carries, if the menu can
lead to them, and the first prompt if it can not. -/
def promptAfterRefusal (flow : Flow) (p : Progress) : Prompt :=
  match flow.menu.checkSelections p.selections with
  | .ok () => flow.prompt p
  | .error _ => flow.prompt {}

/-- Rolls a completed selection and forgets it. If the roll fails the selection stays as it
is stored. -/
def complete (svc : Service ε) (flow : Flow) (message : UInt64) (target : Option UInt64)
    (user : String) (outcome : Outcome) (roll : RollRequest) (w : World σ ε) :
    Except ServiceError ClickResponse × World σ ε :=
  match svc.engine flow.config.engine with
  | none => (.error (.config (.unknownEngine flow.config.engine)), w)
  | some engine =>
    match engine.roll roll.expression w.engines with
    | (.error e, engines) => (.error (.roll e), { w with engines })
    | (.ok result, engines) =>
      let answer := {
        target := target.or flow.config.answerTarget
        user
        expression := roll.expression
        label := roll.label
        result }
      (.ok { outcome, prompt := flow.prompt {}, answer := some answer },
        { store := persist message none w.store, engines })

/-- Answers a click whose button has been read. -/
def answer (svc : Service ε) (flow : Flow) (message : UInt64) (id : WireId) (user : String)
    (w : World σ ε) : Except ServiceError ClickResponse × World σ ε :=
  let before := { selections := id.selections, lock := lockOwner w.store message }
  match flow.click before id.click user with
  | .continued p =>
    (.ok { outcome := .continued p, prompt := flow.prompt p, answer := none },
      { w with store := persist message (some p) w.store })
  | .cleared p =>
    (.ok { outcome := .cleared p, prompt := flow.prompt p, answer := none },
      { w with store := persist message none w.store })
  | .completed p roll => svc.complete flow message id.target user (.completed p roll) roll w
  | .ignored p why =>
    (.ok { outcome := .ignored p why, prompt := promptAfterRefusal flow p, answer := none }, w)

/-- Handles a click of `user` on the button with the id `wire` of a message. -/
def handleClick (svc : Service ε) (config : ConfigId) (message : UInt64) (wire user : String)
    (w : World σ ε) : Except ServiceError ClickResponse × World σ ε :=
  match Store.loadConfig w.store config with
  | .error e => (.error (.store e), w)
  | .ok none => (.error (.configNotFound config), w)
  | .ok (some config) =>
    match WireId.decode wire with
    | .error e => (.error (.wire e), w)
    | .ok id =>
      if id.command ≠ svc.limits.commandName then
        (.error (.wire (.commandMismatch svc.limits.commandName id.command)), w)
      else
        match Flow.ofConfig svc.limits config with
        | .error e => (.error (.config e), w)
        | .ok flow => svc.answer flow message id user w

end Service

end RollMenu
