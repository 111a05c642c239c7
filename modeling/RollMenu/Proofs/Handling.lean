import RollMenu.Service
import RollMenu.Store.Memory

/-!
# What handling a click can come to

A handled click passes a chain of checks before a menu ever sees it, and each way out of
the chain has its own response and its own effect. The two inductive types below list
them: `AnswerCase` for a click whose button has been read, and `HandleCase` for the
chain in front of it. They record what was checked, what is returned and what is left
in the store and in the engines, so no later proof has to open the handler.
-/

namespace RollMenu

variable {σ ε : Type} [Store σ]

namespace Service

/-- The selection that a button carries, together with the owner that the store knows. -/
def carried (store : σ) (message : UInt64) (parts : WireId) : Progress :=
  { selections := parts.selections, lock := lockOwner store message }

/-- Nobody else holds the selection on the message. -/
def MayClick (store : σ) (message : UInt64) (user : String) : Prop :=
  lockOwner store message = none ∨ lockOwner store message = some user

/-- Everything that the answer to a click can be. -/
inductive AnswerCase (svc : Service ε) (flow : Flow) (message : UInt64) (parts : WireId)
    (user : String) (w : World σ ε) : Except ServiceError ClickResponse × World σ ε → Prop where
  | continued {p : Progress}
      (hclick : flow.click (carried w.store message parts) parts.click user = .continued p) :
      AnswerCase svc flow message parts user w
        (.ok { outcome := .continued p, prompt := flow.prompt p, answer := none },
          { w with store := persist message (some p) w.store })
  | cleared {p : Progress}
      (hclick : flow.click (carried w.store message parts) parts.click user = .cleared p) :
      AnswerCase svc flow message parts user w
        (.ok { outcome := .cleared p, prompt := flow.prompt p, answer := none },
          { w with store := persist message none w.store })
  | ignored {p : Progress} {why : Refusal}
      (hclick : flow.click (carried w.store message parts) parts.click user = .ignored p why) :
      AnswerCase svc flow message parts user w
        (.ok { outcome := .ignored p why, prompt := promptAfterRefusal flow p, answer := none }, w)
  | unknownEngine {p : Progress} {roll : RollRequest}
      (hclick : flow.click (carried w.store message parts) parts.click user = .completed p roll)
      (hengine : svc.engine flow.config.engine = none) :
      AnswerCase svc flow message parts user w
        (.error (.config (.unknownEngine flow.config.engine)), w)
  | notRolled {p : Progress} {roll : RollRequest} {engine : Engine ε} {e : RollError} {engines : ε}
      (hclick : flow.click (carried w.store message parts) parts.click user = .completed p roll)
      (hengine : svc.engine flow.config.engine = some engine)
      (hroll : engine.roll roll.expression w.engines = (.error e, engines)) :
      AnswerCase svc flow message parts user w (.error (.roll e), { w with engines })
  | rolled {p : Progress} {roll : RollRequest} {engine : Engine ε} {result : RollResult}
      {engines : ε}
      (hclick : flow.click (carried w.store message parts) parts.click user = .completed p roll)
      (hengine : svc.engine flow.config.engine = some engine)
      (hroll : engine.roll roll.expression w.engines = (.ok result, engines)) :
      AnswerCase svc flow message parts user w
        (.ok {
            outcome := .completed p roll
            prompt := flow.prompt {}
            answer := some {
              target := parts.target.or flow.config.answerTarget
              user
              expression := roll.expression
              label := roll.label
              result } },
          { store := persist message none w.store, engines })

theorem answer_cases (svc : Service ε) (flow : Flow) (message : UInt64) (parts : WireId)
    (user : String) (w : World σ ε) :
    AnswerCase svc flow message parts user w (svc.answer flow message parts user w) := by
  unfold answer
  cases hclick : flow.click (carried w.store message parts) parts.click user with
  | continued p =>
    rw [carried] at hclick
    simp only [hclick]
    exact .continued hclick
  | cleared p =>
    rw [carried] at hclick
    simp only [hclick]
    exact .cleared hclick
  | ignored p why =>
    rw [carried] at hclick
    simp only [hclick]
    exact .ignored hclick
  | completed p roll =>
    rw [carried] at hclick
    simp only [hclick, complete]
    cases hengine : svc.engine flow.config.engine with
    | none => exact .unknownEngine hclick hengine
    | some engine =>
      rcases hroll : engine.roll roll.expression w.engines with ⟨e | result, engines⟩
      · simp only [hroll]
        exact .notRolled hclick hengine hroll
      · simp only [hroll]
        exact .rolled hclick hengine hroll

/-- Everything that a handled click can come to. -/
inductive HandleCase (svc : Service ε) (id : ConfigId) (message : UInt64) (wire user : String)
    (w : World σ ε) : Except ServiceError ClickResponse × World σ ε → Prop where
  | unreadable {e : StoreError} (hload : Store.loadConfig w.store id = .error e) :
      HandleCase svc id message wire user w (.error (.store e), w)
  | notFound (hload : Store.loadConfig w.store id = .ok none) :
      HandleCase svc id message wire user w (.error (.configNotFound id), w)
  | undecodable {config : Config} {e : WireError}
      (hload : Store.loadConfig w.store id = .ok (some config))
      (hdecode : WireId.decode wire = .error e) :
      HandleCase svc id message wire user w (.error (.wire e), w)
  | mismatch {config : Config} {parts : WireId}
      (hload : Store.loadConfig w.store id = .ok (some config))
      (hdecode : WireId.decode wire = .ok parts)
      (hcommand : parts.command ≠ svc.limits.commandName) :
      HandleCase svc id message wire user w
        (.error (.wire (.commandMismatch svc.limits.commandName parts.command)), w)
  | uncompilable {config : Config} {parts : WireId} {e : ConfigError}
      (hload : Store.loadConfig w.store id = .ok (some config))
      (hdecode : WireId.decode wire = .ok parts) (hcommand : parts.command = svc.limits.commandName)
      (hflow : Flow.ofConfig svc.limits config = .error e) :
      HandleCase svc id message wire user w (.error (.config e), w)
  | answered {config : Config} {parts : WireId} {flow : Flow}
      {result : Except ServiceError ClickResponse × World σ ε}
      (hload : Store.loadConfig w.store id = .ok (some config))
      (hdecode : WireId.decode wire = .ok parts) (hcommand : parts.command = svc.limits.commandName)
      (hflow : Flow.ofConfig svc.limits config = .ok flow)
      (hanswer : AnswerCase svc flow message parts user w result) :
      HandleCase svc id message wire user w result

/-- **What a handled click comes to, with everything that was checked on the way.** -/
theorem handleClick_cases (svc : Service ε) (id : ConfigId) (message : UInt64) (wire user : String)
    (w : World σ ε) :
    HandleCase svc id message wire user w (svc.handleClick id message wire user w) := by
  unfold handleClick
  rcases hload : Store.loadConfig w.store id with e | config
  · exact .unreadable hload
  rcases config with _ | config
  · exact .notFound hload
  rcases hdecode : WireId.decode wire with e | parts
  · exact .undecodable hload hdecode
  by_cases hcommand : parts.command = svc.limits.commandName
  · simp only [hcommand, ne_eq, not_true_eq_false, if_false]
    rcases hflow : Flow.ofConfig svc.limits config with e | flow
    · exact .uncompilable hload hdecode hcommand hflow
    · exact .answered hload hdecode hcommand hflow (answer_cases svc flow message parts user w)
  · simp only [ne_eq, hcommand, not_false_eq_true, if_true]
    exact .mismatch hload hdecode hcommand

end Service

/-! ## A small service -/

/-- A service with default limits, and with an engine that takes everything and rolls `total`. -/
def Service.constant (total : Int) : Service Unit where
  limits := {}
  engine _ := some {
    complaint := fun _ => none
    roll := fun source s => (.ok { total, details := source }, s) }

/-- A world with one configuration, whose messages all show the same selection. -/
def World.showing (config : Config) (p : Option Progress) : World MemoryStore Unit where
  store := { configs := fun _ => some config, progress := fun _ => p }
  engines := ()

/-- A world in which nothing has happened but that a configuration was set up. -/
def World.configured (svc : Service Unit) (id : ConfigId) (config : Config) :
    World MemoryStore Unit where
  store := (svc.configure id config {}).2
  engines := ()

end RollMenu
