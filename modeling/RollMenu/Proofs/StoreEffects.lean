import Mathlib
import RollMenu.Proofs.LockedRuns

/-!
# What requests leave in the store

A service is asked to set up configurations and to handle clicks, in any order and on any
messages. What a request leaves in the store can be read off its reply: `Request.effect`
writes it down as a change of tables. From that the framing follows, that a request which
came to nothing changes nothing, and any other one changes a single entry.

The other half is what a reply depends on: the configuration and the selection that the
click is about, and nothing else that is stored. So two clicks on different messages never
get to know of each other, and the main statement says that they can be swapped anywhere
in a run. Engines have memory, so this asks of them that what they roll depends on the
expression alone.
-/

namespace RollMenu

namespace MemoryStore

variable {κ α : Type} [DecidableEq κ]

/-- Entries of different keys are put in either order. -/
theorem put_comm (table : κ → Option α) {key key' : κ} (hne : key ≠ key')
    (value value' : Option α) :
    put (put table key value) key' value' = put (put table key' value') key value := by
  funext k
  by_cases h : k = key
  · rw [h, put_self, put_of_ne _ _ hne, put_self]
  · rw [put_of_ne _ value h]
    by_cases h' : k = key'
    · rw [h', put_self, put_self]
    · rw [put_of_ne _ _ h', put_of_ne _ _ h', put_of_ne _ _ h]

end MemoryStore

open MemoryStore

/-! ## Requests and replies -/

/-- What a service is asked to do. -/
inductive Request where
  /-- A configuration to set up under an id. -/
  | configure (id : ConfigId) (config : Config)
  | click (c : Call)

/-- What a service returns. -/
inductive Reply where
  | configured (result : Except ServiceError Prompt)
  | clicked (result : Except ServiceError ClickResponse)

/-- The replies to requests that come to nothing. -/
inductive Reply.Idle : Reply → Prop where
  | notConfigured (e : ServiceError) : Idle (.configured (.error e))
  | notClicked (e : ServiceError) : Idle (.clicked (.error e))
  | ignored {response : ClickResponse} {p : Progress} {why : Refusal}
      (h : response.outcome = .ignored p why) : Idle (.clicked (.ok response))

/-- What a click stores on its message: a selection or none, unless it leaves what is there. -/
def Outcome.stores : Outcome → Option (Option Progress)
  | continued p => some (some p)
  | cleared _ | completed _ _ => some none
  | ignored _ _ => none

/-- What a reply says to be stored on the message of its click. -/
def Reply.stores : Reply → Option (Option Progress)
  | clicked (.ok response) => response.outcome.stores
  | _ => none

/-- The contents of a store after a request with this reply. -/
def Request.effect (s : MemoryStore) : Request → Reply → MemoryStore
  | configure id config, .configured (.ok _) =>
    { s with configs := put s.configs id (some config) }
  | configure _ _, _ => s
  | click c, reply =>
    match reply.stores with
    | none => s
    | some p => { s with progress := put s.progress c.message p }

namespace Request

theorem configs_effect_click (s : MemoryStore) (c : Call) (reply : Reply) :
    (effect s (click c) reply).configs = s.configs := by
  rw [effect]
  split <;> rfl

theorem progress_effect_click_of_ne (s : MemoryStore) {c : Call} (reply : Reply) {message : UInt64}
    (hne : message ≠ c.message) :
    (effect s (click c) reply).progress message = s.progress message := by
  rw [effect]
  split
  · rfl
  · exact put_of_ne s.progress _ hne

/-- Clicks on different messages have effects that commute. -/
theorem effect_comm {c d : Call} (hne : c.message ≠ d.message) (s : MemoryStore)
    (a b : Reply) :
    effect (effect s (click c) a) (click d) b = effect (effect s (click d) b) (click c) a := by
  cases ha : a.stores with
  | none => simp only [effect, ha]
  | some p =>
    cases hb : b.stores with
    | none => simp only [effect, ha, hb]
    | some q => simp only [effect, ha, hb, put_comm s.progress hne]

end Request

namespace Service

variable {σ ε : Type} [Store σ]

/-- Does what is asked. -/
def serve (svc : Service ε) (r : Request) (w : World σ ε) : Reply × World σ ε :=
  match r with
  | .configure id config =>
    let (result, store) := svc.configure id config w.store
    (.configured result, { w with store })
  | .click c =>
    let (result, w) := svc.call c w
    (.clicked result, w)

/-- The replies to requests that are made one after another. -/
def replies (svc : Service ε) (w : World σ ε) : List Request → List Reply
  | [] => []
  | r :: rs => (svc.serve r w).1 :: svc.replies (svc.serve r w).2 rs

/-- The world that some requests leave behind. -/
def served (svc : Service ε) (w : World σ ε) (requests : List Request) : World σ ε :=
  requests.foldl (fun w r => (svc.serve r w).2) w

theorem served_cons (svc : Service ε) (w : World σ ε) (r : Request) (requests : List Request) :
    svc.served w (r :: requests) = svc.served (svc.serve r w).2 requests := rfl

theorem served_append (svc : Service ε) (w : World σ ε) (before later : List Request) :
    svc.served w (before ++ later) = svc.served (svc.served w before) later :=
  List.foldl_append

theorem replies_append (svc : Service ε) (w : World σ ε) (before later : List Request) :
    svc.replies w (before ++ later) =
      svc.replies w before ++ svc.replies (svc.served w before) later := by
  induction before generalizing w with
  | nil => rfl
  | cons r before ih => rw [List.cons_append, replies, ih, replies, served_cons, List.cons_append]

/-! ## What a request does to the store -/

/-- What a call leaves in the store is what its reply says. -/
theorem store_call (svc : Service ε) (c : Call) (w : World σ ε) :
    (svc.call c w).2.store =
      match Reply.stores (.clicked (svc.call c w).1) with
      | none => w.store
      | some p => persist c.message p w.store := by
  have hcase := svc.handleClick_cases c.config c.message c.wire c.user w
  rw [call]
  generalize svc.handleClick c.config c.message c.wire c.user w = result at hcase
  cases hcase with
  | unreadable | notFound | undecodable | mismatch | uncompilable => rfl
  | answered _ _ _ _ hanswer => cases hanswer <;> rfl

/-- **A request that comes to nothing leaves the store alone.** -/
theorem store_serve_of_idle {svc : Service ε} {r : Request} {w : World σ ε}
    (h : (svc.serve r w).1.Idle) : (svc.serve r w).2.store = w.store := by
  cases r with
  | configure id config =>
    rcases hresult : svc.configure id config w.store with ⟨e | prompt, store⟩
    · simp only [serve, hresult]
      exact configure_error hresult
    · simp only [serve, hresult] at h
      cases h
  | click c =>
    have hstore := svc.store_call c w
    change (svc.call c w).2.store = w.store
    change Reply.Idle (.clicked (svc.call c w).1) at h
    generalize (svc.call c w).1 = result at h hstore
    cases h with
    | notClicked => exact hstore
    | ignored houtcome =>
      rw [Reply.stores, houtcome] at hstore
      exact hstore

variable [LawfulStore σ]

open LawfulStore

/-- **What is in the store after a request can be read off the reply.** -/
theorem contents_serve (svc : Service ε) (r : Request) (w : World σ ε) :
    contents (svc.serve r w).2.store = r.effect (contents w.store) (svc.serve r w).1 := by
  cases r with
  | configure id config =>
    rcases hresult : svc.configure id config w.store with ⟨e | prompt, store⟩
    · simp only [serve, hresult, configure_error hresult, Request.effect]
    · simp only [serve, hresult, contents_configure hresult, Request.effect]
  | click c =>
    change contents (svc.call c w).2.store =
      Request.effect (contents w.store) (.click c) (.clicked (svc.call c w).1)
    rw [store_call, Request.effect]
    split
    · rfl
    · exact contents_persist c.message _ w.store

/-! ## What a reply depends on -/

/-- What the engines roll depends on the expression alone. -/
def RollsByExpression (svc : Service ε) : Prop :=
  ∀ name engine, svc.engine name = some engine →
    ∀ source s s', (engine.roll source s).1 = (engine.roll source s').1

section Replies

omit [LawfulStore σ]

theorem complete_congr {svc : Service ε} (hroll : svc.RollsByExpression) (flow : Flow)
    (message : UInt64) (target : Option UInt64) (user : String) (outcome : Outcome)
    (roll : RollRequest) (w w' : World σ ε) :
    (svc.complete flow message target user outcome roll w).1 =
      (svc.complete flow message target user outcome roll w').1 := by
  unfold complete
  split
  · rfl
  · rename_i engine hengine
    have hsame := hroll _ engine hengine roll.expression w.engines w'.engines
    rcases hresult : engine.roll roll.expression w.engines with ⟨result, engines⟩
    rcases hresult' : engine.roll roll.expression w'.engines with ⟨result', engines'⟩
    rw [hresult, hresult'] at hsame
    obtain rfl : result = result' := hsame
    cases result <;> rfl

/-- The answer to a click depends on the owner of the message alone. -/
theorem answer_congr {svc : Service ε} (hroll : svc.RollsByExpression) (flow : Flow)
    {message : UInt64} (parts : WireId) (user : String) {w w' : World σ ε}
    (hlock : lockOwner w.store message = lockOwner w'.store message) :
    (svc.answer flow message parts user w).1 = (svc.answer flow message parts user w').1 := by
  simp only [answer, hlock]
  split
  · rfl
  · rfl
  · exact complete_congr hroll flow message _ user _ _ w w'
  · rfl

/-- The response to a click depends on its configuration and on the owner of its message. -/
theorem handleClick_congr {svc : Service ε} (hroll : svc.RollsByExpression) {id : ConfigId}
    {message : UInt64} {w w' : World σ ε}
    (hconfig : Store.loadConfig w.store id = Store.loadConfig w'.store id)
    (hlock : lockOwner w.store message = lockOwner w'.store message) (wire user : String) :
    (svc.handleClick id message wire user w).1 = (svc.handleClick id message wire user w').1 := by
  rw [handleClick, handleClick, hconfig]
  rcases Store.loadConfig w'.store id with e | ⟨_ | config⟩
  · rfl
  · rfl
  cases WireId.decode wire with
  | error e => rfl
  | ok parts =>
    by_cases hcommand : parts.command = svc.limits.commandName
    · simp only [hcommand, ne_eq, not_true_eq_false, if_false]
      cases Flow.ofConfig svc.limits config with
      | error e => rfl
      | ok flow => exact answer_congr hroll flow parts user hlock
    · simp only [ne_eq, hcommand, not_false_eq_true, if_true]

/-- Where the same is stored, a call gets the same response and leaves the same behind. -/
theorem call_of_store_eq {svc : Service ε} (hroll : svc.RollsByExpression) {w w' : World σ ε}
    (hstore : w.store = w'.store) (c : Call) :
    (svc.call c w).1 = (svc.call c w').1 ∧ (svc.call c w).2.store = (svc.call c w').2.store := by
  have hreply : (svc.call c w).1 = (svc.call c w').1 :=
    handleClick_congr hroll (by rw [hstore]) (by rw [hstore]) c.wire c.user
  refine ⟨hreply, ?_⟩
  rw [store_call, store_call, hreply, hstore]

end Replies

/-- So the response to a call depends on two entries of the store. -/
theorem call_congr {svc : Service ε} (hroll : svc.RollsByExpression) {c : Call} {w w' : World σ ε}
    (hconfig : (contents w.store).configs c.config = (contents w'.store).configs c.config)
    (hprogress : (contents w.store).progress c.message = (contents w'.store).progress c.message) :
    (svc.call c w).1 = (svc.call c w').1 := by
  refine handleClick_congr hroll ?_ ?_ c.wire c.user
  · rw [loadConfig_eq, loadConfig_eq, hconfig]
  · rw [lockOwner_eq, lockOwner_eq, hprogress]

/-- Whether a configuration is accepted does not depend on the store at all. -/
theorem configure_congr (svc : Service ε) (id : ConfigId) (config : Config) (s s' : σ) :
    (svc.configure id config s).1 = (svc.configure id config s').1 := by
  obtain ⟨saved, hsaved, -⟩ := saveConfig_ok s id config
  obtain ⟨saved', hsaved', -⟩ := saveConfig_ok s' id config
  unfold configure
  cases svc.engine config.engine with
  | none => rfl
  | some engine =>
    simp only
    cases Validation.validate svc.limits config engine.complaint with
    | error e => rfl
    | ok =>
      cases Flow.ofConfig svc.limits config with
      | error e => rfl
      | ok flow => simp only [hsaved, hsaved']

theorem serve_congr {svc : Service ε} (hroll : svc.RollsByExpression) (r : Request)
    {w w' : World σ ε} (h : contents w.store = contents w'.store) :
    (svc.serve r w).1 = (svc.serve r w').1 := by
  cases r with
  | configure id config =>
    exact congrArg Reply.configured (svc.configure_congr id config w.store w'.store)
  | click c => exact congrArg Reply.clicked (call_congr hroll (by rw [h]) (by rw [h]))

/-- **Where the same is stored, the same requests get the same replies** and leave the same
behind. -/
theorem served_congr {svc : Service ε} (hroll : svc.RollsByExpression) (requests : List Request)
    {w w' : World σ ε} (h : contents w.store = contents w'.store) :
    svc.replies w requests = svc.replies w' requests ∧
      contents (svc.served w requests).store = contents (svc.served w' requests).store := by
  induction requests generalizing w w' with
  | nil => exact ⟨rfl, h⟩
  | cons r requests ih =>
    have hreply := serve_congr hroll r h
    have hcontents : contents (svc.serve r w).2.store = contents (svc.serve r w').2.store := by
      rw [contents_serve, contents_serve, hreply, h]
    obtain ⟨hreplies, hleft⟩ := ih hcontents
    exact ⟨by rw [replies, replies, hreply, hreplies], hleft⟩

/-! ## Runs of requests -/

/-- What is in the store after a run can be written down from the requests and their replies. -/
theorem contents_served (svc : Service ε) (w : World σ ε) (requests : List Request) :
    contents (svc.served w requests).store =
      (requests.zip (svc.replies w requests)).foldl (fun s (r, reply) => r.effect s reply)
        (contents w.store) := by
  induction requests generalizing w with
  | nil => rfl
  | cons r requests ih =>
    rw [served_cons, ih, contents_serve, replies, List.zip_cons_cons, List.foldl_cons]

/-- A click gets the same reply before and after a click on another message. -/
theorem reply_of_other {svc : Service ε} (hroll : svc.RollsByExpression) {c d : Call}
    (hne : c.message ≠ d.message) (w : World σ ε) :
    (svc.serve (.click d) (svc.serve (.click c) w).2).1 = (svc.serve (.click d) w).1 := by
  refine congrArg Reply.clicked (call_congr hroll ?_ ?_)
  · rw [contents_serve, Request.configs_effect_click]
  · rw [contents_serve, Request.progress_effect_click_of_ne _ _ hne.symm]

theorem contents_swapped {svc : Service ε} (hroll : svc.RollsByExpression) {c d : Call}
    (hne : c.message ≠ d.message) (w : World σ ε) :
    contents (svc.served w [.click c, .click d]).store =
      contents (svc.served w [.click d, .click c]).store := by
  simp only [served, List.foldl_cons, List.foldl_nil]
  rw [contents_serve svc (.click d), contents_serve svc (.click c), reply_of_other hroll hne,
    contents_serve svc (.click c), contents_serve svc (.click d), reply_of_other hroll hne.symm,
    Request.effect_comm hne]

/-- What a request with this reply may do to a store. -/
structure Effects (r : Request) (reply : Reply) (s s' : σ) : Prop where
  /-- A request that comes to nothing leaves the store as it is. -/
  idle : reply.Idle → s' = s
  /-- A configuration that is accepted is stored as it was given and nothing else changes. If
  its id is new, whatever was stored before still is. -/
  configured : ∀ id config prompt, r = .configure id config → reply = .configured (.ok prompt) →
    contents s' = { contents s with configs := put (contents s).configs id (some config) } ∧
      ((contents s).configs id = none → ∀ other stored,
        (contents s).configs other = some stored → (contents s').configs other = some stored)
  /-- A click changes no configuration, and no selection but that on its own message. -/
  clicked : ∀ c, r = .click c → (contents s').configs = (contents s).configs ∧
    ∀ message, message ≠ c.message → (contents s').progress message = (contents s).progress message

theorem effects_serve (svc : Service ε) (r : Request) (w : World σ ε) :
    Effects r (svc.serve r w).1 w.store (svc.serve r w).2.store := by
  have hcontents := svc.contents_serve r w
  refine ⟨store_serve_of_idle, ?_, ?_⟩
  · rintro id config prompt rfl hreply
    rw [hreply] at hcontents
    refine ⟨hcontents, fun hnew other stored hstored => ?_⟩
    have hne : other ≠ id := by
      rintro rfl
      rw [hnew] at hstored
      cases hstored
    rw [hcontents]
    exact (put_of_ne _ _ hne).trans hstored
  · rintro c rfl
    rw [hcontents]
    exact ⟨Request.configs_effect_click _ c _,
      fun _ hne => Request.progress_effect_click_of_ne _ _ hne⟩

/--
**Requests touch what they are about and nothing else.** At any moment of a run, a request that
comes to nothing leaves the store alone, an accepted configuration is added to it, and a
click changes at most the selection on its message. And two neighbouring clicks on different
messages can be swapped: they get the same replies, so does every request after them, and
in the end the same is stored.
-/
theorem effects_of_requests (svc : Service ε) (hroll : svc.RollsByExpression) (w₀ : World σ ε)
    (before : List Request) :
    (∀ r, Effects r (svc.serve r (svc.served w₀ before)).1 (svc.served w₀ before).store
      (svc.serve r (svc.served w₀ before)).2.store) ∧
    ∀ c d later, c.message ≠ d.message → ∃ a b rest,
      svc.replies w₀ (before ++ .click c :: .click d :: later) =
          svc.replies w₀ before ++ a :: b :: rest ∧
        svc.replies w₀ (before ++ .click d :: .click c :: later) =
          svc.replies w₀ before ++ b :: a :: rest ∧
        contents (svc.served w₀ (before ++ .click c :: .click d :: later)).store =
          contents (svc.served w₀ (before ++ .click d :: .click c :: later)).store := by
  refine ⟨fun r => svc.effects_serve r _, fun c d later hne => ?_⟩
  obtain ⟨hreplies, hleft⟩ := served_congr hroll later
    (contents_swapped hroll hne (svc.served w₀ before))
  refine ⟨(svc.serve (.click c) (svc.served w₀ before)).1,
    (svc.serve (.click d) (svc.served w₀ before)).1,
    svc.replies (svc.served (svc.served w₀ before) [.click c, .click d]) later, ?_, ?_, ?_⟩
  · rw [replies_append, replies, replies, reply_of_other hroll hne]
    rfl
  · rw [replies_append, replies, replies, reply_of_other hroll hne.symm, hreplies]
    rfl
  · rw [served_append, served_append]
    exact hleft

/-- Alice selects on one message while Bob rolls on another. -/
theorem effects_of_requests_two_messages :
    (Service.constant 7).RollsByExpression ∧ ∃ w₀ : World MemoryStore Unit, ∃ c d first a b,
      c.message ≠ d.message ∧
      (Service.constant 7).replies w₀
          [.configure ⟨1⟩ { template := "{A:1/2@!Two}+{B:3/4}" }, .click c, .click d] =
        [first, a, b] ∧
      (Service.constant 7).replies w₀
          [.configure ⟨1⟩ { template := "{A:1/2@!Two}+{B:3/4}" }, .click d, .click c] =
        [first, b, a] ∧
      a.stores = some (some { selections := ["1"], lock := some "alice" }) ∧ b.stores = some none ∧
      ((Service.constant 7).served w₀
          [.configure ⟨1⟩ { template := "{A:1/2@!Two}+{B:3/4}" }, .click c, .click d]).store =
        ((Service.constant 7).served w₀
          [.configure ⟨1⟩ { template := "{A:1/2@!Two}+{B:3/4}" }, .click d, .click c]).store := by
  have hroll : (Service.constant 7).RollsByExpression := by
    rintro name engine hengine source s s'
    obtain rfl := Option.some.inj hengine
    rfl
  obtain ⟨-, hswapped⟩ := effects_of_requests (Service.constant 7) hroll
    (⟨{}, ()⟩ : World MemoryStore Unit) [.configure ⟨1⟩ { template := "{A:1/2@!Two}+{B:3/4}" }]
  obtain ⟨a, b, rest, hreplies, hreplies', hleft⟩ := hswapped
    ⟨⟨1⟩, 5, "custom_parameter\x1e\x1e\x1eid1", "alice"⟩
    ⟨⟨1⟩, 6, "custom_parameter\x1e\x1e\x1eid2", "bob"⟩ [] (by decide)
  have hstores : ((Service.constant 7).replies (⟨{}, ()⟩ : World MemoryStore Unit)
      [.configure ⟨1⟩ { template := "{A:1/2@!Two}+{B:3/4}" },
        .click ⟨⟨1⟩, 5, "custom_parameter\x1e\x1e\x1eid1", "alice"⟩,
        .click ⟨⟨1⟩, 6, "custom_parameter\x1e\x1e\x1eid2", "bob"⟩]).map Reply.stores =
      [none, some (some { selections := ["1"], lock := some "alice" }), some none] := by cbv
  rw [List.singleton_append] at hreplies hreplies'
  rw [hreplies] at hstores
  obtain ⟨-, ha, hb, hrest⟩ : _ ∧ a.stores = _ ∧ b.stores = _ ∧ rest = [] := by
    simpa [replies] using hstores
  subst hrest
  exact ⟨hroll, _, _, _, _, a, b, by decide, hreplies, hreplies', ha, hb, hleft⟩

end Service

end RollMenu
