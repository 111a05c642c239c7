import RollMenu.Proofs.Handling

/-!
# Stores whose operations succeed

The service answers the same whatever a store is made of, as long as the store does what
it is asked. A lawful store is one with a view of its contents: every operation
succeeds, a load reads the view, and a save or a deletion changes the view at one key. So
everything that is proved of lawful stores is proved by looking at the view alone.

A configuration is stored under an id that nothing is stored under yet and never again
after that. `Later` lists what can happen to a world under this rule, and the main
statement is that a configuration that is stored once stays.
-/

namespace RollMenu

/-- A store whose operations succeed and act on its contents as on tables. -/
class LawfulStore (σ : Type) [Store σ] where
  /-- What is stored. -/
  contents : σ → MemoryStore
  loadConfig_eq (s : σ) (id : ConfigId) : Store.loadConfig s id = .ok ((contents s).configs id)
  saveConfig_ok (s : σ) (id : ConfigId) (config : Config) :
    ∃ s', Store.saveConfig s id config = .ok s' ∧
      contents s' = { contents s with
        configs := MemoryStore.put (contents s).configs id (some config) }
  loadProgress_eq (s : σ) (message : UInt64) :
    Store.loadProgress s message = .ok ((contents s).progress message)
  saveProgress_ok (s : σ) (message : UInt64) (p : Progress) :
    ∃ s', Store.saveProgress s message p = .ok s' ∧
      contents s' = { contents s with
        progress := MemoryStore.put (contents s).progress message (some p) }
  deleteProgress_ok (s : σ) (message : UInt64) :
    ∃ s', Store.deleteProgress s message = .ok s' ∧
      contents s' = { contents s with
        progress := MemoryStore.put (contents s).progress message none }

instance : LawfulStore MemoryStore where
  contents s := s
  loadConfig_eq _ _ := rfl
  saveConfig_ok _ _ _ := ⟨_, rfl, rfl⟩
  loadProgress_eq _ _ := rfl
  saveProgress_ok _ _ _ := ⟨_, rfl, rfl⟩
  deleteProgress_ok _ _ := ⟨_, rfl, rfl⟩

namespace Service

variable {σ ε : Type} [Store σ]

/-! ## What the service does to a store -/

/-- A configuration that is accepted has been checked and stored. -/
theorem configure_ok {svc : Service ε} {id : ConfigId} {config : Config} {store store' : σ}
    {prompt : Prompt} (h : svc.configure id config store = (.ok prompt, store')) :
    ∃ engine flow, svc.engine config.engine = some engine ∧
      Validation.validate svc.limits config engine.complaint = .ok () ∧
      Flow.ofConfig svc.limits config = .ok flow ∧
      Store.saveConfig store id config = .ok store' ∧ prompt = flow.prompt {} := by
  unfold configure at h
  rcases hengine : svc.engine config.engine with _ | engine <;> simp only [hengine] at h
  · cases h
  rcases hvalid : Validation.validate svc.limits config engine.complaint with e | ⟨⟩ <;>
    simp only [hvalid] at h
  · cases h
  rcases hflow : Flow.ofConfig svc.limits config with e | flow <;> simp only [hflow] at h
  · cases h
  rcases hsave : Store.saveConfig store id config with e | saved <;> simp only [hsave] at h
  · cases h
  obtain ⟨hprompt, rfl⟩ := Prod.mk.inj h
  exact ⟨engine, flow, rfl, hvalid, rfl, rfl, (Except.ok.inj hprompt).symm⟩

/-- A configuration that is not accepted leaves the store alone. -/
theorem configure_error {svc : Service ε} {id : ConfigId} {config : Config} {store store' : σ}
    {e : ServiceError} (h : svc.configure id config store = (.error e, store')) :
    store' = store := by
  unfold configure at h
  split at h
  · exact (Prod.mk.inj h).2.symm
  split at h
  · exact (Prod.mk.inj h).2.symm
  split at h
  · exact (Prod.mk.inj h).2.symm
  split at h
  · exact (Prod.mk.inj h).2.symm
  · cases h

/-- A click at most saves or deletes a selection on its message. -/
theorem store_handleClick (svc : Service ε) (id : ConfigId) (message : UInt64)
    (wire user : String) (w : World σ ε) :
    (svc.handleClick id message wire user w).2.store = w.store ∨
      ∃ p, (svc.handleClick id message wire user w).2.store = persist message p w.store := by
  have hcase := svc.handleClick_cases id message wire user w
  generalize svc.handleClick id message wire user w = result at hcase
  cases hcase with
  | unreadable | notFound | undecodable | mismatch | uncompilable => exact Or.inl rfl
  | answered _ _ _ _ hanswer =>
    cases hanswer with
    | ignored | unknownEngine | notRolled => exact Or.inl rfl
    | @continued p _ => exact Or.inr ⟨some p, rfl⟩
    | cleared | rolled => exact Or.inr ⟨none, rfl⟩

/-! ## Worlds that come later -/

/-- What a world can become: configurations are stored under new ids, and buttons are clicked. -/
inductive Later (svc : Service ε) (w : World σ ε) : World σ ε → Prop where
  | refl : Later svc w w
  | configured {w' : World σ ε} (h : Later svc w w') {id : ConfigId} (config : Config)
      (hnew : Store.loadConfig w'.store id = .ok none) :
      Later svc w { w' with store := (svc.configure id config w'.store).2 }
  | clicked {w' : World σ ε} (h : Later svc w w') (id : ConfigId) (message : UInt64)
      (wire user : String) : Later svc w (svc.handleClick id message wire user w').2

theorem Later.trans {svc : Service ε} {w₁ w₂ w₃ : World σ ε} (h₁ : svc.Later w₁ w₂)
    (h₂ : svc.Later w₂ w₃) : svc.Later w₁ w₃ := by
  induction h₂ with
  | refl => exact h₁
  | configured _ config hnew ih => exact .configured ih config hnew
  | clicked _ id message wire user ih => exact .clicked ih id message wire user

variable [LawfulStore σ]

open LawfulStore

theorem contents_persist (message : UInt64) (p : Option Progress) (s : σ) :
    contents (persist message p s) =
      { contents s with progress := MemoryStore.put (contents s).progress message p } := by
  cases p with
  | none =>
    obtain ⟨s', hs', hcontents⟩ := deleteProgress_ok s message
    simpa only [persist, hs'] using hcontents
  | some p =>
    obtain ⟨s', hs', hcontents⟩ := saveProgress_ok s message p
    simpa only [persist, hs'] using hcontents

theorem configs_handleClick (svc : Service ε) (id : ConfigId) (message : UInt64)
    (wire user : String) (w : World σ ε) :
    (contents (svc.handleClick id message wire user w).2.store).configs =
      (contents w.store).configs := by
  rcases svc.store_handleClick id message wire user w with h | ⟨p, h⟩
  · rw [h]
  · rw [h, contents_persist]

theorem contents_configure {svc : Service ε} {id : ConfigId} {config : Config} {s s' : σ}
    {prompt : Prompt} (h : svc.configure id config s = (.ok prompt, s')) :
    contents s' =
      { contents s with configs := MemoryStore.put (contents s).configs id (some config) } := by
  obtain ⟨_, _, _, _, _, hsave, _⟩ := configure_ok h
  obtain ⟨saved, hsaved, hcontents⟩ := saveConfig_ok s id config
  obtain rfl := Except.ok.inj (hsave.symm.trans hsaved)
  exact hcontents

theorem configs_configure_of_ne (svc : Service ε) {id other : ConfigId} (config : Config) (s : σ)
    (hne : id ≠ other) :
    (contents (svc.configure other config s).2).configs id = (contents s).configs id := by
  rcases hresult : svc.configure other config s with ⟨e | prompt, s'⟩
  · rw [configure_error hresult]
  · rw [contents_configure hresult]
    exact MemoryStore.put_of_ne _ _ hne

/-- **A stored configuration stays.** -/
theorem stored_of_later {svc : Service ε} {w w' : World σ ε} {id : ConfigId} {config : Config}
    (hstored : Store.loadConfig w.store id = .ok (some config)) (h : svc.Later w w') :
    Store.loadConfig w'.store id = .ok (some config) := by
  rw [loadConfig_eq] at hstored ⊢
  induction h with
  | refl => exact hstored
  | @configured w' _ other config' hnew ih =>
    -- the id of the stored configuration is not new
    rw [loadConfig_eq] at hnew
    have hne : id ≠ other := by
      rintro rfl
      rw [hnew] at ih
      cases ih
    rwa [configs_configure_of_ne svc config' w'.store hne]
  | clicked _ other message wire user ih => rwa [configs_handleClick]

theorem stored_of_configure {svc : Service ε} {id : ConfigId} {config : Config} {s s' : σ}
    {prompt : Prompt} (h : svc.configure id config s = (.ok prompt, s')) :
    Store.loadConfig s' id = .ok (some config) := by
  rw [loadConfig_eq, contents_configure h]
  exact congrArg Except.ok (MemoryStore.put_self _ _ _)

end Service

end RollMenu
