import TensorLoom.Proofs.Session.Commands
/-
# Refused executions

A refused execution may leave some of its module's pointers set. Nothing ever reads them
again: actions do not look at pointers (`Oblivious`), and executions overwrite them. So after
a refused execution everything later is answered as if it had not happened
(`runCommands_congr`).
-/

namespace TensorLoom

/-! ## Modules without their pointers -/

/-- The module with no pointers. -/
def Module.forget {α : Type} (m : Module α) : Module α := { m with pointers := [] }

/-- What comes of an execution, without the pointers that it leaves. -/
def Module.view {α : Type} (x : Except ExecuteError Unit × Module α × Store α) : Except ExecuteError Unit × Module α × Store α :=
  (x.1, x.2.1.forget, x.2.2)

/-- It does not depend on the pointers. -/
theorem Module.execute_forget {α : Type} (m : Module α) (st : Store α) (held : List StorageId) :
    (m.forget.execute st held).map view = (m.execute st held).map view := by
  have hresolve : m.forget.resolve st held = m.resolve st held := rfl
  cases hres : m.resolve st held with
  | error e =>
    obtain ⟨pointers, hrefused⟩ := execute_refused hres
    obtain ⟨pointers', hrefused'⟩ := execute_refused (hresolve.trans hres)
    rw [hrefused, hrefused']
    rfl
  | ok storages =>
    rw [execute_eq hres, execute_eq (hresolve.trans hres)]
    rfl

namespace Loaded

def forget (m : Loaded) : Loaded := m.withModule m.module.forget

@[simp] theorem module_withModule (m : Loaded) (x : Module Float) : (m.withModule x).module = x := by
  cases m <;> rfl

@[simp] theorem withModule_withModule (m : Loaded) (x y : Module Float) : (m.withModule x).withModule y = m.withModule y := by
  cases m <;> rfl

@[simp] theorem forget_withModule (m : Loaded) (x : Module Float) : (m.withModule x).forget = m.withModule x.forget := by
  rw [forget, module_withModule, withModule_withModule]

@[simp] theorem module_forget (m : Loaded) : m.forget.module = m.module.forget := module_withModule ..

end Loaded

namespace Session

/-- The session with no pointers in its modules. -/
def forget (s : Session) : Session := { s with modules := s.modules.map fun x => (x.1, x.2.forget) }

theorem put_forget (name : String) (m : Loaded) (entries : List (String × Loaded)) :
    (put name m entries).map (fun x => (x.1, x.2.forget)) = put name m.forget (entries.map fun x => (x.1, x.2.forget)) := by
  induction entries with
  | nil => rfl
  | cons entry entries ih =>
    by_cases hname : entry.1 = name
    · simp [put, hname]
    · simp [put, hname, ih]

theorem lookup_forget (name : String) (entries : List (String × Loaded)) :
    (entries.map fun x => (x.1, x.2.forget)).lookup name = (entries.lookup name).map Loaded.forget := by
  induction entries with
  | nil => rfl
  | cons entry entries ih =>
    obtain ⟨name', m⟩ := entry
    by_cases hname : name = name'
    · simp [hname]
    · simp [List.lookup_cons, beq_false_of_ne hname, ih]

@[simp] theorem forget_forget (s : Session) : s.forget.forget = s.forget := by
  simp [forget, Function.comp_def, Loaded.forget, Module.forget]

theorem forget_withLoaded (s : Session) (name : String) (m : Loaded) :
    (s.withLoaded name m).forget = s.forget.withLoaded name m.forget := by
  simp only [forget, withLoaded, put_forget]

/-! ## Actions that do not look at pointers -/

/-- The same comes of both, up to pointers. -/
def SameOutcome {ρ : Type} (x x' : Except Fault (ρ × Session)) : Prop :=
  x.map (Prod.map id forget) = x'.map (Prod.map id forget)

namespace SameOutcome

variable {ρ ρ' : Type}

theorem ok (r : ρ) {s s' : Session} (h : s.forget = s'.forget) : SameOutcome (.ok (r, s)) (.ok (r, s')) :=
  congrArg (fun s => Except.ok (r, s)) h

theorem bind {x x' : Except Fault (ρ × Session)} {f f' : ρ × Session → Except Fault (ρ' × Session)} (h : SameOutcome x x')
    (hf : ∀ {r s s'}, s.forget = s'.forget → SameOutcome (f (r, s)) (f' (r, s'))) : SameOutcome (x >>= f) (x' >>= f') := by
  cases x with
  | error e =>
    cases x' with
    | error e' =>
      obtain rfl : e = e' := Except.error.inj h
      rfl
    | ok y' => cases h
  | ok y =>
    cases x' with
    | error e' => cases h
    | ok y' =>
      obtain ⟨r, s⟩ := y
      obtain ⟨r', s'⟩ := y'
      obtain ⟨rfl, hs⟩ : r = r' ∧ s.forget = s'.forget := by simpa [SameOutcome, Except.map] using h
      exact hf hs

end SameOutcome

/-- The action answers alike in sessions that differ in pointers only, and leaves such sessions
behind. -/
def Oblivious {β : Type} (a : Action β) : Prop :=
  ∀ s s' : Session, s.forget = s'.forget → SameOutcome (perform a s) (perform a s')

section
variable {β γ : Type}

/-- An action that leaves every session as it was, with an answer of its own. -/
theorem Oblivious.of_stay {a : Action β} {r : Except Fault (Except SessionError β)}
    (h : ∀ s, perform a s = r.map fun b => (b, s)) : Oblivious a := by
  intro s s' hs
  rw [h, h]
  cases r with
  | error e => rfl
  | ok b => exact .ok b hs

theorem oblivious_pure (b : β) : Oblivious (pure b : Action β) := .of_stay (r := .ok (.ok b)) fun _ => rfl

theorem oblivious_throw (e : SessionError) : Oblivious (throw e : Action β) := .of_stay (r := .ok (.error e)) fun _ => rfl

theorem oblivious_request (r : Except SessionError β) : Oblivious (request r) := .of_stay (r := .ok r) fun _ => rfl

theorem oblivious_answer (r : Except Fault (Except SessionError β)) : Oblivious (answer r) := .of_stay fun _ => perform_answer r

theorem oblivious_words (r : Except Fault β) : Oblivious (words r) := by
  refine .of_stay (r := r.map .ok) fun s => ?_
  rw [perform_words]
  cases r <;> rfl

theorem Oblivious.bind {a : Action β} {f : β → Action γ} (ha : Oblivious a) (hf : ∀ b, Oblivious (f b)) :
    Oblivious (a >>= f) := by
  intro s s' hs
  rw [perform_bind, perform_bind]
  refine (ha s s' hs).bind fun {r s₁ s₁'} hs₁ => ?_
  cases r with
  | error e => exact .ok _ hs₁
  | ok b => exact hf b s₁ s₁' hs₁

/-- The session may be read, but for its modules. -/
theorem Oblivious.get_bind {f : Session → Action β} (hf : ∀ s, Oblivious (f s)) (hforget : ∀ s, f s.forget = f s) :
    Oblivious (get >>= f) := by
  intro s s' hs
  rw [perform_get_bind, perform_get_bind, ← hforget s, hs, hforget s']
  exact hf s' s s' hs

theorem oblivious_modify {f : Session → Session} (hf : ∀ s, (f s).forget = (f s.forget).forget) :
    Oblivious (modify f : Action Unit) := by
  intro s s' hs
  exact .ok _ (by rw [hf, hs, ← hf])

end

theorem oblivious_setStore (st : Store Float) : Oblivious (setStore st) :=
  oblivious_modify fun s => by simp [forget, Function.comp_def, Loaded.forget, Module.forget]

theorem oblivious_setProgram (name : String) (p : Program) : Oblivious (setProgram name p) :=
  oblivious_modify fun s => by simp [forget, Function.comp_def, Loaded.forget, Module.forget]

theorem oblivious_setLoaded (name : String) (m : Loaded) : Oblivious (setLoaded name m) :=
  oblivious_modify fun s => (forget_withLoaded s name m).trans <| by
    rw [← forget_forget s, ← forget_withLoaded, forget_forget]
    rfl

theorem oblivious_tensor (name : String) : Oblivious (tensor name) := by
  refine .get_bind (fun s => ?_) fun s => rfl
  cases s.store.find? name
  · exact oblivious_throw _
  · exact oblivious_pure _

theorem oblivious_program (name : String) : Oblivious (program name) := by
  refine .get_bind (fun s => ?_) fun s => rfl
  cases s.programs.lookup name
  · exact oblivious_throw _
  · exact oblivious_pure _

theorem oblivious_leaf (x : NodeId) : Oblivious (leaf x) := .get_bind (fun _ => oblivious_answer _) fun _ => rfl

theorem oblivious_isBound (x : NodeId) : Oblivious (isBound x) := .get_bind (fun _ => oblivious_pure _) fun _ => rfl

theorem oblivious_read (name : String) : Oblivious (read name) :=
  (oblivious_tensor name).bind fun _ => .get_bind (fun _ => oblivious_pure _) fun _ => rfl

theorem oblivious_extend {ε β : Type} (wrap : ε → SessionError) (b : Extend ε β) : Oblivious (extend wrap b) := by
  refine .get_bind (fun s => (oblivious_words _).bind fun x => ?_) fun s => rfl
  refine .bind (oblivious_modify fun s => ?_) fun _ => oblivious_request _
  simp [forget, Function.comp_def, Loaded.forget, Module.forget]

theorem oblivious_create (name : String) (values : Array Float) : Oblivious (create name values) :=
  .get_bind (fun _ => oblivious_setStore _) fun _ => rfl

theorem oblivious_zeros (name : String) (count : Nat) : Oblivious (zeros name count) :=
  (oblivious_words _).bind fun _ => oblivious_create name _

theorem oblivious_share (name source : String) : Oblivious (share name source) :=
  (oblivious_tensor source).bind fun _ => .get_bind (fun _ => oblivious_setStore _) fun _ => rfl

theorem oblivious_drop (name : String) : Oblivious (drop name) :=
  .get_bind (fun _ => (oblivious_setStore _).bind fun _ => oblivious_pure _) fun _ => rfl

/-- Overwriting goes through a fallible operation of the store. -/
theorem oblivious_overwrite (name : String) (f : Store Float → StorageId → Except Fault (Store Float)) :
    Oblivious (tensor name >>= fun t => get >>= fun s => words (f s.store t) >>= fun st => setStore st >>= fun _ => read name) :=
  (oblivious_tensor name).bind fun _ => .get_bind (fun _ => (oblivious_words _).bind fun _ =>
    (oblivious_setStore _).bind fun _ => oblivious_read name) fun _ => rfl

theorem oblivious_bind (x : NodeId) (name : String) : Oblivious (bind x name) :=
  (oblivious_leaf x).bind fun _ => (oblivious_tensor name).bind fun _ => .get_bind (fun _ =>
    (oblivious_request _).bind fun _ => (oblivious_setStore _).bind fun _ => oblivious_isBound x) fun _ => rfl

theorem oblivious_unbind (x : NodeId) : Oblivious (unbind x) :=
  (oblivious_leaf x).bind fun _ => .get_bind (fun _ => (oblivious_setStore _).bind fun _ => oblivious_isBound x) fun _ => rfl

theorem oblivious_compile (programName name : String) (backend : Backend Float) : Oblivious (compile programName name backend) :=
  (oblivious_program programName).bind fun _ => (oblivious_words _).bind fun _ => (oblivious_request _).bind fun _ =>
    (oblivious_setLoaded name _).bind fun _ => oblivious_pure _

theorem oblivious_build (steps : List Lowering.Step) (name : String) : Oblivious (buildProgram steps (some name)) := by
  refine .get_bind (fun s => (oblivious_words _).bind fun x => ?_) fun s => rfl
  dsimp only
  cases x.2.finish with
  | error e => exact (oblivious_pure ()).bind fun _ => oblivious_pure _
  | ok p => exact (oblivious_setProgram name p).bind fun _ => oblivious_pure _

/-! ## Commands -/

variable {s s' : Session}

theorem Oblivious.outcome {β : Type} {a : Action β} (ha : Oblivious a) (hs : s.forget = s'.forget) :
    SameOutcome (outcome a s) (outcome a s') :=
  (ha s s' hs).bind fun hs₁ => .ok _ hs₁

/-- A refused execution leaves nothing behind but pointers. -/
theorem of_refused {name : String} {m : Loaded} (hm : s.modules.lookup name = some m) {hold : List String}
    {held : List StorageId} (hheld : hold.mapM s.store.find? = some held) {e : SessionError}
    (h : perform (execute name 1 hold) s = .ok (.error e, s')) :
    ∃ e', m.module.resolve s.store held = .error e' ∧ refuse m e' = e ∧ s'.forget = s.forget := by
  rw [perform_execute hm hheld] at h
  cases hexecute : m.module.execute s.store held with
  | error fault =>
    rw [hexecute] at h
    cases h
  | ok x =>
    obtain ⟨r, x⟩ := x
    rw [hexecute] at h
    cases r with
    | ok => cases h
    | error e' =>
      cases h
      obtain ⟨hresolve, pointers, rfl⟩ := Module.resolve_of_refused hexecute
      refine ⟨e', hresolve, rfl, ?_⟩
      have hsame : s.withLoaded name m = s := by rw [withLoaded, put_of_lookup hm]
      rw [afterStep, forget_withLoaded, Loaded.forget_withModule]
      exact (forget_withLoaded s name m).symm.trans (congrArg forget hsame)

/-- The refusal of an execution and what it leaves behind, without pointers from beginning to
end. -/
theorem outcome_execute {name : String} {m : Loaded} (hm : s.modules.lookup name = some m) {hold : List String}
    {held : List StorageId} (hheld : hold.mapM s.store.find? = some held) :
    (outcome (execute name 1 hold) s).map (Prod.map id forget) =
      ((m.forget.module.execute s.forget.store held).map Module.view).map fun x =>
        (refusal (x.1.mapError (refuse m.forget)), (s.forget.afterStep name m.forget x).forget) := by
  rw [Loaded.module_forget, Module.execute_forget, outcome, perform_execute hm hheld]
  show _ = ((m.module.execute s.store held).map Module.view).map _
  cases m.module.execute s.store held with
  | error e => rfl
  | ok x =>
    obtain ⟨r, m', st⟩ := x
    have hrefused : refusal ((r.mapError (refuse m)).map fun _ => (m.withModule m', [lossOf (m.withModule m')])) =
        refusal (r.mapError (refuse m.forget)) := by
      cases m <;> cases r <;> rfl
    have hleft : (s.afterStep name m (r, m', st)).forget = (s.forget.afterStep name m.forget (r, m'.forget, st)).forget := by
      have hstore : ({ s with store := st } : Session).forget = ({ s.forget with store := st } : Session).forget :=
        (forget_forget { s with store := st }).symm
      rw [afterStep, afterStep, forget_withLoaded, forget_withLoaded, hstore, Loaded.forget_withModule, Loaded.forget_withModule]
      simp [Loaded.forget, Module.forget]
    exact congrArg Except.ok (Prod.ext hrefused hleft)

theorem execute_congr (name : String) (hold : List String) (hs : s.forget = s'.forget) :
    SameOutcome (outcome (execute name 1 hold) s) (outcome (execute name 1 hold) s') := by
  have hstore : s.store = s'.store := by
    show s.forget.store = s'.forget.store
    rw [hs]
  have hmodules : (s.modules.lookup name).map Loaded.forget = (s'.modules.lookup name).map Loaded.forget := by
    rw [← lookup_forget, ← lookup_forget]
    show s.forget.modules.lookup name = s'.forget.modules.lookup name
    rw [hs]
  cases hm : s.modules.lookup name <;> cases hm' : s'.modules.lookup name <;> rw [hm, hm'] at hmodules
  case none.none =>
    rw [outcome, outcome, perform_execute_unnamed hm, perform_execute_unnamed hm']
    exact .ok _ hs
  case none.some => cases hmodules
  case some.none => cases hmodules
  case some.some m m' =>
    cases hheld : hold.mapM s.store.find? with
    | none =>
      rw [outcome, outcome, perform_execute_unheld hm hheld, perform_execute_unheld hm' (hstore ▸ hheld)]
      exact .ok _ hs
    | some held =>
      have hforget : m.forget = m'.forget := Option.some.inj hmodules
      rw [SameOutcome, outcome_execute hm hheld, outcome_execute hm' (hstore ▸ hheld), hs, hforget]

/-- A command leaves sessions that differ in pointers only behind if it finds such sessions. -/
theorem Command.perform_congr (command : Command) (hs : s.forget = s'.forget) :
    SameOutcome (command.perform s) (command.perform s') := by
  cases command with
  | construct c => exact (oblivious_extend SessionError.graph _).outcome hs
  | create name values => exact (oblivious_create name values).outcome hs
  | zeros name count => exact (oblivious_zeros name count).outcome hs
  | share name source => exact (oblivious_share name source).outcome hs
  | drop name => exact (oblivious_drop name).outcome hs
  | set name i value => exact (oblivious_overwrite name fun st t => st.set t i value).outcome hs
  | copyFrom name values => exact (oblivious_overwrite name fun st t => st.copyFrom t values).outcome hs
  | bind x name => exact (oblivious_bind x name).outcome hs
  | unbind x => exact (oblivious_unbind x).outcome hs
  | build steps name => exact (oblivious_build steps name).outcome hs
  | compile program name backend => exact (oblivious_compile program name backend).outcome hs
  | execute name hold => exact execute_congr name hold hs

theorem runCommands_congr (commands : List Command) (hs : s.forget = s'.forget) :
    SameOutcome (runCommands commands s) (runCommands commands s') := by
  induction commands generalizing s s' with
  | nil => exact .ok _ hs
  | cons command commands ih =>
    refine (command.perform_congr hs).bind fun hs₁ => (ih hs₁).bind fun hs₂ => ?_
    exact .ok _ hs₂

end Session

end TensorLoom
