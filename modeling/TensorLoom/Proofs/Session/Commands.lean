import TensorLoom.Proofs.Graph.WellFormed
import TensorLoom.Proofs.Module.Compile
import TensorLoom.Proofs.Module.Leaves
import TensorLoom.Session.Modules
/-
# Commands to a session

A session is driven by commands: nodes are constructed, storages made, shared, dropped and
overwritten, leaves bound and unbound, programs built, compiled and executed, in any order.
What one command can do to a session is said once (`Command.moves`), for whatever is to hold
along a run.
-/

namespace TensorLoom

/-- The steps, performed over the graph, finish with the program. -/
def Program.FinishedBy (g : Graph) (steps : List Lowering.Step) (p : Program) : Prop :=
  ∃ reports l, Session.performSteps g {} steps = .ok (reports, l) ∧ l.finish = .ok p

/-! ## Actions -/

namespace Session

section
variable {β γ : Type} {s s' : Session}

theorem perform_bind (a : Action β) (f : β → Action γ) (s : Session) :
    perform (a >>= f) s = perform a s >>= fun x =>
      match x.1 with
      | .ok b => perform (f b) x.2
      | .error e => .ok (.error e, x.2) := by
  show (a.run >>= ExceptT.bindCont f).run s = _
  rw [StateT.run_bind]
  refine congrArg (perform a s >>= ·) (funext fun x => ?_)
  rcases x with ⟨_ | _, _⟩ <;> rfl

theorem perform_bind_ok {a : Action β} {f : β → Action γ} {b : β} (h : perform a s = .ok (.ok b, s')) :
    perform (a >>= f) s = perform (f b) s' := by
  rw [perform_bind, h]
  rfl

theorem perform_get_bind (f : Session → Action β) : perform (get >>= f) s = perform (f s) s := rfl

theorem perform_request (r : Except SessionError β) : perform (request r) s = .ok (r, s) := rfl

theorem perform_answer (r : Except Fault (Except SessionError β)) : perform (answer r) s = r.map fun b => (b, s) := by
  cases r <;> rfl

theorem perform_words (r : Except Fault β) : perform (words r) s = r.map fun b => (.ok b, s) := by
  cases r <;> rfl

theorem perform_tensor (name : String) : perform (tensor name) s =
    .ok ((s.store.find? name).elim (.error (.missing .tensor)) .ok, s) := by
  rw [tensor, perform_get_bind]
  cases s.store.find? name <;> rfl

theorem perform_tensors (names : List String) : perform (names.mapM tensor) s =
    .ok ((names.mapM s.store.find?).elim (.error (.missing .tensor)) .ok, s) := by
  induction names with
  | nil => rfl
  | cons name names ih =>
    rw [List.mapM_cons, List.mapM_cons, perform_bind, perform_tensor]
    cases s.store.find? name with
    | none => rfl
    | some t =>
      show perform (names.mapM tensor >>= fun ts => pure (t :: ts)) s = _
      rw [perform_bind, ih]
      cases names.mapM s.store.find? <;> rfl

end

/-! ## Commands -/

/-- What can be asked of a session. -/
inductive Command where
  | construct (c : Construction)
  | create (name : String) (values : Array Float)
  | zeros (name : String) (count : Nat)
  | share (name source : String)
  | drop (name : String)
  | set (name : String) (i : Nat) (value : Float)
  | copyFrom (name : String) (values : Array Float)
  | bind (x : NodeId) (name : String)
  | unbind (x : NodeId)
  | build (steps : List Lowering.Step) (name : String)
  | compile (program name : String) (backend : Backend Float)
  /-- Executes the module while the tensors in `hold` are being read. -/
  | execute (name : String) (hold : List String)

/-- Why an action was refused, if it was. -/
def refusal {β : Type} : Except SessionError β → Option SessionError
  | .error e => some e
  | .ok _ => none

/-- What comes of an action, whether it is answered or refused. -/
def outcome {β : Type} (action : Action β) (s : Session) : Except Fault (Option SessionError × Session) :=
  (perform action s).map fun x => (refusal x.1, x.2)

def Command.perform : Command → Session → Except Fault (Option SessionError × Session)
  | construct c => outcome (Session.construct c)
  | create name values => outcome (Session.create name values)
  | zeros name count => outcome (Session.zeros name count)
  | share name source => outcome (Session.share name source)
  | drop name => outcome (Session.drop name)
  | set name i value => outcome (setElement name i value)
  | copyFrom name values => outcome (Session.copyFrom name values)
  | bind x name => outcome (Session.bind x name)
  | unbind x => outcome (Session.unbind x)
  | build steps name => outcome (buildProgram steps (some name))
  | compile program name backend => outcome (Session.compile program name backend)
  | execute name hold => outcome (Session.execute name 1 hold)

/-- Performs commands one after the other: why each was refused, if it was, and the session in
the end. -/
def runCommands : List Command → Session → Except Fault (List (Option SessionError) × Session)
  | [], s => .ok ([], s)
  | command :: commands, s => do
    let (refusal, s) ← command.perform s
    let (refusals, s) ← runCommands commands s
    return (refusal :: refusals, s)

/-- The session in which the name stands for what was loaded. -/
def withLoaded (s : Session) (name : String) (m : Loaded) : Session := { s with modules := put name m s.modules }

/-- What a command can do to a session. -/
inductive Moves (s : Session) : Session → Prop
  | stay : Moves s s
  | graph {g : Graph} (h : s.graph.Grows g) : Moves s { s with graph := g }
  | store {st : Store Float} (h : s.store.Step st) (hbindings : ∀ x ∈ st.bindings, x ∈ s.store.bindings) :
    Moves s { s with store := st }
  | bind {x : NodeId} {leaf : LeafHandle} {name : String} {t : StorageId} {st : Store Float}
    (hleaf : s.graph.leafHandle x = .ok (.ok leaf)) (ht : s.store.find? name = some t) (h : s.store.bind leaf t = .ok st) :
    Moves s { s with store := st }
  | build {steps : List Lowering.Step} {p : Program} (name : String) (h : p.FinishedBy s.graph steps) :
    Moves s { s with programs := (name, p) :: s.programs.filter (·.1 != name) }
  | compile {p : Program} {m : Module Float} {programName : String} (name : String) (hp : s.programs.lookup programName = some p)
    {k : Kernel Float} (h : Module.create .double p k = .ok m) : Moves s (s.withLoaded name (.plain m))
  | execute {name : String} {m : Loaded} {m' : Module Float} {st : Store Float} {held : List StorageId}
    {r : Except ExecuteError Unit} (hm : s.modules.lookup name = some m)
    (h : m.module.execute s.store held = .ok (r, m', st)) :
    Moves s ({ s with store := st }.withLoaded name (m.withModule m'))

section
variable {s s' : Session}

theorem of_outcome {β : Type} {a : Action β} {refusal : Option SessionError} (h : outcome a s = .ok (refusal, s')) :
    ∃ r, perform a s = .ok (r, s') := by
  unfold outcome at h
  cases hx : perform a s with
  | error e =>
    rw [hx] at h
    cases h
  | ok x =>
    rw [hx] at h
    cases h
    exact ⟨x.1, rfl⟩

/-! ## Names of modules -/

theorem lookup_put (name : String) (m : Loaded) (entries : List (String × Loaded)) :
    (put name m entries).lookup name = some m := by
  induction entries with
  | nil => simp [put]
  | cons entry entries ih =>
    obtain ⟨name', m'⟩ := entry
    unfold put
    by_cases hname : name' = name
    · simp [hname]
    · simp [hname, List.lookup_cons, beq_false_of_ne (Ne.symm hname), ih]

theorem put_of_lookup {name : String} {m : Loaded} {entries : List (String × Loaded)} (h : entries.lookup name = some m) :
    put name m entries = entries := by
  induction entries with
  | nil => cases h
  | cons entry entries ih =>
    obtain ⟨name', m'⟩ := entry
    unfold put
    by_cases hname : name' = name
    · simp_all
    · rw [List.lookup_cons, beq_false_of_ne (Ne.symm hname)] at h
      simp [hname, ih h]

theorem mem_put {name : String} {m : Loaded} {entries : List (String × Loaded)} {x : String × Loaded}
    (h : x ∈ put name m entries) : x = (name, m) ∨ x ∈ entries := by
  induction entries with
  | nil => exact .inl (List.mem_singleton.1 h)
  | cons entry entries ih =>
    unfold put at h
    split at h
    · exact (List.mem_cons.1 h).imp_right (List.mem_cons_of_mem _)
    · rcases List.mem_cons.1 h with rfl | h
      · exact .inr List.mem_cons_self
      · exact (ih h).imp_right (List.mem_cons_of_mem _)

/-! ## What actions do -/

theorem perform_loaded (name : String) : perform (loaded name) s =
    .ok ((s.modules.lookup name).elim (.error (.missing .module)) .ok, s) := by
  rw [loaded, perform_get_bind]
  cases s.modules.lookup name <;> rfl

theorem perform_loaded_ok {name : String} {m : Loaded} (hm : s.modules.lookup name = some m) :
    perform (loaded name) s = .ok (.ok m, s) := by
  rw [perform_loaded, hm]
  rfl

theorem perform_program (name : String) : perform (program name) s =
    .ok ((s.programs.lookup name).elim (.error (.missing .program)) .ok, s) := by
  rw [program, perform_get_bind]
  cases s.programs.lookup name <;> rfl

/-- The session after a step. -/
def afterStep (s : Session) (name : String) (m : Loaded) (x : Except ExecuteError Unit × Module Float × Store Float) : Session :=
  { s with store := x.2.2 }.withLoaded name (m.withModule x.2.1)

theorem perform_step {name : String} {m : Loaded} (hm : s.modules.lookup name = some m) (held : List StorageId) :
    perform (step name held) s = (m.module.execute s.store held).map fun x =>
      ((x.1.mapError (refuse m)).map fun _ => m.withModule x.2.1, s.afterStep name m x) := by
  have hloaded := perform_loaded_ok hm
  rw [step, perform_bind_ok hloaded, perform_get_bind, perform_bind, perform_words]
  rcases m.module.execute s.store held with _ | ⟨_ | _, _, _⟩ <;> rfl

/-- An execution by name. -/
theorem perform_execute {name : String} {m : Loaded} (hm : s.modules.lookup name = some m) {hold : List String}
    {held : List StorageId} (hheld : hold.mapM s.store.find? = some held) :
    perform (execute name 1 hold) s = (m.module.execute s.store held).map fun x =>
      ((x.1.mapError (refuse m)).map fun _ => (m.withModule x.2.1, [lossOf (m.withModule x.2.1)]), s.afterStep name m x) := by
  have hloaded := perform_loaded_ok hm
  have htensors : perform (hold.mapM tensor) s = .ok (.ok held, s) := by
    rw [perform_tensors, hheld]
    rfl
  have htimes : perform (executeTimes name held 1) s = (m.module.execute s.store held).map fun x =>
      ((x.1.mapError (refuse m)).map fun _ => [lossOf (m.withModule x.2.1)], s.afterStep name m x) := by
    rw [executeTimes, perform_bind, perform_step hm]
    rcases m.module.execute s.store held with _ | ⟨_ | _, _, _⟩ <;> rfl
  rw [execute, perform_bind_ok hloaded, perform_bind_ok htensors, perform_bind, htimes]
  rcases m.module.execute s.store held with _ | ⟨_ | _, m', st⟩
  · rfl
  · rfl
  · have hnew : perform (loaded name) (s.afterStep name m (.ok (), m', st)) = _ := perform_loaded_ok (lookup_put name _ s.modules)
    exact perform_bind_ok hnew

theorem perform_execute_unnamed {name : String} (hm : s.modules.lookup name = none) (hold : List String) :
    perform (execute name 1 hold) s = .ok (.error (.missing .module), s) := by
  rw [execute, perform_bind, perform_loaded, hm]
  rfl

theorem perform_execute_unheld {name : String} {m : Loaded} (hm : s.modules.lookup name = some m) {hold : List String}
    (hheld : hold.mapM s.store.find? = none) : perform (execute name 1 hold) s = .ok (.error (.missing .tensor), s) := by
  have hloaded := perform_loaded_ok hm
  rw [execute, perform_bind_ok hloaded, perform_bind, perform_tensors, hheld]
  rfl

theorem perform_extend {ε β : Type} {wrap : ε → SessionError} {b : Extend ε β} {r : Except SessionError β}
    (h : perform (extend wrap b) s = .ok (r, s')) : ∃ r₀ g, b.runOn s.graph = .ok (r₀, g) ∧ s' = { s with graph := g } := by
  unfold extend at h
  rw [perform_get_bind, perform_bind, perform_words] at h
  cases hrun : b.runOn s.graph with
  | error e =>
    rw [hrun] at h
    cases h
  | ok x =>
    rw [hrun] at h
    cases h
    exact ⟨x.1, x.2, rfl, rfl⟩

theorem construct_moves {c : Construction} {r : Except SessionError (NodeId × Shape)}
    (h : perform (construct c) s = .ok (r, s')) : Moves s s' := by
  obtain ⟨r₀, g, hrun, rfl⟩ := perform_extend h
  refine .graph (Extend.Grows.bind c.build_grows (fun id g₁ r₁ g₂ hshape => ?_) hrun)
  exact Build.grows_shapeOf hshape fun _ hpure => Extend.Grows.pure _ hpure

theorem create_moves {name : String} {values : Array Float} {r : Except SessionError Unit}
    (h : perform (create name values) s = .ok (r, s')) : Moves s s' := by
  cases h
  exact .store (.create s.store name values) fun x hx => hx

theorem zeros_moves {name : String} {count : Nat} {r : Except SessionError Unit}
    (h : perform (zeros name count) s = .ok (r, s')) : Moves s s' := by
  rw [zeros, perform_bind, perform_words] at h
  cases hvalues : allocate count (0.0 : Float) with
  | error e =>
    rw [hvalues] at h
    cases h
  | ok values =>
    rw [hvalues] at h
    exact create_moves h

/-- An action on the storage of a name does nothing if there is none. -/
theorem of_tensor_bind {β : Type} {name : String} {f : StorageId → Action β} {r : Except SessionError β}
    (h : perform (tensor name >>= f) s = .ok (r, s')) :
    s' = s ∨ ∃ t, s.store.find? name = some t ∧ perform (f t) s = .ok (r, s') := by
  rw [perform_bind, perform_tensor] at h
  cases ht : s.store.find? name with
  | none =>
    rw [ht] at h
    cases h
    exact .inl rfl
  | some t =>
    rw [ht] at h
    exact .inr ⟨t, rfl, h⟩

theorem share_moves {name source : String} {r : Except SessionError Unit}
    (h : perform (share name source) s = .ok (r, s')) : Moves s s' := by
  rcases of_tensor_bind h with rfl | ⟨t, ht, h⟩
  · exact .stay
  · cases h
    exact .store (.share name ht) fun x hx => hx

theorem drop_moves {name : String} {r : Except SessionError Bool} (h : perform (drop name) s = .ok (r, s')) : Moves s s' := by
  cases h
  exact .store (.drop s.store name) fun x hx => hx

theorem read_eq_ok {name : String} {r : Except SessionError (Array Float)} (h : perform (read name) s = .ok (r, s')) :
    s' = s := by
  rcases of_tensor_bind h with rfl | ⟨t, -, h⟩
  · rfl
  · cases h
    rfl

/-- Overwriting goes through a fallible operation of the store. -/
theorem overwrite_moves {name : String} {x : Except Fault (Store Float)} {r : Except SessionError (Array Float)}
    (h : perform (words x >>= fun st => setStore st >>= fun _ => read name) s = .ok (r, s'))
    (hx : ∀ st, x = .ok st → s.store.Step st) (hbindings : ∀ st, x = .ok st → st.bindings = s.store.bindings) : Moves s s' := by
  rw [perform_bind, perform_words] at h
  cases hst : x with
  | error e =>
    rw [hst] at h
    cases h
  | ok st =>
    rw [hst] at h
    have hread : perform (read name) { s with store := st } = .ok (r, s') := h
    obtain rfl := read_eq_ok hread
    exact .store (hx st hst) fun x hx => hbindings st hst ▸ hx

theorem set_moves {name : String} {i : Nat} {value : Float} {r : Except SessionError (Array Float)}
    (h : perform (setElement name i value) s = .ok (r, s')) : Moves s s' := by
  rcases of_tensor_bind h with rfl | ⟨t, -, h⟩
  · exact .stay
  · refine overwrite_moves h (fun st hst => .set hst) fun st hst => ?_
    unfold Store.set at hst
    split at hst <;> cases hst
    rfl

theorem copyFrom_moves {name : String} {values : Array Float} {r : Except SessionError (Array Float)}
    (h : perform (copyFrom name values) s = .ok (r, s')) : Moves s s' := by
  rcases of_tensor_bind h with rfl | ⟨t, -, h⟩
  · exact .stay
  · refine overwrite_moves h (fun st hst => .copy hst) fun st hst => ?_
    unfold Store.copyFrom at hst
    split at hst <;> cases hst
    rfl

/-- An action on a leaf does nothing to other nodes. -/
theorem of_leaf_bind {β : Type} {x : NodeId} {f : LeafHandle → Action β} {r : Except SessionError β}
    (h : perform (leaf x >>= f) s = .ok (r, s')) :
    s' = s ∨ ∃ handle, s.graph.leafHandle x = .ok (.ok handle) ∧ perform (f handle) s = .ok (r, s') := by
  rw [perform_bind, leaf, perform_get_bind, perform_answer] at h
  rcases hleaf : s.graph.leafHandle x with _ | e | handle
  · rw [hleaf] at h
    cases h
  · rw [hleaf] at h
    cases h
    exact .inl rfl
  · rw [hleaf] at h
    exact .inr ⟨handle, rfl, h⟩

theorem bind_moves {x : NodeId} {name : String} {r : Except SessionError Bool}
    (h : perform (bind x name) s = .ok (r, s')) : Moves s s' := by
  rcases of_leaf_bind h with rfl | ⟨handle, hleaf, h⟩
  · exact .stay
  rcases of_tensor_bind h with rfl | ⟨t, ht, h⟩
  · exact .stay
  rw [perform_get_bind, perform_bind, perform_request] at h
  cases hbind : s.store.bind handle t with
  | error e =>
    rw [hbind] at h
    cases h
    exact .stay
  | ok st =>
    rw [hbind] at h
    cases h
    exact .bind hleaf ht hbind

theorem unbind_moves {x : NodeId} {r : Except SessionError Bool} (h : perform (unbind x) s = .ok (r, s')) : Moves s s' := by
  rcases of_leaf_bind h with rfl | ⟨handle, -, h⟩
  · exact .stay
  · cases h
    exact .store (.unbind s.store handle.id) fun x hx => List.mem_of_mem_filter hx

theorem build_moves {steps : List Lowering.Step} {name : String}
    {r : Except SessionError (List StepReport × Program × Except LowerError Program)}
    (h : perform (buildProgram steps (some name)) s = .ok (r, s')) : Moves s s' := by
  unfold buildProgram at h
  rw [perform_get_bind] at h
  cases hsteps : performSteps s.graph {} steps with
  | error e =>
    rw [perform_bind, perform_words, hsteps] at h
    cases h
  | ok x =>
    have hwords : perform (words (performSteps s.graph {} steps)) s = .ok (.ok x, s) := by
      rw [perform_words, hsteps]
      rfl
    rw [perform_bind_ok hwords] at h
    dsimp only at h
    cases hfinish : x.2.finish with
    | error e =>
      rw [hfinish] at h
      cases h
      exact .stay
    | ok p =>
      rw [hfinish] at h
      cases h
      exact .build name ⟨x.1, x.2, hsteps, hfinish⟩

theorem compile_moves {programName name : String} {backend : Backend Float} {r : Except SessionError (Module Float)}
    (h : perform (compile programName name backend) s = .ok (r, s')) : Moves s s' := by
  rw [compile, perform_bind, perform_program] at h
  cases hp : s.programs.lookup programName with
  | none =>
    rw [hp] at h
    cases h
    exact .stay
  | some p =>
    rw [hp] at h
    change perform (words (TensorLoom.compile .double p backend) >>= _) s = _ at h
    rw [perform_bind, perform_words] at h
    rcases hcompile : TensorLoom.compile .double p backend with _ | e | m
    · rw [hcompile] at h
      cases h
    · rw [hcompile] at h
      cases h
      exact .stay
    · rw [hcompile] at h
      cases h
      obtain ⟨k, -, hcreate⟩ := create_of_compile hcompile
      exact .compile name hp hcreate

theorem execute_moves {name : String} {hold : List String} {r : Except SessionError (Loaded × List Float)}
    (h : perform (execute name 1 hold) s = .ok (r, s')) : Moves s s' := by
  cases hloaded : s.modules.lookup name with
  | none =>
    cases (perform_execute_unnamed hloaded hold).symm.trans h
    exact .stay
  | some m =>
    cases hheld : hold.mapM s.store.find? with
    | none =>
      cases (perform_execute_unheld hloaded hheld).symm.trans h
      exact .stay
    | some held =>
      rw [perform_execute hloaded hheld] at h
      cases hexecute : m.module.execute s.store held with
      | error e =>
        rw [hexecute] at h
        cases h
      | ok x =>
        rw [hexecute] at h
        cases h
        exact .execute hloaded hexecute

theorem Command.moves {command : Command} {refusal : Option SessionError} (h : command.perform s = .ok (refusal, s')) :
    Moves s s' := by
  cases command with
  | construct c => exact (of_outcome h).elim fun r => construct_moves
  | create name values => exact (of_outcome h).elim fun r => create_moves
  | zeros name count => exact (of_outcome h).elim fun r => zeros_moves
  | share name source => exact (of_outcome h).elim fun r => share_moves
  | drop name => exact (of_outcome h).elim fun r => drop_moves
  | set name i value => exact (of_outcome h).elim fun r => set_moves
  | copyFrom name values => exact (of_outcome h).elim fun r => copyFrom_moves
  | bind x name => exact (of_outcome h).elim fun r => bind_moves
  | unbind x => exact (of_outcome h).elim fun r => unbind_moves
  | build steps name => exact (of_outcome h).elim fun r => build_moves
  | compile program name backend => exact (of_outcome h).elim fun r => compile_moves
  | execute name hold => exact (of_outcome h).elim fun r => execute_moves

end

end Session

end TensorLoom
