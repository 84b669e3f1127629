import TensorLoom.Proofs.Training.Lower
/-
# Gradient descent

An execution of a training step is one step of gradient descent on the contents of the
leaves (`Compiled.execute`), and so `n` executions are `n` steps (`Compiled.run_descends`).
They succeed whenever the leaves are bound to storages of their lengths
(`Compiled.run_succeeds`).
-/

namespace TensorLoom

/-- No two leaves are bound to one storage. -/
def Store.Separate {α : Type} (st : Store α) (g : Graph) : Prop :=
  ∀ {n n' s : Nat}, g.HasLeaf n → g.HasLeaf n' → st.bound? n = some s → st.bound? n' = some s → n = n'

namespace Training

open Lowering

/-! ## The step -/

section
variable {α : Type} (A : Algebra α)

/-- The squared differences of the target and the root. -/
def squaredError (g : Graph) (root target : Nat) (leaves : Leaves α) : Array α :=
  Array.zipWith (fun t r => A.binary .mul (A.binary .sub t r) (A.binary .sub t r)) (g.value A leaves target).toArray
    (g.value A leaves root).toArray

/-- Every leaf that has a gradient becomes itself less its gradient times the rate, all at the
same time. -/
def descend (g : Graph) (grads : Gradients) (rate : Float) (leaves : Leaves α) : Leaves α := fun n =>
  match grads.lookup n with
  | none => leaves n
  | some d => Array.zipWith (fun w e => A.binary .sub w (A.binary .mul e (A.lit rate))) (leaves n)
      (g.value A leaves d).toArray

end

/-- Executes a training step `n` times, up to the first refusal: the squared differences of
each time, and the store in the end. -/
def run {α : Type} (held : List StorageId) :
    Nat → Training α → Store α → Except Fault (Except ExecuteError (List (Array α) × Store α))
  | 0, _, st => .ok (.ok ([], st))
  | n + 1, t, st =>
    match t.module.execute st held with
    | .error fault => .error fault
    | .ok (.error e, _) => .ok (.error e)
    | .ok (.ok (), m, st') =>
      (run held n { t with module := m } st').map fun r => r.map fun (losses, st'') =>
        (lossValues { t with module := m } :: losses, st'')

/-- What `n` steps do to a store: the leaves go down `n` times, and no storage is changed but
those of the weights. -/
structure Descended {α : Type} (A : Algebra α) (g : Graph) (grads : Gradients) (rate : Float) (g' : Graph)
    (weights : List Nat) (n : Nat) (st st' : Store α) : Prop where
  names : st'.names = st.names
  bindings : st'.bindings = st.bindings
  leaves : ∀ x, g'.HasLeaf x → st'.leaves x = (descend A g grads rate)^[n] st.leaves x
  other : ∀ s : Nat, (∀ w ∈ weights, st.bound? w ≠ some s) → st'.contents[s]? = st.contents[s]?

/-! ## Values of the plan -/

section
variable {α : Type} (A : Algebra α) (leaves : Leaves α) {g g' : Graph} {rate : Float} {root : Nat}

theorem value_binary (hg : g.WellFormed) {op : BinaryOp} {c x y : Nat} {s : Shape}
    (hn : g.node? c = some ⟨.binary op x y, s⟩) (hx : g.shapeAt x = s) (hy : g.shapeAt y = s) :
    g.value A leaves c = List.zipWith (A.binary op) (g.value A leaves x) (g.value A leaves y) := by
  rw [Graph.value_eq, Graph.value_eq, Graph.value_eq, hx, hy, Graph.shapeAt_of_node? hn, List.zipWith_map, List.zipWith_self]
  refine List.map_congr_left fun idx hidx => ?_
  rw [hg.element_eq, Graph.elementStep, hn]
  simp only [hx, hy, Shape.restrict_self (Shape.mem_indices.1 hidx)]

theorem value_scaled (hg : g.WellFormed) {op : BinaryOp} {c x y : Nat} {s : Shape} {v : Float}
    (hn : g.node? c = some ⟨.binary op x y, s⟩) (hx : g.shapeAt x = s) (hy : g.node? y = some ⟨.constant v, []⟩) :
    g.value A leaves c = (g.value A leaves x).map fun a => A.binary op a (A.lit v) := by
  rw [Graph.value_eq, Graph.value_eq, hx, Graph.shapeAt_of_node? hn, List.map_map]
  refine List.map_congr_left fun idx hidx => ?_
  rw [hg.element_eq, Graph.elementStep, hn]
  simp only [hx, Shape.restrict_self (Shape.mem_indices.1 hidx), Function.comp_apply]
  rw [hg.element_eq y, Graph.elementStep, hy]

theorem Update.value (hg : g.WellFormed) {w d next : Nat} (h : Update g rate w d next) :
    g.value A leaves next = List.zipWith (fun a e => A.binary .sub a (A.binary .mul e (A.lit rate)))
      (g.value A leaves w) (g.value A leaves d) := by
  obtain ⟨step, factor, hfactor, hstep, hnext⟩ := h.next
  rw [value_binary A leaves hg hnext rfl (Graph.shapeAt_of_node? hstep), value_scaled A leaves hg hstep h.shape hfactor,
    List.zipWith_map_right]

theorem value_loss (hg₁ : (lossGraph g root).WellFormed) (hroot : root < g.length) :
    ((lossGraph g root).value A leaves (g.length + 2)).toArray = squaredError A (lossGraph g root) root g.length leaves := by
  have hshape : ∀ {x : Nat} {kind : Kind}, (lossGraph g root).node? x = some ⟨kind, g.shapeAt root⟩ →
      (lossGraph g root).shapeAt x = g.shapeAt root := Graph.shapeAt_of_node?
  have hdifference := hshape (node?_difference g root)
  rw [value_binary A leaves hg₁ (node?_loss g root) hdifference hdifference,
    value_binary A leaves hg₁ (node?_difference g root) (hshape (node?_target g root))
      ((lossGraph_extends g root).shapeAt hroot), squaredError,
    List.zipWith_self, List.map_zipWith, ← Array.toList_inj, Array.toList_zipWith]

end

/-! ## Only leaves matter -/

section
variable {α : Type} {A : Algebra α} {leaves leaves' : Leaves α} {g g' : Graph} {rate : Float} {grads : Gradients}

theorem value_congr (hg : g.WellFormed) (h : ∀ x, g.HasLeaf x → leaves x = leaves' x) (id : Nat) :
    g.value A leaves id = g.value A leaves' id := by
  rw [Graph.value_eq, Graph.value_eq, hg.element_congr fun _ hn hleaf => h _ ⟨_, hn, hleaf⟩]

theorem squaredError_congr (hg : g.WellFormed) {root target : Nat} (h : ∀ x, g.HasLeaf x → leaves x = leaves' x) :
    squaredError A g root target leaves = squaredError A g root target leaves' := by
  rw [squaredError, squaredError, value_congr hg h, value_congr hg h]

theorem descend_congr (hg : g.WellFormed) (h : ∀ x, g.HasLeaf x → leaves x = leaves' x) {n : Nat}
    (hn : leaves n = leaves' n) : descend A g grads rate leaves n = descend A g grads rate leaves' n := by
  unfold descend
  cases grads.lookup n with
  | none => exact hn
  | some d => simp only [hn, value_congr hg h]

/-- What agrees on the leaves of a later graph still does after any number of steps. -/
theorem descend_iterate_congr (hg : g.WellFormed) (hext : g.Extends g')
    (h : ∀ x, g'.HasLeaf x → leaves x = leaves' x) (k : Nat) :
    ∀ x, g'.HasLeaf x → (descend A g grads rate)^[k] leaves x = (descend A g grads rate)^[k] leaves' x := by
  induction k generalizing leaves leaves' with
  | zero => exact h
  | succ k ih =>
    rw [Function.iterate_succ_apply, Function.iterate_succ_apply]
    exact ih fun x hx => descend_congr hg (fun y hy => h y (hy.grow hext)) (h x hx)

end

/-! ## Stores that differ in contents only -/

section
variable {α : Type} {st st' : Store α} {n : Nat}

theorem bound?_congr (hnames : st'.names = st.names) (hbindings : st'.bindings = st.bindings) : st'.bound? = st.bound? := by
  have hlive : st'.live = st.live := by
    funext s
    rw [Store.live, Store.live, hnames]
  funext n
  rw [Store.bound?, Store.bound?, hlive, hbindings]

theorem leaves_eq {s : Nat} {contents : Array α} (hnames : st'.names = st.names) (hbindings : st'.bindings = st.bindings)
    (hbound : st.bound? n = some s) (h : st'.contents[s]? = some contents) : st'.leaves n = contents := by
  rw [Module.leaves_of_bound ((bound?_congr hnames hbindings).symm ▸ hbound), Store.values, Array.getD_eq_getD_getElem?, h,
    Option.getD_some]

theorem leaves_congr (hnames : st'.names = st.names) (hbindings : st'.bindings = st.bindings)
    (h : ∀ s : Nat, st.bound? n = some s → st'.contents[s]? = st.contents[s]?) : st'.leaves n = st.leaves n := by
  rw [Store.leaves, Store.leaves, bound?_congr hnames hbindings]
  cases hbound : st.bound? n with
  | none => rfl
  | some s =>
    simp only [Option.map_some, Option.getD_some, Store.values, Array.getD_eq_getD_getElem?]
    rw [h s hbound]

end

section
variable {α : Type} {A : Algebra α} {g g' : Graph} {grads : Gradients} {rate : Float} {weights : List Nat} {n : Nat}
  {st st₁ st' : Store α}

theorem Descended.bound? (h : Descended A g grads rate g' weights n st st') : st'.bound? = st.bound? :=
  bound?_congr h.names h.bindings

theorem Descended.separate (h : Descended A g grads rate g' weights n st st') (hsep : st.Separate g') : st'.Separate g' := by
  intro x x' s hx hx' hs hs'
  rw [h.bound?] at hs hs'
  exact hsep hx hx' hs hs'

/-- A leaf that is none of the weights keeps its contents. -/
theorem Descended.kept (h : Descended A g grads rate g' weights n st st') (hsep : st.Separate g')
    (hweights : ∀ w ∈ weights, g'.HasLeaf w) {x : Nat} (hx : g'.HasLeaf x) (hnot : x ∉ weights) :
    st'.leaves x = st.leaves x := by
  refine leaves_congr h.names h.bindings fun s hs => h.other s fun w hw hbound => hnot ?_
  obtain rfl := hsep (hweights w hw) hx hbound hs
  exact hw

theorem descended_zero (st : Store α) : Descended A g grads rate g' weights 0 st st :=
  ⟨rfl, rfl, fun _ _ => rfl, fun _ _ => rfl⟩

theorem Descended.succ (hg : g.WellFormed) (hext : g.Extends g')
    (h₁ : Descended A g grads rate g' weights 1 st st₁) (h : Descended A g grads rate g' weights n st₁ st') :
    Descended A g grads rate g' weights (n + 1) st st' := by
  refine ⟨h.names.trans h₁.names, h.bindings.trans h₁.bindings, fun x hx => ?_, fun s hs => ?_⟩
  · rw [h.leaves x hx, Function.iterate_succ_apply]
    exact descend_iterate_congr hg hext h₁.leaves n x hx
  · rw [h.other s (h₁.bound? ▸ hs), h₁.other s hs]

end

/-! ## One execution -/

section
variable {α : Type} {g g₂ g' : Graph} {root out n : Nat} {rate : Float} {plan : Plan} {grads : Gradients} {l : Lowering}
  {nodes : List Nat} {st st' : Store α} {held : List StorageId} {m m' : Module α} {A : Arith α}

theorem Planned.mem_grads_iff (hp : Planned g root rate plan grads g₂ g') {d : Nat} :
    (n, d) ∈ grads ↔ ∃ v, (n, d, v) ∈ plan.updates := by
  rw [← hp.entries]
  simp

theorem Planned.lookup_iff (hp : Planned g root rate plan grads g₂ g') {d : Nat} :
    grads.lookup n = some d ↔ ∃ v, (n, d, v) ∈ plan.updates :=
  (Gradients.lookup_eq_some_iff (hp.keys ▸ hp.increasing)).trans hp.mem_grads_iff

theorem Planned.exists_update (hp : Planned g root rate plan grads g₂ g') (hn : n ∈ plan.weights) :
    ∃ d v, (n, d, v) ∈ plan.updates := by
  rw [← hp.keys] at hn
  obtain ⟨⟨n, d⟩, hmem, rfl⟩ := List.mem_map.1 hn
  exact ⟨d, hp.mem_grads_iff.1 hmem⟩

theorem Planned.hasLeaf (hp : Planned g root rate plan grads g₂ g') (hn : n ∈ plan.weights) : g'.HasLeaf n := by
  obtain ⟨d, v, hv⟩ := hp.exists_update hn
  exact (hp.updates _ hv).weight.hasLeaf

/-- A step keeps the sizes of the leaves. -/
theorem Planned.size_descend (hp : Planned g root rate plan grads g₂ g') {B : Algebra α} {leaves : Leaves α}
    (hn : (leaves n).size = Shape.size (g'.shapeAt n)) :
    (descend B g₂ grads rate leaves n).size = Shape.size (g'.shapeAt n) := by
  unfold descend
  cases hlookup : grads.lookup n with
  | none => exact hn
  | some d =>
    obtain ⟨v, hv⟩ := hp.lookup_iff.1 hlookup
    have hd : d < g₂.length := hp.lt (hp.mem_grads_iff.2 ⟨v, hv⟩)
    have hshape : g₂.shapeAt d = g'.shapeAt n := (hp.appends.grows.shapeAt hd).symm.trans (hp.updates _ hv).shape
    simp [hn, Graph.length_value, hshape]

/-- Only weights of the plan are overwritten. -/
theorem Lowered.mem_weights (hl : Lowered g' plan.loss plan.updates out l nodes)
    (hp : Planned g root rate plan grads g₂ g') (hn : l.program.Overwrites n) : n ∈ plan.weights := by
  obtain ⟨v, hv⟩ := hl.sound.assigns hn
  obtain ⟨d, hd⟩ := hl.assigns.1 hv
  rw [← hp.keys]
  exact List.mem_map_of_mem (hp.mem_grads_iff.2 ⟨v, hd⟩)

theorem Lowered.unshared (hl : Lowered g' plan.loss plan.updates out l nodes)
    (hp : Planned g root rate plan grads g₂ g') (hsep : st.Separate g') : l.program.Unshared st := by
  intro n n' b s len linked hover hb hn hn'
  obtain ⟨-, -, hleaf⟩ := hl.sound.leaf hb
  exact hsep hleaf (hp.hasLeaf (hl.mem_weights hp hover)) hn' hn

theorem Lowered.loss_eq (hl : Lowered g' plan.loss plan.updates out l nodes) (hp : Planned g root rate plan grads g₂ g')
    (hg₁ : (lossGraph g root).WellFormed) (hroot : root < g.length) (hm : m.program = l.program)
    (h : Module.Executed g' A nodes m st m' st') :
    (m'.buffer? out).getD #[] = squaredError A.toAlgebra (lossGraph g root) root plan.target st.leaves := by
  obtain ⟨f, len, hb, hf⟩ := hl.result
  rw [← hm] at hb
  have hbuffer : m'.program.buffers[out]? = some ⟨.scratch f, len⟩ := h.program ▸ hb
  rw [Module.buffer?, hbuffer, h.scratch hb hf, Option.getD_some,
    (hp.appends₂.grows.trans hp.appends.grows).value A.toAlgebra st.leaves hg₁ hp.wellFormed hp.loss_lt, hp.loss,
    hp.target,
    value_loss A.toAlgebra st.leaves hg₁ hroot]

/-- A leaf without a gradient keeps its contents. -/
theorem Lowered.leaves_kept (hl : Lowered g' plan.loss plan.updates out l nodes)
    (hp : Planned g root rate plan grads g₂ g') (hm : m.program = l.program) (hsep : st.Separate g')
    (h : Module.Executed g' A nodes m st m' st') (hn : g'.HasLeaf n) (hlookup : grads.lookup n = none) :
    st'.leaves n = st.leaves n := by
  refine leaves_congr h.names h.bindings fun s hs => h.other fun w hw hbound => ?_
  have hweight := hl.mem_weights hp (hm ▸ hw)
  obtain rfl := hsep (hp.hasLeaf hweight) hn hbound hs
  obtain ⟨d, hd⟩ := hp.exists_update hweight
  cases hlookup.symm.trans (hp.lookup_iff.2 hd)

/-- A weight goes down its gradient. -/
theorem Lowered.leaves_updated (hl : Lowered g' plan.loss plan.updates out l nodes)
    (hp : Planned g root rate plan grads g₂ g') (hm : m.program = l.program) (hcan : m.CanRun st held)
    (h : Module.Executed g' A nodes m st m' st') {d : Nat} (hlookup : grads.lookup n = some d) :
    st'.leaves n = descend A.toAlgebra g₂ grads rate st.leaves n := by
  obtain ⟨v, hv⟩ := hp.lookup_iff.1 hlookup
  obtain ⟨f, fn, linked, len, hfn, hf, hb⟩ := hl.assigns.2 ⟨d, hv⟩
  obtain ⟨-, hlen, node, hnode, hleaf⟩ := hl.sound.leaf hb
  rw [← hm] at hfn hb
  obtain ⟨-, s, hbound, hsize, -⟩ := hcan hb
  rw [Graph.shapeAt_of_node? hnode, ← hsize, ← Module.leaves_of_bound hbound] at hlen
  have hd : d < g₂.length := hp.lt (hp.mem_grads_iff.2 ⟨v, hv⟩)
  rw [leaves_eq h.names h.bindings hbound (h.overwritten hfn hf hb hbound),
    (hp.updates _ hv).value A.toAlgebra st.leaves hp.wellFormed,
    hp.wellFormed.value_leaf A.toAlgebra st.leaves hnode hleaf hlen,
    hp.appends.grows.value A.toAlgebra st.leaves hp.wellFormed₂ hp.wellFormed hd, descend, hlookup,
    ← Array.toList_inj]
  exact (Array.toList_zipWith ..).symm

end

/-- A training step that was compiled for a root: what was planned for it, and its program. -/
structure Compiled {α : Type} (A : Arith α) (g : Graph) (root : Nat) (rate : Float) (plan : Plan) (grads : Gradients)
    (g₂ g' : Graph) (t : Training α) : Prop where
  root_lt : root < g.length
  wellFormed₁ : (lossGraph g root).WellFormed
  planned : Planned g root rate plan grads g₂ g'
  lowered : ∃ l nodes, t.module.program = l.program ∧ Lowered g' plan.loss plan.updates t.lossBuffer l nodes
  interpreted : t.module.Interpreted A
  fits : t.module.Fits

section
variable {α : Type} {A : Arith α} {g g₂ g' : Graph} {root : Nat} {rate : Float} {plan : Plan} {grads : Gradients}
  {t : Training α} {st st' : Store α} {held : List StorageId}

theorem Compiled.execute (h : Compiled A g root rate plan grads g₂ g' t) (hcan : t.module.CanRun st held)
    (hsep : st.Separate g') :
    ∃ m st', t.module.execute st held = .ok (.ok (), m, st') ∧
      Compiled A g root rate plan grads g₂ g' { t with module := m } ∧
      lossValues { t with module := m } = squaredError A.toAlgebra (lossGraph g root) root plan.target st.leaves ∧
      Descended A.toAlgebra g₂ grads rate g' plan.weights 1 st st' := by
  have hp := h.planned
  obtain ⟨l, nodes, hm, hl⟩ := h.lowered
  obtain ⟨m, st', hexecute, hdone⟩ := Module.execute_ok hp.wellFormed hl.sound hl.valid hm h.fits hcan
    (hm ▸ hl.unshared hp hsep) h.interpreted
  refine ⟨m, st', hexecute, ⟨h.root_lt, h.wellFormed₁, hp, ⟨l, nodes, hdone.program.trans hm, hl⟩,
      hdone.interpreted h.interpreted, hdone.fits h.fits⟩,
    hl.loss_eq hp h.wellFormed₁ h.root_lt hm hdone, hdone.names, hdone.bindings, fun n hn => ?_, fun s hs => ?_⟩
  · rw [Function.iterate_one]
    cases hlookup : grads.lookup n with
    | none =>
      rw [descend, hlookup]
      exact hl.leaves_kept hp hm hsep hdone hn hlookup
    | some d => exact hl.leaves_updated hp hm hcan hdone hlookup
  · exact hdone.other fun n hn => hs n (hl.mem_weights hp (hm ▸ hn))

/-! ## Any number of executions -/

theorem run_succ_eq_ok {n : Nat} {losses : List (Array α)}
    (h : run held (n + 1) t st = .ok (.ok (losses, st'))) :
    ∃ m st₁ losses₁, t.module.execute st held = .ok (.ok (), m, st₁) ∧
      run held n { t with module := m } st₁ = .ok (.ok (losses₁, st')) ∧
      losses = lossValues { t with module := m } :: losses₁ := by
  unfold run at h
  split at h
  · cases h
  · cases h
  · rename_i m st₁ hexecute
    cases hrun : run held n { t with module := m } st₁ with
    | error fault => simp [hrun, Except.map] at h
    | ok r =>
      cases r with
      | error e => simp [hrun, Except.map] at h
      | ok r =>
        obtain ⟨losses₁, st₂⟩ := r
        simp only [hrun, Except.map, Except.ok.injEq, Prod.mk.injEq] at h
        obtain ⟨rfl, rfl⟩ := h
        exact ⟨m, st₁, losses₁, hexecute, hrun, rfl⟩

theorem Compiled.run_descends (h : Compiled A g root rate plan grads g₂ g' t) (hsep : st.Separate g') {n : Nat}
    {losses : List (Array α)} (hrun : run held n t st = .ok (.ok (losses, st'))) :
    losses = (List.range n).map (fun k => squaredError A.toAlgebra (lossGraph g root) root plan.target
        ((descend A.toAlgebra g₂ grads rate)^[k] st.leaves)) ∧
      Descended A.toAlgebra g₂ grads rate g' plan.weights n st st' := by
  induction n generalizing t st losses with
  | zero =>
    obtain ⟨rfl, rfl⟩ : [] = losses ∧ st = st' := by simpa [run] using hrun
    exact ⟨rfl, descended_zero st⟩
  | succ n ih =>
    have hp := h.planned
    obtain ⟨m, st₁, losses₁, hexecute, hrest, rfl⟩ := run_succ_eq_ok hrun
    obtain ⟨m', st₁', hexecute', hm, hloss, hstep⟩ := h.execute (Module.canRun_of_execute hexecute) hsep
    obtain ⟨rfl, rfl⟩ : m' = m ∧ st₁' = st₁ := by simpa [hexecute'] using hexecute
    obtain ⟨rfl, hdone⟩ := ih hm (hstep.separate hsep) hrest
    refine ⟨?_, hstep.succ hp.wellFormed₂ hp.appends.grows hdone⟩
    rw [List.range_succ_eq_map, List.map_cons, List.map_map, hloss]
    refine congrArg₂ List.cons rfl (List.map_congr_left fun k _ => squaredError_congr h.wellFormed₁ fun x hx => ?_)
    -- the store after one step is one descent further on the leaves of the graph, and nowhere else
    rw [Nat.succ_eq_add_one, Function.iterate_succ_apply]
    exact descend_iterate_congr hp.wellFormed₂ hp.appends.grows hstep.leaves k x
      (hx.grow (hp.appends₂.grows.trans hp.appends.grows))

theorem Compiled.binds (h : Compiled A g root rate plan grads g₂ g' t) (hbinds : st.Binds g' held)
    (hstep : Descended A.toAlgebra g₂ grads rate g' plan.weights 1 st st') : st'.Binds g' held := by
  intro n node hn hleaf
  obtain ⟨s, hbound, hsize, hheld⟩ := hbinds hn hleaf
  have hbound' : st'.bound? n = some s := by rw [hstep.bound?, hbound]
  refine ⟨s, hbound', ?_, hheld⟩
  rw [← Module.leaves_of_bound hbound', hstep.leaves n ⟨node, hn, hleaf⟩, Function.iterate_one,
    h.planned.size_descend (Module.leaves_of_bound hbound ▸ Graph.shapeAt_of_node? hn ▸ hsize), Graph.shapeAt_of_node? hn]

theorem Compiled.run_succeeds (h : Compiled A g root rate plan grads g₂ g' t) (hbinds : st.Binds g' held)
    (hsep : st.Separate g') (n : Nat) : ∃ r, run held n t st = .ok (.ok r) := by
  induction n generalizing t st with
  | zero => exact ⟨_, rfl⟩
  | succ n ih =>
    obtain ⟨l, nodes, hprogram, hl⟩ := h.lowered
    obtain ⟨m, st₁, hexecute, hm, -, hstep⟩ := h.execute (hl.sound.canRun hprogram hbinds) hsep
    obtain ⟨r, hr⟩ := ih hm (h.binds hbinds hstep) (hstep.separate hsep)
    unfold run
    rw [hexecute]
    simp only [hr, Except.map]
    exact ⟨_, rfl⟩

end

end Training

end TensorLoom
