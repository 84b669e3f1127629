import TensorLoom.Except
import TensorLoom.Proofs.Gradient.Rules
/-
# The sweep

The sweep starts with the derivative 1 of the root by itself and visits the nodes downwards;
each of them passes on what was found for it (`Setting.step`). A node that uses a wanted one
is wanted, so that nothing is missing where a step is left out: the table holds for every
wanted node what all steps together find (`propagate_takes`), and every target gets that as
its gradient (`differentiate_makes`).
-/

namespace TensorLoom

/-! ## The gradients by their leaves -/

namespace Gradients

variable {leaf grad : Nat} {grads : Gradients}

theorem mem_keys_insert {x : Nat} : x ∈ (grads.insert leaf grad).map Prod.fst ↔ x = leaf ∨ x ∈ grads.map Prod.fst := by
  induction grads with
  | nil => simp [insert]
  | cons entry rest ih =>
    unfold insert
    split
    · simp
    · split
      · rename_i hsame
        simp [hsame]
      · simp only [List.map_cons, List.mem_cons, ih]
        exact or_left_comm

theorem mem_insert {entry : Nat × Nat} (h : entry ∈ grads.insert leaf grad) : entry = (leaf, grad) ∨ entry ∈ grads := by
  induction grads with
  | nil => exact .inl (List.mem_singleton.1 h)
  | cons first rest ih =>
    unfold insert at h
    split at h
    · exact List.mem_cons.1 h
    · split at h
      · exact (List.mem_cons.1 h).imp_right (List.mem_cons_of_mem _)
      · rcases List.mem_cons.1 h with rfl | h
        · exact .inr List.mem_cons_self
        · exact (ih h).imp_right (List.mem_cons_of_mem _)

theorem increasing_insert (h : (grads.map Prod.fst).Pairwise (· < ·)) :
    ((grads.insert leaf grad).map Prod.fst).Pairwise (· < ·) := by
  induction grads with
  | nil => simp [insert]
  | cons first rest ih =>
    obtain ⟨hfirst, hrest⟩ := List.pairwise_cons.1 h
    unfold insert
    split
    · rename_i hlt
      refine List.pairwise_cons.2 ⟨fun x hx => ?_, h⟩
      rcases List.mem_cons.1 hx with rfl | hx
      · exact hlt
      · exact Nat.lt_trans hlt (hfirst x hx)
    · rename_i hge
      split
      · rename_i hsame
        exact List.pairwise_cons.2 ⟨hsame ▸ hfirst, hrest⟩
      · rename_i hne
        refine List.pairwise_cons.2 ⟨fun x hx => ?_, ih hrest⟩
        rcases mem_keys_insert.1 hx with rfl | hx
        · exact Nat.lt_of_le_of_ne (Nat.le_of_not_lt hge) (Ne.symm hne)
        · exact hfirst x hx

theorem exists_lookup {x : Nat} (h : x ∈ grads.map Prod.fst) : ∃ d, grads.lookup x = some d ∧ (x, d) ∈ grads := by
  obtain ⟨entry, hentry, rfl⟩ := List.mem_map.1 h
  obtain ⟨d, hd⟩ := Option.isSome_iff_exists.1 (List.lookup_isSome_iff.2 ⟨entry, hentry, beq_self_eq_true _⟩)
  obtain ⟨before, behind, rfl, -⟩ := List.lookup_eq_some_iff.1 hd
  exact ⟨d, hd, List.mem_append_right _ List.mem_cons_self⟩

theorem lookup_eq_some_iff (h : (grads.map Prod.fst).Pairwise (· < ·)) {x d : Nat} :
    grads.lookup x = some d ↔ (x, d) ∈ grads := by
  constructor
  · intro hd
    obtain ⟨before, behind, rfl, -⟩ := List.lookup_eq_some_iff.1 hd
    exact List.mem_append_right _ List.mem_cons_self
  · intro hmem
    obtain ⟨d', hd', hmem'⟩ := exists_lookup (List.mem_map_of_mem hmem)
    have hsame := List.inj_on_of_nodup_map (h.imp Nat.ne_of_lt) hmem hmem' rfl
    obtain rfl : d = d' := congrArg Prod.snd hsame
    exact hd'

end Gradients

namespace Gradient

open Extend Build

/-! ## Which nodes are wanted -/

section
variable {g : Graph} {targets : List Nat}

/-- Whether each node below `n` is a target or has one below it. -/
def needsBelow (g : Graph) (targets : List Nat) (n : Nat) : Needs :=
  (List.range n).foldl (fun needs i => needs ++ [targets.contains i || (g.operandsOf i).any (Needs.wants needs)]) []

theorem needsBelow_succ (n : Nat) : needsBelow g targets (n + 1) = needsBelow g targets n ++
    [targets.contains n || (g.operandsOf n).any (Needs.wants (needsBelow g targets n))] := by
  simp [needsBelow, List.range_succ]

theorem length_needsBelow (n : Nat) : (needsBelow g targets n).length = n := by
  induction n with
  | zero => rfl
  | succ n ih => rw [needsBelow_succ, List.length_append, ih, List.length_singleton]

theorem wants_needsBelow {n x : Nat} (h : x < n) : Needs.wants (needsBelow g targets n) x ↔
    x ∈ targets ∨ ∃ y ∈ g.operandsOf x, Needs.wants (needsBelow g targets x) y := by
  induction n with
  | zero => omega
  | succ n ih =>
    rw [needsBelow_succ, Needs.wants]
    by_cases hx : x < n
    · rw [List.getElem?_append_left (by rwa [length_needsBelow])]
      exact ih hx
    · obtain rfl : x = n := by omega
      simp [length_needsBelow]

theorem wants_needsOf (hg : g.WellFormed) {root x : Nat} (h : x ≤ root) : Needs.wants (needsOf g root targets) x ↔
    x ∈ targets ∨ ∃ y ∈ g.operandsOf x, Needs.wants (needsOf g root targets) y := by
  have hbelow : ∀ {y : Nat}, y ≤ root → (Needs.wants (needsOf g root targets) y ↔
      y ∈ targets ∨ ∃ z ∈ g.operandsOf y, Needs.wants (needsBelow g targets y) z) :=
    fun hy => wants_needsBelow (Nat.lt_succ_of_le hy)
  rw [hbelow h]
  refine or_congr_right (exists_congr fun y => and_congr_right fun hy => ?_)
  have hlt := (hg.operandsOf_lt hy).1
  rw [wants_needsBelow hlt, hbelow (by omega)]

end

/-! ## One gradient after the other -/

/-- The gradients are collected one after the other, each of them as `P` describes it. -/
theorem collect_spec {table : Table} {P : Nat → Nat → Graph → Prop}
    (hgrow : ∀ {t d g₁ g₂}, g₁.WellFormed → g₂.WellFormed → g₁.Appends g₂ → P t d g₁ → P t d g₂)
    {g : Graph} (hg : g.WellFormed) {targets : List Nat}
    (hone : ∀ t ∈ targets, ∀ {g'}, g'.WellFormed → g.Appends g' → (gradientOf table t).Makes g' (P t)) :
    (collect table targets).Makes g fun grads g' => (grads.map Prod.fst).Pairwise (· < ·) ∧
      (∀ t : Nat, t ∈ grads.map Prod.fst ↔ t ∈ targets) ∧ ∀ {t d : Nat}, (t, d) ∈ grads → P t d g' := by
  -- the invariant is carried from the targets seen to those still to come
  have hrest : ∀ {todo seen : List Nat} {grads : Gradients} {g₁ : Graph}, (∀ t ∈ todo, t ∈ targets) →
      g₁.WellFormed → g.Appends g₁ → (grads.map Prod.fst).Pairwise (· < ·) →
      (∀ t : Nat, t ∈ grads.map Prod.fst ↔ t ∈ seen) → (∀ {t d : Nat}, (t, d) ∈ grads → P t d g₁) →
      Makes (todo.foldlM (fun grads t => return grads.insert t (← gradientOf table t)) grads : Build Gradients) g₁
        fun grads g' => (grads.map Prod.fst).Pairwise (· < ·) ∧
          (∀ t : Nat, t ∈ grads.map Prod.fst ↔ t ∈ seen ++ todo) ∧ ∀ {t d : Nat}, (t, d) ∈ grads → P t d g' := by
    intro todo
    induction todo with
    | nil =>
      intro seen grads g₁ _ hg₁ _ hincreasing hkeys hentry
      rw [List.append_nil]
      exact Makes.pure hg₁ ⟨hincreasing, hkeys, hentry⟩
    | cons t todo ih =>
      intro seen grads g₁ hts hg₁ happ₁ hincreasing hkeys hentry
      rw [List.foldlM_cons, bind_assoc, List.append_cons]
      refine Makes.bind (hone t (hts t List.mem_cons_self) hg₁ happ₁) fun {d g₂} hg₂ happ₂ hd => ?_
      refine ih (fun x hx => hts x (List.mem_cons_of_mem _ hx)) hg₂ (happ₁.trans happ₂)
        (Gradients.increasing_insert hincreasing) (fun x => ?_) fun he => ?_
      · rw [Gradients.mem_keys_insert, hkeys, List.mem_append, List.mem_singleton, or_comm]
      · rcases Gradients.mem_insert he with he | he
        · cases he
          exact hd
        · exact hgrow hg₁ hg₂ happ₂ (hentry he)
  exact hrest (fun _ ht => ht) hg (.refl g) List.Pairwise.nil (fun t => Iff.rfl) fun he => by cases he

/-! ## One step after the other -/

namespace Setting

variable {α : Type} (σ : Setting α)

/-- A node passes on what was found for it. -/
def step (F : Found α) (i : Nat) : Found α :=
  match σ.graph.node? i with
  | none => F
  | some node => (F i).elim F fun U => (σ.parts i node U).foldl σ.add F

/-- The nodes below `n` are visited downwards. -/
def sweep : (n : Nat) → Found α → Found α
  | 0, F => F
  | n + 1, F => sweep n (σ.step F n)

/-- What is found at first: 1 at the root. -/
def start : Found α := Function.update (fun _ => none) σ.root (some fun _ => σ.algebra.lit 1.0)

/-- The derivative of the root by a node; one that was never reached is zero. -/
def gradient (x : Nat) : List Nat → α := (σ.sweep (σ.root + 1) σ.start x).getD fun _ => σ.algebra.lit 0.0

variable {σ} {F : Found α} {i n x : Nat}

theorem step_eq {node : Node} (hn : σ.graph.node? i = some node) :
    σ.step F i = (F i).elim F fun U => (σ.parts i node U).foldl σ.add F := by
  rw [step, hn]

/-- Only what is found for the nodes below changes. -/
theorem step_of_le (h : i ≤ x) : σ.step F i x = F x := by
  cases hn : σ.graph.node? i with
  | none => rw [step, hn]
  | some node =>
    rw [step_eq hn]
    cases F i with
    | none => rfl
    | some U =>
      refine σ.addAll_of_notMem F fun hx => ?_
      obtain ⟨p, hp, rfl⟩ := List.mem_map.1 hx
      have hlt := (σ.wellFormed.operandsOf_lt (mem_parts hn hp).1).1
      omega

theorem sweep_of_le (h : n ≤ x) : σ.sweep n F x = F x := by
  induction n generalizing F with
  | zero => rfl
  | succ n ih => rw [sweep, ih (by omega), step_of_le (by omega)]

/-- Above the root nothing is found. -/
theorem sweep_start_of_lt (h : σ.root < x) : σ.sweep (σ.root + 1) σ.start x = none := by
  rw [sweep_of_le h, start, Function.update_of_ne (Nat.ne_of_gt h)]

variable {needs : Needs} {table : Table} {g : Graph}

/-- The operands of an unwanted node are unwanted. -/
theorem Holds.idle (h : σ.Holds needs F table g) (hi : i ≤ σ.root) (hnot : needs.wants i = false) {x : Nat}
    (hx : x ∈ σ.graph.operandsOf i) : x ≤ σ.root ∧ needs.wants x = false := by
  have hlt := (σ.wellFormed.operandsOf_lt hx).1
  refine ⟨Nat.le_of_lt (Nat.lt_of_lt_of_le hlt hi), Bool.eq_false_iff.2 fun hwants => ?_⟩
  rw [h.closed hi hx hwants] at hnot
  cases hnot

theorem propagateAt_takes (h : σ.Holds needs F table g) (hi : i ≤ σ.root) :
    σ.Takes needs (σ.step F i) (propagateAt needs i) table g := by
  obtain ⟨node, hn⟩ := Graph.exists_node? (Nat.lt_of_le_of_lt hi σ.root_lt)
  have hshape : σ.shape i = node.shape := Graph.shapeAt_of_node? hn
  rw [step_eq hn]
  unfold propagateAt
  split
  · rename_i hwants
    have hentry := h.entry fun _ => hwants
    refine Takes.get ?_
    generalize table.lookup i = entry, F i = found at hentry
    cases hentry with
    | none => exact Takes.nothing h
    | some hup =>
      refine Takes.read h (h.fetch hn) (rule_takes h hn hi ?_)
      rwa [hshape] at hup
  · rename_i hidle
    cases F i with
    | none => exact Takes.nothing h
    | some U => exact Takes.nothing (h.skip _ fun p hp => h.idle hi (by simpa using hidle) (mem_parts hn hp).1)

theorem sweep_takes (h : σ.Holds needs F table g) (hn : n ≤ σ.root + 1) :
    σ.Takes needs (σ.sweep n F) ((List.range n).reverse.forM (propagateAt needs)) table g := by
  induction n generalizing F table g with
  | zero => exact Takes.nothing h
  | succ n ih =>
    rw [List.range_succ, List.reverse_append, List.reverse_singleton, List.singleton_append]
    exact Takes.andThen (propagateAt_takes h (by omega)) fun h' _ => ih h' (by omega)

/-- Whatever is wanted, if with every node also what uses it, the sweep finds the same. -/
theorem propagate_takes (σ : Setting α)
    (hclosed : ∀ {i x : Nat}, i ≤ σ.root → x ∈ σ.graph.operandsOf i → needs.wants x → needs.wants i) :
    σ.Takes needs (σ.sweep (σ.root + 1) σ.start) (propagate needs σ.root) [] σ.graph := by
  have hempty : σ.Holds needs (fun _ => none) [] σ.graph := ⟨⟨σ.wellFormed, .refl _⟩, hclosed, fun _ => .none⟩
  obtain ⟨node, hfetch, hshape⟩ := hempty.fetch_shape σ.root_lt
  refine Takes.read hempty hfetch ?_
  rw [hshape]
  refine Takes.after hempty (hempty.full σ.root_lt 1.0) fun {ones g₁} h₁ _ hones => ?_
  have hstart : σ.Takes needs σ.start (modify ((σ.root, ones) :: ·)) [] g₁ :=
    Makes.pure h₁.wellFormed (h₁.record (Nat.le_refl _) hones)
  exact Takes.andThen hstart fun h₂ _ => sweep_takes h₂ (Nat.le_refl _)

/-- A target gets what the table holds for it, or zeros. -/
theorem gradientOf_produces (h : σ.Holds needs F table g) (hx : x < σ.graph.length) (hwants : x ≤ σ.root → needs.wants x) :
    σ.Produces (gradientOf table x) g (σ.shape x) ((F x).getD fun _ => σ.algebra.lit 0.0) := by
  have hentry := h.entry hwants
  unfold gradientOf
  generalize table.lookup x = entry, F x = found at hentry
  cases hentry with
  | some hd => exact Makes.pure h.wellFormed hd
  | none =>
    obtain ⟨node, hfetch, hshape⟩ := h.fetch_shape hx
    refine Makes.read hfetch ?_
    rw [hshape]
    exact h.full hx 0.0

end Setting

/-! ## Requests -/

theorem checkNode_eq_ok {g : Graph} {x : Nat} {n : Node} :
    (g.node x).mapError GradientError.graph = .ok n ↔ g.node? x = some n := by
  rw [← Graph.node_eq_ok]
  cases g.node x <;> simp [Except.mapError]

theorem checkRequest_eq_ok {g : Graph} {root : Nat} {targets : List Nat} :
    checkRequest g root targets = .ok () ↔ root < g.length ∧ ∀ t ∈ targets, g.HasLeaf t := by
  unfold checkRequest
  simp only [bind_eq_ok, forM_eq_ok, checkNode_eq_ok]
  constructor
  · rintro ⟨n, hn, hts⟩
    refine ⟨Graph.node?_lt hn, fun t ht => ?_⟩
    obtain ⟨node, hnode, hcheck⟩ := hts t ht
    split at hcheck
    · rename_i hleaf
      exact ⟨node, hnode, hleaf⟩
    · cases hcheck
  · rintro ⟨hroot, hts⟩
    obtain ⟨n, hn⟩ := Graph.exists_node? hroot
    refine ⟨n, hn, fun t ht => ?_⟩
    obtain ⟨node, hnode, hleaf⟩ := hts t ht
    exact ⟨node, hnode, if_pos hleaf⟩

end Gradient

open Extend TensorLoom.Gradient

theorem runOn_differentiate (root : Nat) (targets : List Nat) (g : Graph) :
    (differentiate root targets).runOn g = match checkRequest g root targets with
      | .error e => .ok (.error e, g)
      | .ok () => Extend.runOn ((gradients root targets).adapt GradientError.graph) g := by
  unfold differentiate
  rw [runOn_bind, runOn_get]
  simp only
  rw [runOn_bind, runOn_request]
  cases checkRequest g root targets <;> rfl

/-- A request that passes its checks is never refused, and every target gets its gradient. -/
theorem differentiate_makes {α : Type} (σ : Setting α) {targets : List Nat} (htargets : ∀ t ∈ targets, σ.graph.HasLeaf t) :
    (differentiate σ.root targets).Makes σ.graph fun grads g' => (grads.map Prod.fst).Pairwise (· < ·) ∧
      (∀ t : Nat, t ∈ grads.map Prod.fst ↔ t ∈ targets) ∧
      ∀ {t d : Nat}, (t, d) ∈ grads → σ.Fresh g' d (σ.shape t) (σ.gradient t) := by
  unfold Makes
  rw [runOn_differentiate, checkRequest_eq_ok.2 ⟨σ.root_lt, htargets⟩]
  refine Makes.adapt ?_ GradientError.graph
  refine Makes.read (runOn_get _) ?_
  refine Makes.bind (σ.propagate_takes fun hi hx hwants => (wants_needsOf σ.wellFormed hi).2 (.inr ⟨_, hx, hwants⟩))
    fun {r g₁} hg₁ _ hholds => ?_
  refine collect_spec (fun hg hg' happ hd => ⟨hd.1, hd.2.grow hg hg' happ⟩) hg₁ fun t ht g' hg' happ => ?_
  exact Setting.gradientOf_produces (hholds.grow hg' happ) (htargets t ht).lt fun hle =>
    (wants_needsOf σ.wellFormed hle).2 (.inl ht)

end TensorLoom
