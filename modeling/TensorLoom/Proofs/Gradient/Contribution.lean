import TensorLoom.Gradient.Basic
import TensorLoom.Proofs.Graph.Append
import TensorLoom.Proofs.Shape.Sum
import TensorLoom.Proofs.Shape.Unstretch
/-
# Contributions

A sweep finds a derivative for each node, as a node of a graph that it continues. Over any
scalars these are tensors. A contribution to a node is first summed over the axes along
which the node was stretched (`unbroadcast_unstretched`), and added behind what was found
before; what the table of the sweep holds for a wanted node is the tensor that was found
(`contribute_takes`), whatever else is wanted.
-/

namespace TensorLoom.Gradient

open Extend Build

/-! ## Unstretching -/

section
variable {α : Type} {A : Algebra α} {leaves : Leaves α} {g : Graph} {base : Nat}

theorem runOn_fetch {x : Nat} {n : Node} (h : g.node? x = some n) : (fetch x).runOn g = .ok (.ok n, g) := by
  simp [fetch, runOn_bind, runOn_words, Graph.fetch, h]

/-- What an operand of shape `a` takes of a contribution of the stretched shape `r`. -/
def unstretched (A : Algebra α) (a r : Shape) (C : List Nat → α) (i : List Nat) : α :=
  if a = r then C i else A.reduce .sum (((Shape.indices r).filter fun j => Shape.restrict a j = i).map C)

theorem unbroadcast_unstretched (hg : g.WellFormed) (hb : base ≤ g.length) {x c : Nat} {a r : Shape}
    {X C : List Nat → α} (hx : g.Denotes A leaves x a X) (hc : g.Denotes A leaves c r C) (hbase : base ≤ c)
    (hst : Shape.Stretches a r) : Produces A leaves base (unbroadcast x c) g a (unstretched A a r C) := by
  obtain ⟨n, hn⟩ := Graph.exists_node? hx.lt
  obtain ⟨m, hm⟩ := Graph.exists_node? hc.lt
  have hna : n.shape = a := (Graph.shapeAt_of_node? hn).symm.trans hx.shape
  have hmr : m.shape = r := (Graph.shapeAt_of_node? hm).symm.trans hc.shape
  unfold unbroadcast
  refine Makes.read (runOn_fetch hn) (Makes.read (runOn_fetch hm) ?_)
  simp only [hna, hmr]
  by_cases hsame : a = r
  · subst hsame
    rw [if_pos rfl]
    refine Makes.pure hg ⟨hbase, hc.congr fun _ => ?_⟩
    rw [unstretched, if_pos rfl]
  · rw [if_neg hsame]
    obtain ⟨axes, haxes, hun⟩ := Shape.broadcastAxes_eq_ok hst
    have hnil : axes ≠ [] := fun h => hsame (hun.eq_of_nil h)
    rw [haxes]
    refine Makes.read rfl ?_
    simp only [if_neg hnil]
    have hkept : Shape.reduced axes true r = List.replicate (r.length - a.length) 1 ++ a := by
      rw [Shape.reduced_true, hun.shape]
    have hcovers : g.Covers (Shape.reduced axes true r) := by
      refine hx.covers.of_size_le (Nat.le_of_eq ?_)
      rw [hkept, Shape.size_replicate_append]
    have hreduce := reduce_produces hg hb .sum true hc ⟨hun.increasing, hun.lt_rank, hnil⟩ hcovers
    rw [hkept] at hreduce
    refine hreduce.bind fun {d g'} hg' hb' happ hd => ?_
    -- leading zeros do not matter
    have hindex : ∀ {i}, Shape.Mem i a →
        A.reduce .sum (((Shape.indices r).filter fun j =>
          Shape.collapse axes true j = List.replicate (r.length - a.length) 0 ++ i).map C) = unstretched A a r C i := by
      intro i hi
      rw [unstretched, if_neg hsame]
      refine congrArg (fun js => A.reduce .sum (List.map C js)) (List.filter_congr fun j hj => ?_)
      rw [decide_eq_decide, Shape.collapse_true, hun.index (Shape.mem_indices.1 hj), List.append_cancel_left_eq]
    obtain ⟨nd, hnd⟩ := Graph.exists_node? hd.lt
    have hshape : nd.shape = List.replicate (r.length - a.length) 1 ++ a :=
      (Graph.shapeAt_of_node? hnd).symm.trans hd.shape
    refine Makes.read (runOn_fetch hnd) ?_
    rw [hshape]
    by_cases hlead : List.replicate (r.length - a.length) 1 ++ a = a
    · rw [if_pos hlead]
      have hzero : r.length - a.length = 0 := by simpa using congrArg List.length hlead
      simp only [hzero, List.replicate_zero, List.nil_append] at hd hindex
      exact Makes.pure hg' ⟨hb'.1, hd.congr hindex⟩
    · rw [if_neg hlead]
      refine (reshape_produces hg' hb'.2 hd (hx.positive hg) (Shape.size_replicate_append _ a).symm).congr ?_
      intro i hi
      have hzeros : Shape.indexOf (List.replicate (r.length - a.length) 1 ++ a) (Shape.offset i a) =
          List.replicate (r.length - a.length) 0 ++ i := by
        rw [← Shape.offset_replicate_append (r.length - a.length), Shape.indexOf_offset (Shape.mem_replicate_append hi)]
      rw [hzeros, hindex hi]

variable [AddCommMonoid α]

/-- Without a stretch every element stays where it is. -/
theorem sum_restrict_self {s : Shape} {i : List Nat} (h : Shape.Mem i s) (f : List Nat → α) :
    ∑ j ∈ Shape.box s with Shape.restrict s j = i, f j = f i := by
  have hfilter : (Shape.box s).filter (fun j => Shape.restrict s j = i) = {i} := by
    ext j
    simp only [Finset.mem_filter, Shape.mem_box, Finset.mem_singleton]
    constructor
    · rintro ⟨hj, rfl⟩
      exact (Shape.restrict_self hj).symm
    · rintro rfl
      exact ⟨h, Shape.restrict_self h⟩
  rw [hfilter, Finset.sum_singleton]

/-- Where elements are added up exactly, an operand takes what all its copies take. -/
theorem unstretched_eq_sum (hsum : ∀ xs, A.reduce .sum xs = xs.sum) {a : Shape} (r : Shape) (C : List Nat → α) {i : List Nat}
    (hi : Shape.Mem i a) : unstretched A a r C i = ∑ j ∈ Shape.box r with Shape.restrict a j = i, C j := by
  unfold unstretched
  split
  · rename_i hsame
    subst hsame
    exact (sum_restrict_self hi C).symm
  · rw [hsum, Shape.sum_filter_indices]

theorem unbroadcast_produces (hsum : ∀ xs, A.reduce .sum xs = xs.sum) (hg : g.WellFormed) (hb : base ≤ g.length)
    {x c : Nat} {a r : Shape} {X C : List Nat → α} (hx : g.Denotes A leaves x a X) (hc : g.Denotes A leaves c r C)
    (hbase : base ≤ c) (hst : Shape.Stretches a r) :
    Produces A leaves base (unbroadcast x c) g a fun i => ∑ j ∈ Shape.box r with Shape.restrict a j = i, C j :=
  (unbroadcast_unstretched hg hb hx hc hbase hst).congr fun hi => unstretched_eq_sum hsum r C hi

end

/-- Nodes are built first, which leaves the table as it is. -/
theorem makes_lift {γ : Type} {part : Build γ} {Q : γ → Graph → Prop} {next : γ → Backward Unit} {table : Table} {g : Graph}
    {R : Unit × Table → Graph → Prop} (hpart : part.Makes g Q)
    (hnext : ∀ {c g'}, g'.WellFormed → g.Appends g' → Q c g' → Makes ((next c).run table) g' R) :
    Makes ((liftM part >>= next : Backward Unit).run table) g R := by
  have hrun : (liftM part >>= next : Backward Unit).run table = part >>= fun c => (next c).run table := by
    simp
  rw [hrun]
  exact Makes.bind hpart hnext

/-! ## What a sweep finds -/

/-- A graph that is differentiated at a root, with contents for its leaves. -/
structure Setting (α : Type) where
  algebra : Algebra α
  leaves : Leaves α
  graph : Graph
  wellFormed : graph.WellFormed
  root : Nat
  root_lt : root < graph.length

/-- For each node the tensor that was found, if any. -/
abbrev Found (α : Type) := Nat → Option (List Nat → α)

/-- What a node takes: a tensor of a shape to which the node is stretched. -/
structure Part (α : Type) where
  node : Nat
  shape : Shape
  tensor : List Nat → α

namespace Setting

variable {α : Type} (σ : Setting α)

def shape (x : Nat) : Shape := σ.graph.shapeAt x

def value (x : Nat) : List Nat → α := σ.graph.element σ.algebra σ.leaves x

/-- A part is added behind what was found for its node. -/
def add (F : Found α) (p : Part α) : Found α :=
  let part := unstretched σ.algebra (σ.shape p.node) p.shape p.tensor
  Function.update F p.node (some ((F p.node).elim part fun f i => σ.algebra.binary .add (f i) (part i)))

theorem add_of_ne (F : Found α) (p : Part α) {y : Nat} (h : y ≠ p.node) : σ.add F p y = F y :=
  Function.update_of_ne h _ _

theorem addAll_of_notMem {parts : List (Part α)} (F : Found α) {y : Nat} (h : y ∉ parts.map Part.node) :
    parts.foldl σ.add F y = F y := by
  induction parts generalizing F with
  | nil => rfl
  | cons p parts ih =>
    simp only [List.map_cons, List.mem_cons, not_or] at h
    rw [List.foldl_cons, ih (σ.add F p) h.2, σ.add_of_ne F p h.1]

/-- Node `c` of a later graph is the tensor `f` of shape `s`. -/
abbrev Denotes (g : Graph) (c : Nat) (s : Shape) (f : List Nat → α) : Prop := g.Denotes σ.algebra σ.leaves c s f

/-- So it is, and it is none of the nodes that are differentiated. -/
abbrev Fresh (g : Graph) (c : Nat) (s : Shape) (f : List Nat → α) : Prop := σ.graph.length ≤ c ∧ σ.Denotes g c s f

/-- The construction ends with a new node that is the tensor `f` of shape `s`. -/
abbrev Produces (b : Build NodeId) (g : Graph) (s : Shape) (f : List Nat → α) : Prop :=
  Build.Produces σ.algebra σ.leaves σ.graph.length b g s f

/-- A graph that continues the one that is differentiated. -/
structure Later (g : Graph) : Prop where
  wellFormed : g.WellFormed
  appends : σ.graph.Appends g

/-- For the wanted nodes the table holds what was found. What uses a wanted node is wanted,
and above the root nothing is found. -/
structure Holds (needs : Needs) (F : Found α) (table : Table) (g : Graph) : Prop extends Later σ g where
  closed : ∀ {i x : Nat}, i ≤ σ.root → x ∈ σ.graph.operandsOf i → needs.wants x → needs.wants i
  entry : ∀ {x : Nat}, (x ≤ σ.root → needs.wants x) →
    Option.Rel (fun d f => σ.Fresh g d (σ.shape x) f) (table.lookup x) (F x)

/-- The step turns a table that holds something into one that holds `F`. -/
def Takes (needs : Needs) (F : Found α) (m : Backward Unit) (table : Table) (g : Graph) : Prop :=
  Makes (m.run table) g fun r g' => σ.Holds needs F r.2 g'

variable {σ} {needs : Needs} {F F' : Found α} {table : Table} {g g' : Graph} {s r : Shape} {f : List Nat → α}
  {c d x id : Nat}

/-! ## Later graphs -/

theorem Later.grow (h : σ.Later g) (hg' : g'.WellFormed) (happ : g.Appends g') : σ.Later g' :=
  ⟨hg', h.appends.trans happ⟩

theorem Later.base_le (h : σ.Later g) : σ.graph.length ≤ g.length := h.appends.length_le

/-- What is a tensor stays one. -/
theorem Later.keep (h : σ.Later g) (h' : σ.Later g') (happ : g.Appends g') (hc : σ.Denotes g c s f) :
    σ.Denotes g' c s f := hc.grow h.wellFormed h'.wellFormed happ

theorem Later.denotes (h : σ.Later g) (hx : x < σ.graph.length) : σ.Denotes g x (σ.shape x) (σ.value x) :=
  (Graph.denotes_self hx).grow σ.wellFormed h.wellFormed h.appends

/-- A node of the differentiated graph, in the shape that is written at it. -/
theorem Later.denotes_id {kind : Kind} (h : σ.Later g) (hn : σ.graph.node? id = some ⟨kind, s⟩) :
    σ.Denotes g id s (σ.value id) := by
  have hself := h.denotes (Graph.node?_lt hn)
  rwa [show σ.shape id = s from Graph.shapeAt_of_node? hn] at hself

theorem Later.fetch {node : Node} (h : σ.Later g) (hn : σ.graph.node? x = some node) :
    (fetch x).runOn g = .ok (.ok node, g) :=
  runOn_fetch ((h.appends.grows.node? (Graph.node?_lt hn)).trans hn)

theorem Later.fetch_shape (h : σ.Later g) (hx : x < σ.graph.length) :
    ∃ node, (Gradient.fetch x).runOn g = .ok (.ok node, g) ∧ node.shape = σ.shape x := by
  obtain ⟨node, hn⟩ := Graph.exists_node? hx
  exact ⟨node, h.fetch hn, (Graph.shapeAt_of_node? hn).symm⟩

theorem Later.bind {b : Build NodeId} {next : NodeId → Build NodeId} {f' : List Nat → α} (h : σ.Later g)
    (hb : σ.Produces b g s f)
    (hnext : ∀ {c : Nat} {g' : Graph}, σ.Later g' → g.Appends g' → σ.Denotes g' c s f → σ.Produces (next c) g' r f') :
    σ.Produces (b >>= next) g r f' :=
  Produces.bind hb fun hg' _ happ hc => hnext (h.grow hg' happ) happ hc

/-- One value everywhere, in the shape of a node. -/
theorem Later.full (h : σ.Later g) (hx : x < σ.graph.length) (v : Float) :
    σ.Produces (Build.full (σ.shape x) v) g (σ.shape x) fun _ => σ.algebra.lit v :=
  full_produces h.wellFormed h.base_le (σ.wellFormed.shapeAt_positive x) (h.denotes hx).covers v

/-! ## What a table holds -/

theorem Holds.grow (h : σ.Holds needs F table g) (hg' : g'.WellFormed) (happ : g.Appends g') :
    σ.Holds needs F table g' := by
  have hlater := h.toLater.grow hg' happ
  refine ⟨hlater, h.closed, fun {x} hx => ?_⟩
  have hentry := h.entry hx
  revert hentry
  generalize table.lookup x = entry, F x = found
  intro hentry
  cases hentry with
  | none => exact .none
  | some hd => exact .some ⟨hd.1, h.toLater.keep hlater happ hd.2⟩

/-- What is found for unwanted nodes does not matter. -/
theorem Holds.skip (h : σ.Holds needs F table g) (parts : List (Part α))
    (hparts : ∀ p ∈ parts, p.node ≤ σ.root ∧ needs.wants p.node = false) :
    σ.Holds needs (parts.foldl σ.add F) table g := by
  refine ⟨h.toLater, h.closed, fun {y} hy => ?_⟩
  have hnot : y ∉ parts.map Part.node := by
    intro hmem
    obtain ⟨p, hp, rfl⟩ := List.mem_map.1 hmem
    obtain ⟨hle, hidle⟩ := hparts p hp
    rw [hy hle] at hidle
    cases hidle
  rw [σ.addAll_of_notMem F hnot]
  exact h.entry hy

theorem Holds.record (h : σ.Holds needs F table g) (hx : x ≤ σ.root) (hd : σ.Fresh g d (σ.shape x) f) :
    σ.Holds needs (Function.update F x (some f)) ((x, d) :: table) g := by
  refine ⟨h.toLater, h.closed, fun {y} hy => ?_⟩
  by_cases hyx : y = x
  · subst hyx
    rw [Function.update_self, List.lookup_cons_self]
    exact .some hd
  · have hlookup : ((x, d) :: table).lookup y = table.lookup y := by
      simp [List.lookup_cons, beq_false_of_ne hyx]
    rw [Function.update_of_ne hyx, hlookup]
    exact h.entry hy

/-! ## Steps -/

theorem Takes.nothing (h : σ.Holds needs F table g) : σ.Takes needs F (pure ()) table g := Makes.pure h.wellFormed h

theorem Takes.get {next : Table → Backward Unit} (h : σ.Takes needs F (next table) table g) :
    σ.Takes needs F (get >>= next) table g := h

/-- Nodes are built first. -/
theorem Takes.after {γ : Type} {part : Build γ} {Q : γ → Graph → Prop} {next : γ → Backward Unit}
    (h : σ.Holds needs F table g) (hpart : part.Makes g Q)
    (hnext : ∀ {c g'}, σ.Holds needs F table g' → g.Appends g' → Q c g' → σ.Takes needs F' (next c) table g') :
    σ.Takes needs F' (liftM part >>= next) table g :=
  makes_lift hpart fun hg' happ hQ => hnext (h.grow hg' happ) happ hQ

/-- Something is looked up first. -/
theorem Takes.read {γ : Type} {part : Build γ} {next : γ → Backward Unit} {v : γ} (h : σ.Holds needs F table g)
    (hread : part.runOn g = .ok (.ok v, g)) (hnext : σ.Takes needs F' (next v) table g) :
    σ.Takes needs F' (liftM part >>= next) table g := by
  have hpart : part.Makes g fun c g' => c = v ∧ g' = g := by
    unfold Makes
    rw [hread]
    exact ⟨h.wellFormed, .refl g, rfl, rfl⟩
  refine Takes.after h hpart fun _ _ hc => ?_
  obtain ⟨rfl, rfl⟩ := hc
  exact hnext

theorem Takes.andThen {F₁ : Found α} {m m' : Backward Unit} (h : σ.Takes needs F₁ m table g)
    (hnext : ∀ {table' g'}, σ.Holds needs F₁ table' g' → g.Appends g' → σ.Takes needs F' m' table' g') :
    σ.Takes needs F' (m >>= fun _ => m') table g :=
  Makes.bind h fun _ happ hr => hnext hr happ

theorem contribute_takes (h : σ.Holds needs F table g) (hx : x ≤ σ.root) {C : List Nat → α} (hc : σ.Fresh g c r C)
    (hst : Shape.Stretches (σ.shape x) r) : σ.Takes needs (σ.add F ⟨x, r, C⟩) (contribute needs x c) table g := by
  unfold contribute
  split
  · rename_i hwants
    have hdenotes := h.denotes (Nat.lt_of_le_of_lt hx σ.root_lt)
    have hpart := unbroadcast_unstretched h.wellFormed h.base_le hdenotes hc.2 hc.1 hst
    refine Takes.after h hpart fun {part g'} h' happ hpart => ?_
    refine Takes.get ?_
    have hentry := h'.entry fun _ => hwants
    unfold add
    generalize table.lookup x = entry, F x = found at hentry
    cases hentry with
    | none => exact Makes.pure h'.wellFormed (h'.record hx hpart)
    | some hbefore =>
      have htotal := binary_produces_same h'.wellFormed h'.base_le .add hbefore.2 hpart.2
      exact Takes.after h' htotal fun h'' _ htotal => Makes.pure h''.wellFormed (h''.record hx htotal)
  · rename_i hidle
    exact Takes.nothing (h.skip [⟨x, r, C⟩] (by simp [hx, hidle]))

theorem contributeBy_takes (h : σ.Holds needs F table g) (hx : x ≤ σ.root) {C : List Nat → α} {part : Build NodeId}
    (hpart : σ.Produces part g r C) (hst : Shape.Stretches (σ.shape x) r) :
    σ.Takes needs (σ.add F ⟨x, r, C⟩) (contributeBy needs x part) table g := by
  unfold contributeBy
  split
  · exact Takes.after h hpart fun h' _ hc => contribute_takes h' hx hc hst
  · rename_i hidle
    exact Takes.nothing (h.skip [⟨x, r, C⟩] (by simp [hx, hidle]))

end Setting

end TensorLoom.Gradient
