import TensorLoom.Proofs.Lowering.Footprint
import TensorLoom.Proofs.Lowering.Meaning
/-
# Lowered programs hold nothing in vain

The program of a node has a function for each reduction and matrix product that the node
depends on and one for the node itself. It has a buffer for each leaf that the node depends
on and one for each function, and reads them all (`lower_minimal`). So a run needs storage
for these leaves and for nothing else.
-/

namespace TensorLoom

/-- The program consists of what the node depends on, each part once; `nodes` lists the node
that each function computes. -/
structure Program.Minimal (p : Program) (g : Graph) (root : Nat) (nodes : List Nat) : Prop where
  count : nodes.length = p.functions.length
  once : nodes.Nodup
  node : ∀ {n : Nat}, n ∈ nodes ↔ n = root ∨ g.DependsOn root n ∧ g.Accumulates n
  function : ∀ {f id : Nat} {fn : Function}, p.functions[f]? = some fn → nodes[f]? = some id →
    fn.Computes g (p.owner? nodes) id ∧ p.buffers[fn.output]? = some ⟨.scratch f, Shape.size (g.shapeAt id)⟩
  sources : p.buffers.Pairwise fun b b' => b.source.same b'.source = false
  buffer : ∀ {buffer : Buffer}, buffer ∈ p.buffers ↔
    (∃ n, (g.DependsOn root n ∧ g.HasLeaf n) ∧ buffer = ⟨.leaf n true, Shape.size (g.shapeAt n)⟩) ∨
      ∃ f id, nodes[f]? = some id ∧ buffer = ⟨.scratch f, Shape.size (g.shapeAt id)⟩
  loads : ∀ fn ∈ p.functions, Lowering.Loads fn.inputs fn.code
  result : ∃ b f len, p.output = some b ∧ p.buffers[b]? = some ⟨.scratch f, len⟩ ∧ nodes[f]? = some root
  read : ∀ {b f len : Nat}, p.buffers[b]? = some ⟨.scratch f, len⟩ → p.output ≠ some b →
    ∃ (k : Nat) (fn : Function), f < k ∧ p.functions[k]? = some fn ∧ b ∈ fn.inputs

/-- Every leaf that the node depends on is bound to a live storage of its length that nobody
holds. -/
def Store.Supplies {α : Type} (st : Store α) (g : Graph) (root : Nat) (held : List StorageId) : Prop :=
  ∀ n, g.DependsOn root n ∧ g.HasLeaf n →
    ∃ s, st.bound? n = some s ∧ (st.values s).size = Shape.size (g.shapeAt n) ∧ s ∉ held

namespace Lowering

variable {g : Graph} {l : Lowering} {nodes : List Nat} {root b : Nat}

/-! ## Functions -/

theorem Sound.writes_scratch (hs : Sound g l nodes) (hkept : ∀ n, ¬ l.program.Overwrites n) {f : Nat} {fn : Function}
    (hfn : l.program.functions[f]? = some fn) : ∃ len, l.program.buffers[fn.output]? = some ⟨.scratch f, len⟩ := by
  obtain ⟨id, hid⟩ := hs.exists_node hfn
  rcases (hs.functions hfn hid).2 with h | ⟨n, linked, len, h, -⟩
  · exact h
  · exact absurd ⟨fn, List.mem_of_getElem? hfn, linked, len, h⟩ (hkept n)

theorem lookup_of_mem {placed : List (NodeId × BufferId)} (h : (placed.map Prod.fst).Nodup) {entry : NodeId × BufferId}
    (hentry : entry ∈ placed) : placed.lookup entry.1 = some entry.2 := by
  obtain ⟨before, behind, rfl⟩ := List.append_of_mem hentry
  refine List.lookup_eq_some_iff.2 ⟨before, behind, rfl, fun other hother => ?_⟩
  rw [List.map_append, List.map_cons] at h
  have hne := (List.nodup_append.1 h).2.2 other.1 (List.mem_map_of_mem hother) entry.1 (List.mem_cons_self ..)
  simpa using Ne.symm hne

/-- The functions compute the nodes that are placed, and at last the root. -/
theorem Sound.nodes_eq (hs : Sound g l nodes) (hkept : ∀ n, ¬ l.program.Overwrites n) (ht : Tidy g l [b])
    (hb : l.program.owner? nodes b = some root) : nodes = l.placedNodes.reverse ++ [root] := by
  have hfunctions : (l.program.functions.map Function.output).map (l.program.owner? nodes) = nodes.map some := by
    refine List.ext_getElem? fun f => ?_
    rw [List.map_map, List.getElem?_map, List.getElem?_map]
    cases hfn : l.program.functions[f]? with
    | none =>
      have hnone : nodes[f]? = none := by
        rw [List.getElem?_eq_none_iff] at hfn ⊢
        rwa [hs.count]
      rw [hnone]
      rfl
    | some fn =>
      obtain ⟨id, hid⟩ := hs.exists_node hfn
      obtain ⟨len, hscratch⟩ := hs.writes_scratch hkept hfn
      simp [hid, Program.owner?_scratch nodes hscratch]
  have hplaced : (l.placed.map Prod.snd).map (l.program.owner? nodes) = l.placedNodes.map some := by
    rw [placedNodes, List.map_map, List.map_map]
    exact List.map_congr_left fun entry hentry => hs.placed (lookup_of_mem ht.once hentry)
  rw [ht.outputs, List.map_append, List.map_reverse, hplaced, List.map_singleton, hb] at hfunctions
  refine ((List.map_inj_right fun x y h => Option.some.inj h).1 ?_).symm
  rw [← hfunctions, List.map_append, List.map_reverse]
  rfl

/-! ## What is there -/

section
variable (hp : Pushed g (g.DependsOn root) (g.operandsOf root) {} b l)
include hp

theorem Pushed.mem_placedNodes_iff (hroot : root ∉ l.placedNodes) {n : Nat} :
    n ∈ l.placedNodes ↔ n ≠ root ∧ g.DependsOn root n ∧ g.Accumulates n := by
  constructor
  · intro hn
    exact ⟨fun h => hroot (h ▸ hn), (hp.node n hn).resolve_left (by simp [placedNodes])⟩
  · rintro ⟨hne, hdep, hacc⟩
    obtain ⟨x, hx, hdep⟩ := (Graph.dependsOn_iff.1 hdep).resolve_left hne
    exact (hp.provides x hx).node hdep hacc

theorem Pushed.mem_nodes_iff (hroot : root ∉ l.placedNodes) {n : Nat} :
    n ∈ l.placedNodes.reverse ++ [root] ↔ n = root ∨ g.DependsOn root n ∧ g.Accumulates n := by
  rw [List.mem_append, List.mem_reverse, List.mem_singleton, hp.mem_placedNodes_iff hroot]
  by_cases hn : n = root <;> simp [hn]

theorem Pushed.nodup_nodes (hroot : root ∉ l.placedNodes) : (l.placedNodes.reverse ++ [root]).Nodup := by
  refine List.nodup_append.2 ⟨List.pairwise_reverse.2 (hp.tidy.once.imp Ne.symm), by simp, ?_⟩
  intro x hx y hy heq
  rw [heq, List.mem_singleton.1 hy] at hx
  exact hroot (List.mem_reverse.1 hx)

theorem Pushed.mem_leaves_iff (hs : Sound g l nodes) (hroot : g.HasLeaf root → root ∈ l.program.leaves) {n : Nat} :
    n ∈ l.program.leaves ↔ g.DependsOn root n ∧ g.HasLeaf n := by
  constructor
  · intro hn
    obtain ⟨b, linked, len, hb⟩ := mem_leaves.1 hn
    exact ⟨(hp.leaf n hn).resolve_left (by simp [Program.leaves]), (hs.leaf hb).2.2⟩
  · rintro ⟨hdep, hleaf⟩
    rcases Graph.dependsOn_iff.1 hdep with rfl | ⟨x, hx, hdep⟩
    · exact hroot hleaf
    · exact (hp.provides x hx).leaf hdep hleaf

end

/-- No two buffers of a sound program have the same source. -/
theorem Sound.eq_of_same (hs : Sound g l nodes) {i j : Nat} {x y : Buffer} (hx : l.program.buffers[i]? = some x)
    (hy : l.program.buffers[j]? = some y) (hsame : x.source.same y.source = true) : i = j := by
  obtain ⟨source, len⟩ := x
  obtain ⟨source', len'⟩ := y
  cases source <;> cases source' <;> simp only [Source.same, beq_iff_eq, Bool.false_eq_true] at hsame
  · subst hsame
    exact hs.unique hx hy
  · subst hsame
    obtain ⟨fn, -, hfn, hout, -⟩ := hs.scratch hx
    obtain ⟨fn', -, hfn', hout', -⟩ := hs.scratch hy
    cases hfn.symm.trans hfn'
    exact hout.symm.trans hout'

theorem Sound.sources (hs : Sound g l nodes) : l.program.buffers.Pairwise fun b b' => b.source.same b'.source = false := by
  rw [List.pairwise_iff_getElem]
  intro i j hi hj hlt
  rw [← Bool.not_eq_true]
  intro hsame
  have heq := hs.eq_of_same (List.getElem?_eq_getElem hi) (List.getElem?_eq_getElem hj) hsame
  omega

/-- The buffers are those of the leaves and the scratch of the functions. -/
theorem Sound.mem_buffers (hs : Sound g l nodes) (hkept : ∀ n, ¬ l.program.Overwrites n) {buffer : Buffer} :
    buffer ∈ l.program.buffers ↔
      (∃ n, n ∈ l.program.leaves ∧ buffer = ⟨.leaf n true, Shape.size (g.shapeAt n)⟩) ∨
        ∃ f id, nodes[f]? = some id ∧ buffer = ⟨.scratch f, Shape.size (g.shapeAt id)⟩ := by
  constructor
  · intro hbuffer
    obtain ⟨i, hi⟩ := List.mem_iff_getElem?.1 hbuffer
    obtain ⟨source, len⟩ := buffer
    cases source with
    | leaf n linked =>
      obtain ⟨rfl, rfl, -⟩ := hs.leaf hi
      exact .inl ⟨n, mem_leaves.2 ⟨i, true, _, hi⟩, rfl⟩
    | scratch f =>
      obtain ⟨fn, id, -, -, hid, rfl⟩ := hs.scratch hi
      exact .inr ⟨f, id, hid, rfl⟩
  · rintro (⟨n, hn, rfl⟩ | ⟨f, id, hid, rfl⟩)
    · obtain ⟨i, linked, len, hi⟩ := mem_leaves.1 hn
      obtain ⟨rfl, rfl, -⟩ := hs.leaf hi
      exact List.mem_of_getElem? hi
    · have hlt : f < l.program.functions.length := hs.count ▸ (List.getElem?_eq_some_iff.1 hid).1
      obtain ⟨len, hscratch⟩ := hs.writes_scratch hkept (List.getElem?_eq_getElem hlt)
      obtain ⟨-, id', -, -, hid', rfl⟩ := hs.scratch hscratch
      cases hid.symm.trans hid'
      exact List.mem_of_getElem? hscratch

/-! ## Runs -/

/-- A module of the program can run exactly where the leaves of the node are supplied. -/
theorem Sound.canRun_iff (hs : Sound g l nodes)
    (hleaves : ∀ {n : Nat}, n ∈ l.program.leaves ↔ g.DependsOn root n ∧ g.HasLeaf n) {α : Type} {m : Module α}
    (hm : m.program.buffers = l.program.buffers) {st : Store α} {held : List StorageId} :
    m.CanRun st held ↔ st.Supplies g root held := by
  constructor
  · intro h n hn
    obtain ⟨i, linked, len, hi⟩ := mem_leaves.1 (hleaves.2 hn)
    obtain ⟨-, rfl, -⟩ := hs.leaf hi
    exact (h (hm ▸ hi)).2
  · intro h i n len linked hi
    rw [hm] at hi
    obtain ⟨hlinked, rfl, -⟩ := hs.leaf hi
    exact ⟨hlinked, h n (hleaves.1 (mem_leaves.2 ⟨i, linked, _, hi⟩))⟩

end Lowering

/-- Every node of a graph that was built is lowered to a program of what the node depends on,
each part once and none in vain. Running it takes storage for the leaves that the node
depends on, and nothing more. -/
theorem lower_minimal {g : Graph} (hg : g.Built) {root : Nat} (hroot : root < g.length)
    (hcounts : g.CountsBelow 9223372036854775808 root) :
    ∃ p nodes, lower g root = .ok (.ok p) ∧ p.Minimal g root nodes ∧
      ∀ {α : Type} (A : Arith α) (m : Module α) (st : Store α) (held : List StorageId), m.program = p →
        m.Interpreted A → m.Fits → ((∃ r, m.execute st held = .ok (.ok (), r)) ↔ st.Supplies g root held) := by
  have hwf := hg.wellFormed
  obtain ⟨b, l, nodes, f, len, hrun, hlower, hs, hkept, hvalid, hb, hf⟩ := Lowering.lower_run hwf hroot hcounts
  have hempty : Lowering.Tidy g {} [] := ⟨rfl, List.nodup_nil, by simp [Lowering.placedNodes], by simp⟩
  obtain ⟨hp, hleaf, hnot⟩ := Lowering.nodeFunction_pushed hwf hrun hempty (by simp [Lowering.placedNodes])
  have howner : l.program.owner? nodes b = some root := (Program.owner?_scratch nodes hb).trans hf
  obtain rfl := hs.nodes_eq hkept hp.tidy howner
  have hleaves {n : Nat} := hp.mem_leaves_iff hs hleaf (n := n)
  refine ⟨_, _, hlower, ⟨hs.count, hp.nodup_nodes hnot, hp.mem_nodes_iff hnot, ?_, hs.sources, ?_, hp.tidy.loads,
    ⟨b, f, len, rfl, hb, hf⟩, ?_⟩, ?_⟩
  · intro k id fn hfn hid
    obtain ⟨len, hscratch⟩ := hs.writes_scratch hkept hfn
    obtain ⟨-, id', -, -, hid', rfl⟩ := hs.scratch hscratch
    cases hid.symm.trans hid'
    exact ⟨(hs.functions hfn hid).1.computes, hscratch⟩
  · intro buffer
    simp only [hs.mem_buffers hkept, hleaves]
  · intro i k len hi hne
    rcases hp.uses (Nat.zero_le _) hi with hin | ⟨fn, hfn, hin⟩
    · exact absurd (congrArg some (List.mem_singleton.1 hin).symm) hne
    · obtain ⟨j, hj⟩ := List.mem_iff_getElem?.1 hfn
      exact ⟨j, fn, hs.wired.behind hj hin hi, hj, hin⟩
  · intro α A m st held hm hkernel hfits
    rw [← hs.canRun_iff hleaves (by rw [hm])]
    constructor
    · rintro ⟨r, hr⟩
      exact Module.canRun_of_execute hr
    · intro hcan
      obtain ⟨m', st', hexecute, -⟩ := Module.execute_ok hwf (hs.setOutput b) hvalid hm hfits hcan
        (fun hover => absurd (hm ▸ hover) (hkept _)) hkernel
      exact ⟨(m', st'), hexecute⟩

/-- The sums of rows, added to their exponentials, beside a weight that nothing reads. -/
def sharedSums : Graph :=
  ⟨[⟨.input, [2, 2]⟩, ⟨.weight, [3]⟩, ⟨.reduce .sum 0 [1] false, [2]⟩, ⟨.unary .exp 2, [2]⟩, ⟨.binary .add 2 3, [2]⟩]⟩

theorem sharedSums_built : sharedSums.Built :=
  .call (.binary .add 2 3) (.call (.unary .exp 2) (.call (.reduce .sum 0 [1] false)
    (.call (.weight [3]) (.call (.input [2, 2]) .empty rfl) rfl) rfl) rfl) rfl

/-- The sums are computed by one function, and the weight needs no storage. -/
theorem lower_minimal_sharedSums :
    ∃ p nodes m r, lower sharedSums 4 = .ok (.ok p) ∧ p.Minimal sharedSums 4 nodes ∧ nodes.length = 2 ∧ p.leaves = [0] ∧
      Module.create Arith.natural p (.machine Arith.natural p) = .ok m ∧ m.execute oneStorage [] = .ok (.ok (), r) ∧
      ¬ ∃ r, m.execute {} [] = .ok (.ok (), r) := by
  have hcounts : sharedSums.CountsBelow 9223372036854775808 4 := by
    intro x hx
    have hle := sharedSums_built.wellFormed.dependsOn_le hx
    interval_cases x <;> decide
  have hcheck : ((lower sharedSums 4).toOption.bind (·.toOption)).any (fun p =>
      (Module.create Arith.natural p (.machine Arith.natural p)).isOk &&
        (p.functions.length == 2 && p.leaves == [0])) = true := by decide +kernel
  obtain ⟨p, nodes, hp, hminimal, hruns⟩ := lower_minimal sharedSums_built (by decide) hcounts
  rw [hp] at hcheck
  obtain ⟨hcreate, hfunctions, hleaves⟩ : (Module.create Arith.natural p (.machine Arith.natural p)).isOk = true ∧
      p.functions.length = 2 ∧ p.leaves = [0] := by simpa [Except.toOption] using hcheck
  obtain ⟨m, hm⟩ := exists_eq_ok hcreate
  obtain ⟨hprogram, hfits⟩ := Module.create_fits hm
  have hkernel := Module.create_interpreted hm
  have hbound : oneStorage.Supplies sharedSums 4 [] := by
    intro n hn
    have hmem : n ∈ p.leaves := List.mem_filterMap.2 ⟨_, hminimal.buffer.2 (.inl ⟨n, hn, rfl⟩), rfl⟩
    obtain rfl : n = 0 := by simpa [hleaves] using hmem
    exact ⟨0, rfl, rfl, by simp⟩
  have hunbound : ¬ ({} : Store Nat).Supplies sharedSums 4 [] := by
    intro h
    have hreads : sharedSums.DependsOn 4 0 := .operand (x := 2) (by decide) (.operand (x := 0) (by decide) (.refl 0))
    obtain ⟨s, hs, -⟩ := h 0 ⟨hreads, _, rfl, rfl⟩
    cases hs
  obtain ⟨r, hr⟩ := (hruns Arith.natural m oneStorage [] hprogram hkernel hfits).2 hbound
  exact ⟨p, nodes, m, r, hp, hminimal, hminimal.count.trans hfunctions, hleaves, hm, hr,
    mt (hruns Arith.natural m {} [] hprogram hkernel hfits).1 hunbound⟩

end TensorLoom
