import TensorLoom.Lowering.Basic
import TensorLoom.Proofs.Lowering.Element
/-
# Requests for nodes

A node that a caller asks for ends up in a buffer that holds it (`materialize_run`), and
the result of the program in scratch (`output_run`). Neither writes a leaf.
-/

namespace TensorLoom

namespace Lowering

/-! ## Running steps -/

namespace StepM

variable {β γ : Type}

/-- Runs a step on a program under construction. -/
def runOn (m : StepM β) (l : Lowering) : Except Fault (Except LowerError β × Lowering) := m.run.run l

variable {m : StepM β} {f : β → StepM γ} {l l' : Lowering}

theorem runOn_bind_ok {b : β} (h : m.runOn l = .ok (.ok b, l')) : (m >>= f).runOn l = (f b).runOn l' := by
  unfold runOn at h ⊢
  rw [ExceptT.run_bind, StateT.run_bind, h]
  rfl

theorem runOn_bind_error {e : LowerError} (h : m.runOn l = .ok (.error e, l')) :
    (m >>= f).runOn l = .ok (.error e, l') := by
  unfold runOn at h ⊢
  rw [ExceptT.run_bind, StateT.run_bind, h]
  rfl

theorem runOn_forM_cons {step : β → StepM Unit} {b : β} (h : (step b).runOn l = .ok (.ok (), l')) (bs : List β) :
    ((b :: bs).forM step).runOn l = (bs.forM step).runOn l' := runOn_bind_ok h

theorem runOn_lower {m : LowerM β} {b : β} (h : m.run l = .ok (b, l')) :
    (liftM m : StepM β).runOn l = .ok (.ok b, l') := by
  have hrun : (liftM m : StepM β).run = Except.ok <$> m := rfl
  unfold runOn
  rw [hrun, StateT.run_map, h]
  rfl

theorem runOn_requestNode {g : Graph} {id : Nat} {node : Node} (h : g.node? id = some node) (l : Lowering) :
    (requestNode g id).runOn l = .ok (.ok node, l) := by
  unfold requestNode
  rw [Graph.node_eq_ok.2 h]
  rfl

theorem runOn_requestNode_none {g : Graph} {id : Nat} (h : g.node? id = none) (l : Lowering) :
    (requestNode g id).runOn l = .ok (.error (.graph (.unknownNode id)), l) := by
  unfold requestNode
  rw [Graph.node_eq_error h]
  rfl

end StepM

open StepM

/-! ## What steps do -/

/-- Some function writes the value of node `v` over leaf `n`. -/
def Assigns (p : Program) (nodes : List Nat) (n v : Nat) : Prop :=
  ∃ (f : Nat) (fn : Function) (linked : Bool) (len : Nat), p.functions[f]? = some fn ∧ nodes[f]? = some v ∧
    p.buffers[fn.output]? = some ⟨.leaf n linked, len⟩

/-- A step appends buffers and functions; `new` are the leaves it overwrites, with the nodes
whose values they get. Nodes that are in scratch stay there. -/
structure Advances (l l' : Lowering) (nodes nodes' : List Nat) (new : Nat → Nat → Prop) : Prop where
  buffers : l.program.buffers <+: l'.program.buffers
  functions : l.program.functions <+: l'.program.functions
  listed : nodes <+: nodes'
  scratch : ∀ {id : Nat}, InScratch l id → InScratch l' id
  assigns : ∀ {n v : Nat}, Assigns l'.program nodes' n v ↔ Assigns l.program nodes n v ∨ new n v

section
variable {g : Graph} {l l' : Lowering} {nodes nodes' : List Nat} {id : Nat} {node : Node}

/-- A function of the program so far writes the same leaf as ever. -/
theorem Sound.writes_leaf (hs : Sound g l nodes) {p : Program} (hp : l.program.buffers <+: p.buffers) {f n len : Nat}
    {fn : Function} {linked : Bool} (hfn : l.program.functions[f]? = some fn) :
    p.buffers[fn.output]? = some ⟨.leaf n linked, len⟩ ↔ l.program.buffers[fn.output]? = some ⟨.leaf n linked, len⟩ := by
  refine ⟨fun hb => ?_, getElem?_mono hp⟩
  obtain ⟨id, hid⟩ := hs.exists_node hfn
  rcases (hs.functions hfn hid).2 with ⟨len', hout⟩ | ⟨n', linked', len', hout, -⟩ <;> rw [getElem?_mono hp hout] at hb
  · cases hb
  · rw [hout, hb]

/-- The program grows without overwriting a leaf. -/
theorem Grows.advances (hs : Sound g l nodes) (h : Grows g l l' nodes nodes') :
    Advances l l' nodes nodes' fun _ _ => False where
  buffers := h.buffers
  functions := h.functions
  listed := h.nodes
  scratch := h.scratch
  assigns {n v} := by
    rw [or_false]
    constructor
    · rintro ⟨f, fn, linked, len, hfn, hv, hb⟩
      rcases h.appended hfn with hfn | ⟨len', hb'⟩
      · obtain ⟨id, hid⟩ := hs.exists_node hfn
        obtain rfl : id = v := Option.some.inj ((getElem?_mono h.nodes hid).symm.trans hv)
        exact ⟨f, fn, linked, len, hfn, hid, (hs.writes_leaf h.buffers hfn).1 hb⟩
      · cases hb'.symm.trans hb
    · rintro ⟨f, fn, linked, len, hfn, hv, hb⟩
      exact ⟨f, fn, linked, len, getElem?_mono h.functions hfn, getElem?_mono h.nodes hv, getElem?_mono h.buffers hb⟩

/-- A node is placed where it is. -/
theorem Advances.place (id b : Nat) (hfresh : l.placed.lookup id = none) :
    Advances l { l with placed := (id, b) :: l.placed } nodes nodes fun _ _ => False where
  buffers := List.prefix_refl _
  functions := List.prefix_refl _
  listed := List.prefix_refl _
  scratch {x} hx := by
    obtain ⟨b', f, len, hb', hbuffer⟩ := hx
    have hne : x ≠ id := by
      rintro rfl
      rw [hfresh] at hb'
      cases hb'
    exact ⟨b', f, len, (lookup_cons_ne _ hne b).trans hb', hbuffer⟩
  assigns := (or_iff_left fun h => h).symm

theorem Advances.trans {l'' : Lowering} {nodes'' : List Nat} {new new' : Nat → Nat → Prop}
    (h : Advances l l' nodes nodes' new) (h' : Advances l' l'' nodes' nodes'' new') :
    Advances l l'' nodes nodes'' fun n v => new n v ∨ new' n v where
  buffers := h.buffers.trans h'.buffers
  functions := h.functions.trans h'.functions
  listed := h.listed.trans h'.listed
  scratch hx := h'.scratch (h.scratch hx)
  assigns {n v} := by rw [h'.assigns, h.assigns, or_assoc]

theorem Advances.congr {new new' : Nat → Nat → Prop} (h : Advances l l' nodes nodes' new)
    (hnew : ∀ n v, new n v ↔ new' n v) : Advances l l' nodes nodes' new' :=
  ⟨h.buffers, h.functions, h.listed, h.scratch, by simp [h.assigns, hnew]⟩

/-- A node that a caller asks for is in a buffer afterwards. -/
theorem materialize_run (hg : g.WellFormed) (hn : g.node? id = some node) (hcounts : g.CountsBelow 9223372036854775808 id)
    (hs : Sound g l nodes) :
    ∃ b l' nodes', (materialize g id).runOn l = .ok (.ok b, l') ∧ Sound g l' nodes' ∧
      Advances l l' nodes nodes' (fun _ _ => False) ∧ l'.program.output = l.program.output ∧
      l'.placed.lookup id = some b ∧ l'.program.owner? nodes' b = some id := by
  have hid := Graph.node?_lt hn
  have hget : (getThe Lowering : StepM Lowering).runOn l = .ok (.ok l, l) := rfl
  unfold materialize
  rw [runOn_bind_ok (runOn_requestNode hn l), runOn_bind_ok hget]
  cases hplaced : l.placed.lookup id with
  | some b => exact ⟨b, l, nodes, rfl, hs, (Grows.refl g l nodes).advances hs, rfl, hplaced, hs.placed hplaced⟩
  | none =>
    have hplace : ∀ b l, (liftM (place id b) : StepM Unit).runOn l = .ok (.ok (), { l with placed := (id, b) :: l.placed }) :=
      fun _ _ => rfl
    cases hleaf : node.kind.isLeaf with
    | true =>
      have hsize : Shape.size node.shape < Word.limit :=
        Nat.lt_trans (Graph.shapeAt_of_node? hn ▸ hcounts.self) (by decide)
      obtain ⟨b, l₁, len, hrun, hs₁, hgrows, -, hplaced₁, hb⟩ := leafBuffer_run hg hs hn hleaf hsize
      have howner := Program.owner?_leaf nodes hb
      refine ⟨b, { l₁ with placed := (id, b) :: l₁.placed }, nodes, ?_, hs₁.place howner, ?_, hgrows.output,
        lookup_cons_self .., howner⟩
      · simp only [if_true]
        rw [runOn_bind_ok (runOn_lower hrun), runOn_bind_ok (hplace b l₁)]
        rfl
      · exact ((hgrows.advances hs).trans (.place id b (hplaced₁ ▸ hplaced))).congr fun _ _ => or_self_iff
    | false =>
      obtain ⟨b, l₁, nodes₁, f, len, hrun, hs₁, hgrows, hb, howner⟩ := nodeFunction_run hg hid hcounts hs
      refine ⟨b, { l₁ with placed := (id, b) :: l₁.placed }, nodes₁, ?_, hs₁.place howner, ?_, hgrows.output,
        lookup_cons_self .., howner⟩
      · simp only [Bool.false_eq_true, if_false]
        rw [runOn_bind_ok (runOn_lower hrun), runOn_bind_ok (hplace b l₁)]
        rfl
      · exact (hgrows.trans (.place hn hleaf hb)).advances hs

/-- Which buffer is the result does not matter for what the program computes. -/
theorem Sound.setOutput (hs : Sound g l nodes) (b : Nat) :
    Sound g { l with program := { l.program with output := some b } } nodes where
  count := hs.count
  scratch := hs.scratch
  leaf := hs.leaf
  unique := hs.unique
  functions {f fn id} hfn hid := by
    obtain ⟨hok, hwrites⟩ := hs.functions hfn hid
    exact ⟨⟨hok.verified, hok.inputs, hok.computes⟩, hwrites⟩
  placed := hs.placed

theorem Advances.setOutput (h : Advances l l' nodes nodes' fun _ _ => False) (b : Nat) :
    Advances l { l' with program := { l'.program with output := some b } } nodes nodes' fun _ _ => False :=
  ⟨h.buffers, h.functions, h.listed, h.scratch, h.assigns⟩

/-- A node other than a leaf is in no leaf's storage. -/
theorem Sound.owner?_scratch (hs : Sound g l nodes) (hn : g.node? id = some node) (hleaf : node.kind.isLeaf = false) {b : Nat}
    (hb : l.program.owner? nodes b = some id) :
    ∃ f len, l.program.buffers[b]? = some ⟨.scratch f, len⟩ ∧ nodes[f]? = some id := by
  rcases Program.owner?_cases hb with ⟨linked, len, hb⟩ | h
  · obtain ⟨-, -, node', hn', hleaf'⟩ := hs.leaf hb
    rw [Option.some.inj (hn.symm.trans hn'), hleaf'] at hleaf
    cases hleaf
  · exact h

/-- The result of the program is in scratch. -/
theorem output_run (hg : g.WellFormed) (hn : g.node? id = some node) (hcounts : g.CountsBelow 9223372036854775808 id)
    (hs : Sound g l nodes) :
    ∃ b l' nodes' f len, (output g id).runOn l = .ok (.ok b, l') ∧ Sound g l' nodes' ∧
      Advances l l' nodes nodes' (fun _ _ => False) ∧ l'.program.output = some b ∧
      l'.program.buffers[b]? = some ⟨.scratch f, len⟩ ∧ nodes'[f]? = some id := by
  have hid := Graph.node?_lt hn
  unfold output
  rw [runOn_bind_ok (runOn_requestNode hn l)]
  cases hleaf : node.kind.isLeaf with
  | true =>
    obtain ⟨b, l₁, nodes₁, f, len, hrun, hs₁, hgrows, hb, howner⟩ := nodeFunction_run hg hid hcounts hs
    refine ⟨b, { l₁ with program := { l₁.program with output := some b } }, nodes₁, f, len, ?_, hs₁.setOutput b,
      (hgrows.advances hs).setOutput b, rfl, hb, (Program.owner?_scratch nodes₁ hb).symm.trans howner⟩
    simp only [if_true]
    rw [runOn_bind_ok (runOn_lower hrun)]
    rfl
  | false =>
    obtain ⟨b, l₁, nodes₁, hrun, hs₁, hadvances, -, -, howner⟩ := materialize_run hg hn hcounts hs
    obtain ⟨f, len, hb, hf⟩ := hs₁.owner?_scratch hn hleaf howner
    refine ⟨b, { l₁ with program := { l₁.program with output := some b } }, nodes₁, f, len, ?_, hs₁.setOutput b,
      hadvances.setOutput b, rfl, hb, hf⟩
    simp only [Bool.false_eq_true, if_false]
    rw [runOn_bind_ok hrun]
    rfl

end

end Lowering

end TensorLoom
