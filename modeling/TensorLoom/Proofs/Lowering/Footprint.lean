import TensorLoom.Proofs.Lowering.Leaves
/-
# What an emission adds to a program

While elements of a node are emitted, the program grows by what the node depends on: its
leaves get buffers, its reductions and matrix products functions, each of them once, and
what is there already is used again. Everything added is used: new scratch is an input of a
later function or of the body under construction (`Gathered`). A body is emitted in steps
that keep to this (`Gathers`), so the element of every node is (`Gathers.elementBelow`), and
the function of every node (`nodeFunction_pushed`).
-/

namespace TensorLoom

namespace Graph

variable {g : Graph} {id n : Nat}

/-- The node is a reduction or a matrix product. -/
def Accumulates (g : Graph) (n : Nat) : Prop := ∃ node, g.node? n = some node ∧ node.kind.accumulates = true

theorem HasLeaf.not_accumulates (h : g.HasLeaf n) : ¬ g.Accumulates n := by
  rintro ⟨node, hn, hacc⟩
  obtain ⟨⟨kind, shape⟩, hn', hleaf⟩ := h
  cases hn.symm.trans hn'
  cases kind with
  | input | weight => cases hacc
  | _ => cases hleaf

/-- An operand of the first node depends on the second. -/
def Below (g : Graph) (id n : Nat) : Prop := ∃ x ∈ g.operandsOf id, g.DependsOn x n

theorem dependsOn_iff : g.DependsOn id n ↔ n = id ∨ g.Below id n := by
  constructor
  · intro h
    cases h with
    | refl => exact .inl rfl
    | operand hx h => exact .inr ⟨_, hx, h⟩
  · rintro (rfl | ⟨x, hx, h⟩)
    · exact .refl n
    · exact .operand hx h

theorem WellFormed.below_lt (hg : g.WellFormed) (h : g.Below id n) : n < id := by
  obtain ⟨x, hx, hdep⟩ := h
  exact Nat.lt_of_le_of_lt (hg.dependsOn_le hdep) (hg.operandsOf_lt hx).1

end Graph

namespace Lowering

open BodyM

/-! ## The state of a program under construction -/

/-- The nodes that are in a buffer. -/
def placedNodes (l : Lowering) : List NodeId := l.placed.map Prod.fst

/-- All that the node depends on is in the program: its leaves have buffers, its reductions
and matrix products are placed. -/
structure Provides (g : Graph) (l : Lowering) (id : Nat) : Prop where
  leaf : ∀ {n : Nat}, g.DependsOn id n → g.HasLeaf n → n ∈ l.program.leaves
  node : ∀ {n : Nat}, g.DependsOn id n → g.Accumulates n → n ∈ l.placedNodes

/-- Every input is listed once, and something is loaded from it. -/
structure Loads (inputs : List BufferId) (code : List Instr) : Prop where
  nodup : inputs.Nodup
  used : ∀ n < inputs.length, ∃ offset, Instr.load n offset ∈ code

/-- The functions are those of the placed nodes, in order, and of the buffers in `pending`.
Nothing is placed twice, nothing placed lacks what it depends on, and no function has an
input in vain. -/
structure Tidy (g : Graph) (l : Lowering) (pending : List BufferId) : Prop where
  outputs : l.program.functions.map Function.output = (l.placed.map Prod.snd).reverse ++ pending
  once : l.placedNodes.Nodup
  provides : ∀ n ∈ l.placedNodes, Provides g l n
  loads : ∀ fn ∈ l.program.functions, Loads fn.inputs fn.code

/-- The body has no input in vain, and what it remembers is provided for. -/
structure Draft.Tidy (g : Graph) (l : Lowering) (d : Draft) : Prop where
  loads : Loads d.inputs d.code
  known : ∀ entry ∈ d.known, Provides g l entry.1.1

/-- The program has grown by leaves and placed nodes of `below`. -/
structure Adds (g : Graph) (below : Nat → Prop) (l l' : Lowering) : Prop where
  buffers : l.program.buffers <+: l'.program.buffers
  functions : l.program.functions <+: l'.program.functions
  placed : l.placedNodes ⊆ l'.placedNodes
  leaf : ∀ n ∈ l'.program.leaves, n ∈ l.program.leaves ∨ below n
  node : ∀ n ∈ l'.placedNodes, n ∈ l.placedNodes ∨ below n ∧ g.Accumulates n

/-- The scratch from number `k` on is an input of a function or among `inputs`. -/
def Uses (p : Program) (k : Nat) (inputs : List BufferId) : Prop :=
  ∀ {b f len : Nat}, k ≤ b → p.buffers[b]? = some ⟨.scratch f, len⟩ → b ∈ inputs ∨ ∃ fn ∈ p.functions, b ∈ fn.inputs

/-- The program and the body have grown by what is below, with all that the nodes `xs` depend on. -/
structure Gathered (g : Graph) (below : Nat → Prop) (xs : List Nat) (d : Draft) (l : Lowering) (d' : Draft) (l' : Lowering) :
    Prop extends Adds g below l l' where
  tidy : Tidy g l' []
  draft : d'.Tidy g l'
  inputs : d.inputs ⊆ d'.inputs
  uses : Uses l'.program l.program.buffers.length d'.inputs
  provides : ∀ x ∈ xs, Provides g l' x

section
variable {g : Graph} {below below' : Nat → Prop} {xs ys : List Nat} {d d₁ d₂ : Draft} {l l₁ l₂ : Lowering}

theorem Loads.mono {inputs : List BufferId} {code code' : List Instr} (h : Loads inputs code) (hcode : code ⊆ code') :
    Loads inputs code' :=
  ⟨h.nodup, fun n hn => (h.used n hn).imp fun _ ho => hcode ho⟩

/-- Behind its last buffer a program has no scratch. -/
theorem uses_length (p : Program) (inputs : List BufferId) : Uses p p.buffers.length inputs :=
  fun hk hb => absurd (List.getElem?_eq_some_iff.1 hb).1 (Nat.not_lt.2 hk)

namespace Adds

theorem refl (g : Graph) (below : Nat → Prop) (l : Lowering) : Adds g below l l :=
  ⟨List.prefix_refl _, List.prefix_refl _, fun _ h => h, fun _ h => .inl h, fun _ h => .inl h⟩

theorem trans (h : Adds g below l l₁) (h' : Adds g below l₁ l₂) : Adds g below l l₂ where
  buffers := h.buffers.trans h'.buffers
  functions := h.functions.trans h'.functions
  placed _ hn := h'.placed (h.placed hn)
  leaf n hn := (h'.leaf n hn).elim (h.leaf n) .inr
  node n hn := (h'.node n hn).elim (h.node n) .inr

theorem mono (h : Adds g below l l₁) (hb : ∀ n, below n → below' n) : Adds g below' l l₁ where
  buffers := h.buffers
  functions := h.functions
  placed := h.placed
  leaf n hn := (h.leaf n hn).imp_right (hb n)
  node n hn := (h.node n hn).imp_right fun hn => ⟨hb n hn.1, hn.2⟩

theorem leaves (h : Adds g below l l₁) : l.program.leaves <+: l₁.program.leaves := h.buffers.filterMap _

end Adds

/-- What is provided for stays so. -/
theorem Provides.adds {id : Nat} (h : Provides g l id) (ha : Adds g below l l₁) : Provides g l₁ id :=
  ⟨fun hd hn => ha.leaves.subset (h.leaf hd hn), fun hd hn => ha.placed (h.node hd hn)⟩

/-- A body stays tidy while the program grows. -/
theorem Draft.Tidy.adds (hd : d.Tidy g l) (ha : Adds g below l l₁) : d.Tidy g l₁ :=
  ⟨hd.loads, fun entry he => (hd.known entry he).adds ha⟩

/-- A node is provided for if its operands are, and it is there itself if it has to be. -/
theorem Provides.of_operands {id : Nat} (h : ∀ x ∈ g.operandsOf id, Provides g l x) (hleaf : g.HasLeaf id → id ∈ l.program.leaves)
    (hnode : g.Accumulates id → id ∈ l.placedNodes) : Provides g l id := by
  constructor
  · intro n hd hn
    cases hd with
    | refl => exact hleaf hn
    | operand hx hd => exact (h _ hx).leaf hd hn
  · intro n hd hn
    cases hd with
    | refl => exact hnode hn
    | operand hx hd => exact (h _ hx).node hd hn

namespace Gathered

theorem refl (g : Graph) (below : Nat → Prop) (ht : Tidy g l []) (hd : d.Tidy g l) : Gathered g below [] d l d l where
  toAdds := .refl g below l
  tidy := ht
  draft := hd
  inputs _ h := h
  uses := uses_length l.program d.inputs
  provides := by simp

theorem trans (h : Gathered g below xs d l d₁ l₁) (h' : Gathered g below ys d₁ l₁ d₂ l₂) :
    Gathered g below (xs ++ ys) d l d₂ l₂ where
  toAdds := h.toAdds.trans h'.toAdds
  tidy := h'.tidy
  draft := h'.draft
  inputs _ hb := h'.inputs (h.inputs hb)
  uses {b f len} hk hb := by
    by_cases hlt : b < l₁.program.buffers.length
    · have hold : l₁.program.buffers[b]? = some ⟨.scratch f, len⟩ := by
        obtain ⟨more, hmore⟩ := h'.buffers
        rwa [← hmore, List.getElem?_append_left hlt] at hb
      exact (h.uses hk hold).imp (fun hb => h'.inputs hb) fun ⟨fn, hfn, hb⟩ => ⟨fn, h'.functions.subset hfn, hb⟩
    · exact h'.uses (Nat.not_lt.1 hlt) hb
  provides x hx := (List.mem_append.1 hx).elim (fun hx => (h.provides x hx).adds h'.toAdds) (h'.provides x)

theorem mono (h : Gathered g below xs d l d₁ l₁) (hb : ∀ n, below n → below' n) (hxs : ∀ x ∈ ys, Provides g l₁ x) :
    Gathered g below' ys d l d₁ l₁ :=
  ⟨h.toAdds.mono hb, h.tidy, h.draft, h.inputs, h.uses, hxs⟩

end Gathered

/-- Only the body has grown. -/
theorem gathered_of_draft (ht : Tidy g l []) (hd : d₁.Tidy g l) (hin : d.inputs ⊆ d₁.inputs) : Gathered g below [] d l d₁ l :=
  ⟨.refl g below l, ht, hd, hin, uses_length l.program d₁.inputs, by simp⟩

end

/-! ## Steps of a body -/

/-- The number a buffer has among the inputs is loaded from: it was before, or is now. -/
theorem Loads.addInput {inputs : List BufferId} {code code' : List Instr} (h : Loads inputs code) (hcode : code ⊆ code')
    {buffer : BufferId} {offset : ValueId} (hload : .load (addInput inputs buffer).1 offset ∈ code') :
    Loads (addInput inputs buffer).2 code' ∧ buffer ∈ (addInput inputs buffer).2 ∧ inputs ⊆ (addInput inputs buffer).2 := by
  rcases addInput_cases inputs buffer with ⟨i, hadd, hi⟩ | ⟨hadd, hnew⟩ <;> rw [hadd] at hload ⊢
  · exact ⟨h.mono hcode, List.mem_of_getElem? hi, fun _ hb => hb⟩
  · refine ⟨⟨?_, fun n hn => ?_⟩, by simp, fun _ hb => List.mem_append_left _ hb⟩
    · exact List.nodup_append.2 ⟨h.nodup, by simp, fun a ha b hb => List.mem_singleton.1 hb ▸ fun heq => hnew (heq ▸ ha)⟩
    · rw [List.length_append, List.length_singleton] at hn
      rcases Nat.lt_succ_iff_lt_or_eq.1 hn with hn | rfl
      · exact (h.used n hn).imp fun _ ho => hcode ho
      · exact ⟨offset, hload⟩

section
variable {g : Graph} {below below' : Nat → Prop} {xs : List Nat} {d : Draft} {l : Lowering} {β : Type}

/-- A load touches the body alone, and makes the buffer one of its inputs. -/
theorem Draft.Tidy.loaded (hd : d.Tidy g l) {code : List Instr} (hcode : d.code <+: code) (buffer : BufferId)
    (offset : ValueId) :
    (d.loaded buffer code offset).Tidy g l ∧ buffer ∈ (d.loaded buffer code offset).inputs ∧
      d.inputs ⊆ (d.loaded buffer code offset).inputs := by
  have hsub : d.code ⊆ code ++ [.load (addInput d.inputs buffer).1 offset] :=
    List.Subset.trans hcode.subset (List.subset_append_left _ _)
  obtain ⟨hloads, hmem, hin⟩ := hd.loads.addInput hsub (List.mem_append_right _ (List.mem_singleton.2 rfl))
  exact ⟨⟨hloads, hd.known⟩, hmem, hin⟩

/-- What is emitted extends a tidy program and a tidy body by what is below. -/
def gatherLaw (g : Graph) (below : Nat → Prop) : Law where
  rel xs d l d' l' := Tidy g l [] → d.Tidy g l → Gathered g below xs d l d' l'
  refl _ _ ht hd := .refl g below ht hd
  trans h h' ht hd := (h ht hd).trans (h' (h ht hd).tidy (h ht hd).draft)
  subset h hsub ht hd := (h ht hd).mono (fun _ hn => hn) fun x hx => (h ht hd).provides x (hsub hx)
  code hcode ht hd := gathered_of_draft ht ⟨hd.loads.mono hcode.subset, hd.known⟩ fun _ hb => hb
  load buffer offset hcode ht hd :=
    gathered_of_draft ht (hd.loaded hcode buffer offset).1 (hd.loaded hcode buffer offset).2.2
  forget _ _ ht hd := gathered_of_draft ht ⟨hd.loads, by simp⟩ fun _ hb => hb

/-- Wherever the emission ends without a fault, it has extended the program and the body. -/
abbrev Gathers (g : Graph) (below : Nat → Prop) (xs : List Nat) {β : Type} (m : BodyM β) : Prop :=
  Obeys (gatherLaw g below) xs m

theorem Gathers.mono {m : BodyM β} (h : Gathers g below xs m) (hb : ∀ n, below n → below' n) : Gathers g below' xs m :=
  fun _ _ _ _ _ hrun ht hd => (h hrun ht hd).mono hb (h hrun ht hd).provides

end

/-! ## Leaves and functions -/

theorem run_lift_bind_eq_ok {β γ : Type} {x : Except Fault β} {f : β → LowerM γ} {l l' : Lowering} {c : γ}
    (h : ((liftM x : LowerM β) >>= f).run l = .ok (c, l')) : ∃ b, x = .ok b ∧ (f b).run l = .ok (c, l') := by
  cases x with
  | error e => cases h
  | ok b => exact ⟨b, rfl, h⟩

theorem mem_leaves {p : Program} {n : Nat} :
    n ∈ p.leaves ↔ ∃ (b : Nat) (linked : Bool) (len : Nat), p.buffers[b]? = some ⟨.leaf n linked, len⟩ := by
  unfold Program.leaves
  rw [List.mem_filterMap]
  constructor
  · rintro ⟨⟨source, len⟩, hmem, h⟩
    obtain ⟨b, hb⟩ := List.mem_iff_getElem?.1 hmem
    cases source with
    | leaf m linked =>
      cases h
      exact ⟨b, linked, len, hb⟩
    | scratch f => cases h
  · rintro ⟨b, linked, len, hb⟩
    exact ⟨_, List.mem_of_getElem? hb, rfl⟩

/-- A buffer is found or appended. -/
theorem addBuffer_cases (p : Program) (source : Source) (len : Nat) :
    (∃ b buffer, p.addBuffer source len = (b, p) ∧ p.buffers[b]? = some buffer ∧ buffer.source.same source = true) ∨
      p.addBuffer source len = (p.buffers.length, { p with buffers := p.buffers ++ [⟨source, len⟩] }) := by
  unfold Program.addBuffer
  cases h : p.buffers.findIdx? (·.source.same source) with
  | none => exact .inr rfl
  | some b =>
    obtain ⟨hb, hsame, -⟩ := List.findIdx?_eq_some_iff_getElem.1 h
    exact .inl ⟨b, _, rfl, List.getElem?_eq_getElem hb, hsame⟩

/-- The scratch of a new function is found or appended: it is the only new entry of the table. -/
theorem push_cases (p : Program) (code : List Instr) (inputs : List BufferId) (len : Nat) :
    ∃ b buffers, p.push code inputs len =
        (b, { p with functions := p.functions ++ [⟨code, inputs, b⟩], buffers := buffers }) ∧
      p.buffers <+: buffers ∧ buffers.filterMap Buffer.leaf? = p.leaves ∧
      ∀ {i : Nat} {buffer : Buffer}, buffers[i]? = some buffer → p.buffers[i]? = some buffer ∨ i = b := by
  unfold Program.push
  rcases addBuffer_cases p (.scratch p.functions.length) len with ⟨b, buffer, hadd, -⟩ | hadd <;> rw [hadd]
  · exact ⟨b, _, rfl, List.prefix_refl _, rfl, .inl⟩
  · refine ⟨_, _, rfl, List.prefix_append _ _, by simp [Program.leaves, Buffer.leaf?], fun hb => ?_⟩
    exact (getElem?_append_one hb).imp_right And.left

section
variable {g : Graph} {below : Nat → Prop} {xs : List Nat} {d d' : Draft} {l l' : Lowering} {id b : Nat} {node : Node}

/-- The buffer of a leaf is all that its request can add. -/
theorem leafBuffer_adds (h : (leafBuffer id node).run l = .ok (b, l')) :
    Adds g (· = id) l l' ∧ id ∈ l'.program.leaves ∧ l'.program.functions = l.program.functions ∧ l'.placed = l.placed ∧
      Uses l'.program l.program.buffers.length [] := by
  obtain ⟨len, rfl, rfl⟩ : ∃ len, b = (l.program.addLeaf id true len).1 ∧
      l' = { l with program := (l.program.addLeaf id true len).2 } := by
    obtain ⟨len, -, h⟩ := run_lift_bind_eq_ok h
    cases h
    exact ⟨len, rfl, rfl⟩
  rcases addBuffer_cases l.program (.leaf id true) len with ⟨b, buffer, hadd, hb, hsame⟩ | hadd <;>
    rw [Program.addLeaf, hadd]
  · obtain ⟨source, len'⟩ := buffer
    obtain ⟨linked, rfl⟩ := same_leaf.1 hsame
    exact ⟨.refl g _ l, mem_leaves.2 ⟨b, linked, len', hb⟩, rfl, rfl, uses_length l.program []⟩
  · have hleaves : ({ l.program with buffers := l.program.buffers ++ [⟨.leaf id true, len⟩] } : Program).leaves =
        l.program.leaves ++ [id] := by simp [Program.leaves, Buffer.leaf?]
    refine ⟨⟨List.prefix_append _ _, List.prefix_refl _, fun _ hn => hn, fun n hn => ?_, fun _ hn => .inl hn⟩, ?_, rfl, rfl,
      fun hk hb => ?_⟩
    · simpa [hleaves] using hn
    · simp [hleaves]
    · rcases getElem?_append_one hb with hb | ⟨-, hb⟩
      · exact uses_length l.program [] hk hb
      · cases hb

/-- A function was appended that writes buffer `b`, and is not placed yet. -/
structure Pushed (g : Graph) (below : Nat → Prop) (xs : List Nat) (l : Lowering) (b : BufferId) (l' : Lowering) :
    Prop extends Adds g below l l' where
  tidy : Tidy g l' [b]
  uses : Uses l'.program l.program.buffers.length [b]
  provides : ∀ x ∈ xs, Provides g l' x

theorem function_pushed {shape : Shape} {body : BodyM Unit} (hbody : Gathers g below xs body)
    (h : (function shape body).run l = .ok (b, l')) (ht : Tidy g l []) : Pushed g below xs l b l' := by
  obtain ⟨len, d, l₁, hrun, rfl, rfl⟩ : ∃ len d l₁, body.runOn {} l = .ok (((), d), l₁) ∧
      b = (l₁.program.push d.code d.inputs len).1 ∧
      l' = { l₁ with program := (l₁.program.push d.code d.inputs len).2 } := by
    obtain ⟨len, -, h⟩ := run_lift_bind_eq_ok h
    obtain ⟨⟨⟨⟨⟩, d⟩, l₁⟩, hrun, h⟩ := bind_eq_ok.1 h
    cases h
    exact ⟨len, d, l₁, hrun, rfl, rfl⟩
  have he := hbody hrun ht ⟨⟨List.nodup_nil, by simp⟩, by simp⟩
  obtain ⟨b, buffers, hpush, hpre, hleaves, hnew⟩ := push_cases l₁.program d.code d.inputs len
  rw [hpush]
  have hadds : Adds g below l₁ { l₁ with program := { l₁.program with
      functions := l₁.program.functions ++ [⟨d.code, d.inputs, b⟩], buffers := buffers } } :=
    ⟨hpre, List.prefix_append _ _, fun _ hn => hn, fun n hn => .inl (hleaves ▸ hn), fun _ hn => .inl hn⟩
  refine ⟨he.toAdds.trans hadds, ⟨?_, he.tidy.once, fun n hn => (he.tidy.provides n hn).adds hadds, ?_⟩, fun hk hb => ?_,
    fun x hx => (he.provides x hx).adds hadds⟩
  · simp [he.tidy.outputs]
  · intro fn hfn
    rcases List.mem_append.1 hfn with hfn | hfn
    · exact he.tidy.loads fn hfn
    · cases List.mem_singleton.1 hfn
      exact he.draft.loads
  · rcases hnew hb with hb | rfl
    · rcases he.uses hk hb with hin | ⟨fn, hfn, hin⟩
      · exact .inr ⟨_, List.mem_append_right _ (List.mem_singleton.2 rfl), hin⟩
      · exact .inr ⟨fn, List.mem_append_left _ hfn, hin⟩
    · exact .inl (List.mem_singleton.2 rfl)

/-- The body of a node's function places nodes below it only, and operands have smaller
numbers. -/
theorem Pushed.not_placed (hg : g.WellFormed) (h : Pushed g (g.Below id) xs l b l') (hfresh : id ∉ l.placedNodes) :
    id ∉ l'.placedNodes := by
  intro hid
  rcases h.node id hid with hid | ⟨hid, -⟩
  · exact hfresh hid
  · exact Nat.lt_irrefl _ (hg.below_lt hid)

/-- Placing the node that the last function computes. -/
theorem Pushed.place (hg : g.WellFormed) (h : Pushed g (g.Below id) (g.operandsOf id) l b l') (hacc : g.Accumulates id)
    (hfresh : id ∉ l.placedNodes) :
    Adds g (g.DependsOn id) l { l' with placed := (id, b) :: l'.placed } ∧
      Tidy g { l' with placed := (id, b) :: l'.placed } [] ∧ Provides g { l' with placed := (id, b) :: l'.placed } id := by
  have hadds : Adds g (g.DependsOn id) l' { l' with placed := (id, b) :: l'.placed } := by
    refine ⟨List.prefix_refl _, List.prefix_refl _, fun _ hn => List.mem_cons_of_mem _ hn, fun _ hn => .inl hn, fun n hn => ?_⟩
    rcases List.mem_cons.1 hn with rfl | hn
    · exact .inr ⟨.refl _, hacc⟩
    · exact .inl hn
  have hprovides : Provides g { l' with placed := (id, b) :: l'.placed } id :=
    .of_operands (fun x hx => (h.provides x hx).adds hadds) (fun hleaf => absurd hacc hleaf.not_accumulates)
      fun _ => List.mem_cons_self ..
  refine ⟨(h.toAdds.mono fun n hn => Graph.dependsOn_iff.2 (.inr hn)).trans hadds, ⟨?_, ?_, ?_, h.tidy.loads⟩, hprovides⟩
  · simp [h.tidy.outputs]
  · exact List.nodup_cons.2 ⟨h.not_placed hg hfresh, h.tidy.once⟩
  · intro n hn
    rcases List.mem_cons.1 hn with rfl | hn
    · exact hprovides
    · exact (h.tidy.provides n hn).adds hadds

/-! ## Elements -/

/-- The element of a leaf: its buffer is requested, and loaded from. -/
theorem leaf_gathered {shape : Shape} {idx : List Coord} {v : ValueId} (hn : g.HasLeaf id)
    (h : (do
      let buffer ← (leafBuffer id node : BodyM BufferId)
      load buffer shape idx : BodyM ValueId).runOn d l = .ok ((v, d'), l')) (ht : Tidy g l []) (hd : d.Tidy g l) :
    Gathered g (g.DependsOn id) [id] d l d' l' := by
  obtain ⟨b, d₁, l₁, hlift, hload⟩ := runOn_bind_eq_ok h
  obtain ⟨hleaf, rfl⟩ := runOn_lower_eq_ok hlift
  obtain ⟨hadds, hid, hfunctions, hplaced, huses⟩ := leafBuffer_adds (g := g) hleaf
  obtain ⟨code, offset, hcode, rfl, rfl⟩ := runOn_load_eq_ok hload
  obtain ⟨hdraft, -, hinputs⟩ := hd.loaded hcode b offset
  have hnodes : l'.placedNodes = l.placedNodes := congrArg (List.map Prod.fst) hplaced
  have hprovides : Provides g l' id :=
    .of_operands (by simp [hn.operandsOf]) (fun _ => hid) fun hacc => absurd hacc hn.not_accumulates
  refine ⟨hadds.mono fun n hn => hn ▸ .refl _, ⟨?_, hnodes ▸ ht.once, fun n hn => ?_, hfunctions ▸ ht.loads⟩,
    hdraft.adds hadds, hinputs, fun hk hb => ?_, by simpa using hprovides⟩
  · rw [hfunctions, hplaced, ht.outputs]
  · exact (ht.provides n (hnodes ▸ hn)).adds hadds
  · exact (huses hk hb).imp_left fun hb => absurd hb List.not_mem_nil

/-- The element of a reduction or a matrix product that is in no buffer: its function is
appended, placed and loaded from. -/
theorem accumulation_gathered (hg : g.WellFormed) {shape shape' : Shape} {body : BodyM Unit} {idx : List Coord} {v : ValueId}
    (hbody : Gathers g (g.Below id) (g.operandsOf id) body) (hacc : g.Accumulates id) (hfresh : id ∉ l.placedNodes)
    (h : (do
      let buffer ← (function shape body : BodyM BufferId)
      place id buffer
      load buffer shape' idx : BodyM ValueId).runOn d l = .ok ((v, d'), l')) (ht : Tidy g l []) (hd : d.Tidy g l) :
    Gathered g (g.DependsOn id) [id] d l d' l' := by
  obtain ⟨b, d₁, l₁, hlift, h₁⟩ := runOn_bind_eq_ok h
  obtain ⟨hfunction, rfl⟩ := runOn_lower_eq_ok hlift
  obtain ⟨u, d₂, l₂, hplace, hload⟩ := runOn_bind_eq_ok h₁
  cases hplace
  have hpushed := function_pushed hbody hfunction ht
  obtain ⟨hadds, htidy, hprovides⟩ := hpushed.place hg hacc hfresh
  obtain ⟨code, offset, hcode, rfl, rfl⟩ := runOn_load_eq_ok hload
  obtain ⟨hdraft, hb, hinputs⟩ := hd.loaded hcode b offset
  refine ⟨hadds, htidy, hdraft.adds hadds, hinputs, fun hk hi => ?_, by simpa using hprovides⟩
  rcases hpushed.uses hk hi with hi | hi
  · exact .inl (List.mem_singleton.1 hi ▸ hb)
  · exact .inr hi

/-- What emits the operands emits the node. -/
theorem emitNode_gathered (hg : g.WellFormed) {element : ElementEmitter}
    (helement : ∀ x idx, Gathers g (g.DependsOn x) [x] (element x idx)) (hn : g.node? id = some node)
    (hfresh : g.Accumulates id → id ∉ l.placedNodes) {idx : List Coord} {v : ValueId}
    (h : (emitNode g element id node idx).runOn d l = .ok ((v, d'), l')) (ht : Tidy g l []) (hd : d.Tidy g l) :
    Gathered g (g.DependsOn id) [id] d l d' l' := by
  have hops := Graph.operandsOf_eq hn
  have hx : ∀ x ∈ node.kind.operands, ∀ idx, Gathers g (g.Below id) [x] (element x idx) := fun x hx idx =>
    Gathers.mono (helement x idx) fun n hn => ⟨x, hops ▸ hx, hn⟩
  -- A node that is inlined is provided for with its operands.
  have hinline (hleaf : node.kind.isLeaf = false) (hacc : node.kind.accumulates = false) :
      Gathered g (g.DependsOn id) [id] d l d' l' := by
    have he := Obeys.emitNode hleaf hacc hx id idx h ht hd
    refine he.mono (fun n hn => Graph.dependsOn_iff.2 (.inr hn)) fun x hx => ?_
    rw [List.mem_singleton.1 hx]
    refine .of_operands (hops ▸ he.provides) ?_ ?_ <;> rintro ⟨node', hn', h⟩ <;> cases hn.symm.trans hn'
    · exact absurd (hleaf.symm.trans h) Bool.false_ne_true
    · exact absurd (hacc.symm.trans h) Bool.false_ne_true
  obtain ⟨kind, shape⟩ := node
  cases kind with
  | input => exact leaf_gathered ⟨_, hn, rfl⟩ h ht hd
  | weight => exact leaf_gathered ⟨_, hn, rfl⟩ h ht hd
  | constant c => exact hinline rfl rfl
  | unary op x => exact hinline rfl rfl
  | binary op lhs rhs => exact hinline rfl rfl
  | reshape x => exact hinline rfl rfl
  | permute x perm => exact hinline rfl rfl
  | reduce op x axes keepDims =>
    obtain ⟨input, d₁, l₁, hfetch, h₁⟩ := runOn_bind_eq_ok h
    obtain ⟨-, rfl, rfl⟩ := runOn_words_eq_ok hfetch
    have hacc : g.Accumulates id := ⟨_, hn, rfl⟩
    refine accumulation_gathered hg ?_ hacc (hfresh hacc) h₁ ht hd
    rw [hops]
    exact .reduceBody (hx x (by simp [Kind.operands])) ..
  | matmul lhs rhs =>
    obtain ⟨a, d₁, l₁, hfetch, h₁⟩ := runOn_bind_eq_ok h
    obtain ⟨-, rfl, rfl⟩ := runOn_words_eq_ok hfetch
    obtain ⟨b, d₁, l₁, hfetch, h₂⟩ := runOn_bind_eq_ok h₁
    obtain ⟨-, rfl, rfl⟩ := runOn_words_eq_ok hfetch
    have hacc : g.Accumulates id := ⟨_, hn, rfl⟩
    refine accumulation_gathered hg ?_ hacc (hfresh hacc) h₂ ht hd
    rw [hops]
    exact .matmulBody (hx lhs (by simp [Kind.operands])) (hx rhs (by simp [Kind.operands])) ..

theorem mem_placedNodes : id ∈ l.placedNodes ↔ (l.placed.lookup id).isSome = true := by
  simp only [List.lookup_isSome_iff, placedNodes, List.mem_map, beq_iff_eq, eq_comm (a := id)]

theorem Gathered.remember (h : Gathered g below [id] d l d' l') (idx : List Coord) (v : ValueId) :
    Gathered g below [id] d l { d' with known := ((id, idx), v) :: d'.known } l' := by
  refine ⟨h.toAdds, h.tidy, ⟨h.draft.loads, fun entry he => ?_⟩, h.inputs, h.uses, h.provides⟩
  rcases List.mem_cons.1 he with rfl | he
  · exact h.provides id (List.mem_singleton.2 rfl)
  · exact h.draft.known entry he

/-- The element of every node is emitted with what the node depends on, and no more. A
reduction or a matrix product is never emitted twice: its function is appended only where it
is in no buffer. -/
theorem Gathers.elementBelow (hg : g.WellFormed) (bound : Nat) {top : Bool} (htop : top = true → ¬ g.Accumulates id)
    (idx : List Coord) : Gathers g (g.DependsOn id) [id] (elementBelow g bound top id idx) := by
  induction bound generalizing top id idx with
  | zero =>
    intro d l v d' l' h
    cases h
  | succ bound ih =>
    intro d l v d' l' h ht hd
    have hknown : (known? id idx).runOn d l = .ok ((d.known.lookup (id, idx), d), l) := rfl
    unfold Lowering.elementBelow at h
    rw [runOn_bind_ok hknown] at h
    cases hfound : d.known.lookup (id, idx) with
    | some w =>
      rw [hfound] at h
      cases h
      obtain ⟨later, earlier, hentries, -⟩ := List.lookup_eq_some_iff.1 hfound
      have hprovides : Provides g l id := hd.known ((id, idx), v) (by simp [hentries])
      exact (Gathered.refl g _ ht hd).mono (fun _ hn => hn) (by simpa using hprovides)
    | none =>
      rw [hfound] at h
      obtain ⟨node, d₁, l₁, hfetch, h₁⟩ := runOn_bind_eq_ok h
      obtain ⟨hn, rfl, rfl⟩ := runOn_words_eq_ok hfetch
      rw [runOn_bind_ok (runOn_lower (source?_run top id l₁) d₁)] at h₁
      cases hsource : if top then none else l₁.placed.lookup id with
      | some b =>
        rw [hsource] at h₁
        obtain ⟨w, d₂, l₂, hload, h₂⟩ := runOn_bind_eq_ok h₁
        cases h₂
        have he : Gathered g (g.DependsOn id) [] d₁ l₁ d₂ l' :=
          Obeys.load (L := gatherLaw g (g.DependsOn id)) b node.shape idx hload ht hd
        have hid : id ∈ l₁.placedNodes := by
          cases top with
          | false => exact mem_placedNodes.2 (Option.isSome_of_eq_some hsource)
          | true => cases hsource
        refine Gathered.remember ?_ idx v
        exact he.mono (fun _ hn => hn) (by simpa using (ht.provides id hid).adds he.toAdds)
      | none =>
        rw [hsource] at h₁
        obtain ⟨w, d₂, l₂, hemit, h₂⟩ := runOn_bind_eq_ok h₁
        cases h₂
        refine (emitNode_gathered hg (fun x idx => ih (by simp) idx) (node?_of_fetch hn) (fun hacc hid => ?_) hemit ht hd).remember
          idx v
        cases top with
        | false => exact absurd (Option.isSome_iff_ne_none.1 (mem_placedNodes.1 hid)) (not_not_intro hsource)
        | true => exact htop rfl hacc

theorem Pushed.of_accumulates (hg : g.WellFormed) (h : Pushed g (g.Below id) (g.operandsOf id) l b l')
    (hacc : g.Accumulates id) (hfresh : id ∉ l.placedNodes) :
    Pushed g (g.DependsOn id) (g.operandsOf id) l b l' ∧ (g.HasLeaf id → id ∈ l'.program.leaves) ∧ id ∉ l'.placedNodes := by
  exact ⟨⟨h.toAdds.mono fun n hn => Graph.dependsOn_iff.2 (.inr hn), h.tidy, h.uses, h.provides⟩,
    fun hleaf => absurd hacc hleaf.not_accumulates, h.not_placed hg hfresh⟩

/-- The function of a node is appended behind those of all that its operands depend on. -/
theorem nodeFunction_pushed (hg : g.WellFormed) (h : (nodeFunction g id).run l = .ok (b, l')) (ht : Tidy g l [])
    (hfresh : id ∉ l.placedNodes) :
    Pushed g (g.DependsOn id) (g.operandsOf id) l b l' ∧ (g.HasLeaf id → id ∈ l'.program.leaves) ∧ id ∉ l'.placedNodes := by
  obtain ⟨⟨kind, shape⟩, hfetch, h⟩ := run_lift_bind_eq_ok h
  have hn := node?_of_fetch hfetch
  have hops := Graph.operandsOf_eq hn
  have helement : ∀ x ∈ g.operandsOf id, ∀ idx, Gathers g (g.Below id) [x] (element g false x idx) := fun x hx idx =>
    Gathers.mono (Gathers.elementBelow hg (x + 1) (by simp) idx) fun n hn => ⟨x, hx, hn⟩
  rw [hops] at helement
  have hwhole (hacc : kind.accumulates = false)
      (h : (function shape (elementwiseBody shape (element g true id))).run l = .ok (b, l')) :
      Pushed g (g.DependsOn id) (g.operandsOf id) l b l' ∧ (g.HasLeaf id → id ∈ l'.program.leaves) ∧ id ∉ l'.placedNodes := by
    have hacc' : ¬ g.Accumulates id := by
      rintro ⟨node, hn', h⟩
      cases hn.symm.trans hn'
      exact absurd (hacc.symm.trans h) Bool.false_ne_true
    have hp := function_pushed (.elementwiseBody (Gathers.elementBelow hg (id + 1) fun _ => hacc') shape) h ht
    have hprovides := hp.provides id (List.mem_singleton.2 rfl)
    refine ⟨⟨hp.toAdds, hp.tidy, hp.uses, fun x hx => ?_⟩, hprovides.leaf (.refl id), fun hid => ?_⟩
    · exact ⟨fun hd => hprovides.leaf (.operand hx hd), fun hd => hprovides.node (.operand hx hd)⟩
    · exact (hp.node id hid).elim hfresh fun h => hacc' h.2
  cases kind with
  | reduce op x axes keepDims =>
    obtain ⟨input, -, h⟩ := run_lift_bind_eq_ok h
    have hbody := Obeys.reduceBody (helement x (by simp [Kind.operands])) input.shape shape op axes keepDims
    exact (function_pushed (hops ▸ hbody) h ht).of_accumulates hg ⟨_, hn, rfl⟩ hfresh
  | matmul lhs rhs =>
    obtain ⟨a, -, h⟩ := run_lift_bind_eq_ok h
    obtain ⟨c, -, h⟩ := run_lift_bind_eq_ok h
    have hbody := Obeys.matmulBody (helement lhs (by simp [Kind.operands])) (helement rhs (by simp [Kind.operands]))
      a.shape c.shape shape
    exact (function_pushed (hops ▸ hbody) h ht).of_accumulates hg ⟨_, hn, rfl⟩ hfresh
  | input | weight | constant _ | unary _ _ | binary _ _ _ | reshape _ | permute _ _ => exact hwhole rfl h

end

end Lowering

end TensorLoom
