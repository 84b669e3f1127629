import TensorLoom.Proofs.Lowering.Alignment
import TensorLoom.Proofs.Lowering.Request
/-
# Updates in place

An update appends a function that writes the value of a node over a leaf. It computes the
value from the contents before the update, whether it reads the leaf itself at the element
being written or a copy of it (`update_run`).
-/

namespace TensorLoom

namespace Lowering

open BodyM StepM

section
variable {g : Graph} {l l' : Lowering} {nodes nodes' : List Nat} {leaf value : Nat}

/-! ## Appending the update -/

/-- A function that computes the node into the storage of a leaf. -/
theorem Sound.pushInto (hs : Sound g l nodes) {code : List Instr} {inputs : List Nat} {b len : Nat} {linked : Bool}
    (hb : l.program.buffers[b]? = some ⟨.leaf leaf linked, len⟩) (hshape : g.shapeAt leaf = g.shapeAt value)
    (hok : FunctionOk g l.program (nodes ++ [value]) nodes.length ⟨code, inputs, b⟩ value) :
    Sound g { l with program := l.program.pushInto code inputs b } (nodes ++ [value]) := by
  have hn : nodes <+: nodes ++ [value] := List.prefix_append _ _
  refine ⟨?_, fun h => ?_, hs.leaf, hs.unique, fun {f fn id} hfn hid => ?_, fun h => ?_⟩
  · simp [Program.pushInto, hs.count]
  · obtain ⟨fn, id, hfn, hout, hid, hlen⟩ := hs.scratch h
    exact ⟨fn, id, getElem?_mono (List.prefix_append _ _) hfn, hout, getElem?_mono hn hid, hlen⟩
  · rcases getElem?_append_one hfn with hfn | ⟨rfl, rfl⟩
    · have hlt : f < nodes.length := hs.count ▸ (List.getElem?_eq_some_iff.1 hfn).1
      rw [List.getElem?_append_left hlt] at hid
      obtain ⟨hok', hwrites⟩ := hs.functions hfn hid
      have hok'' := hok'.mono (List.prefix_refl _) hn (Nat.le_of_lt hlt)
      exact ⟨⟨hok''.verified, hok''.inputs, hok''.computes⟩, hwrites⟩
    · rw [← hs.count] at hid ⊢
      obtain rfl : value = id := by simpa using hid
      exact ⟨⟨hok.verified, hok.inputs, hok.computes⟩, .inr ⟨leaf, linked, len, hb, hshape⟩⟩
  · exact Program.owner?_mono (List.prefix_refl _) hn (hs.placed h)

theorem Advances.pushInto (hs : Sound g l nodes) {code : List Instr} {inputs : List Nat} {b len : Nat} {linked : Bool}
    (hb : l.program.buffers[b]? = some ⟨.leaf leaf linked, len⟩) (value : Nat) :
    Advances l { l with program := l.program.pushInto code inputs b } nodes (nodes ++ [value])
      fun n v => n = leaf ∧ v = value where
  buffers := List.prefix_refl _
  functions := List.prefix_append _ _
  listed := List.prefix_append _ _
  scratch h := h
  assigns {n v} := by
    constructor
    · rintro ⟨f, fn, linked', len', hfn, hv, hb'⟩
      rcases getElem?_append_one hfn with hfn | ⟨rfl, rfl⟩
      · have hlt : f < nodes.length := hs.count ▸ (List.getElem?_eq_some_iff.1 hfn).1
        rw [List.getElem?_append_left hlt] at hv
        exact .inl ⟨f, fn, linked', len', hfn, hv, hb'⟩
      · rw [← hs.count] at hv
        cases hb.symm.trans hb'
        exact .inr ⟨rfl, by simpa using hv.symm⟩
    · rintro (⟨f, fn, linked', len', hfn, hv, hb'⟩ | ⟨rfl, rfl⟩)
      · exact ⟨f, fn, linked', len', getElem?_mono (List.prefix_append _ _) hfn,
          getElem?_mono (List.prefix_append _ _) hv, hb'⟩
      · exact ⟨nodes.length, ⟨code, inputs, b⟩, linked, len, by simp [Program.pushInto, hs.count], by simp, hb⟩

/-! ## The body of an update -/

/-- The body may write over the leaf if, whatever element it writes, it reads the leaf only
from there on. -/
theorem updateBody_run (hg : g.WellFormed) (hvalue : value < g.length) (hcounts : g.CountsBelow 9223372036854775808 value)
    (hs : Sound g l nodes) {b len : Nat} {linked : Bool} (hb : l.program.buffers[b]? = some ⟨.leaf leaf linked, len⟩)
    (acc : List Nat → Access)
    (hacc : ∀ is, Shape.Mem is (g.shapeAt value) → (acc is).Served g l false ∧ (acc is).may value is ∧
      ∀ js, Shape.Mem js (g.shapeAt leaf) → (acc is).reads leaf js →
        Shape.offset is (g.shapeAt value) ≤ Shape.offset js (g.shapeAt leaf)) :
    ∃ d l' nodes', (updateBody g (g.shapeAt value) value).run l = .ok (d, l') ∧ Sound g l' nodes' ∧
      Grows g l l' nodes nodes' ∧
      FunctionOk g l'.program (nodes' ++ [value]) nodes'.length ⟨d.code, d.inputs, b⟩ value ∧
      ∀ is, Shape.Mem is (g.shapeAt value) →
        (∀ b ∈ d.inputs, ∃ n js, l'.program.owner? nodes' b = some n ∧ (acc is).may n js) ∧
          ((acc is).Inline g l → l'.program.functions = l.program.functions) := by
  obtain ⟨d, l', nodes', hrun, hok, hreads, hfills⟩ :=
    elementwiseBody_ok hg hcounts.self (element_emits hg false hvalue hcounts) hs
  have hb' : l'.program.buffers[b]? = some ⟨.leaf leaf linked, len⟩ := getElem?_mono hok.grows.buffers hb
  refine ⟨d, l', nodes', ?_, hok.sound, hok.grows, ⟨fun k => hok.verified k b, fun x hx => ?_, ?_⟩, fun is hm => ?_⟩
  · have hcount := Shape.elementCount_eq_ok (hg.shapeAt_positive value) (Nat.lt_trans hcounts.self (by decide))
    have hbody : ((elementwiseBody (g.shapeAt value) (element g false value)).run {}).run l = .ok (((), d), l') := hrun
    unfold updateBody
    rw [LowerM.run_bind_ok (LowerM.run_words hcount l), LowerM.run_bind_ok hbody]
    rfl
  · rw [List.take_left]
    exact hok.inputs x hx
  · refine @computes_of_fills g l'.program nodes' _ _ _ _ _ (· = leaf) (fun x hx => ?_) (fun _ n hn => ?_) ?_
    · obtain ⟨n, hn⟩ := hok.inputs x hx
      exact ⟨n, hn, Program.owner?_mono (List.prefix_refl _) (List.prefix_append _ _) hn⟩
    · rw [Program.owner?_leaf nodes' hb'] at hn
      exact ⟨⟨leaf, linked, len, hb'⟩, (Option.some.inj hn).symm⟩
    · intro α A leaves w memory old
      refine hfills A leaves w memory old _ acc fun is hm => ?_
      obtain ⟨hserved, hmay, hfrom⟩ := hacc is hm
      refine ⟨hserved, hmay, ?_⟩
      rintro n js rfl hm' hread
      exact hfrom js hm' hread
  · obtain ⟨hserved, hmay, -⟩ := hacc is hm
    obtain ⟨hinputs, hquiet⟩ := hreads (acc is) hserved ⟨is, hm, hmay⟩
    exact ⟨hinputs, hquiet rfl⟩

/-! ## With and without a copy -/

/-- What the inlined value of one element needs. -/
def needs (g : Graph) (placed : List (NodeId × BufferId)) (value : Nat) (is : List Nat) : Access :=
  ⟨Reached g placed value is, Reached g placed value is⟩

theorem needs_served (g : Graph) (l : Lowering) (value : Nat) (is : List Nat) : (needs g l.placed value is).Served g l false :=
  ⟨⟨fun hmay _ hnone hin => .inline hmay hnone hin, fun hmay _ _ _ => hmay⟩, fun h => absurd h Bool.false_ne_true⟩

/-- Everything but the storage of the leaf. -/
def allBut (leaf : Nat) : Access := ⟨fun _ _ => True, fun n _ => n ≠ leaf⟩

theorem allBut_served (hleaf : InScratch l leaf) : (allBut leaf).Served g l false := by
  refine ⟨⟨fun _ _ _ _ => trivial, ?_⟩, fun h => absurd h Bool.false_ne_true⟩
  rintro id is n - - - hnot rfl
  exact hnot hleaf

/-- The nodes may be placed anew in buffers that hold them. -/
theorem Sound.setPlaced (hs : Sound g l nodes) {placed : List (NodeId × BufferId)}
    (h : ∀ {id b : Nat}, placed.lookup id = some b → l.program.owner? nodes b = some id) :
    Sound g { l with placed := placed } nodes := ⟨hs.count, hs.scratch, hs.leaf, hs.unique, hs.functions, h⟩

/-- Where nodes are after a copy was forgotten. -/
def restored (leaf : Nat) (before : Option BufferId) (placed : List (NodeId × BufferId)) : List (NodeId × BufferId) :=
  match before with
  | some b => (leaf, b) :: placed
  | none => placed.filter (·.1 != leaf)

theorem lookup_restored (leaf : Nat) (before : Option BufferId) (placed : List (NodeId × BufferId)) (x : Nat) :
    (restored leaf before placed).lookup x = if x = leaf then before else placed.lookup x := by
  cases before with
  | some b =>
    by_cases hx : x = leaf
    · rw [if_pos hx, hx]
      exact lookup_cons_self placed leaf b
    · rw [if_neg hx]
      exact lookup_cons_ne placed hx b
  | none =>
    rw [restored]
    induction placed with
    | nil => simp
    | cons entry placed ih =>
      obtain ⟨y, b⟩ := entry
      by_cases hy : y = leaf
      · rw [List.filter_cons_of_neg (by simp [hy]), ih]
        by_cases hx : x = leaf
        · simp [hx]
        · rw [if_neg hx, if_neg hx, lookup_cons_ne placed (hy ▸ hx)]
      · rw [List.filter_cons_of_pos (by simp [hy])]
        by_cases hx : x = y
        · rw [hx, if_neg hy, lookup_cons_self, lookup_cons_self]
        · rw [lookup_cons_ne _ hx, lookup_cons_ne _ hx, ih]

theorem withCopy_run {β : Type} {m : LowerM β} {copy : Nat} {b : β} {l₁ : Lowering}
    (h : m.run { l with placed := (leaf, copy) :: l.placed } = .ok (b, l₁)) :
    (withCopy leaf copy m).run l = .ok (b, { l₁ with placed := restored leaf (l.placed.lookup leaf) l₁.placed }) := by
  have hget : (get : LowerM Lowering).run l = .ok (l, l) := rfl
  have hplace : (place leaf copy).run l = .ok ((), { l with placed := (leaf, copy) :: l.placed }) := rfl
  unfold withCopy
  rw [LowerM.run_bind_ok hget, LowerM.run_bind_ok hplace, LowerM.run_bind_ok h]
  rfl

/-- A copy of the leaf is made, used and forgotten. -/
theorem copy_run (hg : g.WellFormed) {target : Node} (hn : g.node? leaf = some target) (hleaf : target.kind.isLeaf = true)
    (hvalue : value < g.length) (hcounts : g.CountsBelow 9223372036854775808 value)
    (hcountsLeaf : g.CountsBelow 9223372036854775808 leaf) (hs : Sound g l nodes) {b len : Nat} {linked : Bool}
    (hb : l.program.buffers[b]? = some ⟨.leaf leaf linked, len⟩) :
    ∃ d l' nodes', (do
        let copy ← nodeFunction g leaf
        withCopy leaf copy (updateBody g (g.shapeAt value) value) : LowerM Draft).run l = .ok (d, l') ∧
      Sound g l' nodes' ∧ Advances l l' nodes nodes' (fun _ _ => False) ∧ l'.program.output = l.program.output ∧
      FunctionOk g l'.program (nodes' ++ [value]) nodes'.length ⟨d.code, d.inputs, b⟩ value := by
  obtain ⟨copy, l₁, nodes₁, f, len₁, hrun₁, hs₁, hgrows₁, hcopy, howner⟩ :=
    nodeFunction_run hg (Graph.node?_lt hn) hcountsLeaf hs
  have hscratch : InScratch { l₁ with placed := (leaf, copy) :: l₁.placed } leaf :=
    ⟨copy, f, len₁, lookup_cons_self .., hcopy⟩
  have hs₂ := hs₁.place howner
  obtain ⟨d, l₃, nodes₃, hrun₃, hs₃, hgrows₃, hok, -⟩ := updateBody_run hg hvalue hcounts hs₂
    (getElem?_mono hgrows₁.buffers hb) (fun _ => allBut leaf)
    fun is _ => ⟨allBut_served hscratch, trivial, fun js _ hread => absurd rfl hread⟩
  have h₁ := hgrows₁.advances hs
  have h₃ := hgrows₃.advances hs₂
  refine ⟨d, { l₃ with placed := restored leaf (l₁.placed.lookup leaf) l₃.placed }, nodes₃, ?_, ?_, ?_,
    hgrows₃.output.trans hgrows₁.output, ⟨hok.verified, hok.inputs, hok.computes⟩⟩
  · rw [LowerM.run_bind_ok hrun₁, withCopy_run hrun₃]
  · refine hs₃.setPlaced fun {id b'} hlookup => ?_
    rw [lookup_restored] at hlookup
    split at hlookup
    · rename_i heq
      exact heq ▸ hgrows₃.owner? (hs₁.placed hlookup)
    · exact hs₃.placed hlookup
  · refine ⟨h₁.buffers.trans h₃.buffers, h₁.functions.trans h₃.functions, h₁.listed.trans h₃.listed, fun {x} hx => ?_, ?_⟩
    · by_cases heq : x = leaf
      · -- a leaf is where it was before the copy
        obtain ⟨b', f', len', hplaced, hbuffer⟩ := hx
        refine ⟨b', f', len', ?_, getElem?_mono (h₁.buffers.trans h₃.buffers) hbuffer⟩
        rw [lookup_restored, if_pos heq, hgrows₁.leaves hn hleaf, ← heq, hplaced]
      · obtain ⟨b', f', len', hplaced, hbuffer⟩ := hgrows₁.scratch hx
        obtain ⟨b'', f'', len'', hplaced', hbuffer'⟩ :=
          hgrows₃.scratch ⟨b', f', len', (lookup_cons_ne _ heq _).trans hplaced, hbuffer⟩
        exact ⟨b'', f'', len'', by rw [lookup_restored, if_neg heq, hplaced'], hbuffer'⟩
    · intro n v
      exact (h₃.assigns.trans (or_congr_left h₁.assigns)).trans (by simp)

/-- A leaf needs its own elements only. -/
theorem countsBelow_leaf {n : Nat} {target : Node} (hn : g.node? leaf = some target) (hleaf : target.kind.isLeaf = true)
    (hsize : Shape.size (g.shapeAt leaf) < n) : g.CountsBelow n leaf := by
  intro x hx
  cases hx with
  | refl => exact hsize
  | operand hx' _ =>
    rw [Graph.operandsOf_eq hn] at hx'
    obtain ⟨kind, shape⟩ := target
    cases kind <;> simp [Kind.isLeaf, Kind.operands] at hleaf hx'

/-- The update is appended once its body is there. -/
theorem pushUpdate_run {m : LowerM Draft} {d : Draft} (hrun : m.run l = .ok (d, l')) (hs' : Sound g l' nodes')
    (hadvances : Advances l l' nodes nodes' fun _ _ => False) {b len : Nat} {linked : Bool}
    (hb : l'.program.buffers[b]? = some ⟨.leaf leaf linked, len⟩) (hshape : g.shapeAt leaf = g.shapeAt value)
    (hok : FunctionOk g l'.program (nodes' ++ [value]) nodes'.length ⟨d.code, d.inputs, b⟩ value) :
    (do
      let draft ← (m : StepM Draft)
      modifyThe Lowering fun l => { l with program := l.program.pushInto draft.code draft.inputs b }
      return b : StepM BufferId).runOn l = .ok (.ok b, { l' with program := l'.program.pushInto d.code d.inputs b }) ∧
    Sound g { l' with program := l'.program.pushInto d.code d.inputs b } (nodes' ++ [value]) ∧
    Advances l { l' with program := l'.program.pushInto d.code d.inputs b } nodes (nodes' ++ [value])
      fun n v => n = leaf ∧ v = value := by
  refine ⟨?_, hs'.pushInto hb hshape hok, (hadvances.trans (.pushInto hs' hb value)).congr fun _ _ => or_iff_right id⟩
  rw [runOn_bind_ok (runOn_lower hrun)]
  rfl

/-- A leaf gets the value of a node of its shape. If the value is computed inline and reads
the leaf where it is written, one function does it, which reads nothing else. -/
theorem update_run (hg : g.WellFormed) {target source : Node} (hn : g.node? leaf = some target)
    (hleaf : target.kind.isLeaf = true) (hv : g.node? value = some source) (hshape : source.shape = target.shape)
    (hcounts : g.CountsBelow 9223372036854775808 value) (hs : Sound g l nodes) :
    ∃ b l' nodes', (update g leaf value).runOn l = .ok (.ok b, l') ∧ Sound g l' nodes' ∧
      Advances l l' nodes nodes' (fun n v => n = leaf ∧ v = value) ∧ l'.program.output = l.program.output ∧
      (readsElsewhere g l.placed value leaf = false → ∀ is, Shape.Mem is (g.shapeAt value) →
        (needs g l.placed value is).Inline g l → ∃ fn len, l'.program.functions = l.program.functions ++ [fn] ∧
          l'.program.buffers[fn.output]? = some ⟨.leaf leaf true, len⟩ ∧
          ∀ b ∈ fn.inputs, ∃ n js, l'.program.owner? nodes' b = some n ∧ Reached g l.placed value is n js) := by
  have hvalue := Graph.node?_lt hv
  have htarget : target.shape = g.shapeAt value := by rw [Graph.shapeAt_of_node? hv, hshape]
  have hsame : g.shapeAt leaf = g.shapeAt value := (Graph.shapeAt_of_node? hn).trans htarget
  have hsize : Shape.size (g.shapeAt leaf) < 9223372036854775808 := hsame ▸ hcounts.self
  have hcountsLeaf := countsBelow_leaf hn hleaf hsize
  obtain ⟨b, l₁, len, hrun₁, hs₁, hgrows₁, hfunctions₁, hplaced₁, hb⟩ :=
    leafBuffer_run hg hs hn hleaf (Nat.lt_trans (htarget ▸ hcounts.self) (by decide))
  have hget : (getThe Lowering : StepM Lowering).runOn l₁ = .ok (.ok l₁, l₁) := rfl
  unfold update
  rw [runOn_bind_ok (runOn_requestNode hn l)]
  simp only [hleaf, Bool.not_true, Bool.false_eq_true, if_false]
  rw [runOn_bind_ok (runOn_requestNode hv l)]
  simp only [hshape, ne_eq, not_true_eq_false, if_false]
  rw [runOn_bind_ok (runOn_lower hrun₁), runOn_bind_ok hget, hplaced₁, htarget]
  cases helse : readsElsewhere g l.placed value leaf with
  | true =>
    obtain ⟨d, l₂, nodes₂, hrun₂, hs₂, hadvances₂, hout₂, hok⟩ := copy_run hg hn hleaf hvalue hcounts hcountsLeaf hs₁ hb
    obtain ⟨hrun, hs', hadvances⟩ :=
      pushUpdate_run hrun₂ hs₂ hadvances₂ (getElem?_mono hadvances₂.buffers hb) hsame hok
    refine ⟨b, _, _, ?_, hs', ((hgrows₁.advances hs).trans hadvances).congr fun _ _ => or_iff_right id,
      hout₂.trans hgrows₁.output, fun h => by cases h⟩
    simp only [if_true]
    exact hrun
  | false =>
    have hacc : ∀ is, Shape.Mem is (g.shapeAt value) → (needs g l₁.placed value is).Served g l₁ false ∧
        (needs g l₁.placed value is).may value is ∧ ∀ js, Shape.Mem js (g.shapeAt leaf) →
          (needs g l₁.placed value is).reads leaf js →
          Shape.offset is (g.shapeAt value) ≤ Shape.offset js (g.shapeAt leaf) := by
      intro is hm
      refine ⟨needs_served g l₁ value is, .start, fun js _ hread => ?_⟩
      rw [hplaced₁] at hread
      exact Nat.le_of_eq (by rw [reached_leaf hg hn hleaf helse hm hread, hsame])
    obtain ⟨d, l₂, nodes₂, hrun₂, hs₂, hgrows₂, hok, hreads⟩ := updateBody_run hg hvalue hcounts hs₁ hb
      (fun is => needs g l₁.placed value is) hacc
    have hb₂ := getElem?_mono hgrows₂.buffers hb
    obtain ⟨hrun, hs', hadvances⟩ := pushUpdate_run hrun₂ hs₂ (hgrows₂.advances hs₁) hb₂ hsame hok
    refine ⟨b, _, _, ?_, hs', ((hgrows₁.advances hs).trans hadvances).congr fun _ _ => or_iff_right id,
      hgrows₂.output.trans hgrows₁.output, fun _ is hm hinline => ⟨⟨d.code, d.inputs, b⟩, len, ?_, hb₂, fun x hx => ?_⟩⟩
    · simp only [Bool.false_eq_true, if_false]
      exact hrun
    · have hinline₁ : (needs g l₁.placed value is).Inline g l₁ := by
        rw [hplaced₁]
        exact hinline.grows hgrows₁
      have hquiet := (hreads is hm).2 hinline₁
      rw [← hfunctions₁, ← hquiet]
      rfl
    · obtain ⟨n, js, howner, hreached⟩ := (hreads is hm).1 x hx
      exact ⟨n, js, Program.owner?_mono (List.prefix_refl _) (List.prefix_append _ _) howner, hplaced₁ ▸ hreached⟩

end

end Lowering

end TensorLoom
