import TensorLoom.Lowering.Body
import TensorLoom.Proofs.Graph.Element
import TensorLoom.Proofs.Lowering.Index
import TensorLoom.Proofs.Machine.Trace
import TensorLoom.Proofs.Program.Valid
/-
# Functions under construction

What is true of a program while it is built (`Sound`) and of the body that is being
emitted (`Draft.Ok`), and what it means that a piece of body computes an element of a
node (`Emitted`). Every buffer holds one node: a leaf's storage the leaf, scratch the
node that its function computes.
-/

namespace TensorLoom

theorem getElem?_mono {β : Type} {xs ys : List β} (h : xs <+: ys) {i : Nat} {x : β} (hx : xs[i]? = some x) :
    ys[i]? = some x := by
  obtain ⟨zs, rfl⟩ := h
  rw [List.getElem?_append_left (List.getElem?_eq_some_iff.1 hx).1, hx]

namespace Program

/-- The node whose elements a buffer holds; `nodes` lists the node that each function computes. -/
def owner? (p : Program) (nodes : List Nat) (b : Nat) : Option Nat :=
  (p.buffers[b]?).bind fun buffer =>
    match buffer.source with
    | .leaf n _ => some n
    | .scratch f => nodes[f]?

theorem owner?_leaf {p : Program} (nodes : List Nat) {b n len : Nat} {linked : Bool}
    (h : p.buffers[b]? = some ⟨.leaf n linked, len⟩) : p.owner? nodes b = some n := by
  simp [owner?, h]

theorem owner?_scratch {p : Program} (nodes : List Nat) {b f len : Nat}
    (h : p.buffers[b]? = some ⟨.scratch f, len⟩) : p.owner? nodes b = nodes[f]? := by
  simp [owner?, h]

theorem owner?_cases {p : Program} {nodes : List Nat} {b n : Nat} (h : p.owner? nodes b = some n) :
    (∃ linked len, p.buffers[b]? = some ⟨.leaf n linked, len⟩) ∨
      ∃ f len, p.buffers[b]? = some ⟨.scratch f, len⟩ ∧ nodes[f]? = some n := by
  obtain ⟨⟨source, len⟩, hb, hsource⟩ := Option.bind_eq_some_iff.1 h
  cases source with
  | leaf m linked => exact .inl ⟨linked, len, Option.some.inj hsource ▸ hb⟩
  | scratch f => exact .inr ⟨f, len, hb, hsource⟩

theorem owner?_lt {p : Program} {nodes : List Nat} {b n : Nat} (h : p.owner? nodes b = some n) : b < p.buffers.length := by
  obtain ⟨buffer, hb, -⟩ := Option.bind_eq_some_iff.1 h
  exact (List.getElem?_eq_some_iff.1 hb).1

/-- More buffers and more functions do not change what the old buffers hold. -/
theorem owner?_mono {p p' : Program} {nodes nodes' : List Nat} (hp : p.buffers <+: p'.buffers)
    (hn : nodes <+: nodes') {b n : Nat} (h : p.owner? nodes b = some n) : p'.owner? nodes' b = some n := by
  rcases owner?_cases h with ⟨linked, len, hb⟩ | ⟨f, len, hb, hf⟩
  · exact owner?_leaf nodes' (getElem?_mono hp hb)
  · rw [owner?_scratch nodes' (getElem?_mono hp hb)]
    exact getElem?_mono hn hf

theorem owner?_of_take {p : Program} {nodes : List Nat} {f b n : Nat} (h : p.owner? (nodes.take f) b = some n) :
    p.owner? nodes b = some n := owner?_mono (List.prefix_refl _) ⟨_, List.take_append_drop f nodes⟩ h

/-- A buffer that exists is the storage of a leaf afterwards only if it was one before. -/
theorem IsLeaf.of_mono {p p' : Program} (hp : p.buffers <+: p'.buffers) {nodes : List Nat} {b n : Nat}
    (hb : p.owner? nodes b = some n) (h : p'.IsLeaf b) : p.IsLeaf b := by
  rcases owner?_cases hb with ⟨linked, len, hb⟩ | ⟨f, len, hb, -⟩
  · exact ⟨n, linked, len, hb⟩
  · obtain ⟨m, linked, len', hb'⟩ := h
    rw [getElem?_mono hp hb] at hb'
    cases hb'

end Program

/-- Running a function with the node's operands in place writes the node's value, element by
element in order: over every arithmetic, every contents of the leaves and every placement
in memory in which the output shares its cell with no other input. -/
def Function.Computes (g : Graph) (own : Nat → Option Nat) (fn : Function) (id : Nat) : Prop :=
  ∀ {α : Type} (A : Arith α) (leaves : Leaves α) (cells : List Nat) (memory : Memory α) (out : Nat) (old : Array α),
    (∀ b ∈ fn.inputs, ∃ c n, cells[b]? = some c ∧ own b = some n ∧
      memory[c]? = some (g.value A.toAlgebra leaves n).toArray ∧ (c = out → b = fn.output)) →
    cells[fn.output]? = some out → memory[out]? = some old → old.size = Shape.size (g.shapeAt id) →
    ∃ stores, fn.trace A cells memory = .ok (memory.setIfInBounds out (g.value A.toAlgebra leaves id).toArray, stores) ∧
      InOrder (Shape.size (g.shapeAt id)) stores

/-- A reduction or a matrix product: a function of its own. -/
def Kind.accumulates : Kind → Bool
  | .reduce .. | .matmul .. => true
  | _ => false

namespace Lowering

/-! ## Programs under construction -/

/-- Function number `f` computes the node from leaves and from scratch that earlier
functions write, and its body passes the verifier. -/
structure FunctionOk (g : Graph) (p : Program) (nodes : List Nat) (f : Nat) (fn : Function) (id : Nat) : Prop where
  verified : ∀ k, verifyBody k fn = .ok ()
  inputs : ∀ b ∈ fn.inputs, ∃ n, p.owner? (nodes.take f) b = some n
  computes : fn.Computes g (p.owner? nodes) id

/-- The output of function number `f` is its own scratch, or the storage of a leaf of the
node's shape. -/
def Writes (g : Graph) (p : Program) (f : Nat) (fn : Function) (id : Nat) : Prop :=
  (∃ len, p.buffers[fn.output]? = some ⟨.scratch f, len⟩) ∨
    ∃ n linked len, p.buffers[fn.output]? = some ⟨.leaf n linked, len⟩ ∧ g.shapeAt n = g.shapeAt id

/-- The program under construction is right so far; `nodes` lists the node that each
function computes. -/
structure Sound (g : Graph) (l : Lowering) (nodes : List Nat) : Prop where
  count : nodes.length = l.program.functions.length
  scratch : ∀ {b f len : Nat}, l.program.buffers[b]? = some ⟨.scratch f, len⟩ →
    ∃ fn id, l.program.functions[f]? = some fn ∧ fn.output = b ∧ nodes[f]? = some id ∧ len = Shape.size (g.shapeAt id)
  leaf : ∀ {b n len : Nat} {linked : Bool}, l.program.buffers[b]? = some ⟨.leaf n linked, len⟩ →
    linked = true ∧ len = Shape.size (g.shapeAt n) ∧ ∃ node, g.node? n = some node ∧ node.kind.isLeaf = true
  unique : ∀ {b b' n len len' : Nat} {linked linked' : Bool}, l.program.buffers[b]? = some ⟨.leaf n linked, len⟩ →
    l.program.buffers[b']? = some ⟨.leaf n linked', len'⟩ → b = b'
  functions : ∀ {f : Nat} {fn : Function} {id : Nat}, l.program.functions[f]? = some fn → nodes[f]? = some id →
    FunctionOk g l.program nodes f fn id ∧ Writes g l.program f fn id
  placed : ∀ {id b : Nat}, l.placed.lookup id = some b → l.program.owner? nodes b = some id

theorem lookup_cons_self (placed : List (NodeId × BufferId)) (id b : Nat) : ((id, b) :: placed).lookup id = some b := by
  simp

theorem lookup_cons_ne (placed : List (NodeId × BufferId)) {x id : Nat} (h : x ≠ id) (b : Nat) :
    ((id, b) :: placed).lookup x = placed.lookup x := by
  rw [List.lookup_cons, beq_false_of_ne h]

theorem Sound.leaf_pos {g : Graph} (hg : g.WellFormed) {l : Lowering} {nodes : List Nat} (hs : Sound g l nodes)
    {b n len : Nat} {linked : Bool} (hb : l.program.buffers[b]? = some ⟨.leaf n linked, len⟩) : 0 < len := by
  obtain ⟨-, rfl, -⟩ := hs.leaf hb
  exact Shape.size_pos (hg.shapeAt_positive n)

theorem Sound.exists_node {g : Graph} {l : Lowering} {nodes : List Nat} (hs : Sound g l nodes) {f : Nat} {fn : Function}
    (hfn : l.program.functions[f]? = some fn) : ∃ id, nodes[f]? = some id :=
  ⟨_, List.getElem?_eq_getElem (hs.count ▸ (List.getElem?_eq_some_iff.1 hfn).1)⟩

/-- The node is in scratch. -/
def InScratch (l : Lowering) (id : Nat) : Prop :=
  ∃ b f len, l.placed.lookup id = some b ∧ l.program.buffers[b]? = some ⟨.scratch f, len⟩

/-- The program has grown: buffers and functions that write scratch were appended, and nodes
other than leaves were placed in scratch. -/
structure Grows (g : Graph) (l l' : Lowering) (nodes nodes' : List Nat) : Prop where
  buffers : l.program.buffers <+: l'.program.buffers
  functions : l.program.functions <+: l'.program.functions
  nodes : nodes <+: nodes'
  output : l'.program.output = l.program.output
  appended : ∀ {f : Nat} {fn : Function}, l'.program.functions[f]? = some fn → l.program.functions[f]? = some fn ∨
    ∃ len, l'.program.buffers[fn.output]? = some ⟨.scratch f, len⟩
  unplaced : ∀ {id : Nat}, l'.placed.lookup id = none → l.placed.lookup id = none
  scratch : ∀ {id : Nat}, InScratch l id → InScratch l' id
  leaves : ∀ {id : Nat} {n : Node}, g.node? id = some n → n.kind.isLeaf = true →
    l'.placed.lookup id = l.placed.lookup id

namespace Grows

variable {g : Graph} {l l' l'' : Lowering} {nodes nodes' nodes'' : List Nat}

/-- Only buffers and functions were appended. -/
theorem of_program {p : Program} (hb : l.program.buffers <+: p.buffers) (hf : l.program.functions <+: p.functions)
    (hn : nodes <+: nodes') (ho : p.output = l.program.output)
    (happended : ∀ {f : Nat} {fn : Function}, p.functions[f]? = some fn → l.program.functions[f]? = some fn ∨
      ∃ len, p.buffers[fn.output]? = some ⟨.scratch f, len⟩) : Grows g l { l with program := p } nodes nodes' where
  buffers := hb
  functions := hf
  nodes := hn
  output := ho
  appended := happended
  unplaced h := h
  scratch := by
    rintro id ⟨b, f, len, hplaced, hlen⟩
    exact ⟨b, f, len, hplaced, getElem?_mono hb hlen⟩
  leaves _ _ := rfl

theorem refl (g : Graph) (l : Lowering) (nodes : List Nat) : Grows g l l nodes nodes :=
  of_program (List.prefix_refl _) (List.prefix_refl _) (List.prefix_refl _) rfl .inl

theorem trans (h : Grows g l l' nodes nodes') (h' : Grows g l' l'' nodes' nodes'') : Grows g l l'' nodes nodes'' where
  buffers := h.buffers.trans h'.buffers
  functions := h.functions.trans h'.functions
  nodes := h.nodes.trans h'.nodes
  output := h'.output.trans h.output
  appended hfn := by
    rcases h'.appended hfn with hfn | hnew
    · exact (h.appended hfn).imp_right fun ⟨len, hlen⟩ => ⟨len, getElem?_mono h'.buffers hlen⟩
    · exact .inr hnew
  unplaced hb := h.unplaced (h'.unplaced hb)
  scratch hb := h'.scratch (h.scratch hb)
  leaves hn hleaf := (h'.leaves hn hleaf).trans (h.leaves hn hleaf)

theorem owner? (h : Grows g l l' nodes nodes') {b n : Nat} (hb : l.program.owner? nodes b = some n) :
    l'.program.owner? nodes' b = some n := Program.owner?_mono h.buffers h.nodes hb

/-- A node other than a leaf is placed in scratch. -/
theorem place {id : Nat} {n : Node} (hn : g.node? id = some n) (hleaf : n.kind.isLeaf = false) {b f len : Nat}
    (hb : l.program.buffers[b]? = some ⟨.scratch f, len⟩) :
    Grows g l { l with placed := (id, b) :: l.placed } nodes nodes where
  buffers := List.prefix_refl _
  functions := List.prefix_refl _
  nodes := List.prefix_refl _
  output := rfl
  appended := .inl
  unplaced {x} h := by
    by_cases hx : x = id
    · rw [hx, lookup_cons_self] at h
      cases h
    · rwa [lookup_cons_ne _ hx] at h
  scratch {x} h := by
    by_cases hx : x = id
    · exact ⟨b, f, len, hx ▸ lookup_cons_self _ _ _, hb⟩
    · obtain ⟨b', f', len', hb', hbuffer⟩ := h
      exact ⟨b', f', len', (lookup_cons_ne _ hx b).trans hb', hbuffer⟩
  leaves {x m} hm hx := by
    have hne : x ≠ id := by
      rintro rfl
      rw [Option.some.inj (hn.symm.trans hm), hx] at hleaf
      cases hleaf
    exact lookup_cons_ne _ hne b

end Grows

/-! ## What may be read -/

/-- Which elements of nodes a body may compute, and which elements it may read from the
storage of leaves. A body that writes a leaf in place may not read all of it. -/
structure Access where
  may : Nat → List Nat → Prop
  reads : Nat → List Nat → Prop

/-- No restriction. -/
def Access.all : Access := ⟨fun _ _ => True, fun _ _ => True⟩

/-- Whatever may be computed can be: the elements that are inlined may be computed too, and
a leaf that is not in scratch may be read. -/
structure Access.Closed (acc : Access) (g : Graph) (l : Lowering) : Prop where
  inline : ∀ {id x : Nat} {is js : List Nat}, acc.may id is → Shape.Mem is (g.shapeAt id) →
    l.placed.lookup id = none → g.Inlines id is x js → acc.may x js
  leaf : ∀ {id : Nat} {is : List Nat} {n : Node}, acc.may id is → g.node? id = some n → n.kind.isLeaf = true →
    ¬ InScratch l id → acc.reads id is

theorem Access.closed_all (g : Graph) (l : Lowering) : Access.all.Closed g l :=
  ⟨fun _ _ _ _ => trivial, fun _ _ _ _ => trivial⟩

/-- Whatever may be computed is in a buffer or computed inline. -/
def Access.Inline (acc : Access) (g : Graph) (l : Lowering) : Prop :=
  ∀ {id : Nat} {is : List Nat} {n : Node}, acc.may id is → g.node? id = some n → l.placed.lookup id = none →
    n.kind.accumulates = false

theorem Access.Inline.grows {acc : Access} {g : Graph} {l l' : Lowering} {nodes nodes' : List Nat} (hi : acc.Inline g l)
    (h : Grows g l l' nodes nodes') : acc.Inline g l' := fun hmay hn hnone => hi hmay hn (h.unplaced hnone)

theorem Access.Closed.grows {acc : Access} {g : Graph} {l l' : Lowering} {nodes nodes' : List Nat}
    (hc : acc.Closed g l) (h : Grows g l l' nodes nodes') : acc.Closed g l' where
  inline hmay hm hnone hin := hc.inline hmay hm (h.unplaced hnone) hin
  leaf hmay hn hleaf hs := hc.leaf hmay hn hleaf fun hs' => hs (h.scratch hs')

/-! ## Bodies under construction -/

/-- The body can be continued at the site: its inputs hold nodes, and what it remembers is
in scope. -/
structure Draft.Ok (l : Lowering) (nodes : List Nat) (site : Site) (d : Draft) : Prop where
  base : site.base ≤ d.code.length
  inputs : ∀ b ∈ d.inputs, ∃ n, l.program.owner? nodes b = some n
  known : ∀ {id v : Nat} {idx : List Coord}, ((id, idx), v) ∈ d.known →
    site.Live d.code v .float ∧ ∀ c ∈ idx, c.Live site d.code

section
variable {α : Type} (A : Arith α) (leaves : Leaves α) (g : Graph)

/-- The registers of remembered values hold the elements they stand for. -/
def Knows (s : Frame α) (known : List ((NodeId × List Coord) × ValueId)) : Prop :=
  ∀ {id v : Nat} {idx : List Coord} {is : List Nat}, ((id, idx), v) ∈ known → IndexIs s idx is →
    Shape.Mem is (g.shapeAt id) → s.floats[v]? = some (g.element A.toAlgebra leaves id is)

/-- The frame can run the body: it has registers, and the inputs hold their nodes, leaves at
least where they may be read. -/
structure Ready (p : Program) (nodes : List Nat) (acc : Access) (w : Wiring) (d : Draft) (s : Frame α) : Prop where
  ints : d.code.length ≤ s.ints.size
  floats : d.code.length ≤ s.floats.size
  feeds : ∀ {i b n : Nat}, d.inputs[i]? = some b → p.owner? nodes b = some n → ∃ c contents,
    w.inputs[i]? = some c ∧ s.memory[c]? = some contents ∧ ∀ js, Shape.Mem js (g.shapeAt n) →
      (p.IsLeaf b → acc.reads n js) →
      contents[Shape.offset js (g.shapeAt n)]? = some (g.element A.toAlgebra leaves n js)

end

/-- The program and the body have grown. -/
structure Progress (g : Graph) (site : Site) (d : Draft) (l : Lowering) (nodes : List Nat) (d' : Draft)
    (l' : Lowering) (nodes' : List Nat) : Prop where
  sound : Sound g l' nodes'
  grows : Grows g l l' nodes nodes'
  ok : d'.Ok l' nodes' site
  code : site.Grows d'.inputs.length d.code d'.code
  inputs : d.inputs <+: d'.inputs

/-- The access that an emission serves; at the top of a function it has to be unrestricted. -/
def Access.Served (acc : Access) (g : Graph) (l : Lowering) (top : Bool) : Prop :=
  acc.Closed g l ∧ (top = true → acc = .all)

/-- The body was extended by code that computes element `idx` of node `id` into `v`. -/
structure Emitted (g : Graph) (site : Site) (top : Bool) (id : Nat) (idx : List Coord) (d : Draft) (l : Lowering)
    (nodes : List Nat) (v : Nat) (d' : Draft) (l' : Lowering) (nodes' : List Nat) : Prop
    extends Progress g site d l nodes d' l' nodes' where
  live : site.Live d'.code v .float
  reads : ∀ acc : Access, acc.Served g l top → (∃ is, Shape.Mem is (g.shapeAt id) ∧ acc.may id is) →
    ∀ b ∈ d'.inputs, b ∈ d.inputs ∨ ∃ n js, l'.program.owner? nodes' b = some n ∧ acc.may n js
  quiet : ∀ acc : Access, acc.Served g l top → top = false → acc.Inline g l →
    (∃ is, Shape.Mem is (g.shapeAt id) ∧ acc.may id is) → l'.program.functions = l.program.functions
  runs : ∀ {α : Type} (A : Arith α) (leaves : Leaves α) (w : Wiring) (acc : Access) (s : Frame α) (is : List Nat),
    acc.Served g l top → Ready A leaves g l'.program nodes' acc w d' s → Knows A leaves g s d.known →
    IndexIs s idx is → Shape.Mem is (g.shapeAt id) → acc.may id is →
    ∃ s', Ran A w d.code d'.code s s' ∧ Knows A leaves g s' d'.known ∧
      s'.floats[v]? = some (g.element A.toAlgebra leaves id is)

section
variable {g : Graph} {site : Site} {d d₁ d₂ : Draft} {l l₁ l₂ : Lowering} {nodes nodes₁ nodes₂ : List Nat}

namespace Progress

theorem refl (hs : Sound g l nodes) (hd : d.Ok l nodes site) : Progress g site d l nodes d l nodes :=
  ⟨hs, .refl g l nodes, hd, .refl _ _ _, List.prefix_refl _⟩

theorem trans (h : Progress g site d l nodes d₁ l₁ nodes₁) (h' : Progress g site d₁ l₁ nodes₁ d₂ l₂ nodes₂) :
    Progress g site d l nodes d₂ l₂ nodes₂ where
  sound := h'.sound
  grows := h.grows.trans h'.grows
  ok := h'.ok
  code := (h.code.mono h'.inputs.length_le).trans h'.code
  inputs := h.inputs.trans h'.inputs

/-- The program grows while the body stays as it is. -/
theorem of_grows (hd : d.Ok l nodes site) (hs : Sound g l₁ nodes₁) (h : Grows g l l₁ nodes nodes₁) :
    Progress g site d l nodes d l₁ nodes₁ where
  sound := hs
  grows := h
  ok := ⟨hd.base, fun b hb => (hd.inputs b hb).imp fun _ => h.owner?, hd.known⟩
  code := .refl _ _ _
  inputs := List.prefix_refl _

/-- The body grows by straight code. -/
theorem of_code (hs : Sound g l nodes) (hd : d.Ok l nodes site) {code : List Instr}
    (h : site.Grows d.inputs.length d.code code) :
    Progress g site d l nodes { d with code := code } l nodes where
  sound := hs
  grows := .refl g l nodes
  ok := ⟨Nat.le_trans hd.base h.length_le, hd.inputs, fun he =>
    ⟨h.live (hd.known he).1, fun c hc => ((hd.known he).2 c hc).grows h⟩⟩
  code := h
  inputs := List.prefix_refl _

end Progress

variable {α : Type} {A : Arith α} {leaves : Leaves α} {s s' : Frame α}

theorem Knows.keeps (hd : d.Ok l nodes site) (hk : s.Keeps d.code.length s') (h : Knows A leaves g s d.known) :
    Knows A leaves g s' d.known := by
  intro id v idx is he hidx hm
  obtain ⟨hv, hlive⟩ := hd.known he
  rw [hk.floats v hv.lt]
  exact h he ((IndexIs.keeps hk hlive).1 hidx) hm

variable {acc : Access} {w : Wiring}

/-- A frame that can run the body can run what was there of it before. -/
theorem Ready.before (h : Ready A leaves g l₁.program nodes₁ acc w d₁ s) (hp : Progress g site d l nodes d₁ l₁ nodes₁) :
    Ready A leaves g l.program nodes acc w d s where
  ints := Nat.le_trans hp.code.length_le h.ints
  floats := Nat.le_trans hp.code.length_le h.floats
  feeds hi hb := by
    obtain ⟨c, contents, hc, hmem, hfeed⟩ := h.feeds (getElem?_mono hp.inputs hi) (hp.grows.owner? hb)
    exact ⟨c, contents, hc, hmem, fun js hm hreads =>
      hfeed js hm fun hleaf => hreads (hleaf.of_mono hp.grows.buffers hb)⟩

theorem Ready.keeps {p : Program} {n : Nat} (h : Ready A leaves g p nodes acc w d s) (hk : s.Keeps n s') :
    Ready A leaves g p nodes acc w d s' where
  ints := hk.intCount ▸ h.ints
  floats := hk.floatCount ▸ h.floats
  feeds hi hb := by
    rw [hk.memory]
    exact h.feeds hi hb

theorem Access.Served.stays {top : Bool} (h : acc.Served g l top) (hg : Grows g l l₁ nodes nodes₁) :
    acc.Served g l₁ top := ⟨h.1.grows hg, h.2⟩

theorem Access.Served.grows {top : Bool} (h : acc.Served g l top) (hg : Grows g l l₁ nodes nodes₁) :
    acc.Served g l₁ false := ⟨h.1.grows hg, by simp⟩

/-- What is inlined into an element that may be computed may be computed. -/
theorem Access.Served.inline {top : Bool} (h : acc.Served g l top) {id x : Nat} {is js : List Nat}
    (hfresh : top = true ∨ l.placed.lookup id = none) (hmay : acc.may id is) (hm : Shape.Mem is (g.shapeAt id))
    (hin : g.Inlines id is x js) : acc.may x js := by
  rcases hfresh with htop | hnone
  · rw [h.2 htop]
    trivial
  · exact h.1.inline hmay hm hnone hin

end

end Lowering

end TensorLoom
