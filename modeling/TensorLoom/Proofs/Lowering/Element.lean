import TensorLoom.Proofs.Lowering.Folds
/-
# Elements and functions of nodes

The element of every node is emitted right (`elementBelow_emits`), by induction on the
node number: operands come first, and a reduction or matrix product that is met on the
way becomes a function of its own. So the function of every node is right too
(`nodeFunction_run`).
-/

namespace TensorLoom

/-! ## Running a function -/

/-- The cells of the inputs. -/
theorem mapM_cellOf {cells inputs : List Nat} (h : ∀ b ∈ inputs, ∃ c, cells[b]? = some c) :
    ∃ cs, inputs.mapM (cellOf cells) = .ok cs ∧
      ∀ {i b c : Nat}, inputs[i]? = some b → cells[b]? = some c → cs[i]? = some c := by
  have hcell : ∀ b ∈ inputs, ∃ c, cellOf cells b = .ok c := by
    intro b hb
    obtain ⟨c, hc⟩ := h b hb
    exact ⟨c, by rw [cellOf, hc]⟩
  obtain ⟨cs, hcs⟩ := exists_mapM_eq_ok hcell
  refine ⟨cs, hcs, fun {i b c} hi hc => ?_⟩
  obtain ⟨c', hc', hof⟩ := getElem?_of_mapM hcs hi
  rw [cellOf, hc] at hof
  rw [hc', Except.ok.inj hof]

namespace Lowering

open BodyM

/-- A function computes the node that its body fills in. Where the output is also an input,
the body has to allow for it. -/
theorem computes_of_fills {g : Graph} {p : Program} {nodes : List Nat} {own : Nat → Option Nat} {code : List Instr}
    {inputs : List Nat} {out id : Nat} {shared : Nat → Prop}
    (hown : ∀ b ∈ inputs, ∃ n, p.owner? nodes b = some n ∧ own b = some n)
    (hshared : out ∈ inputs → ∀ n, p.owner? nodes out = some n → p.IsLeaf out ∧ shared n)
    (hfills : ∀ {α : Type} (A : Arith α) (leaves : Leaves α) (w : Wiring) (memory : Memory α) (old : Array α),
      Fed A leaves g p nodes shared w memory inputs → memory[w.output]? = some old →
      old.size = Shape.size (g.shapeAt id) → Fills A leaves g id w memory code) :
    Function.Computes g own ⟨code, inputs, out⟩ id := by
  intro α A leaves cells memory cell old hinputs hcell hold hsize
  obtain ⟨cs, hcs, hget⟩ := mapM_cellOf fun b hb => (hinputs b hb).imp fun c h => h.choose_spec.1
  have hfed : Fed A leaves g p nodes shared ⟨cs, cell⟩ memory inputs := by
    intro i b n hi hb
    have hmem := List.mem_of_getElem? hi
    obtain ⟨c, m, hc, hm, hvalue, halias⟩ := hinputs b hmem
    obtain ⟨n', hn', hown'⟩ := hown b hmem
    obtain rfl : n' = n := Option.some.inj (hn'.symm.trans hb)
    obtain rfl : m = n' := Option.some.inj (hm.symm.trans hown')
    refine ⟨c, hget hi hc, hvalue, fun heq => ?_⟩
    obtain rfl : b = out := halias heq
    exact hshared hmem m hb
  obtain ⟨t, hrun, hmemory, horder⟩ := hfills A leaves ⟨cs, cell⟩ memory old hfed hold hsize (A.lit 0.0)
  have hout : cellOf cells out = .ok cell := by rw [cellOf, hcell]
  refine ⟨t.stores, ?_, horder⟩
  unfold Function.trace
  rw [hcs, hout]
  simp only [bind, Except.bind, hrun, pure, Except.pure, hmemory]

/-! ## Appending buffers and functions -/

section
variable {g : Graph} {l : Lowering} {nodes : List Nat}

theorem FunctionOk.mono {p p' : Program} {nodes' : List Nat} (hp : p.buffers <+: p'.buffers) (hn : nodes <+: nodes')
    {f id : Nat} (hf : f ≤ nodes.length) {fn : Function} (h : FunctionOk g p nodes f fn id) :
    FunctionOk g p' nodes' f fn id where
  verified := h.verified
  inputs b hb := by
    obtain ⟨n, hn'⟩ := h.inputs b hb
    have htake : nodes'.take f = nodes.take f := by
      obtain ⟨more, rfl⟩ := hn
      exact List.take_append_of_le_length hf
    rw [htake]
    exact ⟨n, Program.owner?_mono hp (List.prefix_refl _) hn'⟩
  computes := by
    intro α A leaves cells memory out old hinputs
    refine h.computes A leaves cells memory out old fun b hb => ?_
    obtain ⟨c, m, hc, hm, hrest⟩ := hinputs b hb
    obtain ⟨n, hn'⟩ := h.inputs b hb
    have hown := Program.owner?_of_take hn'
    obtain rfl : m = n := Option.some.inj (hm.symm.trans (Program.owner?_mono hp hn hown))
    exact ⟨c, m, hc, hown, hrest⟩

theorem Writes.mono {p p' : Program} (hp : p.buffers <+: p'.buffers) {f id : Nat} {fn : Function}
    (h : Writes g p f fn id) : Writes g p' f fn id := by
  rcases h with ⟨len, h⟩ | ⟨n, linked, len, h, hshape⟩
  · exact .inl ⟨len, getElem?_mono hp h⟩
  · exact .inr ⟨n, linked, len, getElem?_mono hp h, hshape⟩

/-- A new buffer at the end of the table. -/
theorem getElem?_append_one {β : Type} {xs : List β} {x y : β} {i : Nat} (h : (xs ++ [x])[i]? = some y) :
    xs[i]? = some y ∨ (i = xs.length ∧ y = x) := by
  by_cases hi : i < xs.length
  · rw [List.getElem?_append_left hi] at h
    exact .inl h
  · have hlt := (List.getElem?_eq_some_iff.1 h).1
    rw [List.length_append, List.length_singleton] at hlt
    obtain rfl : i = xs.length := by omega
    rw [List.getElem?_append_right (Nat.le_refl _), Nat.sub_self] at h
    exact .inr ⟨rfl, by simpa using h.symm⟩

theorem same_leaf {source : Source} {id : Nat} :
    source.same (.leaf id true) = true ↔ ∃ linked, source = .leaf id linked := by
  cases source with
  | leaf n linked =>
    refine ⟨fun h => ⟨linked, by rw [beq_iff_eq.1 h]⟩, ?_⟩
    rintro ⟨_, h⟩
    cases h
    exact beq_self_eq_true _
  | scratch f => simp [Source.same]

/-- A leaf that has no buffer yet gets one. -/
theorem Sound.addLeaf (hs : Sound g l nodes) {id : Nat} {node : Node} (hn : g.node? id = some node)
    (hleaf : node.kind.isLeaf = true)
    (hnew : ∀ {b n len : Nat} {linked : Bool}, l.program.buffers[b]? = some ⟨.leaf n linked, len⟩ → n ≠ id) :
    Sound g { l with program := { l.program with
      buffers := l.program.buffers ++ [⟨.leaf id true, Shape.size node.shape⟩] } } nodes := by
  have hpre : l.program.buffers <+: l.program.buffers ++ [⟨.leaf id true, Shape.size node.shape⟩] :=
    List.prefix_append _ _
  refine ⟨hs.count, fun h => ?_, fun h => ?_, fun h h' => ?_, fun hf hid => ?_, fun h => ?_⟩
  · rcases getElem?_append_one h with h | ⟨-, h⟩
    · exact hs.scratch h
    · cases h
  · rcases getElem?_append_one h with h | ⟨-, h⟩
    · exact hs.leaf h
    · cases h
      exact ⟨rfl, by rw [Graph.shapeAt_of_node? hn], node, hn, hleaf⟩
  · rcases getElem?_append_one h with h₁ | ⟨rfl, h₁⟩ <;> rcases getElem?_append_one h' with h₂ | ⟨rfl, h₂⟩
    · exact hs.unique h₁ h₂
    · cases h₂
      exact absurd rfl (hnew h₁)
    · cases h₁
      exact absurd rfl (hnew h₂)
    · rfl
  · obtain ⟨hok, hwrites⟩ := hs.functions hf hid
    exact ⟨hok.mono hpre (List.prefix_refl _) (Nat.le_of_lt (List.getElem?_eq_some_iff.1 hid).1), hwrites.mono hpre⟩
  · exact Program.owner?_mono hpre (List.prefix_refl _) (hs.placed h)

/-- The buffer of a leaf is found or appended. -/
theorem leafBuffer_run (hg : g.WellFormed) (hs : Sound g l nodes) {id : Nat} {node : Node} (hn : g.node? id = some node)
    (hleaf : node.kind.isLeaf = true) (hsize : Shape.size node.shape < Word.limit) :
    ∃ b l' len, (leafBuffer id node).run l = .ok (b, l') ∧ Sound g l' nodes ∧ Grows g l l' nodes nodes ∧
      l'.program.functions = l.program.functions ∧ l'.placed = l.placed ∧
      l'.program.buffers[b]? = some ⟨.leaf id true, len⟩ := by
  have hcount := Shape.elementCount_eq_ok (hg.positive hn) hsize
  have hrun : (leafBuffer id node).run l = .ok ((l.program.addLeaf id true (Shape.size node.shape)).1,
      { l with program := (l.program.addLeaf id true (Shape.size node.shape)).2 }) := by
    unfold leafBuffer
    rw [hcount]
    rfl
  rw [hrun, Program.addLeaf, Program.addBuffer]
  cases hfind : l.program.buffers.findIdx? (·.source.same (.leaf id true)) with
  | some b =>
    obtain ⟨hb, hsame, -⟩ := List.findIdx?_eq_some_iff_getElem.1 hfind
    obtain ⟨linked, hsource⟩ := same_leaf.1 hsame
    have hget : l.program.buffers[b]? = some ⟨.leaf id linked, l.program.buffers[b].len⟩ := by
      rw [List.getElem?_eq_getElem hb, ← hsource]
    obtain ⟨rfl, -⟩ := hs.leaf hget
    exact ⟨b, l, _, rfl, hs, .refl g l nodes, rfl, rfl, hget⟩
  | none =>
    have hnew : ∀ {b n len : Nat} {linked : Bool}, l.program.buffers[b]? = some ⟨.leaf n linked, len⟩ → n ≠ id := by
      rintro b n len linked hb rfl
      have := List.findIdx?_eq_none_iff.1 hfind _ (List.mem_of_getElem? hb)
      simp [same_leaf.2 ⟨linked, rfl⟩] at this
    refine ⟨_, _, Shape.size node.shape, rfl, hs.addLeaf hn hleaf hnew, ?_, rfl, rfl, by simp⟩
    exact .of_program (List.prefix_append _ _) (List.prefix_refl _) (List.prefix_refl _) rfl .inl

/-- A function that computes the node into new scratch. -/
theorem Sound.push (hs : Sound g l nodes) {id : Nat} {p : Program} {fn : Function}
    (hbuffers : p.buffers = l.program.buffers ++ [⟨.scratch nodes.length, Shape.size (g.shapeAt id)⟩])
    (hfunctions : p.functions = l.program.functions ++ [fn]) (hout : fn.output = l.program.buffers.length)
    (hok : FunctionOk g p (nodes ++ [id]) nodes.length fn id) : Sound g { l with program := p } (nodes ++ [id]) := by
  have hb : l.program.buffers <+: p.buffers := hbuffers ▸ List.prefix_append _ _
  have hf : l.program.functions <+: p.functions := hfunctions ▸ List.prefix_append _ _
  have hn : nodes <+: nodes ++ [id] := List.prefix_append _ _
  have hnew : ∀ {b : Nat} {buffer : Buffer}, p.buffers[b]? = some buffer → l.program.buffers[b]? = some buffer ∨
      (b = l.program.buffers.length ∧ buffer = ⟨.scratch nodes.length, Shape.size (g.shapeAt id)⟩) := by
    intro b buffer h
    rw [hbuffers] at h
    exact getElem?_append_one h
  refine ⟨?_, fun h => ?_, fun h => ?_, fun h h' => ?_, fun {f fn' id'} hfn hid => ?_, fun h => ?_⟩
  · simp [hfunctions, hs.count]
  · rcases hnew h with h | ⟨rfl, heq⟩
    · obtain ⟨fn', id', hfn, hout', hid', hlen⟩ := hs.scratch h
      exact ⟨fn', id', getElem?_mono hf hfn, hout', getElem?_mono hn hid', hlen⟩
    · injection heq with hsource hlen
      injection hsource with hf'
      rw [hf', hfunctions]
      exact ⟨fn, id, by simp [hs.count], hout, by simp, hlen⟩
  · rcases hnew h with h | ⟨-, h⟩
    · exact hs.leaf h
    · cases h
  · rcases hnew h with h₁ | ⟨-, h₁⟩
    · rcases hnew h' with h₂ | ⟨-, h₂⟩
      · exact hs.unique h₁ h₂
      · cases h₂
    · cases h₁
  · rw [hfunctions] at hfn
    rcases getElem?_append_one hfn with hfn | ⟨rfl, rfl⟩
    · have hlt : f < nodes.length := hs.count ▸ (List.getElem?_eq_some_iff.1 hfn).1
      rw [List.getElem?_append_left hlt] at hid
      obtain ⟨hok', hwrites⟩ := hs.functions hfn hid
      exact ⟨hok'.mono hb hn (Nat.le_of_lt hlt), hwrites.mono hb⟩
    · rw [← hs.count] at hid ⊢
      obtain rfl : id = id' := by simpa using hid
      exact ⟨hok, .inl ⟨Shape.size (g.shapeAt id), by simp [hbuffers, hout]⟩⟩
  · exact Program.owner?_mono hb hn (hs.placed h)

/-- A node is placed in a buffer that holds it. -/
theorem Sound.place (hs : Sound g l nodes) {id b : Nat} (hb : l.program.owner? nodes b = some id) :
    Sound g { l with placed := (id, b) :: l.placed } nodes where
  count := hs.count
  scratch := hs.scratch
  leaf := hs.leaf
  unique := hs.unique
  functions := hs.functions
  placed {x b'} h := by
    by_cases hx : x = id
    · rw [hx, lookup_cons_self] at h
      rwa [hx, ← Option.some.inj h]
    · rw [lookup_cons_ne _ hx] at h
      exact hs.placed h

/-! ## Functions of nodes -/

/-- The function with the body is appended, and its scratch with it. -/
theorem function_run (hg : g.WellFormed) {l₁ : Lowering} {nodes₁ : List Nat} {id : Nat}
    (hsize : Shape.size (g.shapeAt id) < Word.limit) {body : BodyM Unit} {d : Draft}
    (hrun : body.runOn {} l = .ok (((), d), l₁)) (h : BodyOk g id l nodes d l₁ nodes₁) :
    ∃ b l' len, (function (g.shapeAt id) body).run l = .ok (b, l') ∧ Sound g l' (nodes₁ ++ [id]) ∧
      Grows g l l' nodes (nodes₁ ++ [id]) ∧ l'.placed = l₁.placed ∧
      l'.program.buffers[b]? = some ⟨.scratch nodes₁.length, len⟩ := by
  have hcount := Shape.elementCount_eq_ok (hg.shapeAt_positive id) hsize
  have hs := h.sound
  have hnone : l₁.program.buffers.findIdx? (·.source.same (.scratch l₁.program.functions.length)) = none := by
    refine List.findIdx?_eq_none_iff.2 fun buffer hbuffer => ?_
    obtain ⟨b, hb⟩ := List.mem_iff_getElem?.1 hbuffer
    obtain ⟨source, len⟩ := buffer
    cases source with
    | leaf => rfl
    | scratch f =>
      obtain ⟨fn, _, hfn, -⟩ := hs.scratch hb
      have hlt := (List.getElem?_eq_some_iff.1 hfn).1
      simp only [Source.same, beq_eq_false_iff_ne, ne_eq]
      omega
  obtain ⟨p, hpush, hbuffers, hfunctions, houtput⟩ : ∃ p,
      l₁.program.push d.code d.inputs (Shape.size (g.shapeAt id)) = (l₁.program.buffers.length, p) ∧
      p.buffers = l₁.program.buffers ++ [⟨.scratch nodes₁.length, Shape.size (g.shapeAt id)⟩] ∧
      p.functions = l₁.program.functions ++ [⟨d.code, d.inputs, l₁.program.buffers.length⟩] ∧
      p.output = l₁.program.output := by
    rw [Program.push, Program.addBuffer, hnone, hs.count]
    exact ⟨_, rfl, rfl, rfl, rfl⟩
  have hb : l₁.program.buffers <+: p.buffers := hbuffers ▸ List.prefix_append _ _
  have hgrows : Grows g l₁ { l₁ with program := p } nodes₁ (nodes₁ ++ [id]) :=
    .of_program hb (hfunctions ▸ List.prefix_append _ _) (List.prefix_append _ _) houtput fun hfn => by
      rw [hfunctions] at hfn
      rcases getElem?_append_one hfn with hfn | ⟨rfl, rfl⟩
      · exact .inl hfn
      · exact .inr ⟨Shape.size (g.shapeAt id), by simp [hbuffers, hs.count]⟩
  refine ⟨l₁.program.buffers.length, { l₁ with program := p }, Shape.size (g.shapeAt id), ?_,
    hs.push hbuffers hfunctions rfl ⟨fun k => h.verified k _, fun b hb' => ?_, ?_⟩, h.grows.trans hgrows, rfl, ?_⟩
  · have hbody : (body.run {}).run l = .ok (((), d), l₁) := hrun
    unfold function
    rw [LowerM.run_bind_ok (LowerM.run_words hcount l), LowerM.run_bind_ok hbody]
    show Except.ok _ = _
    simp only [hpush]
  · obtain ⟨n, hn⟩ := h.inputs b hb'
    rw [List.take_left]
    exact ⟨n, Program.owner?_mono hb (List.prefix_refl _) hn⟩
  · refine computes_of_fills (fun b hb' => ?_) (fun hmem => ?_) h.runs
    · obtain ⟨n, hn⟩ := h.inputs b hb'
      exact ⟨n, hn, hgrows.owner? hn⟩
    · obtain ⟨n, hn⟩ := h.inputs _ hmem
      have hlt := Program.owner?_lt hn
      omega
  · simp [hbuffers]

/-! ## Elements of nodes -/

variable {site : Site} {top : Bool} {d : Draft} {idx : List Coord} {id : Nat} {node : Node}

theorem fetch_eq_ok (hn : g.node? id = some node) : g.fetch id = .ok node := by
  rw [Graph.fetch, hn]

/-- The program grows before the element is emitted. -/
theorem Emitted.after (hd : d.Ok l nodes site) {l₁ l₂ : Lowering} {nodes₁ nodes₂ : List Nat} (hs : Sound g l₁ nodes₁)
    (hgrows : Grows g l l₁ nodes nodes₁) {v : Nat} {d₂ : Draft} (e : Emitted g site top id idx d l₁ nodes₁ v d₂ l₂ nodes₂)
    (hquiet : ∀ acc : Access, top = false → acc.Inline g l → (∃ is, acc.may id is) →
      l₁.program.functions = l.program.functions) : Emitted g site top id idx d l nodes v d₂ l₂ nodes₂ :=
  .via hd (.of_grows hd hs hgrows) rfl e rfl (fun _ hserved => hserved.stays hgrows)
    (fun acc htop hinline hmay => ⟨htop, hquiet acc htop hinline hmay⟩) fun _ _ is hm hmay =>
      ⟨is, hm, hmay, fun _ _ => rfl, fun A w s _ hat => ⟨s, .refl A w d.code s, hat⟩⟩

/-- A leaf that is in no scratch is loaded from its own storage. -/
theorem load_leaf (hg : g.WellFormed) (hs : Sound g l nodes) (hd : d.Ok l nodes site) (hidx : ∀ c ∈ idx, c.Live site d.code)
    (hsize : Shape.size (g.shapeAt id) < 9223372036854775808) (hn : g.node? id = some node) (hleaf : node.kind.isLeaf = true)
    {b len : Nat} {linked : Bool} (hb : l.program.buffers[b]? = some ⟨.leaf id linked, len⟩)
    (hfresh : top = true ∨ ¬ InScratch l id) :
    ∃ v d', (load b (g.shapeAt id) idx).runOn d l = .ok ((v, d'), l) ∧ Emitted g site top id idx d l nodes v d' l nodes := by
  refine load_emitted hg hs hd hidx (Program.owner?_leaf nodes hb) hsize fun acc hserved is hmay _ => ?_
  rcases hfresh with htop | hscratch
  · rw [hserved.2 htop]
    trivial
  · exact hserved.1.leaf hmay hn hleaf hscratch

/-- A node in scratch is loaded from there. -/
theorem load_scratch (hg : g.WellFormed) (hs : Sound g l nodes) (hd : d.Ok l nodes site)
    (hidx : ∀ c ∈ idx, c.Live site d.code) (hsize : Shape.size (g.shapeAt id) < 9223372036854775808) {b f len : Nat}
    (hb : l.program.buffers[b]? = some ⟨.scratch f, len⟩) (howner : l.program.owner? nodes b = some id) :
    ∃ v d', (load b (g.shapeAt id) idx).runOn d l = .ok ((v, d'), l) ∧ Emitted g site top id idx d l nodes v d' l nodes := by
  refine load_emitted hg hs hd hidx howner hsize fun _ _ _ _ hleaf => ?_
  obtain ⟨n, linked, len', hb'⟩ := hleaf
  cases hb.symm.trans hb'

/-- A node is loaded from the buffer it is placed in. -/
theorem load_placed (hg : g.WellFormed) (hs : Sound g l nodes) (hd : d.Ok l nodes site)
    (hidx : ∀ c ∈ idx, c.Live site d.code) (hsize : Shape.size (g.shapeAt id) < 9223372036854775808)
    {b : Nat} (hplaced : l.placed.lookup id = some b) :
    ∃ v d', (load b (g.shapeAt id) idx).runOn d l = .ok ((v, d'), l) ∧
      Emitted g site false id idx d l nodes v d' l nodes := by
  have howner := hs.placed hplaced
  rcases Program.owner?_cases howner with ⟨linked, len, hb⟩ | ⟨f, len, hb, -⟩
  · obtain ⟨-, -, node', hn', hleaf⟩ := hs.leaf hb
    refine load_leaf hg hs hd hidx hsize hn' hleaf hb (.inr ?_)
    rintro ⟨b', f, len', hb', hbuffer⟩
    obtain rfl : b = b' := Option.some.inj (hplaced.symm.trans hb')
    cases hb.symm.trans hbuffer
  · exact load_scratch hg hs hd hidx hsize hb howner

/-- The element of a node that is a function of its own. -/
theorem emit_function (hg : g.WellFormed) (hd : d.Ok l nodes site) (hidx : ∀ c ∈ idx, c.Live site d.code)
    (hsize : Shape.size (g.shapeAt id) < 9223372036854775808) (hn : g.node? id = some node) (hleaf : node.kind.isLeaf = false)
    (hacc : node.kind.accumulates = true) (hfresh : top = true ∨ l.placed.lookup id = none)
    {body : BodyM Unit} (hbody : ∃ d' l' nodes', body.runOn {} l = .ok (((), d'), l') ∧ BodyOk g id l nodes d' l' nodes') :
    ∃ v d' l' nodes', (do
        let buffer ← function (g.shapeAt id) body
        place id buffer
        load buffer (g.shapeAt id) idx : BodyM ValueId).runOn d l = .ok ((v, d'), l') ∧
      Emitted g site top id idx d l nodes v d' l' nodes' := by
  obtain ⟨d₁, l₁, nodes₁, hrun, hok⟩ := hbody
  obtain ⟨b, l₂, len, hfunction, hs₂, hgrows₂, hplaced, hb⟩ := function_run hg (Nat.lt_trans hsize (by decide)) hrun hok
  have howner : l₂.program.owner? (nodes₁ ++ [id]) b = some id := by simp [Program.owner?_scratch _ hb]
  have hgrows : Grows g l { l₂ with placed := (id, b) :: l₂.placed } nodes (nodes₁ ++ [id]) :=
    hgrows₂.trans (.place hn hleaf hb)
  have hs : Sound g { l₂ with placed := (id, b) :: l₂.placed } (nodes₁ ++ [id]) := hs₂.place howner
  have hd' := (Progress.of_grows hd hs hgrows).ok
  obtain ⟨v, d', hload, e⟩ : ∃ v d', (load b (g.shapeAt id) idx).runOn d _ = .ok ((v, d'), _) ∧
    Emitted g site top id idx d _ _ v d' _ _ := load_scratch hg hs hd' hidx hsize hb howner
  have hquiet : ∀ acc : Access, top = false → acc.Inline g l → (∃ is, acc.may id is) →
      l₂.program.functions = l.program.functions := by
    rintro acc rfl hinline ⟨is, hmay⟩
    rw [hinline hmay hn (hfresh.resolve_left Bool.false_ne_true)] at hacc
    cases hacc
  refine ⟨v, d', _, _, ?_, e.after hd hs hgrows hquiet⟩
  have hplace : (place id b).run l₂ = .ok ((), { l₂ with placed := (id, b) :: l₂.placed }) := rfl
  rw [runOn_bind_ok (runOn_lower hfunction d), runOn_bind_ok (runOn_lower hplace d)]
  exact hload

/-- The element of a leaf. -/
theorem emit_leaf (hg : g.WellFormed) (hs : Sound g l nodes) (hd : d.Ok l nodes site) (hidx : ∀ c ∈ idx, c.Live site d.code)
    (hsize : Shape.size (g.shapeAt id) < 9223372036854775808) (hn : g.node? id = some node) (hleaf : node.kind.isLeaf = true)
    (hfresh : top = true ∨ l.placed.lookup id = none) :
    ∃ v d' l' nodes', (do
        let buffer ← leafBuffer id node
        load buffer node.shape idx : BodyM ValueId).runOn d l = .ok ((v, d'), l') ∧
      Emitted g site top id idx d l nodes v d' l' nodes' := by
  have hshape : g.shapeAt id = node.shape := Graph.shapeAt_of_node? hn
  obtain ⟨b, l₁, len, hrun, hs₁, hgrows, hfunctions, hplaced, hb⟩ :=
    leafBuffer_run hg hs hn hleaf (Nat.lt_trans (hshape ▸ hsize) (by decide))
  have hfresh₁ : top = true ∨ ¬ InScratch l₁ id := by
    refine hfresh.imp_right fun hnone => ?_
    rintro ⟨b', f, len', hb', -⟩
    rw [hplaced, hnone] at hb'
    cases hb'
  have hd₁ := (Progress.of_grows hd hs₁ hgrows).ok
  obtain ⟨v, d', hload, e⟩ := load_leaf hg hs₁ hd₁ hidx hsize hn hleaf hb hfresh₁
  refine ⟨v, d', l₁, nodes, ?_, e.after hd hs₁ hgrows fun _ _ _ _ => hfunctions⟩
  rw [runOn_bind_ok (runOn_lower hrun d), ← hshape, hload]

/-- The element of a reshaped node: the index is split anew. -/
theorem emit_reshape (hg : g.WellFormed) (hs : Sound g l nodes) (hd : d.Ok l nodes site)
    (hidx : ∀ c ∈ idx, c.Live site d.code) (hlen : idx.length = (g.shapeAt id).length)
    (hsize : Shape.size (g.shapeAt id) < 9223372036854775808) {x : Nat} {shape : Shape}
    (hn : g.node? id = some ⟨.reshape x, shape⟩) (hfresh : top = true ∨ l.placed.lookup id = none)
    {element : List Coord → BodyM ValueId} (helement : EmitsElement g false x element) :
    ∃ v d' l' nodes', (do
        let inner ← code (reshapeIndex idx (g.shapeAt id) (g.shapeAt x))
        element inner : BodyM ValueId).runOn d l = .ok ((v, d'), l') ∧
      Emitted g site top id idx d l nodes v d' l' nodes' := by
  have hshape : g.shapeAt id = shape := Graph.shapeAt_of_node? hn
  have hfit : Shape.size (g.shapeAt id) = Shape.size (g.shapeAt x) := hshape ▸ hg.fits hn
  obtain ⟨inner, code', hindex, hgrows, hlen', hlive, hcomp⟩ := reshapeIndex_emits hd.base (hg.shapeAt_positive id)
    (hg.shapeAt_positive x) hfit hsize hlen hidx
  have hp := Progress.of_code hs hd (hgrows.mono (Nat.zero_le _))
  obtain ⟨v, d', l', nodes', hrun, e⟩ := helement hs hp.ok hlive hlen'
  refine ⟨v, d', l', nodes', ?_, .via hd hp rfl e rfl (fun _ hacc => hacc.grows (.refl g l nodes))
    (fun _ _ _ _ => ⟨rfl, rfl⟩) ?_⟩
  · rw [runOn_bind_ok (runOn_code hindex l), hrun]
  · intro acc hserved is hm hmay
    have hin : g.Inlines id is x (Shape.indexOf (g.shapeAt x) (Shape.offset is (g.shapeAt id))) := hshape ▸ .reshape hn
    refine ⟨_, hg.mem_of_inlines hin hm, hserved.inline hfresh hmay hm hin, fun A leaves => ?_, fun A w s hregs hat =>
      hcomp A w s _ hregs ⟨is, hat, hm, rfl⟩⟩
    rw [hg.element_eq id, Graph.elementStep, hn, hshape]

/-- The element of a permuted node: the index is permuted back. -/
theorem emit_permute (hg : g.WellFormed) (hs : Sound g l nodes) (hd : d.Ok l nodes site)
    (hidx : ∀ c ∈ idx, c.Live site d.code) (hlen : idx.length = (g.shapeAt id).length) {x : Nat} {perm : List Nat}
    {shape : Shape} (hn : g.node? id = some ⟨.permute x perm, shape⟩) (hfresh : top = true ∨ l.placed.lookup id = none)
    {element : List Coord → BodyM ValueId} (helement : EmitsElement g false x element) :
    ∃ v d' l' nodes', (do
        let inner ← (permuteIndex .origin idx perm : Except Fault _)
        element inner : BodyM ValueId).runOn d l = .ok ((v, d'), l') ∧
      Emitted g site top id idx d l nodes v d' l' nodes' := by
  obtain ⟨hperm, hshape⟩ := Shape.permute_eq_ok.1 (hg.fits hn)
  have hrank : (g.shapeAt id).length = (g.shapeAt x).length := by
    rw [Graph.shapeAt_of_node? hn, hshape, Shape.length_filterMap_getElem? hperm.2.2, hperm.1]
  obtain ⟨inner, hindex, hlen', hlive, his⟩ := permuteIndex_is hperm (hlen.trans hrank) hidx
  obtain ⟨v, d', l', nodes', hrun, e⟩ := helement hs hd hlive hlen'
  refine ⟨v, d', l', nodes', ?_, .via hd (.refl hs hd) rfl e rfl (fun _ hacc => hacc.grows (.refl g l nodes))
    (fun _ _ _ _ => ⟨rfl, rfl⟩) ?_⟩
  · rw [runOn_bind_ok (runOn_words hindex d l), hrun]
  · intro acc hserved is hm hmay
    have hin : g.Inlines id is x _ := .permute hn
    refine ⟨_, hg.mem_of_inlines hin hm, hserved.inline hfresh hmay hm hin, fun A leaves => ?_, fun A w s _ hat =>
      ⟨s, .refl A w d.code s, his hat⟩⟩
    rw [hg.element_eq id, Graph.elementStep, hn]

/-- The element of every kind of node is emitted right if those of its operands are. -/
theorem emitNode_emits (hg : g.WellFormed) (hcounts : g.CountsBelow 9223372036854775808 id) (hn : g.node? id = some node)
    {element : ElementEmitter} (helement : ∀ x ∈ g.operandsOf id, EmitsElement g false x (element x))
    (hs : Sound g l nodes) (hd : d.Ok l nodes site) (hidx : ∀ c ∈ idx, c.Live site d.code)
    (hlen : idx.length = (g.shapeAt id).length) (hfresh : top = true ∨ l.placed.lookup id = none) :
    ∃ v d' l' nodes', (emitNode g element id node idx).runOn d l = .ok ((v, d'), l') ∧
      Emitted g site top id idx d l nodes v d' l' nodes' := by
  obtain ⟨kind, shape⟩ := node
  have hshape : g.shapeAt id = shape := Graph.shapeAt_of_node? hn
  have hops := Graph.operandsOf_eq hn
  have hoperand : ∀ x ∈ g.operandsOf id, ∃ n, g.node? x = some n ∧ g.fetch x = .ok n ∧ n.shape = g.shapeAt x := by
    intro x hx
    obtain ⟨hlt, hlt'⟩ := hg.operandsOf_lt hx
    obtain ⟨n, hn'⟩ := Graph.exists_node? (Nat.lt_trans hlt hlt')
    exact ⟨n, hn', fetch_eq_ok hn', (Graph.shapeAt_of_node? hn').symm⟩
  have hserved : ∀ acc : Access, acc.Served g l top → acc.Served g l false :=
    fun _ hacc => hacc.grows (.refl g l nodes)
  subst hshape
  unfold emitNode
  cases kind with
  | input | weight => exact emit_leaf hg hs hd hidx hcounts.self hn rfl hfresh
  | constant c => exact ⟨_, _, _, _, runOn_instr _ d l, constant_emitted hg hs hd idx hn⟩
  | unary op x =>
    have hx : x ∈ g.operandsOf id := by simp [hops, Kind.operands]
    have hfit : g.shapeAt id = g.shapeAt x := hg.fits hn
    obtain ⟨v, d₁, l₁, nodes₁, hrun, e⟩ := helement x hx hs hd hidx (hfit ▸ hlen)
    refine ⟨_, _, _, _, ?_, e.unary hg hn hfresh⟩
    simp only
    rw [runOn_bind_ok hrun, runOn_instr]
  | binary op lhs rhs =>
    have hl : lhs ∈ g.operandsOf id := by simp [hops, Kind.operands]
    have hr : rhs ∈ g.operandsOf id := by simp [hops, Kind.operands]
    obtain ⟨nl, -, hfl, hsl⟩ := hoperand lhs hl
    obtain ⟨nr, -, hfr, hsr⟩ := hoperand rhs hr
    obtain ⟨hstretch, hstretch'⟩ := Shape.stretches_of_broadcast (hg.fits hn)
    obtain ⟨lhsIdx, hlidx, hllen, hllive, hlis⟩ := broadcastIndex_is hstretch hlen hidx
    obtain ⟨rhsIdx, hridx, hrlen, hrlive, hris⟩ := broadcastIndex_is hstretch' hlen hidx
    obtain ⟨u, d₁, l₁, nodes₁, hrun₁, e₁⟩ := helement lhs hl hs hd hllive hllen
    obtain ⟨v, d₂, l₂, nodes₂, hrun₂, e₂⟩ := helement rhs hr e₁.sound e₁.ok (fun c hc => (hrlive c hc).grows e₁.code) hrlen
    refine ⟨_, _, _, _, ?_, e₁.binary hg e₂ hn hfresh hrlive hlis hris⟩
    simp only
    rw [runOn_bind_ok (runOn_words hfl d l), runOn_bind_ok (runOn_words hfr d l), hsl, hsr,
      runOn_bind_ok (runOn_words hlidx d l), runOn_bind_ok (runOn_words hridx d l), runOn_bind_ok hrun₁,
      runOn_bind_ok hrun₂, runOn_instr]
  | reshape x =>
    have hx : x ∈ g.operandsOf id := by simp [hops, Kind.operands]
    obtain ⟨n, -, hf, hsx⟩ := hoperand x hx
    obtain ⟨v, d', l', nodes', hrun, e⟩ := emit_reshape hg hs hd hidx hlen hcounts.self hn hfresh (helement x hx)
    refine ⟨v, d', l', nodes', ?_, e⟩
    simp only
    rw [runOn_bind_ok (runOn_words hf d l), hsx]
    exact hrun
  | permute x perm =>
    exact emit_permute hg hs hd hidx hlen hn hfresh (helement x (by simp [hops, Kind.operands]))
  | reduce op x axes keepDims =>
    have hx : x ∈ g.operandsOf id := by simp [hops, Kind.operands]
    obtain ⟨n, -, hf, hsx⟩ := hoperand x hx
    obtain ⟨v, d', l', nodes', hrun, e⟩ := emit_function hg hd hidx hcounts.self hn rfl rfl hfresh
      (reduceBody_ok hg hn hcounts.self (hcounts.operand hx).self (helement x hx) hs)
    refine ⟨v, d', l', nodes', ?_, e⟩
    simp only
    rw [runOn_bind_ok (runOn_words hf d l), hsx]
    exact hrun
  | matmul lhs rhs =>
    have hl : lhs ∈ g.operandsOf id := by simp [hops, Kind.operands]
    have hr : rhs ∈ g.operandsOf id := by simp [hops, Kind.operands]
    obtain ⟨nl, -, hfl, hsl⟩ := hoperand lhs hl
    obtain ⟨nr, -, hfr, hsr⟩ := hoperand rhs hr
    obtain ⟨v, d', l', nodes', hrun, e⟩ := emit_function hg hd hidx hcounts.self hn rfl rfl hfresh
      (matmulBody_ok hg hn hcounts.self (hcounts.operand hl).self (helement lhs hl) (helement rhs hr) hs)
    refine ⟨v, d', l', nodes', ?_, e⟩
    simp only
    rw [runOn_bind_ok (runOn_words hfl d l), runOn_bind_ok (runOn_words hfr d l), hsl, hsr]
    exact hrun

/-- An element that was computed in an open scope is used again. -/
theorem Emitted.again (hs : Sound g l nodes) (hd : d.Ok l nodes site) {v : Nat} (h : ((id, idx), v) ∈ d.known) :
    Emitted g site top id idx d l nodes v d l nodes where
  toProgress := .refl hs hd
  live := (hd.known h).1
  reads _ _ _ _ hb := .inl hb
  quiet _ _ _ _ _ := rfl
  runs A _ w _ s _ _ _ hknows hat hm _ := ⟨s, .refl A w d.code s, hknows, hknows h hat hm⟩

theorem source?_run (top : Bool) (id : Nat) (l : Lowering) :
    (source? top id).run l = .ok (if top then none else l.placed.lookup id, l) := rfl

/-- The element of every node is emitted right. The induction is on the bound: operands have
smaller numbers. -/
theorem elementBelow_emits (hg : g.WellFormed) {bound : Nat} {top : Bool} {id : Nat} (hbound : id < bound)
    (hid : id < g.length) (hcounts : g.CountsBelow 9223372036854775808 id) :
    EmitsElement g top id (elementBelow g bound top id) := by
  induction bound generalizing id top with
  | zero => exact absurd hbound (Nat.not_lt_zero id)
  | succ bound ih =>
    intro site d l nodes idx hs hd hidx hlen
    obtain ⟨node, hn⟩ := Graph.exists_node? hid
    have hshape : g.shapeAt id = node.shape := Graph.shapeAt_of_node? hn
    have hoperand : ∀ x ∈ g.operandsOf id, EmitsElement g false x (elementBelow g bound false x) := by
      intro x hx
      obtain ⟨hlt, -⟩ := hg.operandsOf_lt hx
      exact ih (Nat.lt_of_lt_of_le hlt (Nat.le_of_lt_succ hbound)) (Nat.lt_trans hlt hid) (hcounts.operand hx)
    have hknown : (known? id idx).runOn d l = .ok ((d.known.lookup (id, idx), d), l) := rfl
    unfold elementBelow
    rw [runOn_bind_ok hknown]
    cases hlookup : d.known.lookup (id, idx) with
    | some v =>
      obtain ⟨later, earlier, hentries, -⟩ := List.lookup_eq_some_iff.1 hlookup
      exact ⟨v, d, l, nodes, rfl, .again hs hd (by simp [hentries])⟩
    | none =>
      simp only
      rw [runOn_bind_ok (runOn_words (fetch_eq_ok hn) d l), runOn_bind_ok (runOn_lower (source?_run top id l) d)]
      cases hsource : if top then none else l.placed.lookup id with
      | some b =>
        obtain ⟨htop, hplaced⟩ : top = false ∧ l.placed.lookup id = some b := by
          cases top
          · exact ⟨rfl, hsource⟩
          · cases hsource
        obtain ⟨v, d', hload, e⟩ := load_placed hg hs hd hidx hcounts.self hplaced
        refine ⟨v, _, l, nodes, ?_, (htop ▸ e).remember hidx⟩
        simp only
        rw [← hshape, runOn_bind_ok hload]
        rfl
      | none =>
        have hfresh : top = true ∨ l.placed.lookup id = none := by
          cases top
          · exact .inr hsource
          · exact .inl rfl
        obtain ⟨v, d', l', nodes', hrun, e⟩ := emitNode_emits hg hcounts hn hoperand hs hd hidx hlen hfresh
        refine ⟨v, _, l', nodes', ?_, e.remember hidx⟩
        simp only
        rw [runOn_bind_ok hrun]
        rfl

theorem element_emits (hg : g.WellFormed) (top : Bool) {id : Nat} (hid : id < g.length)
    (hcounts : g.CountsBelow 9223372036854775808 id) : EmitsElement g top id (element g top id) :=
  elementBelow_emits hg (Nat.lt_succ_self id) hid hcounts

/-- The body of the function of a node. -/
theorem nodeFunction_body (hg : g.WellFormed) {id : Nat} (hid : id < g.length)
    (hcounts : g.CountsBelow 9223372036854775808 id) (hs : Sound g l nodes) :
    ∃ body : BodyM Unit, (nodeFunction g id).run l = (function (g.shapeAt id) body).run l ∧
      ∃ d l' nodes', body.runOn {} l = .ok (((), d), l') ∧ BodyOk g id l nodes d l' nodes' := by
  obtain ⟨⟨kind, shape⟩, hn⟩ := Graph.exists_node? hid
  obtain rfl : g.shapeAt id = shape := Graph.shapeAt_of_node? hn
  have hops := Graph.operandsOf_eq hn
  have hoperand : ∀ x ∈ g.operandsOf id, EmitsElement g false x (element g false x) ∧
      ∃ n, g.fetch x = .ok n ∧ n.shape = g.shapeAt x := by
    intro x hx
    have hlt := Nat.lt_trans (hg.operandsOf_lt hx).1 hid
    obtain ⟨n, hn'⟩ := Graph.exists_node? hlt
    exact ⟨element_emits hg false hlt (hcounts.operand hx), n, fetch_eq_ok hn', (Graph.shapeAt_of_node? hn').symm⟩
  unfold nodeFunction
  rw [LowerM.run_bind_ok (LowerM.run_words (fetch_eq_ok hn) l)]
  cases kind with
  | reduce op x axes keepDims =>
    have hx : x ∈ g.operandsOf id := by simp [hops, Kind.operands]
    obtain ⟨hemits, n, hf, hsx⟩ := hoperand x hx
    refine ⟨_, ?_, reduceBody_ok hg hn hcounts.self (hcounts.operand hx).self hemits hs⟩
    simp only
    rw [LowerM.run_bind_ok (LowerM.run_words hf l), hsx]
  | matmul lhs rhs =>
    have hl : lhs ∈ g.operandsOf id := by simp [hops, Kind.operands]
    have hr : rhs ∈ g.operandsOf id := by simp [hops, Kind.operands]
    obtain ⟨hemitsl, nl, hfl, hsl⟩ := hoperand lhs hl
    obtain ⟨hemitsr, nr, hfr, hsr⟩ := hoperand rhs hr
    refine ⟨_, ?_, matmulBody_ok hg hn hcounts.self (hcounts.operand hl).self hemitsl hemitsr hs⟩
    simp only
    rw [LowerM.run_bind_ok (LowerM.run_words hfl l), LowerM.run_bind_ok (LowerM.run_words hfr l), hsl, hsr]
  | _ =>
    obtain ⟨d, l', nodes', hrun, hok, -⟩ := elementwiseBody_ok hg hcounts.self (element_emits hg true hid hcounts) hs
    exact ⟨_, rfl, d, l', nodes', hrun, hok⟩

/-- The function of a node is appended, and its scratch holds the node. -/
theorem nodeFunction_run (hg : g.WellFormed) {id : Nat} (hid : id < g.length)
    (hcounts : g.CountsBelow 9223372036854775808 id) (hs : Sound g l nodes) :
    ∃ b l' nodes' f len, (nodeFunction g id).run l = .ok (b, l') ∧ Sound g l' nodes' ∧ Grows g l l' nodes nodes' ∧
      l'.program.buffers[b]? = some ⟨.scratch f, len⟩ ∧ l'.program.owner? nodes' b = some id := by
  obtain ⟨body, hbody, d, l₁, nodes₁, hrun, hok⟩ := nodeFunction_body hg hid hcounts hs
  obtain ⟨b, l', len, hfunction, hs', hgrows, -, hb⟩ := function_run hg (Nat.lt_trans hcounts.self (by decide)) hrun hok
  exact ⟨b, l', _, _, len, hbody.trans hfunction, hs', hgrows, hb, by simp [Program.owner?_scratch _ hb]⟩

end

end Lowering

end TensorLoom
