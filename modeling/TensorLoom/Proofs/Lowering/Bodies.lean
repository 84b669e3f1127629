import TensorLoom.Proofs.Lowering.Steps
import TensorLoom.Proofs.Machine.Loops
/-
# Whole bodies

The body of a function is loops around a store. If the elements inside are emitted right,
the body passes the verifier and writes the value of its node: bodies that compute element
by element (`elementwiseBody_ok`), also in place, and bodies that accumulate
(`foldBody_ok`), which reductions and matrix products are.
-/

namespace TensorLoom

namespace Lowering

open BodyM

/-! ## Loops -/

/-- The headers of loops. -/
def headers (loops : List (Nat × Nat)) : List Instr := loops.map fun (range, stride) => Instr.loop range stride

/-- The coordinates that loops with headers from `pos` on count. -/
def counters (pos n : Nat) : List Coord := (List.range' pos n).map Coord.var

theorem length_headers (loops : List (Nat × Nat)) : (headers loops).length = loops.length := List.length_map _

theorem nest_headers (loops : List (Nat × Nat)) (body : List Instr) :
    nest loops body = headers loops ++ body ++ List.replicate loops.length .close := nest_eq loops body

theorem length_counters (pos n : Nat) : (counters pos n).length = n := by simp [counters]

theorem runOn_openLoops (loops : List (Nat × Nat)) (d : Draft) (l : Lowering) :
    (loops.mapM fun (extent, stride) => openLoop extent stride).runOn d l =
      .ok ((counters d.code.length loops.length, { d with code := d.code ++ headers loops }), l) := by
  induction loops generalizing d with
  | nil => simp [headers, counters, runOn_pure]
  | cons loop loops ih =>
    obtain ⟨range, stride⟩ := loop
    have hopen : (openLoop range stride).runOn d l =
        .ok ((.var d.code.length, { d with code := d.code ++ [.loop range stride] }), l) := by
      unfold openLoop
      rw [runOn_bind_ok (runOn_instr _ d l)]
      rfl
    rw [List.mapM_cons, runOn_bind_ok hopen, runOn_bind_ok (ih _), runOn_pure]
    simp [headers, counters, List.range'_succ]

theorem runOn_closeLoops (n : Nat) (d : Draft) (l : Lowering) :
    ∃ known, (closeLoops n).runOn d l =
      .ok (((), { d with code := d.code ++ List.replicate n .close, known := known }), l) := by
  have hforM : ∀ (ks : List Nat) (d : Draft), ∃ known, (ks.forM fun _ => closeLoop).runOn d l =
      .ok (((), { d with code := d.code ++ List.replicate ks.length .close, known := known }), l) := by
    intro ks
    induction ks with
    | nil => exact fun d => ⟨d.known, by simp; rfl⟩
    | cons k ks ih =>
      intro d
      have hclose : closeLoop.runOn d l = .ok (((), { d with code := d.code ++ [.close], known := [] }), l) := by
        unfold closeLoop
        rw [runOn_bind_ok (runOn_instr _ d l)]
        rfl
      obtain ⟨known, hrest⟩ := ih { d with code := d.code ++ [.close], known := [] }
      refine ⟨known, ?_⟩
      have hcons : ((k :: ks).forM fun _ => closeLoop) = closeLoop >>= fun _ => ks.forM fun _ => closeLoop := rfl
      rw [hcons, runOn_bind_ok hclose, hrest]
      simp [List.replicate_succ]
  have h := hforM (List.range n) d
  rwa [List.length_range] at h

/-- A loop header counts the turns of its loop. -/
theorem indexIs_counters {α : Type} {s : Frame α} {pos : Nat} {is : List Nat} (h : s.Counts pos is)
    {loops : List (Nat × Nat)} (hm : Shape.Mem is (loops.map Prod.fst)) : IndexIs s (counters pos loops.length) is := by
  have hcounts : ∀ {pos : Nat} {is : List Nat}, s.Counts pos is → IndexIs s (counters pos is.length) is := by
    intro pos is h
    induction is generalizing pos with
    | nil => exact .nil
    | cons i is ih => exact .cons (h 0 i rfl) (ih h.tail)
  rw [← List.length_map Prod.fst, ← hm.length_eq]
  exact hcounts h

/-- The values before `base` that blocks around a site show. -/
theorem live_counters {site : Site} {code : List Instr} {pos : Nat} {loops : List (Nat × Nat)}
    (hopen : ∀ v, pos ≤ v → v < pos + loops.length → v ∈ site.opened) (hcode : ∃ pre post, pre.length = pos ∧
      code = pre ++ headers loops ++ post) :
    ∀ c ∈ counters pos loops.length, c.Live site code := by
  intro c hc
  obtain ⟨v, hv, rfl⟩ := List.mem_map.1 hc
  rw [List.mem_range'_1] at hv
  obtain ⟨pre, post, rfl, rfl⟩ := hcode
  refine ⟨.inl (hopen v hv.1 hv.2), ?_⟩
  obtain ⟨j, rfl⟩ := Nat.exists_eq_add_of_le hv.1
  have hj : j < loops.length := Nat.lt_of_add_lt_add_left hv.2
  rw [List.append_assoc, List.getElem?_append_right (Nat.le_add_right ..), Nat.add_sub_cancel_left,
    List.getElem?_append_left (by rw [length_headers]; exact hj)]
  simp [headers, hj, Instr.resultKind]

/-- Inside loops from the start, their headers are in scope. -/
theorem live_headers (loops : List (Nat × Nat)) : ∀ c ∈ counters 0 loops.length, c.Live (.after loops.length) (headers loops) :=
  live_counters (fun v _ hv => List.mem_range.2 (by omega)) ⟨[], [], rfl, by simp⟩

theorem shown_enterLoops (loops : List (Nat × Nat)) :
    (Site.after loops.length).Shown (headers loops).length (({} : Scopes).enterLoops 0 loops.length) := by
  intro x _ hx
  rw [length_headers] at hx
  exact visible_enterLoops.2 (.inl ⟨Nat.zero_le _, by omega⟩)

/-! ## What a body achieves -/

/-- The cells hold the nodes of their buffers. A leaf that `shared` allows may be in the
cell of the output. -/
def Fed {α : Type} (A : Arith α) (leaves : Leaves α) (g : Graph) (p : Program) (nodes : List Nat) (shared : Nat → Prop)
    (w : Wiring) (memory : Memory α) (inputs : List Nat) : Prop :=
  ∀ {i b n : Nat}, inputs[i]? = some b → p.owner? nodes b = some n → ∃ c, w.inputs[i]? = some c ∧
    memory[c]? = some (g.value A.toAlgebra leaves n).toArray ∧ (c = w.output → p.IsLeaf b ∧ shared n)

/-- While the output is overwritten from the front, inputs can be read that are elsewhere,
or in the output at elements not overwritten yet. -/
theorem Fed.ready {α : Type} {A : Arith α} {leaves : Leaves α} {g : Graph} (hg : g.WellFormed) {p : Program}
    {nodes : List Nat} {shared : Nat → Prop} {w : Wiring} {memory : Memory α} {d : Draft} {s : Frame α} {acc : Access}
    {vals : List α} {old : Array α} {k : Nat} (h : Fed A leaves g p nodes shared w memory d.inputs)
    (hints : d.code.length ≤ s.ints.size) (hfloats : d.code.length ≤ s.floats.size)
    (hold : memory[w.output]? = some old) (hsize : old.size = vals.length)
    (hmem : s.memory = memory.setIfInBounds w.output (patched vals old k))
    (hreads : ∀ n js, shared n → Shape.Mem js (g.shapeAt n) → acc.reads n js → k ≤ Shape.offset js (g.shapeAt n)) :
    Ready A leaves g p nodes acc w d s where
  ints := hints
  floats := hfloats
  feeds {i b n} hi hb := by
    obtain ⟨c, hc, hcell, hshared⟩ := h hi hb
    by_cases hout : c = w.output
    · obtain ⟨hleaf, hn⟩ := hshared hout
      subst hout
      obtain rfl : old = _ := Option.some.inj (hold.symm.trans hcell)
      have hlt : w.output < memory.size := (Array.getElem?_eq_some_iff.1 hold).1
      have hcell' : s.memory[w.output]? = some (patched vals (g.value A.toAlgebra leaves n).toArray k) := by
        simp [hmem, hlt]
      refine ⟨w.output, _, hc, hcell', fun js hm hread => ?_⟩
      rw [getElem?_patched hsize (hreads n js hn hm (hread hleaf)), List.getElem?_toArray]
      exact hg.getElem?_value A.toAlgebra leaves hm
    · have hcell' : s.memory[c]? = some (g.value A.toAlgebra leaves n).toArray := by
        rw [hmem, Array.getElem?_setIfInBounds_ne (Ne.symm hout), hcell]
      refine ⟨c, _, hc, hcell', fun js hm _ => ?_⟩
      rw [List.getElem?_toArray]
      exact hg.getElem?_value A.toAlgebra leaves hm

/-- The emission computes the elements of a node. -/
def EmitsElement (g : Graph) (top : Bool) (id : Nat) (element : List Coord → BodyM ValueId) : Prop :=
  ∀ {site : Site} {d : Draft} {l : Lowering} {nodes : List Nat} {idx : List Coord}, Sound g l nodes → d.Ok l nodes site →
    (∀ c ∈ idx, c.Live site d.code) → idx.length = (g.shapeAt id).length →
    ∃ v d' l' nodes', (element idx).runOn d l = .ok ((v, d'), l') ∧
      Emitted g site top id idx d l nodes v d' l' nodes'

/-- Running the body leaves the value of the node in the output, stored in order. -/
def Fills {α : Type} (A : Arith α) (leaves : Leaves α) (g : Graph) (id : Nat) (w : Wiring) (memory : Memory α)
    (code : List Instr) : Prop :=
  ∀ z, ∃ t, traceBody A w code ⟨Array.replicate code.length 0, Array.replicate code.length z, memory⟩ = .ok t ∧
    t.frame.memory = memory.setIfInBounds w.output (g.value A.toAlgebra leaves id).toArray ∧
    InOrder (Shape.size (g.shapeAt id)) t.stores

/-- The body of a function that computes the node. -/
structure BodyOk (g : Graph) (id : Nat) (l : Lowering) (nodes : List Nat) (d : Draft) (l' : Lowering)
    (nodes' : List Nat) : Prop where
  sound : Sound g l' nodes'
  grows : Grows g l l' nodes nodes'
  inputs : ∀ b ∈ d.inputs, ∃ n, l'.program.owner? nodes' b = some n
  verified : ∀ k out, verifyBody k ⟨d.code, d.inputs, out⟩ = .ok ()
  runs : ∀ {α : Type} (A : Arith α) (leaves : Leaves α) (w : Wiring) (memory : Memory α) (old : Array α),
    Fed A leaves g l'.program nodes' (fun _ => False) w memory d.inputs → memory[w.output]? = some old →
    old.size = Shape.size (g.shapeAt id) → Fills A leaves g id w memory d.code

/-! ## Element by element -/

/-- Straight code and a store inside loops pass the verifier. -/
theorem verifyBody_stores {loops : List (Nat × Nat)} {prep : List Instr} {inputs : List Nat} {o v : Nat}
    (hrange : ∀ l ∈ loops, 0 < l.1) (hline : (Site.after loops.length).AdmitsAll inputs.length (headers loops) prep)
    (ho : (Site.after loops.length).Live (headers loops ++ prep) o .int)
    (hv : (Site.after loops.length).Live (headers loops ++ prep) v .float) (k out : Nat) :
    verifyBody k ⟨nest loops (prep ++ [.store o v]), inputs, out⟩ = .ok () := by
  have hpre : headers loops ++ prep <+: (⟨nest loops (prep ++ [.store o v]), inputs, out⟩ : Function).code :=
    ⟨[.store o v] ++ List.replicate loops.length .close, by simp [nest_headers]⟩
  obtain ⟨scopes, hchecks, hshown', hout⟩ := hline.checks (f := k) hpre (shown_enterLoops loops)
  have hstore := Checks.one (Site.checkInstr_effect (f := k) (i := .store o v) hpre hshown' trivial rfl
    (Site.live_two ho hv))
  rw [length_headers] at hchecks
  rw [List.length_append, length_headers] at hstore
  exact verifyBody_nest hrange (hchecks.append hstore) hout

/-- Loops around the code of an element and its store write the whole node, also over a
leaf if no element is read after it was written: at each index `is` an access is served
that reads the shared leaves only from there on. -/
theorem Emitted.fills {g : Graph} (hg : g.WellFormed) {id : Nat} {top : Bool} {loops : List (Nat × Nat)} {l l' : Lowering}
    {nodes nodes' : List Nat} {v o : Nat} {d : Draft} {prep : List Instr} (hranges : loops.map Prod.fst = g.shapeAt id)
    (hstrides : loops.map Prod.snd = Shape.strides (g.shapeAt id))
    (hsmall : ∀ r ∈ loops, r.1 ≤ 9223372036854775808)
    (e : Emitted g (.after loops.length) top id (counters 0 loops.length) { code := headers loops } l nodes v d l' nodes')
    (hline : (Site.after loops.length).AdmitsAll d.inputs.length (headers loops) prep)
    (hpre : d.code.length ≤ (headers loops ++ prep).length)
    (hoffset : ComputesInt (.after loops.length) d.code (fun s z => ∃ is, IndexIs s (counters 0 loops.length) is ∧
      Shape.Mem is (g.shapeAt id) ∧ z = Shape.offset is (g.shapeAt id)) o (headers loops ++ prep))
    {α : Type} {A : Arith α} {leaves : Leaves α} {w : Wiring} {memory : Memory α} {old : Array α} {shared : Nat → Prop}
    (acc : List Nat → Access)
    (hacc : ∀ is, Shape.Mem is (g.shapeAt id) → (acc is).Served g l top ∧ (acc is).may id is ∧
      ∀ n js, shared n → Shape.Mem js (g.shapeAt n) → (acc is).reads n js →
        Shape.offset is (g.shapeAt id) ≤ Shape.offset js (g.shapeAt n))
    (hfed : Fed A leaves g l'.program nodes' shared w memory d.inputs) (hold : memory[w.output]? = some old)
    (hsize : old.size = Shape.size (g.shapeAt id)) :
    Fills A leaves g id w memory (nest loops (prep ++ [.store o v])) := by
  intro z
  have hvals := g.length_value A.toAlgebra leaves id
  have hlen : (nest loops (prep ++ [.store o v])).length = (headers loops ++ prep).length + 1 + loops.length := by
    simp only [nest_headers, List.length_append, List.length_replicate, List.length_singleton]
    omega
  have hheaders : (headers loops ++ prep).length = loops.length + prep.length := by
    rw [List.length_append, length_headers]
  rw [← hvals]
  refine traceBody_stores A w (by rw [hstrides, hranges]) (.of_plain hline.plain)
    (fun i hi => Instr.silent_of_defines (hline.defines i hi)) hsmall (by omega) hold (hsize.trans hvals.symm)
    (by rw [hvals, hranges]) z ?_
  intro is s hm hcounts hints hfloats hmem
  have hat : IndexIs s (counters 0 loops.length) is := indexIs_counters hcounts hm
  rw [hranges] at hm hmem ⊢
  obtain ⟨hserved, hmay, hreads⟩ := hacc is hm
  have hready : Ready A leaves g l'.program nodes' (acc is) w d s :=
    hfed.ready hg (by omega) (by omega) hold (hsize.trans hvals.symm) hmem hreads
  obtain ⟨s₁, hran₁, -, hv⟩ := e.runs A leaves w (acc is) s is hserved hready (by simp [Knows]) hat hm hmay
  have hints₁ := hran₁.keeps.intCount
  obtain ⟨s₂, hran₂, ho⟩ := hoffset.2 A w s₁ _ (by omega)
    ⟨is, (IndexIs.keeps hran₁.keeps (live_headers loops)).2 hat, hm, rfl⟩
  have hran := hran₁.trans hran₂
  have hkeep := hran.keeps
  rw [length_headers] at hkeep
  refine ⟨s₂, ?_, hkeep, ho, ?_⟩
  · have := hran.exec
    rwa [length_headers] at this
  · rw [hran₂.keeps.floats v e.live.lt, hv, hg.getElem?_value A.toAlgebra leaves hm]

/-- The body stores one element per visit of its loops; what it reads may be computed. -/
theorem elementwiseBody_ok {g : Graph} (hg : g.WellFormed) {id : Nat} {top : Bool}
    (hsize : Shape.size (g.shapeAt id) < 9223372036854775808) {element : List Coord → BodyM ValueId}
    (helement : EmitsElement g top id element) {l : Lowering} {nodes : List Nat} (hs : Sound g l nodes) :
    ∃ d l' nodes', (elementwiseBody (g.shapeAt id) element).runOn {} l = .ok (((), d), l') ∧
      BodyOk g id l nodes d l' nodes' ∧
      (∀ acc : Access, acc.Served g l top → (∃ is, Shape.Mem is (g.shapeAt id) ∧ acc.may id is) →
        (∀ b ∈ d.inputs, ∃ n js, l'.program.owner? nodes' b = some n ∧ acc.may n js) ∧
          (top = false → acc.Inline g l → l'.program.functions = l.program.functions)) ∧
      ∀ {α : Type} (A : Arith α) (leaves : Leaves α) (w : Wiring) (memory : Memory α) (old : Array α)
        (shared : Nat → Prop) (acc : List Nat → Access),
        (∀ is, Shape.Mem is (g.shapeAt id) → (acc is).Served g l top ∧ (acc is).may id is ∧
          ∀ n js, shared n → Shape.Mem js (g.shapeAt n) → (acc is).reads n js →
            Shape.offset is (g.shapeAt id) ≤ Shape.offset js (g.shapeAt n)) →
        Fed A leaves g l'.program nodes' shared w memory d.inputs → memory[w.output]? = some old →
        old.size = Shape.size (g.shapeAt id) → Fills A leaves g id w memory d.code := by
  have hpos := hg.shapeAt_positive id
  have hstrides := Shape.rowMajorStrides_eq_ok hpos (Nat.lt_trans hsize (by decide))
  obtain ⟨loops, hloops⟩ : ∃ loops, loops = (g.shapeAt id).zip (Shape.strides (g.shapeAt id)) := ⟨_, rfl⟩
  have hlen : loops.length = (g.shapeAt id).length := by rw [hloops, List.length_zip, Shape.length_strides, Nat.min_self]
  have hranges : loops.map Prod.fst = g.shapeAt id := by
    rw [hloops, List.map_fst_zip (Nat.le_of_eq (Shape.length_strides _).symm)]
  have hloopStrides : loops.map Prod.snd = Shape.strides (g.shapeAt id) := by
    rw [hloops, List.map_snd_zip (Nat.le_of_eq (Shape.length_strides _))]
  have hrange : ∀ r ∈ loops, 0 < r.1 ∧ r.1 ≤ 9223372036854775808 := by
    intro r hr
    have hmem : r.1 ∈ g.shapeAt id := hranges ▸ List.mem_map_of_mem hr
    exact ⟨hpos r.1 hmem, Nat.le_of_lt (Nat.lt_of_le_of_lt (hpos.le_size hmem) hsize)⟩
  have hd : ({ code := headers loops } : Draft).Ok l nodes (.after loops.length) :=
    ⟨Nat.le_of_eq (length_headers loops).symm, by simp, by simp⟩
  have hidx := live_headers loops
  -- the element, its offset, the store and the ends of the loops
  obtain ⟨v, d₁, l₁, nodes₁, hrun₁, e⟩ := helement hs hd hidx (by rw [length_counters, hlen])
  have hidx₁ : ∀ c ∈ counters 0 loops.length, c.Live (.after loops.length) d₁.code :=
    fun c hc => (hidx c hc).grows e.code
  obtain ⟨o, code₂, hrun₂, hgrows₂, hoffset⟩ := linearOffset_emits e.ok.base hpos hsize hidx₁
  obtain ⟨prep, rfl, hline⟩ := e.code.trans (hgrows₂.mono (Nat.zero_le _))
  obtain ⟨known, hclose⟩ := runOn_closeLoops (g.shapeAt id).length
    { d₁ with code := headers loops ++ prep ++ [.store o v] } l₁
  have hnest : headers loops ++ prep ++ [.store o v] ++ List.replicate (g.shapeAt id).length .close =
      nest loops (prep ++ [.store o v]) := by simp [nest_headers, hlen]
  rw [hnest] at hclose
  have hfills := @Emitted.fills g hg id top loops l l₁ nodes nodes₁ v o d₁ prep hranges hloopStrides
    (fun r hr => (hrange r hr).2) e hline hgrows₂.length_le hoffset
  refine ⟨{ d₁ with code := nest loops (prep ++ [.store o v]), known := known }, l₁, nodes₁, ?_,
    ⟨e.sound, e.grows, e.ok.inputs, ?_, ?_⟩, ?_, ?_⟩
  · have hopen := runOn_openLoops loops {} l
    rw [hloops] at hopen
    unfold elementwiseBody
    rw [runOn_bind_ok (runOn_words hstrides _ _), runOn_bind_ok hopen]
    simp only [← hloops, List.nil_append, List.length_nil]
    rw [runOn_bind_ok hrun₁, runOn_bind_ok (runOn_code hrun₂ l₁), runOn_bind_ok (runOn_instr _ _ l₁)]
    exact hclose
  · exact verifyBody_stores (fun r hr => (hrange r hr).1) hline hoffset.1 (hgrows₂.live e.live)
  · intro α A leaves w memory old hfed hold holdSize
    exact hfills (fun _ => .all)
      (fun _ _ => ⟨⟨Access.closed_all g l, fun _ => rfl⟩, trivial, fun _ _ hn => hn.elim⟩) hfed hold holdSize
  · intro acc hserved hmay
    exact ⟨fun b hb => (e.reads acc hserved hmay b hb).resolve_left (by simp), fun htop hinline =>
      e.quiet acc hserved htop hinline hmay⟩
  · intro α A leaves w memory old shared acc hacc hfed hold holdSize
    exact hfills acc hacc hfed hold holdSize

/-! ## Accumulation -/

/-- Loops over the result, and inside them an accumulation of the terms of other loops. -/
def foldBody (outer inner : List (Nat × Nat)) (op : ReduceOp) (term : List Coord → List Coord → BodyM ValueId)
    (place : List Coord → List Coord) (output : Shape) : BodyM Unit := do
  let os ← outer.mapM fun (extent, stride) => openLoop extent stride
  let acc ← instr (.imm op.start)
  let is ← inner.mapM fun (extent, stride) => openLoop extent stride
  let v ← term os is
  let _ ← instr (.accumulate op acc v)
  closeLoops is.length
  let offset ← code (linearOffset (place os) output)
  let _ ← instr (.store offset acc)
  closeLoops os.length

/-- The emission computes the term `f`, a function of the indices of the outer and inner loops. -/
def EmitsTerm (g : Graph) (outer inner : Shape) (term : List Coord → List Coord → BodyM ValueId)
    (f : ∀ {α : Type}, Arith α → Leaves α → List Nat → List Nat → α) : Prop :=
  ∀ {site : Site} {d : Draft} {l : Lowering} {nodes : List Nat} {os is : List Coord}, Sound g l nodes →
    d.Ok l nodes site → (∀ c ∈ os, c.Live site d.code) → (∀ c ∈ is, c.Live site d.code) → os.length = outer.length →
    is.length = inner.length →
    ∃ v d' l' nodes', (term os is).runOn d l = .ok ((v, d'), l') ∧ Progress g site d l nodes d' l' nodes' ∧
      site.Live d'.code v .float ∧
      ∀ {α : Type} (A : Arith α) (leaves : Leaves α) (w : Wiring) (s : Frame α) (os' is' : List Nat),
        Ready A leaves g l'.program nodes' .all w d' s → Knows A leaves g s d.known → IndexIs s os os' →
        IndexIs s is is' → Shape.Mem os' outer → Shape.Mem is' inner →
        ∃ s', Ran A w d.code d'.code s s' ∧ s'.floats[v]? = some (f A leaves os' is')

/-- The code of an accumulator at `pos`, and of loops that fold the value `v` of their innermost
code into it. -/
def accumulation (pos : Nat) (loops : List (Nat × Nat)) (op : ReduceOp) (line : List Instr) (v : Nat) : List Instr :=
  .imm op.start :: nest loops (line ++ [.accumulate op pos v])

section
variable {pos v : Nat} {loops : List (Nat × Nat)} {op : ReduceOp} {line : List Instr}

theorem length_accumulation :
    (accumulation pos loops op line v).length = 1 + loops.length + line.length + 1 + loops.length := by
  simp only [accumulation, nest_headers, List.length_cons, List.length_append, length_headers, List.length_replicate,
    List.length_nil]
  omega

theorem append_accumulation (code : List Instr) : code ++ accumulation pos loops op line v =
    code ++ [.imm op.start] ++ headers loops ++ line ++ [.accumulate op pos v] ++ List.replicate loops.length .close := by
  simp [accumulation, nest_headers]

theorem balanced_accumulation (h : ∀ i ∈ line, i.Plain) : Balanced (accumulation pos loops op line v) := by
  have hfold : ∀ i ∈ [Instr.accumulate op pos v], i.Plain := List.forall_mem_singleton.2 trivial
  exact .plain (i := .imm op.start) trivial (((Balanced.of_plain h).append (.of_plain hfold)).nest loops)

theorem silent_accumulation (h : ∀ i ∈ line, i.Silent) : ∀ i ∈ accumulation pos loops op line v, i.Silent := by
  have hline : ∀ i ∈ line ++ [Instr.accumulate op pos v], i.Silent :=
    List.forall_mem_append.2 ⟨h, List.forall_mem_singleton.2 nofun⟩
  exact List.forall_mem_cons.2 ⟨nofun, silent_nest hline loops⟩

end

section
variable {outer inner : List (Nat × Nat)} {op : ReduceOp} {line offs code : List Instr} {o v : Nat}

/-- An accumulation inside loops passes the verifier. Behind it, the counters of these loops and
the accumulator are in scope. -/
theorem checks_accumulation {fn : Function} (hne : inner ≠ []) (hrange : ∀ r ∈ inner, 0 < r.1)
    (hline : (Site.after (outer.length + 1 + inner.length)).AdmitsAll fn.inputs.length
      (headers outer ++ [.imm op.start] ++ headers inner) line)
    (hv : (Site.after (outer.length + 1 + inner.length)).Live
      (headers outer ++ [.imm op.start] ++ headers inner ++ line) v .float)
    (hpre : headers outer ++ accumulation outer.length inner op line v <+: fn.code) (k : Nat) :
    ∃ scopes, Checks k fn outer.length (accumulation outer.length inner op line v)
        (({} : Scopes).enterLoops 0 outer.length) scopes ∧
      scopes.outer = (({} : Scopes).enterLoops 0 outer.length).outer ∧ ∀ x < outer.length + 1, scopes.Visible x := by
  rw [append_accumulation, List.append_assoc] at hpre
  have hpre₁ : headers outer ++ [.imm op.start] ++ headers inner ++ line <+: fn.code :=
    List.IsPrefix.trans (List.prefix_append ..) hpre
  have himm : headers outer ++ [.imm op.start] <+: fn.code :=
    List.IsPrefix.trans ⟨headers inner ++ line, by simp⟩ hpre₁
  -- the accumulator comes into scope
  have hadmits : (Site.after outer.length).AdmitsAll fn.inputs.length (headers outer) [.imm op.start] := ⟨admits_imm _ _, trivial⟩
  obtain ⟨scopes, hacc, hshown, hout⟩ := hadmits.checks (f := k) himm (shown_enterLoops outer)
  have hvisible : ∀ x < outer.length + 1, scopes.Visible x := by
    intro x hx
    refine hshown x ?_ (by simpa [length_headers] using hx)
    exact (Nat.lt_or_ge x outer.length).imp List.mem_range.2 id
  -- inside the inner loops everything so far is in scope
  have hshown₁ : (Site.after (outer.length + 1 + inner.length)).Shown
      (headers outer ++ [Instr.imm op.start] ++ headers inner).length (scopes.enterLoops (outer.length + 1) inner.length) := by
    intro x _ hx
    simp only [List.length_append, length_headers, List.length_singleton] at hx
    rw [visible_enterLoops]
    by_cases h : x < outer.length + 1
    · exact .inr (hvisible x h)
    · exact .inl ⟨by omega, hx⟩
  obtain ⟨scopes₁, hchecks, hshown₁', hout₁⟩ := hline.checks (f := k) hpre₁ hshown₁
  have hacc₁ : (Site.after (outer.length + 1 + inner.length)).Live
      (headers outer ++ [.imm op.start] ++ headers inner ++ line) outer.length .float :=
    ⟨.inl (List.mem_range.2 (by omega)), by simp [headers, Instr.resultKind]⟩
  have hfold := Checks.one (Site.checkInstr_effect (f := k) (i := .accumulate op outer.length v) hpre₁ hshown₁'
    trivial rfl (Site.live_two hacc₁ hv))
  simp only [List.length_append, length_headers, List.length_singleton] at hacc hchecks hfold
  obtain ⟨scopes', hinner, -, hsame⟩ := Checks.nest hrange (hchecks.append hfold) hout₁
  rw [hsame hne] at hinner
  exact ⟨scopes, hacc.append hinner, hout, hvisible⟩

/-- An accumulation and a store of it inside loops pass the verifier. -/
theorem verifyBody_folds {inputs : List Nat} (hne : inner ≠ []) (hrange : ∀ r ∈ outer ++ inner, 0 < r.1)
    (hline : (Site.after (outer.length + 1 + inner.length)).AdmitsAll inputs.length
      (headers outer ++ [.imm op.start] ++ headers inner) line)
    (hv : (Site.after (outer.length + 1 + inner.length)).Live
      (headers outer ++ [.imm op.start] ++ headers inner ++ line) v .float)
    (hcode : code = headers outer ++ accumulation outer.length inner op line v)
    (hoffs : (Site.mk code.length (List.range (outer.length + 1))).AdmitsAll inputs.length code offs)
    (ho : (Site.mk code.length (List.range (outer.length + 1))).Live (code ++ offs) o .int) (k out : Nat) :
    verifyBody k ⟨nest outer (accumulation outer.length inner op line v ++ offs ++ [.store o outer.length]), inputs, out⟩ =
      .ok () := by
  obtain ⟨fn, hfn⟩ : ∃ fn : Function, fn = ⟨nest outer (accumulation outer.length inner op line v ++ offs ++
    [.store o outer.length]), inputs, out⟩ := ⟨_, rfl⟩
  have hfcode : fn.code = code ++ offs ++ ([.store o outer.length] ++ List.replicate outer.length .close) := by
    simp [hfn, hcode, nest_headers]
  have hpre : code ++ offs <+: fn.code := hfcode ▸ List.prefix_append _ _
  have hpre' : headers outer ++ accumulation outer.length inner op line v <+: fn.code :=
    hcode ▸ List.IsPrefix.trans (List.prefix_append ..) hpre
  obtain rfl : fn.inputs = inputs := by rw [hfn]
  rw [← hfn]
  obtain ⟨scopes, hacc, hout, hvisible⟩ := checks_accumulation hne (fun r hr => hrange r (List.mem_append_right _ hr)) hline hv
    hpre' k
  -- behind the inner loops only the outer counters and the accumulator are in scope
  have hshown : (Site.mk code.length (List.range (outer.length + 1))).Shown code.length scopes := by
    rintro x (hx | hx) hlt
    · exact hvisible x (List.mem_range.1 hx)
    · exact absurd hlt (Nat.not_lt.2 hx)
  obtain ⟨scopes', hchecks, hshown', hout'⟩ := hoffs.checks (f := k) hpre hshown
  have hlive : (Site.mk code.length (List.range (outer.length + 1))).Live (code ++ offs) outer.length .float := by
    refine ⟨.inl (List.mem_range.2 (by omega)), ?_⟩
    rw [hcode]
    simp [headers, accumulation, Instr.resultKind]
  have hstore := Checks.one (Site.checkInstr_effect (f := k) (i := .store o outer.length) hpre hshown'
    trivial rfl (Site.live_two ho hlive))
  have hlen : code.length = outer.length + (accumulation outer.length inner op line v).length := by
    rw [hcode, List.length_append, length_headers]
  rw [List.length_append, hlen] at hstore
  rw [hlen] at hchecks
  have hbody := (hacc.append hchecks).append (by simpa only [List.length_append, Nat.add_assoc] using hstore)
  rw [hfn] at hbody ⊢
  exact verifyBody_nest (fun r hr => hrange r (List.mem_append_left _ hr)) hbody (hout'.trans hout)

end

/-- The node at `target os` is the fold of the terms at `os`, and `target` keeps row-major order. -/
structure FoldsTo (g : Graph) (id : Nat) (outer inner : Shape) (op : ReduceOp)
    (f : ∀ {α : Type}, Arith α → Leaves α → List Nat → List Nat → α) (target : List Nat → List Nat) : Prop where
  size : Shape.size outer = Shape.size (g.shapeAt id)
  positive : inner.Positive
  mem : ∀ {os}, Shape.Mem os outer → Shape.Mem (target os) (g.shapeAt id)
  offset : ∀ {os}, Shape.Mem os outer → Shape.offset (target os) (g.shapeAt id) = Shape.offset os outer
  element : ∀ {os}, Shape.Mem os outer → ∀ {α : Type} (A : Arith α) (leaves : Leaves α),
    g.element A.toAlgebra leaves id (target os) =
      ((Shape.indices inner).map (f A leaves os)).foldl (A.fold op) (A.lit op.start)

/-- Behind the headers of all loops, the draft computes the term of their indices into `v`. -/
def ComputesTerm {α : Type} (A : Arith α) (leaves : Leaves α) (g : Graph) (p : Program) (nodes : List Nat) (w : Wiring)
    (outer inner : List (Nat × Nat)) (pre : List Instr) (d : Draft) (v : Nat) (f : List Nat → List Nat → α) : Prop :=
  ∀ (s : Frame α) (os is : List Nat), Ready A leaves g p nodes .all w d s → IndexIs s (counters 0 outer.length) os →
    IndexIs s (counters (outer.length + 1) inner.length) is → Shape.Mem os (outer.map Prod.fst) →
    Shape.Mem is (inner.map Prod.fst) → ∃ s', Ran A w pre d.code s s' ∧ s'.floats[v]? = some (f os is)

section
variable {g : Graph} {id : Nat} {outer inner : List (Nat × Nat)} {op : ReduceOp}
  {f : ∀ {α : Type}, Arith α → Leaves α → List Nat → List Nat → α} {target : List Nat → List Nat}
  (hfolds : FoldsTo g id (outer.map Prod.fst) (inner.map Prod.fst) op f target)
  (hsmall : ∀ r ∈ outer ++ inner, r.1 ≤ 9223372036854775808) {p : Program} {nodes : List Nat} {v : Nat} {d : Draft}
  {line : List Instr} (hd : d.code = headers outer ++ [.imm op.start] ++ headers inner ++ line)
  (hline : ∀ i ∈ line, i.Plain) {α : Type} {A : Arith α} {leaves : Leaves α} {w : Wiring}
  (hterm : ComputesTerm A leaves g p nodes w outer inner (headers outer ++ [.imm op.start] ++ headers inner) d v (f A leaves))
include hfolds hsmall hd hline hterm

/-- What an accumulation leaves in its accumulator is the element. -/
theorem FoldsTo.exec_accumulation {s : Frame α} {os : List Nat} (hm : Shape.Mem os (outer.map Prod.fst))
    (hos : IndexIs s (counters 0 outer.length) os) (hready : Ready A leaves g p nodes .all w d s) :
    ∃ s', exec A w outer.length (accumulation outer.length inner op line v) s = .ok s' ∧ s.Keeps outer.length s' ∧
      s'.floats[outer.length]? = some (g.element A.toAlgebra leaves id (target os)) := by
  have hints := hready.ints
  have hfloats := hready.floats
  simp only [hd, List.length_append, length_headers, List.length_singleton] at hints hfloats
  have hvisit : ∀ {is s₁}, Shape.Mem is (inner.map Prod.fst) → s.Keeps outer.length s₁ →
      s₁.Counts (outer.length + 1) is → ∃ s₂, exec A w (outer.length + 1 + inner.length) line s₁ = .ok s₂ ∧
        s₁.Keeps (outer.length + 1 + inner.length) s₂ ∧
        s₂.floats[v]? = ((Shape.indices (inner.map Prod.fst)).map (f A leaves os))[Shape.offset is (inner.map Prod.fst)]? := by
    intro is s₁ hmi hkeep hcounts
    have hos₁ : IndexIs s₁ (counters 0 outer.length) os :=
      (IndexIs.keeps (by rwa [length_headers]) (live_headers outer)).2 hos
    obtain ⟨s₂, hran, hv⟩ := hterm s₁ os is (hready.keeps hkeep) hos₁ (indexIs_counters hcounts hmi) hm hmi
    rw [hd] at hran
    have hexec := hran.exec
    have hkeep₂ := hran.keeps
    simp only [List.length_append, length_headers, List.length_singleton] at hexec hkeep₂
    refine ⟨s₂, hexec, hkeep₂, ?_⟩
    rw [hv, List.getElem?_map, Shape.getElem?_indices_offset hfolds.positive hmi]
    rfl
  rw [hfolds.element hm]
  exact exec_folds A w hline (fun r hr => hsmall r (List.mem_append_right _ hr)) (by omega) (by omega)
    (by rw [List.length_map, Shape.length_indices]) hvisit

/-- Loops around an accumulation and its store write the whole node. -/
theorem FoldsTo.fills (hg : g.WellFormed) (hstrides : outer.map Prod.snd = Shape.strides (outer.map Prod.fst)) {site : Site}
    {o : Nat} {offs code : List Instr} {place : List Coord} (hsilent : ∀ i ∈ line ++ offs, i.Silent)
    (hcode : code = headers outer ++ accumulation outer.length inner op line v)
    (hoffset : ComputesInt site code (fun s z => ∃ js, IndexIs s place js ∧ Shape.Mem js (g.shapeAt id) ∧
      z = Shape.offset js (g.shapeAt id)) o (code ++ offs)) (hoffs : ∀ i ∈ offs, i.Plain)
    (hplace : ∀ {s : Frame α} {os : List Nat}, IndexIs s (counters 0 outer.length) os → IndexIs s place (target os))
    {memory : Memory α} {old : Array α} (hfed : Fed A leaves g p nodes (fun _ => False) w memory d.inputs)
    (hold : memory[w.output]? = some old) (hsize : old.size = Shape.size (g.shapeAt id)) :
    Fills A leaves g id w memory
      (nest outer (accumulation outer.length inner op line v ++ offs ++ [.store o outer.length])) := by
  intro z
  have hvals := g.length_value A.toAlgebra leaves id
  obtain ⟨hsilent, hsilent'⟩ := List.forall_mem_append.1 hsilent
  have hbal : Balanced (accumulation outer.length inner op line v) := balanced_accumulation hline
  have hlen : (nest outer (accumulation outer.length inner op line v ++ offs ++ [.store o outer.length])).length =
      outer.length + (accumulation outer.length inner op line v).length + offs.length + 1 + outer.length := by
    simp only [nest_headers, length_headers, List.length_append, List.length_replicate, List.length_singleton]
    omega
  have haccLen : (accumulation outer.length inner op line v).length = _ := length_accumulation
  have hdLen : d.code.length = outer.length + 1 + inner.length + line.length := by
    simp only [hd, List.length_append, length_headers, List.length_singleton]
  have hcodeLen : code.length = outer.length + (accumulation outer.length inner op line v).length := by
    rw [hcode, List.length_append, length_headers]
  rw [← hvals]
  refine traceBody_stores A w hstrides (hbal.append (.of_plain hoffs))
    (List.forall_mem_append.2 ⟨silent_accumulation hsilent, hsilent'⟩)
    (fun r hr => hsmall r (List.mem_append_left _ hr)) (by omega) hold (hsize.trans hvals.symm)
    (hvals.trans hfolds.size.symm) z ?_
  intro os s hm hcounts hints hfloats hmem
  have hos := indexIs_counters hcounts hm
  have hready : Ready A leaves g p nodes .all w d s :=
    hfed.ready hg (by omega) (by omega) hold (hsize.trans hvals.symm) hmem fun _ _ hn => hn.elim
  obtain ⟨s₁, hrun₁, hkeep₁, hacc⟩ := hfolds.exec_accumulation hsmall hd hline hterm hm hos hready
  have hos₁ : IndexIs s₁ (counters 0 outer.length) os :=
    (IndexIs.keeps (by rwa [length_headers]) (live_headers outer)).2 hos
  have hints₁ := hkeep₁.intCount
  obtain ⟨s₂, hran₂, ho⟩ := hoffset.2 A w s₁ (Shape.offset os (outer.map Prod.fst))
    (by rw [List.length_append]; omega) ⟨target os, hplace hos₁, hfolds.mem hm, (hfolds.offset hm).symm⟩
  have hkeep₂ := hran₂.keeps
  have hexec₂ := hran₂.exec
  rw [hcodeLen] at hkeep₂ hexec₂
  refine ⟨s₂, ?_, hkeep₁.trans (by omega) hkeep₂, ho, ?_⟩
  · rw [exec_append A w hbal, hrun₁]
    exact hexec₂
  · rw [hkeep₂.floats outer.length (by omega), hacc, ← hfolds.offset hm, hg.getElem?_value A.toAlgebra leaves (hfolds.mem hm)]

end

/-- A body that accumulates computes the node that its terms fold to. -/
theorem foldBody_ok {g : Graph} (hg : g.WellFormed) {id : Nat} (hsize : Shape.size (g.shapeAt id) < 9223372036854775808)
    (outer inner : List (Nat × Nat)) (hstrides : outer.map Prod.snd = Shape.strides (outer.map Prod.fst)) (hne : inner ≠ [])
    (hrange : ∀ r ∈ outer ++ inner, 0 < r.1 ∧ r.1 ≤ 9223372036854775808)
    {op : ReduceOp} {f : ∀ {α : Type}, Arith α → Leaves α → List Nat → List Nat → α} {target : List Nat → List Nat}
    (hfolds : FoldsTo g id (outer.map Prod.fst) (inner.map Prod.fst) op f target)
    {term : List Coord → List Coord → BodyM ValueId}
    (hterm : EmitsTerm g (outer.map Prod.fst) (inner.map Prod.fst) term f) {place : List Coord → List Coord}
    (hlive : ∀ {site : Site} {code : List Instr} {os : List Coord}, (∀ c ∈ os, c.Live site code) →
      ∀ c ∈ place os, c.Live site code)
    (hplace : ∀ {α : Type} {s : Frame α} {os : List Coord} {os' : List Nat}, os.length = outer.length → IndexIs s os os' →
      IndexIs s (place os) (target os')) {l : Lowering} {nodes : List Nat} (hs : Sound g l nodes) :
    ∃ d l' nodes', (foldBody outer inner op term place (g.shapeAt id)).runOn {} l = .ok (((), d), l') ∧
      BodyOk g id l nodes d l' nodes' := by
  obtain ⟨pre, hpre⟩ : ∃ pre, pre = headers outer ++ [Instr.imm op.start] ++ headers inner := ⟨_, rfl⟩
  have hpreLen : pre.length = outer.length + 1 + inner.length := by
    simp only [hpre, List.length_append, length_headers, List.length_singleton]
  -- the terms inside all loops
  have hd : ({ code := pre } : Draft).Ok l nodes (.after (outer.length + 1 + inner.length)) :=
    ⟨Nat.le_of_eq hpreLen.symm, by simp, by simp⟩
  have hos : ∀ c ∈ counters 0 outer.length, c.Live (.after (outer.length + 1 + inner.length)) pre :=
    live_counters (fun v _ hv => List.mem_range.2 (by omega)) ⟨[], [.imm op.start] ++ headers inner, rfl, by simp [hpre]⟩
  have his : ∀ c ∈ counters (outer.length + 1) inner.length, c.Live (.after (outer.length + 1 + inner.length)) pre :=
    live_counters (fun v _ hv => List.mem_range.2 (by omega))
      ⟨headers outer ++ [.imm op.start], [], by simp [length_headers], by simp [hpre]⟩
  obtain ⟨v, d₁, l₁, nodes₁, hrun₁, hprog, hv, hruns⟩ := hterm hs hd hos his
    (by rw [length_counters, List.length_map]) (by rw [length_counters, List.length_map])
  obtain ⟨line, hline, hlines⟩ := hprog.code
  obtain ⟨known₁, hclose₁⟩ := runOn_closeLoops inner.length
    { d₁ with code := d₁.code ++ [.accumulate op outer.length v] } l₁
  obtain ⟨code, hcode⟩ : ∃ code, code = headers outer ++ accumulation outer.length inner op line v := ⟨_, rfl⟩
  have hcode₁ : d₁.code ++ [.accumulate op outer.length v] ++ List.replicate inner.length .close = code := by
    rw [hcode, append_accumulation, hline, hpre]
  -- the offset of the result and the store behind the inner loops
  have hos₂ : ∀ c ∈ counters 0 outer.length, c.Live ⟨code.length, List.range (outer.length + 1)⟩ code :=
    live_counters (fun v _ hv => List.mem_range.2 (by omega)) ⟨[], _, rfl, hcode⟩
  obtain ⟨o, code₂, hrun₂, hgrows₂, hoffset⟩ := linearOffset_emits (Nat.le_refl code.length)
    (hg.shapeAt_positive id) hsize (hlive hos₂)
  obtain ⟨offs, rfl, hoffs⟩ := hgrows₂
  obtain ⟨known₂, hclose₂⟩ := runOn_closeLoops outer.length
    { d₁ with code := code ++ offs ++ [.store o outer.length], known := known₁ } l₁
  have hcode₂ : code ++ offs ++ [.store o outer.length] ++ List.replicate outer.length .close =
      nest outer (accumulation outer.length inner op line v ++ offs ++ [.store o outer.length]) := by
    simp [hcode, nest_headers]
  rw [hcode₁] at hclose₁
  rw [hcode₂] at hclose₂
  refine ⟨{ d₁ with
    code := nest outer (accumulation outer.length inner op line v ++ offs ++ [.store o outer.length]), known := known₂ },
    l₁, nodes₁, ?_, ⟨hprog.sound, hprog.grows, hprog.ok.inputs, ?_, ?_⟩⟩
  · have hopen := runOn_openLoops outer {} l
    have himm := runOn_instr (.imm op.start) { code := headers outer } l
    have hopen' := runOn_openLoops inner { code := headers outer ++ [.imm op.start] } l
    simp only [List.length_append, length_headers, List.length_singleton, ← hpre] at himm hopen'
    unfold foldBody
    rw [runOn_bind_ok hopen]
    simp only [List.nil_append, List.length_nil]
    rw [runOn_bind_ok himm, runOn_bind_ok hopen', runOn_bind_ok hrun₁, runOn_bind_ok (runOn_instr _ d₁ l₁)]
    simp only [length_counters]
    rw [runOn_bind_ok hclose₁]
    have hoff : (Lowering.code (linearOffset (place (counters 0 outer.length)) (g.shapeAt id))).runOn
        { d₁ with code := code, known := known₁ } l₁ = .ok ((o, { d₁ with code := code ++ offs, known := known₁ }), l₁) :=
      runOn_code (d := { d₁ with code := code, known := known₁ }) hrun₂ l₁
    rw [runOn_bind_ok hoff, runOn_bind_ok (runOn_instr _ _ l₁)]
    exact hclose₂
  · have hlines' := hlines.mono (Nat.le_refl d₁.inputs.length)
    rw [hpre] at hlines'
    exact verifyBody_folds hne (fun r hr => (hrange r hr).1) hlines' (by rwa [← hpre, ← hline]) hcode
      (hoffs.mono (Nat.zero_le _)) hoffset.1
  · intro α A leaves w memory old hfed hold holdSize
    have hsilent : ∀ i ∈ line ++ offs, i.Silent := List.forall_mem_append.2
      ⟨fun i hi => Instr.silent_of_defines (hlines.defines i hi), fun i hi => Instr.silent_of_defines (hoffs.defines i hi)⟩
    have hcomputes : ComputesTerm A leaves g l₁.program nodes₁ w outer inner
        (headers outer ++ [.imm op.start] ++ headers inner) d₁ v (f A leaves) := by
      intro s os is hready hos' his' hmo hmi
      rw [← hpre]
      exact hruns A leaves w s os is hready (by simp [Knows]) hos' his' hmo hmi
    exact hfolds.fills (fun r hr => (hrange r hr).2) (hline.trans (by rw [hpre])) hlines.plain hcomputes hg hstrides hsilent
      hcode hoffset hoffs.plain (hplace (length_counters 0 _)) hfed hold holdSize

end Lowering

end TensorLoom
