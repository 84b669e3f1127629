import TensorLoom.Proofs.Lowering.Draft
/-
# Steps of a body

Each step by which the element of a node is emitted: loads, constants, operations on
elements that were emitted before, and changes of index. A step succeeds, keeps the
program sound and computes the element.
-/

namespace TensorLoom

namespace Lowering

/-! ## Running emissions -/

namespace LowerM

variable {β γ : Type}

theorem run_bind_ok {m : LowerM β} {f : β → LowerM γ} {l l' : Lowering} {b : β} (h : m.run l = .ok (b, l')) :
    (m >>= f).run l = (f b).run l' := by
  rw [StateT.run_bind, h]
  rfl

theorem run_words {r : Except Fault β} {b : β} (h : r = .ok b) (l : Lowering) :
    (liftM r : LowerM β).run l = .ok (b, l) := by
  rw [h]
  rfl

end LowerM

namespace BodyM

variable {β γ : Type}

/-- Runs an emission on a body and a program under construction. -/
def runOn (m : BodyM β) (d : Draft) (l : Lowering) : Except Fault ((β × Draft) × Lowering) := (m.run d).run l

theorem runOn_bind_ok {m : BodyM β} {f : β → BodyM γ} {d d' : Draft} {l l' : Lowering} {b : β}
    (h : m.runOn d l = .ok ((b, d'), l')) : (m >>= f).runOn d l = (f b).runOn d' l' := by
  unfold runOn at h ⊢
  rw [StateT.run_bind, StateT.run_bind, h]
  rfl

theorem runOn_pure (b : β) (d : Draft) (l : Lowering) : (pure b : BodyM β).runOn d l = .ok ((b, d), l) := rfl

theorem runOn_words {r : Except Fault β} {b : β} (h : r = .ok b) (d : Draft) (l : Lowering) :
    (liftM r : BodyM β).runOn d l = .ok ((b, d), l) := by
  rw [h]
  rfl

theorem runOn_lower {m : LowerM β} {l l' : Lowering} {b : β} (h : m.run l = .ok (b, l')) (d : Draft) :
    (liftM m : BodyM β).runOn d l = .ok ((b, d), l') := by
  have hrun : (liftM m : BodyM β).run d = m >>= fun b => pure (b, d) := rfl
  unfold runOn
  rw [hrun, StateT.run_bind, h]
  rfl

theorem runOn_code {c : Code β} {d : Draft} {code' : List Instr} {b : β} (h : c.run d.code = .ok (b, code'))
    (l : Lowering) : (code c).runOn d l = .ok ((b, { d with code := code' }), l) := by
  have hget : (get : BodyM Draft).runOn d l = .ok ((d, d), l) := rfl
  unfold code
  rw [runOn_bind_ok hget, runOn_bind_ok (runOn_words h d l)]
  rfl

theorem runOn_instr (i : Instr) (d : Draft) (l : Lowering) :
    (instr i).runOn d l = .ok ((d.code.length, { d with code := d.code ++ [i] }), l) := runOn_code rfl l

end BodyM

open BodyM

variable {g : Graph} {site : Site} {top : Bool} {d d₁ d₂ : Draft} {l l₁ l₂ : Lowering} {nodes nodes₁ nodes₂ : List Nat}

/-- One more instruction. -/
theorem Progress.push (h : Progress g site d l nodes d₁ l₁ nodes₁) {i : Instr}
    (hi : site.Admits d₁.inputs.length d₁.code i) :
    Progress g site d l nodes { d₁ with code := d₁.code ++ [i] } l₁ nodes₁ :=
  h.trans (.of_code h.sound h.ok (.push hi))

/-! ## Loads -/

theorem addInput_cases (inputs : List Nat) (b : Nat) :
    (∃ i, addInput inputs b = (i, inputs) ∧ inputs[i]? = some b) ∨
      addInput inputs b = (inputs.length, inputs ++ [b]) ∧ b ∉ inputs := by
  unfold addInput
  cases h : inputs.findIdx? (· == b) with
  | some i =>
    obtain ⟨hi, heq, -⟩ := List.findIdx?_eq_some_iff_getElem.1 h
    exact .inl ⟨i, rfl, by rw [List.getElem?_eq_getElem hi, beq_iff_eq.1 heq]⟩
  | none => exact .inr ⟨rfl, fun hb => by simpa using List.findIdx?_eq_none_iff.1 h b hb⟩

theorem addInput_spec (inputs : List Nat) (b : Nat) :
    ∃ i inputs', addInput inputs b = (i, inputs') ∧ inputs <+: inputs' ∧ inputs'[i]? = some b ∧
      ∀ x ∈ inputs', x ∈ inputs ∨ x = b := by
  rcases addInput_cases inputs b with ⟨i, h, hi⟩ | ⟨h, -⟩
  · exact ⟨i, inputs, h, List.prefix_refl _, hi, fun x hx => .inl hx⟩
  · exact ⟨inputs.length, inputs ++ [b], h, List.prefix_append _ _, by simp, by simp⟩

theorem admits_load {code : List Instr} {inputs i offset : Nat} (hi : i < inputs) (ho : site.Live code offset .int) :
    site.Admits inputs code (.load i offset) := by
  refine ⟨trivial, rfl, Site.live_one ho, ?_⟩
  rintro n o heq
  cases heq
  exact hi

/-- A load reads the element that the buffer holds at the index. -/
theorem load_emitted (hg : g.WellFormed) (hs : Sound g l nodes) (hd : d.Ok l nodes site) {idx : List Coord}
    (hidx : ∀ c ∈ idx, c.Live site d.code) {b n : Nat} (hb : l.program.owner? nodes b = some n)
    (hsize : Shape.size (g.shapeAt n) < 9223372036854775808)
    (hreads : ∀ acc : Access, acc.Served g l top → ∀ is, acc.may n is → l.program.IsLeaf b → acc.reads n is) :
    ∃ v d', (load b (g.shapeAt n) idx).runOn d l = .ok ((v, d'), l) ∧
      Emitted g site top n idx d l nodes v d' l nodes := by
  obtain ⟨i, inputs', hadd, hpre, hi, hnew⟩ := addInput_spec d.inputs b
  obtain ⟨offset, code', hrun, hgrows, hlive, hcomp⟩ :=
    linearOffset_emits hd.base (hg.shapeAt_positive n) hsize hidx
  have hbase : site.base ≤ code'.length := Nat.le_trans hd.base hgrows.length_le
  have hlt : i < inputs'.length := (List.getElem?_eq_some_iff.1 hi).1
  have hcode : site.Grows inputs'.length d.code (code' ++ [.load i offset]) :=
    (hgrows.mono (Nat.zero_le _)).trans (.push (admits_load hlt hlive))
  refine ⟨code'.length, { d with code := code' ++ [.load i offset], inputs := inputs' }, ?_,
    ⟨hs, .refl g l nodes, ?_, hcode, hpre⟩, Site.live_last hbase rfl, ?_, fun _ _ _ _ _ => rfl, ?_⟩
  · have hget : (get : BodyM Draft).runOn d l = .ok ((d, d), l) := rfl
    have hmodify : (modify fun d => { d with inputs := inputs' } : BodyM Unit).runOn d l =
        .ok (((), { d with inputs := inputs' }), l) := rfl
    have hoffset : (code (linearOffset idx (g.shapeAt n))).runOn { d with inputs := inputs' } l =
        .ok ((offset, { d with code := code', inputs := inputs' }), l) :=
      runOn_code (d := { d with inputs := inputs' }) hrun l
    unfold load
    rw [runOn_bind_ok hget, hadd]
    simp only
    rw [runOn_bind_ok hmodify, runOn_bind_ok hoffset]
    rfl
  · refine ⟨Nat.le_trans hd.base hcode.length_le, fun x hx => ?_, fun he => ?_⟩
    · rcases hnew x hx with hx | rfl
      · exact hd.inputs x hx
      · exact ⟨n, hb⟩
    · exact ⟨hcode.live (hd.known he).1, fun c hc => ((hd.known he).2 c hc).grows hcode⟩
  · rintro acc - ⟨is, -, hmay⟩ x hx
    rcases hnew x hx with hx | rfl
    · exact .inl hx
    · exact .inr ⟨n, is, hb, hmay⟩
  · intro α A leaves w acc s is hserved hready hknows hat hm hmay
    have hints := hready.ints
    have hfloats := hready.floats
    simp only [List.length_append, List.length_singleton] at hints hfloats
    obtain ⟨s₁, hran₁, hoff⟩ := hcomp A w s _ (by omega) ⟨is, hat, hm, rfl⟩
    obtain ⟨c, contents, hc, hmem, hfeed⟩ := hready.feeds hi hb
    have hmem₁ : s₁.memory[c]? = some contents := by rw [hran₁.keeps.memory, hmem]
    have hroom : code'.length < s₁.floats.size := by rw [hran₁.keeps.floatCount]; omega
    obtain ⟨s₂, hran₂, hv⟩ := Ran.load hc hmem₁ (hfeed is hm (hreads acc hserved is hmay)) hoff hroom
    have hran := hran₁.trans hran₂
    exact ⟨s₂, hran, hknows.keeps hd hran.keeps, hv⟩

/-! ## Operations -/

theorem admits_imm {code : List Instr} (inputs : Nat) (c : Float) : site.Admits inputs code (.imm c) :=
  ⟨trivial, rfl, by simp [Instr.operands], by simp⟩

theorem admits_unary {code : List Instr} (inputs : Nat) (op : UnaryOp) {v : Nat} (hv : site.Live code v .float) :
    site.Admits inputs code (.unary op v) := ⟨trivial, rfl, Site.live_one hv, by simp⟩

theorem admits_binary {code : List Instr} (inputs : Nat) (op : BinaryOp) {u v : Nat} (hu : site.Live code u .float)
    (hv : site.Live code v .float) : site.Admits inputs code (.binary op u v) :=
  ⟨trivial, rfl, Site.live_two hu hv, by simp⟩

theorem constant_emitted (hg : g.WellFormed) (hs : Sound g l nodes) (hd : d.Ok l nodes site) (idx : List Coord) {id : Nat}
    {c : Float} {shape : Shape} (hn : g.node? id = some ⟨.constant c, shape⟩) :
    Emitted g site top id idx d l nodes d.code.length { d with code := d.code ++ [.imm c] } l nodes where
  toProgress := (Progress.refl hs hd).push (admits_imm _ c)
  live := Site.live_last hd.base rfl
  reads _ _ _ _ hb := .inl hb
  quiet _ _ _ _ _ := rfl
  runs A leaves w acc s is _ hready hknows _ _ _ := by
    have hroom := hready.floats
    rw [List.length_append, List.length_singleton] at hroom
    obtain ⟨s', hran, hv⟩ : ∃ s', Ran A w d.code (d.code ++ [.imm c]) s s' ∧
        s'.floats[d.code.length]? = some (A.lit c) := Ran.imm c hroom
    refine ⟨s', hran, hknows.keeps hd hran.keeps, ?_⟩
    rw [hv, hg.element_eq, Graph.elementStep, hn]
    rfl

theorem Emitted.unary (hg : g.WellFormed) {x : Nat} {idx : List Coord} {v : Nat}
    (e : Emitted g site false x idx d l nodes v d₁ l₁ nodes₁) {id : Nat} {op : UnaryOp} {shape : Shape}
    (hn : g.node? id = some ⟨.unary op x, shape⟩) (hfresh : top = true ∨ l.placed.lookup id = none) :
    Emitted g site top id idx d l nodes d₁.code.length { d₁ with code := d₁.code ++ [.unary op v] } l₁ nodes₁ where
  toProgress := e.toProgress.push (admits_unary _ op e.live)
  live := Site.live_last e.ok.base rfl
  reads acc hserved hmay b hb := by
    obtain ⟨is, hm, hmay⟩ := hmay
    have hin : g.Inlines id is x is := .unary hn
    exact e.reads acc (hserved.grows (.refl g l nodes))
      ⟨is, hg.mem_of_inlines hin hm, hserved.inline hfresh hmay hm hin⟩ b hb
  quiet acc hserved _ hinline hmay := by
    obtain ⟨is, hm, hmay⟩ := hmay
    have hin : g.Inlines id is x is := .unary hn
    exact e.quiet acc (hserved.grows (.refl g l nodes)) rfl hinline
      ⟨is, hg.mem_of_inlines hin hm, hserved.inline hfresh hmay hm hin⟩
  runs A leaves w acc s is hserved hready hknows hat hm hmay := by
    have hin : g.Inlines id is x is := .unary hn
    have hpush : Progress g site d₁ l₁ nodes₁ { d₁ with code := d₁.code ++ [.unary op v] } l₁ nodes₁ :=
      (Progress.refl e.sound e.ok).push (admits_unary _ op e.live)
    obtain ⟨s₁, hran₁, hknows₁, hv⟩ := e.runs A leaves w acc s is (hserved.grows (.refl g l nodes))
      (hready.before hpush) hknows hat (hg.mem_of_inlines hin hm) (hserved.inline hfresh hmay hm hin)
    have hroom := hready.floats
    rw [List.length_append, List.length_singleton, ← hran₁.keeps.floatCount] at hroom
    obtain ⟨s₂, hran₂, hv₂⟩ : ∃ s₂, Ran A w d₁.code (d₁.code ++ [.unary op v]) s₁ s₂ ∧
        s₂.floats[d₁.code.length]? = some (A.unary op (g.element A.toAlgebra leaves x is)) := Ran.unary hv hroom
    refine ⟨s₂, hran₁.trans hran₂, hknows₁.keeps e.ok hran₂.keeps, ?_⟩
    rw [hv₂, hg.element_eq id, Graph.elementStep, hn]
    rfl

/-- An operation on two elements that were emitted one after the other. -/
theorem Emitted.combine {lhs rhs : Nat} {lhsIdx rhsIdx : List Coord} {u v : Nat}
    (e₁ : Emitted g site false lhs lhsIdx d l nodes u d₁ l₁ nodes₁)
    (e₂ : Emitted g site false rhs rhsIdx d₁ l₁ nodes₁ v d₂ l₂ nodes₂) (op : BinaryOp)
    (hidx : ∀ c ∈ rhsIdx, c.Live site d.code) :
    Progress g site d l nodes { d₂ with code := d₂.code ++ [.binary op u v] } l₂ nodes₂ ∧
      ∀ {α : Type} (A : Arith α) (leaves : Leaves α) (w : Wiring) (acc : Access) (s : Frame α) (is js : List Nat),
        acc.Served g l false →
        Ready A leaves g l₂.program nodes₂ acc w { d₂ with code := d₂.code ++ [.binary op u v] } s →
        Knows A leaves g s d.known → IndexIs s lhsIdx is → Shape.Mem is (g.shapeAt lhs) → acc.may lhs is →
        IndexIs s rhsIdx js → Shape.Mem js (g.shapeAt rhs) → acc.may rhs js →
        ∃ s', Ran A w d.code (d₂.code ++ [.binary op u v]) s s' ∧ Knows A leaves g s' d₂.known ∧
          s'.floats[d₂.code.length]? = some (A.binary op (g.element A.toAlgebra leaves lhs is)
            (g.element A.toAlgebra leaves rhs js)) := by
  have hadmits : site.Admits d₂.inputs.length d₂.code (.binary op u v) :=
    admits_binary _ op (e₂.code.live e₁.live) e₂.live
  refine ⟨(e₁.toProgress.trans e₂.toProgress).push hadmits, ?_⟩
  intro α A leaves w acc s is js hserved hready hknows hat hm hmay hat' hm' hmay'
  have hready₂ := hready.before ((Progress.refl e₂.sound e₂.ok).push hadmits)
  obtain ⟨s₁, hran₁, hknows₁, hu⟩ := e₁.runs A leaves w acc s is hserved (hready₂.before e₂.toProgress) hknows hat hm hmay
  have hat₁ := (IndexIs.keeps hran₁.keeps hidx).2 hat'
  obtain ⟨s₂, hran₂, hknows₂, hv⟩ := e₂.runs A leaves w acc s₁ js (hserved.grows e₁.grows) (hready₂.keeps hran₁.keeps)
    hknows₁ hat₁ hm' hmay'
  have hran := hran₁.trans hran₂
  have hroom := hready.floats
  rw [List.length_append, List.length_singleton, ← hran.keeps.floatCount] at hroom
  have hu₂ := (hran₂.keeps.floats u e₁.live.lt).trans hu
  obtain ⟨s₃, hran₃, hv₃⟩ : ∃ s₃, Ran A w d₂.code (d₂.code ++ [.binary op u v]) s₂ s₃ ∧
      s₃.floats[d₂.code.length]? = some (A.binary op _ _) := Ran.binary hu₂ hv hroom
  exact ⟨s₃, hran.trans hran₃, hknows₂.keeps e₂.ok hran₃.keeps, hv₃⟩

theorem Emitted.binary (hg : g.WellFormed) {lhs rhs : Nat} {idx lhsIdx rhsIdx : List Coord} {u v : Nat}
    (e₁ : Emitted g site false lhs lhsIdx d l nodes u d₁ l₁ nodes₁)
    (e₂ : Emitted g site false rhs rhsIdx d₁ l₁ nodes₁ v d₂ l₂ nodes₂) {id : Nat} {op : BinaryOp} {shape : Shape}
    (hn : g.node? id = some ⟨.binary op lhs rhs, shape⟩) (hfresh : top = true ∨ l.placed.lookup id = none)
    (hidx : ∀ c ∈ rhsIdx, c.Live site d.code)
    (hl : ∀ {α : Type} {s : Frame α} {is : List Nat}, IndexIs s idx is →
      IndexIs s lhsIdx (Shape.restrict (g.shapeAt lhs) is))
    (hr : ∀ {α : Type} {s : Frame α} {is : List Nat}, IndexIs s idx is →
      IndexIs s rhsIdx (Shape.restrict (g.shapeAt rhs) is)) :
    Emitted g site top id idx d l nodes d₂.code.length { d₂ with code := d₂.code ++ [.binary op u v] } l₂ nodes₂ := by
  obtain ⟨hprogress, hruns⟩ := e₁.combine e₂ op hidx
  refine ⟨hprogress, Site.live_last e₂.ok.base rfl, ?_, ?_, ?_⟩
  · rintro acc hserved ⟨is, hm, hmay⟩ b hb
    have hinl : g.Inlines id is lhs _ := .lhs hn
    have hinr : g.Inlines id is rhs _ := .rhs hn
    rcases e₂.reads acc (hserved.grows e₁.grows) ⟨_, hg.mem_of_inlines hinr hm, hserved.inline hfresh hmay hm hinr⟩ b hb
      with hb | h
    · rcases e₁.reads acc (hserved.grows (.refl g l nodes))
        ⟨_, hg.mem_of_inlines hinl hm, hserved.inline hfresh hmay hm hinl⟩ b hb with hb | ⟨n, js, howner, h⟩
      · exact .inl hb
      · exact .inr ⟨n, js, e₂.grows.owner? howner, h⟩
    · exact .inr h
  · rintro acc hserved - hinline ⟨is, hm, hmay⟩
    have hinl : g.Inlines id is lhs _ := .lhs hn
    have hinr : g.Inlines id is rhs _ := .rhs hn
    rw [e₂.quiet acc (hserved.grows e₁.grows) rfl (hinline.grows e₁.grows)
      ⟨_, hg.mem_of_inlines hinr hm, hserved.inline hfresh hmay hm hinr⟩]
    exact e₁.quiet acc (hserved.grows (.refl g l nodes)) rfl hinline
      ⟨_, hg.mem_of_inlines hinl hm, hserved.inline hfresh hmay hm hinl⟩
  · intro α A leaves w acc s is hserved hready hknows hat hm hmay
    have hinl : g.Inlines id is lhs _ := .lhs hn
    have hinr : g.Inlines id is rhs _ := .rhs hn
    obtain ⟨s', hran, hknows', hv⟩ := hruns A leaves w acc s _ _ (hserved.grows (.refl g l nodes)) hready hknows (hl hat)
      (hg.mem_of_inlines hinl hm) (hserved.inline hfresh hmay hm hinl) (hr hat) (hg.mem_of_inlines hinr hm)
      (hserved.inline hfresh hmay hm hinr)
    refine ⟨s', hran, hknows', ?_⟩
    rw [hv, hg.element_eq id, Graph.elementStep, hn]
    rfl

/-- The element is the element of another node at another index, after preparations that
compute that index. -/
theorem Emitted.via (hd : d.Ok l nodes site) (hp : Progress g site d l nodes d₁ l₁ nodes₁)
    (hknown : d₁.known = d.known) {x id v : Nat} {inner idx : List Coord} {top' : Bool}
    (e : Emitted g site top' x inner d₁ l₁ nodes₁ v d₂ l₂ nodes₂) (hin : d₁.inputs = d.inputs)
    (hserved : ∀ acc : Access, acc.Served g l top → acc.Served g l₁ top')
    (hquiet : ∀ acc : Access, top = false → acc.Inline g l → (∃ is, acc.may id is) →
      top' = false ∧ l₁.program.functions = l.program.functions)
    (hmay : ∀ acc : Access, acc.Served g l top → ∀ is, Shape.Mem is (g.shapeAt id) → acc.may id is →
      ∃ js, Shape.Mem js (g.shapeAt x) ∧ acc.may x js ∧
        (∀ {α : Type} (A : Arith α) (leaves : Leaves α),
          g.element A.toAlgebra leaves id is = g.element A.toAlgebra leaves x js) ∧
        ∀ {α : Type} (A : Arith α) (w : Wiring) (s : Frame α), d₁.code.length ≤ s.ints.size → IndexIs s idx is →
          ∃ s₁, Ran A w d.code d₁.code s s₁ ∧ IndexIs s₁ inner js) :
    Emitted g site top id idx d l nodes v d₂ l₂ nodes₂ where
  toProgress := hp.trans e.toProgress
  live := e.live
  reads acc hacc h b hb := by
    obtain ⟨is, hm, hmay'⟩ := h
    obtain ⟨js, hm', hmay', -⟩ := hmay acc hacc is hm hmay'
    rw [← hin]
    exact e.reads acc (hserved acc hacc) ⟨js, hm', hmay'⟩ b hb
  quiet acc hacc htop hinline h := by
    obtain ⟨is, hm, hmay'⟩ := h
    obtain ⟨htop', hfunctions⟩ := hquiet acc htop hinline ⟨is, hmay'⟩
    obtain ⟨js, hm', hmay', -⟩ := hmay acc hacc is hm hmay'
    rw [e.quiet acc (hserved acc hacc) htop' (hinline.grows hp.grows) ⟨js, hm', hmay'⟩, hfunctions]
  runs A leaves w acc s is hacc hready hknows hat hm hmay' := by
    obtain ⟨js, hm', hmay', helem, hrun⟩ := hmay acc hacc is hm hmay'
    obtain ⟨s₁, hran₁, hat₁⟩ := hrun A w s (hready.before e.toProgress).ints hat
    have hknows₁ : Knows A leaves g s₁ d₁.known := hknown ▸ hknows.keeps hd hran₁.keeps
    obtain ⟨s₂, hran₂, hknows₂, hv⟩ := e.runs A leaves w acc s₁ js (hserved acc hacc) (hready.keeps hran₁.keeps)
      hknows₁ hat₁ hm' hmay'
    exact ⟨s₂, hran₁.trans hran₂, hknows₂, by rw [hv, helem]⟩

/-- The element may be used again at the same index. -/
theorem Emitted.remember {id v : Nat} {idx : List Coord} (e : Emitted g site top id idx d l nodes v d₁ l₁ nodes₁)
    (hidx : ∀ c ∈ idx, c.Live site d.code) :
    Emitted g site top id idx d l nodes v { d₁ with known := ((id, idx), v) :: d₁.known } l₁ nodes₁ where
  toProgress := by
    refine ⟨e.sound, e.grows, ⟨e.ok.base, e.ok.inputs, fun he => ?_⟩, e.code, e.inputs⟩
    rcases List.mem_cons.1 he with heq | he
    · cases heq
      exact ⟨e.live, fun c hc => (hidx c hc).grows e.code⟩
    · exact e.ok.known he
  live := e.live
  reads := e.reads
  quiet := e.quiet
  runs A leaves w acc s is hserved hready hknows hat hm hmay := by
    have hready₁ : Ready A leaves g l₁.program nodes₁ acc w d₁ s := ⟨hready.ints, hready.floats, hready.feeds⟩
    obtain ⟨s₁, hran, hknows₁, hv⟩ := e.runs A leaves w acc s is hserved hready₁ hknows hat hm hmay
    refine ⟨s₁, hran, fun he hat' hm' => ?_, hv⟩
    rcases List.mem_cons.1 he with heq | he
    · cases heq
      rwa [hat'.unique ((IndexIs.keeps hran.keeps hidx).2 hat)]
    · exact hknows₁ he hat' hm'

end Lowering

end TensorLoom
