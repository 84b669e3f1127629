import TensorLoom.Proofs.Lowering.Steps
/-
# Laws of emission

What holds between the states before and after an emission, whatever is emitted, is shown
once for the steps of a body and for the bodies of functions. A law (`Law`) says what holds
where code is appended, where a buffer is loaded from and where values are forgotten, and
goes over from two emissions to the one after the other. Bodies then obey it wherever the
elements of nodes in them do (`Obeys`).
-/

namespace TensorLoom

namespace Lowering

open BodyM

/-! ## Code -/

section
variable {β γ : Type}

/-- The emission only appends. -/
def OnlyAppends (c : Code β) : Prop := ∀ ⦃code b code'⦄, c.run code = .ok (b, code') → code <+: code'

namespace OnlyAppends

theorem pure (b : β) : OnlyAppends (Pure.pure b : Code β) := by
  intro code b code' h
  cases h
  exact List.prefix_refl _

theorem bind {c : Code β} {f : β → Code γ} (hc : OnlyAppends c) (hf : ∀ b, OnlyAppends (f b)) : OnlyAppends (c >>= f) := by
  intro code b code' h
  obtain ⟨x, hx, hfx⟩ := bind_eq_ok.1 h
  exact (hc hx).trans (hf _ hfx)

theorem lift (x : Except Fault β) : OnlyAppends (liftM x : Code β) := by
  intro code b code' h
  cases x with
  | error e => cases h
  | ok b =>
    cases h
    exact List.prefix_refl _

theorem emit (i : Instr) : OnlyAppends (Lowering.emit i) := by
  intro code b code' h
  cases h
  exact List.prefix_append _ _

theorem ite {p : Prop} [Decidable p] {c c' : Code β} (hc : OnlyAppends c) (hc' : OnlyAppends c') :
    OnlyAppends (if p then c else c') := by
  split
  · exact hc
  · exact hc'

theorem addTerms (sum : Option ValueId) (idx : List Coord) (shape : Shape) (strides : List Nat) :
    OnlyAppends (Lowering.addTerms sum idx shape strides) := by
  fun_induction Lowering.addTerms sum idx shape strides with
  | case1 _ _ _ _ _ _ ih => exact ih
  | case2 sum =>
    rename_i ih
    refine (pure _).bind fun term => ?_
    cases sum with
    | none => exact (pure _).bind ih
    | some before => exact (emit _).bind ih
  | case3 sum =>
    rename_i ih
    refine (emit _).bind fun _ => (emit _).bind fun term => ?_
    cases sum with
    | none => exact (pure _).bind ih
    | some before => exact (emit _).bind ih
  | case4 _ _ _ _ _ _ ih => exact ih
  | case5 => exact .pure _

theorem linearOffset (idx : List Coord) (shape : Shape) : OnlyAppends (Lowering.linearOffset idx shape) := by
  refine (lift _).bind fun strides => (addTerms ..).bind fun sum => ?_
  cases sum with
  | some offset => exact .pure _
  | none => exact emit _

theorem splitOffset (flat : ValueId) (outermost : Bool) (shape : Shape) (strides : List Nat) :
    OnlyAppends (Lowering.splitOffset flat outermost shape strides) := by
  fun_induction Lowering.splitOffset flat outermost shape strides with
  | case1 _ _ _ _ ih => exact ih.bind fun _ => .pure _
  | case2 outermost =>
    rename_i ih
    refine (pure _).bind fun quotient => ?_
    cases outermost with
    | true => exact (pure _).bind fun _ => ih.bind fun _ => .pure _
    | false => exact (emit _).bind fun _ => (emit _).bind fun _ => ih.bind fun _ => .pure _
  | case3 outermost =>
    rename_i ih
    refine (emit _).bind fun _ => (emit _).bind fun quotient => ?_
    cases outermost with
    | true => exact (pure _).bind fun _ => ih.bind fun _ => .pure _
    | false => exact (emit _).bind fun _ => (emit _).bind fun _ => ih.bind fun _ => .pure _
  | case4 => exact .pure _

theorem reshapeIndex (idx : List Coord) (output input : Shape) : OnlyAppends (Lowering.reshapeIndex idx output input) :=
  ite (.pure _) ((linearOffset ..).bind fun _ => (lift _).bind fun _ => splitOffset ..)

end OnlyAppends

/-! ## Runs that end without a fault -/

variable {d d' : Draft} {l l' : Lowering}

theorem runOn_bind_eq_ok {m : BodyM β} {f : β → BodyM γ} {c : γ} (h : (m >>= f).runOn d l = .ok ((c, d'), l')) :
    ∃ b d₁ l₁, m.runOn d l = .ok ((b, d₁), l₁) ∧ (f b).runOn d₁ l₁ = .ok ((c, d'), l') := by
  obtain ⟨⟨⟨b, d₁⟩, l₁⟩, hm, hf⟩ := bind_eq_ok.1 h
  exact ⟨b, d₁, l₁, hm, hf⟩

theorem runOn_lower_eq_ok {m : LowerM β} {c : β} (h : (liftM m : BodyM β).runOn d l = .ok ((c, d'), l')) :
    m.run l = .ok (c, l') ∧ d' = d := by
  obtain ⟨x, hx, hpure⟩ := bind_eq_ok.1 h
  cases hpure
  exact ⟨hx, rfl⟩

theorem runOn_words_eq_ok {r : Except Fault β} {c : β} (h : (liftM r : BodyM β).runOn d l = .ok ((c, d'), l')) :
    r = .ok c ∧ d' = d ∧ l' = l := by
  cases r <;> cases h
  exact ⟨rfl, rfl, rfl⟩

theorem runOn_code_eq_ok {c : Code β} {b : β} (h : (code c).runOn d l = .ok ((b, d'), l')) :
    ∃ code', c.run d.code = .ok (b, code') ∧ d' = { d with code := code' } ∧ l' = l := by
  cases hc : c.run d.code with
  | error e =>
    have hget : (get : BodyM Draft).runOn d l = .ok ((d, d), l) := rfl
    unfold code at h
    rw [runOn_bind_ok hget, hc] at h
    cases h
  | ok x =>
    cases h.symm.trans (runOn_code hc l)
    exact ⟨x.2, rfl, rfl, rfl⟩

/-- The body after a load: the buffer is among the inputs, and behind the code of the offset
stands the load. -/
def Draft.loaded (d : Draft) (buffer : BufferId) (code : List Instr) (offset : ValueId) : Draft :=
  { d with inputs := (addInput d.inputs buffer).2, code := code ++ [.load (addInput d.inputs buffer).1 offset] }

theorem runOn_load_eq_ok {buffer : BufferId} {shape : Shape} {idx : List Coord} {v : ValueId}
    (h : (load buffer shape idx).runOn d l = .ok ((v, d'), l')) :
    ∃ code offset, d.code <+: code ∧ d' = d.loaded buffer code offset ∧ l' = l := by
  have hget : (get : BodyM Draft).runOn d l = .ok ((d, d), l) := rfl
  have hmodify : (modify fun d' => { d' with inputs := (addInput d.inputs buffer).2 } : BodyM Unit).runOn d l =
      .ok (((), { d with inputs := (addInput d.inputs buffer).2 }), l) := rfl
  unfold load at h
  rw [runOn_bind_ok hget] at h
  simp only at h
  rw [runOn_bind_ok hmodify] at h
  obtain ⟨offset, d₁, l₁, hcode, hinstr⟩ := runOn_bind_eq_ok h
  obtain ⟨code, hrun, rfl, rfl⟩ := runOn_code_eq_ok hcode
  cases hinstr.symm.trans (runOn_instr ..)
  exact ⟨code, offset, OnlyAppends.linearOffset idx shape hrun, rfl, rfl⟩

end

/-! ## Laws -/

/-- What holds between the states before and after an emission, the elements of the nodes
`xs` being emitted in between. -/
structure Law where
  rel : (xs : List NodeId) → (d : Draft) → (l : Lowering) → (d' : Draft) → (l' : Lowering) → Prop
  refl : ∀ d l, rel [] d l d l
  trans : ∀ {xs ys d l d₁ l₁ d₂ l₂}, rel xs d l d₁ l₁ → rel ys d₁ l₁ d₂ l₂ → rel (xs ++ ys) d l d₂ l₂
  subset : ∀ {xs ys d l d' l'}, rel xs d l d' l' → ys ⊆ xs → rel ys d l d' l'
  code : ∀ {d l code}, d.code <+: code → rel [] d l { d with code := code } l
  load : ∀ {d l code} buffer offset, d.code <+: code → rel [] d l (d.loaded buffer code offset) l
  forget : ∀ d l, rel [] d l { d with known := [] } l

/-- Wherever the emission ends without a fault, the law holds of the states before and after,
the elements of the nodes `xs` being emitted. -/
def Obeys (L : Law) (xs : List NodeId) {β : Type} (m : BodyM β) : Prop :=
  ∀ ⦃d l b d' l'⦄, m.runOn d l = .ok ((b, d'), l') → L.rel xs d l d' l'

namespace Obeys

section
variable {L : Law} {xs ys : List NodeId} {β γ : Type}

theorem subset {m : BodyM β} (h : Obeys L xs m) (hsub : ys ⊆ xs) : Obeys L ys m := fun _ _ _ _ _ hrun => L.subset (h hrun) hsub

theorem pure (b : β) : Obeys L [] (Pure.pure b : BodyM β) := by
  intro d l b d' l' h
  cases h
  exact L.refl d l

theorem throw (e : Fault) : Obeys L xs (MonadExcept.throw e : BodyM β) := by
  intro d l b d' l' h
  cases h

theorem both {m : BodyM β} {f : β → BodyM γ} (hm : Obeys L xs m) (hf : ∀ b, Obeys L ys (f b)) :
    Obeys L (xs ++ ys) (m >>= f) := by
  intro d l c d' l' h
  obtain ⟨b, d₁, l₁, hm', hf'⟩ := runOn_bind_eq_ok h
  exact L.trans (hm hm') (hf b hf')

/-- The first part emits the elements. -/
theorem first {m : BodyM β} {f : β → BodyM γ} (hm : Obeys L xs m) (hf : ∀ b, Obeys L ys (f b)) : Obeys L xs (m >>= f) :=
  (hm.both hf).subset (List.subset_append_left _ _)

/-- The second part emits the elements. -/
theorem second {m : BodyM β} {f : β → BodyM γ} (hm : Obeys L xs m) (hf : ∀ b, Obeys L ys (f b)) : Obeys L ys (m >>= f) :=
  (hm.both hf).subset (List.subset_append_right _ _)

/-- What does not depend on the program, with its answer. -/
theorem lift_bind {x : Except Fault β} {f : β → BodyM γ} (hf : ∀ b, x = .ok b → Obeys L xs (f b)) :
    Obeys L xs ((liftM x : BodyM β) >>= f) := by
  intro d l c d' l' h
  cases x with
  | error e => cases h
  | ok b => exact hf b rfl h

theorem mapM {f : β → BodyM γ} (hf : ∀ b, Obeys L [] (f b)) (bs : List β) : Obeys L [] (bs.mapM f) := by
  induction bs with
  | nil => exact .pure []
  | cons b bs ih =>
    rw [List.mapM_cons]
    exact (hf b).second fun _ => ih.second fun _ => .pure _

theorem forM {f : β → BodyM Unit} (hf : ∀ b, Obeys L [] (f b)) (bs : List β) : Obeys L [] (bs.forM f) := by
  induction bs with
  | nil => exact .pure ()
  | cons b bs ih => exact (hf b).second fun _ => ih

/-! ## Steps of a body -/

theorem code {c : Code β} (hc : OnlyAppends c) : Obeys L [] (Lowering.code c) := by
  intro d l b d' l' h
  obtain ⟨code', hrun, rfl, rfl⟩ := runOn_code_eq_ok h
  exact L.code (hc hrun)

theorem instr (i : Instr) : Obeys L [] (Lowering.instr i) := code (.emit i)

theorem load (buffer : BufferId) (shape : Shape) (idx : List Coord) : Obeys L [] (Lowering.load buffer shape idx) := by
  intro d l v d' l' h
  obtain ⟨code, offset, hcode, rfl, rfl⟩ := runOn_load_eq_ok h
  exact L.load buffer offset hcode

theorem openLoop (range stride : Nat) : Obeys L [] (Lowering.openLoop range stride) := (instr _).second fun _ => .pure _

theorem closeLoop : Obeys L [] Lowering.closeLoop := by
  refine (instr _).second fun _ => ?_
  intro d l b d' l' h
  cases h
  exact L.forget d l

theorem closeLoops (n : Nat) : Obeys L [] (Lowering.closeLoops n) := .forM (fun _ => closeLoop) _

end

/-! ## Bodies -/

section
variable {L : Law} {element : ElementEmitter}

theorem elementwiseBody {xs : List NodeId} {element : List Coord → BodyM ValueId} (h : ∀ idx, Obeys L xs (element idx))
    (shape : Shape) : Obeys L xs (elementwiseBody shape element) :=
  .lift_bind fun _ _ => (mapM (fun _ => openLoop ..) _).second fun idx => (h idx).first fun _ =>
    (code (.linearOffset ..)).second fun _ => (instr _).second fun _ => closeLoops _

theorem reduceBody {x : NodeId} (h : ∀ idx, Obeys L [x] (element x idx)) (input output : Shape) (op : ReduceOp)
    (axes : List Nat) (keepDims : Bool) : Obeys L [x] (reduceBody element input output op x axes keepDims) :=
  .lift_bind fun _ _ => (mapM (fun _ => openLoop ..) _).second fun _ => (instr _).second fun _ =>
    (mapM (fun _ => openLoop ..) _).second fun _ => (h _).first fun _ => (instr _).second fun _ =>
    (closeLoops _).second fun _ => (code (.linearOffset ..)).second fun _ => (instr _).second fun _ => closeLoops _

theorem matmulBody {lhs rhs : NodeId} (hl : ∀ idx, Obeys L [lhs] (element lhs idx)) (hr : ∀ idx, Obeys L [rhs] (element rhs idx))
    (lhsShape rhsShape output : Shape) : Obeys L [lhs, rhs] (matmulBody element lhsShape rhsShape output lhs rhs) := by
  unfold Lowering.matmulBody
  split
  · exact throw _
  · exact (openLoop ..).second fun _ => (openLoop ..).second fun _ => (instr _).second fun _ => (openLoop ..).second fun _ =>
      (hl _).both fun _ => (hr _).first fun _ => (instr _).second fun _ => (instr _).second fun _ => closeLoop.second fun _ =>
      (code (.linearOffset ..)).second fun _ => (instr _).second fun _ => closeLoops _

/-- A node that is neither a leaf nor accumulated is emitted with its operands. -/
theorem emitNode {g : Graph} {node : Node} (hleaf : node.kind.isLeaf = false) (hacc : node.kind.accumulates = false)
    (h : ∀ x ∈ node.kind.operands, ∀ idx, Obeys L [x] (element x idx)) (id : NodeId) (idx : List Coord) :
    Obeys L node.kind.operands (emitNode g element id node idx) := by
  obtain ⟨kind, shape⟩ := node
  cases kind with
  | input | weight => cases hleaf
  | reduce op x axes keepDims => cases hacc
  | matmul lhs rhs => cases hacc
  | constant c => exact instr _
  | unary op x => exact (h x (by simp [Kind.operands]) idx).first fun _ => instr _
  | binary op lhs rhs =>
    exact .lift_bind fun _ _ => .lift_bind fun _ _ => .lift_bind fun _ _ => .lift_bind fun _ _ =>
      (h lhs (by simp [Kind.operands]) _).both fun _ => (h rhs (by simp [Kind.operands]) _).first fun _ => instr _
  | reshape x => exact .lift_bind fun _ _ => (code (.reshapeIndex ..)).second fun _ => h x (by simp [Kind.operands]) _
  | permute x perm => exact .lift_bind fun _ _ => h x (by simp [Kind.operands]) _

end

end Obeys

end Lowering

end TensorLoom
