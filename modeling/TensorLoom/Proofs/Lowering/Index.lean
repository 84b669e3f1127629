import TensorLoom.Lowering.Index
import TensorLoom.Proofs.Machine.Frame
import TensorLoom.Proofs.Program.Scope
import TensorLoom.Proofs.Shape.Rearrange
/-
# Index arithmetic computes indices

The code for a row-major offset computes it, and the code that splits an offset computes
its coordinates, if the tensor has fewer than 2^63 elements: no intermediate result is
larger than the offset itself. The code keeps to its site, so it passes the verifier.
-/

namespace TensorLoom

namespace Lowering

variable {α : Type}

/-! ## Coordinates -/

/-- The coordinate is in scope. -/
def Coord.Live (site : Site) (code : List Instr) : Coord → Prop
  | .origin => True
  | .var v => site.Live code v .int

/-- The coordinate has this value. -/
def Coord.Is (s : Frame α) : Coord → Nat → Prop
  | .origin, i => i = 0
  | .var v, i => s.ints[v]? = some (i : Int)

theorem Coord.Live.grows {site : Site} {inputs : Nat} {code code' : List Instr} (h : site.Grows inputs code code')
    {c : Coord} (hc : c.Live site code) : c.Live site code' := by
  cases c with
  | origin => trivial
  | var v => exact h.live hc

/-- The index vector has this value. -/
def IndexIs (s : Frame α) (idx : List Coord) (is : List Nat) : Prop := List.Forall₂ (Coord.Is s) idx is

theorem Coord.Is.unique {s : Frame α} {c : Coord} {i j : Nat} (hi : c.Is s i) (hj : c.Is s j) : i = j := by
  cases c with
  | origin => exact hi.trans hj.symm
  | var v =>
    exact Int.ofNat.inj (Option.some.inj (hi.symm.trans hj))

theorem IndexIs.unique {s : Frame α} {idx : List Coord} {is js : List Nat} (hi : IndexIs s idx is)
    (hj : IndexIs s idx js) : is = js := by
  induction hi generalizing js with
  | nil =>
    cases hj
    rfl
  | cons hc _ ih =>
    cases hj with
    | cons hc' hrest => rw [hc.unique hc', ih hrest]

/-- Straight code does not touch the coordinates it starts from. -/
theorem Coord.Is.keeps {site : Site} {code : List Instr} {s s' : Frame α} (hk : s.Keeps code.length s') {c : Coord}
    {i : Nat} (hc : c.Live site code) : c.Is s' i ↔ c.Is s i := by
  cases c with
  | origin => exact Iff.rfl
  | var v =>
    have hv : site.Live code v .int := hc
    rw [Coord.Is, Coord.Is, hk.ints v hv.lt]

theorem IndexIs.keeps {site : Site} {code : List Instr} {s s' : Frame α} (hk : s.Keeps code.length s')
    {idx : List Coord} {is : List Nat} (hc : ∀ c ∈ idx, c.Live site code) : IndexIs s' idx is ↔ IndexIs s idx is := by
  induction idx generalizing is with
  | nil => simp [IndexIs]
  | cons c idx ih =>
    rw [List.forall_mem_cons] at hc
    cases is with
    | nil => simp [IndexIs]
    | cons i is =>
      have htail : IndexIs s' idx is ↔ IndexIs s idx is := ih hc.2
      unfold IndexIs at htail ⊢
      rw [List.forall₂_cons, List.forall₂_cons, Coord.Is.keeps hk hc.1, htail]

/-! ## Emission -/

/-- The emission succeeds, keeps to the site and reads no input; its result and the code
afterwards satisfy `Q`. -/
def Emits {β : Type} (site : Site) (c : Code β) (code : List Instr) (Q : β → List Instr → Prop) : Prop :=
  ∃ b code', c.run code = .ok (b, code') ∧ site.Grows 0 code code' ∧ Q b code'

theorem Emits.pure {β : Type} {site : Site} {code : List Instr} {Q : β → List Instr → Prop} {b : β} (h : Q b code) :
    Emits site (pure b) code Q := ⟨b, code, rfl, .refl _ _ _, h⟩

theorem Emits.bind {β γ : Type} {site : Site} {c : Code β} {f : β → Code γ} {code : List Instr}
    {Q : β → List Instr → Prop} {R : γ → List Instr → Prop} (hc : Emits site c code Q)
    (hf : ∀ {b code'}, site.Grows 0 code code' → Q b code' → Emits site (f b) code' R) :
    Emits site (c >>= f) code R := by
  obtain ⟨b, code', hrun, hgrows, hQ⟩ := hc
  obtain ⟨d, code'', hrun', hgrows', hR⟩ := hf hgrows hQ
  refine ⟨d, code'', ?_, hgrows.trans hgrows', hR⟩
  rw [StateT.run_bind, hrun]
  exact hrun'

theorem Emits.lift {β : Type} {site : Site} {code : List Instr} {r : Except Fault β} {b : β} (h : r = .ok b) :
    Emits site (liftM r) code fun b' code' => b' = b ∧ code' = code :=
  ⟨b, code, by rw [h]; rfl, .refl _ _ _, rfl, rfl⟩

/-- One instruction whose value is an integer. -/
theorem Emits.emit {site : Site} {code : List Instr} {i : Instr} (h : site.Admits 0 code i) :
    Emits site (emit i) code fun v code' => v = code.length ∧ code' = code ++ [i] :=
  ⟨code.length, code ++ [i], rfl, .push h, rfl, rfl⟩

/-- The emission computes an integer: from a frame with enough registers in which `P` holds
of `z`, the new code runs and leaves `z` in the register of the result. -/
def ComputesInt (site : Site) (code : List Instr) (P : ∀ {α : Type}, Frame α → Nat → Prop) (v : Nat)
    (code' : List Instr) : Prop :=
  site.Live code' v .int ∧ ∀ {α : Type} (A : Arith α) (w : Wiring) (s : Frame α) (z : Nat),
    code'.length ≤ s.ints.size → P s z → ∃ s', Ran A w code code' s s' ∧ s'.ints[v]? = some (z : Int)

theorem admits_int {site : Site} {code : List Instr} (z : Int) : site.Admits 0 code (.int z) :=
  ⟨trivial, rfl, by simp [Instr.operands], by simp⟩

theorem admits_arith {site : Site} {code : List Instr} {op : IntOp} {u v : Nat} (hu : site.Live code u .int)
    (hv : site.Live code v .int) : site.Admits 0 code (.arith op u v) :=
  ⟨trivial, rfl, Site.live_two hu hv, by simp⟩

/-- A value combined with a constant. -/
theorem arithConst_emits {site : Site} {code : List Instr} (hbase : site.base ≤ code.length) (op : IntOp) {v n : Nat}
    (hn : n < 9223372036854775808) (hv : site.Live code v .int) :
    Emits site (do let c ← emit (.int (Word.signed n)); emit (.arith op v c)) code
      (ComputesInt site code fun s z => ∃ i : Nat, s.ints[v]? = some (i : Int) ∧ op.eval i n = .ok (z : Int)) := by
  refine .bind (.emit (admits_int _)) fun {c code'} hgrows ⟨hc, hcode'⟩ => ?_
  subst hc hcode'
  have hlive : site.Live (code ++ [.int (Word.signed n)]) code.length .int := Site.live_last hbase rfl
  have hadmits : site.Admits 0 (code ++ [.int (Word.signed n)]) (.arith op v code.length) :=
    admits_arith (hgrows.live hv) hlive
  refine ⟨_, _, rfl, .push hadmits, Site.live_last (by simp; omega) rfl, ?_⟩
  rintro α A w s z hsize ⟨i, hi, heval⟩
  simp only [List.length_append, List.length_singleton] at hsize
  obtain ⟨s₁, hran₁, hc⟩ : ∃ s₁, Ran A w code (code ++ [.int (Word.signed n)]) s s₁ ∧
      s₁.ints[code.length]? = some (Word.signed n) := Ran.int _ (by omega)
  rw [Word.signed_of_lt hn] at hc
  have hi₁ : s₁.ints[v]? = some (i : Int) := (hran₁.keeps.ints v hv.lt).trans hi
  have hsize₁ := hran₁.keeps.intCount
  have hroom : (code ++ [Instr.int (Word.signed n)]).length < s₁.ints.size := by simp; omega
  obtain ⟨s₂, hran₂, hz⟩ := Ran.arith hi₁ hc heval hroom
  exact ⟨s₂, hran₁.trans hran₂, hz⟩

/-! ## Offsets -/

/-- The sum so far: nothing yet, or a value. -/
def SumIs (s : Frame α) : Option Nat → Nat → Prop
  | none, z => z = 0
  | some v, z => s.ints[v]? = some (z : Int)

theorem SumIs.keeps {site : Site} {code : List Instr} {s s' : Frame α} (hk : s.Keeps code.length s') {sum : Option Nat}
    {z : Nat} (hlive : ∀ v, sum = some v → site.Live code v .int) (h : SumIs s sum z) : SumIs s' sum z := by
  cases sum with
  | none => exact h
  | some v => exact (hk.ints v (hlive v rfl).lt).trans h

/-- The term of one axis: coordinate times stride. -/
def axisTerm (v stride : Nat) : Code Nat :=
  if stride = 1 then pure v else do
    let scale ← emit (.int (Word.signed stride))
    emit (.arith .mul v scale)

theorem axisTerm_emits {site : Site} {code : List Instr} (hbase : site.base ≤ code.length) {v stride : Nat}
    (hn : stride < 9223372036854775808) (hv : site.Live code v .int) :
    Emits site (axisTerm v stride) code
      (ComputesInt site code fun s z => ∃ i : Nat, s.ints[v]? = some (i : Int) ∧ z = i * stride ∧
        i * stride < 9223372036854775808) := by
  unfold axisTerm
  split
  · rename_i h1
    refine .pure ⟨hv, fun A w s z _ hz => ⟨s, .refl A w code s, ?_⟩⟩
    obtain ⟨i, hi, rfl, -⟩ := hz
    rw [h1, Nat.mul_one, hi]
  · obtain ⟨u, code', hrun, hgrows, hlive, hcomp⟩ := arithConst_emits hbase .mul hn hv
    refine ⟨u, code', hrun, hgrows, hlive, fun A w s z hsize hz => hcomp A w s z hsize ?_⟩
    obtain ⟨i, hi, rfl, hlt⟩ := hz
    exact ⟨i, hi, IntOp.eval_mul hlt⟩

/-- The sum with one more term. -/
def addTo (sum : Option Nat) (term : Nat) : Code Nat :=
  match sum with
  | none => pure term
  | some before => emit (.arith .add before term)

theorem addTo_emits {site : Site} {code : List Instr} (hbase : site.base ≤ code.length) {sum : Option Nat} {term : Nat}
    (hsum : ∀ v, sum = some v → site.Live code v .int) (hterm : site.Live code term .int) :
    Emits site (addTo sum term) code
      (ComputesInt site code fun s z => ∃ a b : Nat, SumIs s sum a ∧ s.ints[term]? = some (b : Int) ∧ z = a + b ∧
        a + b < 9223372036854775808) := by
  cases sum with
  | none =>
    refine .pure ⟨hterm, fun A w s z _ hz => ⟨s, .refl A w code s, ?_⟩⟩
    obtain ⟨a, b, ha, hb, rfl, -⟩ := hz
    obtain rfl : a = 0 := ha
    rw [Nat.zero_add, hb]
  | some before =>
    have hadmits : site.Admits 0 code (.arith .add before term) := admits_arith (hsum before rfl) hterm
    refine ⟨_, _, rfl, .push hadmits, Site.live_last hbase rfl, fun A w s z hsize hz => ?_⟩
    obtain ⟨a, b, ha, hb, rfl, hlt⟩ := hz
    rw [List.length_append, List.length_singleton] at hsize
    exact Ran.arith ha hb (IntOp.eval_add hlt) hsize

theorem addTerms_var {d : Nat} (hd : d ≠ 1) {v : Nat} {sum : Option Nat} {idx : List Coord} {shape : Shape} :
    addTerms sum (.var v :: idx) (d :: shape) (Shape.strides (d :: shape)) =
      axisTerm v (Shape.size shape) >>= fun term => addTo sum term >>= fun total =>
        addTerms (some total) idx shape (Shape.strides shape) := by
  rw [Shape.strides, addTerms, if_neg hd, axisTerm]
  unfold addTo
  cases sum <;> by_cases h1 : Shape.size shape = 1 <;> simp [h1]

/-- An axis of extent 1 or a constant coordinate adds nothing. -/
theorem addTerms_still {c : Coord} {d : Nat} (h : ¬ ∃ v, c = .var v ∧ d ≠ 1) {sum : Option Nat} {idx : List Coord}
    {shape : Shape} : addTerms sum (c :: idx) (d :: shape) (Shape.strides (d :: shape)) =
      addTerms sum idx shape (Shape.strides shape) := by
  cases c with
  | origin => rw [Shape.strides, addTerms]
  | var v =>
    have hd : d = 1 := Decidable.not_not.1 fun hd => h ⟨v, rfl, hd⟩
    rw [Shape.strides, addTerms, if_pos hd]

theorem still_eq_zero {c : Coord} {d : Nat} (h : ¬ ∃ v, c = .var v ∧ d ≠ 1) {s : Frame α} {i : Nat} (hi : c.Is s i)
    (hlt : i < d) : i = 0 := by
  cases c with
  | origin => exact hi
  | var v =>
    have hd : d = 1 := Decidable.not_not.1 fun hd => h ⟨v, rfl, hd⟩
    omega

/-- The terms of all axes add up to the offset. -/
theorem addTerms_emits {site : Site} {idx : List Coord} {shape : Shape} {code : List Instr} {sum : Option Nat}
    (hbase : site.base ≤ code.length) (hpos : shape.Positive) (hsize : Shape.size shape < 9223372036854775808)
    (hidx : ∀ c ∈ idx, c.Live site code) (hsum : ∀ v, sum = some v → site.Live code v .int) :
    Emits site (addTerms sum idx shape (Shape.strides shape)) code fun sum' code' =>
      (∀ v, sum' = some v → site.Live code' v .int) ∧
      ∀ {α : Type} (A : Arith α) (w : Wiring) (s : Frame α) (is : List Nat) (z : Nat), code'.length ≤ s.ints.size →
        IndexIs s idx is → Shape.Mem is shape → SumIs s sum z → z + Shape.offset is shape < 9223372036854775808 →
        ∃ s', Ran A w code code' s s' ∧ SumIs s' sum' (z + Shape.offset is shape) := by
  induction idx generalizing shape code sum with
  | nil =>
    have hnil : addTerms sum [] shape (Shape.strides shape) = pure sum := by unfold addTerms; rfl
    rw [hnil]
    refine .pure ⟨hsum, fun A w s is z _ hat hmem hz _ => ⟨s, .refl A w code s, ?_⟩⟩
    cases hat
    cases shape with
    | nil => exact hz
    | cons => exact hmem.elim
  | cons c idx ih =>
    rw [List.forall_mem_cons] at hidx
    cases shape with
    | nil =>
      have hnil : addTerms sum (c :: idx) [] (Shape.strides []) = pure sum := by
        unfold addTerms
        cases c <;> rfl
      rw [hnil]
      refine .pure ⟨hsum, fun A w s is z _ hat hmem => ?_⟩
      cases hat
      exact hmem.elim
    | cons d shape =>
      obtain ⟨hd, hpos⟩ := Shape.positive_cons.1 hpos
      have hinner : Shape.size shape < 9223372036854775808 :=
        Nat.lt_of_le_of_lt (Nat.le_mul_of_pos_left _ hd) hsize
      by_cases hmoves : ∃ v, c = .var v ∧ d ≠ 1
      · obtain ⟨v, rfl, hd1⟩ := hmoves
        rw [addTerms_var hd1]
        refine .bind (axisTerm_emits hbase hinner hidx.1) fun {term code₁} hg₁ ⟨hterm, hrun₁⟩ => ?_
        have hbase₁ := Nat.le_trans hbase hg₁.length_le
        have hsum₁ : ∀ v, sum = some v → site.Live code₁ v .int := fun v hv => hg₁.live (hsum v hv)
        refine .bind (addTo_emits hbase₁ hsum₁ hterm) fun {total code₂} hg₂ ⟨htotal, hrun₂⟩ => ?_
        have hbase₂ := Nat.le_trans hbase₁ hg₂.length_le
        have hidx₂ : ∀ c ∈ idx, c.Live site code₂ := fun c hc => ((hidx.2 c hc).grows hg₁).grows hg₂
        have hsum₂ : ∀ v, some total = some v → site.Live code₂ v .int := fun v hv => Option.some.inj hv ▸ htotal
        obtain ⟨sum', code₃, hrun, hg₃, hlive, hrun₃⟩ := ih hbase₂ hpos hinner hidx₂ hsum₂
        refine ⟨sum', code₃, hrun, hg₃, hlive, fun A w s is z hregs hat hmem hz hlt => ?_⟩
        cases hat with
        | @cons _ i _ is hi hat =>
          rw [Shape.offset, ← Nat.add_assoc] at hlt ⊢
          have hlen₂ := hg₂.length_le
          have hlen₃ := hg₃.length_le
          obtain ⟨s₁, hran₁, ht⟩ := hrun₁ A w s (i * Shape.size shape) (by omega) ⟨i, hi, rfl, by omega⟩
          have hregs₁ := hran₁.keeps.intCount
          have hz₁ := hz.keeps hran₁.keeps hsum
          obtain ⟨s₂, hran₂, ht₂⟩ := hrun₂ A w s₁ (z + i * Shape.size shape) (by omega)
            ⟨z, i * Shape.size shape, hz₁, ht, rfl, by omega⟩
          have hregs₂ := hran₂.keeps.intCount
          have hran := hran₁.trans hran₂
          have hat₂ := (IndexIs.keeps hran.keeps hidx.2).2 hat
          obtain ⟨s₃, hran₃, hsum₃⟩ := hrun₃ A w s₂ is _ (by omega) hat₂ hmem.2 ht₂ hlt
          exact ⟨s₃, hran.trans hran₃, hsum₃⟩
      · rw [addTerms_still hmoves]
        obtain ⟨sum', code', hrun, hgrows, hlive, hrun'⟩ := ih hbase hpos hinner hidx.2 hsum
        refine ⟨sum', code', hrun, hgrows, hlive, fun A w s is z hregs hat hmem hz hlt => ?_⟩
        cases hat with
        | @cons _ i _ is hi hat =>
          have hzero : i = 0 := still_eq_zero hmoves hi hmem.1
          rw [hzero, Shape.offset, Nat.zero_mul, Nat.zero_add] at hlt ⊢
          exact hrun' A w s is z hregs hat hmem.2 hz hlt

theorem linearOffset_emits {site : Site} {idx : List Coord} {shape : Shape} {code : List Instr}
    (hbase : site.base ≤ code.length) (hpos : shape.Positive) (hsize : Shape.size shape < 9223372036854775808)
    (hidx : ∀ c ∈ idx, c.Live site code) :
    Emits site (linearOffset idx shape) code
      (ComputesInt site code fun s z => ∃ is, IndexIs s idx is ∧ Shape.Mem is shape ∧ z = Shape.offset is shape) := by
  have hstrides := Shape.rowMajorStrides_eq_ok hpos (Nat.lt_trans hsize (by decide))
  refine .bind (.lift hstrides) fun {strides code'} _ ⟨hb, hcode⟩ => ?_
  rw [hb, hcode]
  have hnone : ∀ v, none = some v → site.Live code v .int := by simp
  refine .bind (addTerms_emits hbase hpos hsize hidx hnone) fun {sum code'} hgrows ⟨hlive, hrun⟩ => ?_
  have hbase' := Nat.le_trans hbase hgrows.length_le
  cases sum with
  | some offset =>
    refine .pure ⟨hlive offset rfl, fun A w s z hregs hz => ?_⟩
    obtain ⟨is, hat, hmem, rfl⟩ := hz
    have hlt := Shape.offset_lt hmem
    obtain ⟨s', hran, hsum⟩ := hrun A w s is 0 hregs hat hmem rfl (by omega)
    rw [Nat.zero_add] at hsum
    exact ⟨s', hran, hsum⟩
  | none =>
    refine ⟨_, _, rfl, .push (admits_int 0), Site.live_last hbase' rfl, fun A w s z hregs hz => ?_⟩
    obtain ⟨is, hat, hmem, rfl⟩ := hz
    have hlt := Shape.offset_lt hmem
    rw [List.length_append, List.length_singleton] at hregs
    obtain ⟨s', hran, hsum⟩ := hrun A w s is 0 (by omega) hat hmem rfl (by omega)
    obtain ⟨s'', hran', hv⟩ : ∃ s'', Ran A w code' (code' ++ [.int 0]) s' s'' ∧ s''.ints[code'.length]? = some 0 :=
      Ran.int 0 (by have := hran.keeps.intCount; omega)
    have hzero : Shape.offset is shape = 0 := by
      rw [Nat.zero_add] at hsum
      exact hsum
    rw [hzero]
    exact ⟨s'', hran.trans hran', hv⟩

/-! ## Coordinates of an offset -/

/-- Coordinates depend on the offset only up to a multiple of the size. -/
theorem indexOf_mod (shape : Shape) (k : Nat) :
    Shape.indexOf shape (k % Shape.size shape) = Shape.indexOf shape k := by
  cases shape with
  | nil => rfl
  | cons d shape =>
    rw [Shape.indexOf, Shape.indexOf, Shape.size, Nat.mod_mul_left_div_self, Nat.mod_mod,
      Nat.mod_mod_of_dvd _ (Nat.dvd_mul_left _ _)]

/-- The quotient by the stride of one axis. -/
def axisQuotient (flat stride : Nat) : Code Nat :=
  if stride = 1 then pure flat else do
    let divisor ← emit (.int (Word.signed stride))
    emit (.arith .div flat divisor)

/-- The coordinate along one axis, from the quotient. -/
def axisCoordinate (outermost : Bool) (quotient extent : Nat) : Code Nat :=
  if outermost then pure quotient else do
    let modulus ← emit (.int (Word.signed extent))
    emit (.arith .mod quotient modulus)

theorem splitOffset_cons {d : Nat} (hd : d ≠ 1) (flat : Nat) (outermost : Bool) (shape : Shape) :
    splitOffset flat outermost (d :: shape) (Shape.strides (d :: shape)) =
      axisQuotient flat (Shape.size shape) >>= fun quotient => axisCoordinate outermost quotient d >>= fun c =>
        splitOffset flat false shape (Shape.strides shape) >>= fun rest => pure (.var c :: rest) := by
  rw [Shape.strides, splitOffset, if_neg hd, axisQuotient]
  unfold axisCoordinate
  cases outermost <;> by_cases h1 : Shape.size shape = 1 <;> simp [h1]

theorem axisQuotient_emits {site : Site} {code : List Instr} (hbase : site.base ≤ code.length) {flat stride : Nat}
    (hpos : 0 < stride) (hn : stride < 9223372036854775808) (hv : site.Live code flat .int) :
    Emits site (axisQuotient flat stride) code
      (ComputesInt site code fun s z => ∃ k : Nat, s.ints[flat]? = some (k : Int) ∧ z = k / stride ∧
        k < 9223372036854775808) := by
  unfold axisQuotient
  split
  · rename_i h1
    refine .pure ⟨hv, fun A w s z _ hz => ⟨s, .refl A w code s, ?_⟩⟩
    obtain ⟨k, hk, rfl, -⟩ := hz
    rw [h1, Nat.div_one, hk]
  · obtain ⟨u, code', hrun, hgrows, hlive, hcomp⟩ := arithConst_emits hbase .div hn hv
    refine ⟨u, code', hrun, hgrows, hlive, fun A w s z hsize hz => hcomp A w s z hsize ?_⟩
    obtain ⟨k, hk, rfl, hlt⟩ := hz
    exact ⟨k, hk, IntOp.eval_div hlt hpos⟩

theorem axisCoordinate_emits {site : Site} {code : List Instr} (hbase : site.base ≤ code.length) {outermost : Bool}
    {quotient extent : Nat} (hpos : 0 < extent) (hn : extent < 9223372036854775808)
    (hv : site.Live code quotient .int) :
    Emits site (axisCoordinate outermost quotient extent) code
      (ComputesInt site code fun s z => ∃ q : Nat, s.ints[quotient]? = some (q : Int) ∧ z = q % extent ∧
        q < 9223372036854775808 ∧ (outermost = true → q < extent)) := by
  unfold axisCoordinate
  split
  · rename_i h1
    refine .pure ⟨hv, fun A w s z _ hz => ⟨s, .refl A w code s, ?_⟩⟩
    obtain ⟨q, hq, rfl, -, hlt⟩ := hz
    rw [Nat.mod_eq_of_lt (hlt h1), hq]
  · obtain ⟨u, code', hrun, hgrows, hlive, hcomp⟩ := arithConst_emits hbase .mod hn hv
    refine ⟨u, code', hrun, hgrows, hlive, fun A w s z hsize hz => hcomp A w s z hsize ?_⟩
    obtain ⟨q, hq, rfl, hlt, -⟩ := hz
    exact ⟨q, hq, IntOp.eval_mod hlt hpos⟩

/-- The emission computes an index vector of the rank. -/
def ComputesIndex (site : Site) (code : List Instr) (rank : Nat) (P : ∀ {α : Type}, Frame α → List Nat → Prop)
    (idx : List Coord) (code' : List Instr) : Prop :=
  idx.length = rank ∧ (∀ c ∈ idx, c.Live site code') ∧ ∀ {α : Type} (A : Arith α) (w : Wiring) (s : Frame α) (is : List Nat),
    code'.length ≤ s.ints.size → P s is → ∃ s', Ran A w code code' s s' ∧ IndexIs s' idx is

/-- The outermost axis that moves needs no remainder because the offset is inside the shape. -/
theorem splitOffset_emits {site : Site} {shape : Shape} {code : List Instr} {flat : Nat} (outermost : Bool)
    (hbase : site.base ≤ code.length) (hpos : shape.Positive) (hsize : Shape.size shape < 9223372036854775808)
    (hflat : site.Live code flat .int) :
    Emits site (splitOffset flat outermost shape (Shape.strides shape)) code
      (ComputesIndex site code shape.length fun s is => ∃ k : Nat, s.ints[flat]? = some (k : Int) ∧ k < 9223372036854775808 ∧
        (outermost = true → k < Shape.size shape) ∧ is = Shape.indexOf shape k) := by
  induction shape generalizing code outermost with
  | nil =>
    refine .pure ⟨rfl, by simp, fun A w s is _ hk => ⟨s, .refl A w code s, ?_⟩⟩
    obtain ⟨k, -, -, -, rfl⟩ := hk
    exact .nil
  | cons d shape ih =>
    obtain ⟨hd, htail⟩ := Shape.positive_cons.1 hpos
    have hpos' := Shape.size_pos htail
    have hinner : Shape.size shape < 9223372036854775808 := Nat.lt_of_le_of_lt (Nat.le_mul_of_pos_left _ hd) hsize
    have hextent : d < 9223372036854775808 := Nat.lt_of_le_of_lt (Nat.le_mul_of_pos_right _ hpos') hsize
    by_cases hd1 : d = 1
    · subst hd1
      rw [Shape.strides, splitOffset, if_pos rfl]
      refine .bind (ih outermost hbase htail hinner hflat) fun {idx code'} hgrows hrest => ?_
      obtain ⟨hlen, hlive, hrun⟩ := hrest
      refine .pure ⟨congrArg (· + 1) hlen, List.forall_mem_cons.2 ⟨trivial, hlive⟩, fun A w s is hregs hk => ?_⟩
      obtain ⟨k, hk, hlt, hout, rfl⟩ := hk
      rw [Shape.size, Nat.one_mul] at hout
      obtain ⟨s', hran, hidx⟩ := hrun A w s (Shape.indexOf shape k) hregs ⟨k, hk, hlt, hout, rfl⟩
      refine ⟨s', hran, ?_⟩
      rw [Shape.indexOf, indexOf_mod]
      exact .cons (Nat.mod_one _) hidx
    · rw [splitOffset_cons hd1]
      refine .bind (axisQuotient_emits hbase hpos' hinner hflat) fun {quotient code₁} hg₁ hquotient => ?_
      obtain ⟨hq, hrun₁⟩ := hquotient
      have hbase₁ := Nat.le_trans hbase hg₁.length_le
      refine .bind (axisCoordinate_emits hbase₁ hd hextent hq) fun {c code₂} hg₂ hcoordinate => ?_
      obtain ⟨hc, hrun₂⟩ := hcoordinate
      have hbase₂ := Nat.le_trans hbase₁ hg₂.length_le
      refine .bind (ih false hbase₂ htail hinner (hg₂.live (hg₁.live hflat))) fun {idx code₃} hg₃ hrest => ?_
      obtain ⟨hlen, hlive, hrun₃⟩ := hrest
      refine .pure ⟨congrArg (· + 1) hlen, List.forall_mem_cons.2 ⟨hg₃.live hc, hlive⟩, fun A w s is hregs hk => ?_⟩
      obtain ⟨k, hk, hlt, hout, rfl⟩ := hk
      have hlen₂ := hg₂.length_le
      have hlen₃ := hg₃.length_le
      obtain ⟨s₁, hran₁, hq⟩ := hrun₁ A w s (k / Shape.size shape) (by omega) ⟨k, hk, rfl, hlt⟩
      have hregs₁ := hran₁.keeps.intCount
      have hq63 : k / Shape.size shape < 9223372036854775808 := Nat.lt_of_le_of_lt (Nat.div_le_self _ _) hlt
      have hqd : outermost = true → k / Shape.size shape < d := fun h =>
        Nat.div_lt_of_lt_mul (Nat.mul_comm d _ ▸ hout h)
      obtain ⟨s₂, hran₂, hc'⟩ := hrun₂ A w s₁ (k / Shape.size shape % d) (by omega) ⟨_, hq, rfl, hq63, hqd⟩
      have hregs₂ := hran₂.keeps.intCount
      have hran := hran₁.trans hran₂
      obtain ⟨s₃, hran₃, hidx⟩ := hrun₃ A w s₂ (Shape.indexOf shape k) (by omega)
        ⟨k, (hran.keeps.ints flat hflat.lt).trans hk, hlt, by simp, rfl⟩
      refine ⟨s₃, hran.trans hran₃, ?_⟩
      rw [Shape.indexOf, indexOf_mod]
      exact .cons ((hran₃.keeps.ints c hc.lt).trans hc') hidx

/-- The coordinates of the element with the same row-major number in another shape. -/
theorem reshapeIndex_emits {site : Site} {idx : List Coord} {output input : Shape} {code : List Instr}
    (hbase : site.base ≤ code.length) (hpos : output.Positive) (hpos' : input.Positive)
    (hsize : Shape.size output = Shape.size input) (hlt : Shape.size output < 9223372036854775808)
    (hlen : idx.length = output.length) (hidx : ∀ c ∈ idx, c.Live site code) :
    Emits site (reshapeIndex idx output input) code
      (ComputesIndex site code input.length fun s js => ∃ is, IndexIs s idx is ∧ Shape.Mem is output ∧
        js = Shape.indexOf input (Shape.offset is output)) := by
  unfold reshapeIndex
  by_cases heq : output = input
  · subst heq
    rw [if_pos rfl]
    refine .pure ⟨hlen, hidx, fun A w s js _ hjs => ⟨s, .refl A w code s, ?_⟩⟩
    obtain ⟨is, hat, hmem, rfl⟩ := hjs
    rwa [Shape.indexOf_offset hmem]
  · rw [if_neg heq]
    refine .bind (linearOffset_emits hbase hpos hlt hidx) fun {flat code₁} hg₁ ⟨hflat, hrun₁⟩ => ?_
    have hlt' : Shape.size input < 9223372036854775808 := hsize ▸ hlt
    have hstrides := Shape.rowMajorStrides_eq_ok hpos' (Nat.lt_trans hlt' (by decide))
    refine .bind (.lift hstrides) fun {strides code'} _ ⟨hb, hcode⟩ => ?_
    rw [hb, hcode]
    have hbase₁ := Nat.le_trans hbase hg₁.length_le
    obtain ⟨idx', code₂, hrun, hg₂, hlen', hlive, hrun₂⟩ := splitOffset_emits true hbase₁ hpos' hlt' hflat
    refine ⟨idx', code₂, hrun, hg₂, hlen', hlive, fun A w s js hregs hjs => ?_⟩
    obtain ⟨is, hat, hmem, rfl⟩ := hjs
    have hoff := Shape.offset_lt hmem
    have hlen₂ := hg₂.length_le
    obtain ⟨s₁, hran₁, hv⟩ := hrun₁ A w s _ (by omega) ⟨is, hat, hmem, rfl⟩
    have hregs₁ := hran₁.keeps.intCount
    obtain ⟨s₂, hran₂, hjs⟩ := hrun₂ A w s₁ _ (by omega) ⟨_, hv, by omega, fun _ => by omega, rfl⟩
    exact ⟨s₂, hran₁.trans hran₂, hjs⟩

/-! ## Coordinates of an operand -/

/-- A stretched operand is read where its own axes say, at 0 along extents of 1. -/
theorem broadcastIndex_is {site : Site} {code : List Instr} {operand shape : Shape} (h : Shape.Stretches operand shape)
    {idx : List Coord} (hlen : idx.length = shape.length) (hidx : ∀ c ∈ idx, c.Live site code) :
    ∃ inner, broadcastIndex .origin idx operand = .ok inner ∧ inner.length = operand.length ∧
      (∀ c ∈ inner, c.Live site code) ∧ ∀ {α : Type} {s : Frame α} {is : List Nat}, IndexIs s idx is →
        IndexIs s inner (Shape.restrict operand is) := by
  have hle : ¬ idx.length < operand.length := by have := h.1; omega
  rw [broadcastIndex, if_neg hle]
  refine ⟨_, rfl, ?_, ?_, ?_⟩
  · simp only [List.length_map, List.length_zip, List.length_drop]
    omega
  · intro c hc
    obtain ⟨⟨d, i⟩, hmem, rfl⟩ := List.mem_map.1 hc
    simp only
    split
    · trivial
    · exact hidx i (List.mem_of_mem_drop (List.of_mem_zip hmem).2)
  · intro α s is his
    have hlen' : idx.length = is.length := his.length_eq
    rw [Shape.restrict, hlen']
    have hdrop : List.Forall₂ (Coord.Is s) (idx.drop (is.length - operand.length))
        (is.drop (is.length - operand.length)) := List.forall₂_drop _ his
    generalize idx.drop (is.length - operand.length) = cs at hdrop
    generalize is.drop (is.length - operand.length) = js at hdrop
    clear h hle
    induction hdrop generalizing operand with
    | nil => simp [IndexIs]
    | cons hc _ ih =>
      cases operand with
      | nil => exact .nil
      | cons d operand =>
        refine .cons ?_ ih
        simp only
        split
        · rfl
        · exact hc

/-- A permuted operand is read at the coordinates put back in its own order. -/
theorem permuteIndex_is {site : Site} {code : List Instr} {perm : List Nat} {rank : Nat} (h : Shape.IsPerm rank perm)
    {idx : List Coord} (hlen : idx.length = rank) (hidx : ∀ c ∈ idx, c.Live site code) :
    ∃ inner, permuteIndex .origin idx perm = .ok inner ∧ inner.length = rank ∧ (∀ c ∈ inner, c.Live site code) ∧
      ∀ {α : Type} {s : Frame α} {is : List Nat}, IndexIs s idx is → IndexIs s inner (Shape.unpermute perm is) := by
  obtain ⟨inner, hinner, hlen', hget⟩ := Shape.permuteIndex_eq_ok h .origin hlen
  refine ⟨inner, hinner, hlen', ?_, ?_⟩
  · intro c hc
    obtain ⟨a, hca⟩ := List.mem_iff_getElem?.1 hc
    have ha := (List.getElem?_eq_some_iff.1 hca).1
    rw [hget a (by omega)] at hca
    exact hidx c (List.mem_of_getElem? hca)
  · intro α s is his
    have hislen : is.length = rank := his.length_eq.symm.trans hlen
    refine List.forall₂_iff_get.2 ⟨?_, fun a ha ha' => ?_⟩
    · rw [hlen', Shape.unpermute, List.length_map, List.length_range, h.1]
    · have hrank : a < rank := by omega
      have hp := h.idxOf_lt hrank
      have hc := hget a hrank
      have hi := Shape.getElem?_unpermute h hislen hrank
      rw [List.getElem?_eq_getElem ha, List.getElem?_eq_getElem (by omega), Option.some.injEq] at hc
      rw [List.getElem?_eq_getElem ha', List.getElem?_eq_getElem (by omega), Option.some.injEq] at hi
      rw [List.get_eq_getElem, List.get_eq_getElem, hc, hi]
      exact (List.forall₂_iff_get.1 his).2 _ (by omega) (by omega)

end Lowering

end TensorLoom
