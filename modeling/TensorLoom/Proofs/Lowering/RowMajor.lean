import Mathlib.Data.Set.Function
import TensorLoom.Proofs.Lowering.Index
import TensorLoom.Proofs.Machine.Trace
/-
# Row-major index arithmetic is exact

Row-major numbering is the lexicographic order of the index vectors: it takes them one to
one onto the numbers below the size (`bijOn_offset`, `lex_iff_offset_lt`). The code that
is emitted for an offset computes this number, and the code for a reshaped index finds the
one index vector that has the same number in the other shape. Either piece of code is
straight, so it runs wherever it is emitted and leaves the loops around it open.
-/

namespace TensorLoom

/-! ## Numbers and the lexicographic order -/

namespace Shape

/-- Of two places in rows of length `n` the one in the earlier row comes first, and in one
row the one further to the left. -/
theorem row_lt_row_iff {i j n p q : Nat} (hp : p < n) (hq : q < n) :
    i * n + p < j * n + q ↔ i < j ∨ i = j ∧ p < q := by
  rcases Nat.lt_trichotomy i j with h | rfl | h
  · have hrow : (i + 1) * n ≤ j * n := Nat.mul_le_mul_right n h
    rw [Nat.succ_mul] at hrow
    omega
  · omega
  · have hrow : (j + 1) * n ≤ i * n := Nat.mul_le_mul_right n h
    rw [Nat.succ_mul] at hrow
    omega

/-- Row-major order is lexicographic order. -/
theorem lex_iff_offset_lt {is js : List Nat} {s : Shape} (hi : Mem is s) (hj : Mem js s) :
    List.Lex (· < ·) is js ↔ offset is s < offset js s := by
  induction s generalizing is js with
  | nil =>
    cases is <;> cases js <;> simp_all [Mem, offset]
  | cons d s ih =>
    cases is with
    | nil => exact hi.elim
    | cons i is =>
      cases js with
      | nil => exact hj.elim
      | cons j js =>
        rw [List.cons_lex_cons_iff, offset, offset, row_lt_row_iff (offset_lt hi.2) (offset_lt hj.2), ih hi.2 hj.2]

/-- Every number below the size is that of exactly one index vector. -/
theorem bijOn_offset (s : Shape) : Set.BijOn (fun is => offset is s) {is | Mem is s} {k | k < size s} :=
  ⟨fun _ hi => offset_lt hi, fun _ hi _ hj h => offset_inj hi hj h,
    fun k hk => ⟨indexOf s k, mem_indexOf hk, offset_indexOf hk⟩⟩

end Shape

namespace Lowering

/-! ## Straight code -/

/-- The coordinates that vary are integer values of the code. -/
def Indexes (code : List Instr) (idx : List Coord) : Prop :=
  ∀ v, Coord.var v ∈ idx → (code[v]?).bind Instr.resultKind = some .int

theorem Indexes.live {code : List Instr} {idx : List Coord} (h : Indexes code idx) :
    ∀ c ∈ idx, c.Live (.after code.length) code := by
  intro c hc
  cases c with
  | origin => trivial
  | var v => exact ⟨by simpa [Site.after] using Nat.lt_or_ge v code.length, h v hc⟩

/-- The emission puts its code behind `code`, where the same loops stay open. From any frame
with enough registers that holds an index vector of the shape in the coordinates `idx`, the
new code runs without a fault, whatever the elements are. It keeps the values before it, and
`Q` describes its result in the frame it ends with. -/
def Evaluates {β : Type} (c : Code β) (code : List Instr) (idx : List Coord) (shape : Shape)
    (Q : ∀ {α : Type}, β → List Nat → Frame α → Prop) : Prop :=
  ∃ b new, c.run code = .ok (b, code ++ new) ∧ openLoops 0 [] (code ++ new) = openLoops 0 [] code ∧
    ∀ {α : Type} (A : Arith α) (w : Wiring) (s : Frame α) (is : List Nat), (code ++ new).length ≤ s.ints.size →
      IndexIs s idx is → Shape.Mem is shape →
      ∃ s', exec A w code.length new s = .ok s' ∧ s.Keeps code.length s' ∧ Q b is s'

section
variable {β : Type} {c : Code β} {code : List Instr} {idx : List Coord} {shape : Shape}

theorem Evaluates.mono {Q R : ∀ {α : Type}, β → List Nat → Frame α → Prop} (h : Evaluates c code idx shape Q)
    (hQ : ∀ {α : Type} {b : β} {is : List Nat} {s : Frame α}, Shape.Mem is shape → Q b is s → R b is s) :
    Evaluates c code idx shape R := by
  obtain ⟨b, new, hrun, hloops, heval⟩ := h
  refine ⟨b, new, hrun, hloops, fun A w s is hregs hat hmem => ?_⟩
  obtain ⟨s', hexec, hkeeps, hs'⟩ := heval A w s is hregs hat hmem
  exact ⟨s', hexec, hkeeps, hQ hmem hs'⟩

/-- Code that keeps to a site opens and closes nothing. -/
theorem Emits.evaluates {site : Site} {Q : ∀ {α : Type}, β → List Nat → Frame α → Prop}
    (h : Emits site c code fun b code' => ∀ {α : Type} (A : Arith α) (w : Wiring) (s : Frame α) (is : List Nat),
      code'.length ≤ s.ints.size → IndexIs s idx is → Shape.Mem is shape → ∃ s', Ran A w code code' s s' ∧ Q b is s') :
    Evaluates c code idx shape Q := by
  obtain ⟨b, _, hrun, ⟨new, rfl, hline⟩, hran⟩ := h
  refine ⟨b, new, hrun, ?_, fun A w s is hregs hat hmem => ?_⟩
  · rw [openLoops_append, openLoops_balanced (.of_plain hline.plain)]
  · obtain ⟨s', hran, hs'⟩ := hran A w s is hregs hat hmem
    exact ⟨s', hran.exec, hran.keeps, hs'⟩

theorem linearOffset_evaluates (hpos : shape.Positive) (hsize : Shape.size shape < 9223372036854775808)
    (hidx : Indexes code idx) :
    Evaluates (linearOffset idx shape) code idx shape fun v is s => s.ints[v]? = some (Shape.offset is shape : Int) := by
  have hbase : (Site.after code.length).base ≤ code.length := Nat.le_refl _
  obtain ⟨v, code', hrun, hgrows, -, hcomputes⟩ := linearOffset_emits hbase hpos hsize hidx.live
  exact Emits.evaluates ⟨v, code', hrun, hgrows, fun A w s is hregs hat hmem =>
    hcomputes A w s _ hregs ⟨is, hat, hmem, rfl⟩⟩

theorem reshapeIndex_evaluates {input : Shape} (hpos : shape.Positive) (hpos' : input.Positive)
    (hsame : Shape.size shape = Shape.size input) (hsize : Shape.size shape < 9223372036854775808)
    (hlen : idx.length = shape.length) (hidx : Indexes code idx) :
    Evaluates (reshapeIndex idx shape input) code idx shape fun inner is s =>
      IndexIs s inner (Shape.indexOf input (Shape.offset is shape)) := by
  have hbase : (Site.after code.length).base ≤ code.length := Nat.le_refl _
  obtain ⟨inner, code', hrun, hgrows, -, -, hcomputes⟩ :=
    reshapeIndex_emits hbase hpos hpos' hsame hsize hlen hidx.live
  exact Emits.evaluates ⟨inner, code', hrun, hgrows, fun A w s is hregs hat hmem =>
    hcomputes A w s _ hregs ⟨is, hat, hmem, rfl⟩⟩

end

/-- Index arithmetic is exact for every shape of fewer than 2^63 elements. The row-major
number takes the index vectors onto the numbers below the element count, one to one and in
lexicographic order, and this is the number that the code for an offset computes. The code
for a reshaped index computes the one index vector of the other shape that has the same
number. -/
theorem rowMajor_exact {shape : Shape} (hpos : shape.Positive) {n : Nat} (hcount : Shape.elementCount shape = .ok n)
    (hn : n < 9223372036854775808) :
    Set.BijOn (fun is => Shape.offset is shape) {is | Shape.Mem is shape} {k | k < n} ∧
    (∀ is js, Shape.Mem is shape → Shape.Mem js shape →
      (List.Lex (· < ·) is js ↔ Shape.offset is shape < Shape.offset js shape)) ∧
    ∀ (code : List Instr) (idx : List Coord), Indexes code idx → idx.length = shape.length →
      Evaluates (linearOffset idx shape) code idx shape
        (fun v is s => s.ints[v]? = some (Shape.offset is shape : Int)) ∧
      ∀ input : Shape, input.Positive → Shape.elementCount input = .ok n →
        Evaluates (reshapeIndex idx shape input) code idx shape fun inner is s =>
          ∃ js, IndexIs s inner js ∧
            ∀ ks, Shape.Mem ks input ∧ Shape.offset ks input = Shape.offset is shape ↔ ks = js := by
  obtain rfl := Shape.elementCount_eq_size hcount
  refine ⟨Shape.bijOn_offset shape, fun is js => Shape.lex_iff_offset_lt, fun code idx hidx hlen => ?_⟩
  refine ⟨linearOffset_evaluates hpos hn hidx, fun input hpos' hcount' => ?_⟩
  have hsame : Shape.size shape = Shape.size input := Shape.elementCount_eq_size hcount'
  refine (reshapeIndex_evaluates hpos hpos' hsame hn hlen hidx).mono fun {_ _ is _} hmem hindex => ?_
  have hlt : Shape.offset is shape < Shape.size input := hsame ▸ Shape.offset_lt hmem
  refine ⟨_, hindex, fun ks => ⟨?_, ?_⟩⟩
  · rintro ⟨hks, hoffset⟩
    rw [← hoffset, Shape.indexOf_offset hks]
  · rintro rfl
    exact ⟨Shape.mem_indexOf hlt, Shape.offset_indexOf hlt⟩

/-- Inside the turns 1 and 2 of two loops, before any index is computed. -/
def secondRow : Frame Float := ⟨#[1, 2, 0, 0, 0, 0, 0, 0, 0], #[], #[]⟩

/-- The last of six elements, with an axis of extent 1 between the loops or outside of them. -/
theorem rowMajor_exact_unitAxes :
    (∃ v new s', (linearOffset [.var 0, .origin, .var 1] [2, 1, 3]).run [.loop 2 3, .loop 3 1] =
        .ok (v, [.loop 2 3, .loop 3 1] ++ new) ∧
      exec Arith.double ⟨[], 0⟩ 2 new secondRow = .ok s' ∧ s'.ints[v]? = some 5) ∧
    ∃ inner new s', (reshapeIndex [.var 0, .origin, .var 1] [2, 1, 3] [1, 3, 2]).run [.loop 2 3, .loop 3 1] =
        .ok (inner, [.loop 2 3, .loop 3 1] ++ new) ∧
      exec Arith.double ⟨[], 0⟩ 2 new secondRow = .ok s' ∧ IndexIs s' inner [0, 2, 1] := by
  have hidx : Indexes [.loop 2 3, .loop 3 1] [.var 0, .origin, .var 1] := by
    intro v hv
    obtain rfl | rfl : v = 0 ∨ v = 1 := by simpa using hv
    · rfl
    · rfl
  have hat : IndexIs secondRow [.var 0, .origin, .var 1] [1, 0, 2] := .cons rfl (.cons rfl (.cons rfl .nil))
  have hmem : Shape.Mem [1, 0, 2] [2, 1, 3] := by simp [Shape.Mem]
  obtain ⟨-, -, hcode⟩ := rowMajor_exact (by decide : Shape.Positive [2, 1, 3]) rfl (by decide)
  obtain ⟨hlinear, hreshape⟩ := hcode _ _ hidx rfl
  constructor
  · obtain ⟨v, new, hrun, -, heval⟩ := hlinear
    have hnew : (linearOffset [.var 0, .origin, .var 1] [2, 1, 3]).run [.loop 2 3, .loop 3 1] =
      .ok (4, [.loop 2 3, .loop 3 1, .int 3, .arith .mul 0 2, .arith .add 3 1]) := rfl
    have hregs : ([.loop 2 3, .loop 3 1] ++ new : List Instr).length ≤ secondRow.ints.size := by
      cases hrun.symm.trans hnew
      decide
    obtain ⟨s', hexec, -, hv⟩ := heval Arith.double ⟨[], 0⟩ secondRow [1, 0, 2] hregs hat hmem
    exact ⟨v, new, s', hrun, hexec, hv⟩
  · obtain ⟨inner, new, hrun, -, heval⟩ := hreshape [1, 3, 2] (by decide) rfl
    have hnew : (reshapeIndex [.var 0, .origin, .var 1] [2, 1, 3] [1, 3, 2]).run [.loop 2 3, .loop 3 1] =
      .ok ([.origin, .var 6, .var 8], [.loop 2 3, .loop 3 1, .int 3, .arith .mul 0 2, .arith .add 3 1, .int 2,
        .arith .div 4 5, .int 2, .arith .mod 4 7]) := rfl
    have hregs : ([.loop 2 3, .loop 3 1] ++ new : List Instr).length ≤ secondRow.ints.size := by
      cases hrun.symm.trans hnew
      decide
    obtain ⟨s', hexec, -, js, hindex, hjs⟩ := heval Arith.double ⟨[], 0⟩ secondRow [1, 0, 2] hregs hat hmem
    obtain rfl : [0, 2, 1] = js := (hjs [0, 2, 1]).1 ⟨by simp [Shape.Mem], rfl⟩
    exact ⟨inner, new, s', hrun, hexec, hindex⟩

end Lowering

end TensorLoom
