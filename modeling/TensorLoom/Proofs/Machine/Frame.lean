import TensorLoom.Proofs.Machine.Walk
/-
# Running straight code

Straight code writes the registers of its own instructions and nothing else
(`Frame.Keeps`). `Ran` says that the part by which code has grown runs from one frame to
another; there is one lemma for each instruction that defines a value.
-/

namespace TensorLoom

variable {α : Type}

/-- The registers below `n`, the number of registers and the memory are the same. -/
structure Frame.Keeps (n : Nat) (s s' : Frame α) : Prop where
  ints : ∀ v < n, s'.ints[v]? = s.ints[v]?
  floats : ∀ v < n, s'.floats[v]? = s.floats[v]?
  intCount : s'.ints.size = s.ints.size
  floatCount : s'.floats.size = s.floats.size
  memory : s'.memory = s.memory

namespace Frame.Keeps

variable {n m : Nat} {s s' s'' : Frame α}

theorem refl (n : Nat) (s : Frame α) : Keeps n s s := ⟨fun _ _ => rfl, fun _ _ => rfl, rfl, rfl, rfl⟩

theorem trans (hnm : n ≤ m) (h : Keeps n s s') (h' : Keeps m s' s'') : Keeps n s s'' where
  ints v hv := (h'.ints v (Nat.lt_of_lt_of_le hv hnm)).trans (h.ints v hv)
  floats v hv := (h'.floats v (Nat.lt_of_lt_of_le hv hnm)).trans (h.floats v hv)
  intCount := h'.intCount.trans h.intCount
  floatCount := h'.floatCount.trans h.floatCount
  memory := h'.memory.trans h.memory

theorem setInt (n : Nat) (z : Int) (s : Frame α) : Keeps n s { s with ints := s.ints.setIfInBounds n z } where
  ints _ hv := Array.getElem?_setIfInBounds_ne (Nat.ne_of_gt hv)
  floats _ _ := rfl
  intCount := Array.size_setIfInBounds
  floatCount := rfl
  memory := rfl

theorem setFloat (n : Nat) (a : α) (s : Frame α) : Keeps n s { s with floats := s.floats.setIfInBounds n a } where
  ints _ _ := rfl
  floats _ hv := Array.getElem?_setIfInBounds_ne (Nat.ne_of_gt hv)
  intCount := rfl
  floatCount := Array.size_setIfInBounds
  memory := rfl

end Frame.Keeps

/-- The instructions by which `code` has grown to `code'` are plain and run from `s` to `s'`. -/
def Ran (A : Arith α) (w : Wiring) (code code' : List Instr) (s s' : Frame α) : Prop :=
  ∃ new, code' = code ++ new ∧ (∀ i ∈ new, i.Plain) ∧ exec A w code.length new s = .ok s' ∧
    s.Keeps code.length s'

namespace Ran

variable {A : Arith α} {w : Wiring} {code code' code'' : List Instr} {s s' s'' : Frame α}

theorem refl (A : Arith α) (w : Wiring) (code : List Instr) (s : Frame α) : Ran A w code code s s :=
  ⟨[], by simp, by simp, rfl, .refl _ _⟩

theorem trans (h : Ran A w code code' s s') (h' : Ran A w code' code'' s' s'') : Ran A w code code'' s s'' := by
  obtain ⟨a, rfl, hplain, hrun, hkeep⟩ := h
  obtain ⟨b, rfl, hplain', hrun', hkeep'⟩ := h'
  refine ⟨a ++ b, by simp, ?_, ?_, hkeep.trans (by simp) hkeep'⟩
  · intro i hi
    rcases List.mem_append.1 hi with hi | hi
    · exact hplain i hi
    · exact hplain' i hi
  · rw [List.length_append] at hrun'
    rw [exec_append A w (.of_plain hplain), hrun]
    exact hrun'

theorem keeps (h : Ran A w code code' s s') : s.Keeps code.length s' := by
  obtain ⟨_, _, _, _, hkeep⟩ := h
  exact hkeep

theorem exec {new : List Instr} (h : Ran A w code (code ++ new) s s') :
    TensorLoom.exec A w code.length new s = .ok s' := by
  obtain ⟨new', heq, _, hrun, _⟩ := h
  rwa [List.append_cancel_left heq]

theorem one {i : Instr} (hplain : i.Plain) (hact : act A w code.length i s = .ok s') (hkeep : s.Keeps code.length s') :
    Ran A w code (code ++ [i]) s s' := by
  refine ⟨[i], rfl, by simpa using hplain, ?_, hkeep⟩
  rw [exec_plain A w hplain, hact]
  rfl

/-- An instruction that sets its integer register. -/
theorem setInt {i : Instr} (hplain : i.Plain) {z : Int} (hact : act A w code.length i s = s.setInt code.length z)
    (hsize : code.length < s.ints.size) :
    ∃ s', Ran A w code (code ++ [i]) s s' ∧ s'.ints[code.length]? = some z := by
  refine ⟨_, one hplain ?_ (.setInt code.length z s), by simp [hsize]⟩
  rw [hact, Frame.setInt, if_pos hsize]

/-- An instruction that sets its element register. -/
theorem setFloat {i : Instr} (hplain : i.Plain) {a : α} (hact : act A w code.length i s = s.setFloat code.length a)
    (hsize : code.length < s.floats.size) :
    ∃ s', Ran A w code (code ++ [i]) s s' ∧ s'.floats[code.length]? = some a := by
  refine ⟨_, one hplain ?_ (.setFloat code.length a s), by simp [hsize]⟩
  rw [hact, Frame.setFloat, if_pos hsize]

theorem int (z : Int) (hsize : code.length < s.ints.size) :
    ∃ s', Ran A w code (code ++ [.int z]) s s' ∧ s'.ints[code.length]? = some z :=
  setInt (i := .int z) trivial rfl hsize

theorem arith {op : IntOp} {u v : Nat} {x y z : Int} (hu : s.ints[u]? = some x) (hv : s.ints[v]? = some y)
    (heval : op.eval x y = .ok z) (hsize : code.length < s.ints.size) :
    ∃ s', Ran A w code (code ++ [.arith op u v]) s s' ∧ s'.ints[code.length]? = some z := by
  refine setInt (i := .arith op u v) trivial ?_ hsize
  simp [act, Frame.int, hu, hv, heval, bind, Except.bind]

theorem imm (c : Float) (hsize : code.length < s.floats.size) :
    ∃ s', Ran A w code (code ++ [.imm c]) s s' ∧ s'.floats[code.length]? = some (A.lit c) :=
  setFloat (i := .imm c) trivial rfl hsize

theorem unary {op : UnaryOp} {v : Nat} {a : α} (hv : s.floats[v]? = some a) (hsize : code.length < s.floats.size) :
    ∃ s', Ran A w code (code ++ [.unary op v]) s s' ∧ s'.floats[code.length]? = some (A.unary op a) := by
  refine setFloat (i := .unary op v) trivial ?_ hsize
  simp [act, Frame.float, hv, bind, Except.bind]

theorem binary {op : BinaryOp} {u v : Nat} {a b : α} (hu : s.floats[u]? = some a) (hv : s.floats[v]? = some b)
    (hsize : code.length < s.floats.size) :
    ∃ s', Ran A w code (code ++ [.binary op u v]) s s' ∧ s'.floats[code.length]? = some (A.binary op a b) := by
  refine setFloat (i := .binary op u v) trivial ?_ hsize
  simp [act, Frame.float, hu, hv, bind, Except.bind]

theorem load {n cell k v : Nat} {contents : Array α} {a : α} (hn : w.inputs[n]? = some cell)
    (hcell : s.memory[cell]? = some contents) (hk : contents[k]? = some a) (hv : s.ints[v]? = some (k : Int))
    (hsize : code.length < s.floats.size) :
    ∃ s', Ran A w code (code ++ [.load n v]) s s' ∧ s'.floats[code.length]? = some a := by
  refine setFloat (i := .load n v) trivial ?_ hsize
  have hneg : ¬ (k : Int) < 0 := by omega
  simp [act, hn, Frame.int, hv, Frame.read, hcell, elementAt, hneg, hk, bind, Except.bind]

end Ran

/-! ## Integer operations on indices -/

namespace IntOp

theorem eval_add {a b : Nat} (h : a + b < 9223372036854775808) :
    add.eval (a : Int) b = .ok ((a + b : Nat) : Int) :=
  Word.exact_eq_ok.2 ⟨by unfold Word.Fits; omega, by simp⟩

theorem eval_mul {a b : Nat} (h : a * b < 9223372036854775808) :
    mul.eval (a : Int) b = .ok ((a * b : Nat) : Int) := by
  refine Word.exact_eq_ok.2 ⟨?_, by simp⟩
  rw [← Int.natCast_mul]
  unfold Word.Fits
  omega

theorem exact_tdiv {a : Nat} (ha : a < 9223372036854775808) (b : Nat) :
    Word.exact ((a : Int).tdiv b) = .ok ((a / b : Nat) : Int) := by
  have hle := Nat.div_le_self a b
  rw [← Int.ofNat_tdiv]
  generalize a / b = q at hle ⊢
  exact Word.exact_eq_ok.2 ⟨by unfold Word.Fits; omega, rfl⟩

theorem eval_div {a b : Nat} (ha : a < 9223372036854775808) (hb : 0 < b) :
    div.eval (a : Int) b = .ok ((a / b : Nat) : Int) := by
  have : (b : Int) ≠ 0 := by omega
  rw [eval, if_neg this, exact_tdiv ha]

theorem eval_mod {a b : Nat} (ha : a < 9223372036854775808) (hb : 0 < b) :
    mod.eval (a : Int) b = .ok ((a % b : Nat) : Int) := by
  have : (b : Int) ≠ 0 := by omega
  rw [eval, if_neg this, exact_tdiv ha, ← Int.ofNat_tmod]
  rfl

end IntOp

end TensorLoom
