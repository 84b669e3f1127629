import TensorLoom.Except
import TensorLoom.Machine
/-
# Kernels

A kernel is a program in the form in which it runs. It is told where the buffers of the
program lie and changes elements in them, and it may stop without coming to its end: the
loop machine on a fault, native code on a trap.
-/

namespace TensorLoom

variable {α : Type}

/-- The number of elements in each cell. -/
def Memory.lengths (memory : Memory α) (c : Nat) : Option Nat := (memory[c]?).map Array.size

theorem Memory.size_eq {memory memory' : Memory α} (h : memory.lengths = memory'.lengths) : memory.size = memory'.size := by
  have hle : ∀ {m m' : Memory α}, m.lengths = m'.lengths → m.size ≤ m'.size := by
    intro m m' h
    have hnone := congrFun h m'.size
    simpa [lengths] using hnone
  exact Nat.le_antisymm (hle h) (hle h.symm)

structure Kernel (α : Type) where
  /-- Runs over a memory in which `cells` places the buffers. -/
  run : (cells : List Nat) → Memory α → Except Fault (Memory α)
  /-- Elements change, but no cell grows or shrinks. -/
  lengths : ∀ {cells : List Nat} {memory memory' : Memory α}, run cells memory = .ok memory' →
    memory'.lengths = memory.lengths

/-! ## The machine as a kernel -/

theorem Memory.lengths_modify (memory : Memory α) (cell k : Nat) (a : α) :
    Memory.lengths (memory.modify cell (·.setIfInBounds k a)) = memory.lengths := by
  funext c
  by_cases hc : cell = c <;> simp [lengths, Array.getElem?_modify, hc, Function.comp_def]

section
variable {σ : Type} {P : σ → Prop}

/-- What every step keeps is kept by all of them. -/
theorem turns_keeps {step : Nat → σ → Except Fault σ} (hstep : ∀ {k s s'}, P s → step k s = .ok s' → P s') {n k : Nat}
    {s s' : σ} (hs : P s) (h : turns step n k s = .ok s') : P s' := by
  induction n generalizing k s with
  | zero =>
    cases h
    exact hs
  | succ n ih =>
    obtain ⟨s₁, hs₁, hrest⟩ := bind_eq_ok.1 h
    exact ih (hstep hs hs₁) hrest

/-- What every instruction and every start of a turn keeps is kept by a visit of the code. -/
theorem walk_keeps {act : ValueId → Instr → σ → Except Fault σ} {turn : ValueId → Nat → σ → Except Fault σ}
    (hact : ∀ {pos i s s'}, P s → act pos i s = .ok s' → P s') (hturn : ∀ {pos k s s'}, P s → turn pos k s = .ok s' → P s')
    {fuel pos : Nat} {code : List Instr} {s s' : σ} (hs : P s) (h : walk act turn fuel pos code s = .ok s') : P s' := by
  fun_induction walk act turn fuel pos code s generalizing s' with
  | case1 =>
    cases h
    exact hs
  | case2 => cases h
  | case3 => cases h
  | case4 fuel pos range stride code s body rest hsplit ihbody ihrest =>
    obtain ⟨s₁, hturns, hrest⟩ := bind_eq_ok.1 h
    refine ihrest s₁ (turns_keeps (fun hs hk => ?_) hs hturns) hrest
    obtain ⟨s₂, hstart, hbody⟩ := bind_eq_ok.1 hk
    exact ihbody s₂ (hturn hs hstart) hbody
  | case5 fuel pos i code s hloop ih =>
    obtain ⟨s₁, hs₁, hrest⟩ := bind_eq_ok.1 h
    exact ih s₁ (hact hs hs₁) hrest

end

theorem Frame.setInt_memory {s s' : Frame α} {v : ValueId} {z : Int} (h : s.setInt v z = .ok s') : s'.memory = s.memory := by
  unfold setInt at h
  split at h <;> cases h
  rfl

theorem Frame.setFloat_memory {s s' : Frame α} {v : ValueId} {a : α} (h : s.setFloat v a = .ok s') : s'.memory = s.memory := by
  unfold setFloat at h
  split at h <;> cases h
  rfl

theorem Frame.write_lengths {s s' : Frame α} {cell : Nat} {k : Int} {a : α} (h : s.write cell k a = .ok s') :
    s'.memory.lengths = s.memory.lengths := by
  unfold write at h
  split at h
  · cases h
  · split at h <;> cases h
    exact Memory.lengths_modify ..

theorem act_lengths {A : Arith α} {w : Wiring} {pos : ValueId} {i : Instr} {s s' : Frame α} (h : act A w pos i s = .ok s') :
    s'.memory.lengths = s.memory.lengths := by
  cases i with
  | int value => rw [Frame.setInt_memory h]
  | arith op lhs rhs =>
    obtain ⟨a, -, h⟩ := bind_eq_ok.1 h
    obtain ⟨b, -, h⟩ := bind_eq_ok.1 h
    obtain ⟨z, -, h⟩ := bind_eq_ok.1 h
    rw [Frame.setInt_memory h]
  | loop range stride =>
    cases h
    rfl
  | close =>
    cases h
    rfl
  | load input offset =>
    simp only [act] at h
    split at h
    · cases h
    · obtain ⟨k, -, h⟩ := bind_eq_ok.1 h
      obtain ⟨a, -, h⟩ := bind_eq_ok.1 h
      rw [Frame.setFloat_memory h]
  | store offset value =>
    obtain ⟨k, -, h⟩ := bind_eq_ok.1 h
    obtain ⟨a, -, h⟩ := bind_eq_ok.1 h
    exact Frame.write_lengths h
  | imm value => rw [Frame.setFloat_memory h]
  | unary op x =>
    obtain ⟨a, -, h⟩ := bind_eq_ok.1 h
    rw [Frame.setFloat_memory h]
  | binary op lhs rhs =>
    obtain ⟨a, -, h⟩ := bind_eq_ok.1 h
    obtain ⟨b, -, h⟩ := bind_eq_ok.1 h
    rw [Frame.setFloat_memory h]
  | accumulate op acc x =>
    obtain ⟨total, -, h⟩ := bind_eq_ok.1 h
    obtain ⟨a, -, h⟩ := bind_eq_ok.1 h
    rw [Frame.setFloat_memory h]

theorem Function.run_lengths {A : Arith α} {fn : Function} {cells : List Nat} {memory memory' : Memory α}
    (h : fn.run A cells memory = .ok memory') : memory'.lengths = memory.lengths := by
  obtain ⟨inputs, -, h⟩ := bind_eq_ok.1 h
  obtain ⟨output, -, h⟩ := bind_eq_ok.1 h
  obtain ⟨s, hbody, hpure⟩ := bind_eq_ok.1 h
  cases hpure
  refine walk_keeps (P := fun s : Frame α => s.memory.lengths = memory.lengths) (fun hs hact => ?_) (fun hs hturn => ?_)
    rfl hbody
  · exact (act_lengths hact).trans hs
  · rw [Frame.setInt_memory hturn]
    exact hs

theorem Program.run_lengths {A : Arith α} {p : Program} {cells : List Nat} {memory memory' : Memory α}
    (h : p.run A cells memory = .ok memory') : memory'.lengths = memory.lengths := by
  unfold run at h
  generalize p.functions = fns at h
  induction fns generalizing memory with
  | nil =>
    cases h
    rfl
  | cons fn fns ih =>
    obtain ⟨memory₁, hfn, hrest⟩ := bind_eq_ok.1 h
    exact (ih hrest).trans (Function.run_lengths hfn)

/-- The loop machine, running the program. -/
def Kernel.machine (A : Arith α) (p : Program) : Kernel α := ⟨p.run A, Program.run_lengths⟩

end TensorLoom
