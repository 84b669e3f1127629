import TensorLoom.Machine
import TensorLoom.Proofs.Shape.Offset
/-
# Running balanced code

Code whose loops balance can be visited piece by piece (`walk_append`), and a loop is its
turns (`walk_loop`). For loops nested directly in each other there is one rule
(`walk_nest`): the innermost code is visited once for every index vector, in row-major
order, so an invariant over the row-major number of the visit is enough.
-/

namespace TensorLoom

/-- An instruction that neither opens nor closes a loop. -/
def Instr.Plain : Instr → Prop
  | .loop .. | .close => False
  | _ => True

/-- Plain instructions, and loops around such code. -/
inductive Balanced : List Instr → Prop
  | nil : Balanced []
  | plain {i code} : i.Plain → Balanced code → Balanced (i :: code)
  | loop {range stride body rest} : Balanced body → Balanced rest →
    Balanced (.loop range stride :: (body ++ .close :: rest))

namespace Balanced

theorem of_plain {code : List Instr} (h : ∀ i ∈ code, i.Plain) : Balanced code := by
  induction code with
  | nil => exact .nil
  | cons i code ih =>
    rw [List.forall_mem_cons] at h
    exact .plain h.1 (ih h.2)

theorem append {a b : List Instr} (ha : Balanced a) (hb : Balanced b) : Balanced (a ++ b) := by
  induction ha with
  | nil => exact hb
  | plain hi _ ih => exact .plain hi ih
  | loop hbody _ _ ih =>
    rw [List.cons_append, List.append_assoc, List.cons_append]
    exact .loop hbody ih

end Balanced

/-! ## Splitting loops -/

theorem splitLoop_plain {i : Instr} (h : i.Plain) (depth : Nat) (code : List Instr) :
    splitLoop depth (i :: code) = (splitLoop depth code).map fun (body, rest) => (i :: body, rest) := by
  cases i <;> first | exact h.elim | rfl

/-- Balanced code in front belongs to the body. -/
theorem splitLoop_append {body : List Instr} (h : Balanced body) (depth : Nat) (code : List Instr) :
    splitLoop depth (body ++ code) = (splitLoop depth code).map fun (b, rest) => (body ++ b, rest) := by
  induction h generalizing depth code with
  | nil => simp
  | plain hi _ ih =>
    rw [List.cons_append, splitLoop_plain hi, ih, Option.map_map]
    rfl
  | @loop range stride body rest _ _ ihbody ihrest =>
    calc splitLoop depth (.loop range stride :: (body ++ .close :: rest) ++ code)
        = (splitLoop (depth + 1) (body ++ (.close :: (rest ++ code)))).map
            (fun (b, r) => (.loop range stride :: b, r)) := by
          simp [splitLoop]
      _ = (splitLoop depth code).map fun (b, r) => (.loop range stride :: (body ++ .close :: rest) ++ b, r) := by
          rw [ihbody, splitLoop, ihrest]
          simp [Option.map_map, Function.comp_def]

theorem splitLoop_close {body : List Instr} (h : Balanced body) (rest : List Instr) :
    splitLoop 0 (body ++ .close :: rest) = some (body, rest) := by
  simp [splitLoop_append h, splitLoop]

/-- The two parts are shorter than the code. -/
theorem length_of_splitLoop {depth : Nat} {code body rest : List Instr} (h : splitLoop depth code = some (body, rest)) :
    body.length + rest.length + 1 = code.length := by
  fun_induction splitLoop depth code generalizing body rest with
  | case1 => cases h
  | case2 code => cases h; simp
  | case3 depth code ih =>
    obtain ⟨⟨b, r⟩, hs, heq⟩ := Option.map_eq_some_iff.1 h
    cases heq
    simp [← ih hs, Nat.add_right_comm]
  | case4 depth range stride code ih =>
    obtain ⟨⟨b, r⟩, hs, heq⟩ := Option.map_eq_some_iff.1 h
    cases heq
    simp [← ih hs, Nat.add_right_comm]
  | case5 depth i code _ _ _ ih =>
    obtain ⟨⟨b, r⟩, hs, heq⟩ := Option.map_eq_some_iff.1 h
    cases heq
    simp [← ih hs, Nat.add_right_comm]

/-! ## Walking -/

section
variable {σ : Type} {act : ValueId → Instr → σ → Except Fault σ} {turn : ValueId → Nat → σ → Except Fault σ}

theorem walk_plain {i : Instr} (h : i.Plain) (fuel pos : Nat) (code : List Instr) (s : σ) :
    walk act turn (fuel + 1) pos (i :: code) s = act pos i s >>= walk act turn fuel (pos + 1) code := by
  cases i <;> first | exact h.elim | rfl

/-- Fuel beyond the length of the code changes nothing. -/
theorem walk_fuel {fuel fuel' : Nat} {code : List Instr} (h : code.length ≤ fuel) (h' : code.length ≤ fuel') (pos : Nat)
    (s : σ) : walk act turn fuel pos code s = walk act turn fuel' pos code s := by
  induction fuel generalizing fuel' code pos s with
  | zero =>
    obtain rfl : code = [] := List.eq_nil_of_length_eq_zero (Nat.le_zero.1 h)
    cases fuel' <;> rfl
  | succ fuel ih =>
    cases code with
    | nil => cases fuel' <;> rfl
    | cons i code =>
      obtain ⟨fuel', rfl⟩ : ∃ f, fuel' = f + 1 := ⟨fuel' - 1, by simp only [List.length_cons] at h'; omega⟩
      simp only [List.length_cons, Nat.add_le_add_iff_right] at h h'
      by_cases hloop : ∃ range stride, i = .loop range stride
      · obtain ⟨range, stride, rfl⟩ := hloop
        simp only [walk]
        cases hs : splitLoop 0 code with
        | none => rfl
        | some p =>
          obtain ⟨body, rest⟩ := p
          have hlen := length_of_splitLoop hs
          have hbody : ∀ s, walk act turn fuel (pos + 1) body s = walk act turn fuel' (pos + 1) body s :=
            fun s => ih (by omega) (by omega) _ s
          have hrest : ∀ s, walk act turn fuel (pos + 1 + body.length + 1) rest s =
              walk act turn fuel' (pos + 1 + body.length + 1) rest s := fun s => ih (by omega) (by omega) _ s
          simp only [hbody, hrest]
      · have hstep : ∀ f, walk act turn (f + 1) pos (i :: code) s = act pos i s >>= walk act turn f (pos + 1) code := by
          intro f
          cases i <;> first | rfl | exact (hloop ⟨_, _, rfl⟩).elim
        rw [hstep, hstep]
        congr 1
        funext s
        exact ih h h' _ s

/-- A loop is its turns, and then what follows it. -/
theorem walk_loop {body : List Instr} (h : Balanced body) (pos range stride : Nat) (rest : List Instr) (s : σ) :
    walk act turn (Instr.loop range stride :: (body ++ .close :: rest)).length pos
        (.loop range stride :: (body ++ .close :: rest)) s =
      turns (fun k s => turn pos k s >>= walk act turn body.length (pos + 1) body) range 0 s >>=
        walk act turn rest.length (pos + 1 + body.length + 1) rest := by
  have hbody : ∀ s, walk act turn (body ++ .close :: rest).length (pos + 1) body s =
      walk act turn body.length (pos + 1) body s :=
    fun s => walk_fuel (by simp) (Nat.le_refl _) _ s
  have hrest : ∀ s, walk act turn (body ++ .close :: rest).length (pos + 1 + body.length + 1) rest s =
      walk act turn rest.length (pos + 1 + body.length + 1) rest s :=
    fun s => walk_fuel (by simp; omega) (Nat.le_refl _) _ s
  simp only [List.length_cons, walk, splitLoop_close h, hbody, hrest]

/-- Balanced code is visited before what follows it. -/
theorem walk_append {a : List Instr} (h : Balanced a) (b : List Instr) (pos : Nat) (s : σ) :
    walk act turn (a ++ b).length pos (a ++ b) s =
      walk act turn a.length pos a s >>= walk act turn b.length (pos + a.length) b := by
  induction h generalizing pos s with
  | nil => rfl
  | plain hi _ ih =>
    rw [List.cons_append, List.length_cons, List.length_cons, walk_plain hi, walk_plain hi, bind_assoc]
    congr 1
    funext s
    rw [ih, Nat.add_assoc, Nat.add_comm 1]
  | @loop range stride body rest hbody _ _ ih =>
    have hpos : pos + (Instr.loop range stride :: (body ++ .close :: rest)).length =
        pos + 1 + body.length + 1 + rest.length := by
      simp only [List.length_cons, List.length_append]
      omega
    rw [hpos, List.cons_append, List.append_assoc, List.cons_append, walk_loop hbody, walk_loop hbody, bind_assoc]
    congr 1
    funext s
    exact ih _ s

end

/-- Turns keep what every turn keeps. -/
theorem turns_invariant {σ : Type} {step : Nat → σ → Except Fault σ} {J : Nat → σ → Prop} {n k : Nat}
    (h : ∀ j s, k ≤ j → j < k + n → J j s → ∃ s', step j s = .ok s' ∧ J (j + 1) s') {s : σ} (hs : J k s) :
    ∃ s', turns step n k s = .ok s' ∧ J (k + n) s' := by
  induction n generalizing k s with
  | zero => exact ⟨s, rfl, hs⟩
  | succ n ih =>
    obtain ⟨s₁, hstep, h₁⟩ := h k s (Nat.le_refl k) (by omega) hs
    obtain ⟨s₂, hturns, h₂⟩ := ih (k := k + 1) (fun j s hj hj' => h j s (by omega) (by omega)) h₁
    refine ⟨s₂, ?_, by rwa [Nat.add_right_comm] at h₂⟩
    rw [turns, hstep]
    exact hturns

/-! ## Running -/

section
variable {α : Type} (A : Arith α) (w : Wiring)

/-- Runs the code that starts at `pos`. -/
def exec (pos : ValueId) (code : List Instr) (s : Frame α) : Except Fault (Frame α) :=
  walk (act A w) turn code.length pos code s

theorem exec_plain {i : Instr} (h : i.Plain) (pos : Nat) (code : List Instr) (s : Frame α) :
    exec A w pos (i :: code) s = act A w pos i s >>= exec A w (pos + 1) code :=
  walk_plain h _ _ _ _

/-- Balanced code is run before what follows it. -/
theorem exec_append {a : List Instr} (h : Balanced a) (b : List Instr) (pos : Nat) (s : Frame α) :
    exec A w pos (a ++ b) s = exec A w pos a s >>= exec A w (pos + a.length) b :=
  walk_append h b pos s

end

/-! ## Nested loops -/

/-- Loops nested directly in each other, given by range and stride. -/
def nest : List (Nat × Nat) → List Instr → List Instr
  | [], body => body
  | (range, stride) :: loops, body => .loop range stride :: (nest loops body ++ [.close])

theorem Balanced.nest {body : List Instr} (h : Balanced body) (loops : List (Nat × Nat)) :
    Balanced (nest loops body) := by
  induction loops with
  | nil => exact h
  | cons l loops ih => exact .loop ih .nil

theorem nest_eq (loops : List (Nat × Nat)) (body : List Instr) :
    nest loops body = loops.map (fun (range, stride) => Instr.loop range stride) ++ body ++
      List.replicate loops.length .close := by
  induction loops with
  | nil => simp [nest]
  | cons l loops ih => simp [nest, ih, List.replicate_succ']

/-- The loop registers from `pos` on hold the index vector. -/
def Frame.Counts {α : Type} (s : Frame α) (pos : Nat) (is : List Nat) : Prop :=
  ∀ j i : Nat, is[j]? = some i → s.ints[pos + j]? = some (i : Int)

theorem Frame.Counts.cons {α : Type} {s : Frame α} {pos k : Nat} {is : List Nat} (hk : s.ints[pos]? = some (k : Int))
    (h : s.Counts (pos + 1) is) : s.Counts pos (k :: is) := by
  intro j i hi
  cases j with
  | zero =>
    obtain rfl : k = i := by simpa using hi
    exact hk
  | succ j =>
    rw [Nat.add_comm j, ← Nat.add_assoc]
    exact h j i (by simpa using hi)

theorem Frame.Counts.tail {α : Type} {s : Frame α} {pos k : Nat} {is : List Nat} (h : s.Counts pos (k :: is)) :
    s.Counts (pos + 1) is := by
  intro j i hi
  rw [Nat.add_assoc, Nat.add_comm 1]
  exact h (j + 1) i (by simpa using hi)

/-- The invariant `I` holds before every visit of the innermost code if each visit takes it
one further and no loop register matters to it. The state may be more than the `frame` that
holds the registers. -/
theorem walk_nest {α σ : Type} (act : ValueId → Instr → σ → Except Fault σ) (turn : ValueId → Nat → σ → Except Fault σ)
    (frame : σ → Frame α) {body : List Instr} (hbal : Balanced body) (loops : List (Nat × Nat))
    (hsmall : ∀ l ∈ loops, l.1 ≤ 9223372036854775808) (pos : Nat) {I : Nat → σ → Prop}
    (hregs : ∀ {k s}, I k s → pos + loops.length ≤ (frame s).ints.size)
    (hturn : ∀ {k s} (v j : Nat), I k s → pos ≤ v → v < pos + loops.length → j < 9223372036854775808 →
      ∃ s', turn v j s = .ok s' ∧ I k s' ∧ (frame s').ints = (frame s).ints.setIfInBounds v j)
    (hvisit : ∀ {is s}, Shape.Mem is (loops.map Prod.fst) → I (Shape.offset is (loops.map Prod.fst)) s →
      (frame s).Counts pos is →
      ∃ s', walk act turn body.length (pos + loops.length) body s = .ok s' ∧
        I (Shape.offset is (loops.map Prod.fst) + 1) s' ∧
        ∀ v, pos ≤ v → v < pos + loops.length → (frame s').ints[v]? = (frame s).ints[v]?)
    {s : σ} (hs : I 0 s) :
    ∃ s', walk act turn (nest loops body).length pos (nest loops body) s = .ok s' ∧
      I (Shape.size (loops.map Prod.fst)) s' := by
  -- by induction on the loops: inside turn `k` of the outermost one the visits are numbered from
  -- `k` times the number of visits of a turn
  induction loops generalizing pos I s with
  | nil =>
    have hmem : Shape.Mem [] [] := trivial
    obtain ⟨s', hrun, hI, -⟩ := hvisit hmem hs (by simp [Frame.Counts])
    exact ⟨s', hrun, hI⟩
  | cons l loops ih =>
    obtain ⟨range, stride⟩ := l
    simp only [List.length_cons] at hregs hturn hvisit
    have hinner : ∀ k s, 0 ≤ k → k < 0 + range → I (k * Shape.size (loops.map Prod.fst)) s →
        ∃ s', (turn pos k s >>= walk act turn (nest loops body).length (pos + 1) (nest loops body)) = .ok s' ∧
          I ((k + 1) * Shape.size (loops.map Prod.fst)) s' := by
      intro k s _ hk hI
      have hrange : range ≤ 9223372036854775808 := hsmall (range, stride) (List.mem_cons_self ..)
      have hpos : pos < (frame s).ints.size := by have := hregs hI; omega
      obtain ⟨s₁, hset, hI₁, hints₁⟩ := hturn pos k hI (Nat.le_refl _) (by omega) (by omega)
      rw [hset, Nat.succ_mul]
      refine (ih (fun l hl => hsmall l (List.mem_cons_of_mem _ hl)) (pos + 1)
        (I := fun j s => I (k * Shape.size (loops.map Prod.fst) + j) s ∧ (frame s).ints[pos]? = some (k : Int))
        (fun h => by have := hregs h.1; omega) ?_ ?_ ?_).imp fun s' h => ⟨h.1, h.2.1⟩
      · intro j s v i hj hv hv' hi
        obtain ⟨s', hrun, hI', hints⟩ := hturn v i hj.1 (by omega) (by omega) hi
        refine ⟨s', hrun, ⟨hI', ?_⟩, hints⟩
        rw [hints, Array.getElem?_setIfInBounds_ne (by omega)]
        exact hj.2
      · intro is s hm hj hcounts
        have hmem : Shape.Mem (k :: is) (range :: loops.map Prod.fst) := ⟨by simpa using hk, hm⟩
        obtain ⟨s', hrun, hI', hkeep⟩ := hvisit hmem hj.1 (.cons hj.2 hcounts)
        rw [← Nat.add_assoc, Nat.add_right_comm] at hrun
        refine ⟨s', hrun, ⟨hI', ?_⟩, fun v hv hv' => hkeep v (by omega) (by omega)⟩
        rw [hkeep pos (Nat.le_refl _) (by omega)]
        exact hj.2
      · refine ⟨hI₁, ?_⟩
        simp [hints₁, hpos]
    obtain ⟨s', hturns, hI⟩ := turns_invariant (J := fun k => I (k * Shape.size (loops.map Prod.fst))) hinner
      (by rwa [Nat.zero_mul])
    rw [Nat.zero_add] at hI
    refine ⟨s', ?_, hI⟩
    rw [nest, walk_loop (hbal.nest loops), hturns]
    rfl

theorem turn_eq_ok {α : Type} {s : Frame α} {v k : Nat} (hv : v < s.ints.size) (hk : k < 9223372036854775808) :
    turn v k s = .ok { s with ints := s.ints.setIfInBounds v k } := by
  rw [turn, Word.signed_of_lt (by omega), Frame.setInt, if_pos hv]

end TensorLoom
