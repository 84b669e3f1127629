import TensorLoom.Proofs.Machine.Frame
/-
# Stores in the order of a run

The machine with a list of its stores: the offset of each, and the index and stride of
every loop that is open there. Listing them changes nothing about the run
(`Function.run_eq_trace`). Stores are in order (`InOrder`) if store number `k` is at
offset `k`, which is also the sum of the indices times the strides.
-/

namespace TensorLoom

/-! ## Mapping the state of a walk -/

theorem subset_of_splitLoop {depth : Nat} {code body rest : List Instr} (h : splitLoop depth code = some (body, rest)) :
    body ⊆ code ∧ rest ⊆ code := by
  fun_induction splitLoop depth code generalizing body rest with
  | case1 => cases h
  | case2 code => cases h; simp
  | case3 depth code ih =>
    obtain ⟨⟨b, r⟩, hs, heq⟩ := Option.map_eq_some_iff.1 h
    cases heq
    exact ⟨List.cons_subset_cons _ (ih hs).1, List.subset_cons_of_subset _ (ih hs).2⟩
  | case4 depth range stride code ih =>
    obtain ⟨⟨b, r⟩, hs, heq⟩ := Option.map_eq_some_iff.1 h
    cases heq
    exact ⟨List.cons_subset_cons _ (ih hs).1, List.subset_cons_of_subset _ (ih hs).2⟩
  | case5 depth i code _ _ _ ih =>
    obtain ⟨⟨b, r⟩, hs, heq⟩ := Option.map_eq_some_iff.1 h
    cases heq
    exact ⟨List.cons_subset_cons _ (ih hs).1, List.subset_cons_of_subset _ (ih hs).2⟩

section
variable {σ τ : Type} {f : σ → τ}

theorem map_bind_of {x : Except Fault σ} {y : Except Fault τ} {k : σ → Except Fault σ} {k' : τ → Except Fault τ}
    (h : y = x.map f) (hk : ∀ s, k' (f s) = (k s).map f) : (y >>= k') = (x >>= k).map f := by
  subst h
  cases x with
  | error e => rfl
  | ok s => exact hk s

theorem turns_map {step : Nat → σ → Except Fault σ} {step' : Nat → τ → Except Fault τ}
    (h : ∀ k s, step' k (f s) = (step k s).map f) (n k : Nat) (s : σ) : turns step' n k (f s) = (turns step n k s).map f := by
  induction n generalizing k s with
  | zero => rfl
  | succ n ih => exact map_bind_of (h k s) fun s => ih (k + 1) s

/-- What the instructions of the code and the turns commute with, the walk commutes with. -/
theorem walk_map {act : ValueId → Instr → σ → Except Fault σ} {turn : ValueId → Nat → σ → Except Fault σ}
    {act' : ValueId → Instr → τ → Except Fault τ} {turn' : ValueId → Nat → τ → Except Fault τ}
    (hturn : ∀ pos k s, turn' pos k (f s) = (turn pos k s).map f) {code : List Instr}
    (hact : ∀ pos, ∀ i ∈ code, ∀ s, act' pos i (f s) = (act pos i s).map f) (fuel pos : Nat) (s : σ) :
    walk act' turn' fuel pos code (f s) = (walk act turn fuel pos code s).map f := by
  induction fuel generalizing code pos s with
  | zero => cases code <;> rfl
  | succ fuel ih =>
    cases code with
    | nil => rfl
    | cons i code =>
      obtain ⟨hi, hcode⟩ : (∀ pos s, act' pos i (f s) = (act pos i s).map f) ∧
          ∀ pos, ∀ i ∈ code, ∀ s, act' pos i (f s) = (act pos i s).map f :=
        ⟨fun pos => hact pos i List.mem_cons_self, fun pos i hi => hact pos i (List.mem_cons_of_mem _ hi)⟩
      by_cases hloop : ∃ range stride, i = .loop range stride
      · obtain ⟨range, stride, rfl⟩ := hloop
        simp only [walk]
        cases hs : splitLoop 0 code with
        | none => rfl
        | some p =>
          obtain ⟨body, rest⟩ := p
          obtain ⟨hbody, hrest⟩ := subset_of_splitLoop hs
          refine map_bind_of (turns_map (fun k s => ?_) range 0 s) fun s => ?_
          · exact map_bind_of (hturn pos k s) fun s => ih (fun pos i hi => hcode pos i (hbody hi)) (pos + 1) s
          · exact ih (fun pos i hi => hcode pos i (hrest hi)) _ s
      · have hstep : ∀ {ρ : Type} (a : ValueId → Instr → ρ → Except Fault ρ) (t : ValueId → Nat → ρ → Except Fault ρ) (r : ρ),
            walk a t (fuel + 1) pos (i :: code) r = a pos i r >>= walk a t fuel (pos + 1) code := by
          intro ρ a t r
          cases i <;> first | rfl | exact (hloop ⟨_, _, rfl⟩).elim
        rw [hstep, hstep]
        exact map_bind_of (hi pos s) fun s => ih hcode (pos + 1) s

end

/-! ## Listing the stores -/

/-- The loops that are open behind the code from `pos` on, by the position of the header and
the stride, innermost first; `around` are those open before it. -/
def openLoops : (pos : ValueId) → (around : List (ValueId × Nat)) → List Instr → List (ValueId × Nat)
  | _, around, [] => around
  | pos, around, .loop _ stride :: code => openLoops (pos + 1) ((pos, stride) :: around) code
  | pos, around, .close :: code => openLoops (pos + 1) around.tail code
  | pos, around, _ :: code => openLoops (pos + 1) around code

/-- One store of a run: its offset, and index and stride of the loops around it. -/
structure StoreAt where
  offset : Int
  loops : List (Int × Nat)
deriving DecidableEq, Repr

/-- Where the loops put the store: the sum of their indices times their strides. -/
def StoreAt.strided (store : StoreAt) : Int := store.loops.foldr (fun l total => l.1 * (l.2 : Int) + total) 0

/-- A run so far. -/
structure Traced (α : Type) where
  frame : Frame α
  stores : List StoreAt

section
variable {α : Type}

/-- The store that the instruction at `pos` performs. A loop's index is in the register of
its header. -/
def Instr.storesAt (code : List Instr) (pos : ValueId) (s : Frame α) : Instr → List StoreAt
  | .store offset _ =>
    [⟨s.ints.getD offset 0, (openLoops 0 [] (code.take pos)).map fun l => (s.ints.getD l.1 0, l.2)⟩]
  | _ => []

variable (A : Arith α)

/-- One instruction of the code, with its store if it goes through. -/
def traceAct (w : Wiring) (code : List Instr) (pos : ValueId) (i : Instr) (t : Traced α) : Except Fault (Traced α) :=
  (act A w pos i t.frame).map fun s => ⟨s, t.stores ++ i.storesAt code pos t.frame⟩

def traceTurn (pos : ValueId) (k : Nat) (t : Traced α) : Except Fault (Traced α) :=
  (turn pos k t.frame).map fun s => ⟨s, t.stores⟩

/-- Runs a body from the given registers and lists its stores. -/
def traceBody (w : Wiring) (code : List Instr) (s : Frame α) : Except Fault (Traced α) :=
  walk (traceAct A w code) traceTurn code.length 0 code ⟨s, []⟩

/-- Runs one function with fresh registers and lists its stores. -/
def Function.trace (fn : Function) (cells : List Nat) (memory : Memory α) :
    Except Fault (Memory α × List StoreAt) := do
  let inputs ← fn.inputs.mapM (cellOf cells)
  let output ← cellOf cells fn.output
  let registers := fn.code.length
  let t ← traceBody A ⟨inputs, output⟩ fn.code
    ⟨Array.replicate registers 0, Array.replicate registers (A.lit 0.0), memory⟩
  return (t.frame.memory, t.stores)

theorem runBody_eq_trace (w : Wiring) (code : List Instr) (s : Frame α) :
    runBody A w code s = (traceBody A w code s).map Traced.frame := by
  refine walk_map (f := Traced.frame) (fun pos k t => ?_) (fun pos i _ t => ?_) code.length 0 ⟨s, []⟩
  · cases h : turn pos k t.frame <;> simp [traceTurn, h, Except.map]
  · cases h : act A w pos i t.frame <;> simp [traceAct, h, Except.map]

/-- The run without its list of stores is the run. -/
theorem Function.run_eq_trace (fn : Function) (cells : List Nat) (memory : Memory α) :
    fn.run A cells memory = (fn.trace A cells memory).map Prod.fst := by
  unfold Function.run Function.trace
  cases fn.inputs.mapM (cellOf cells) with
  | error e => rfl
  | ok inputs =>
    cases cellOf cells fn.output with
    | error e => rfl
    | ok output =>
      simp only [bind, Except.bind, runBody_eq_trace]
      cases traceBody A ⟨inputs, output⟩ fn.code
        ⟨Array.replicate fn.code.length 0, Array.replicate fn.code.length (A.lit 0.0), memory⟩ <;> rfl

theorem Function.run_of_trace {A : Arith α} {fn : Function} {cells : List Nat} {memory memory' : Memory α}
    {stores : List StoreAt} (h : fn.trace A cells memory = .ok (memory', stores)) : fn.run A cells memory = .ok memory' := by
  rw [fn.run_eq_trace, h]
  rfl

/-- No store. -/
def Instr.Silent (i : Instr) : Prop := ∀ o v, i ≠ .store o v

theorem Instr.Silent.storesAt {i : Instr} (h : i.Silent) (code : List Instr) (pos : ValueId) (s : Frame α) :
    i.storesAt code pos s = [] := by
  cases i with
  | store o v => exact absurd rfl (h o v)
  | _ => rfl

theorem Instr.silent_of_defines {i : Instr} (h : i.resultKind.isSome) : i.Silent := by
  rintro o v rfl
  cases h

theorem silent_nest {body : List Instr} (h : ∀ i ∈ body, i.Silent) (loops : List (Nat × Nat)) :
    ∀ i ∈ nest loops body, i.Silent := by
  induction loops with
  | nil => exact h
  | cons l loops ih =>
    intro i hi
    rcases List.mem_cons.1 hi with rfl | hi
    · nofun
    · rcases List.mem_append.1 hi with hi | hi
      · exact ih i hi
      · cases List.mem_singleton.1 hi
        nofun

/-- Code without stores adds nothing to the list. -/
theorem walk_silent (w : Wiring) (code : List Instr) {part : List Instr} (h : ∀ i ∈ part, i.Silent) (pos : Nat)
    (t : Traced α) : walk (traceAct A w code) traceTurn part.length pos part t =
      (exec A w pos part t.frame).map fun s => ⟨s, t.stores⟩ := by
  refine walk_map (f := fun s => (⟨s, t.stores⟩ : Traced α)) (fun pos k s => rfl) (fun pos i hi s => ?_) part.length pos t.frame
  simp only [traceAct, (h i hi).storesAt, List.append_nil]

end

/-! ## Loops that are open -/

theorem openLoops_append (pos : Nat) (around : List (ValueId × Nat)) (a b : List Instr) :
    openLoops pos around (a ++ b) = openLoops (pos + a.length) (openLoops pos around a) b := by
  induction a generalizing pos around with
  | nil => rfl
  | cons i a ih =>
    rw [List.length_cons, Nat.add_comm a.length, ← Nat.add_assoc]
    cases i <;> exact ih ..

/-- Balanced code closes what it opens. -/
theorem openLoops_balanced {code : List Instr} (h : Balanced code) (pos : Nat) (around : List (ValueId × Nat)) :
    openLoops pos around code = around := by
  induction h generalizing pos around with
  | nil => rfl
  | @plain i code hi _ ih =>
    have hstep : openLoops pos around (i :: code) = openLoops (pos + 1) around code := by
      cases i <;> first | exact hi.elim | rfl
    rw [hstep, ih]
  | @loop range stride body rest _ _ ihbody ihrest =>
    rw [openLoops, openLoops_append, ihbody, openLoops, List.tail_cons, ihrest]

/-- Inside loops whose strides are those of their ranges, the indices times the strides add up
to the row-major number of the visit. -/
theorem sum_openLoops {α : Type} {loops : List (Nat × Nat)}
    (hstrides : loops.map Prod.snd = Shape.strides (loops.map Prod.fst)) {s : Frame α} {pos : Nat} {is : List Nat}
    (hm : Shape.Mem is (loops.map Prod.fst)) (hcounts : s.Counts pos is) (around : List (ValueId × Nat)) :
    (openLoops pos around (loops.map fun l => Instr.loop l.1 l.2)).foldr
        (fun l total => s.ints.getD l.1 0 * (l.2 : Int) + total) 0 =
      Shape.offset is (loops.map Prod.fst) + around.foldr (fun l total => s.ints.getD l.1 0 * (l.2 : Int) + total) 0 := by
  induction loops generalizing pos is around with
  | nil =>
    cases is with
    | nil => simp [openLoops, Shape.offset]
    | cons i is => exact hm.elim
  | cons l loops ih =>
    cases is with
    | nil => exact hm.elim
    | cons i is =>
      obtain ⟨hstride, hrest⟩ : l.2 = Shape.size (loops.map Prod.fst) ∧
          loops.map Prod.snd = Shape.strides (loops.map Prod.fst) := by
        simpa [Shape.strides] using hstrides
      have hi : s.ints.getD pos 0 = i := by
        have := hcounts 0 i rfl
        simp_all [Array.getD_eq_getD_getElem?]
      rw [List.map_cons, openLoops, ih hrest hm.2 hcounts.tail]
      simp only [List.map_cons, List.foldr_cons, Shape.offset, hi, hstride]
      push_cast
      omega

/-- Behind balanced code inside such loops, a store belongs at the row-major number of the visit. -/
theorem strided_nest {α : Type} {loops : List (Nat × Nat)}
    (hstrides : loops.map Prod.snd = Shape.strides (loops.map Prod.fst)) {prep : List Instr} (hbal : Balanced prep)
    (rest : List Instr) {s : Frame α} {is : List Nat} (hm : Shape.Mem is (loops.map Prod.fst)) (hcounts : s.Counts 0 is)
    (offset : Int) :
    StoreAt.strided ⟨offset, (openLoops 0 [] ((nest loops (prep ++ rest)).take (loops.length + prep.length))).map
      fun l => (s.ints.getD l.1 0, l.2)⟩ = Shape.offset is (loops.map Prod.fst) := by
  have htake : (nest loops (prep ++ rest)).take (loops.length + prep.length) =
      (loops.map fun l => Instr.loop l.1 l.2) ++ prep := by
    rw [nest_eq, ← List.append_assoc, List.append_assoc _ rest]
    exact List.take_left' (by simp)
  have hsum := sum_openLoops hstrides hm hcounts []
  rw [List.foldr_nil, Int.add_zero] at hsum
  rw [StoreAt.strided, List.foldr_map, htake, openLoops_append, openLoops_balanced hbal]
  exact hsum

/-! ## Stores in order -/

/-- There are `n` stores, number `k` at offset `k`, where the open loops put it. -/
structure InOrder (n : Nat) (stores : List StoreAt) : Prop where
  length : stores.length = n
  store : ∀ {k : Nat} {store : StoreAt}, stores[k]? = some store → store.offset = k ∧ store.strided = k

theorem InOrder.nil : InOrder 0 [] := ⟨rfl, nofun⟩

theorem InOrder.next {n : Nat} {stores : List StoreAt} (h : InOrder n stores) {store : StoreAt} (hoffset : store.offset = n)
    (hstrided : store.strided = n) : InOrder (n + 1) (stores ++ [store]) := by
  refine ⟨by simp [h.length], fun {k x} hx => ?_⟩
  by_cases hk : k < stores.length
  · rw [List.getElem?_append_left hk] at hx
    exact h.store hx
  · have hlt := (List.getElem?_eq_some_iff.1 hx).1
    obtain rfl : k = n := by
      simp only [List.length_append, List.length_singleton, h.length] at hlt hk
      omega
    rw [List.getElem?_append_right (Nat.le_of_eq h.length), h.length, Nat.sub_self] at hx
    obtain rfl : store = x := by simpa using hx
    exact ⟨hoffset, hstrided⟩

end TensorLoom
