import TensorLoom.Proofs.Machine.Stores
import TensorLoom.Proofs.Program.Order
/-
# Loads and stores of a run

The machine, with every access to memory noted: which function it is of, through which of its
buffers it goes, and which element it loads or stores. A load yields what the stores before
it have left, and where there was none, what the memory held at first; accesses go through
buffers that their function has, and come in the order of the functions
(`Program.Valid.observe`).
-/

namespace TensorLoom

/-- What is noted of an access, besides cell and offset. -/
structure Touch (α : Type) where
  /-- The number of the function. -/
  function : Nat
  buffer : BufferId
  /-- The element is stored; otherwise it is loaded. -/
  stores : Bool
  element : α

/-- Accesses in order, each with its cell and its offset. -/
abbrev Accesses (α : Type) := List (Nat × Int × Touch α)

section
variable {α : Type}

/-! ## Noting accesses -/

section
variable (A : Arith α) (f : Nat) (fn : Function) (w : Wiring)

/-- The access that an instruction of function number `f` performs. -/
def Instr.touched (s : Frame α) : Instr → Accesses α
  | .load input offset =>
    match fn.inputs[input]?, w.inputs[input]?, s.int offset with
    | some b, some c, .ok k =>
      match s.read c k with
      | .ok a => [(c, k, ⟨f, b, false, a⟩)]
      | .error _ => []
    | _, _, _ => []
  | .store offset value =>
    match s.int offset, s.float value with
    | .ok k, .ok a => [(w.output, k, ⟨f, fn.output, true, a⟩)]
    | _, _ => []
  | _ => []

/-- One instruction, with its access if it goes through. -/
def observeAct (pos : Nat) (i : Instr) (s : Frame α) : Recording (Touch α) (Frame α) :=
  match act A w pos i s with
  | .error e => ⟨[], .error e⟩
  | .ok s' => ⟨i.touched f fn w s, .ok s'⟩

/-- The machine, with its accesses noted. -/
def Interpretation.observer : Interpretation (Recording (Touch α) (Frame α)) where
  act pos i r := .ok (r.andThen (observeAct A f fn w pos i))
  enter pos k r := .ok (r.andThen fun s => .silent (turn pos k s))
  leave := .ok

/-- Walks the function's body. -/
def observeBody (s : Frame α) : Recording (Touch α) (Frame α) :=
  match walk (Interpretation.observer A f fn w).act (Interpretation.observer A f fn w).enter fn.code.length 0 fn.code
      (.silent (.ok s)) with
  | .error e => .silent (.error e)
  | .ok r => r

/-- Runs function number `f`. -/
def Function.observe (cells : List Nat) (memory : Memory α) : Recording (Touch α) (Memory α) :=
  (Recording.silent (fn.inputs.mapM (cellOf cells))).andThen fun inputs =>
    (Recording.silent (cellOf cells fn.output)).andThen fun output =>
      (observeBody A f fn ⟨inputs, output⟩ ⟨(Registers.zero A fn).ints, (Registers.zero A fn).floats, memory⟩).andThen
        fun s => .silent (.ok s.memory)

end

/-- Runs functions in order, the first of which has number `f`. -/
def observeFunctions (A : Arith α) (cells : List Nat) : (f : Nat) → List Function → Memory α → Recording (Touch α) (Memory α)
  | _, [], memory => .silent (.ok memory)
  | f, fn :: fns, memory => (fn.observe A f cells memory).andThen (observeFunctions A cells (f + 1) fns)

/-- Runs a program, up to its end or its first fault, and lists its accesses. -/
def Program.observe (p : Program) (A : Arith α) (cells : List Nat) (memory : Memory α) : Recording (Touch α) (Memory α) :=
  observeFunctions A cells 0 p.functions memory

/-! ## Replaying accesses -/

/-- The memory after one access. -/
def touch (memory : Memory α) (x : Nat × Int × Touch α) : Memory α :=
  if x.2.2.stores then memory.modify x.1 (·.setIfInBounds x.2.1.toNat x.2.2.element) else memory

/-- The memory after accesses in order. -/
def replay (log : Accesses α) (memory : Memory α) : Memory α := log.foldl touch memory

theorem replay_append (log log' : Accesses α) (memory : Memory α) :
    replay (log ++ log') memory = replay log' (replay log memory) := List.foldl_append

/-- A cell that nothing is stored in is as it was. -/
theorem getElem?_replay {log : Accesses α} {c : Nat} (h : ∀ x ∈ log, x.2.2.stores = true → x.1 ≠ c) (memory : Memory α) :
    (replay log memory)[c]? = memory[c]? := by
  induction log generalizing memory with
  | nil => rfl
  | cons x log ih =>
    obtain ⟨hx, hlog⟩ := List.forall_mem_cons.1 h
    show (replay log (touch memory x))[c]? = _
    rw [ih hlog, touch]
    split
    · rename_i hstores
      rw [Array.getElem?_modify, if_neg (hx hstores)]
    · rfl

/-- Every load yields what is in memory behind the accesses before it. -/
def Faithful (memory : Memory α) (log : Accesses α) : Prop :=
  ∀ before behind c k t, log = before ++ (c, k, t) :: behind → t.stores = false →
    (replay before memory).read c k = .ok t.element

theorem Faithful.nil (memory : Memory α) : Faithful memory [] := by
  intro before behind c k t h
  simp at h

theorem Faithful.append {memory : Memory α} {log log' : Accesses α} (h : Faithful memory log)
    (h' : Faithful (replay log memory) log') : Faithful memory (log ++ log') := by
  intro before behind c k t heq hload
  rcases List.append_eq_append_iff.1 heq with ⟨between, hbefore, hlog'⟩ | ⟨between, hlog, hbehind⟩
  · rw [hbefore, replay_append]
    exact h' _ _ _ _ _ hlog' hload
  · cases between with
    | nil =>
      rw [List.append_nil] at hlog
      rw [← hlog]
      exact h' [] _ _ _ _ hbehind.symm hload
    | cons x between =>
      obtain ⟨rfl, -⟩ := List.cons.inj hbehind
      exact h _ _ _ _ _ hlog hload

theorem Faithful.single {memory : Memory α} {c : Nat} {k : Int} {t : Touch α}
    (h : t.stores = false → memory.read c k = .ok t.element) : Faithful memory [(c, k, t)] := by
  intro before behind c' k' t' heq hload
  rcases List.append_eq_singleton_iff.1 heq.symm with ⟨rfl, hx⟩ | ⟨-, hx⟩
  · cases hx
    exact h hload
  · cases hx

/-! ## Observed runs -/

/-- The accesses of a run from `memory` satisfy `P`, its loads yield what is there, and its
stores make up the memory in the end. -/
structure Recording.Observes {β : Type} (P : Nat × Int × Touch α → Prop) (final : β → Memory α) (memory : Memory α)
    (r : Recording (Touch α) β) : Prop where
  each : ∀ x ∈ r.stores, P x
  faithful : Faithful memory r.stores
  memory : ∀ b, r.outcome = .ok b → final b = replay r.stores memory

namespace Recording.Observes

variable {β γ : Type} {P : Nat × Int × Touch α → Prop} {final : β → Memory α} {final' : γ → Memory α} {memory : Memory α}

theorem silent {x : Except Fault β} (h : ∀ b, x = .ok b → final b = memory) : (Recording.silent x).Observes P final memory :=
  ⟨fun _ hx => absurd hx List.not_mem_nil, .nil memory, h⟩

theorem mono {Q : Nat × Int × Touch α → Prop} {r : Recording (Touch α) β} (h : r.Observes P final memory)
    (hPQ : ∀ x, P x → Q x) : r.Observes Q final memory := ⟨fun x hx => hPQ x (h.each x hx), h.faithful, h.memory⟩

theorem andThen {r : Recording (Touch α) β} (h : r.Observes P final memory) {f : β → Recording (Touch α) γ}
    (hf : ∀ b, r.outcome = .ok b → (f b).Observes P final' (final b)) : (r.andThen f).Observes P final' memory := by
  obtain ⟨log, x⟩ := r
  cases x with
  | error e => exact ⟨h.each, h.faithful, fun b hb => by cases hb⟩
  | ok b =>
    have hmemory : final b = replay log memory := h.memory b rfl
    have hb := hf b rfl
    rw [hmemory] at hb
    refine ⟨fun x hx => ?_, h.faithful.append hb.faithful, fun c hc => ?_⟩
    · rcases List.mem_append.1 hx with hx | hx
      · exact h.each x hx
      · exact hb.each x hx
    · show final' c = replay (log ++ (f b).stores) memory
      rw [replay_append]
      exact hb.memory c hc

end Recording.Observes

/-- The access is of function number `f`, through its output if it stores, and through one of its
inputs otherwise, into the cell of that buffer. -/
structure Through (f : Nat) (fn : Function) (cells : List Nat) (x : Nat × Int × Touch α) : Prop where
  function : x.2.2.function = f
  buffer : if x.2.2.stores then x.2.2.buffer = fn.output else x.2.2.buffer ∈ fn.inputs
  cell : cells[x.2.2.buffer]? = some x.1

section
variable {A : Arith α} {f : Nat} {fn : Function} {w : Wiring} {cells : List Nat}

theorem Instr.touched_load (hw : w.Of fn cells) {pos input offset : Nat} {s s' : Frame α}
    (h : act A w pos (.load input offset) s = .ok s') :
    ∃ b c k a, fn.inputs[input]? = some b ∧ cells[b]? = some c ∧ s.memory.read c k = .ok a ∧
      (Instr.load input offset).touched f fn w s = [(c, k, ⟨f, b, false, a⟩)] := by
  simp only [act] at h
  split at h
  · cases h
  · rename_i c hc
    obtain ⟨k, hk, h⟩ := bind_eq_ok.1 h
    obtain ⟨a, ha, -⟩ := bind_eq_ok.1 h
    have hlt : input < fn.inputs.length := by
      rw [← length_of_mapM hw.inputs]
      exact (List.getElem?_eq_some_iff.1 hc).1
    have hb := List.getElem?_eq_getElem hlt
    obtain ⟨c', hc', hcell⟩ := getElem?_of_mapM hw.inputs hb
    obtain rfl : c = c' := Option.some.inj (hc.symm.trans hc')
    exact ⟨_, c, k, a, hb, cellOf_eq_ok.1 hcell, ha, by simp only [touched, hb, hc, hk, ha]⟩

variable (f fn) in
theorem Instr.touched_store {pos offset value : Nat} {s s' : Frame α} (h : act A w pos (.store offset value) s = .ok s') :
    ∃ k a, (Instr.store offset value).touched f fn w s = [(w.output, k, ⟨f, fn.output, true, a⟩)] ∧
      (Instr.store offset value).stored w s = [(w.output, k, a)] := by
  obtain ⟨k, hk, h⟩ := bind_eq_ok.1 h
  obtain ⟨a, ha, -⟩ := bind_eq_ok.1 h
  exact ⟨k, a, by simp only [touched, hk, ha], by simp only [stored, hk, ha]⟩

/-- An instruction loads what is there, and changes memory by its store. -/
theorem observeAct_observes (hw : w.Of fn cells) (pos : Nat) (i : Instr) (s : Frame α) :
    (observeAct A f fn w pos i s).Observes (Through f fn cells) Frame.memory s.memory := by
  unfold observeAct
  cases h : act A w pos i s with
  | error e => exact .silent fun b hb => by cases hb
  | ok s' =>
    have hmemory := act_memory h
    have hquiet : i.touched f fn w s = [] → i.stored w s = [] →
        (⟨i.touched f fn w s, .ok s'⟩ : Recording (Touch α) (Frame α)).Observes (Through f fn cells) Frame.memory s.memory := by
      intro htouched hstored
      rw [htouched]
      refine .silent fun b hb => ?_
      cases hb
      rw [hmemory, hstored, Memory.modify_overwrite_nil]
    cases i with
    | load input offset =>
      obtain ⟨b, c, k, a, hb, hcell, hread, htouched⟩ := Instr.touched_load (f := f) hw h
      rw [htouched]
      refine ⟨fun x hx => ?_, .single fun _ => hread, fun _ hs' => ?_⟩
      · obtain rfl := List.mem_singleton.1 hx
        exact ⟨rfl, List.mem_of_getElem? hb, hcell⟩
      · cases hs'
        exact hmemory.trans (Memory.modify_overwrite_nil ..)
    | store offset value =>
      obtain ⟨k, a, htouched, hstored⟩ := Instr.touched_store f fn h
      rw [htouched]
      refine ⟨fun x hx => ?_, .single (fun hload => by cases hload), fun _ hs' => ?_⟩
      · obtain rfl := List.mem_singleton.1 hx
        exact ⟨rfl, rfl, cellOf_eq_ok.1 hw.output⟩
      · cases hs'
        rw [hmemory, hstored]
        rfl
    | _ => exact hquiet rfl rfl

variable (A f fn w) in
theorem observer_follows (b : Block) (pos : Nat) :
    Recording.Follows (b.visit (.observer A f fn w) pos) (b.visit (.machine A w) pos) := by
  refine .visit A w (fun pos i => .andThen fun s => ?_) (fun _ _ => .andThen fun _ => rfl) rfl b pos
  unfold observeAct
  cases act A w pos i s <;> rfl

/-- A verified function runs as it is observed. -/
theorem Function.observe_observes (hverify : verifyBody f fn = .ok ()) (hw : w.Of fn cells) (memory : Memory α) :
    (fn.observe A f cells memory).outcome = fn.run A cells memory ∧
      (fn.observe A f cells memory).Observes (Through f fn cells) id memory := by
  obtain ⟨b, hb⟩ := exists_flatten_of_verifyBody hverify
  let start : Frame α := ⟨(Registers.zero A fn).ints, (Registers.zero A fn).floats, memory⟩
  -- the accesses of the body, and that noting them changes nothing
  obtain ⟨r, hr, hout⟩ := observer_follows A f fn w b 0 (.silent (.ok start))
  have hbody : observeBody A f fn w start = r := by
    rw [observeBody, ← hb, b.walk_flatten (.observer A f fn w) rfl (Nat.le_refl _), hr]
  have hlockstep : Lockstep fn anyFault
      (fun _ (r q : Recording (Touch α) (Frame α)) => r = q ∧ r.Observes (Through f fn cells) Frame.memory memory)
      (.observer A f fn w) (.observer A f fn w) := by
    refine ⟨?_, ?_, fun _ hr => .ok hr⟩
    · rintro pos i scopes r _ - - - - ⟨rfl, hr⟩
      exact .ok ⟨rfl, hr.andThen fun s _ => observeAct_observes hw pos i s⟩
    · rintro pos range stride k scopes r _ - ⟨rfl, hr⟩
      exact .ok ⟨rfl, hr.andThen fun s _ => .silent fun s' hs' => Frame.memory_setInt hs'⟩
  obtain ⟨-, hvisit⟩ := hlockstep.body hverify hb (s := .silent (.ok start)) (t := .silent (.ok start))
    ⟨rfl, .silent fun s hs => by cases hs; rfl⟩
  rw [hr] at hvisit
  have hobserve : fn.observe A f cells memory = r.andThen fun s => .silent (.ok s.memory) := by
    simp [Function.observe, Recording.andThen, Recording.silent, hw.inputs, hw.output, ← hbody, start]
  rw [hobserve]
  refine ⟨?_, hvisit.of_ok.2.andThen fun s _ => .silent fun m hm => by cases hm; rfl⟩
  have hrun : r.outcome = runBody A w fn.code start := by
    rw [← hb, runBody_flatten]
    exact hout
  rw [Recording.outcome_andThen, hrun, Function.run, hw.inputs, hw.output]
  rfl

end

/-- The access is of a function that the program has, from number `f` on. -/
structure Program.Issues (p : Program) (cells : List Nat) (f : Nat) (x : Nat × Int × Touch α) : Prop where
  le : f ≤ x.2.2.function
  through : ∃ fn, p.functions[x.2.2.function]? = some fn ∧ Through x.2.2.function fn cells x

/-- What is observed of a program's functions from number `f` on. -/
structure Program.Observed (p : Program) (A : Arith α) (cells : List Nat) (f : Nat) (fns : List Function) (memory : Memory α) :
    Prop where
  outcome : (observeFunctions A cells f fns memory).outcome = fns.foldlM (fun memory fn => fn.run A cells memory) memory
  observes : (observeFunctions A cells f fns memory).Observes (p.Issues cells f) id memory
  ordered : (observeFunctions A cells f fns memory).stores.Pairwise fun x y => x.2.2.function ≤ y.2.2.function

section
variable {p : Program} {A : Arith α} {cells : List Nat}

theorem Program.Allowed.wiring {k : Nat} {fn : Function} (h : p.Allowed k fn) (hcells : cells.length = p.buffers.length) :
    ∃ w : Wiring, w.Of fn cells := Wiring.exists_of fun _ hb => ⟨_, List.getElem?_eq_getElem (hcells ▸ h.present hb)⟩

theorem Program.Valid.observeFunctions (h : p.Valid) (hcells : cells.length = p.buffers.length) (fns : List Function)
    {f : Nat} (hfns : ∀ i, fns[i]? = p.functions[f + i]?) (memory : Memory α) : p.Observed A cells f fns memory := by
  induction fns generalizing f memory with
  | nil => exact ⟨rfl, .silent fun m hm => by cases hm; rfl, .nil⟩
  | cons fn fns ih =>
    have hfn : p.functions[f]? = some fn := (hfns 0).symm
    have hallowed := h.functions hfn
    obtain ⟨w, hw⟩ := hallowed.wiring hcells
    obtain ⟨hout, hobs⟩ := Function.observe_observes (A := A) hallowed.body hw memory
    have hissues : ∀ x : Nat × Int × Touch α, Through f fn cells x → p.Issues cells f x := fun x hx =>
      ⟨Nat.le_of_eq hx.function.symm, fn, hx.function ▸ hfn, hx.function ▸ hx⟩
    have hrest : ∀ memory, p.Observed A cells (f + 1) fns memory := ih fun i => by
      rw [Nat.add_assoc, Nat.add_comm 1 i, ← hfns, List.getElem?_cons_succ]
    refine ⟨?_, ?_, ?_⟩
    · simp only [TensorLoom.observeFunctions, Recording.outcome_andThen, hout, List.foldlM_cons]
      exact congrArg (fn.run A cells memory >>= ·) (funext fun memory => (hrest memory).outcome)
    · refine (hobs.mono hissues).andThen fun memory _ => (hrest memory).observes.mono fun x hx => ?_
      exact ⟨Nat.le_of_succ_le hx.le, hx.through⟩
    · -- the accesses of this function come first
      have hequal : (fn.observe A f cells memory).stores.Pairwise fun x y => x.2.2.function ≤ y.2.2.function := by
        refine List.Pairwise.imp_of_mem (fun hx hy _ => ?_) (List.pairwise_of_forall (R := fun _ _ => True) fun _ _ => trivial)
        exact Nat.le_of_eq ((hobs.each _ hx).function.trans (hobs.each _ hy).function.symm)
      simp only [TensorLoom.observeFunctions, Recording.andThen]
      split
      · exact hequal
      · rename_i memory' _
        refine List.pairwise_append.2 ⟨hequal, (hrest memory').ordered, fun x hx y hy => ?_⟩
        rw [(hobs.each x hx).function]
        exact Nat.le_of_succ_le ((hrest memory').observes.each y hy).le

/-- What is observed of a valid program. -/
theorem Program.Valid.observe (h : p.Valid) (hcells : cells.length = p.buffers.length) (memory : Memory α) :
    (p.observe A cells memory).outcome = p.run A cells memory ∧
      (p.observe A cells memory).Observes (p.Issues cells 0) id memory ∧
      (p.observe A cells memory).stores.Pairwise fun x y => x.2.2.function ≤ y.2.2.function := by
  obtain ⟨hout, hobs, hord⟩ := h.observeFunctions (A := A) hcells p.functions (f := 0) (fun i => by rw [Nat.zero_add]) memory
  exact ⟨hout, hobs, hord⟩

end

end

end TensorLoom
