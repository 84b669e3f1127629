import TensorLoom.Proofs.Lowering.Meaning
import TensorLoom.Proofs.Machine.Rerun
import TensorLoom.Proofs.Module.Leaves
/-
# Executions do not remember

Scratch is never cleared, and a function may write only a part of its output. Still an
execution depends on nothing but the contents of the leaves and which of them share a
storage: whatever a module has been through, it executes as it did when it was new
(`Module.execute_forgets`). Between two executions scratch differs from new scratch only where
a function stores (`Module.Rests`), and there it is written again before it is read.
-/

namespace TensorLoom

variable {α : Type}

/-- Where the kernel comes to its end, it has done what the machine does with the program. -/
def Kernel.Realizes (k : Kernel α) (A : Arith α) (p : Program) : Prop :=
  ∀ {cells : List Nat} {memory memory' : Memory α}, k.run cells memory = .ok memory' → p.run A cells memory = .ok memory'

theorem Kernel.machine_realizes (A : Arith α) (p : Program) : (Kernel.machine A p).Realizes A p := fun hrun => hrun

namespace Module

/-- The module with the machine for its kernel. -/
def onMachine (A : Arith α) (m : Module α) : Module α := { m with kernel := .machine A m.program }

/-- What an execution tells: why it was refused, or what it has made of the module and the
store. -/
def answer (x : Except ExecuteError Unit × Module α × Store α) : Except ExecuteError (Module α × Store α) :=
  x.1.map fun _ => x.2

/-- A module and a store with a past: the module was `m₀` once, and the store empty. -/
inductive History (m₀ : Module α) : Module α → Store α → Prop
  | new : History m₀ m₀ {}
  | store {m : Module α} {st st' : Store α} : History m₀ m st → st.Step st' → History m₀ m st'
  | execute {m m' : Module α} {st st' : Store α} {held : List StorageId} {r : Except ExecuteError Unit} :
    History m₀ m st → m.execute st held = .ok (r, m', st') → History m₀ m' st'

/-- Scratch is as in `m₀` where functions do not store. -/
structure Rests (m₀ m : Module α) : Prop where
  program : m.program = m₀.program
  kernel : m.kernel = m₀.kernel
  fits : m.Fits
  leaf : ∀ {b : Nat}, m₀.program.IsLeaf b → m.scratch[b]? = m₀.scratch[b]?
  scratch : ∀ {b q len i : Nat} {fn : Function}, m₀.program.buffers[b]? = some ⟨.scratch q, len⟩ →
    m₀.program.functions[q]? = some fn → i ∉ m₀.program.offsets fn →
    (m.scratch[b]?).bind (fun contents => contents[i]?) = (m₀.scratch[b]?).bind fun contents => contents[i]?

section
variable {m m₀ : Module α} {st st₀ : Store α} {held held₀ : List StorageId} {storages storages₀ : List (Option StorageId)}
  {memory : Memory α}

/-! ## Placement -/

/-- A leaf lies in the storage it is bound to. -/
theorem Resolved.cell_bound (h : m.Resolved st held storages) {b n len : Nat} {linked : Bool}
    (hb : m.program.buffers[b]? = some ⟨.leaf n linked, len⟩) : (cells st storages)[b]? = st.bound? n := by
  obtain ⟨s, hstorage, hbound, -⟩ := h.leaf hb
  rw [getElem?_cells hstorage, hbound]
  rfl

/-- Every buffer lies in the storage of its leaf, or behind the storages. -/
theorem Resolved.cell_cases (h : m.Resolved st held storages) (hst : st.WellFormed) {b c : Nat}
    (hc : (cells st storages)[b]? = some c) :
    (∃ n linked len, m.program.buffers[b]? = some ⟨.leaf n linked, len⟩ ∧ st.bound? n = some c ∧ c < st.contents.size) ∨
      ∃ q len, m.program.buffers[b]? = some ⟨.scratch q, len⟩ ∧ c = st.contents.size + b := by
  have hb : b < m.program.buffers.length := h.length_cells ▸ (List.getElem?_eq_some_iff.1 hc).1
  obtain ⟨⟨source, len⟩, hb⟩ : ∃ buffer, m.program.buffers[b]? = some buffer := ⟨_, List.getElem?_eq_getElem hb⟩
  cases source with
  | leaf n linked =>
    have hbound := (h.cell_bound hb).symm.trans hc
    exact .inl ⟨n, linked, len, hb, hbound, hst.bound hbound⟩
  | scratch q => exact .inr ⟨q, len, hb, Option.some.inj (hc.symm.trans (h.cell_scratch hb))⟩

theorem getElem?_start (m : Module α) (st : Store α) (b : Nat) :
    (st.contents ++ m.scratch)[st.contents.size + b]? = m.scratch[b]? := by
  rw [Array.getElem?_append_right (Nat.le_add_right ..), Nat.add_sub_cancel_left]

/-- The contents of a leaf, where memory begins with the storages of `st'`. -/
theorem Resolved.bufferIn_leaf (h : m.Resolved st held storages) (hst : st.WellFormed) {b n len : Nat} {linked : Bool}
    (hb : m.program.buffers[b]? = some ⟨.leaf n linked, len⟩) {st' : Store α}
    (hvalues : ∀ s < st.contents.size, memory[s]? = some (st'.values s)) :
    Program.bufferIn (cells st storages) memory b = (st.bound? n).map st'.values := by
  obtain ⟨s, -, hbound, -⟩ := h.leaf hb
  rw [Program.bufferIn_of_cell ((h.cell_bound hb).trans hbound), hvalues s (hst.bound hbound), hbound]
  rfl

theorem Resolved.laid (h : m.Resolved st held storages) (hst : st.WellFormed) (hfits : m.Fits) :
    m.program.Laid (cells st storages) (st.contents ++ m.scratch) := by
  refine ⟨⟨fun {b buffer} hb => ?_⟩, fun {b b' q len} hb hb' hcell => ?_⟩
  · obtain ⟨source, len⟩ := buffer
    cases source with
    | leaf n linked =>
      obtain ⟨s, -, hbound, hsize, -⟩ := h.leaf hb
      have hlt := hst.bound hbound
      refine ⟨s, (h.cell_bound hb).trans hbound, ?_⟩
      rw [Memory.lengths, Array.getElem?_append_left hlt, getElem?_contents hlt, Option.map_some, hsize]
    | scratch q =>
      obtain ⟨contents, hcontents, hsize⟩ := hfits.scratch hb
      refine ⟨_, h.cell_scratch hb, ?_⟩
      rw [Memory.lengths, getElem?_start, hcontents, Option.map_some, hsize]
  · rw [h.cell_scratch hb] at hcell
    rcases h.cell_cases hst hcell with ⟨-, -, -, -, -, hlt⟩ | ⟨-, -, -, heq⟩
    · omega
    · omega

/-- A module with a past and a new one, at stores whose leaves are the same. -/
theorem Rests.prepared (h : Rests m₀ m) (hfits : m₀.Fits) (hst : st.WellFormed) (hst₀ : st₀.WellFormed)
    (hsame : m₀.program.SameLeaves st st₀) (hres : m.Resolved st held storages) (hres₀ : m₀.Resolved st₀ held₀ storages₀) :
    m₀.program.Prepared (cells st storages) (cells st₀ storages₀) (st.contents ++ m.scratch)
      (st₀.contents ++ m₀.scratch) := by
  have hlaid := hres.laid hst h.fits
  have hlaid₀ := hres₀.laid hst₀ hfits
  rw [h.program] at hlaid
  refine ⟨hlaid, hlaid₀, fun {b b'} hb hb' => ?_, ?_, fun {b q len i fn} hb hfn hi => ?_⟩
  · obtain ⟨⟨source, len⟩, hbuffer⟩ : ∃ buffer, m₀.program.buffers[b]? = some buffer := ⟨_, List.getElem?_eq_getElem hb⟩
    obtain ⟨⟨source', len'⟩, hbuffer'⟩ : ∃ buffer, m₀.program.buffers[b']? = some buffer := ⟨_, List.getElem?_eq_getElem hb'⟩
    cases source with
    | scratch q =>
      exact ⟨fun heq => by rw [hlaid.alone hbuffer hb' heq.symm], fun heq => by rw [hlaid₀.alone hbuffer hb' heq.symm]⟩
    | leaf n linked =>
      cases source' with
      | scratch q => exact ⟨fun heq => by rw [hlaid.alone hbuffer' hb heq], fun heq => by rw [hlaid₀.alone hbuffer' hb heq]⟩
      | leaf n' linked' =>
        rw [hres₀.cell_bound hbuffer, hres₀.cell_bound hbuffer']
        rw [← h.program] at hbuffer hbuffer'
        rw [hres.cell_bound hbuffer, hres.cell_bound hbuffer']
        rw [h.program] at hbuffer hbuffer'
        exact hsame.shared ⟨b, linked, len, hbuffer⟩ ⟨b', linked', len', hbuffer'⟩
  · rintro b ⟨n, linked, len, hb⟩
    have hstart : ∀ s < st.contents.size, (st.contents ++ m.scratch)[s]? = some (st.values s) := fun s hs => by
      rw [Array.getElem?_append_left hs, getElem?_contents hs]
    have hstart₀ : ∀ s < st₀.contents.size, (st₀.contents ++ m₀.scratch)[s]? = some (st₀.values s) := fun s hs => by
      rw [Array.getElem?_append_left hs, getElem?_contents hs]
    rw [hres₀.bufferIn_leaf hst₀ hb hstart₀, hres.bufferIn_leaf hst (h.program ▸ hb) hstart]
    exact hsame.contents ⟨b, linked, len, hb⟩
  · rw [Program.elementIn, Program.elementIn, Program.bufferIn_of_cell (hres₀.cell_scratch hb),
      Program.bufferIn_of_cell (hres.cell_scratch (h.program ▸ hb)), getElem?_start, getElem?_start]
    exact h.scratch hb hfn hi

/-! ## What an execution leaves behind -/

/-- An execution changes scratch where functions store, and the storages of leaves. -/
theorem Resolved.after (h : m.Resolved st held storages) (hst : st.WellFormed) (hfits : m.Fits)
    (hspares : m.program.Spares (cells st storages) (st.contents ++ m.scratch) memory) :
    Rests m (m.after st memory).1 ∧ m.program.LeavesBe st (m.after st memory).2 := by
  have hretained : Retained m st _ _ := retained_after hspares.lengths
  refine ⟨⟨rfl, rfl, hretained.fits hfits, ?_, fun {b q len i fn} hb hfn hi => ?_⟩, rfl, rfl, hretained.size, fun {s} hs => ?_⟩
  · rintro b ⟨n, linked, len, hb⟩
    rw [getElem?_after_scratch, ← getElem?_start m st b]
    refine hspares.other fun b' hb' => ?_
    rcases h.cell_cases hst hb' with ⟨-, -, -, -, -, hlt⟩ | ⟨q, len', hscratch, heq⟩
    · omega
    · obtain rfl : b = b' := by omega
      cases hb.symm.trans hscratch
  · have hkept := hspares.scratch hb hfn hi
    rwa [Program.elementIn, Program.elementIn, Program.bufferIn_of_cell (h.cell_scratch hb),
      Program.bufferIn_of_cell (h.cell_scratch hb), getElem?_start, ← getElem?_after_scratch m] at hkept
  · by_cases hlt : s < st.contents.size
    · rw [getElem?_after_contents m memory hlt, hspares.other, Array.getElem?_append_left hlt]
      intro b hb
      rcases h.cell_cases hst hb with ⟨n, linked, len, hleaf, hbound, -⟩ | ⟨-, -, -, heq⟩
      · exact hs n ⟨b, linked, len, hleaf⟩ hbound
      · omega
    · rw [Array.getElem?_eq_none (Nat.not_lt.1 hlt), Array.getElem?_eq_none (hretained.size ▸ Nat.not_lt.1 hlt)]

theorem Rests.trans {m' : Module α} (h : Rests m₀ m) (h' : Rests m m') : Rests m₀ m' := by
  obtain ⟨p, kernel, scratch, pointers⟩ := m
  obtain rfl : p = m₀.program := h.program
  refine ⟨h'.program, h'.kernel.trans h.kernel, h'.fits, fun hb => (h'.leaf hb).trans (h.leaf hb), fun hb hfn hi => ?_⟩
  exact (h'.scratch hb hfn hi).trans (h.scratch hb hfn hi)

/-- Modules of one past have only pointers and scratch buffers to differ in. -/
theorem Rests.eq {m' : Module α} (h : Rests m₀ m) (h' : Rests m₀ m') (hpointers : m.pointers = m'.pointers)
    (hscratch : ∀ {b q len : Nat}, m₀.program.buffers[b]? = some ⟨.scratch q, len⟩ → m.scratch[b]? = m'.scratch[b]?) :
    m = m' := by
  have hsame : m.scratch = m'.scratch := by
    apply Array.ext_getElem?
    intro b
    cases hb : m₀.program.buffers[b]? with
    | none =>
      have hle := List.getElem?_eq_none_iff.1 hb
      rw [Array.getElem?_eq_none (h.fits.size ▸ h.program ▸ hle), Array.getElem?_eq_none (h'.fits.size ▸ h'.program ▸ hle)]
    | some buffer =>
      obtain ⟨source, len⟩ := buffer
      cases source with
      | leaf n linked => rw [h.leaf ⟨n, linked, len, hb⟩, h'.leaf ⟨n, linked, len, hb⟩]
      | scratch q => exact hscratch hb
  have hprogram := h.program.trans h'.program.symm
  have hkernel := h.kernel.trans h'.kernel.symm
  cases m
  cases m'
  simp_all

theorem Rests.refl (hfits : m.Fits) : Rests m m := ⟨rfl, rfl, hfits, fun _ => rfl, fun _ _ _ => rfl⟩

/-- A module after an execution, and the store. -/
theorem Fits.execute (hfits : m.Fits) (hvalid : m.program.Valid) (hst : st.WellFormed) {A : Arith α}
    (hk : m.kernel.Realizes A m.program) {m' : Module α} {st' : Store α}
    (h : m.execute st held = .ok (.ok (), m', st')) : Rests m m' ∧ m.program.LeavesBe st st' := by
  obtain ⟨storages, memory, hres, hrun, hafter⟩ := execute_eq_ok h
  have hr := resolve_eq_ok hres
  have htwice := ((Rests.refl hfits).prepared hfits hst hst (.refl _ st) hr hr).run hvalid A
  rw [hk hrun] at htwice
  have hdone := hr.after hst hfits htwice.of_ok.1
  rwa [hafter] at hdone

theorem Resolved.bufferIn_after (h : m.Resolved st held storages) (hst : st.WellFormed)
    (hbe : m.program.LeavesBe st (m.after st memory).2) {b n len : Nat} {linked : Bool}
    (hb : m.program.buffers[b]? = some ⟨.leaf n linked, len⟩) :
    Program.bufferIn (cells st storages) memory b = ((m.after st memory).2.bound? n).map (m.after st memory).2.values := by
  refine (h.bufferIn_leaf hst hb fun s hs => ?_).trans (congrArg _ (hbe.bound n).symm)
  rw [← getElem?_after_contents m memory hs]
  exact getElem?_contents (hbe.size ▸ hs)

/-- Where leaves are the same, a module with a past and a new one execute alike. -/
theorem Rests.execute (h : Rests m₀ m) (hvalid : m₀.program.Valid) (hfits : m₀.Fits) (hst : st.WellFormed)
    (hst₀ : st₀.WellFormed) (hsame : m₀.program.SameLeaves st st₀) (hres : m.resolve st held = .ok storages)
    (hres₀ : m₀.resolve st₀ held₀ = .ok storages₀) {A : Arith α} (hk : m₀.Interpreted A) :
    Matches anyFault
      (fun x x₀ => ∃ m' st' st₀', x = (.ok (), m', st') ∧ x₀ = (.ok (), m', st₀') ∧ m₀.program.SameLeaves st' st₀')
      (m.execute st held) (m₀.execute st₀ held₀) := by
  have hr := resolve_eq_ok hres
  have hr₀ := resolve_eq_ok hres₀
  rw [execute_eq hres, execute_eq hres₀, h.kernel, hk]
  obtain ⟨p, kernel, scratch, pointers⟩ := m
  obtain rfl : p = m₀.program := h.program
  refine ((h.prepared hfits hst hst₀ hsame hr hr₀).run hvalid A).bind ?_
  rintro memory memory₀ ⟨hspares, hspares₀, hbuffers⟩
  obtain ⟨hrests, hbe⟩ := hr.after hst h.fits hspares
  obtain ⟨hrests₀, hbe₀⟩ := hr₀.after hst₀ hfits hspares₀
  have hmodule : (after ⟨m₀.program, kernel, scratch, pointers⟩ st memory).1 = (m₀.after st₀ memory₀).1 := by
    refine (h.trans hrests).eq hrests₀ rfl fun {b q len} hb => ?_
    rw [getElem?_after_scratch, getElem?_after_scratch, ← Program.bufferIn_of_cell (hr.cell_scratch hb),
      ← Program.bufferIn_of_cell (hr₀.cell_scratch hb)]
    exact hbuffers b (List.getElem?_eq_some_iff.1 hb).1
  have hpair : m₀.after st₀ memory₀ = ((after ⟨m₀.program, kernel, scratch, pointers⟩ st memory).1, (m₀.after st₀ memory₀).2) :=
    Prod.ext hmodule.symm rfl
  refine .ok ⟨_, (after ⟨m₀.program, kernel, scratch, pointers⟩ st memory).2, _, rfl, congrArg (Prod.mk _) hpair, ⟨?_, ?_⟩⟩
  · rintro n ⟨b, linked, len, hb⟩
    rw [← hr.bufferIn_after hst hbe hb, ← hr₀.bufferIn_after hst₀ hbe₀ hb]
    exact hbuffers b (List.getElem?_eq_some_iff.1 hb).1
  · intro n n' hn hn'
    rw [hbe.bound, hbe.bound, hbe₀.bound, hbe₀.bound]
    exact hsame.shared hn hn'

/-- At one store the answers are the same. -/
theorem Rests.execute_same (h : Rests m₀ m) (hvalid : m₀.program.Valid) (hfits : m₀.Fits) (hst : st.WellFormed) {A : Arith α}
    (hk : m₀.Interpreted A) (held : List StorageId) : (m.execute st held).map answer = (m₀.execute st held).map answer := by
  have hresolve : m.resolve st held = m₀.resolve st held := by
    rw [resolve, resolve, h.program]
  cases hres : m₀.resolve st held with
  | error e =>
    obtain ⟨pointers, hrefused⟩ := execute_refused (hresolve.trans hres)
    obtain ⟨pointers₀, hrefused₀⟩ := execute_refused hres
    rw [hrefused, hrefused₀]
    rfl
  | ok storages =>
    have hmatch := h.execute hvalid hfits hst hst (.refl _ st) (hresolve.trans hres) hres hk
    have hrealizes : m₀.kernel.Realizes A m₀.program := hk ▸ Kernel.machine_realizes A m₀.program
    generalize hx : m.execute st held = x, hx₀ : m₀.execute st held = x₀ at hmatch
    cases hmatch with
    | fault he => rfl
    | ok hboth =>
      obtain ⟨m', st', st₀', rfl, rfl, hsame⟩ := hboth
      obtain ⟨-, hbe⟩ := h.fits.execute (h.program ▸ hvalid) hst (h.kernel ▸ h.program ▸ hrealizes) hx
      obtain ⟨-, hbe₀⟩ := hfits.execute hvalid hst hrealizes hx₀
      rw [hsame.eq (h.program ▸ hbe) hbe₀]

/-- A store can be executed on if its leaves are the same as where an execution succeeded, and
nobody holds them. -/
theorem canRun_of_sameLeaves (hsame : m₀.program.SameLeaves st st₀) (hprogram : m.program = m₀.program)
    (hcan : m.CanRun st held) (hheld : ∀ {n s : Nat}, m₀.program.HasLeaf n → st₀.bound? n = some s → s ∉ held₀) :
    m₀.CanRun st₀ held₀ := by
  intro b n len linked hb
  have hleaf : m₀.program.HasLeaf n := ⟨b, linked, len, hb⟩
  obtain ⟨hlinked, s, hbound, hsize, -⟩ := hcan (hprogram ▸ hb)
  have hvalues := hsame.contents hleaf
  rw [hbound, Option.map_some] at hvalues
  obtain ⟨s₀, hbound₀, heq⟩ := Option.map_eq_some_iff.1 hvalues.symm
  exact ⟨hlinked, s₀, hbound₀, heq ▸ hsize, hheld hleaf hbound₀⟩

/-- At stores whose leaves are the same, a success on the one side is one on the other. -/
theorem Rests.execute_ok (h : Rests m₀ m) (hvalid : m₀.program.Valid) (hfits : m₀.Fits) (hst : st.WellFormed)
    (hst₀ : st₀.WellFormed) (hsame : m₀.program.SameLeaves st st₀)
    (hheld : ∀ {n s : Nat}, m₀.program.HasLeaf n → st₀.bound? n = some s → s ∉ held₀) {A : Arith α} (hk : m₀.Interpreted A)
    {m' : Module α} {st' : Store α} (hexecute : m.execute st held = .ok (.ok (), m', st')) :
    ∃ st₀', m₀.execute st₀ held₀ = .ok (.ok (), m', st₀') ∧ m₀.program.SameLeaves st' st₀' := by
  have hcan : m₀.CanRun st₀ held₀ := canRun_of_sameLeaves hsame h.program (canRun_of_execute hexecute) hheld
  obtain ⟨storages₀, hres₀⟩ := hcan.resolve
  obtain ⟨storages, -, hres, -⟩ := execute_eq_ok hexecute
  have hmatch := h.execute hvalid hfits hst hst₀ hsame hres hres₀ hk
  rw [hexecute] at hmatch
  generalize m₀.execute st₀ held₀ = x₀ at hmatch ⊢
  cases hmatch with
  | ok hboth =>
    obtain ⟨_, _, st₀', hx, rfl, hsame'⟩ := hboth
    cases hx
    exact ⟨st₀', rfl, hsame'⟩

/-- Whatever a module has been through, its scratch is as it was where functions do not store. -/
theorem History.rests (h : History m₀ m st) (hvalid : m₀.program.Valid) (hfits : m₀.Fits) {A : Arith α}
    (hk : m₀.kernel.Realizes A m₀.program) : Rests m₀ m ∧ st.WellFormed := by
  induction h with
  | new => exact ⟨.refl hfits, ⟨by simp⟩⟩
  | store _ hstep ih => exact ⟨ih.1, hstep.wellFormed ih.2⟩
  | @execute m m' st st' held r _ hexecute ih =>
    obtain ⟨hrests, hst⟩ := ih
    cases r with
    | ok =>
      obtain ⟨hrests', hbe⟩ :=
        hrests.fits.execute (hrests.program ▸ hvalid) hst (hrests.kernel ▸ hrests.program ▸ hk) hexecute
      exact ⟨hrests.trans hrests', hbe.wellFormed hst⟩
    | error e =>
      obtain ⟨-, pointers, hx⟩ := resolve_of_refused hexecute
      cases hx
      exact ⟨⟨hrests.program, hrests.kernel, ⟨hrests.fits.size, hrests.fits.scratch⟩, hrests.leaf, hrests.scratch⟩, hst⟩

/-! ## Other kernels -/

/-- A kernel that realizes the program succeeds only where the machine does the same. -/
theorem execute_onMachine {A : Arith α} (hk : m.kernel.Realizes A m.program) {m' : Module α} {st' : Store α}
    (h : m.execute st held = .ok (.ok (), m', st')) :
    (m.onMachine A).execute st held = .ok (.ok (), m'.onMachine A, st') := by
  obtain ⟨storages, memory, hres, hrun, hafter⟩ := execute_eq_ok h
  have hres' : (m.onMachine A).resolve st held = .ok storages := hres
  obtain ⟨rfl, rfl⟩ := Prod.mk.inj hafter
  rw [execute_eq hres']
  exact congrArg (Except.map _) (hk hrun)

theorem onMachine_inj {A : Arith α} {m' : Module α} (h : m.onMachine A = m'.onMachine A) (hkernel : m.kernel = m'.kernel) :
    m = m' := by
  cases m
  cases m'
  simp_all [onMachine]

theorem Rests.onMachine (h : Rests m₀ m) (A : Arith α) : Rests (m₀.onMachine A) (m.onMachine A) := by
  refine ⟨h.program, ?_, ⟨h.fits.size, h.fits.scratch⟩, h.leaf, h.scratch⟩
  simp only [Module.onMachine, h.program]

end

/-- A module with a past executes as a new one, whose scratch is all zeros. Where the machine is
the kernel, the answer is the same at the same store, be it a refusal or a fault. Where any kernel
that realizes the program comes to its end, a new module has the same scratch and the same leaves
in the end, at any store in which the leaves hold the same and share storages in the same way: the
machine does come to its end there, and the kernel ends in nothing else. -/
theorem execute_forgets {A : Arith α} {p : Program} (hverify : p.verify = .ok ()) {k : Kernel α} (hk : k.Realizes A p)
    {m₀ m : Module α} (hcreate : create A p k = .ok m₀) {st : Store α} (h : History m₀ m st) (held : List StorageId) :
    (∀ {b f len : Nat}, p.buffers[b]? = some ⟨.scratch f, len⟩ → m₀.scratch[b]? = some (Array.replicate len (A.lit 0.0))) ∧
      (k = .machine A p → (m.execute st held).map answer = (m₀.execute st held).map answer) ∧
      ∀ {st₀ : Store α} {held₀ : List StorageId} {m' : Module α} {st' : Store α}, st₀.WellFormed → p.SameLeaves st st₀ →
        (∀ {n s : Nat}, p.HasLeaf n → st₀.bound? n = some s → s ∉ held₀) → m.execute st held = .ok (.ok (), m', st') →
        ∃ st₀', (m₀.onMachine A).execute st₀ held₀ = .ok (.ok (), m'.onMachine A, st₀') ∧ p.SameLeaves st' st₀' ∧
          ∀ x, m₀.execute st₀ held₀ = .ok x → x = (.ok (), m', st₀') := by
  obtain ⟨rfl, hfits⟩ := create_fits hcreate
  obtain rfl := create_kernel hcreate
  have hvalid := Program.verify_eq_ok_iff.1 hverify
  obtain ⟨hrests, hst⟩ := h.rests hvalid hfits hk
  refine ⟨create_scratch hcreate, fun hmachine => hrests.execute_same hvalid hfits hst hmachine held, ?_⟩
  intro st₀ held₀ m' st' hst₀ hsame hheld hexecute
  have hrealizes : m.kernel.Realizes A m.program := hrests.kernel ▸ hrests.program ▸ hk
  have hfits' : (m₀.onMachine A).Fits := ⟨hfits.size, hfits.scratch⟩
  obtain ⟨st₀', hexecute₀, hsame'⟩ := (hrests.onMachine A).execute_ok hvalid hfits' hst hst₀ hsame hheld rfl
    (execute_onMachine hrealizes hexecute)
  refine ⟨st₀', hexecute₀, hsame', ?_⟩
  rintro ⟨r, m'', st''⟩ hx
  cases r with
  | error e =>
    -- the storages were found, whatever the kernel does with them
    obtain ⟨storages₀, -, hres₀, -⟩ := execute_eq_ok hexecute₀
    cases (resolve_of_refused hx).1.symm.trans hres₀
  | ok =>
    obtain ⟨hmodule, rfl⟩ : m''.onMachine A = m'.onMachine A ∧ st'' = st₀' := by
      simpa using (execute_onMachine hk hx).symm.trans hexecute₀
    have hkernel : m''.kernel = m'.kernel := by
      rw [(execute_retains hx).kernel, (execute_retains hexecute).kernel, hrests.kernel]
    rw [onMachine_inj hmodule hkernel]

/-- Puts the first element of a leaf in the middle of scratch, and doubles the leaf in place. -/
def middleOnly : Program :=
  ⟨[⟨[.int 0, .load 0 0, .int 1, .store 2 1], [0], 1⟩,
      ⟨[.loop 2 1, .load 0 0, .binary .add 1 1, .store 0 2, .close], [0], 0⟩],
    [⟨.leaf 0 true, 2⟩, ⟨.scratch 0, 3⟩], some 1⟩

/-- The module of `middleOnly` with the given scratch. -/
def middle (values : Array Nat) : Module Nat :=
  ⟨middleOnly, .machine Arith.natural middleOnly, #[#[], values], [none, none]⟩

/-- The leaf is bound to the only storage. -/
def leafBound (values : Array Nat) : Store Nat := ⟨#[values], [("x", 0)], [(0, 0)]⟩

/-- The leaf is bound to the second of two storages. -/
def leafMoved (values : Array Nat) : Store Nat := ⟨#[#[1], values], [("x", 1)], [(0, 1)]⟩

theorem middle_execute {a b : Nat} {values values' leaf : Array Nat}
    (h : middleOnly.run Arith.natural [0, 2] #[#[a, b], #[], values] = .ok #[leaf, #[], values']) :
    (middle values).execute (leafBound #[a, b]) [] = .ok (.ok (), middle values', leafBound leaf) := by
  have hresolve : (middle values).resolve (leafBound #[a, b]) [] = .ok [some 0, none] := rfl
  rw [execute_eq hresolve]
  exact congrArg (Except.map _) h

/-- The first execution is refused, and the leaf is rewritten after the second. -/
theorem execute_forgets_middleOnly :
    middleOnly.verify = .ok () ∧ create Arith.natural middleOnly (.machine Arith.natural middleOnly) = .ok (middle #[0, 0, 0]) ∧
      History (middle #[0, 0, 0]) (middle #[0, 3, 0]) (leafBound #[5, 7]) ∧
      (middle #[0, 3, 0]).execute (leafBound #[5, 7]) [] = .ok (.ok (), middle #[0, 5, 0], leafBound #[10, 14]) ∧
      ((middle #[0, 0, 0]).execute (leafBound #[5, 7]) []).map answer = .ok (.ok (middle #[0, 5, 0], leafBound #[10, 14])) ∧
      ∃ st, (middle #[0, 0, 0]).execute (leafMoved #[5, 7]) [] = .ok (.ok (), middle #[0, 5, 0], st) ∧
        middleOnly.SameLeaves (leafBound #[10, 14]) st := by
  have hverify : middleOnly.verify = .ok () := by decide
  have hcreate : create Arith.natural middleOnly (.machine Arith.natural middleOnly) = .ok (middle #[0, 0, 0]) := rfl
  have hrefused : (middle #[0, 0, 0]).execute {} [] = .ok (.error (.unbound 0), middle #[0, 0, 0], {}) := rfl
  have hbind : Store.bind (Store.create {} "x" #[3, 4]) ⟨0, 2⟩ 0 = .ok (leafBound #[3, 4]) := rfl
  have hfirst : (middle #[0, 0, 0]).execute (leafBound #[3, 4]) [] =
      .ok (.ok (), middle #[0, 3, 0], leafBound #[6, 8]) := middle_execute (by decide +kernel)
  have hcopy : (leafBound #[6, 8]).copyFrom 0 #[5, 7] = .ok (leafBound #[5, 7]) := rfl
  have hsecond : (middle #[0, 3, 0]).execute (leafBound #[5, 7]) [] =
      .ok (.ok (), middle #[0, 5, 0], leafBound #[10, 14]) := middle_execute (by decide +kernel)
  have hhistory : History (middle #[0, 0, 0]) (middle #[0, 3, 0]) (leafBound #[5, 7]) := by
    apply History.store _ (.copy hcopy)
    apply History.execute _ hfirst
    apply History.store _ (.bind hbind)
    apply History.store _ (.create {} "x" #[3, 4])
    exact .execute .new hrefused
  have hleaf : ∀ {n : Nat}, middleOnly.HasLeaf n → n = 0 := by
    rintro n ⟨b, linked, len, hb⟩
    obtain ⟨⟨hn, -⟩, -⟩ : (n = 0 ∧ linked = true) ∧ len = 2 := by simpa [middleOnly] using List.mem_of_getElem? hb
    exact hn
  obtain ⟨-, hsame, hmoved⟩ := execute_forgets hverify (Kernel.machine_realizes Arith.natural middleOnly) hcreate hhistory []
  refine ⟨hverify, hcreate, hhistory, hsecond, (hsame rfl).symm.trans (congrArg (Except.map answer) hsecond), ?_⟩
  have hleaves : middleOnly.SameLeaves (leafBound #[5, 7]) (leafMoved #[5, 7]) := by
    refine ⟨fun hn => ?_, fun hn hn' => ?_⟩
    · rw [hleaf hn]
      rfl
    · rw [hleaf hn, hleaf hn']
      exact iff_of_true rfl rfl
  obtain ⟨st, hexecute, hst, -⟩ := hmoved ⟨by simp [leafMoved]⟩ hleaves (fun _ _ => List.not_mem_nil) hsecond
  exact ⟨st, hexecute, hst⟩

end Module

end TensorLoom
