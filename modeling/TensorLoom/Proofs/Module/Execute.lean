import TensorLoom.Module
import TensorLoom.Proofs.Lowering.Run
/-
# Executions

An execution runs the kernel on the storages of the leaves (`Module.execute_eq`), whatever
earlier ones have left in the pointers, or is refused and leaves nothing else behind
(`Module.execute_refused`). A module of a sound program that the loop machine runs executes
whenever its leaves are bound to storages that can be taken. Scratch then holds the values
of its nodes at the contents that the store had before, overwritten leaves the values they
were given, and every other storage is as it was (`Module.execute_ok`).
-/

namespace TensorLoom

variable {α : Type}

/-- The contents of the leaves in a store. -/
def Store.leaves (st : Store α) : Leaves α := fun n => ((st.bound? n).map st.values).getD #[]

/-- Some function of the program writes the storage of the leaf. -/
def Program.Overwrites (p : Program) (n : Nat) : Prop :=
  ∃ fn ∈ p.functions, ∃ linked len, p.buffers[fn.output]? = some ⟨.leaf n linked, len⟩

/-- No other leaf of the program is bound to the storage of a leaf that is overwritten. -/
def Program.Unshared (p : Program) (st : Store α) : Prop :=
  ∀ {n n' b s len : Nat} {linked : Bool}, p.Overwrites n → p.buffers[b]? = some ⟨.leaf n' linked, len⟩ →
    st.bound? n = some s → st.bound? n' = some s → n' = n

namespace Module

/-- The scratch buffers have their lengths. -/
structure Fits (m : Module α) : Prop where
  size : m.scratch.size = m.program.buffers.length
  scratch : ∀ {b f len : Nat}, m.program.buffers[b]? = some ⟨.scratch f, len⟩ →
    ∃ contents, m.scratch[b]? = some contents ∧ contents.size = len

/-- The loop machine runs the program. -/
def Interpreted (A : Arith α) (m : Module α) : Prop := m.kernel = .machine A m.program

/-- New scratch is all zeros. -/
theorem create_scratch {A : Arith α} {p : Program} {k : Kernel α} {m : Module α} (h : create A p k = .ok m) {b f len : Nat}
    (hb : p.buffers[b]? = some ⟨.scratch f, len⟩) : m.scratch[b]? = some (Array.replicate len (A.lit 0.0)) := by
  obtain ⟨scratch, hscratch, hm⟩ := bind_eq_ok.1 h
  obtain rfl := Except.ok.inj hm
  obtain ⟨contents, hcontents, hallocate⟩ := getElem?_of_mapM hscratch hb
  simp only [Source.isLeaf, Bool.false_eq_true, if_false, allocate] at hallocate
  split at hallocate
  · simp [hcontents, ← Except.ok.inj hallocate]
  · cases hallocate

theorem create_fits {A : Arith α} {p : Program} {k : Kernel α} {m : Module α} (h : create A p k = .ok m) :
    m.program = p ∧ m.Fits := by
  have hprogram : m.program = p ∧ m.scratch.size = p.buffers.length := by
    obtain ⟨scratch, hscratch, hm⟩ := bind_eq_ok.1 h
    obtain rfl := Except.ok.inj hm
    exact ⟨rfl, by simp [length_of_mapM hscratch]⟩
  obtain ⟨rfl, hsize⟩ := hprogram
  exact ⟨rfl, hsize, fun hb => ⟨_, create_scratch h hb, Array.size_replicate⟩⟩

theorem create_kernel {A : Arith α} {p : Program} {k : Kernel α} {m : Module α} (h : create A p k = .ok m) :
    m.kernel = k := by
  obtain ⟨scratch, -, hm⟩ := bind_eq_ok.1 h
  obtain rfl := Except.ok.inj hm
  rfl

theorem create_interpreted {A : Arith α} {p : Program} {m : Module α} (h : create A p (.machine A p) = .ok m) :
    m.Interpreted A := by
  rw [Interpreted, (create_fits h).1, create_kernel h]

/-! ## Storages -/

/-- The storage of every buffer, or the first reason why the program cannot run. -/
def resolve (m : Module α) (st : Store α) (held : List StorageId) :
    Except ExecuteError (List (Option StorageId)) := do
  let storages ← m.program.buffers.mapM (storageOf st)
  (m.program.buffers.zip storages).forM fun (b, s) => checkStorage st held b s
  return storages

/-- Every leaf of the program is bound to a live storage of its length that nobody holds. -/
def CanRun (m : Module α) (st : Store α) (held : List StorageId) : Prop :=
  ∀ {b n len : Nat} {linked : Bool}, m.program.buffers[b]? = some ⟨.leaf n linked, len⟩ →
    linked = true ∧ ∃ s, st.bound? n = some s ∧ (st.values s).size = len ∧ s ∉ held

theorem CanRun.resolve {m : Module α} {st : Store α} {held : List StorageId} (h : m.CanRun st held) :
    ∃ storages, m.resolve st held = .ok storages := by
  have hstorage : ∀ b ∈ m.program.buffers, ∃ s, storageOf st b = .ok s := by
    rintro ⟨source, len⟩ hmem
    obtain ⟨b, hb⟩ := List.mem_iff_getElem?.1 hmem
    cases source with
    | scratch f => exact ⟨none, rfl⟩
    | leaf n linked =>
      obtain ⟨rfl, s, hbound, -⟩ := h hb
      exact ⟨some s, by simp [storageOf, hbound]⟩
  obtain ⟨storages, hstorages⟩ := exists_mapM_eq_ok hstorage
  refine ⟨storages, bind_eq_ok.2 ⟨storages, hstorages, bind_eq_ok.2 ⟨(), forM_eq_ok.2 ?_, rfl⟩⟩⟩
  rintro ⟨⟨source, len⟩, storage⟩ hmem
  obtain ⟨b, hb⟩ := List.mem_iff_getElem?.1 hmem
  obtain ⟨hb, hstorage⟩ := List.getElem?_zip_eq_some.1 hb
  cases source with
  | scratch f => rfl
  | leaf n linked =>
    obtain ⟨rfl, s, hbound, hsize, hheld⟩ := h hb
    obtain ⟨storage', hstorage', hof⟩ := getElem?_of_mapM hstorages hb
    obtain rfl : storage = storage' := Option.some.inj (hstorage.symm.trans hstorage')
    simp only [storageOf, if_true, hbound, Except.ok.injEq] at hof
    simp [checkStorage, ← hof, hheld, hsize]

/-- A storage was found for every leaf of the program, and can be taken. -/
structure Resolved (m : Module α) (st : Store α) (held : List StorageId) (storages : List (Option StorageId)) : Prop where
  length : storages.length = m.program.buffers.length
  linked : ∀ {b n len : Nat} {linked : Bool}, m.program.buffers[b]? = some ⟨.leaf n linked, len⟩ → linked = true
  leaf : ∀ {b n len : Nat} {linked : Bool}, m.program.buffers[b]? = some ⟨.leaf n linked, len⟩ →
    ∃ s, storages[b]? = some (some s) ∧ st.bound? n = some s ∧ (st.values s).size = len ∧ s ∉ held
  scratch : ∀ {b f len : Nat}, m.program.buffers[b]? = some ⟨.scratch f, len⟩ → storages[b]? = some none

theorem resolve_eq_ok {m : Module α} {st : Store α} {held : List StorageId} {storages : List (Option StorageId)}
    (h : m.resolve st held = .ok storages) : m.Resolved st held storages := by
  obtain ⟨storages', hstorages, hbind⟩ := bind_eq_ok.1 h
  obtain ⟨_, hcheck, hpure⟩ := bind_eq_ok.1 hbind
  obtain rfl := Except.ok.inj hpure
  rw [forM_eq_ok] at hcheck
  refine ⟨length_of_mapM hstorages, fun {b n len linked} hb => ?_, fun {b n len linked} hb => ?_,
    fun {b f len} hb => ?_⟩
  · obtain ⟨storage, -, hof⟩ := getElem?_of_mapM hstorages hb
    cases linked with
    | true => rfl
    | false => simp [storageOf] at hof
  · obtain ⟨storage, hstorage, hof⟩ := getElem?_of_mapM hstorages hb
    have hmem : (⟨.leaf n linked, len⟩, storage) ∈ m.program.buffers.zip storages' :=
      List.mem_iff_getElem?.2 ⟨b, List.getElem?_zip_eq_some.2 ⟨hb, hstorage⟩⟩
    have hchecked := hcheck _ hmem
    simp only [storageOf] at hof
    cases linked with
    | false => simp at hof
    | true =>
      cases hbound : st.bound? n with
      | none => simp [hbound] at hof
      | some s =>
        simp only [if_true, hbound, Except.ok.injEq] at hof
        subst hof
        refine ⟨s, hstorage, rfl, ?_⟩
        simp only [checkStorage] at hchecked
        split at hchecked
        · cases hchecked
        · rename_i hheld
          split at hchecked
          · cases hchecked
          · rename_i hsize
            exact ⟨Decidable.of_not_not hsize, hheld⟩
  · obtain ⟨storage, hstorage, hof⟩ := getElem?_of_mapM hstorages hb
    obtain rfl : none = storage := Except.ok.inj hof
    exact hstorage

/-! ## Pointers -/

section
variable {m : Module α} {st : Store α} {held : List StorageId} {storages : List (Option StorageId)}

/-- Where all storages can be taken, the pointers that were there before are all overwritten. -/
theorem take_of_ok {entries : List (Buffer × Option StorageId)}
    (h : (entries.forM fun x => checkStorage st held x.1 x.2) = .ok ()) (pointers : List (Option StorageId)) :
    take st held entries pointers = (.ok (), entries.map Prod.snd) := by
  induction entries generalizing pointers with
  | nil => rfl
  | cons x entries ih =>
    rw [forM_cons, bind_eq_ok] at h
    obtain ⟨_, hx, hrest⟩ := h
    rw [take, hx, ih hrest]
    rfl

theorem take_of_error {entries : List (Buffer × Option StorageId)} {e : ExecuteError}
    (h : (entries.forM fun x => checkStorage st held x.1 x.2) = .error e) (pointers : List (Option StorageId)) :
    (take st held entries pointers).1 = .error e := by
  induction entries generalizing pointers with
  | nil => cases h
  | cons x entries ih =>
    rw [forM_cons] at h
    rw [take]
    cases hx : checkStorage st held x.1 x.2 with
    | error e' =>
      rw [hx] at h
      cases h
      rfl
    | ok =>
      rw [hx] at h
      exact ih h _

/-- The module and the store that an execution makes of the memory it ran in. -/
def after (m : Module α) (st : Store α) (memory : Memory α) : Module α × Store α :=
  ({ m with scratch := memory.extract st.contents.size memory.size, pointers := m.program.buffers.map fun _ => none },
    { st with contents := memory.extract 0 st.contents.size })

/-- Where all storages are found and can be taken, the kernel runs on them. -/
theorem execute_eq (h : m.resolve st held = .ok storages) :
    m.execute st held = (m.kernel.run (cells st storages) (st.contents ++ m.scratch)).map
      fun memory => (.ok (), m.after st memory) := by
  obtain ⟨storages', hstorages, hbind⟩ := bind_eq_ok.1 h
  obtain ⟨_, hcheck, hpure⟩ := bind_eq_ok.1 hbind
  obtain rfl := Except.ok.inj hpure
  have hlength := length_of_mapM hstorages
  have hpointers : (m.program.buffers.zip storages').map Prod.snd = storages' := List.map_snd_zip (Nat.le_of_eq hlength)
  have hnone : storages'.map (fun _ => (none : Option StorageId)) = m.program.buffers.map fun _ => none := by
    rw [List.map_const', List.map_const', hlength]
  rw [execute, hstorages]
  simp only [take_of_ok hcheck, hpointers, hnone]
  cases m.kernel.run (cells st storages') (st.contents ++ m.scratch) <;> rfl

/-- Otherwise nothing runs, and nothing but pointers is changed. -/
theorem execute_refused {e : ExecuteError} (h : m.resolve st held = .error e) :
    ∃ pointers, m.execute st held = .ok (.error e, { m with pointers := pointers }, st) := by
  rw [execute]
  rw [resolve] at h
  cases hstorages : m.program.buffers.mapM (storageOf st) with
  | error e' =>
    rw [hstorages] at h
    cases h
    exact ⟨m.pointers, rfl⟩
  | ok storages =>
    rw [hstorages] at h
    cases hcheck : (m.program.buffers.zip storages).forM fun x => checkStorage st held x.1 x.2 with
    | ok =>
      change ((m.program.buffers.zip storages).forM fun x => checkStorage st held x.1 x.2) >>= _ = _ at h
      rw [hcheck] at h
      cases h
    | error e' =>
      change ((m.program.buffers.zip storages).forM fun x => checkStorage st held x.1 x.2) >>= _ = _ at h
      rw [hcheck] at h
      cases h
      cases htake : take st held (m.program.buffers.zip storages) m.pointers with
      | mk result pointers =>
        have hresult := take_of_error hcheck m.pointers
        rw [htake] at hresult
        obtain rfl : result = .error e := hresult
        exact ⟨pointers, by simp only [htake]⟩

theorem resolve_of_refused {e : ExecuteError} {x : Module α × Store α} (h : m.execute st held = .ok (.error e, x)) :
    m.resolve st held = .error e ∧ ∃ pointers, x = ({ m with pointers := pointers }, st) := by
  cases hres : m.resolve st held with
  | error e' =>
    obtain ⟨pointers, hrefused⟩ := execute_refused hres
    cases hrefused.symm.trans h
    exact ⟨rfl, pointers, rfl⟩
  | ok storages =>
    rw [execute_eq hres] at h
    cases hrun : m.kernel.run (cells st storages) (st.contents ++ m.scratch) <;> rw [hrun] at h <;> cases h

/-- An execution that succeeds has found its storages and run the kernel on them. -/
theorem execute_eq_ok {m' : Module α} {st' : Store α} (h : m.execute st held = .ok (.ok (), m', st')) :
    ∃ storages memory, m.resolve st held = .ok storages ∧
      m.kernel.run (cells st storages) (st.contents ++ m.scratch) = .ok memory ∧ m.after st memory = (m', st') := by
  cases hres : m.resolve st held with
  | error e =>
    obtain ⟨pointers, hrefused⟩ := execute_refused hres
    cases hrefused.symm.trans h
  | ok storages =>
    rw [execute_eq hres] at h
    cases hrun : m.kernel.run (cells st storages) (st.contents ++ m.scratch) with
    | error e =>
      rw [hrun] at h
      cases h
    | ok memory =>
      rw [hrun] at h
      exact ⟨storages, memory, rfl, hrun, congrArg Prod.snd (Except.ok.inj h)⟩

/-- Where an execution succeeds, every leaf of the program was bound as it should be. -/
theorem canRun_of_execute {m' : Module α} {st' : Store α} (h : m.execute st held = .ok (.ok (), m', st')) : m.CanRun st held := by
  intro b n len linked hb
  obtain ⟨storages, -, hres, -⟩ := execute_eq_ok h
  have hresolved := resolve_eq_ok hres
  obtain ⟨s, -, hstorage⟩ := hresolved.leaf hb
  exact ⟨hresolved.linked hb, s, hstorage⟩

end

/-! ## Placement -/

section
variable {m : Module α} {st : Store α} {held : List StorageId} {storages : List (Option StorageId)}

theorem getElem?_cells {b : Nat} {s : Option StorageId} (h : storages[b]? = some s) :
    (cells st storages)[b]? = some (s.getD (st.contents.size + b)) := by
  simp [cells, h]

/-- A storage of some elements exists. -/
theorem lt_of_values {s : StorageId} (h : 0 < (st.values s).size) : s < st.contents.size := by
  unfold Store.values at h
  by_contra hge
  rw [Array.getD_eq_getD_getElem?, Array.getElem?_eq_none (Nat.not_lt.1 hge)] at h
  simp at h

theorem getElem?_contents {s : StorageId} (h : s < st.contents.size) : st.contents[s]? = some (st.values s) := by
  rw [Store.values, Array.getD_eq_getD_getElem?, Array.getElem?_eq_getElem h, Option.getD_some]

theorem leaves_of_bound {n s : Nat} (h : st.bound? n = some s) : st.leaves n = st.values s := by
  rw [Store.leaves, h]
  rfl

theorem Resolved.length_cells (h : m.Resolved st held storages) :
    (cells st storages).length = m.program.buffers.length := by
  rw [cells, List.length_map, List.length_zipIdx, h.length]

/-- Scratch lies behind the storages. -/
theorem Resolved.cell_scratch (h : m.Resolved st held storages) {b f len : Nat}
    (hb : m.program.buffers[b]? = some ⟨.scratch f, len⟩) : (cells st storages)[b]? = some (st.contents.size + b) :=
  getElem?_cells (h.scratch hb)

/-- A leaf lies in the storage it is bound to. -/
theorem Resolved.cell_leaf (h : m.Resolved st held storages) {b n len : Nat} {linked : Bool}
    (hb : m.program.buffers[b]? = some ⟨.leaf n linked, len⟩) (hlen : 0 < len) :
    ∃ s : Nat, st.bound? n = some s ∧ (cells st storages)[b]? = some s ∧ s < st.contents.size ∧
      st.contents[s]? = some (st.leaves n) ∧ (st.leaves n).size = len := by
  obtain ⟨s, hstorage, hbound, hsize, -⟩ := h.leaf hb
  have hpos : 0 < (st.values s).size := hsize ▸ hlen
  rw [leaves_of_bound hbound]
  exact ⟨s, hbound, getElem?_cells hstorage, lt_of_values hpos, getElem?_contents (lt_of_values hpos), hsize⟩

/-- The memory of an execution has every buffer in its place. -/
theorem Resolved.placed {g : Graph} (hg : g.WellFormed) {l : Lowering} {nodes : List Nat} (hs : Lowering.Sound g l nodes)
    (hm : m.program = l.program) (hfits : m.Fits) (h : m.Resolved st held storages) (hunshared : m.program.Unshared st) :
    m.program.Placed st.leaves (cells st storages) (st.contents ++ m.scratch) := by
  obtain ⟨p, kernel, scratch, pointers⟩ := m
  obtain rfl : p = l.program := hm
  refine ⟨fun hb => ?_, fun {b f len} hb => ?_, fun {f b c fn} hfn hc hc' => ?_⟩
  · obtain ⟨s, -, hcell, hlt, hcontents, hsize⟩ := h.cell_leaf hb (hs.leaf_pos hg hb)
    exact ⟨s, hcell, by rw [Array.getElem?_append_left hlt, hcontents], hsize⟩
  · obtain ⟨contents, hcontents, hsize⟩ := hfits.scratch hb
    refine ⟨_, contents, h.cell_scratch hb, ?_, hsize⟩
    rw [Array.getElem?_append_right (Nat.le_add_right ..), Nat.add_sub_cancel_left, hcontents]
  · have hlt : b < l.program.buffers.length := h.length_cells ▸ (List.getElem?_eq_some_iff.1 hc').1
    obtain ⟨⟨source, len⟩, hb⟩ : ∃ buffer, l.program.buffers[b]? = some buffer := ⟨_, List.getElem?_eq_getElem hlt⟩
    obtain ⟨id, hid⟩ := hs.exists_node hfn
    obtain ⟨-, hwrites⟩ := hs.functions hfn hid
    rcases hwrites with ⟨len', hout⟩ | ⟨n, linked, len', hout, -⟩
    · have hc₁ : c = st.contents.size + fn.output := Option.some.inj (hc.symm.trans (h.cell_scratch hout))
      cases source with
      | leaf n linked =>
        obtain ⟨s, -, hcell, hs', -⟩ := h.cell_leaf hb (hs.leaf_pos hg hb)
        have hc₂ : c = s := Option.some.inj (hc'.symm.trans hcell)
        omega
      | scratch f' =>
        have hc₂ : c = st.contents.size + b := Option.some.inj (hc'.symm.trans (h.cell_scratch hb))
        omega
    · obtain ⟨s, hbound, hcell, hs', -⟩ := h.cell_leaf hout (hs.leaf_pos hg hout)
      have hc₁ : c = s := Option.some.inj (hc.symm.trans hcell)
      cases source with
      | leaf n' linked' =>
        obtain ⟨s', hbound', hcell', -⟩ := h.cell_leaf hb (hs.leaf_pos hg hb)
        have hc₂ : c = s' := Option.some.inj (hc'.symm.trans hcell')
        rw [← hc₁] at hbound
        rw [← hc₂] at hbound'
        have hover : l.program.Overwrites n := ⟨fn, List.mem_of_getElem? hfn, linked, len', hout⟩
        obtain rfl := hunshared hover hb hbound hbound'
        exact hs.unique hb hout
      | scratch f' =>
        have hc₂ : c = st.contents.size + b := Option.some.inj (hc'.symm.trans (h.cell_scratch hb))
        omega

theorem getElem?_after_scratch (m : Module α) (st : Store α) (memory : Memory α) (b : Nat) :
    (m.after st memory).1.scratch[b]? = memory[st.contents.size + b]? := by
  show (memory.extract st.contents.size memory.size)[b]? = _
  rw [Array.getElem?_extract, Nat.min_self]
  split
  · rfl
  · rw [Array.getElem?_eq_none (by omega)]

theorem getElem?_after_contents (m : Module α) (memory : Memory α) {s : Nat} (hs : s < st.contents.size) :
    (m.after st memory).2.contents[s]? = memory[s]? := by
  show (memory.extract 0 st.contents.size)[s]? = _
  rw [Array.getElem?_extract, Nat.zero_add]
  split
  · rfl
  · rw [Array.getElem?_eq_none (by omega)]

/-- What no execution changes, be it refused or not. -/
structure Retained (m : Module α) (st : Store α) (m' : Module α) (st' : Store α) : Prop where
  program : m'.program = m.program
  kernel : m'.kernel = m.kernel
  fits : m.Fits → m'.Fits
  names : st'.names = st.names
  bindings : st'.bindings = st.bindings
  size : st'.contents.size = st.contents.size
  values : ∀ s, (st'.values s).size = (st.values s).size

/-- Where no length has changed in memory. -/
theorem retained_after {memory : Memory α} (hlengths : memory.lengths = (st.contents ++ m.scratch).lengths) :
    Retained m st (m.after st memory).1 (m.after st memory).2 := by
  have hmemory : memory.size = st.contents.size + m.scratch.size := by
    rw [Memory.size_eq hlengths, Array.size_append]
  have hsize : (m.after st memory).2.contents.size = st.contents.size := by
    simp only [after, Array.size_extract]
    omega
  refine ⟨rfl, rfl, fun hfits => ⟨?_, fun {b f len} hb => ?_⟩, rfl, rfl, hsize, fun s => ?_⟩
  · simp only [after, Array.size_extract, ← hfits.size]
    omega
  · obtain ⟨contents, hcontents, hlen⟩ := hfits.scratch hb
    have hcell : memory.lengths (st.contents.size + b) = some len := by
      rw [hlengths, Memory.lengths, Array.getElem?_append_right (Nat.le_add_right ..), Nat.add_sub_cancel_left, hcontents,
        Option.map_some, hlen]
    rw [getElem?_after_scratch]
    exact Option.map_eq_some_iff.1 hcell
  · by_cases hlt : s < st.contents.size
    · have hcell : (memory[s]?).map Array.size = ((st.contents ++ m.scratch)[s]?).map Array.size := congrFun hlengths s
      rw [← getElem?_after_contents m memory hlt, getElem?_contents (hsize ▸ hlt), Array.getElem?_append_left hlt,
        getElem?_contents hlt] at hcell
      exact Option.some.inj hcell
    · have hge : (m.after st memory).2.contents.size ≤ s := hsize ▸ Nat.not_lt.1 hlt
      simp [Store.values, hge, Nat.not_lt.1 hlt]

theorem execute_retains {r : Except ExecuteError Unit} {m' : Module α} {st' : Store α}
    (h : m.execute st held = .ok (r, m', st')) : Retained m st m' st' := by
  cases hres : m.resolve st held with
  | error e =>
    obtain ⟨pointers, hrefused⟩ := execute_refused hres
    cases hrefused.symm.trans h
    exact ⟨rfl, rfl, fun hfits => ⟨hfits.size, hfits.scratch⟩, rfl, rfl, rfl, fun _ => rfl⟩
  | ok storages =>
    rw [execute_eq hres] at h
    cases hrun : m.kernel.run (cells st storages) (st.contents ++ m.scratch) with
    | error e =>
      rw [hrun] at h
      cases h
    | ok memory =>
      rw [hrun] at h
      cases h
      exact retained_after (m.kernel.lengths hrun)

/-- What an execution does to the module and the store. -/
structure Executed (g : Graph) (A : Arith α) (nodes : List Nat) (m : Module α) (st : Store α) (m' : Module α)
    (st' : Store α) : Prop extends Retained m st m' st' where
  scratch : ∀ {b f id len : Nat}, m.program.buffers[b]? = some ⟨.scratch f, len⟩ → nodes[f]? = some id →
    m'.scratch[b]? = some (g.value A.toAlgebra st.leaves id).toArray
  overwritten : ∀ {f id n s len : Nat} {fn : Function} {linked : Bool}, m.program.functions[f]? = some fn →
    nodes[f]? = some id → m.program.buffers[fn.output]? = some ⟨.leaf n linked, len⟩ → st.bound? n = some s →
    st'.contents[s]? = some (g.value A.toAlgebra st.leaves id).toArray
  other : ∀ {s : Nat}, (∀ n, m.program.Overwrites n → st.bound? n ≠ some s) → st'.contents[s]? = st.contents[s]?

theorem Executed.interpreted {g : Graph} {A : Arith α} {nodes : List Nat} {m' : Module α} {st' : Store α}
    (h : Executed g A nodes m st m' st') (hm : m.Interpreted A) : m'.Interpreted A := by
  rw [Interpreted, h.kernel, h.program]
  exact hm

theorem execute_ok {g : Graph} (hg : g.WellFormed) {l : Lowering} {nodes : List Nat} (hs : Lowering.Sound g l nodes)
    (hvalid : l.program.Valid) (hm : m.program = l.program) (hfits : m.Fits) (hcan : m.CanRun st held)
    (hunshared : m.program.Unshared st) {A : Arith α} (hkernel : m.Interpreted A) :
    ∃ m' st', m.execute st held = .ok (.ok (), m', st') ∧ Executed g A nodes m st m' st' := by
  obtain ⟨storages, hres⟩ := hcan.resolve
  have h := resolve_eq_ok hres
  have hplaced := h.placed hg hs hm hfits hunshared
  obtain ⟨p, kernel, scratch, pointers⟩ := m
  obtain rfl : p = l.program := hm
  obtain rfl : kernel = .machine A l.program := hkernel
  obtain ⟨memory, hrun, hafter⟩ := hs.run (A := A) hg hvalid hplaced
  have hexecute : execute ⟨l.program, .machine A l.program, scratch, pointers⟩ st held =
      .ok (.ok (), after ⟨l.program, .machine A l.program, scratch, pointers⟩ st memory) := by
    rw [execute_eq hres]
    exact congrArg (Except.map _) hrun
  have hnode : ∀ {f id b : Nat} {fn : Function}, l.program.functions[f]? = some fn → nodes[f]? = some id →
      (cells st storages)[fn.output]? = some (st.contents.size + b) →
      (after ⟨l.program, .machine A l.program, scratch, pointers⟩ st memory).1.scratch[b]? =
        some (g.value A.toAlgebra st.leaves id).toArray := by
    intro f id b fn hfn hid hcell
    rw [getElem?_after_scratch]
    exact hafter.written (List.getElem?_eq_some_iff.1 hfn).1 hfn hid hcell
  refine ⟨(after ⟨l.program, .machine A l.program, scratch, pointers⟩ st memory).1,
    (after ⟨l.program, .machine A l.program, scratch, pointers⟩ st memory).2, hexecute, execute_retains hexecute, ?_, ?_, ?_⟩
  · intro b f id len hb hid
    obtain ⟨fn, id', hfn, rfl, hid', -⟩ := hs.scratch hb
    obtain rfl : id = id' := Option.some.inj (hid.symm.trans hid')
    exact hnode hfn hid (h.cell_scratch hb)
  · intro f id n s len fn linked hfn hid hb hbound
    obtain ⟨s', hbound', hcell, hlt, -⟩ := h.cell_leaf hb (hs.leaf_pos hg hb)
    obtain rfl : s = s' := Option.some.inj (hbound.symm.trans hbound')
    rw [getElem?_after_contents _ _ hlt]
    exact hafter.written (List.getElem?_eq_some_iff.1 hfn).1 hfn hid hcell
  · intro s hother
    by_cases hlt : s < st.contents.size
    · rw [getElem?_after_contents _ _ hlt, hafter.other fun f hf fn hfn hcell => ?_, Array.getElem?_append_left hlt]
      obtain ⟨id, hid⟩ := hs.exists_node hfn
      rcases (hs.functions hfn hid).2 with ⟨len, hb⟩ | ⟨n, linked, len, hb, -⟩
      · have heq : st.contents.size + fn.output = s := Option.some.inj ((h.cell_scratch hb).symm.trans hcell)
        omega
      · obtain ⟨s', hbound, hcell', -⟩ := h.cell_leaf hb (hs.leaf_pos hg hb)
        have heq : s' = s := Option.some.inj (hcell'.symm.trans hcell)
        exact hother n ⟨fn, List.mem_of_getElem? hfn, linked, len, hb⟩ (heq ▸ hbound)
    · rw [Array.getElem?_eq_none (Nat.not_lt.1 hlt), Array.getElem?_eq_none]
      simp only [after, Array.size_extract]
      omega

end

end Module

end TensorLoom
