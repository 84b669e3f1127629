import TensorLoom.Proofs.Machine.Simulation
/-
# What runs leave behind

A run leaves in its output what it stored, and all else as it was (`Function.run_memory`).
So runs that store the same leave the same output behind, if the outputs were the same at
first wherever nothing is stored (`overwrite_eq`).
-/

namespace TensorLoom

section
variable {α : Type}

/-- The offsets of stores. -/
def offsets (stores : List (Nat × Int × α)) : List Nat := stores.map fun store => store.2.1.toNat

/-- A cell after stores into it. -/
def overwrite (stores : List (Nat × Int × α)) (contents : Array α) : Array α :=
  stores.foldl (fun contents store => contents.setIfInBounds store.2.1.toNat store.2.2) contents

theorem overwrite_append (stores stores' : List (Nat × Int × α)) (contents : Array α) :
    overwrite (stores ++ stores') contents = overwrite stores' (overwrite stores contents) := List.foldl_append

theorem size_overwrite (stores : List (Nat × Int × α)) (contents : Array α) :
    (overwrite stores contents).size = contents.size := by
  induction stores generalizing contents with
  | nil => rfl
  | cons store stores ih =>
    show (overwrite stores _).size = _
    rw [ih, Array.size_setIfInBounds]

theorem getElem?_overwrite {stores : List (Nat × Int × α)} {k : Nat} (hk : k ∉ offsets stores) (contents : Array α) :
    (overwrite stores contents)[k]? = contents[k]? := by
  induction stores generalizing contents with
  | nil => rfl
  | cons store stores ih =>
    obtain ⟨hne, hk⟩ := List.ne_and_not_mem_of_not_mem_cons hk
    show (overwrite stores _)[k]? = _
    rw [ih hk, Array.getElem?_setIfInBounds_ne (Ne.symm hne)]

theorem offsets_eq {β : Type} {E : α → β → Prop} {stores : List (Nat × Int × α)} {stores' : List (Nat × Int × β)}
    (h : List.Forall₂ (StoredAlike E) stores stores') : offsets stores = offsets stores' := by
  induction h with
  | nil => rfl
  | cons hxy _ ih => exact congrArg₂ List.cons (congrArg Int.toNat hxy.1) ih

theorem overwrite_congr {stores stores' : List (Nat × Int × α)} (h : List.Forall₂ (StoredAlike Eq) stores stores') :
    overwrite stores = overwrite stores' := by
  funext contents
  induction h generalizing contents with
  | nil => rfl
  | @cons x y _ _ hxy _ ih =>
    obtain ⟨c, k, a⟩ := x
    obtain ⟨c', k', a'⟩ := y
    obtain ⟨rfl, rfl⟩ : k = k' ∧ a = a' := hxy
    exact ih _

/-- Stores make arrays the same that differ only where something is stored. -/
theorem overwrite_eq {stores : List (Nat × Int × α)} {contents contents' : Array α} (hsize : contents.size = contents'.size)
    (hsame : ∀ k, k ∉ offsets stores → contents[k]? = contents'[k]?) :
    overwrite stores contents = overwrite stores contents' := by
  induction stores generalizing contents contents' with
  | nil => exact Array.ext_getElem? fun k => hsame k (List.not_mem_nil)
  | cons store stores ih =>
    refine ih (by simp [hsize]) fun j hj => ?_
    by_cases hjk : store.2.1.toNat = j
    · simp [Array.getElem?_setIfInBounds, hjk, hsize]
    · rw [Array.getElem?_setIfInBounds_ne hjk, Array.getElem?_setIfInBounds_ne hjk]
      exact hsame j (List.not_mem_cons_of_ne_of_not_mem (Ne.symm hjk) hj)

end

/-! ## From stores to memory -/

section
variable {α : Type} {A : Arith α} {w : Wiring}

theorem Memory.modify_overwrite_nil (memory : Memory α) (c : Nat) : memory.modify c (overwrite []) = memory := by
  apply Array.ext_getElem?
  intro i
  rw [Array.getElem?_modify]
  split
  · exact Option.map_id'
  · rfl

theorem Memory.lengths_overwrite (memory : Memory α) (c : Nat) (stores : List (Nat × Int × α)) :
    Memory.lengths (memory.modify c (overwrite stores)) = memory.lengths := by
  funext i
  by_cases hc : c = i <;> simp [lengths, Array.getElem?_modify, hc, Function.comp_def, size_overwrite]

theorem Memory.modify_overwrite_append (memory : Memory α) (c : Nat) (stores stores' : List (Nat × Int × α)) :
    memory.modify c (overwrite (stores ++ stores')) = (memory.modify c (overwrite stores)).modify c (overwrite stores') := by
  apply Array.ext_getElem?
  intro i
  simp only [Array.getElem?_modify]
  split
  · rw [Option.map_map]
    exact congrFun (congrArg Option.map (funext (overwrite_append stores stores'))) _
  · rfl

section
variable {s s' : Frame α}

theorem Frame.memory_setInt {x : Nat} {z : Int} (h : s.setInt x z = .ok s') : s'.memory = s.memory := by
  unfold Frame.setInt at h
  split at h
  · cases h
    rfl
  · cases h

theorem Frame.memory_setFloat {x : Nat} {a : α} (h : s.setFloat x a = .ok s') : s'.memory = s.memory := by
  unfold Frame.setFloat at h
  split at h
  · cases h
    rfl
  · cases h

/-- An instruction changes memory by its store. -/
theorem act_memory {pos : Nat} {i : Instr} (h : act A w pos i s = .ok s') :
    s'.memory = s.memory.modify w.output (overwrite (i.stored w s)) := by
  have hkept : ∀ {j : Instr}, s'.memory = s.memory → j.stored w s = [] →
      s'.memory = s.memory.modify w.output (overwrite (j.stored w s)) := by
    intro j hmemory hstored
    rw [hstored, Memory.modify_overwrite_nil, hmemory]
  cases i with
  | loop => exact hkept (by cases h; rfl) rfl
  | close => exact hkept (by cases h; rfl) rfl
  | int value => exact hkept (Frame.memory_setInt h) rfl
  | arith op lhs rhs =>
    obtain ⟨a, -, h⟩ := bind_eq_ok.1 h
    obtain ⟨b, -, h⟩ := bind_eq_ok.1 h
    obtain ⟨z, -, h⟩ := bind_eq_ok.1 h
    exact hkept (Frame.memory_setInt h) rfl
  | load input offset =>
    simp only [act] at h
    split at h
    · cases h
    · obtain ⟨k, -, h⟩ := bind_eq_ok.1 h
      obtain ⟨a, -, h⟩ := bind_eq_ok.1 h
      exact hkept (Frame.memory_setFloat h) rfl
  | store offset value =>
    obtain ⟨k, hk, h⟩ := bind_eq_ok.1 h
    obtain ⟨a, ha, h⟩ := bind_eq_ok.1 h
    simp only [Instr.stored, hk, ha]
    unfold Frame.write at h
    split at h
    · cases h
    · split at h
      · cases h
      · cases h
        rfl
  | imm value => exact hkept (Frame.memory_setFloat h) rfl
  | unary op x =>
    obtain ⟨a, -, h⟩ := bind_eq_ok.1 h
    exact hkept (Frame.memory_setFloat h) rfl
  | binary op lhs rhs =>
    obtain ⟨a, -, h⟩ := bind_eq_ok.1 h
    obtain ⟨b, -, h⟩ := bind_eq_ok.1 h
    exact hkept (Frame.memory_setFloat h) rfl
  | accumulate op acc x =>
    obtain ⟨a, -, h⟩ := bind_eq_ok.1 h
    obtain ⟨b, -, h⟩ := bind_eq_ok.1 h
    exact hkept (Frame.memory_setFloat h) rfl

end

/-- The memory is that of the start with the stores so far. -/
def Recording.Accounts (w : Wiring) (memory : Memory α) (r : Recording α (Frame α)) : Prop :=
  ∀ s, r.outcome = .ok s → s.memory = memory.modify w.output (overwrite r.stores)

theorem Recording.Accounts.andThen {memory : Memory α} {r : Recording α (Frame α)} (h : r.Accounts w memory)
    {f : Frame α → Recording α (Frame α)} (hf : ∀ s, (f s).Accounts w s.memory) : (r.andThen f).Accounts w memory := by
  obtain ⟨stores, x⟩ := r
  cases x with
  | error e => exact nofun
  | ok s =>
    intro s' hs'
    have hmemory : s.memory = memory.modify w.output (overwrite stores) := h s rfl
    show s'.memory = memory.modify w.output (overwrite (stores ++ (f s).stores))
    rw [Memory.modify_overwrite_append, ← hmemory]
    exact hf s s' hs'

theorem recordAct_accounts (A : Arith α) (w : Wiring) (pos : Nat) (i : Instr) (s : Frame α) :
    (recordAct A w pos i s).Accounts w s.memory := by
  intro s' hs'
  rw [outcome_recordAct] at hs'
  rw [act_memory hs', recordAct, hs']

/-- A run leaves its stores in memory, and nothing else. -/
theorem Function.run_memory {fn : Function} {f : Nat} (hverify : verifyBody f fn = .ok ()) {cells : List Nat}
    (hw : w.Of fn cells) {memory memory' : Memory α} (h : fn.run A cells memory = .ok memory') :
    memory' = memory.modify w.output (overwrite (fn.record A (.zero A fn) cells memory).stores) := by
  have hlockstep : Lockstep fn anyFault (fun _ (r q : Recording α (Frame α)) => r = q ∧ r.Accounts w memory)
      (.recorder A w) (.recorder A w) := by
    refine ⟨?_, ?_, fun _ hr => .ok hr⟩
    · rintro pos i scopes r _ - - - - ⟨rfl, hr⟩
      exact .ok ⟨rfl, hr.andThen fun s => recordAct_accounts A w pos i s⟩
    · rintro pos range stride k scopes r _ - ⟨rfl, hr⟩
      refine .ok ⟨rfl, hr.andThen fun s s' hs' => ?_⟩
      show s'.memory = s.memory.modify w.output (overwrite [])
      rw [Memory.modify_overwrite_nil, Frame.memory_setInt hs']
  obtain ⟨b, hb⟩ := exists_flatten_of_verifyBody hverify
  have hstart : (Recording.silent (.ok ⟨(Registers.zero A fn).ints, (Registers.zero A fn).floats, memory⟩)).Accounts w memory := by
    rintro s ⟨⟩
    exact (Memory.modify_overwrite_nil memory w.output).symm
  obtain ⟨-, hbody⟩ := hlockstep.body hverify hb ⟨rfl, hstart⟩
  rw [(recordBody_flatten A w b _).1, hb] at hbody
  rw [← fn.outcome_record A hverify hw, fn.record_wired A hw] at h
  rw [fn.record_wired A hw]
  have haccounts := hbody.of_ok.2
  generalize recordBody A w fn.code _ = r at h haccounts ⊢
  obtain ⟨stores, x⟩ := r
  cases x with
  | error e => cases h
  | ok s =>
    cases h
    simpa [Recording.andThen, Recording.silent] using haccounts s rfl

end

end TensorLoom
