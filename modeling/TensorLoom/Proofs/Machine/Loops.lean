import TensorLoom.Proofs.Machine.Trace
/-
# Loops that store and loops that accumulate

Every function of a lowered program is loops around a store, and a reduction has an
accumulation inside. The two rules here say what such loops leave behind: one value in
every element of the output, stored in order (`traceBody_stores`), and the fold of all
visited values in the accumulator (`exec_folds`).
-/

namespace TensorLoom

variable {α : Type}

/-! ## Accumulation -/

/-- The effect of folding a value into an accumulator. -/
theorem act_accumulate {A : Arith α} {w : Wiring} {pos p v : Nat} {op : ReduceOp} {s : Frame α} {a b : α}
    (hp : s.floats[p]? = some a) (hv : s.floats[v]? = some b) :
    act A w pos (.accumulate op p v) s = .ok { s with floats := s.floats.setIfInBounds p (A.fold op a b) } := by
  have hlt : p < s.floats.size := (Array.getElem?_eq_some_iff.1 hp).1
  simp only [act, Frame.float, hp, hv, Frame.setFloat, if_pos hlt, bind, Except.bind]

/-- Loops that fold the value `v` of their innermost code into the register `p` before them. -/
theorem exec_folds (A : Arith α) (w : Wiring) {p v : Nat} {op : ReduceOp} {c : Float} {loops : List (Nat × Nat)}
    {line : List Instr} (hplain : ∀ i ∈ line, i.Plain) (hsmall : ∀ l ∈ loops, l.1 ≤ 9223372036854775808)
    {s : Frame α} (hints : p + 1 + loops.length ≤ s.ints.size) (hfloats : p < s.floats.size) {xs : List α}
    (hlen : xs.length = Shape.size (loops.map Prod.fst))
    (hvisit : ∀ {is s₁}, Shape.Mem is (loops.map Prod.fst) → s.Keeps p s₁ → s₁.Counts (p + 1) is →
      ∃ s₂, exec A w (p + 1 + loops.length) line s₁ = .ok s₂ ∧ s₁.Keeps (p + 1 + loops.length) s₂ ∧
        s₂.floats[v]? = xs[Shape.offset is (loops.map Prod.fst)]?) :
    ∃ s', exec A w p (.imm c :: nest loops (line ++ [.accumulate op p v])) s = .ok s' ∧ s.Keeps p s' ∧
      s'.floats[p]? = some (xs.foldl (A.fold op) (A.lit c)) := by
  have hbal : Balanced (line ++ [.accumulate op p v]) :=
    (Balanced.of_plain hplain).append (.plain trivial .nil)
  -- the accumulator holds the fold of the values visited so far
  have hloops := walk_nest (act A w) turn (fun s => s) hbal loops hsmall (p + 1)
    (I := fun k s₁ => s.Keeps p s₁ ∧ s₁.floats[p]? = some ((xs.take k).foldl (A.fold op) (A.lit c)))
    (s := { s with floats := s.floats.setIfInBounds p (A.lit c) })
    (fun h => by rw [h.1.intCount]; exact hints)
    (fun v j h hv hv' hj => ⟨_, turn_eq_ok (by rw [h.1.intCount]; omega) hj,
      ⟨h.1.trans (by omega) (.setInt v j _), h.2⟩, rfl⟩) ?_ ⟨.setFloat p _ s, by simp [hfloats]⟩
  · obtain ⟨s', hrun, hkeep, hacc⟩ := hloops
    rw [← hlen, List.take_length] at hacc
    refine ⟨s', ?_, hkeep, hacc⟩
    rw [exec_plain A w (i := .imm c) trivial, act, Frame.setFloat, if_pos hfloats]
    exact hrun
  · intro is s₁ hm hI hcounts
    obtain ⟨s₂, hrun, hkeep, hv⟩ := hvisit hm hI.1 hcounts
    have hk : Shape.offset is (loops.map Prod.fst) < xs.length := hlen ▸ Shape.offset_lt hm
    rw [List.getElem?_eq_getElem hk] at hv
    have hacc := (hkeep.floats p (by omega)).trans hI.2
    have hrun' : exec A w (p + 1 + loops.length) (line ++ [.accumulate op p v]) s₁ = .ok { s₂ with
        floats := s₂.floats.setIfInBounds p (A.fold op ((xs.take (Shape.offset is (loops.map Prod.fst))).foldl
          (A.fold op) (A.lit c)) xs[Shape.offset is (loops.map Prod.fst)]) } := by
      rw [exec_append A w (.of_plain hplain), hrun]
      show exec A w _ [.accumulate op p v] s₂ = _
      rw [exec_plain A w (i := .accumulate op p v) trivial, act_accumulate hacc hv]
      rfl
    refine ⟨_, hrun', ⟨(hI.1.trans (by omega) hkeep).trans (Nat.le_refl p) (.setFloat p _ s₂), ?_⟩,
      fun x _ hx => hkeep.ints x hx⟩
    have hlt : p < s₂.floats.size := (Array.getElem?_eq_some_iff.1 hacc).1
    rw [List.take_add_one, List.getElem?_eq_getElem hk, List.foldl_append]
    simp [hlt]

/-! ## Stores -/

/-- The contents of a cell of which the first `k` elements are overwritten. -/
def patched (vals : List α) (old : Array α) (k : Nat) : Array α := (vals.take k ++ old.toList.drop k).toArray

theorem patched_zero (vals : List α) (old : Array α) : patched vals old 0 = old := by simp [patched]

theorem patched_all {vals : List α} {old : Array α} (h : old.size = vals.length) :
    patched vals old vals.length = vals.toArray := by
  have : old.toList.drop vals.length = [] := List.drop_eq_nil_of_le (by simp [h])
  simp [patched, this]

theorem size_patched {vals : List α} {old : Array α} (h : old.size = vals.length) (k : Nat) :
    (patched vals old k).size = vals.length := by
  simp only [patched, List.size_toArray, List.length_append, List.length_take, List.length_drop, Array.length_toList]
  omega

/-- What is not overwritten yet is still there. -/
theorem getElem?_patched {vals : List α} {old : Array α} (h : old.size = vals.length) {k j : Nat} (hkj : k ≤ j) :
    (patched vals old k)[j]? = old[j]? := by
  by_cases hj : j < vals.length
  · have hlen : (vals.take k).length = k := by rw [List.length_take]; omega
    simp only [patched, List.getElem?_toArray]
    rw [List.getElem?_append_right (by omega), hlen, List.getElem?_drop, Nat.add_sub_cancel' hkj,
      Array.getElem?_toList]
  · rw [Array.getElem?_eq_none, Array.getElem?_eq_none]
    · omega
    · rw [size_patched h]; omega

/-- One more element is overwritten. -/
theorem setIfInBounds_patched {vals : List α} {old : Array α} (h : old.size = vals.length) {k : Nat} {a : α}
    (ha : vals[k]? = some a) : (patched vals old k).setIfInBounds k a = patched vals old (k + 1) := by
  obtain ⟨hk, rfl⟩ := List.getElem?_eq_some_iff.1 ha
  refine Array.ext_getElem? fun j => ?_
  rw [Array.getElem?_setIfInBounds, size_patched h]
  by_cases hkj : k = j
  · subst hkj
    have hlen : (vals.take (k + 1)).length = k + 1 := by rw [List.length_take]; omega
    rw [if_pos rfl, if_pos hk]
    simp only [patched, List.getElem?_toArray]
    rw [List.getElem?_append_left (by omega), List.getElem?_take_of_lt (Nat.lt_succ_self k), ha]
  · rw [if_neg hkj]
    by_cases hlt : j < k
    · have hlen : (vals.take k).length = k := by rw [List.length_take]; omega
      have hlen' : (vals.take (k + 1)).length = k + 1 := by rw [List.length_take]; omega
      simp only [patched, List.getElem?_toArray]
      rw [List.getElem?_append_left (by omega), List.getElem?_append_left (by omega),
        List.getElem?_take_of_lt hlt, List.getElem?_take_of_lt (by omega)]
    · rw [getElem?_patched h (by omega), getElem?_patched h (by omega)]

theorem setIfInBounds_self {β : Type} {xs : Array β} {i : Nat} {x : β} (h : xs[i]? = some x) :
    xs.setIfInBounds i x = xs := by
  refine Array.ext_getElem? fun j => ?_
  rw [Array.getElem?_setIfInBounds]
  split
  · rename_i hj
    rw [← hj, if_pos (Array.getElem?_eq_some_iff.1 h).1, h]
  · rfl

/-- The effect of storing the next element of the output. -/
theorem act_store {A : Arith α} {w : Wiring} {pos o v k : Nat} {s : Frame α} {memory : Memory α} {vals : List α}
    {old : Array α} {a : α} (hold : memory[w.output]? = some old) (hsize : old.size = vals.length)
    (hmem : s.memory = memory.setIfInBounds w.output (patched vals old k)) (ha : vals[k]? = some a)
    (ho : s.ints[o]? = some (k : Int)) (hv : s.floats[v]? = some a) :
    act A w pos (.store o v) s =
      .ok { s with memory := memory.setIfInBounds w.output (patched vals old (k + 1)) } := by
  have hout : w.output < memory.size := (Array.getElem?_eq_some_iff.1 hold).1
  have hk : k < vals.length := (List.getElem?_eq_some_iff.1 ha).1
  have hcell : s.memory[w.output]? = some (patched vals old k) := by simp [hmem, hout]
  have hbounds : ¬ ((k : Int) < 0 ∨ (patched vals old k).size ≤ (k : Int).toNat) := by
    rw [size_patched hsize]
    omega
  simp only [act, Frame.int, ho, Frame.float, hv, Frame.write, hcell, if_neg hbounds, bind, Except.bind]
  congr 2
  refine Array.ext_getElem? fun j => ?_
  rw [hmem, Array.getElem?_modify, Array.getElem?_setIfInBounds, Array.getElem?_setIfInBounds]
  by_cases hj : w.output = j
  · rw [if_pos hj, if_pos hj, if_pos hj, if_pos (hj ▸ hout), if_pos (hj ▸ hout), Option.map_some, Int.toNat_natCast,
      setIfInBounds_patched hsize ha]
  · rw [if_neg hj, if_neg hj, if_neg hj]

/-- The counters of loops around code that leaves their registers alone. -/
theorem Frame.Counts.keeps {s s' : Frame α} {pos n : Nat} {is : List Nat} (h : s.Counts pos is) (hkeep : s.Keeps n s')
    (hn : pos + is.length ≤ n) : s'.Counts pos is := by
  intro j i hi
  have hj : j < is.length := (List.getElem?_eq_some_iff.1 hi).1
  rw [hkeep.ints _ (by omega)]
  exact h j i hi

/-- A visit of silent code and a store behind it, with the store that it records. -/
theorem walk_store {A : Arith α} {w : Wiring} {code prep : List Instr} {pos o v : Nat} {t : Traced α} {s₁ s₂ : Frame α}
    (hbal : Balanced prep) (hsilent : ∀ i ∈ prep, i.Silent) (hrun : exec A w pos prep t.frame = .ok s₁)
    (hstore : act A w (pos + prep.length) (.store o v) s₁ = .ok s₂) :
    walk (traceAct A w code) traceTurn (prep ++ [Instr.store o v]).length pos (prep ++ [.store o v]) t =
      .ok ⟨s₂, t.stores ++ (Instr.store o v).storesAt code (pos + prep.length) s₁⟩ := by
  rw [walk_append hbal, walk_silent A w code hsilent, hrun]
  show walk (traceAct A w code) traceTurn 1 _ [.store o v] ⟨s₁, t.stores⟩ = _
  rw [walk_plain (i := .store o v) trivial, traceAct, hstore]
  rfl

/-- Loops that store the value `v` of their innermost code at offset `o`, the row-major
number of the visit, fill the output from front to back. -/
theorem traceBody_stores (A : Arith α) (w : Wiring) {loops : List (Nat × Nat)}
    (hstrides : loops.map Prod.snd = Shape.strides (loops.map Prod.fst)) {prep : List Instr} (hbal : Balanced prep)
    (hsilent : ∀ i ∈ prep, i.Silent) (hsmall : ∀ l ∈ loops, l.1 ≤ 9223372036854775808) {n o v : Nat}
    (hregs : loops.length ≤ n) {memory : Memory α} {old : Array α} (hold : memory[w.output]? = some old) {vals : List α}
    (hsize : old.size = vals.length) (hlen : vals.length = Shape.size (loops.map Prod.fst)) (z : α)
    (hvisit : ∀ {is s}, Shape.Mem is (loops.map Prod.fst) → s.Counts 0 is → s.ints.size = n → s.floats.size = n →
      s.memory = memory.setIfInBounds w.output (patched vals old (Shape.offset is (loops.map Prod.fst))) →
      ∃ s₁, exec A w loops.length prep s = .ok s₁ ∧ s.Keeps loops.length s₁ ∧
        s₁.ints[o]? = some (Shape.offset is (loops.map Prod.fst) : Int) ∧
        s₁.floats[v]? = vals[Shape.offset is (loops.map Prod.fst)]?) :
    ∃ t, traceBody A w (nest loops (prep ++ [.store o v])) ⟨Array.replicate n 0, Array.replicate n z, memory⟩ = .ok t ∧
      t.frame.memory = memory.setIfInBounds w.output vals.toArray ∧ InOrder vals.length t.stores := by
  have hbal' : Balanced (prep ++ [.store o v]) := hbal.append (.plain trivial .nil)
  -- the output is overwritten up to the visit, and the stores so far are in order
  have hloops := walk_nest (traceAct A w (nest loops (prep ++ [.store o v]))) traceTurn Traced.frame hbal' loops hsmall 0
    (I := fun k t => t.frame.ints.size = n ∧ t.frame.floats.size = n ∧
      t.frame.memory = memory.setIfInBounds w.output (patched vals old k) ∧ InOrder k t.stores)
    (s := ⟨⟨Array.replicate n 0, Array.replicate n z, memory⟩, []⟩)
    (fun h => by rw [h.1]; omega) ?_ ?_ ⟨by simp, by simp, ?_, .nil⟩
  · obtain ⟨t, hrun, -, -, hmem, horder⟩ := hloops
    rw [← hlen] at hmem horder
    rw [patched_all hsize] at hmem
    exact ⟨t, hrun, hmem, horder⟩
  · intro k t v j hI _ hv hj
    have hset : traceTurn v j t = .ok ⟨{ t.frame with ints := t.frame.ints.setIfInBounds v j }, t.stores⟩ := by
      rw [traceTurn, turn_eq_ok (by rw [hI.1]; omega) hj]
      rfl
    exact ⟨_, hset, ⟨by simpa using hI.1, hI.2⟩, rfl⟩
  · intro is t hm hI hcounts
    obtain ⟨s₁, hrun, hkeep, ho, hv⟩ := hvisit hm hcounts hI.1 hI.2.1 hI.2.2.1
    have hk : Shape.offset is (loops.map Prod.fst) < vals.length := hlen ▸ Shape.offset_lt hm
    rw [List.getElem?_eq_getElem hk] at hv
    have hcounts₁ : s₁.Counts 0 is := hcounts.keeps hkeep (by simp [hm.length_eq])
    rw [Nat.zero_add]
    refine ⟨_, walk_store hbal hsilent hrun (act_store hold hsize (hkeep.memory.trans hI.2.2.1)
      (List.getElem?_eq_getElem hk) ho hv), ⟨hkeep.intCount.trans hI.1, hkeep.floatCount.trans hI.2.1, rfl,
      hI.2.2.2.next ?_ (strided_nest hstrides hbal _ hm hcounts₁ _)⟩, fun x _ hx => hkeep.ints x hx⟩
    rw [Array.getD_eq_getD_getElem?, ho]
    rfl
  · rw [patched_zero, setIfInBounds_self hold]

end TensorLoom
