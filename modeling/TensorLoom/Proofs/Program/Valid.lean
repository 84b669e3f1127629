import TensorLoom.Proofs.Program.Scope
/-
# Programs that pass the verifier

What the program verifier checks, said without its order of checks (`Program.Valid`):
there is a result, every scratch buffer has its writer, and every function reads what is
there before it, writes its own scratch or a leaf, and touches no leaf that an earlier
function has written (`Program.verify_eq_ok_iff`).
-/

namespace TensorLoom

namespace Program

/-- The buffer is the storage of a leaf. -/
def IsLeaf (p : Program) (b : Nat) : Prop := ∃ n linked len, p.buffers[b]? = some ⟨.leaf n linked, len⟩

/-- The buffer is not a leaf that one of the first `k` functions has written. -/
def Untouched (p : Program) (k b : Nat) : Prop :=
  p.IsLeaf b → ∀ j < k, ∀ fn, p.functions[j]? = some fn → fn.output ≠ b

/-- Function number `k` may stand where it does. -/
structure Allowed (p : Program) (k : Nat) (fn : Function) : Prop where
  inputs : ∀ b ∈ fn.inputs, p.Untouched k b ∧
    ∃ buffer, p.buffers[b]? = some buffer ∧ ∀ q, buffer.source = .scratch q → q < k
  output : p.Untouched k fn.output ∧
    ∃ buffer, p.buffers[fn.output]? = some buffer ∧ ∀ q, buffer.source = .scratch q → q = k
  body : verifyBody k fn = .ok ()

/-- The program has a result, every scratch buffer has its writer, and every function may
stand where it does. -/
structure Valid (p : Program) : Prop where
  output : ∃ out, p.output = some out ∧ out < p.buffers.length
  owners : ∀ {b q len : Nat}, p.buffers[b]? = some ⟨.scratch q, len⟩ → ∃ fn, p.functions[q]? = some fn ∧ fn.output = b
  functions : ∀ {k : Nat} {fn : Function}, p.functions[k]? = some fn → p.Allowed k fn

/-- The buffers that later functions may not touch are the leaves written so far. -/
def Tracks (p : Program) (k : Nat) (updates : Updates) : Prop :=
  ∀ b : Nat, updates.lookup b = none ↔ p.Untouched k b

section
variable {p : Program} {k : Nat} {updates : Updates}

theorem verifyBuffer_eq_ok {b : Nat} {source : Source} :
    verifyBuffer p k updates b = .ok source ↔
      updates.lookup b = none ∧ ∃ buffer, p.buffers[b]? = some buffer ∧ buffer.source = source := by
  unfold verifyBuffer
  cases p.buffers[b]? with
  | none => simp
  | some buffer => cases updates.lookup b <;> simp

theorem verifyInput_eq_ok {b : Nat} :
    verifyInput p k updates b = .ok () ↔ updates.lookup b = none ∧
      ∃ buffer, p.buffers[b]? = some buffer ∧ ∀ q, buffer.source = .scratch q → q < k := by
  unfold verifyInput
  rw [bind_eq_ok]
  constructor
  · rintro ⟨source, hbuffer, hsource⟩
    obtain ⟨hnone, buffer, hb, rfl⟩ := verifyBuffer_eq_ok.1 hbuffer
    refine ⟨hnone, buffer, hb, fun q hq => ?_⟩
    rw [hq] at hsource
    by_contra hle
    simp [Nat.not_lt.1 hle, throw, throwThe, MonadExceptOf.throw] at hsource
  · rintro ⟨hnone, buffer, hb, hq⟩
    refine ⟨buffer.source, verifyBuffer_eq_ok.2 ⟨hnone, buffer, hb, rfl⟩, ?_⟩
    cases hsource : buffer.source with
    | leaf => rfl
    | scratch q => simp [Nat.not_le.2 (hq q hsource), pure, Except.pure]

theorem verifyOutput_eq_ok {b : Nat} {updates' : Updates} :
    verifyOutput p k updates b = .ok updates' ↔ updates.lookup b = none ∧
      ∃ buffer, p.buffers[b]? = some buffer ∧ (∀ q, buffer.source = .scratch q → q = k) ∧
        updates' = if buffer.source.isLeaf then (b, k) :: updates else updates := by
  unfold verifyOutput
  rw [bind_eq_ok]
  constructor
  · rintro ⟨source, hbuffer, hsource⟩
    obtain ⟨hnone, buffer, hb, rfl⟩ := verifyBuffer_eq_ok.1 hbuffer
    refine ⟨hnone, buffer, hb, ?_⟩
    cases hs : buffer.source with
    | leaf n linked =>
      rw [hs] at hsource
      exact ⟨by simp, (Except.ok.inj hsource).symm⟩
    | scratch q =>
      rw [hs] at hsource
      by_cases hq : q = k
      · rw [hq] at hsource ⊢
        simp only [if_true] at hsource
        exact ⟨fun q' h => (Source.scratch.inj h).symm, (Except.ok.inj hsource).symm⟩
      · simp [hq, throw, throwThe, MonadExceptOf.throw] at hsource
  · rintro ⟨hnone, buffer, hb, hq, rfl⟩
    refine ⟨buffer.source, verifyBuffer_eq_ok.2 ⟨hnone, buffer, hb, rfl⟩, ?_⟩
    cases hs : buffer.source with
    | leaf => rfl
    | scratch q => simp [hq q hs, Source.isLeaf, pure, Except.pure]

/-- What is tracked after one more function. -/
theorem Tracks.step (h : p.Tracks k updates) {fn : Function} (hfn : p.functions[k]? = some fn) {buffer : Buffer}
    (hb : p.buffers[fn.output]? = some buffer) :
    p.Tracks (k + 1) (if buffer.source.isLeaf then (fn.output, k) :: updates else updates) := by
  intro b
  have hcases : p.Untouched (k + 1) b ↔ p.Untouched k b ∧ (p.IsLeaf b → fn.output ≠ b) := by
    constructor
    · intro hu
      exact ⟨fun hleaf j hj => hu hleaf j (Nat.lt_succ_of_lt hj), fun hleaf => hu hleaf k (Nat.lt_succ_self k) fn hfn⟩
    · rintro ⟨hu, hout⟩ hleaf j hj fn' hfn'
      rcases Nat.lt_succ_iff_lt_or_eq.1 hj with hlt | rfl
      · exact hu hleaf j hlt fn' hfn'
      · rw [hfn] at hfn'
        exact Option.some.inj hfn' ▸ hout hleaf
  rw [hcases, ← h b]
  obtain ⟨source, len⟩ := buffer
  cases source with
  | leaf n linked =>
    have hleaf : p.IsLeaf fn.output := ⟨n, linked, len, hb⟩
    by_cases hbo : b = fn.output
    · simp [hbo, Source.isLeaf, hleaf]
    · simp [List.lookup_cons, Source.isLeaf, beq_false_of_ne hbo, Ne.symm hbo]
  | scratch q =>
    have hleaf : p.IsLeaf b → fn.output ≠ b := by
      rintro ⟨n, linked, len', hb'⟩ rfl
      cases hb.symm.trans hb'
    exact (and_iff_left hleaf).symm

/-- The functions from number `k` on pass if they may stand where they do. -/
theorem verifyFunctions_eq_ok (fns : List Function) (hfns : ∀ i, fns[i]? = p.functions[k + i]?) (h : p.Tracks k updates) :
    verifyFunctions p k fns updates = .ok () ↔ ∀ {i : Nat} {fn : Function}, fns[i]? = some fn → p.Allowed (k + i) fn := by
  induction fns generalizing k updates with
  | nil => simp [verifyFunctions]
  | cons fn fns ih =>
    have hfn : p.functions[k]? = some fn := (hfns 0).symm
    have hrest : ∀ i, fns[i]? = p.functions[k + 1 + i]? := fun i => by
      rw [Nat.add_assoc, Nat.add_comm 1 i, ← hfns, List.getElem?_cons_succ]
    have hcons : (∀ {i : Nat} {fn' : Function}, (fn :: fns)[i]? = some fn' → p.Allowed (k + i) fn') ↔
        p.Allowed k fn ∧ ∀ {i : Nat} {fn' : Function}, fns[i]? = some fn' → p.Allowed (k + 1 + i) fn' := by
      constructor
      · intro hall
        refine ⟨hall (i := 0) rfl, fun {i fn'} hfn' => ?_⟩
        rw [Nat.add_assoc, Nat.add_comm 1 i]
        exact hall (by simpa using hfn')
      · rintro ⟨hhead, htail⟩ i fn' hfn'
        cases i with
        | zero => exact Option.some.inj hfn' ▸ hhead
        | succ i =>
          rw [Nat.add_comm i 1, ← Nat.add_assoc]
          exact htail (by simpa using hfn')
    rw [hcons, verifyFunctions, bind_eq_ok]
    constructor
    · rintro ⟨_, hin, hbind⟩
      obtain ⟨updates', hout, hbind⟩ := bind_eq_ok.1 hbind
      obtain ⟨_, hbody, htail⟩ := bind_eq_ok.1 hbind
      obtain ⟨hnone, buffer, hb, hq, rfl⟩ := verifyOutput_eq_ok.1 hout
      refine ⟨⟨fun b hmem => ?_, ⟨(h _).1 hnone, buffer, hb, hq⟩, hbody⟩, (ih hrest (h.step hfn hb)).1 htail⟩
      obtain ⟨hnone, hbuffer⟩ := verifyInput_eq_ok.1 (forM_eq_ok.1 hin b hmem)
      exact ⟨(h b).1 hnone, hbuffer⟩
    · rintro ⟨⟨hin, ⟨hout, buffer, hb, hq⟩, hbody⟩, htail⟩
      refine ⟨(), forM_eq_ok.2 fun b hmem => ?_, bind_eq_ok.2 ⟨_, verifyOutput_eq_ok.2 ⟨(h _).2 hout, buffer, hb, hq, rfl⟩, ?_⟩⟩
      · exact verifyInput_eq_ok.2 ⟨(h b).2 (hin b hmem).1, (hin b hmem).2⟩
      · exact bind_eq_ok.2 ⟨(), hbody, (ih hrest (h.step hfn hb)).2 htail⟩

theorem verifyOwner_eq_ok {b : Nat} {buffer : Buffer} :
    verifyOwner p b buffer = .ok () ↔
      ∀ q, buffer.source = .scratch q → ∃ fn, p.functions[q]? = some fn ∧ fn.output = b := by
  unfold verifyOwner
  cases buffer.source with
  | leaf => simp
  | scratch q =>
    cases hfn : p.functions[q]? with
    | none => simp [hfn]
    | some fn => by_cases hout : fn.output = b <;> simp [hfn, hout]

theorem verifyOwners_eq_ok : (p.buffers.zipIdx.forM fun x => verifyOwner p x.2 x.1) = .ok () ↔
    ∀ {b q len : Nat}, p.buffers[b]? = some ⟨.scratch q, len⟩ → ∃ fn, p.functions[q]? = some fn ∧ fn.output = b := by
  rw [forM_eq_ok]
  constructor
  · intro hall b q len hb
    exact verifyOwner_eq_ok.1 (hall (⟨.scratch q, len⟩, b) (List.mem_zipIdx_iff_getElem?.2 hb)) q rfl
  · rintro hall ⟨⟨source, len⟩, b⟩ hmem
    refine verifyOwner_eq_ok.2 fun q hq => ?_
    have hb : p.buffers[b]? = some ⟨source, len⟩ := List.mem_zipIdx_iff_getElem?.1 hmem
    obtain rfl : source = .scratch q := hq
    exact hall hb

theorem verify_eq_ok_iff : p.verify = .ok () ↔ p.Valid := by
  have htracks : p.Tracks 0 [] := fun b => by simp [Untouched]
  have hfns : ∀ i, p.functions[i]? = p.functions[0 + i]? := fun i => by rw [Nat.zero_add]
  have hfunctions := verifyFunctions_eq_ok p.functions hfns htracks
  simp only [Nat.zero_add] at hfunctions
  unfold verify
  cases hout : p.output with
  | none =>
    refine ⟨fun h => by simp at h, fun h => ?_⟩
    obtain ⟨out, hsome, -⟩ := h.output
    rw [hout] at hsome
    cases hsome
  | some out =>
    simp only
    split
    · rename_i hle
      refine ⟨fun h => by simp at h, fun h => ?_⟩
      obtain ⟨out', hsome, hlt⟩ := h.output
      obtain rfl : out = out' := Option.some.inj (hout.symm.trans hsome)
      exact absurd hlt (Nat.not_lt.2 hle)
    · rename_i hlt
      rw [bind_eq_ok]
      constructor
      · rintro ⟨_, ho, hf⟩
        exact ⟨⟨out, hout, Nat.lt_of_not_le hlt⟩, verifyOwners_eq_ok.1 ho, hfunctions.1 hf⟩
      · intro h
        exact ⟨(), verifyOwners_eq_ok.2 h.owners, hfunctions.2 h.functions⟩

/-- The functions of a valid program write different buffers. -/
theorem Valid.output_ne (h : p.Valid) {i j : Nat} (hij : i < j) {fn fn' : Function}
    (hi : p.functions[i]? = some fn) (hj : p.functions[j]? = some fn') : fn.output ≠ fn'.output := by
  intro heq
  obtain ⟨-, ⟨source, len⟩, hb, hq⟩ := (h.functions hi).output
  obtain ⟨huntouched, buffer', hb', hq'⟩ := (h.functions hj).output
  cases source with
  | leaf n linked => exact huntouched ⟨n, linked, len, heq ▸ hb⟩ i hij fn hi heq
  | scratch q =>
    rw [heq, hb'] at hb
    obtain rfl := Option.some.inj hb
    exact absurd ((hq q rfl).symm.trans (hq' q rfl)) (Nat.ne_of_lt hij)

end

end Program

end TensorLoom
