import TensorLoom.Proofs.Program.Valid
/-
# Writers and readers

The program verifier goes through the functions once, with a list of the leaves written so
far. What it accepts can be said without that list: scratch has its one writer and is read
behind it, and a leaf that a function writes is not used by any function behind that one
(`verify_eq_ok_iff_ordered`). Where nothing else is wrong with a program, the verifier
reports such a use or nothing (`Wired.verify`).
-/

namespace TensorLoom

namespace Program

/-- Function number `u` writes the leaf buffer `b`, and function number `f` behind it reads or
writes it again. -/
structure Clash (p : Program) (u f b : Nat) : Prop where
  behind : u < f
  leaf : p.IsLeaf b
  writes : ∃ fn, p.functions[u]? = some fn ∧ fn.output = b
  uses : ∃ fn, p.functions[f]? = some fn ∧ b ∈ fn.output :: fn.inputs

/-- Functions use buffers that exist, and scratch is written by the function it names, by no
other, and read only behind it. -/
structure Wired (p : Program) : Prop where
  present : ∀ fn ∈ p.functions, ∀ b ∈ fn.output :: fn.inputs, b < p.buffers.length
  owned : ∀ {b q len : Nat}, p.buffers[b]? = some ⟨.scratch q, len⟩ →
    (∃ fn, p.functions[q]? = some fn ∧ fn.output = b) ∧
      ∀ {k : Nat} {fn : Function}, p.functions[k]? = some fn → fn.output = b → k = q
  behind : ∀ {k b q len : Nat} {fn : Function}, p.functions[k]? = some fn → b ∈ fn.inputs →
    p.buffers[b]? = some ⟨.scratch q, len⟩ → q < k

/-- The result exists, buffers are wired, and no leaf is used behind a function that writes
it. -/
structure Ordered (p : Program) : Prop extends Wired p where
  output : ∃ out, p.output = some out ∧ out < p.buffers.length
  apart : ∀ {u f b : Nat}, ¬ p.Clash u f b

section
variable {p : Program} {k b : Nat} {fn : Function}

theorem Untouched.of_apart (h : ∀ {u f b : Nat}, ¬ p.Clash u f b) (hfn : p.functions[k]? = some fn)
    (hb : b ∈ fn.output :: fn.inputs) : p.Untouched k b := by
  intro hleaf u hu fn' hfn' hout
  exact h ⟨hu, hleaf, ⟨fn', hfn', hout⟩, ⟨fn, hfn, hb⟩⟩

theorem Allowed.untouched (h : p.Allowed k fn) (hb : b ∈ fn.output :: fn.inputs) : p.Untouched k b := by
  rcases List.mem_cons.1 hb with rfl | hb
  · exact h.output.1
  · exact (h.inputs b hb).1

theorem Allowed.present (h : p.Allowed k fn) (hb : b ∈ fn.output :: fn.inputs) : b < p.buffers.length := by
  rcases List.mem_cons.1 hb with rfl | hb
  · obtain ⟨-, buffer, hbuffer, -⟩ := h.output
    exact (List.getElem?_eq_some_iff.1 hbuffer).1
  · obtain ⟨-, buffer, hbuffer, -⟩ := h.inputs b hb
    exact (List.getElem?_eq_some_iff.1 hbuffer).1

theorem Valid.ordered (h : p.Valid) : p.Ordered where
  output := h.output
  present fn hfn b hb := by
    obtain ⟨k, hk⟩ := List.mem_iff_getElem?.1 hfn
    exact (h.functions hk).present hb
  owned {b q len} hb := by
    refine ⟨h.owners hb, fun {k fn} hfn hout => ?_⟩
    obtain ⟨-, buffer, hbuffer, hq⟩ := (h.functions hfn).output
    rw [hout, hb] at hbuffer
    obtain rfl := Option.some.inj hbuffer
    exact (hq q rfl).symm
  behind {k b q len fn} hfn hb hbuffer := by
    obtain ⟨-, buffer, hbuffer', hq⟩ := (h.functions hfn).inputs b hb
    obtain rfl := Option.some.inj (hbuffer.symm.trans hbuffer')
    exact hq q rfl
  apart := by
    rintro u f b ⟨hlt, hleaf, ⟨fn, hfn, hout⟩, ⟨fn', hfn', hb⟩⟩
    exact (h.functions hfn').untouched hb hleaf u hlt fn hfn hout

theorem Ordered.valid (h : p.Ordered)
    (hbodies : ∀ {k : Nat} {fn : Function}, p.functions[k]? = some fn → verifyBody k fn = .ok ()) : p.Valid where
  output := h.output
  owners hb := (h.owned hb).1
  functions {k fn} hfn := by
    have hbuffer : ∀ b ∈ fn.output :: fn.inputs, ∃ buffer, p.buffers[b]? = some buffer := fun b hb =>
      ⟨_, List.getElem?_eq_getElem (h.present fn (List.mem_of_getElem? hfn) b hb)⟩
    refine ⟨fun b hb => ⟨.of_apart h.apart hfn (List.mem_cons_of_mem _ hb), ?_⟩,
      ⟨.of_apart h.apart hfn List.mem_cons_self, ?_⟩, hbodies hfn⟩
    · obtain ⟨⟨source, len⟩, hb'⟩ := hbuffer b (List.mem_cons_of_mem _ hb)
      refine ⟨_, hb', ?_⟩
      rintro q rfl
      exact h.behind hfn hb hb'
    · obtain ⟨⟨source, len⟩, hb'⟩ := hbuffer fn.output List.mem_cons_self
      refine ⟨_, hb', ?_⟩
      rintro q rfl
      exact ((h.owned hb').2 hfn rfl).symm

/-- The program verifier accepts, of the programs whose bodies pass, exactly those in order; and
then no two functions write one buffer. -/
theorem verify_eq_ok_iff_ordered (p : Program)
    (hbodies : ∀ {k : Nat} {fn : Function}, p.functions[k]? = some fn → verifyBody k fn = .ok ()) :
    (p.verify = .ok () ↔ p.Ordered) ∧
      (p.verify = .ok () → ∀ {i j : Nat} {fn fn' : Function}, p.functions[i]? = some fn → p.functions[j]? = some fn' →
        fn.output = fn'.output → i = j) := by
  rw [verify_eq_ok_iff]
  refine ⟨⟨Valid.ordered, fun h => h.valid hbodies⟩, fun h i j fn fn' hi hj hout => ?_⟩
  rcases Nat.lt_trichotomy i j with hlt | heq | hgt
  · exact absurd hout (h.output_ne hlt hi hj)
  · exact heq
  · exact absurd hout.symm (h.output_ne hgt hj hi)

end

/-- Copies a leaf of two elements, and doubles it in place. -/
def copied : List Function :=
  [⟨[.loop 2 1, .load 0 0, .store 0 1, .close], [0], 1⟩,
    ⟨[.loop 2 1, .load 0 0, .binary .add 1 1, .store 0 2, .close], [0], 0⟩]

/-- The leaf is copied, then doubled. -/
def copyFirst : Program := ⟨copied, [⟨.leaf 0 true, 2⟩, ⟨.scratch 0, 2⟩], some 1⟩

/-- The leaf is doubled, then copied. -/
def copyLast : Program := ⟨copied.reverse, [⟨.leaf 0 true, 2⟩, ⟨.scratch 1, 2⟩], some 1⟩

theorem copyFirst_ordered :
    (∀ fn ∈ copied, ∀ k, verifyBody k fn = .ok ()) ∧ copyFirst.Ordered ∧ ¬ copyLast.Ordered := by
  have hbodies : ∀ fn ∈ copied, ∀ k, verifyBody k fn = .ok () := by
    intro fn hfn k
    rcases List.mem_pair.1 hfn with rfl | rfl <;> rfl
  have hfirst := copyFirst.verify_eq_ok_iff_ordered fun hfn => hbodies _ (List.mem_of_getElem? hfn) _
  have hlast := copyLast.verify_eq_ok_iff_ordered fun hfn =>
    hbodies _ (List.mem_reverse.1 (List.mem_of_getElem? hfn)) _
  exact ⟨hbodies, hfirst.1.1 (by decide), fun h => absurd (hlast.1.2 h) (by decide)⟩

/-! ## What is reported -/

/-- Every leaf in the list was written by the function it is listed with, one of the first
`k`. -/
def Records (p : Program) (k : Nat) (updates : Updates) : Prop :=
  ∀ {b u : Nat}, updates.lookup b = some u → u < k ∧ p.IsLeaf b ∧ ∃ fn, p.functions[u]? = some fn ∧ fn.output = b

section
variable {p : Program} {k b : Nat} {fn : Function} {updates : Updates}

theorem Records.step (h : p.Records k updates) (hfn : p.functions[k]? = some fn) {buffer : Buffer}
    (hb : p.buffers[fn.output]? = some buffer) :
    p.Records (k + 1) (if buffer.source.isLeaf then (fn.output, k) :: updates else updates) := by
  have hold : p.Records (k + 1) updates := fun hu => ⟨Nat.lt_succ_of_lt (h hu).1, (h hu).2⟩
  obtain ⟨source, len⟩ := buffer
  cases source with
  | scratch q =>
    intro b u hu
    exact hold hu
  | leaf n linked =>
    intro b u hu
    by_cases hbo : b = fn.output
    · subst hbo
      obtain rfl : k = u := by simpa [Source.isLeaf] using hu
      exact ⟨Nat.lt_succ_self k, ⟨n, linked, len, hb⟩, fn, hfn, rfl⟩
    · refine hold ?_
      simpa [Source.isLeaf, List.lookup_cons, beq_false_of_ne hbo] using hu

variable (updates) in
/-- A buffer that exists may be used, or was written before. -/
theorem verifyBuffer_cases (hb : b < p.buffers.length) :
    (∃ source, verifyBuffer p k updates b = .ok source) ∨
      ∃ u, updates.lookup b = some u ∧ verifyBuffer p k updates b = .error (.useAfterUpdate k b u) := by
  unfold verifyBuffer
  rw [List.getElem?_eq_getElem hb]
  cases hu : updates.lookup b with
  | none => exact .inl ⟨_, rfl⟩
  | some u => exact .inr ⟨u, rfl, rfl⟩

variable (hw : p.Wired) (updates) (hfn : p.functions[k]? = some fn)
include hw hfn

theorem Wired.verifyInput (hb : b ∈ fn.inputs) :
    verifyInput p k updates b = .ok () ∨
      ∃ u, updates.lookup b = some u ∧ verifyInput p k updates b = .error (.useAfterUpdate k b u) := by
  rcases verifyBuffer_cases (k := k) updates
    (hw.present fn (List.mem_of_getElem? hfn) b (List.mem_cons_of_mem _ hb)) with ⟨source, hok⟩ | ⟨u, hu, herror⟩
  · obtain ⟨hnone, ⟨source, len⟩, hbuffer, rfl⟩ := verifyBuffer_eq_ok.1 hok
    refine .inl (verifyInput_eq_ok.2 ⟨hnone, _, hbuffer, ?_⟩)
    rintro q rfl
    exact hw.behind hfn hb hbuffer
  · refine .inr ⟨u, hu, ?_⟩
    rw [TensorLoom.verifyInput, herror]
    rfl

theorem Wired.verifyOutput :
    (∃ buffer, p.buffers[fn.output]? = some buffer ∧ verifyOutput p k updates fn.output =
        .ok (if buffer.source.isLeaf then (fn.output, k) :: updates else updates)) ∨
      ∃ u, updates.lookup fn.output = some u ∧
        verifyOutput p k updates fn.output = .error (.useAfterUpdate k fn.output u) := by
  rcases verifyBuffer_cases (k := k) updates
    (hw.present fn (List.mem_of_getElem? hfn) fn.output List.mem_cons_self) with ⟨source, hok⟩ | ⟨u, hu, herror⟩
  · obtain ⟨hnone, ⟨source, len⟩, hbuffer, rfl⟩ := verifyBuffer_eq_ok.1 hok
    refine .inl ⟨_, hbuffer, verifyOutput_eq_ok.2 ⟨hnone, _, hbuffer, ?_, rfl⟩⟩
    rintro q rfl
    exact ((hw.owned hbuffer).2 hfn rfl).symm
  · refine .inr ⟨u, hu, ?_⟩
    rw [TensorLoom.verifyOutput, herror]
    rfl

end

section
variable {p : Program} (hw : p.Wired)
  (hbodies : ∀ {k : Nat} {fn : Function}, p.functions[k]? = some fn → verifyBody k fn = .ok ())
include hw hbodies

theorem Wired.verifyFunctions (fns : List Function) {k : Nat} {updates : Updates}
    (hfns : ∀ i, fns[i]? = p.functions[k + i]?) (h : p.Records k updates) :
    verifyFunctions p k fns updates = .ok () ∨
      ∃ u f b, p.Clash u f b ∧ verifyFunctions p k fns updates = .error (.useAfterUpdate f b u) := by
  induction fns generalizing k updates with
  | nil => exact .inl rfl
  | cons fn fns ih =>
    have hfn : p.functions[k]? = some fn := (hfns 0).symm
    have hclash : ∀ {b u}, updates.lookup b = some u → b ∈ fn.output :: fn.inputs → p.Clash u k b := fun hu hb =>
      let ⟨hlt, hleaf, hwrites⟩ := h hu
      ⟨hlt, hleaf, hwrites, fn, hfn, hb⟩
    rw [TensorLoom.verifyFunctions]
    rcases forM_ok_or_error (TensorLoom.verifyInput p k updates) fn.inputs with hin | ⟨b, hb, e, he, hin⟩
    · rcases hw.verifyOutput updates hfn with ⟨buffer, hbuffer, hout⟩ | ⟨u, hu, hout⟩
      · have hrest : ∀ i, fns[i]? = p.functions[k + 1 + i]? := fun i => by
          rw [Nat.add_assoc, Nat.add_comm 1 i, ← hfns, List.getElem?_cons_succ]
        rw [hin, hout, hbodies hfn]
        exact ih hrest (h.step hfn hbuffer)
      · refine .inr ⟨u, k, fn.output, hclash hu List.mem_cons_self, ?_⟩
        rw [hin, hout]
        rfl
    · rcases hw.verifyInput updates hfn hb with hok | ⟨u, hu, herror⟩
      · cases hok.symm.trans he
      · cases herror.symm.trans he
        refine .inr ⟨u, k, b, hclash hu (List.mem_cons_of_mem _ hb), ?_⟩
        rw [hin]
        rfl

/-- Where nothing else is wrong, the verifier reports a leaf that is used behind a function that
writes it, if there is one. -/
theorem Wired.verify (hout : ∃ out, p.output = some out ∧ out < p.buffers.length) :
    p.verify = .ok () ∨ ∃ u f b, p.Clash u f b ∧ p.verify = .error (.useAfterUpdate f b u) := by
  obtain ⟨out, hout, hlt⟩ := hout
  have howners := verifyOwners_eq_ok.2 fun hb => (hw.owned hb).1
  have hverify : p.verify = TensorLoom.verifyFunctions p 0 p.functions [] := by
    rw [Program.verify, hout]
    simp only [Nat.not_le.2 hlt, if_false]
    exact congrArg (· >>= fun _ => TensorLoom.verifyFunctions p 0 p.functions []) howners
  have hempty : p.Records 0 [] := by
    intro b u hu
    cases hu
  rw [hverify]
  exact hw.verifyFunctions hbodies p.functions (fun i => by rw [Nat.zero_add]) hempty

end

end Program

end TensorLoom
