import TensorLoom.Proofs.Lowering.Meaning
import TensorLoom.Proofs.Lowering.Perform
import TensorLoom.Session.Programs
/-
# Updates are simultaneous

Whatever steps a program was built by, if it passes the verifier, then a run of it gives
every updated leaf the value of its node at the contents before the run, and changes
nothing else (`performSteps_simultaneous`).
-/

namespace TensorLoom

namespace Lowering

section
variable {g : Graph} {l : Lowering} {nodes : List Nat}

/-- A step answers or is refused, and overwrites a leaf only if it is an update that was
answered. -/
theorem Step.runOn_ok (step : Step) (hg : g.WellFormed)
    (hcounts : ∀ id ∈ step.requested, g.CountsBelow 9223372036854775808 id) (hs : Sound g l nodes) :
    ∃ r l' nodes', step.runOn g l = .ok (r, l') ∧ Sound g l' nodes' ∧
      Advances l l' nodes nodes' fun n v => step = .update n v ∧ ∃ b, r = .ok b := by
  rcases step.refused_or_performed hg hcounts hs with ⟨e, he⟩ | ⟨b, l', nodes', hrun, h⟩
  · exact ⟨.error e, l, nodes, step.runOn_refused he l, hs, ((Grows.refl g l nodes).advances hs).congr (by simp)⟩
  · exact ⟨.ok b, l', nodes', hrun, h.sound, h.advances.congr (by simp)⟩

/-- The update of the leaf by the value is among the steps, and was not refused. -/
def Updated (steps : List Step) (reports : List Session.StepReport) (leaf value : Nat) : Prop :=
  ∃ (i : Nat) (report : Session.StepReport) (b : BufferId), steps[i]? = some (.update leaf value) ∧
    reports[i]? = some report ∧ report.result = .ok b

theorem updated_cons {step : Step} {steps : List Step} {report : Session.StepReport} {reports : List Session.StepReport}
    {leaf value : Nat} : Updated (step :: steps) (report :: reports) leaf value ↔
      (step = .update leaf value ∧ ∃ b, report.result = .ok b) ∨ Updated steps reports leaf value := by
  constructor
  · rintro ⟨i, report', b, hstep, hreport, hresult⟩
    cases i with
    | zero =>
      obtain rfl := Option.some.inj hstep
      obtain rfl := Option.some.inj hreport
      exact .inl ⟨rfl, b, hresult⟩
    | succ i => exact .inr ⟨i, report', b, by simpa using hstep, by simpa using hreport, hresult⟩
  · rintro (⟨rfl, b, hresult⟩ | ⟨i, report', b, hstep, hreport, hresult⟩)
    · exact ⟨0, report, b, rfl, rfl, hresult⟩
    · exact ⟨i + 1, report', b, by simpa using hstep, by simpa using hreport, hresult⟩

theorem finish_eq_ok {p : Program} (h : l.finish = .ok p) : l.program.Valid ∧ l.program = p := by
  obtain ⟨_, hverify, hp⟩ := bind_eq_ok.1 h
  refine ⟨Program.verify_eq_ok_iff.1 ?_, Except.ok.inj hp⟩
  cases hv : l.program.verify with
  | ok => rfl
  | error e =>
    rw [hv] at hverify
    cases hverify

/-- A run of steps overwrites the leaves of the updates that were not refused. -/
theorem performSteps_requested (hg : g.WellFormed) (steps : List Step)
    (hcounts : ∀ step ∈ steps, ∀ id ∈ step.requested, g.CountsBelow 9223372036854775808 id) (hs : Sound g l nodes) :
    ∃ reports l' nodes', Session.performSteps g l steps = .ok (reports, l') ∧ Sound g l' nodes' ∧
      Advances l l' nodes nodes' (Updated steps reports) := by
  induction steps generalizing l nodes with
  | nil => exact ⟨[], l, nodes, rfl, hs, ((Grows.refl g l nodes).advances hs).congr fun n v => by simp [Updated]⟩
  | cons step steps ih =>
    obtain ⟨hstep, hsteps⟩ := List.forall_mem_cons.1 hcounts
    obtain ⟨r, l₁, nodes₁, hrun₁, hs₁, hadvances₁⟩ := step.runOn_ok hg hstep hs
    obtain ⟨reports, l₂, nodes₂, hrun₂, hs₂, hadvances₂⟩ := ih hsteps hs₁
    refine ⟨⟨r, l₁.program.functions.length, l₁.program.buffers.length⟩ :: reports, l₂, nodes₂, ?_, hs₂,
      (hadvances₁.trans hadvances₂).congr fun n v => by rw [updated_cons]⟩
    simp only [Session.performSteps, hrun₁, hrun₂, bind, Except.bind]
    rfl

theorem performSteps_ok (hg : g.WellFormed) (hcounts : ∀ id, g.CountsBelow 9223372036854775808 id) (hs : Sound g l nodes)
    (steps : List Step) :
    ∃ reports l' nodes', Session.performSteps g l steps = .ok (reports, l') ∧ Sound g l' nodes' ∧
      Advances l l' nodes nodes' (Updated steps reports) :=
  performSteps_requested hg steps (fun _ _ id _ => hcounts id) hs

end

end Lowering

/-- However a program was built, if it is finished, a run of it gives every leaf that was
updated the value of its node at the contents before the run, and leaves all other storages
as they were. The storages of updated leaves must not be those of other leaves of the
program. -/
theorem performSteps_simultaneous {g : Graph} (hg : g.Built)
    (hsmall : g.SizesBelow 9223372036854775808)
    (steps : List Lowering.Step) :
    ∃ reports l, Session.performSteps g {} steps = .ok (reports, l) ∧ ∀ p, l.finish = .ok p →
      ∀ {α : Type} (A : Arith α) (m : Module α) (st : Store α) (held : List StorageId),
        m.program = p → m.Interpreted A → m.Fits → m.CanRun st held →
        (∀ {leaf value other b s len : Nat} {linked : Bool}, Lowering.Updated steps reports leaf value →
          p.buffers[b]? = some ⟨.leaf other linked, len⟩ → st.bound? leaf = some s → st.bound? other = some s →
          other = leaf) →
        ∃ m' st', m.execute st held = .ok (.ok (), m', st') ∧ st'.names = st.names ∧ st'.bindings = st.bindings ∧
          (∀ {leaf value : Nat}, Lowering.Updated steps reports leaf value →
            ∃ s, st.bound? leaf = some s ∧ st'.contents[s]? = some (g.value A.toAlgebra st.leaves value).toArray) ∧
          ∀ {s : Nat}, (∀ {leaf value : Nat}, Lowering.Updated steps reports leaf value → st.bound? leaf ≠ some s) →
            st'.contents[s]? = st.contents[s]? := by
  have hwf := hg.wellFormed
  obtain ⟨reports, l, nodes, hrun, hs, hadvances⟩ := Lowering.performSteps_ok hwf
    (hsmall.counts (by decide)) (Lowering.sound_empty g) steps
  have hassigns : ∀ {n v : Nat}, Lowering.Assigns l.program nodes n v ↔ Lowering.Updated steps reports n v :=
    hadvances.assigns.trans (or_iff_right fun ⟨f, fn, linked, len, hfn, _⟩ => by simp at hfn)
  have hover : ∀ {n : Nat}, l.program.Overwrites n → ∃ v, Lowering.Updated steps reports n v := fun hn =>
    (hs.assigns hn).imp fun _ => hassigns.1
  refine ⟨reports, l, hrun, fun p hfinish α A m st held hm hkernel hfits hcan hunshared => ?_⟩
  obtain ⟨hvalid, rfl⟩ := Lowering.finish_eq_ok hfinish
  obtain ⟨m', st', hexecute, h⟩ := Module.execute_ok hwf hs hvalid hm hfits hcan
    (fun hn hb hbound hbound' => by
      obtain ⟨v, hv⟩ := hover (hm ▸ hn)
      exact hunshared hv (hm ▸ hb) hbound hbound') hkernel
  refine ⟨m', st', hexecute, h.names, h.bindings, fun {leaf value} hupdated => ?_, fun {s} hs' => ?_⟩
  · obtain ⟨f, fn, linked, len, hfn, hid, hb⟩ := hassigns.2 hupdated
    rw [← hm] at hfn hb
    obtain ⟨-, s, hbound, -⟩ := hcan hb
    exact ⟨s, hbound, h.overwritten hfn hid hb hbound⟩
  · refine h.other fun n hn => ?_
    obtain ⟨v, hv⟩ := hover (hm ▸ hn)
    exact hs' hv

/-- Two weights, the transpose of the first and the sum of both. -/
def twoWeights : Graph :=
  ⟨[⟨.weight, [2, 2]⟩, ⟨.permute 0 [1, 0], [2, 2]⟩, ⟨.weight, [2, 2]⟩, ⟨.binary .add 2 0, [2, 2]⟩]⟩

theorem twoWeights_built : twoWeights.Built :=
  .call (.binary .add 2 0) (.call (.weight [2, 2]) (.call (.permute 0 [1, 0])
    (.call (.weight [2, 2]) .empty rfl) rfl) rfl) rfl

theorem twoWeights_small : twoWeights.SizesBelow 9223372036854775808 := by
  intro id hid
  have hlt : id < 4 := hid
  interval_cases id <;> decide

/-- The second weight becomes the sum and the first its own transpose, for which a copy is
needed; a node that is no leaf is refused. -/
def twoUpdates : List Lowering.Step := [.output 0, .update 2 3, .update 0 1, .update 1 1]

def twoStorages : Store Nat :=
  { contents := #[#[1, 2, 3, 4], #[5, 6, 7, 8]], names := [("a", 0), ("b", 1)], bindings := [(0, 0), (2, 1)] }

theorem bound?_twoStorages {n s : Nat} (h : twoStorages.bound? n = some s) : (n = 0 ∧ s = 0) ∨ (n = 2 ∧ s = 1) := by
  by_cases h0 : n = 0
  · subst h0
    exact .inl ⟨rfl, (Option.some.inj h).symm⟩
  by_cases h2 : n = 2
  · subst h2
    exact .inr ⟨rfl, (Option.some.inj h).symm⟩
  simp [Store.bound?, twoStorages, List.lookup_cons, beq_false_of_ne h0, beq_false_of_ne h2] at h

theorem performSteps_twoUpdates :
    ∃ reports l p m m' st', Session.performSteps twoWeights {} twoUpdates = .ok (reports, l) ∧ l.finish = .ok p ∧
      Module.create Arith.natural p (.machine Arith.natural p) = .ok m ∧ m.execute twoStorages [] = .ok (.ok (), m', st') ∧
      st'.contents[0]? = some #[1, 3, 2, 4] ∧ st'.contents[1]? = some #[6, 8, 10, 12] := by
  have hcheck : (match Session.performSteps twoWeights {} twoUpdates with
    | .ok (reports, l) => reports.map (fun r => r.result.isOk) == [true, true, true, false] && l.finish.isOk &&
        l.program.buffers == [⟨.leaf 0 true, 4⟩, ⟨.scratch 0, 4⟩, ⟨.leaf 2 true, 4⟩, ⟨.scratch 2, 4⟩] &&
        (Module.create Arith.natural l.program (.machine Arith.natural l.program)).isOk
    | .error _ => false) = true := by decide +kernel
  obtain ⟨reports, l, hrun, hrest⟩ := performSteps_simultaneous twoWeights_built twoWeights_small twoUpdates
  rw [hrun] at hcheck
  simp only [Bool.and_eq_true, beq_iff_eq] at hcheck
  obtain ⟨⟨⟨hreports, hfinish⟩, hbuffers⟩, hcreate⟩ := hcheck
  obtain ⟨p, hp⟩ := exists_eq_ok hfinish
  obtain ⟨-, rfl⟩ := Lowering.finish_eq_ok hp
  obtain ⟨m, hm⟩ := exists_eq_ok hcreate
  obtain ⟨hprogram, hfits⟩ := Module.create_fits hm
  have hcan : m.CanRun twoStorages [] := by
    intro b n len linked hb
    rw [hprogram, hbuffers] at hb
    have hlt : b < 4 := (List.getElem?_eq_some_iff.1 hb).1
    interval_cases b <;> cases hb
    · exact ⟨rfl, 0, rfl, rfl, by simp⟩
    · exact ⟨rfl, 1, rfl, rfl, by simp⟩
  have hupdated : ∀ i leaf value, i < 3 → twoUpdates[i]? = some (.update leaf value) →
      Lowering.Updated twoUpdates reports leaf value := by
    intro i leaf value hi hstep
    have hok : (reports.map fun r => r.result.isOk)[i]? = some true := by
      rw [hreports]
      interval_cases i <;> rfl
    rw [List.getElem?_map] at hok
    obtain ⟨report, hreport, hresult⟩ := Option.map_eq_some_iff.1 hok
    obtain ⟨b, hb⟩ := exists_eq_ok hresult
    exact ⟨i, report, b, hstep, hreport, hb⟩
  obtain ⟨m', st', hexecute, -, -, hvalues, -⟩ := hrest _ hp Arith.natural m twoStorages [] hprogram
    (Module.create_interpreted hm) hfits hcan
    (fun _ _ hbound hbound' => by
      rcases bound?_twoStorages hbound with ⟨rfl, rfl⟩ | ⟨rfl, rfl⟩ <;>
        rcases bound?_twoStorages hbound' with ⟨rfl, h⟩ | ⟨rfl, h⟩ <;> first | rfl | cases h)
  obtain ⟨s₁, hs₁, hvalue₁⟩ := hvalues (hupdated 1 2 3 (by decide) rfl)
  obtain ⟨s₂, hs₂, hvalue₂⟩ := hvalues (hupdated 2 0 1 (by decide) rfl)
  cases hs₁
  cases hs₂
  exact ⟨reports, l, _, m, m', st', hrun, hp, hm, hexecute, hvalue₂.trans (by decide), hvalue₁.trans (by decide)⟩

end TensorLoom
