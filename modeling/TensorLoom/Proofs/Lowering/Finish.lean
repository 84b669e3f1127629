import TensorLoom.Proofs.Lowering.Simultaneous
/-
# Finishing programs

A run of steps is the same run without a step that is refused (`performSteps_eraseIdx`).
The program it builds is finished, unless no result was named or a leaf is used behind a
function that writes it; the verifier has no other complaint (`performSteps_finish`).
-/

namespace TensorLoom

namespace Lowering

/-- The program has a result, in one of its buffers, exactly if one was named. -/
structure Result (l : Lowering) (named : Prop) : Prop where
  without : ¬ named → l.program.output = none
  within : named → ∃ out, l.program.output = some out ∧ out < l.program.buffers.length

/-- Among the steps is one for the result that was not refused. -/
def ResultNamed (steps : List Step) (reports : List Session.StepReport) : Prop :=
  ∃ (id : NodeId) (report : Session.StepReport) (b : BufferId),
    (.output id, report) ∈ steps.zip reports ∧ report.result = .ok b

theorem resultNamed_cons {step : Step} {steps : List Step} {report : Session.StepReport} {reports : List Session.StepReport} :
    ResultNamed (step :: steps) (report :: reports) ↔
      ((∃ id, step = .output id) ∧ ∃ b, report.result = .ok b) ∨ ResultNamed steps reports := by
  unfold ResultNamed
  simp only [List.zip_cons_cons, List.mem_cons, Prod.mk.injEq]
  constructor
  · rintro ⟨id, report', b, ⟨rfl, rfl⟩ | hmem, hb⟩
    · exact .inl ⟨⟨id, rfl⟩, b, hb⟩
    · exact .inr ⟨id, report', b, hmem, hb⟩
  · rintro (⟨⟨id, rfl⟩, b, hb⟩ | ⟨id, report', b, hmem, hb⟩)
    · exact ⟨id, report, b, .inl ⟨rfl, rfl⟩, hb⟩
    · exact ⟨id, report', b, .inr hmem, hb⟩

section
variable {g : Graph} {l l' l₁ : Lowering} {nodes : List Nat} {named named' : Prop} {step : Step}

theorem performSteps_cons {r : Except LowerError BufferId} (h : step.runOn g l = .ok (r, l₁)) (steps : List Step) :
    Session.performSteps g l (step :: steps) = (Session.performSteps g l₁ steps).map fun (reports, last) =>
      (⟨r, l₁.program.functions.length, l₁.program.buffers.length⟩ :: reports, last) := by
  simp only [Session.performSteps, h, bind, Except.bind]
  cases Session.performSteps g l₁ steps <;> rfl

/-- Without a step that is refused, everything is as with it. -/
theorem performSteps_eraseIdx {steps : List Step} {reports : List Session.StepReport}
    (hrun : Session.performSteps g l steps = .ok (reports, l')) {i : Nat} (hi : steps[i]? = some step) {e : LowerError}
    (he : step.Refused g e) : Session.performSteps g l (steps.eraseIdx i) = .ok (reports.eraseIdx i, l') := by
  induction steps generalizing l reports i with
  | nil => simp at hi
  | cons first steps ih =>
    obtain ⟨⟨r, l₁⟩, hfirst, hrun⟩ := bind_eq_ok.1 hrun
    obtain ⟨⟨reports₁, last⟩, hrest, hrun⟩ := bind_eq_ok.1 hrun
    cases hrun
    cases i with
    | zero =>
      obtain rfl : first = step := by simpa using hi
      cases hfirst.symm.trans (first.runOn_refused he l)
      exact hrest
    | succ i =>
      rw [List.eraseIdx_cons_succ, performSteps_cons hfirst, ih hrest (by simpa using hi)]
      rfl

theorem Result.congr (h : l.Result named) (heq : named ↔ named') : l.Result named' :=
  ⟨fun hn => h.without (mt heq.1 hn), fun hn => h.within (heq.2 hn)⟩

theorem Step.Performed.result_iff {nodes' : List Nat} {b : BufferId} (hp : step.Performed g l nodes b l' nodes')
    (h : l.Result named) : l'.Result (named ∨ ∃ id, step = .output id) := by
  by_cases hstep : ∃ id, step = .output id
  · obtain ⟨id, hid⟩ := hstep
    exact ⟨fun hn => absurd (.inr ⟨id, hid⟩) hn, fun _ => ⟨b, hp.result hid⟩⟩
  · have hout := hp.other fun {id} hid => hstep ⟨id, hid⟩
    refine ⟨fun hn => hout.trans (h.without fun hn' => hn (.inl hn')), fun hn => ?_⟩
    obtain ⟨out, hsome, hlt⟩ := h.within (hn.resolve_right hstep)
    exact ⟨out, hout.trans hsome, Nat.lt_of_lt_of_le hlt hp.advances.buffers.length_le⟩

/-- A step is refused for its reason, or performed and the result known. -/
theorem Step.runOn_outcome (hg : g.WellFormed) (hcounts : ∀ id, g.CountsBelow 9223372036854775808 id)
    (hs : Sound g l nodes) (h : l.Result named) (step : Step) :
    ∃ r l' nodes', step.runOn g l = .ok (r, l') ∧ Sound g l' nodes' ∧
      l'.Result (named ∨ (∃ id, step = .output id) ∧ ∃ b, r = .ok b) ∧ ∀ e, r = .error e ↔ step.Refused g e := by
  rcases step.refused_or_performed hg (fun id _ => hcounts id) hs with ⟨e, he⟩ | ⟨b, l', nodes', hrun, hp⟩
  · have hrun := step.runOn_refused he l
    refine ⟨.error e, l, nodes, hrun, hs, h.congr (by simp), fun e' => ⟨fun heq => Except.error.inj heq ▸ he, fun he' => ?_⟩⟩
    cases hrun.symm.trans (step.runOn_refused he' l)
    rfl
  · refine ⟨.ok b, l', nodes', hrun, hp.sound, (hp.result_iff h).congr (by simp), fun e => ⟨nofun, fun he => ?_⟩⟩
    cases hrun.symm.trans (step.runOn_refused he l)

/-- Every step of a run is refused for its reason or performed, and the result is the one that
was named. -/
theorem performSteps_outcome (hg : g.WellFormed) (hcounts : ∀ id, g.CountsBelow 9223372036854775808 id)
    (hs : Sound g l nodes) (h : l.Result named) (steps : List Step) :
    ∃ reports l' nodes', Session.performSteps g l steps = .ok (reports, l') ∧ Sound g l' nodes' ∧
      l'.Result (named ∨ ResultNamed steps reports) ∧
      List.Forall₂ (fun step report => ∀ e, report.result = .error e ↔ step.Refused g e) steps reports := by
  induction steps generalizing l nodes named with
  | nil => exact ⟨[], l, nodes, rfl, hs, h.congr (by simp [ResultNamed]), .nil⟩
  | cons step steps ih =>
    obtain ⟨r, l₁, nodes₁, hrun₁, hs₁, h₁, hrefused⟩ := step.runOn_outcome hg hcounts hs h
    obtain ⟨reports, l', nodes', hrun, hs', h', hreports⟩ := ih hs₁ h₁
    refine ⟨⟨r, l₁.program.functions.length, l₁.program.buffers.length⟩ :: reports, l', nodes', ?_, hs', h'.congr ?_,
      .cons hrefused hreports⟩
    · rw [performSteps_cons hrun₁, hrun]
      rfl
    · rw [resultNamed_cons, or_assoc]

/-- What becomes of a sound program at the end. -/
theorem Sound.finish (hs : Sound g l nodes) (h : l.Result named) :
    (¬ named ∧ l.finish = .error (.verify .missingOutput)) ∨
      named ∧ ((∀ u f b, ¬ l.program.Clash u f b) ∧ l.finish = .ok l.program ∨
        ∃ u f b, l.program.Clash u f b ∧ l.finish = .error (.verify (.useAfterUpdate f b u))) := by
  unfold Lowering.finish
  by_cases hn : named
  · refine .inr ⟨hn, ?_⟩
    rcases hs.wired.verify hs.verified (h.within hn) with hok | ⟨u, f, b, hclash, herror⟩
    · refine .inl ⟨fun u f b => (Program.verify_eq_ok_iff.1 hok).ordered.apart, ?_⟩
      rw [hok]
      rfl
    · refine .inr ⟨u, f, b, hclash, ?_⟩
      rw [herror]
      rfl
  · refine .inl ⟨hn, ?_⟩
    rw [Program.verify, h.without hn]
    rfl

end

end Lowering

/-- Whatever steps a program is built by: a step is refused for one of the stated reasons, and
the run is then the same without it. The program is refused at the end if no result was
named, or else if a leaf is used behind a function that writes it, and for nothing else. -/
theorem performSteps_finish {g : Graph} (hg : g.Built)
    (hsmall : g.SizesBelow 9223372036854775808)
    (steps : List Lowering.Step) :
    ∃ reports l, Session.performSteps g {} steps = .ok (reports, l) ∧
      List.Forall₂ (fun step report => ∀ e, report.result = .error e ↔ step.Refused g e) steps reports ∧
      (∀ {i : Nat} {report : Session.StepReport} {e : LowerError}, reports[i]? = some report → report.result = .error e →
        Session.performSteps g {} (steps.eraseIdx i) = .ok (reports.eraseIdx i, l)) ∧
      (l.finish = .error (.verify .missingOutput) ↔ ¬ Lowering.ResultNamed steps reports) ∧
      ((∃ f b u, l.finish = .error (.verify (.useAfterUpdate f b u))) ↔
        Lowering.ResultNamed steps reports ∧ ∃ u f b, l.program.Clash u f b) ∧
      (l.finish = .ok l.program ↔ Lowering.ResultNamed steps reports ∧ ∀ u f b, ¬ l.program.Clash u f b) ∧
      ∀ e, l.finish = .error e → e = .verify .missingOutput ∨
        ∃ u f b, l.program.Clash u f b ∧ e = .verify (.useAfterUpdate f b u) := by
  have hnone : ({} : Lowering).Result False := ⟨fun _ => rfl, False.elim⟩
  obtain ⟨reports, l, nodes, hrun, hs, h, hreports⟩ := Lowering.performSteps_outcome hg.wellFormed
    (hsmall.counts (by decide)) (Lowering.sound_empty g) hnone steps
  refine ⟨reports, l, hrun, hreports, fun {i report e} hi he => ?_, ?_⟩
  · obtain ⟨hlen, hall⟩ := List.forall₂_iff_get.1 hreports
    obtain ⟨hlt, rfl⟩ := List.getElem?_eq_some_iff.1 hi
    have hrefused := (hall i (hlen ▸ hlt) hlt e).1 he
    exact Lowering.performSteps_eraseIdx hrun (List.getElem?_eq_getElem (hlen ▸ hlt)) hrefused
  · rcases hs.finish h with ⟨hn, hfinish⟩ | ⟨hn, ⟨hapart, hfinish⟩ | ⟨u, f, b, hclash, hfinish⟩⟩ <;>
      rw [false_or] at hn <;> rw [hfinish]
    · simp [hn]
    · simp [hn, hapart]
    · have hsome : ∃ u f b, l.program.Clash u f b := ⟨u, f, b, hclash⟩
      exact ⟨by simp [hn], ⟨fun _ => ⟨hn, hsome⟩, fun _ => ⟨f, b, u, rfl⟩⟩, by simpa [hn] using hsome,
        fun e he => .inr ⟨u, f, b, hclash, (Except.error.inj he).symm⟩⟩

/-- The first weight becomes its own transpose, something that is no leaf is to be updated,
and the result reads the first weight. -/
def lateRead : List Lowering.Step := [.update 0 1, .update 1 1, .output 3]

theorem performSteps_finish_lateRead :
    ∃ reports l u f b, Session.performSteps twoWeights {} lateRead = .ok (reports, l) ∧
      Session.performSteps twoWeights {} [.update 0 1, .output 3] = .ok (reports.eraseIdx 1, l) ∧
      Lowering.ResultNamed lateRead reports ∧ l.program.Clash u f b ∧
      l.finish = .error (.verify (.useAfterUpdate f b u)) := by
  have hcheck : (match Session.performSteps twoWeights {} lateRead with
    | .ok (reports, l) => (reports[1]?).any (fun report => !report.result.isOk) &&
        match l.finish with
        | .error (.verify (.useAfterUpdate ..)) => true
        | _ => false
    | .error _ => false) = true := by decide +kernel
  obtain ⟨reports, l, hrun, -, herase, -, hlate, -, hreal⟩ :=
    performSteps_finish twoWeights_built twoWeights_small lateRead
  rw [hrun] at hcheck
  simp only [Bool.and_eq_true] at hcheck
  obtain ⟨hrefused, hfinish⟩ := hcheck
  obtain ⟨report, hi, hresult⟩ := (Option.any_eq_true ..).1 hrefused
  have hrest : lateRead.eraseIdx 1 = [.update 0 1, .output 3] := rfl
  cases he : report.result with
  | ok b => simp [he, Except.isOk, Except.toBool] at hresult
  | error e =>
    cases hf : l.finish with
    | ok p => simp [hf] at hfinish
    | error e' =>
      rcases hreal e' hf with rfl | ⟨u, f, b, hclash, rfl⟩
      · simp [hf] at hfinish
      · exact ⟨reports, l, u, f, b, hrun, hrest ▸ herase hi he, (hlate.1 ⟨f, b, u, hf⟩).1, hclash, hf⟩

end TensorLoom
