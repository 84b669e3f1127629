import TensorLoom.Proofs.Lowering.InBounds
import TensorLoom.Proofs.Module.Outcome
import TensorLoom.Proofs.Session.Refused
/-
# Executions in a session

Along every run leaves are bound to storages of their lengths, and modules are those of
finished programs (`runCommands_kept`), whatever backend has compiled them. So an execution is
refused for the first leaf without a live storage, or else for the first whose storage is held,
or else succeeds if its kernel comes to its end (`execute_answers`). The loop machine always does,
unless it counts further than a signed word can (`execute_overlarge`).
-/

namespace TensorLoom

/-! ## Finished programs -/

/-- The program was finished when the graph was this or had fewer nodes. -/
def Program.Finished (g : Graph) (p : Program) : Prop :=
  ∃ g₀ steps, g₀.WellFormed ∧ g₀.Extends g ∧ p.FinishedBy g₀ steps

/-- It can have been finished by steps that ask for nothing of more elements than a signed word
can count. -/
def Program.Indexable (g : Graph) (p : Program) : Prop :=
  ∃ g₀ steps, g₀.WellFormed ∧ g₀.Extends g ∧ p.FinishedBy g₀ steps ∧
    ∀ step ∈ steps, ∀ id ∈ step.requested, g₀.CountsBelow 9223372036854775808 id

namespace Program

variable {g : Graph} {p : Program}

theorem Finished.extend (h : p.Finished g) {g' : Graph} (hg : g.Extends g') : p.Finished g' := by
  obtain ⟨g₀, steps, hwf, hext, hby⟩ := h
  exact ⟨g₀, steps, hwf, hext.trans hg, hby⟩

theorem Finished.valid (h : p.Finished g) : p.Valid := by
  obtain ⟨-, -, -, -, -, l, -, hfinish⟩ := h
  obtain ⟨hvalid, rfl⟩ := Lowering.finish_eq_ok hfinish
  exact hvalid

theorem LeavesOf.extend (h : p.LeavesOf g) {g' : Graph} (hg : g.Extends g') : p.LeavesOf g' := by
  intro buffer hbuffer n linked hsource
  obtain ⟨hlinked, node, hn, hrest⟩ := h buffer hbuffer n linked hsource
  exact ⟨hlinked, node, (hg.node? (Graph.node?_lt hn)).trans hn, hrest⟩

theorem Finished.leavesOf (h : p.Finished g) : p.LeavesOf g := by
  obtain ⟨g₀, steps, -, hext, reports, l, hrun, hfinish⟩ := h
  obtain ⟨-, rfl⟩ := Lowering.finish_eq_ok hfinish
  exact (Lowering.performSteps_leavesOf hrun (by simp [LeavesOf])).extend hext

/-- A program whose nodes are not too large runs through. -/
theorem Indexable.run (h : p.Indexable g) {α : Type} (A : Arith α) {cells : List Nat} {memory : Memory α}
    (hcells : p.SizedIn cells memory) : ∃ memory', p.run A cells memory = .ok memory' := by
  obtain ⟨g₀, steps, hwf, -, ⟨reports, l, hrun, hfinish⟩, hcounts⟩ := h
  obtain ⟨-, rfl⟩ := Lowering.finish_eq_ok hfinish
  obtain ⟨_, _, nodes, hrun', hs, -⟩ := Lowering.performSteps_requested hwf steps hcounts (Lowering.sound_empty g₀)
  cases hrun.symm.trans hrun'
  obtain ⟨memory', hmemory, -⟩ := hs.run_program A hcells
  exact ⟨memory', hmemory⟩

end Program

/-! ## Stores -/

namespace Store

variable {α : Type} {g : Graph} {st st' : Store α}

/-- Names refer to storages that exist, and leaves to storages of their lengths. -/
structure Suits (g : Graph) (st : Store α) : Prop where
  wellFormed : st.WellFormed
  bindings : ∀ x ∈ st.bindings, x.2 < st.contents.size ∧
    ∃ node, g.node? x.1 = some node ∧ Shape.elementCount node.shape = .ok (st.values x.2).size

/-- No storage goes, and none changes its length. -/
structure KeepsSizes (st st' : Store α) : Prop where
  size : st.contents.size ≤ st'.contents.size
  values : ∀ s < st.contents.size, (st'.values s).size = (st.values s).size

theorem KeepsSizes.of_contents (h : st'.contents = st.contents) : st.KeepsSizes st' :=
  ⟨Nat.le_of_eq (congrArg Array.size h.symm), fun s _ => by rw [Store.values, h, Store.values]⟩

theorem setValues_keepsSizes {s : StorageId} {values : Array α} (h : values.size = (st.values s).size) :
    st.KeepsSizes (st.setValues s values) := by
  refine ⟨by simp [Store.setValues], fun t ht => ?_⟩
  by_cases hst : s = t
  · subst hst
    simpa [Store.setValues, Store.values, ht] using h
  · simp [Store.setValues, Store.values, Array.getElem?_setIfInBounds_ne hst]

theorem Step.keepsSizes (h : Step st st') : st.KeepsSizes st' := by
  cases h with
  | create name values =>
    refine ⟨by simp [Store.create, Store.setName], fun s hs => ?_⟩
    simp [Store.create, Store.setName, Store.values, Array.getElem?_push_lt hs, hs]
  | share name' hs => exact .of_contents rfl
  | drop name => exact .of_contents rfl
  | set hset =>
    unfold Store.set at hset
    split at hset
    · cases hset
      exact setValues_keepsSizes (by simp)
    · cases hset
  | copy hcopy =>
    unfold Store.copyFrom at hcopy
    split at hcopy
    · rename_i hsize
      cases hcopy
      exact setValues_keepsSizes hsize
    · cases hcopy
  | bind hbind =>
    simp only [Store.bind] at hbind
    split at hbind
    · cases hbind
      exact .of_contents rfl
    · cases hbind
  | unbind leaf => exact .of_contents rfl

theorem Suits.of_keepsSizes (h : st.Suits g) (hwf : st'.WellFormed) (hsizes : st.KeepsSizes st')
    (hbindings : ∀ x ∈ st'.bindings, x ∈ st.bindings ∨ x.2 < st.contents.size ∧
      ∃ node, g.node? x.1 = some node ∧ Shape.elementCount node.shape = .ok (st.values x.2).size) : st'.Suits g := by
  refine ⟨hwf, fun x hx => ?_⟩
  obtain ⟨hlt, hnode⟩ := (hbindings x hx).elim (h.bindings x) id
  exact ⟨Nat.lt_of_lt_of_le hlt hsizes.size, (hsizes.values x.2 hlt).symm ▸ hnode⟩

theorem Suits.extend (h : st.Suits g) {g' : Graph} (hg : g.Extends g') : st.Suits g' := by
  refine ⟨h.wellFormed, fun x hx => ?_⟩
  obtain ⟨hlt, node, hn, hcount⟩ := h.bindings x hx
  exact ⟨hlt, node, (hg.node? (Graph.node?_lt hn)).trans hn, hcount⟩

/-- A leaf is bound to a storage of as many elements as its buffer has. -/
theorem Suits.size_eq (h : st.Suits g) {p : Program} (hp : p.LeavesOf g) {b : Buffer} (hb : b ∈ p.buffers) {n : NodeId}
    {s : StorageId} (hn : b.leaf? = some n) (hbound : st.bound? n = some s) : (st.values s).size = b.len := by
  obtain ⟨linked, hsource⟩ : ∃ linked, b.source = .leaf n linked := by
    unfold Buffer.leaf? at hn
    split at hn
    · rename_i n' linked hsource
      cases hn
      exact ⟨linked, hsource⟩
    · cases hn
  obtain ⟨-, node, hnode, -, hcount⟩ := hp b hb n linked hsource
  obtain ⟨hlookup, -⟩ := Option.filter_eq_some_iff.1 hbound
  obtain ⟨before, behind, hbindings, -⟩ := List.lookup_eq_some_iff.1 hlookup
  obtain ⟨-, node', hnode', hcount'⟩ := h.bindings (n, s) (hbindings ▸ List.mem_append_right _ List.mem_cons_self)
  obtain rfl : node = node' := Option.some.inj (hnode.symm.trans hnode')
  exact Except.ok.inj (hcount'.symm.trans hcount)

/-- The handle of a leaf has as many elements as the leaf. -/
theorem leafHandle_eq_ok {x : NodeId} {leaf : LeafHandle} (h : g.leafHandle x = .ok (.ok leaf)) :
    ∃ node, g.node? leaf.id = some node ∧ Shape.elementCount node.shape = .ok leaf.len := by
  unfold Graph.leafHandle at h
  split at h
  · cases h
  · rename_i node hn
    split at h
    · obtain ⟨len, hcount, hpure⟩ := bind_eq_ok.1 h
      cases hpure
      exact ⟨node, Graph.node_eq_ok.1 hn, hcount⟩
    · cases h

theorem Suits.bind (h : st.Suits g) {x : NodeId} {leaf : LeafHandle} {name : String} {t : StorageId}
    (hleaf : g.leafHandle x = .ok (.ok leaf)) (ht : st.find? name = some t) (hbind : st.bind leaf t = .ok st') : st'.Suits g := by
  have hstep : st.Step st' := .bind hbind
  refine h.of_keepsSizes (hstep.wellFormed h.wellFormed) hstep.keepsSizes fun y hy => ?_
  simp only [Store.bind] at hbind
  split at hbind
  · rename_i hsize
    cases hbind
    rcases List.mem_cons.1 hy with rfl | hy
    · obtain ⟨before, behind, hnames, -⟩ := List.lookup_eq_some_iff.1 ht
      have hlt := h.wellFormed.names (name, t) (hnames ▸ List.mem_append_right _ List.mem_cons_self)
      exact .inr ⟨hlt, hsize ▸ leafHandle_eq_ok hleaf⟩
    · exact .inl (List.mem_of_mem_filter hy)
  · cases hbind

end Store

namespace Session

/-! ## What a run keeps -/

/-- Leaves are bound to storages of their lengths, programs are finished, and modules are those
of finished programs. -/
structure Kept (s : Session) : Prop where
  graph : s.graph.WellFormed
  store : s.store.Suits s.graph
  programs : ∀ x ∈ s.programs, x.2.Finished s.graph
  modules : ∀ x ∈ s.modules, ∃ m, x.2 = .plain m ∧ m.program.Finished s.graph ∧ m.Fits

section
variable {s s' : Session}

theorem kept_empty : Kept {} := ⟨Graph.wellFormed_empty, ⟨⟨by simp⟩, by simp⟩, by simp, by simp⟩

theorem Kept.module (h : s.Kept) {name : String} {loaded : Loaded} (hloaded : s.modules.lookup name = some loaded) :
    ∃ m, loaded = .plain m ∧ m.program.Finished s.graph ∧ m.Fits := by
  obtain ⟨before, behind, hmodules, -⟩ := List.lookup_eq_some_iff.1 hloaded
  exact h.modules (name, loaded) (hmodules ▸ List.mem_append_right _ List.mem_cons_self)

theorem Kept.withLoaded (h : s.Kept) (name : String) {m : Module Float} (hm : m.program.Finished s.graph) (hfits : m.Fits) :
    (s.withLoaded name (.plain m)).Kept := by
  refine ⟨h.graph, h.store, h.programs, fun x hx => ?_⟩
  rcases mem_put hx with rfl | hx
  · exact ⟨m, rfl, hm, hfits⟩
  · exact h.modules x hx

theorem Kept.withStore (h : s.Kept) {st : Store Float} (hst : st.Suits s.graph) : Kept { s with store := st } :=
  ⟨h.graph, hst, h.programs, h.modules⟩

theorem Moves.kept (h : Moves s s') (hs : s.Kept) : s'.Kept := by
  cases h with
  | stay => exact hs
  | graph hgrows =>
    have hext := hgrows.toExtends
    refine ⟨hgrows.wellFormed hs.graph, hs.store.extend hext, fun x hx => (hs.programs x hx).extend hext, fun x hx => ?_⟩
    obtain ⟨m, hm, hfinished, hfits⟩ := hs.modules x hx
    exact ⟨m, hm, hfinished.extend hext, hfits⟩
  | store hstep hbindings =>
    exact hs.withStore (hs.store.of_keepsSizes (hstep.wellFormed hs.store.wellFormed) hstep.keepsSizes
      fun x hx => .inl (hbindings x hx))
  | bind hleaf ht hbind => exact hs.withStore (hs.store.bind hleaf ht hbind)
  | build name hby =>
    refine ⟨hs.graph, hs.store, fun x hx => ?_, hs.modules⟩
    rcases List.mem_cons.1 hx with rfl | hx
    · exact ⟨s.graph, _, hs.graph, .refl _, hby⟩
    · exact hs.programs x (List.mem_of_mem_filter hx)
  | compile name hp hcreate =>
    obtain ⟨before, behind, hprograms, -⟩ := List.lookup_eq_some_iff.1 hp
    have hfinished := hs.programs _ (hprograms ▸ List.mem_append_right _ List.mem_cons_self)
    obtain ⟨rfl, hfits⟩ := Module.create_fits hcreate
    exact hs.withLoaded name hfinished hfits
  | execute hm hexecute =>
    obtain ⟨m, rfl, hfinished, hfits⟩ := hs.module hm
    have hretained := Module.execute_retains hexecute
    have hwf : Store.WellFormed _ := ⟨fun x hx => hretained.size ▸ hs.store.wellFormed.names x (hretained.names ▸ hx)⟩
    have hst := hs.store.of_keepsSizes hwf ⟨Nat.le_of_eq hretained.size.symm, fun t _ => hretained.values t⟩
      fun x hx => .inl (hretained.bindings ▸ hx)
    exact (hs.withStore hst).withLoaded _ (hretained.program ▸ hfinished) (hretained.fits hfits)

theorem runCommands_kept {commands : List Command} {refusals : List (Option SessionError)}
    (h : runCommands commands s = .ok (refusals, s')) (hs : s.Kept) : s'.Kept := by
  induction commands generalizing s refusals with
  | nil =>
    cases h
    exact hs
  | cons command commands ih =>
    obtain ⟨⟨_, s₁⟩, hcommand, h⟩ := bind_eq_ok.1 h
    obtain ⟨⟨_, s₂⟩, hcommands, hlast⟩ := bind_eq_ok.1 h
    cases hlast
    exact ih hcommands ((Command.moves hcommand).kept hs)

/-- What is answered before anything runs. -/
theorem Kept.resolve (hs : s.Kept) {m : Module Float} (hm : m.program.Finished s.graph) (held : List StorageId) :
    m.resolve s.store held =
      (m.program.refusal? s.store held).elim (.ok (m.program.buffers.map (Module.storage? s.store))) .error := by
  have hleaves := hm.leavesOf
  exact Module.resolve_eq (fun b hb n linked hsource => (hleaves b hb n linked hsource).1)
    fun b hb n t hn hbound => hs.store.size_eq hleaves hb hn hbound

/-- The machine comes to its end, or fails on integers where nodes are too large for them. -/
theorem Kept.run_fault (hs : s.Kept) {m : Module Float} (hm : m.program.Finished s.graph) (hfits : m.Fits)
    (hkernel : m.Interpreted .double) {held : List StorageId} {storages : List (Option StorageId)}
    (hres : m.resolve s.store held = .ok storages) {fault : Fault}
    (hrun : m.kernel.run (Module.cells s.store storages) (s.store.contents ++ m.scratch) = .error fault) :
    fault.OfData ∧ ¬ m.program.Indexable s.graph := by
  have hsized := ((Module.resolve_eq_ok hres).laid hs.store.wellFormed hfits).toSizedIn
  rw [hkernel] at hrun
  refine ⟨hm.valid.run_ofData .double (fun b hb => ?_) hrun, fun hindexable => ?_⟩
  · obtain ⟨c, hc, hlen⟩ := hsized.cell (List.getElem?_eq_getElem hb)
    obtain ⟨contents, hcontents, -⟩ := Option.map_eq_some_iff.1 hlen
    exact ⟨c, hc, (Array.getElem?_eq_some_iff.1 hcontents).1⟩
  · obtain ⟨memory', hok⟩ := hindexable.run .double hsized
    cases hrun.symm.trans hok

end

/-- Whatever a session has been through, and whatever backends have compiled its programs: an
execution is refused for the first leaf in the buffer table that has no live storage, or else for
the first whose storage is being read, and never for a length. Otherwise it succeeds if the kernel
comes to its end. The loop machine does, unless the program asks for nodes of more elements than a
signed word can count, and then it fails on integers if it fails. A refusal changes no storage
and no scratch, and everything later is as if the execution had not been asked for. -/
theorem execute_answers {commands : List Command} {refusals : List (Option SessionError)} {s : Session}
    (hrun : runCommands commands {} = .ok (refusals, s)) {name : String} {loaded : Loaded}
    (hloaded : s.modules.lookup name = some loaded) {hold : List String} {held : List StorageId}
    (hheld : hold.mapM s.store.find? = some held) :
    (∀ e, loaded.module.program.refusal? s.store held = some e →
        ∃ s', perform (execute name 1 hold) s = .ok (.error (.execute e), s')) ∧
      (loaded.module.program.refusal? s.store held = none →
        (∀ memory, loaded.module.runAt s.store = .ok memory →
          ∃ answer s', perform (execute name 1 hold) s = .ok (.ok answer, s')) ∧
        ∀ fault, loaded.module.runAt s.store = .error fault → perform (execute name 1 hold) s = .error fault ∧
          (loaded.module.Interpreted .double → fault.OfData ∧ ¬ loaded.module.program.Indexable s.graph)) ∧
      ∀ e s', perform (execute name 1 hold) s = .ok (.error e, s') →
        s'.forget = s.forget ∧ (∀ n expected found, e ≠ .execute (.sizeMismatch n expected found)) ∧
          ∀ later, SameOutcome (runCommands later s') (runCommands later s) := by
  have hs := runCommands_kept hrun kept_empty
  obtain ⟨m, rfl, hm, hfits⟩ := hs.module hloaded
  have hresolve := hs.resolve hm held
  have hperform := perform_execute hloaded hheld
  simp only [Loaded.module] at hperform ⊢
  refine ⟨fun e he => ?_, fun hnone => ?_, fun e s' he => ?_⟩
  · rw [he] at hresolve
    obtain ⟨pointers, hrefused⟩ := Module.execute_refused hresolve
    rw [hperform, hrefused]
    exact ⟨_, rfl⟩
  · rw [hnone] at hresolve
    have hexecute : m.execute s.store held = (m.runAt s.store).map fun memory => (.ok (), m.after s.store memory) :=
      Module.execute_eq hresolve
    refine ⟨fun memory hmemory => ?_, fun fault hfault => ⟨?_, fun hkernel => hs.run_fault hm hfits hkernel hresolve hfault⟩⟩
    · rw [hperform, hexecute, hmemory]
      exact ⟨_, _, rfl⟩
    · rw [hperform, hexecute, hfault]
      rfl
  · obtain ⟨e', hrefused, rfl, hforget⟩ := of_refused hloaded hheld he
    refine ⟨hforget, fun n expected found heq => ?_, fun later => runCommands_congr later hforget⟩
    -- what is refused is what the program is refused for
    cases hrefusal : m.program.refusal? s.store held <;> rw [hrefusal] at hresolve <;> cases hresolve.symm.trans hrefused
    cases heq
    exact Program.refusal?_ne_sizeMismatch hrefusal

/-- Two inputs are added, with the storage of the second under two names. The first execution is
refused. -/
def sumRun : List Command :=
  [.construct (.input [2]), .construct (.input [2]), .construct (.binary .add 0 1), .build [.output 2] "sum",
    .compile "sum" "m" (.machine .double), .create "a" #[1, 2], .zeros "b" 2, .share "c" "b", .bind 0 "a", .bind 1 "b",
    .execute "m" ["a"], .execute "m" [], .set "b" 1 5]

/-- After it, the second input is busy while its storage is read under the other name. -/
theorem execute_answers_sumRun : ∃ refusals s s', runCommands sumRun {} = .ok (refusals, s) ∧
    perform (execute "m" 1 ["c"]) s = .ok (.error (.execute (.busy 1)), s') ∧ s'.forget = s.forget := by
  have hcheck : (match runCommands sumRun {} with
    | .ok (_, s) => (s.modules.lookup "m").any (fun loaded => loaded.module.program.refusal? s.store [1] == some (.busy 1)) &&
        ["c"].mapM s.store.find? == some [1]
    | .error _ => false) = true := by decide +kernel
  cases hrun : runCommands sumRun {} with
  | error e => simp [hrun] at hcheck
  | ok x =>
    obtain ⟨refusals, s⟩ := x
    simp only [hrun, Bool.and_eq_true, beq_iff_eq, Option.any_eq_true] at hcheck
    obtain ⟨⟨loaded, hloaded, hrefusal⟩, hheld⟩ := hcheck
    obtain ⟨hrefused, -, hleft⟩ := execute_answers hrun hloaded hheld
    obtain ⟨s', hs'⟩ := hrefused _ hrefusal
    exact ⟨refusals, s, s', rfl, hs', (hleft _ _ hs').1⟩

/-- The elements of a sum of five times `2 ^ 61` are added up column by column. -/
def overlargeRun : List Command :=
  [.construct (.input [5, 1]), .construct (.full [1, 2305843009213693952] 0), .construct (.binary .add 0 1),
    .construct (.reshape 2 [5, 2, 1152921504606846976]), .construct (.permute 3 [1, 2, 0]), .construct (.sumAll 4),
    .build [.output 5] "p", .compile "p" "m" (.machine .double), .zeros "t" 5, .bind 0 "t"]

/-- The only leaf is bound and nobody reads it, but the offset of the fifth element does not fit
a signed word. -/
theorem execute_overlarge : ∃ refusals s loaded, runCommands overlargeRun {} = .ok (refusals, s) ∧
    s.modules.lookup "m" = some loaded ∧ loaded.module.program.refusal? s.store [] = none ∧
    perform (execute "m" 1 []) s = .error .overflow := by
  have hcheck : (match runCommands overlargeRun {} with
    | .ok (_, s) => (s.modules.lookup "m").any (fun loaded => loaded.module.program.refusal? s.store [] == none) &&
        (match perform (execute "m" 1 []) s with
        | .error e => e == .overflow
        | .ok _ => false)
    | .error _ => false) = true := by decide +kernel
  cases hrun : runCommands overlargeRun {} with
  | error e => simp [hrun] at hcheck
  | ok x =>
    obtain ⟨refusals, s⟩ := x
    simp only [hrun, Bool.and_eq_true, beq_iff_eq, Option.any_eq_true] at hcheck
    obtain ⟨⟨loaded, hloaded, hrefusal⟩, hfault⟩ := hcheck
    cases hperform : perform (execute "m" 1 []) s with
    | ok x => simp [hperform] at hfault
    | error e =>
      rw [hperform] at hfault
      exact ⟨refusals, s, loaded, rfl, hloaded, hrefusal, hperform.trans (congrArg Except.error (beq_iff_eq.1 hfault))⟩

end Session

end TensorLoom
