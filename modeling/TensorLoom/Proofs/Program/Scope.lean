import TensorLoom.Proofs.Machine.Walk
import TensorLoom.Proofs.Program.Tables
/-
# Scoping of emitted code

While a body is emitted, the values that new code may use are those of the loops around
it and those of the straight code since the last loop header or loop end. A `Site` names
them. Code that keeps to its site passes the verifier (`Site.AdmitsAll.checks`), and so do
loops around such code (`Checks.nest`).
-/

namespace TensorLoom

/-- A place in a body that straight code is appended to: where that code starts, and which
earlier values are in scope there. -/
structure Site where
  base : Nat
  opened : List Nat

namespace Site

/-- The place behind `n` instructions whose values are all in scope. -/
def after (n : Nat) : Site := ⟨n, List.range n⟩

/-- The value is in scope and of the kind. -/
def Live (site : Site) (code : List Instr) (v : Nat) (kind : ValueKind) : Prop :=
  (v ∈ site.opened ∨ site.base ≤ v) ∧ (code[v]?).bind Instr.resultKind = some kind

theorem Live.lt {site : Site} {code : List Instr} {v : Nat} {kind : ValueKind} (h : site.Live code v kind) :
    v < code.length := by
  refine Nat.lt_of_not_le fun hle => ?_
  have hkind := h.2
  rw [List.getElem?_eq_none hle] at hkind
  cases hkind

theorem Live.append {site : Site} {code : List Instr} {v : Nat} {kind : ValueKind} (h : site.Live code v kind)
    (new : List Instr) : site.Live (code ++ new) v kind := by
  refine ⟨h.1, ?_⟩
  rw [List.getElem?_append_left h.lt]
  exact h.2

/-- The value of the last instruction is in scope. -/
theorem live_last {site : Site} {code : List Instr} (h : site.base ≤ code.length) {i : Instr} {kind : ValueKind}
    (hi : i.resultKind = some kind) : site.Live (code ++ [i]) code.length kind :=
  ⟨.inr h, by simp [hi]⟩

theorem live_one {site : Site} {code : List Instr} {u : Nat} {k : ValueKind} (hu : site.Live code u k) :
    ∀ x kind, (x, kind) ∈ [(u, k)] → site.Live code x kind := by
  intro x kind hx
  cases List.mem_singleton.1 hx
  exact hu

theorem live_two {site : Site} {code : List Instr} {u v : Nat} {k k' : ValueKind} (hu : site.Live code u k)
    (hv : site.Live code v k') : ∀ x kind, (x, kind) ∈ [(u, k), (v, k')] → site.Live code x kind := by
  intro x kind hx
  rcases List.mem_pair.1 hx with h | h
  · cases h
    exact hu
  · cases h
    exact hv

/-- The instruction may come next: it defines a value, and uses values in scope and inputs
that exist. -/
structure Admits (site : Site) (inputs : Nat) (code : List Instr) (i : Instr) : Prop where
  plain : i.Plain
  defines : i.resultKind.isSome
  operands : ∀ v kind, (v, kind) ∈ i.operands → site.Live code v kind
  input : ∀ n offset, i = .load n offset → n < inputs

/-- The instructions may come next, one after the other. -/
def AdmitsAll (site : Site) (inputs : Nat) : (code new : List Instr) → Prop
  | _, [] => True
  | code, i :: new => site.Admits inputs code i ∧ AdmitsAll site inputs (code ++ [i]) new

theorem AdmitsAll.append {site : Site} {inputs : Nat} {code a b : List Instr} (ha : site.AdmitsAll inputs code a)
    (hb : site.AdmitsAll inputs (code ++ a) b) : site.AdmitsAll inputs code (a ++ b) := by
  induction a generalizing code with
  | nil => simpa using hb
  | cons i a ih => exact ⟨ha.1, ih ha.2 (by simpa using hb)⟩

theorem AdmitsAll.mono {site : Site} {m n : Nat} (hmn : m ≤ n) {code new : List Instr} (h : site.AdmitsAll m code new) :
    site.AdmitsAll n code new := by
  induction new generalizing code with
  | nil => trivial
  | cons i new ih =>
    obtain ⟨hi, hnew⟩ := h
    exact ⟨⟨hi.plain, hi.defines, hi.operands, fun n o e => Nat.lt_of_lt_of_le (hi.input n o e) hmn⟩, ih hnew⟩

theorem AdmitsAll.plain {site : Site} {inputs : Nat} {code new : List Instr} (h : site.AdmitsAll inputs code new) :
    ∀ i ∈ new, i.Plain := by
  induction new generalizing code with
  | nil => simp
  | cons i new ih => exact List.forall_mem_cons.2 ⟨h.1.plain, ih h.2⟩

theorem AdmitsAll.defines {site : Site} {inputs : Nat} {code new : List Instr} (h : site.AdmitsAll inputs code new) :
    ∀ i ∈ new, i.resultKind.isSome := by
  induction new generalizing code with
  | nil => simp
  | cons i new ih => exact List.forall_mem_cons.2 ⟨h.1.defines, ih h.2⟩

/-- The code grows by instructions that may come next. -/
def Grows (site : Site) (inputs : Nat) (code code' : List Instr) : Prop :=
  ∃ new, code' = code ++ new ∧ site.AdmitsAll inputs code new

namespace Grows

variable {site : Site} {inputs : Nat} {code code' code'' : List Instr}

theorem refl (site : Site) (inputs : Nat) (code : List Instr) : site.Grows inputs code code :=
  ⟨[], by simp, trivial⟩

theorem trans (h : site.Grows inputs code code') (h' : site.Grows inputs code' code'') :
    site.Grows inputs code code'' := by
  obtain ⟨a, rfl, ha⟩ := h
  obtain ⟨b, rfl, hb⟩ := h'
  exact ⟨a ++ b, by simp, ha.append hb⟩

theorem push {i : Instr} (h : site.Admits inputs code i) : site.Grows inputs code (code ++ [i]) :=
  ⟨[i], rfl, h, trivial⟩

theorem mono {n : Nat} (hn : inputs ≤ n) (h : site.Grows inputs code code') : site.Grows n code code' := by
  obtain ⟨new, rfl, hnew⟩ := h
  exact ⟨new, rfl, hnew.mono hn⟩

theorem length_le (h : site.Grows inputs code code') : code.length ≤ code'.length := by
  obtain ⟨new, rfl, -⟩ := h
  simp

theorem live (h : site.Grows inputs code code') {v : Nat} {kind : ValueKind} (hv : site.Live code v kind) :
    site.Live code' v kind := by
  obtain ⟨new, rfl, -⟩ := h
  exact hv.append new

end Grows

/-- The scopes show every value that the site has in scope before `pos`. -/
def Shown (site : Site) (pos : Nat) (scopes : Scopes) : Prop :=
  ∀ v, v ∈ site.opened ∨ site.base ≤ v → v < pos → scopes.Visible v

end Site

/-! ## Verifying pieces of code -/

/-- The verifier passes over the code from `pos` on and reaches the other scopes. -/
def Checks (f : Nat) (fn : Function) (pos : Nat) (code : List Instr) (scopes scopes' : Scopes) : Prop :=
  ∀ rest, checkFrom f fn pos (code ++ rest) scopes = checkFrom f fn (pos + code.length) rest scopes'

namespace Checks

variable {f : Nat} {fn : Function} {pos : Nat} {scopes : Scopes}

theorem nil : Checks f fn pos [] scopes scopes := fun _ => rfl

theorem append {a b : List Instr} {scopes' scopes'' : Scopes} (ha : Checks f fn pos a scopes scopes')
    (hb : Checks f fn (pos + a.length) b scopes' scopes'') : Checks f fn pos (a ++ b) scopes scopes'' := by
  intro rest
  rw [List.append_assoc, ha, hb, List.length_append, Nat.add_assoc]

theorem one {i : Instr} {scopes' : Scopes} (h : checkInstr f fn pos i scopes = .ok scopes') :
    Checks f fn pos [i] scopes scopes' := by
  intro rest
  rw [List.singleton_append, checkFrom, h]
  rfl

/-- A body that checks from no scopes to balanced ones is accepted. -/
theorem verifyBody {scopes' : Scopes} (h : Checks f fn 0 fn.code {} scopes') (hout : scopes'.outer = []) :
    verifyBody f fn = .ok () := by
  have := h []
  rw [List.append_nil] at this
  rw [verifyBody_eq, this, checkFrom, if_pos hout]

end Checks

section
variable {f : Nat} {fn : Function} {scopes : Scopes}

theorem visible_define {v x : Nat} : (scopes.define v).Visible x ↔ x = v ∨ scopes.Visible x := by
  simp [Scopes.Visible, Scopes.define, or_assoc]

theorem visible_enter {v x : Nat} : (scopes.enter v).Visible x ↔ x = v ∨ scopes.Visible x := by
  simp [Scopes.Visible, Scopes.enter]

theorem checkOperand_eq_ok {pos v : Nat} {kind : ValueKind} (hlt : v < pos)
    (hkind : (fn.code[v]?).bind Instr.resultKind = some kind) (hvis : scopes.Visible v) :
    checkOperand f fn pos scopes (v, kind) = .ok () := by
  simp [checkOperand, hkind, hvis, Nat.not_le.2 hlt]

/-- Operands in scope at a site pass. -/
theorem Site.checkOperands {site : Site} {code : List Instr} (hcode : code <+: fn.code)
    (hshown : site.Shown code.length scopes) {i : Instr}
    (h : ∀ v kind, (v, kind) ∈ i.operands → site.Live code v kind) :
    i.operands.forM (checkOperand f fn code.length scopes) = .ok () := by
  obtain ⟨rest, hrest⟩ := hcode
  refine forM_eq_ok.2 fun (v, kind) ho => ?_
  have hlive := h v kind ho
  refine checkOperand_eq_ok hlive.lt ?_ (hshown v hlive.1 hlive.lt)
  rw [← hrest]
  exact (hlive.append rest).2

/-- An admitted instruction passes and its value comes into scope. -/
theorem Site.Admits.checkInstr {site : Site} {code : List Instr} {i : Instr}
    (h : site.Admits fn.inputs.length code i) (hcode : code <+: fn.code) (hshown : site.Shown code.length scopes) :
    checkInstr f fn code.length i scopes = .ok (scopes.define code.length) := by
  have hops := site.checkOperands (f := f) hcode hshown h.operands
  have hinput := h.input
  obtain ⟨hplain, hdef, -, -⟩ := h
  unfold TensorLoom.checkInstr
  rw [hops]
  cases i with
  | loop => exact hplain.elim
  | close => exact hplain.elim
  | store => simp [Instr.resultKind] at hdef
  | accumulate => simp [Instr.resultKind] at hdef
  | load n offset =>
    have : ¬ fn.inputs.length ≤ n := Nat.not_le.2 (hinput n offset rfl)
    simp [this, bind, Except.bind, pure, Except.pure]
  | int => rfl
  | arith => rfl
  | imm => rfl
  | unary => rfl
  | binary => rfl

/-- An instruction that defines nothing passes and leaves the scopes alone. -/
theorem Site.checkInstr_effect {site : Site} {code : List Instr} (hcode : code <+: fn.code)
    (hshown : site.Shown code.length scopes) {i : Instr} (hplain : i.Plain) (hdef : i.resultKind = none)
    (h : ∀ v kind, (v, kind) ∈ i.operands → site.Live code v kind) :
    checkInstr f fn code.length i scopes = .ok scopes := by
  have hops := site.checkOperands (f := f) hcode hshown h
  unfold checkInstr
  rw [hops]
  cases i with
  | loop => exact hplain.elim
  | close => exact hplain.elim
  | store => rfl
  | accumulate => rfl
  | load => cases hdef
  | int => cases hdef
  | arith => cases hdef
  | imm => cases hdef
  | unary => cases hdef
  | binary => cases hdef

/-- Straight code that keeps to its site passes; the blocks around it stay as they are. -/
theorem Site.AdmitsAll.checks {site : Site} {code new : List Instr} (h : site.AdmitsAll fn.inputs.length code new)
    (hcode : code ++ new <+: fn.code) (hshown : site.Shown code.length scopes) :
    ∃ scopes', Checks f fn code.length new scopes scopes' ∧ site.Shown (code ++ new).length scopes' ∧
      scopes'.outer = scopes.outer := by
  induction new generalizing code scopes with
  | nil => exact ⟨scopes, .nil, by simpa using hshown, rfl⟩
  | cons i new ih =>
    obtain ⟨hi, hnew⟩ := h
    have hverify := hi.checkInstr (f := f) ((List.prefix_append _ _).trans hcode) hshown
    have hshown' : site.Shown (code ++ [i]).length (scopes.define code.length) := by
      intro v hv hlt
      rw [visible_define]
      by_cases hlast : v = code.length
      · exact .inl hlast
      · refine .inr (hshown v hv ?_)
        simp only [List.length_append, List.length_singleton] at hlt
        omega
    obtain ⟨scopes', hchecks, hs, hout⟩ := ih hnew (by simpa using hcode) hshown'
    refine ⟨scopes', ?_, by simpa using hs, hout⟩
    rw [List.length_append] at hchecks
    exact (Checks.one hverify).append hchecks

end

/-! ## Loops -/

/-- The scopes inside loops whose headers start at `pos`. -/
def Scopes.enterLoops (scopes : Scopes) : (pos n : Nat) → Scopes
  | _, 0 => scopes
  | pos, n + 1 => (scopes.enter pos).enterLoops (pos + 1) n

theorem visible_enterLoops {scopes : Scopes} {pos n v : Nat} :
    (scopes.enterLoops pos n).Visible v ↔ (pos ≤ v ∧ v < pos + n) ∨ scopes.Visible v := by
  induction n generalizing scopes pos with
  | zero =>
    have : ¬ (pos ≤ v ∧ v < pos) := by omega
    simp [Scopes.enterLoops, this]
  | succ n ih =>
    rw [Scopes.enterLoops, ih, visible_enter]
    by_cases hv : v = pos
    · simp [hv]
    · have hrange : pos + 1 ≤ v ∧ v < pos + 1 + n ↔ pos ≤ v ∧ v < pos + (n + 1) := by omega
      rw [hrange]
      simp only [hv, false_or]

/-- Loops around code that passes pass, and nothing of them stays in scope. -/
theorem Checks.nest {f : Nat} {fn : Function} {pos : Nat} {scopes scopes' : Scopes} {loops : List (Nat × Nat)}
    {body : List Instr} (hrange : ∀ l ∈ loops, 0 < l.1)
    (hbody : Checks f fn (pos + loops.length) body (scopes.enterLoops pos loops.length) scopes')
    (hout : scopes'.outer = (scopes.enterLoops pos loops.length).outer) :
    ∃ scopes'', Checks f fn pos (nest loops body) scopes scopes'' ∧ scopes''.outer = scopes.outer ∧
      (loops ≠ [] → scopes'' = scopes) := by
  induction loops generalizing pos scopes with
  | nil => exact ⟨scopes', hbody, hout, by simp⟩
  | cons l loops ih =>
    obtain ⟨range, stride⟩ := l
    have hopen : checkInstr f fn pos (.loop range stride) scopes = .ok (scopes.enter pos) := by
      have : range ≠ 0 := by
        have := hrange (range, stride) (List.mem_cons_self ..)
        simp only at this
        omega
      simp [checkInstr, Instr.operands, this, bind, Except.bind, pure, Except.pure]
    simp only [List.length_cons, Scopes.enterLoops, ← Nat.add_assoc] at hbody hout
    rw [Nat.add_right_comm] at hbody
    obtain ⟨inner, hinner, hinnerOut, -⟩ := ih (fun l hl => hrange l (List.mem_cons_of_mem _ hl)) hbody hout
    -- the inner loops leave the block that the header opened, whatever it defines by now
    have hclose : ∀ p, checkInstr f fn p .close inner = .ok scopes := by
      intro p
      have : inner.leave? = some scopes := by
        rw [Scopes.leave?, hinnerOut]
        rfl
      simp [checkInstr, Instr.operands, this, bind, Except.bind, pure, Except.pure]
    exact ⟨scopes, (Checks.one hopen).append (hinner.append (Checks.one (hclose _))), rfl, fun _ => rfl⟩

/-- A body of loops around code that passes is accepted. -/
theorem verifyBody_nest {f : Nat} {loops : List (Nat × Nat)} {body : List Instr} {inputs : List Nat} {out : Nat}
    {scopes : Scopes} (hrange : ∀ l ∈ loops, 0 < l.1)
    (hbody : Checks f ⟨nest loops body, inputs, out⟩ loops.length body (({} : Scopes).enterLoops 0 loops.length) scopes)
    (hout : scopes.outer = (({} : Scopes).enterLoops 0 loops.length).outer) :
    verifyBody f ⟨nest loops body, inputs, out⟩ = .ok () := by
  have hbody' : Checks f ⟨nest loops body, inputs, out⟩ (0 + loops.length) body
      (({} : Scopes).enterLoops 0 loops.length) scopes := by
    rwa [Nat.zero_add]
  obtain ⟨scopes', hnested, hout', -⟩ := Checks.nest hrange hbody' hout
  exact hnested.verifyBody hout'

end TensorLoom
