import TensorLoom.Proofs.Program.Block
/-
# Two interpretations of the same code

An `Interpretation` says what instructions do to some state; the machine is one, and the machine
with something noted or checked along the way is another. A relation between two states
that every instruction keeps, given what the verifier knows about it, is kept by every
verified body (`Lockstep.body`).
-/

namespace TensorLoom

/-- What plain instructions, the start of a loop's turn and its end do to a state. -/
structure Interpretation (σ : Type) where
  act : Nat → Instr → σ → Except Fault σ
  enter : Nat → Nat → σ → Except Fault σ
  leave : σ → Except Fault σ

/-- The machine's own interpretation; the end of a turn does nothing. -/
def Interpretation.machine {α : Type} (A : Arith α) (w : Wiring) : Interpretation (Frame α) := ⟨TensorLoom.act A w, turn, .ok⟩

/-- Interprets the block that starts at `pos`. -/
def Block.visit {σ : Type} (r : Interpretation σ) : (pos : Nat) → Block → σ → Except Fault σ
  | _, done, s => .ok s
  | pos, plain i _ rest, s => r.act pos i s >>= rest.visit r (pos + 1)
  | pos, loop range _ _ body rest, s =>
    turns (fun k s => r.enter pos k s >>= body.visit r (pos + 1) >>= r.leave) range 0 s >>=
      rest.visit r (pos + 1 + body.flatten.length + 1)

/-- Walking flat code is interpreting its block. -/
theorem Block.walk_flatten {σ : Type} (r : Interpretation σ) (hleave : r.leave = .ok) (b : Block) {fuel : Nat}
    (hfuel : b.flatten.length ≤ fuel) (pos : Nat) (s : σ) : walk r.act r.enter fuel pos b.flatten s = b.visit r pos s := by
  induction b generalizing fuel pos s with
  | done => cases fuel <;> rfl
  | plain i hplain rest ih =>
    obtain ⟨fuel, rfl⟩ : ∃ n, fuel = n + 1 := ⟨fuel - 1, by simp only [flatten, List.length_cons] at hfuel; omega⟩
    rw [flatten, walk_plain hplain]
    simp only [flatten, List.length_cons, Nat.add_le_add_iff_right] at hfuel
    exact congrArg (r.act pos i s >>= ·) (funext fun s => ih hfuel _ s)
  | loop range stride hrange body rest ihbody ihrest =>
    obtain ⟨fuel, rfl⟩ : ∃ n, fuel = n + 1 := ⟨fuel - 1, by simp only [flatten, List.length_cons] at hfuel; omega⟩
    simp only [flatten, List.length_cons, List.length_append] at hfuel
    have hbody : ∀ s, walk r.act r.enter fuel (pos + 1) body.flatten s = body.visit r (pos + 1) s :=
      fun s => ihbody (by omega) _ s
    have hrest : ∀ s, walk r.act r.enter fuel (pos + 1 + body.flatten.length + 1) rest.flatten s =
        rest.visit r (pos + 1 + body.flatten.length + 1) s := fun s => ihrest (by omega) _ s
    have hturn : ∀ k s, (r.enter pos k s >>= body.visit r (pos + 1) >>= r.leave) = r.enter pos k s >>= body.visit r (pos + 1) := by
      intro k s
      rw [hleave]
      exact bind_pure _
    simp only [flatten, walk, splitLoop_close body.balanced, visit, hturn, hbody, hrest]

theorem runBody_flatten {α : Type} (A : Arith α) (w : Wiring) (b : Block) (s : Frame α) :
    runBody A w b.flatten s = b.visit (.machine A w) 0 s :=
  b.walk_flatten (.machine A w) rfl (Nat.le_refl _) 0 s

/-! ## Results side by side -/

/-- Both results are values that are related, or both are the same fault, one of `P`. -/
inductive Matches {σ τ : Type} (P : Fault → Prop) (R : σ → τ → Prop) : Except Fault σ → Except Fault τ → Prop
  | ok {s : σ} {t : τ} : R s t → Matches P R (.ok s) (.ok t)
  | fault {e : Fault} : P e → Matches P R (.error e) (.error e)

namespace Matches

variable {σ τ σ' τ' : Type} {P : Fault → Prop} {R R' : σ → τ → Prop} {x : Except Fault σ} {y : Except Fault τ}

theorem mono (h : Matches P R x y) (hR : ∀ {s t}, R s t → R' s t) : Matches P R' x y := by
  cases h with
  | ok hst => exact .ok (hR hst)
  | fault he => exact .fault he

theorem of_ok {s : σ} {t : τ} (h : Matches P R (.ok s) (.ok t)) : R s t := by
  cases h with
  | ok hst => exact hst

theorem eq {x y : Except Fault σ} (h : Matches P Eq x y) : x = y := by
  cases h with
  | ok hst => rw [hst]
  | fault => rfl

theorem bind {Q : σ' → τ' → Prop} {f : σ → Except Fault σ'} {g : τ → Except Fault τ'} (h : Matches P R x y)
    (hfg : ∀ s t, R s t → Matches P Q (f s) (g t)) : Matches P Q (x >>= f) (y >>= g) := by
  cases h with
  | ok hst => exact hfg _ _ hst
  | fault he => exact .fault he

theorem turns {f : Nat → σ → Except Fault σ} {g : Nat → τ → Except Fault τ}
    (h : ∀ k s t, R s t → Matches P R (f k s) (g k t)) (n k : Nat) {s : σ} {t : τ} (hst : R s t) :
    Matches P R (TensorLoom.turns f n k s) (TensorLoom.turns g n k t) := by
  induction n generalizing k s t with
  | zero => exact .ok hst
  | succ n ih => exact (h k s t hst).bind fun s t hst => ih (k + 1) hst

end Matches

/-! ## Verified code -/

/-- Two interpretations keep a relation, step by step, where instructions use what the scopes show
and inputs that exist. The relation may speak of the scopes. -/
structure Lockstep (fn : Function) (P : Fault → Prop) {σ τ : Type} (R : Scopes → σ → τ → Prop) (r : Interpretation σ)
    (q : Interpretation τ) : Prop where
  act : ∀ {pos i scopes s t}, i.Plain → fn.code[pos]? = some i →
    (∀ x kind, (x, kind) ∈ i.operands → fn.InScope scopes x kind) →
    (∀ n offset, i = .load n offset → n < fn.inputs.length) → R scopes s t →
    Matches P (R (i.defineIn pos scopes)) (r.act pos i s) (q.act pos i t)
  enter : ∀ {pos range stride k scopes s t}, fn.code[pos]? = some (.loop range stride) → R scopes s t →
    Matches P (R (scopes.enter pos)) (r.enter pos k s) (q.enter pos k t)
  leave : ∀ {scopes inner : Scopes} {s t}, inner.outer = scopes.inner :: scopes.outer → R inner s t →
    Matches P (R scopes) (r.leave s) (q.leave t)

namespace Lockstep

variable {fn : Function} {P : Fault → Prop} {σ τ : Type} {R : Scopes → σ → τ → Prop} {r : Interpretation σ} {q : Interpretation τ}

/-- Blocks keep the relation. The blocks around them are those before. -/
theorem visit (h : Lockstep fn P R r q) (c : Block) {f pos : Nat} {scopes : Scopes} {rest : List Instr}
    (before behind : List Instr) (hcode : fn.code = before ++ (c.flatten ++ behind)) (hpos : before.length = pos)
    (hverify : checkFrom f fn pos (c.flatten ++ rest) scopes = .ok ()) :
    ∃ scopes', scopes'.outer = scopes.outer ∧ checkFrom f fn (pos + c.flatten.length) rest scopes' = .ok () ∧
      ∀ {s t}, R scopes s t → Matches P (R scopes') (c.visit r pos s) (c.visit q pos t) := by
  induction c generalizing pos scopes rest before behind with
  | done => exact ⟨scopes, rfl, hverify, fun hst => .ok hst⟩
  | plain i hplain c ih =>
    have hi : fn.code[pos]? = some i := by simp [hcode, ← hpos, Block.flatten]
    obtain ⟨scopes₁, hinstr, hrest⟩ := checkFrom_cons_eq_ok_iff.1 hverify
    obtain ⟨hops, hload, rfl⟩ := (checkInstr_plain_eq_ok_iff hplain).1 hinstr
    obtain ⟨scopes', houter, hend, hvisit⟩ := ih (before ++ [i]) behind (by simp [hcode, Block.flatten]) (by simp [hpos]) hrest
    refine ⟨scopes', houter.trans i.defineIn_outer, ?_, fun {s t} hst => ?_⟩
    · rw [Block.flatten, List.length_cons, Nat.add_comm c.flatten.length, ← Nat.add_assoc]
      exact hend
    · exact (h.act hplain hi (fun x kind ho => (hops x kind ho).2) hload hst).bind fun _ _ => hvisit
  | loop range stride hrange body c ihbody ihrest =>
    have hi : fn.code[pos]? = some (.loop range stride) := by simp [hcode, ← hpos, Block.flatten]
    rw [Block.flatten, List.cons_append, List.append_assoc, List.cons_append] at hverify
    obtain ⟨scopes₁, hinstr, hinside⟩ := checkFrom_cons_eq_ok_iff.1 hverify
    obtain ⟨-, rfl⟩ := checkInstr_loop_eq_ok_iff.1 hinstr
    obtain ⟨inner, hinner, hend, hbody⟩ := ihbody (before ++ [.loop range stride]) (.close :: (c.flatten ++ behind))
      (by simp [hcode, Block.flatten]) (by simp [hpos]) hinside
    -- the body's scopes are gone behind the loop
    obtain ⟨scopes₂, hclose, hrest⟩ := checkFrom_cons_eq_ok_iff.1 hend
    have hleave := checkInstr_close_eq_ok_iff.1 hclose
    obtain rfl : scopes = scopes₂ := by
      rw [Scopes.leave?, hinner] at hleave
      exact Option.some.inj hleave
    have hpos' : (before ++ Instr.loop range stride :: (body.flatten ++ [Instr.close])).length =
        pos + 1 + body.flatten.length + 1 := by
      simp only [List.length_append, List.length_cons, List.length_nil]
      omega
    obtain ⟨scopes', houter, hend', hvisit⟩ := ihrest (before ++ .loop range stride :: (body.flatten ++ [.close])) behind
      (by simp [hcode, Block.flatten]) hpos' hrest
    refine ⟨scopes', houter, ?_, fun {s t} hst => ?_⟩
    · have hlen : pos + (Block.loop range stride hrange body c).flatten.length =
          pos + 1 + body.flatten.length + 1 + c.flatten.length := by
        simp only [Block.flatten, List.length_cons, List.length_append]
        omega
      rw [hlen]
      exact hend'
    · refine (Matches.turns (fun k s t hst => ?_) range 0 hst).bind fun _ _ => hvisit
      exact ((h.enter hi hst).bind fun _ _ => hbody).bind fun _ _ => h.leave hinner

/-- Verified bodies keep the relation. -/
theorem body (h : Lockstep fn P R r q) {f : Nat} (hverify : verifyBody f fn = .ok ()) {b : Block} (hb : b.flatten = fn.code)
    {s : σ} {t : τ} (hst : R {} s t) :
    ∃ scopes, Matches P (R scopes) (b.visit r 0 s) (b.visit q 0 t) := by
  have hcode : checkFrom f fn 0 (b.flatten ++ []) {} = .ok () := by
    rw [List.append_nil, hb, ← verifyBody_eq]
    exact hverify
  obtain ⟨scopes, -, -, hvisit⟩ := h.visit b [] [] (by simp [hb]) rfl hcode
  exact ⟨scopes, hvisit hst⟩

end Lockstep

end TensorLoom
