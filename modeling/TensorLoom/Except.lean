/-
# Computations that can fail

When a chain of fallible computations succeeds, and what a list of them answers.
-/

namespace TensorLoom

section
variable {ε β γ : Type}

theorem bind_eq_ok {r : Except ε β} {f : β → Except ε γ} {c : γ} : (r >>= f) = .ok c ↔ ∃ b, r = .ok b ∧ f b = .ok c := by
  cases r <;> simp [bind, Except.bind]

theorem exists_eq_ok {r : Except ε β} (h : r.isOk = true) : ∃ b, r = .ok b := by
  cases r with
  | ok b => exact ⟨b, rfl⟩
  | error e => cases h

/-! ## Checks -/

section
variable {check : β → Except ε Unit} {xs : List β}

theorem forM_cons (x : β) (xs : List β) : (x :: xs).forM check = check x >>= fun _ => xs.forM check := rfl

theorem forM_eq_ok : xs.forM check = .ok () ↔ ∀ x ∈ xs, check x = .ok () := by
  induction xs with
  | nil => simp [List.forM, pure, Except.pure]
  | cons x xs ih =>
    rw [forM_cons, bind_eq_ok, List.forall_mem_cons, ih]
    exact ⟨fun ⟨_, hx, hxs⟩ => ⟨hx, hxs⟩, fun ⟨hx, hxs⟩ => ⟨(), hx, hxs⟩⟩

/-- What a check answers for a list is what it answers for some member. -/
theorem forM_ok_or_error (check : β → Except ε Unit) (xs : List β) :
    xs.forM check = .ok () ∨ ∃ x ∈ xs, ∃ e, check x = .error e ∧ xs.forM check = .error e := by
  induction xs with
  | nil => exact .inl rfl
  | cons x xs ih =>
    rw [forM_cons]
    cases hx : check x with
    | error e => exact .inr ⟨x, List.mem_cons_self, e, hx, rfl⟩
    | ok =>
      rcases ih with hxs | ⟨y, hy, e, he, hxs⟩
      · exact .inl hxs
      · exact .inr ⟨y, List.mem_cons_of_mem x hy, e, he, hxs⟩

end

/-! ## Lists of answers -/

section
variable {f : β → Except ε γ} {xs : List β} {ys : List γ}

theorem mapM_eq_ok : xs.mapM f = .ok ys ↔ xs.map f = ys.map .ok := by
  induction xs generalizing ys with
  | nil => simp [pure, Except.pure, eq_comm]
  | cons x xs ih =>
    rw [List.mapM_cons, bind_eq_ok]
    constructor
    · rintro ⟨y, hy, hbind⟩
      obtain ⟨zs, hzs, hpure⟩ := bind_eq_ok.1 hbind
      obtain rfl := Except.ok.inj hpure
      rw [List.map_cons, List.map_cons, hy, ih.1 hzs]
    · intro h
      cases ys with
      | nil => cases h
      | cons y ys =>
        obtain ⟨hy, hys⟩ := List.cons_eq_cons.1 h
        exact ⟨y, hy, bind_eq_ok.2 ⟨ys, ih.2 hys, rfl⟩⟩

theorem length_of_mapM (h : xs.mapM f = .ok ys) : ys.length = xs.length := by
  have hlength := congrArg List.length (mapM_eq_ok.1 h)
  rw [List.length_map, List.length_map] at hlength
  exact hlength.symm

/-- The answer at the position of a request. -/
theorem getElem?_of_mapM (h : xs.mapM f = .ok ys) {i : Nat} {x : β} (hx : xs[i]? = some x) :
    ∃ y, ys[i]? = some y ∧ f x = .ok y := by
  have hi := congrArg (fun zs : List (Except ε γ) => zs[i]?) (mapM_eq_ok.1 h)
  simp only [List.getElem?_map, hx, Option.map_some] at hi
  obtain ⟨y, hy, hfx⟩ := Option.map_eq_some_iff.1 hi.symm
  exact ⟨y, hy, hfx.symm⟩

theorem exists_mapM_eq_ok (h : ∀ x ∈ xs, ∃ y, f x = .ok y) : ∃ ys, xs.mapM f = .ok ys := by
  induction xs with
  | nil => exact ⟨[], rfl⟩
  | cons x xs ih =>
    obtain ⟨⟨y, hy⟩, hxs⟩ := List.forall_mem_cons.1 h
    obtain ⟨ys, hys⟩ := ih hxs
    exact ⟨y :: ys, by rw [List.mapM_cons, hy, hys]; rfl⟩

theorem mapM_ok_or_error (f : β → Except ε γ) (xs : List β) :
    (∃ ys, xs.mapM f = .ok ys) ∨ ∃ x ∈ xs, ∃ e, f x = .error e ∧ xs.mapM f = .error e := by
  induction xs with
  | nil => exact .inl ⟨[], rfl⟩
  | cons x xs ih =>
    rw [List.mapM_cons]
    cases hx : f x with
    | error e => exact .inr ⟨x, List.mem_cons_self, e, hx, rfl⟩
    | ok y =>
      rcases ih with ⟨ys, hys⟩ | ⟨z, hz, e, he, hxs⟩
      · exact .inl ⟨y :: ys, by rw [hys]; rfl⟩
      · exact .inr ⟨z, List.mem_cons_of_mem x hz, e, he, by rw [hxs]; rfl⟩

end

end

end TensorLoom
