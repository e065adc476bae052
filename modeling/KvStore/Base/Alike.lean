/-
Two runs of one program.

`RunsAlike R x s s'` says that `x` does the same from `s` and from `s'`: both runs return one
value and end in states related by `R`, or both end in the same fault.  The rules follow the
shape of a program.  A statement that looks at what `R` leaves open is alike only for a reason
of its own, and the reason is often a fact about one of the two runs; so the rules for
sequences and loops hand on what the first run did.
-/
import KvStore.Base.ReadOnly

namespace KvStore

/-- Two outcomes with the same value or the same fault, and related states. -/
def Alike {σ α : Type} (R : σ → σ → Prop) :
    Except Fault (α × σ) → Except Fault (α × σ) → Prop
  | .ok (a, s), .ok (a', s') => a = a' ∧ R s s'
  | .error e, .error e' => e = e'
  | _, _ => False

/-- From these two states the program does the same, up to `R`. -/
def RunsAlike {σ α : Type} (R : σ → σ → Prop) (x : Prog σ α) (s s' : σ) : Prop :=
  Alike R (x.run s) (x.run s')

section Outcomes

variable {σ α : Type} {R : σ → σ → Prop} {x : Prog σ α} {s s' t t' : σ} {a a' : α}

theorem RunsAlike.of_ok (h : x.run s = .ok (a, t)) (h' : x.run s' = .ok (a, t')) (hR : R t t') :
    RunsAlike R x s s' := by
  unfold RunsAlike
  rw [h, h']
  exact ⟨rfl, hR⟩

theorem RunsAlike.of_error {e : Fault} (h : x.run s = .error e) (h' : x.run s' = .error e) :
    RunsAlike R x s s' := by
  unfold RunsAlike
  rw [h, h']
  rfl

/-- When the first run returns, so does the second, with the same value. -/
theorem RunsAlike.ok (hx : RunsAlike R x s s') (h : x.run s = .ok (a, t)) :
    ∃ t', x.run s' = .ok (a, t') ∧ R t t' := by
  unfold RunsAlike at hx
  rw [h] at hx
  cases h' : x.run s' with
  | error e =>
      rw [h'] at hx
      exact hx.elim
  | ok p =>
      obtain ⟨b, t'⟩ := p
      rw [h'] at hx
      obtain ⟨rfl, hR⟩ := hx
      exact ⟨t', rfl, hR⟩

/-- When the first run faults, so does the second. -/
theorem RunsAlike.error {e : Fault} (hx : RunsAlike R x s s') (h : x.run s = .error e) :
    x.run s' = .error e := by
  unfold RunsAlike at hx
  rw [h] at hx
  cases h' : x.run s' with
  | error e' =>
      rw [h'] at hx
      rw [show e = e' from hx]
  | ok p =>
      rw [h'] at hx
      exact hx.elim

/-- Both states are those of runs that come to the same program. -/
theorem RunsAlike.congr {β : Type} {y : Prog σ β} {x' : Prog σ β} {u u' : σ}
    (h : y.run s = x'.run u) (h' : y.run s' = x'.run u') (hx : RunsAlike R x' u u') :
    RunsAlike R y s s' := by
  unfold RunsAlike
  rw [h, h']
  exact hx

end Outcomes

namespace RunsAlike

section Rules

variable {σ α β : Type} {R : σ → σ → Prop} {x y : Prog σ α} {f : α → Prog σ β} {s s' : σ}

/-- From one state there is only one run. -/
theorem refl (hrefl : ∀ s, R s s) (x : Prog σ α) (s : σ) : RunsAlike R x s s := by
  cases h : x.run s with
  | error e => exact .of_error h h
  | ok p => exact .of_ok h h (hrefl p.2)

theorem pure (a : α) (hR : R s s') : RunsAlike R (Pure.pure a) s s' := .of_ok rfl rfl hR

theorem modify {g : σ → σ} (hR : R (g s) (g s')) :
    RunsAlike R (modify g : Prog σ PUnit) s s' := .of_ok rfl rfl hR

theorem liftE (r : Except Fault α) (hR : R s s') : RunsAlike R (KvStore.liftE r) s s' := by
  cases r with
  | error e => exact .of_error rfl rfl
  | ok a => exact .of_ok rfl rfl hR

/-- After a first part that is alike the rest starts from related states. -/
theorem seq (hx : RunsAlike R x s s')
    (hf : ∀ a t t', x.run s = .ok (a, t) → R t t' → RunsAlike R (f a) t t') :
    RunsAlike R (x >>= f) s s' := by
  cases h : x.run s with
  | error e => exact .of_error (run_bind_error h) (run_bind_error (hx.error h))
  | ok p =>
      obtain ⟨a, t⟩ := p
      obtain ⟨t', h', hR⟩ := hx.ok h
      exact .congr (run_bind_ok h) (run_bind_ok h') (hf a t t' h hR)

/-- The same when the rest does not depend on what the first run did. -/
theorem then_ (hx : RunsAlike R x s s') (hf : ∀ a t t', R t t' → RunsAlike R (f a) t t') :
    RunsAlike R (x >>= f) s s' :=
  hx.seq fun a t t' _ hR => hf a t t' hR

/-- The same when it is known what the first run does. -/
theorem seq_of {a : α} {t : σ} (hx : RunsAlike R x s s') (hrun : x.run s = .ok (a, t))
    (hf : ∀ t', R t t' → RunsAlike R (f a) t t') : RunsAlike R (x >>= f) s s' := by
  refine hx.seq fun b u u' h hR => ?_
  rw [hrun] at h
  cases h
  exact hf u' hR

/-- The same when the first part only reads. -/
theorem read (hread : ReadOnly x) (hx : RunsAlike R x s s')
    (hf : ∀ a t', R s t' → RunsAlike R (f a) s t') : RunsAlike R (x >>= f) s s' := by
  refine hx.seq fun a t t' h hR => ?_
  rw [hread s a t h] at hR ⊢
  exact hf a t' hR

/-- A program that goes on with the parts of its state the two have in common. -/
theorem get {f : σ → Prog σ β} (hsame : f s' = f s) (hf : RunsAlike R (f s) s s') :
    RunsAlike R (MonadState.get >>= f) s s' := by
  refine .congr (run_bind_ok (run_get s)) ?_ hf
  rw [run_bind_ok (run_get s'), hsame]

theorem ite {c : Prop} [Decidable c] (hx : c → RunsAlike R x s s') (hy : ¬ c → RunsAlike R y s s') :
    RunsAlike R (if c then x else y) s s' := by
  by_cases hc : c
  · rw [if_pos hc]
    exact hx hc
  · rw [if_neg hc]
    exact hy hc

theorem whenever {c : Prop} [Decidable c] {x : Prog σ Unit} (hR : R s s')
    (hx : c → RunsAlike R x s s') : RunsAlike R (KvStore.whenever c x) s s' :=
  .ite hx fun _ => .pure () hR

theorem map (g : α → β) (hx : RunsAlike R x s s') : RunsAlike R (g <$> x) s s' := by
  rw [map_eq_pure_bind]
  exact hx.then_ fun a _ _ hR => .pure (g a) hR

/-- A loop whose step is alike where the first run's invariant holds. -/
theorem loop {step : α → Prog σ (α ⊕ β)} {I : α → σ → Prop}
    (hstep : ∀ a s s', I a s → R s s' → RunsAlike R (step a) s s')
    (hinv : ∀ a s a' t, I a s → (step a).run s = .ok (.inl a', t) → I a' t) :
    ∀ (fuel : Nat) (a : α) (s s' : σ), I a s → R s s' →
      RunsAlike R (KvStore.loop step fuel a) s s' := by
  intro fuel
  induction fuel with
  | zero => exact fun a s s' _ _ => .of_error rfl rfl
  | succ fuel ih =>
      intro a s s' ha hR
      unfold KvStore.loop
      refine (hstep a s s' ha hR).seq fun r t t' hrun hR' => ?_
      cases r with
      | inl a' => exact ih a' t t' (hinv a s a' t ha hrun) hR'
      | inr b => exact .pure b hR'

/-- The same for a step that needs no invariant. -/
theorem loop_ {step : α → Prog σ (α ⊕ β)}
    (hstep : ∀ a s s', R s s' → RunsAlike R (step a) s s') (fuel : Nat) (a : α) (hR : R s s') :
    RunsAlike R (KvStore.loop step fuel a) s s' :=
  loop (I := fun _ _ => True) (fun a s s' _ => hstep a s s') (fun _ _ _ _ _ _ => trivial)
    fuel a s s' trivial hR

end Rules

end RunsAlike

end KvStore
