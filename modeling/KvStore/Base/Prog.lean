/-
Programs that can go wrong, and loops that have to stop.

C code is embedded as state-passing functions that either return or leave the
defined part of the language: `Prog σ α` takes a state and gives back a value and
a state, or the `Fault` it ran into.  A while loop is `loop`, which runs a step
until it asks to stop and counts iterations down from a `Nat` fuel; running out
of fuel is a fault of its own, so a loop that is shown to return was shown to
terminate.

`loops_total` is the one rule every loop proof goes through: an invariant indexed
by a number the step lowers, which bounds how often the loop goes round.  `run_refines`
leads from single calls to runs of calls.
-/
import Mathlib.Logic.Function.Basic

namespace KvStore

/-- How a run can leave the defined part of C, or stop making progress. -/
inductive Fault
  /-- a null pointer was dereferenced -/
  | nullDeref
  /-- an address that is not allocated (any more) was accessed -/
  | badAddress
  /-- an array was indexed outside its bounds -/
  | outOfBounds
  /-- a string was read past the end of the object that holds it -/
  | overrun
  /-- a signed integer operation overflowed -/
  | overflow
  /-- a variable was read before it was assigned -/
  | uninitialised
  /-- an `assert` failed -/
  | assertFailed
  /-- a mutex was locked that was already held -/
  | deadlock
  /-- a loop ran longer than its fuel -/
  | outOfFuel
  deriving DecidableEq, Repr

/-- A program over a state: it returns a value and a state, or faults. -/
abbrev Prog (σ α : Type) := StateT σ (Except Fault) α

/-- Leave with a fault. -/
def fault {σ α : Type} (e : Fault) : Prog σ α := fun _ => .error e

/-- A computation that does not touch the state. -/
def liftE {σ α : Type} (x : Except Fault α) : Prog σ α := fun s => x.map (·, s)

/-- `if (c) x;` -/
def whenever {σ : Type} (c : Prop) [Decidable c] (x : Prog σ Unit) : Prog σ Unit :=
  if c then x else pure ()

section Runs

variable {σ α β : Type}

theorem run_bind_ok {x : Prog σ α} {f : α → Prog σ β} {s s' : σ} {a : α}
    (h : x.run s = .ok (a, s')) : (x >>= f).run s = (f a).run s' := by
  rw [StateT.run_bind, h]
  rfl

/-- Run the first statement, then the rest. -/
theorem run_bind_of {x : Prog σ α} {f : α → Prog σ β} {s s' : σ} {a : α}
    {r : Except Fault (β × σ)} (h : x.run s = .ok (a, s')) (hf : (f a).run s' = r) :
    (x >>= f).run s = r := (run_bind_ok h).trans hf

theorem run_map_of {x : Prog σ α} {s s' : σ} {a : α} (f : α → β) (h : x.run s = .ok (a, s')) :
    (f <$> x).run s = .ok (f a, s') := by
  rw [StateT.run_map, h]
  rfl

theorem run_ite_pos {c : Prop} [Decidable c] {x y : Prog σ α} {s : σ}
    {r : Except Fault (α × σ)} (h : c) (hx : x.run s = r) : (if c then x else y).run s = r := by
  rw [if_pos h]
  exact hx

theorem run_ite_neg {c : Prop} [Decidable c] {x y : Prog σ α} {s : σ}
    {r : Except Fault (α × σ)} (h : ¬ c) (hy : y.run s = r) : (if c then x else y).run s = r := by
  rw [if_neg h]
  exact hy

theorem run_bind_error {x : Prog σ α} {f : α → Prog σ β} {s : σ} {e : Fault}
    (h : x.run s = .error e) : (x >>= f).run s = .error e := by
  rw [StateT.run_bind, h]
  rfl

/-- What a computation in sequence returned, its first part had returned. -/
theorem run_bind_inv {x : Prog σ α} {f : α → Prog σ β} {s s' : σ} {b : β}
    (h : (x >>= f).run s = .ok (b, s')) :
    ∃ a s₁, x.run s = .ok (a, s₁) ∧ (f a).run s₁ = .ok (b, s') := by
  cases hx : x.run s with
  | error e => rw [run_bind_error hx] at h; cases h
  | ok p => exact ⟨p.1, p.2, rfl, by rw [run_bind_ok hx] at h; exact h⟩

/-- What comes one after the other has no fault that the parts do not have. -/
theorem bind_ne_error {x : Except Fault α} {f : α → Except Fault β} {e : Fault}
    (hx : x ≠ .error e) (hf : ∀ a, f a ≠ .error e) : (x >>= f) ≠ .error e := by
  cases x with
  | error e' =>
      intro hc
      have he : e' = e := Except.error.inj hc
      exact hx (congrArg Except.error he)
  | ok a => exact hf a

theorem run_map_error {x : Prog σ α} (f : α → β) {s : σ} {e : Fault} (h : x.run s = .error e) :
    (f <$> x).run s = .error e := by
  rw [map_eq_pure_bind]
  exact run_bind_error h

theorem run_map_inv {x : Prog σ α} {f : α → β} {s s' : σ} {b : β}
    (h : (f <$> x).run s = .ok (b, s')) : ∃ a, x.run s = .ok (a, s') ∧ f a = b := by
  rw [map_eq_pure_bind] at h
  obtain ⟨a, s₁, hx, h⟩ := run_bind_inv h
  cases h
  exact ⟨a, hx, rfl⟩

@[simp] theorem run_pure (a : α) (s : σ) : (pure a : Prog σ α).run s = .ok (a, s) := rfl

@[simp] theorem run_get (s : σ) : (get : Prog σ σ).run s = .ok (s, s) := rfl

@[simp] theorem run_modify (f : σ → σ) (s : σ) :
    (modify f : Prog σ PUnit).run s = .ok (⟨⟩, f s) := rfl

theorem run_whenever_pos {c : Prop} [Decidable c] {x : Prog σ Unit} {s : σ}
    {r : Except Fault (Unit × σ)} (h : c) (hx : x.run s = r) : (whenever c x).run s = r :=
  run_ite_pos h hx

theorem run_whenever_neg {c : Prop} [Decidable c] {x : Prog σ Unit} {s : σ} (h : ¬ c) :
    (whenever c x).run s = .ok ((), s) :=
  run_ite_neg h rfl

@[simp] theorem run_liftE_ok (a : α) (s : σ) :
    (liftE (.ok a) : Prog σ α).run s = .ok (a, s) := rfl

theorem liftE_inv {x : Except Fault α} {s s' : σ} {a : α} (h : (liftE x).run s = .ok (a, s')) :
    x = .ok a ∧ s = s' := by
  cases x with
  | error e => cases h
  | ok b =>
      cases h
      exact ⟨rfl, rfl⟩

/-- A first part that does not touch the state. -/
theorem run_liftE_inv {x : Except Fault α} {f : α → Prog σ β} {s s' : σ} {b : β}
    (h : (liftE x >>= f).run s = .ok (b, s')) : ∃ a, x = .ok a ∧ (f a).run s = .ok (b, s') := by
  obtain ⟨a, s₁, ha, h⟩ := run_bind_inv h
  obtain ⟨rfl, rfl⟩ := liftE_inv ha
  exact ⟨a, rfl, h⟩

end Runs

/-! ### Parts of a state -/

/-- Run a program on a part of the state. -/
def zoom {σ τ α : Type} (view : σ → τ) (update : σ → τ → σ) (x : Prog τ α) : Prog σ α := fun s =>
  match x.run (view s) with
  | .ok (a, t) => .ok (a, update s t)
  | .error e => .error e

theorem zoom_run {σ τ α : Type} {view : σ → τ} {update : σ → τ → σ} {x : Prog τ α} {s : σ} {t : τ}
    {a : α} (h : x.run (view s) = .ok (a, t)) :
    (zoom view update x).run s = .ok (a, update s t) := by
  show (match x.run (view s) with | .ok (a, t) => _ | .error e => _) = _
  rw [h]

theorem zoom_error {σ τ α : Type} {view : σ → τ} {update : σ → τ → σ} {x : Prog τ α} {s : σ}
    {e : Fault} (h : x.run (view s) = .error e) : (zoom view update x).run s = .error e := by
  show (match x.run (view s) with | .ok (a, t) => _ | .error e => _) = _
  rw [h]

theorem zoom_inv {σ τ α : Type} {view : σ → τ} {update : σ → τ → σ} {x : Prog τ α} {s s' : σ}
    {a : α} (h : (zoom view update x).run s = .ok (a, s')) :
    ∃ t, x.run (view s) = .ok (a, t) ∧ s' = update s t := by
  cases hx : x.run (view s) with
  | error e =>
      rw [zoom_error hx] at h
      cases h
  | ok p =>
      rw [zoom_run hx] at h
      cases h
      exact ⟨p.2, rfl, rfl⟩

/-! ### What a program returns -/

/-- The program returns this value. -/
def Gives {σ α : Type} (x : Prog σ α) (s : σ) (a : α) : Prop := ∃ s', x.run s = .ok (a, s')

section Gives

variable {σ τ α β : Type} {s : σ}

theorem Gives.zoom {view : σ → τ} {update : σ → τ → σ} {x : Prog τ α} {a : α} :
    Gives (KvStore.zoom view update x) s a ↔ Gives x (view s) a := by
  constructor
  · rintro ⟨s', h⟩
    obtain ⟨t, ht, -⟩ := zoom_inv h
    exact ⟨t, ht⟩
  · rintro ⟨t, ht⟩
    exact ⟨_, zoom_run ht⟩

theorem Gives.map {x : Prog σ α} {f : α → β} {b : β} :
    Gives (f <$> x) s b ↔ ∃ a, Gives x s a ∧ f a = b := by
  constructor
  · rintro ⟨s', h⟩
    obtain ⟨a, ha, hb⟩ := run_map_inv h
    exact ⟨a, ⟨s', ha⟩, hb⟩
  · rintro ⟨a, ⟨s', ha⟩, rfl⟩
    exact ⟨s', run_map_of f ha⟩

theorem Gives.unique {x : Prog σ α} {a b : α} (ha : Gives x s a) (hb : Gives x s b) : a = b := by
  obtain ⟨s₁, h₁⟩ := ha
  obtain ⟨s₂, h₂⟩ := hb
  rw [h₁] at h₂
  cases h₂
  rfl

end Gives

/-! ### Loops

One iteration of a while loop, as a function of the variables the loop assigns:
`inl` carries their values into the next iteration, `inr` leaves the loop.
-/

/-- Run `step` until it leaves the loop, for at most `fuel` iterations. -/
def loop {σ α β : Type} (step : α → Prog σ (α ⊕ β)) : Nat → α → Prog σ β
  | 0, _ => fault .outOfFuel
  | fuel + 1, a => do
      match ← step a with
      | .inl a' => loop step fuel a'
      | .inr b => pure b

section Loops

variable {σ α β : Type} {step : α → Prog σ (α ⊕ β)}

theorem loop_inl {fuel : Nat} {a a' : α} {s s' : σ}
    (h : (step a).run s = .ok (.inl a', s')) :
    (loop step (fuel + 1) a).run s = (loop step fuel a').run s' := by
  rw [loop, run_bind_ok h]

theorem loop_inr {fuel : Nat} {a : α} {b : β} {s s' : σ}
    (h : (step a).run s = .ok (.inr b, s')) :
    (loop step (fuel + 1) a).run s = .ok (b, s') := by
  unfold loop
  rw [run_bind_ok h]
  rfl

/-- A loop returns what another returned whose steps it takes. -/
theorem loop_mono {step' : α → Prog σ (α ⊕ β)}
    (hstep : ∀ a s r, (step a).run s = .ok r → (step' a).run s = .ok r) :
    ∀ (fuel : Nat) (a : α) (s : σ) (r : β × σ), (loop step fuel a).run s = .ok r →
      (loop step' fuel a).run s = .ok r := by
  intro fuel
  induction fuel with
  | zero => intro a s r h; cases h
  | succ fuel ih =>
      intro a s r h
      rw [loop] at h
      obtain ⟨x, s₁, hx, hrest⟩ := run_bind_inv h
      have hx' := hstep a s _ hx
      cases x with
      | inl a' =>
          rw [loop_inl hx']
          exact ih a' s₁ r hrest
      | inr b =>
          rw [loop_inr hx']
          exact hrest

/--
The loop entered at `a` goes round with the values `as`, one after the other, and is then
left with `b`.
-/
inductive Loops (step : α → Prog σ (α ⊕ β)) : α → σ → List α → β → σ → Prop
  | leave {a : α} {b : β} {s s' : σ} (h : (step a).run s = .ok (.inr b, s')) : Loops step a s [] b s'
  | again {a a' : α} {as : List α} {b : β} {s s₁ s' : σ} (h : (step a).run s = .ok (.inl a', s₁))
      (hrest : Loops step a' s₁ as b s') : Loops step a s (a' :: as) b s'

theorem Loops.run {a : α} {as : List α} {b : β} {s s' : σ} {fuel : Nat}
    (h : Loops step a s as b s') (hfuel : as.length < fuel) :
    (loop step fuel a).run s = .ok (b, s') := by
  induction h generalizing fuel with
  | leave h =>
      obtain ⟨fuel, rfl⟩ : ∃ m, fuel = m + 1 := ⟨fuel - 1, by omega⟩
      exact loop_inr h
  | again h _ ih =>
      rw [List.length_cons] at hfuel
      obtain ⟨fuel, rfl⟩ : ∃ m, fuel = m + 1 := ⟨fuel - 1, by omega⟩
      rw [loop_inl h]
      exact ih (by omega)

/--
**A loop whose step lowers a number is left**, after no more rounds than the number went
down.  `Inv n` is the invariant at a point where at most `n` more iterations continue; the
step either leaves the loop with the postcondition or re-establishes the invariant at a
smaller number.
-/
theorem loops_total {Inv : Nat → α → σ → Prop} {Post : Nat → β → σ → Prop}
    (hstep : ∀ n a s, Inv n a s →
      (∃ b s', (step a).run s = .ok (.inr b, s') ∧ Post n b s') ∨
      (∃ a' s' m, (step a).run s = .ok (.inl a', s') ∧ m < n ∧ Inv m a' s')) :
    ∀ (n : Nat) (a : α) (s : σ), Inv n a s →
      ∃ as m b s', Loops step a s as b s' ∧ as.length + m ≤ n ∧ Post m b s' := by
  intro n
  induction n using Nat.strongRecOn with
  | ind n ih =>
      intro a s hinv
      rcases hstep n a s hinv with ⟨b, s', hrun, hpost⟩ | ⟨a', s₁, m, hrun, hm, hinv₁⟩
      · exact ⟨[], n, b, s', .leave hrun, by simp, hpost⟩
      · obtain ⟨as, m', b, s', hloops, has, hpost⟩ := ih m hm a' s₁ hinv₁
        exact ⟨a' :: as, m', b, s', .again hrun hloops, by rw [List.length_cons]; omega, hpost⟩

/-- The same for the loop as it is run, with enough fuel. -/
theorem loop_total {Inv : Nat → α → σ → Prop} {Post : β → σ → Prop}
    (hstep : ∀ n a s, Inv n a s →
      (∃ b s', (step a).run s = .ok (.inr b, s') ∧ Post b s') ∨
      (∃ a' s' m, (step a).run s = .ok (.inl a', s') ∧ m < n ∧ Inv m a' s')) :
    ∀ (fuel n : Nat) (a : α) (s : σ), Inv n a s → n < fuel →
      ∃ b s', (loop step fuel a).run s = .ok (b, s') ∧ Post b s' := by
  intro fuel n a s hinv hlt
  obtain ⟨as, m, b, s', hloops, has, hpost⟩ := loops_total hstep n a s hinv
  exact ⟨b, s', hloops.run (by omega), hpost⟩

def forFirstStep (n : Nat) (test : Nat → Prog σ Bool) (i : Nat) : Prog σ (Nat ⊕ Nat) := do
  if i < n then
    if ← test i then return .inr i else return .inl (i + 1)
  else return .inr i

/-- `for (i = 0; i < n; i++) if (test(i)) break;`, and the `i` after it. -/
def forFirst (n : Nat) (test : Nat → Prog σ Bool) : Prog σ Nat :=
  loop (forFirstStep n test) (n + 1) 0

/-- The loop stops at the first index that passes the test, or at the bound. -/
theorem forFirst_run {n : Nat} {test : Nat → Prog σ Bool} {p : Nat → Bool} {s : σ}
    (htest : ∀ i, i < n → (test i).run s = .ok (p i, s)) :
    ∃ i, (forFirst n test).run s = .ok (i, s) ∧ i ≤ n ∧ (∀ j, j < i → p j = false) ∧
      (i < n → p i = true) := by
  have hstep : ∀ m i s', (s' = s ∧ m = n - i ∧ i ≤ n ∧ ∀ j, j < i → p j = false) →
      (∃ k s'', (forFirstStep n test i).run s' = .ok (.inr k, s'') ∧
        (s'' = s ∧ k ≤ n ∧ (∀ j, j < k → p j = false) ∧ (k < n → p k = true))) ∨
      (∃ k s'' m', (forFirstStep n test i).run s' = .ok (.inl k, s'') ∧ m' < m ∧
        (s'' = s ∧ m' = n - k ∧ k ≤ n ∧ ∀ j, j < k → p j = false)) := by
    rintro m i s' ⟨rfl, rfl, hle, hbefore⟩
    by_cases hi : i < n
    · by_cases hp : p i = true
      · refine Or.inl ⟨i, s', run_ite_pos hi (run_bind_of (htest i hi) ?_), rfl, hle, hbefore,
          fun _ => hp⟩
        exact run_ite_pos hp rfl
      · refine Or.inr ⟨i + 1, s', n - (i + 1), run_ite_pos hi (run_bind_of (htest i hi) ?_),
          by omega, rfl, rfl, by omega, ?_⟩
        · exact run_ite_neg hp rfl
        · intro j hj
          rcases Nat.lt_succ_iff_lt_or_eq.mp hj with hj | rfl
          · exact hbefore j hj
          · simpa using hp
    · exact Or.inl ⟨i, s', run_ite_neg hi rfl, rfl, hle, hbefore, fun hc => absurd hc hi⟩
  obtain ⟨i, s', hrun, rfl, hi⟩ := loop_total hstep (n + 1) n 0 s
    ⟨rfl, rfl, Nat.zero_le n, fun j hj => absurd hj (Nat.not_lt_zero j)⟩ (by omega)
  exact ⟨i, hrun, hi⟩

/-- Two programs with the same test stop at the same index. -/
theorem forFirst_same {τ : Type} {n : Nat} {test : Nat → Prog σ Bool} {test' : Nat → Prog τ Bool}
    {p : Nat → Bool} {s : σ} {t : τ} (htest : ∀ i, i < n → (test i).run s = .ok (p i, s))
    (htest' : ∀ i, i < n → (test' i).run t = .ok (p i, t)) :
    ∃ i, (forFirst n test).run s = .ok (i, s) ∧ (forFirst n test').run t = .ok (i, t) ∧
      (i < n → p i = true) := by
  obtain ⟨i, hrun, hle, hbefore, hat⟩ := forFirst_run htest
  obtain ⟨j, hrun', hle', hbefore', hat'⟩ := forFirst_run htest'
  have hij : j = i := by
    rcases Nat.lt_trichotomy j i with hlt | heq | hlt
    · have hnot := hbefore j hlt
      rw [hat' (by omega)] at hnot
      cases hnot
    · exact heq
    · have hnot := hbefore' i hlt
      rw [hat (by omega)] at hnot
      cases hnot
  subst hij
  exact ⟨j, hrun, hrun', hat⟩

end Loops

/-! ### Runs of calls -/

/-- Make the calls one after another and collect what they answer. -/
def runCalls {σ κ ρ : Type} (call : κ → Prog σ ρ) : List κ → Prog σ (List ρ)
  | [] => pure []
  | c :: rest => do
      let r ← call c
      let rs ← runCalls call rest
      pure (r :: rs)

section Calls

variable {σ κ ρ : Type} {call : κ → Prog σ ρ}

theorem runCalls_cons_ok {c : κ} {rest : List κ} {s s₁ s₂ : σ} {r : ρ} {rs : List ρ}
    (h : (call c).run s = .ok (r, s₁)) (hrest : (runCalls call rest).run s₁ = .ok (rs, s₂)) :
    (runCalls call (c :: rest)).run s = .ok (r :: rs, s₂) := by
  unfold runCalls
  rw [run_bind_ok h, run_bind_ok hrest]
  rfl

theorem runCalls_append {cs ds : List κ} {s s₁ s₂ : σ} {rs rs' : List ρ}
    (h : (runCalls call cs).run s = .ok (rs, s₁))
    (h' : (runCalls call ds).run s₁ = .ok (rs', s₂)) :
    (runCalls call (cs ++ ds)).run s = .ok (rs ++ rs', s₂) := by
  induction cs generalizing s rs with
  | nil =>
      cases h
      exact h'
  | cons c rest ih =>
      rw [runCalls] at h
      obtain ⟨r, s₀, hcall, h⟩ := run_bind_inv h
      obtain ⟨rs₀, s₃, hrest, h⟩ := run_bind_inv h
      cases h
      exact runCalls_cons_ok hcall (ih hrest)

/-- A run that returned had returned at every point. -/
theorem runCalls_append_inv {cs ds : List κ} {s s' : σ} {rs : List ρ}
    (h : (runCalls call (cs ++ ds)).run s = .ok (rs, s')) :
    ∃ rs₁ s₁ rs₂, (runCalls call cs).run s = .ok (rs₁, s₁) ∧
      (runCalls call ds).run s₁ = .ok (rs₂, s') := by
  induction cs generalizing s rs with
  | nil => exact ⟨[], s, rs, rfl, h⟩
  | cons c rest ih =>
      obtain ⟨r, s₀, hcall, h⟩ := run_bind_inv h
      obtain ⟨rs₀, s₃, hrest, h⟩ := run_bind_inv h
      cases h
      obtain ⟨rs₁, s₁, rs₂, hfirst, hsecond⟩ := ih hrest
      exact ⟨r :: rs₁, s₁, rs₂, runCalls_cons_ok hcall hfirst, hsecond⟩

/--
What every call that returns carries on, a run that returns carries on.  `P g s` is the
invariant at a point where the calls so far have led to `g`.
-/
theorem runCalls_invariant {γ : Type} {P : γ → σ → Prop} {f : γ → κ → γ} {Q : κ → Prop}
    (hcall : ∀ g s c r s', P g s → Q c → (call c).run s = .ok (r, s') → P (f g c) s') :
    ∀ (cs : List κ) (g : γ) (s : σ) (rs : List ρ) (s' : σ), P g s → (∀ c ∈ cs, Q c) →
      (runCalls call cs).run s = .ok (rs, s') → P (cs.foldl f g) s' := by
  intro cs
  induction cs with
  | nil =>
      intro g s rs s' hinv _ hrun
      cases hrun
      exact hinv
  | cons c rest ih =>
      intro g s rs s' hinv hok hrun
      rw [runCalls] at hrun
      obtain ⟨r, s₁, hfirst, hrun⟩ := run_bind_inv hrun
      obtain ⟨rs₁, s₂, hrest, hrun⟩ := run_bind_inv hrun
      cases hrun
      have hinv₁ := hcall g s c r s₁ hinv (hok c (by simp)) hfirst
      exact ih (f g c) s₁ rs₁ s' hinv₁ (fun c' hc' => hok c' (by simp [hc'])) hrest

/-- The same for an invariant of the state alone. -/
theorem runCalls_keeps {P : σ → Prop} {Q : κ → Prop}
    (hcall : ∀ s c r s', P s → Q c → (call c).run s = .ok (r, s') → P s')
    {cs : List κ} {s s' : σ} {rs : List ρ} (hs : P s) (hcs : ∀ c ∈ cs, Q c)
    (hrun : (runCalls call cs).run s = .ok (rs, s')) : P s' :=
  runCalls_invariant (P := fun (_ : Unit) s => P s) (f := fun _ _ => ())
    (fun _ => hcall) cs () s rs s' hs hcs hrun

/-- If every call returns and carries an invariant on, so does every run. -/
theorem runCalls_total {Inv : σ → Prop} {Ok : κ → Prop}
    (hcall : ∀ s c, Inv s → Ok c → ∃ r s', (call c).run s = .ok (r, s') ∧ Inv s') :
    ∀ (cs : List κ) (s : σ), Inv s → (∀ c ∈ cs, Ok c) →
      ∃ rs s', (runCalls call cs).run s = .ok (rs, s') ∧ Inv s' := by
  intro cs
  induction cs with
  | nil => intro s hinv _; exact ⟨[], s, rfl, hinv⟩
  | cons c rest ih =>
      intro s hinv hok
      obtain ⟨r, s₁, hfirst, hinv₁⟩ := hcall s c hinv (hok c (by simp))
      obtain ⟨rs, s₂, hrest, hinv₂⟩ := ih s₁ hinv₁ fun c' hc' => hok c' (by simp [hc'])
      exact ⟨r :: rs, s₂, runCalls_cons_ok hfirst hrest, hinv₂⟩

/-- The answers of an abstract machine to a list of calls, and the state it ends in. -/
def runMachine {μ : Type} (step : μ → κ → ρ × μ) : μ → List κ → List ρ × μ
  | m, [] => ([], m)
  | m, c :: rest =>
      let (r, m₁) := step m c
      let (rs, m₂) := runMachine step m₁ rest
      (r :: rs, m₂)

/--
**A refinement of single calls is a refinement of runs.**  `Sim s m` relates the
program's state to an abstract one; if every admissible call returns what the
abstract machine answers and re-establishes the relation, so does every run of
admissible calls.
-/
theorem run_refines {μ : Type} {step : μ → κ → ρ × μ} {Sim : σ → μ → Prop} {Ok : κ → Prop}
    (hcall : ∀ s m c, Sim s m → Ok c →
      ∃ s', (call c).run s = .ok ((step m c).1, s') ∧ Sim s' (step m c).2) :
    ∀ (cs : List κ) (s : σ) (m : μ), Sim s m → (∀ c ∈ cs, Ok c) →
      ∃ s', (runCalls call cs).run s = .ok ((runMachine step m cs).1, s') ∧
        Sim s' (runMachine step m cs).2 := by
  intro cs
  induction cs with
  | nil => intro s m hsim _; exact ⟨s, rfl, hsim⟩
  | cons c rest ih =>
      intro s m hsim hok
      obtain ⟨s₁, hrun, hsim₁⟩ := hcall s m c hsim (hok c (by simp))
      obtain ⟨s₂, hrest, hsim₂⟩ := ih s₁ _ hsim₁ (fun c' hc' => hok c' (by simp [hc']))
      exact ⟨s₂, runCalls_cons_ok hrun hrest, hsim₂⟩

end Calls

end KvStore
