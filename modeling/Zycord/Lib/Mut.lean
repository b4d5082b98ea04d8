import Mathlib.Tactic.Common

/-!
# Mutable-state computations that can fail

`Mut σ ε α` models imperative code that writes a state through a pointer and returns an error:
a failed computation keeps the writes it made before it failed, so cleaning up is something
the program has to do (`orElse`), not something the monad does for it. `wp m Q E s` is the
weakest precondition with one postcondition for the returns and one for the failures; the
rules below let a proof walk through a computation one call at a time. `rejectIf` is the
pure counterpart, a check that reports an error.
-/

/-! ## Pure checks -/

/-- Report an error when a condition holds. -/
def rejectIf {ε : Type} (c : Prop) [Decidable c] (e : ε) : Except ε Unit :=
  if c then .error e else .ok ()

@[simp] theorem reject_if_eq_ok {ε : Type} {c : Prop} [Decidable c] {e : ε} {u : Unit} :
    rejectIf c e = .ok u ↔ ¬ c := by
  by_cases hc : c <;> simp [rejectIf, hc]

theorem reject_if_eq_error {ε : Type} {c : Prop} [Decidable c] {e e' : ε} :
    rejectIf c e = .error e' ↔ c ∧ e = e' := by
  by_cases hc : c <;> simp [rejectIf, hc]

theorem Except.pure_eq_ok {ε α : Type} {a b : α} : (pure a : Except ε α) = .ok b ↔ a = b := by
  simp [pure, Except.pure]

theorem Except.bind_eq_ok {ε α β : Type} {x : Except ε α} {f : α → Except ε β} {b : β} :
    (x >>= f) = .ok b ↔ ∃ a, x = .ok a ∧ f a = .ok b := by
  cases x <;> simp [bind, Except.bind]

theorem Except.bind_eq_error {ε α β : Type} {x : Except ε α} {f : α → Except ε β} {e : ε} :
    (x >>= f) = .error e ↔ x = .error e ∨ ∃ a, x = .ok a ∧ f a = .error e := by
  cases x <;> simp [bind, Except.bind]

theorem map_eq_ok {ε α β : Type*} {f : α → β} {x : Except ε α} {b : β} :
    x.map f = .ok b ↔ ∃ a, x = .ok a ∧ f a = b := by
  cases x <;> simp [Except.map]

theorem map_error_eq_ok {ε ε' α : Type*} {f : ε → ε'} {x : Except ε α} {a : α} :
    x.mapError f = .ok a ↔ x = .ok a := by
  cases x <;> simp [Except.mapError]

theorem Except.exists_of_is_some {ε α : Type*} {x : Except ε α} (h : x.toOption.isSome = true) :
    ∃ a, x = .ok a := by
  cases x with
  | ok a => exact ⟨a, rfl⟩
  | error e => cases h

theorem Except.seq_eq_ok {ε β : Type} {x : Except ε Unit} {f : Unit → Except ε β} {b : β} :
    (x >>= f) = .ok b ↔ x = .ok () ∧ f () = .ok b := by
  cases x <;> simp [bind, Except.bind]

theorem Except.foldlM_invariant {ε α β : Type} {g : β → α → Except ε β} {I : β → Prop}
    (step : ∀ b a b', I b → g b a = .ok b' → I b') {items : List α} {b b' : β} (h : I b)
    (hrun : items.foldlM g b = .ok b') : I b' := by
  induction items generalizing b with
  | nil =>
    obtain rfl : b = b' := by simpa [pure, Except.pure] using hrun
    exact h
  | cons a rest ih =>
    rw [List.foldlM_cons, Except.bind_eq_ok] at hrun
    obtain ⟨mid, hmid, hrest⟩ := hrun
    exact ih (step b a mid h hmid) hrest

/-- Check every item of a list, stopping at the first error. -/
def checkEach {ε α : Type} : List α → (α → Except ε Unit) → Except ε Unit
  | [], _ => .ok ()
  | x :: rest, f => do
      f x
      checkEach rest f

theorem check_each_eq_ok {ε α : Type} {f : α → Except ε Unit} {xs : List α} {u : Unit} :
    checkEach xs f = .ok u ↔ ∀ x ∈ xs, f x = .ok () := by
  induction xs with
  | nil => simp [checkEach]
  | cons x rest ih => simp [checkEach, Except.seq_eq_ok, ih]

/-! ## The monad -/

/-- A computation over a mutable state that returns a value or fails. -/
def Mut (σ ε α : Type) : Type := σ → Except ε α × σ

namespace Mut

variable {σ ε α β : Type}

/-- An error keeps the state it was raised in. -/
instance : Monad (Mut σ ε) where
  pure a := fun s => (.ok a, s)
  bind m f := fun s =>
    match m s with
    | (.ok a, s') => f a s'
    | (.error e, s') => (.error e, s')

/-- Stop with an error, keeping the state. -/
def fail (e : ε) : Mut σ ε α := fun s => (.error e, s)

/-- The current state. -/
def get : Mut σ ε σ := fun s => (.ok s, s)

/-- Change the state. -/
def modify (f : σ → σ) : Mut σ ε Unit := fun s => (.ok (), f s)

/-- Stop with an error unless a condition holds. -/
def require (c : Prop) [Decidable c] (e : ε) : Mut σ ε Unit := if c then pure () else fail e

/-- Run a computation and, when it fails, clean up before passing the error on. -/
def orElse (m : Mut σ ε α) (cleanup : σ → σ) : Mut σ ε α := fun s =>
  match m s with
  | (.ok a, s') => (.ok a, s')
  | (.error e, s') => (.error e, cleanup s')

/-- A result that may be missing, run as a computation that fails when it is. -/
def ofOption (r : Option α) (e : ε) : Mut σ ε α :=
  match r with
  | some a => pure a
  | none => fail e

/-- Started in `s`, the computation returns with `Q` or fails with `E`. -/
def wp (m : Mut σ ε α) (Q : α → σ → Prop) (E : ε → σ → Prop) (s : σ) : Prop :=
  match m s with
  | (.ok a, s') => Q a s'
  | (.error e, s') => E e s'

variable {m : Mut σ ε α} {f : α → Mut σ ε β} {s s' : σ} {e : ε}

section Rules

variable {Q R : α → σ → Prop} {P : β → σ → Prop} {E F : ε → σ → Prop}

@[simp] theorem wp_pure (a : α) : wp (pure a : Mut σ ε α) Q E s ↔ Q a s := Iff.rfl

@[simp] theorem wp_fail : wp (fail e : Mut σ ε α) Q E s ↔ E e s := Iff.rfl

@[simp] theorem wp_get {Q : σ → σ → Prop} : wp (get : Mut σ ε σ) Q E s ↔ Q s s := Iff.rfl

@[simp] theorem wp_bind : wp (m >>= f) P E s ↔ wp m (fun a s' => wp (f a) P E s') E s := by
  simp only [wp, Bind.bind]
  rcases m s with ⟨_ | _, _⟩ <;> rfl

@[simp] theorem wp_require {Q : Unit → σ → Prop} (c : Prop) [Decidable c] :
    wp (require c e : Mut σ ε Unit) Q E s ↔ (c → Q () s) ∧ (¬ c → E e s) := by
  by_cases hc : c <;> simp [require, hc]

@[simp] theorem wp_of_option {r : Option α} :
    wp (ofOption r e : Mut σ ε α) Q E s ↔ (∀ a, r = some a → Q a s) ∧ (r = none → E e s) := by
  cases r <;> simp [ofOption]

@[simp] theorem wp_or_else (cleanup : σ → σ) :
    wp (orElse m cleanup) Q E s ↔ wp m Q (fun e s' => E e (cleanup s')) s := by
  simp only [wp, orElse]
  rcases m s with ⟨_ | _, _⟩ <;> rfl

theorem wp_ite {m' : Mut σ ε α} (c : Prop) [Decidable c] (ht : c → wp m Q E s)
    (hf : ¬ c → wp m' Q E s) : wp (if c then m else m') Q E s := by
  by_cases hc : c
  · simpa [hc] using ht hc
  · simpa [hc] using hf hc

theorem wp_mono (h : wp m Q E s) (hQ : ∀ a s', Q a s' → R a s')
    (hE : ∀ e s', E e s' → F e s') : wp m R F s := by
  unfold wp at h ⊢
  rcases hm : m s with ⟨_ | _, _⟩ <;> rw [hm] at h
  · exact hE _ _ h
  · exact hQ _ _ h

theorem wp_seq (h : wp m Q E s) (hf : ∀ a s', Q a s' → wp (f a) P E s') : wp (m >>= f) P E s :=
  wp_bind.mpr (wp_mono h hf fun _ _ he => he)

theorem wp_self : wp m (fun a s' => m s = (.ok a, s')) (fun e s' => m s = (.error e, s')) s := by
  unfold wp
  rcases m s with ⟨_ | _, _⟩ <;> rfl

theorem wp_foldlM {g : β → α → Mut σ ε β} {I : List α → β → σ → Prop}
    (step : ∀ a rest b s, I (a :: rest) b s → wp (g b a) (fun b' s' => I rest b' s') E s)
    (items : List α) (b : β) (h : I items b s) :
    wp (items.foldlM g b) (fun b' s' => I [] b' s') E s := by
  induction items generalizing b s with
  | nil => simpa [List.foldlM] using h
  | cons a rest ih => exact wp_seq (step a rest b s h) fun b' s' hI => ih b' hI

end Rules

/-! ## Reading one execution -/

theorem of_wp_ok {Q : α → σ → Prop} {E : ε → σ → Prop} {a : α} (h : wp m Q E s)
    (hm : m s = (.ok a, s')) : Q a s' := by
  simpa [wp, hm] using h

theorem of_wp_error {Q : α → σ → Prop} {E : ε → σ → Prop} (h : wp m Q E s)
    (hm : m s = (.error e, s')) : E e s' := by
  simpa [wp, hm] using h

theorem bind_eq_ok {b : β} :
    (m >>= f) s = (.ok b, s') ↔ ∃ a s₁, m s = (.ok a, s₁) ∧ f a s₁ = (.ok b, s') := by
  simp only [Bind.bind]
  rcases m s with ⟨_ | a, s₁⟩ <;> simp

theorem or_else_eq_ok {cleanup : σ → σ} {a : α} :
    orElse m cleanup s = (.ok a, s') ↔ m s = (.ok a, s') := by
  simp only [orElse]
  rcases m s with ⟨_ | a, s₁⟩ <;> simp

theorem run_cases (m : Mut σ ε α) (s : σ) :
    (∃ a s', m s = (.ok a, s')) ∨ ∃ e s', m s = (.error e, s') := by
  rcases m s with ⟨e | a, s'⟩
  · exact Or.inr ⟨e, s', rfl⟩
  · exact Or.inl ⟨a, s', rfl⟩

end Mut
