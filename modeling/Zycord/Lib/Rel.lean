import Zycord.Lib.Mut

/-!
# Two computations side by side

`Mut.Rel m n Q E s t` says that `m` started in `s` and `n` started in `t` end the same way: both
return, with values and states related by `Q`, or both fail, with errors related by `E`. The
states a failure leaves behind are not compared, so a cleanup on either side is transparent. The
rules follow the two computations one call at a time, and `rel_foldlM` carries an invariant
through two loops over the same items.
-/

namespace Mut

variable {σ τ ε δ α β α' β' ι : Type}

/-! ## How a sequence ends -/

section Ends

variable {m : Mut σ ε α} {f : α → Mut σ ε α'} {s s' : σ}

variable {a : α} {e : ε} {c : σ → σ}

theorem bind_of_ok (h : m s = (.ok a, s')) : (m >>= f) s = f a s' := by
  simp [Bind.bind, h]

theorem bind_of_error (h : m s = (.error e, s')) : (m >>= f) s = (.error e, s') := by
  simp [Bind.bind, h]

theorem or_else_of_ok (h : m s = (.ok a, s')) : orElse m c s = (.ok a, s') := by
  simp [orElse, h]

theorem or_else_of_error (h : m s = (.error e, s')) : orElse m c s = (.error e, c s') := by
  simp [orElse, h]

end Ends

/-! ## The relation and its rules -/

/-- Both computations return, related by `Q`, or both fail, related by `E`. -/
inductive Rel (m : Mut σ ε α) (n : Mut τ δ β) (Q : α → σ → β → τ → Prop) (E : ε → δ → Prop) (s : σ)
    (t : τ) : Prop where
  | returns {a : α} {b : β} {s' : σ} {t' : τ} (hm : m s = (.ok a, s')) (hn : n t = (.ok b, t'))
      (h : Q a s' b t') : Rel m n Q E s t
  | fails {e : ε} {d : δ} {s' : σ} {t' : τ} (hm : m s = (.error e, s'))
      (hn : n t = (.error d, t')) (h : E e d) : Rel m n Q E s t

variable {m : Mut σ ε α} {n : Mut τ δ β} {f : α → Mut σ ε α'} {g : β → Mut τ δ β'}
  {Q : α → σ → β → τ → Prop} {P : α' → σ → β' → τ → Prop} {E : ε → δ → Prop} {s : σ} {t : τ}

theorem rel_pure {a : α} {b : β} (h : Q a s b t) :
    Rel (pure a : Mut σ ε α) (pure b : Mut τ δ β) Q E s t := .returns rfl rfl h

variable {e : ε} {c d : Prop}

theorem rel_fail {d : δ} (h : E e d) :
    Rel (fail e : Mut σ ε α) (fail d : Mut τ δ β) Q E s t := .fails rfl rfl h

theorem rel_modify {Q : Unit → σ → Unit → τ → Prop} {f : σ → σ} {g : τ → τ}
    (h : Q () (f s) () (g t)) : Rel (modify f : Mut σ ε Unit) (modify g : Mut τ δ Unit) Q E s t :=
  .returns rfl rfl h

theorem rel_bind_of_ok {a : α} {b : β} {s' : σ} {t' : τ} (hm : m s = (.ok a, s'))
    (hn : n t = (.ok b, t')) (h : Rel (f a) (g b) P E s' t') : Rel (m >>= f) (n >>= g) P E s t := by
  cases h with
  | returns hm' hn' h' => exact .returns ((bind_of_ok hm).trans hm') ((bind_of_ok hn).trans hn') h'
  | fails hm' hn' h' => exact .fails ((bind_of_ok hm).trans hm') ((bind_of_ok hn).trans hn') h'

theorem rel_bind (h : Rel m n Q E s t)
    (hf : ∀ a s' b t', Q a s' b t' → Rel (f a) (g b) P E s' t') :
    Rel (m >>= f) (n >>= g) P E s t := by
  cases h with
  | returns hm hn h => exact rel_bind_of_ok hm hn (hf _ _ _ _ h)
  | fails hm hn h => exact .fails (bind_of_error hm) (bind_of_error hn) h

theorem rel_ite {m' : Mut σ ε α} {n' : Mut τ δ β} [Decidable c] [Decidable d] (hcd : c ↔ d)
    (ht : c → Rel m n Q E s t) (hf : ¬ c → Rel m' n' Q E s t) :
    Rel (if c then m else m') (if d then n else n') Q E s t := by
  by_cases hc : c
  · rw [if_pos hc, if_pos (hcd.mp hc)]
    exact ht hc
  · rw [if_neg hc, if_neg (mt hcd.mpr hc)]
    exact hf hc

theorem rel_require {Q : Unit → σ → Unit → τ → Prop} [Decidable c] [Decidable d] {e' : δ}
    (hcd : c ↔ d) (ht : c → Q () s () t) (hf : ¬ c → E e e') :
    Rel (require c e : Mut σ ε Unit) (require d e' : Mut τ δ Unit) Q E s t :=
  rel_ite hcd (fun hc => rel_pure (ht hc)) fun hc => rel_fail (hf hc)

theorem rel_or_else {c : σ → σ} {d : τ → τ} (h : Rel m n Q E s t) :
    Rel (orElse m c) (orElse n d) Q E s t := by
  cases h with
  | returns hm hn h => exact .returns (or_else_of_ok hm) (or_else_of_ok hn) h
  | fails hm hn h => exact .fails (or_else_of_error hm) (or_else_of_error hn) h

/-- Two loops over the same items, with an invariant of the items still to come. -/
theorem rel_foldlM {f : α → ι → Mut σ ε α} {g : β → ι → Mut τ δ β}
    {I : List ι → α → σ → β → τ → Prop}
    (step : ∀ x rest a s b t, I (x :: rest) a s b t →
      Rel (f a x) (g b x) (fun a' s' b' t' => I rest a' s' b' t') E s t)
    (items : List ι) (a : α) (b : β) (h : I items a s b t) :
    Rel (items.foldlM f a) (items.foldlM g b) (fun a' s' b' t' => I [] a' s' b' t') E s t := by
  induction items generalizing a b s t with
  | nil => exact rel_pure h
  | cons x rest ih => exact rel_bind (step x rest a s b t h) fun a' s' b' t' hI => ih a' b' hI

end Mut
