import RqRoute.Library.Checked

/-! # Two computations side by side

Both go on with related values, or both stop with related failures. -/

namespace Checked

variable {ε ε' α α' β β' : Type}

/-- Two computations with results related by `P` and failures related by `E`. -/
inductive Paired (E : ε → ε' → Prop) (P : α → α' → Prop) : Except ε α → Except ε' α' → Prop
  | ok {a : α} {a' : α'} (h : P a a') : Paired E P (.ok a) (.ok a')
  | error {e : ε} {e' : ε'} (h : E e e') : Paired E P (.error e) (.error e')

theorem Paired.bind {E : ε → ε' → Prop} {P : α → α' → Prop} {Q : β → β' → Prop}
    {x : Except ε α} {x' : Except ε' α'} {f : α → Except ε β} {f' : α' → Except ε' β'}
    (hx : Paired E P x x') (hf : ∀ a a', P a a' → Paired E Q (f a) (f' a')) :
    Paired E Q (x >>= f) (x' >>= f') := by
  cases hx with
  | ok h => exact hf _ _ h
  | error h => exact .error h

end Checked
