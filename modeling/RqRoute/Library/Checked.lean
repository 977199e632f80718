import Mathlib.Logic.Basic

/-! # Checked computations

A computation that an assertion may stop: `Except ε`, with `check` for the
assertion. Each lemma turns a successful run into the facts it went through. -/

namespace Checked

variable {ε α β : Type}

/-- Go on when `p` holds, stop with `e` otherwise. -/
def check (p : Prop) [Decidable p] (e : ε) : Except ε Unit :=
  if p then .ok () else .error e

/-- The value of an optional result, or the failure `e`. -/
def orElse (x : Option α) (e : ε) : Except ε α :=
  match x with
  | some a => .ok a
  | none => .error e

@[simp] theorem ok_bind (a : α) (f : α → Except ε β) : (Except.ok a >>= f) = f a := rfl

@[simp] theorem error_bind (e : ε) (f : α → Except ε β) :
    ((Except.error e : Except ε α) >>= f) = Except.error e := rfl

@[simp] theorem pure_eq_ok (a : α) : (pure a : Except ε α) = Except.ok a := rfl

@[simp] theorem bind_ok (x : Except ε α) : (x >>= fun a => Except.ok a) = x := by
  cases x <;> rfl

theorem bind_eq_ok {x : Except ε α} {f : α → Except ε β} {b : β} :
    (x >>= f) = .ok b ↔ ∃ a, x = .ok a ∧ f a = .ok b := by
  cases x with
  | error e => simp
  | ok a => simp

theorem bind_eq_error {x : Except ε α} {f : α → Except ε β} {e : ε} :
    (x >>= f) = .error e ↔ x = .error e ∨ ∃ a, x = .ok a ∧ f a = .error e := by
  cases x with
  | error e' => simp
  | ok a => simp

theorem map_eq_ok {x : Except ε α} {f : α → β} {b : β} :
    x.map f = .ok b ↔ ∃ a, x = .ok a ∧ f a = b := by
  cases x <;> simp [Except.map]

/-- What holds of some result of a run holds of the result it had. -/
theorem exists_ok_iff {x : Except ε (α × β)} {a : α} {b : β} (h : x = .ok (a, b))
    {P : α → β → Prop} : (∃ a' b', x = .ok (a', b') ∧ P a' b') ↔ P a b := by
  constructor
  · rintro ⟨a', b', hab, hP⟩
    obtain ⟨rfl, rfl⟩ := Prod.mk.inj (Except.ok.inj (h.symm.trans hab))
    exact hP
  · exact fun hP => ⟨a, b, h, hP⟩

@[simp] theorem check_eq_ok {p : Prop} [Decidable p] {e : ε} {u : Unit} :
    check p e = .ok u ↔ p := by
  unfold check
  split <;> simp_all

@[simp] theorem check_eq_error {p : Prop} [Decidable p] {e e' : ε} :
    check p e = .error e' ↔ ¬p ∧ e = e' := by
  unfold check
  split <;> simp_all

theorem check_bind {p : Prop} [Decidable p] {e : ε} {f : Unit → Except ε β} (h : p) :
    (check p e >>= f) = f () := by
  simp [check, h]

@[simp] theorem orElse_some (a : α) (e : ε) : orElse (some a) e = .ok a := rfl

@[simp] theorem orElse_none (e : ε) : orElse (none : Option α) e = .error e := rfl

@[simp] theorem orElse_eq_ok {x : Option α} {e : ε} {a : α} :
    orElse x e = .ok a ↔ x = some a := by
  cases x <;> simp

end Checked
