import Offside.Store

/-!
# What a part of a run ensures

A part of a run meets its postconditions from a store on: one for the value that it gives, and one
for the fault that it ends in. A run out of fuel meets every postcondition.
-/

namespace Offside.Run

variable {α β : Type} {r : Run α} {s : Store}

def Meets (r : Run α) (s : Store) (Q : α → Store → Prop) (E : Fault → Store → Prop) : Prop :=
  match r s with
  | .done a s' => Q a s'
  | .failed e s' => E e s'
  | .outOfFuel => True

variable {Q Q' : α → Store → Prop} {R : β → Store → Prop} {E E' : Fault → Store → Prop}

theorem meets_of (hQ : ∀ a s', r s = .done a s' → Q a s')
    (hE : ∀ e s', r s = .failed e s' → E e s') : r.Meets s Q E := by
  unfold Meets
  cases hr : r s with
  | done a s' => exact hQ a s' hr
  | failed e s' => exact hE e s' hr
  | outOfFuel => trivial

theorem Meets.of_done {a : α} {s' : Store} (h : r.Meets s Q E) (hr : r s = .done a s') :
    Q a s' := by
  unfold Meets at h
  rwa [hr] at h

theorem Meets.of_failed {e : Fault} {s' : Store} (h : r.Meets s Q E) (hr : r s = .failed e s') :
    E e s' := by
  unfold Meets at h
  rwa [hr] at h

theorem Meets.mono (h : r.Meets s Q E) (hQ : ∀ a s', Q a s' → Q' a s')
    (hE : ∀ e s', E e s' → E' e s') : r.Meets s Q' E' :=
  meets_of (fun a s' hr => hQ a s' (h.of_done hr)) fun e s' hr => hE e s' (h.of_failed hr)

theorem Meets.imp (h : r.Meets s Q E) (hQ : ∀ a s', Q a s' → Q' a s') : r.Meets s Q' E :=
  h.mono hQ fun _ _ => id

/-! ## Each kind of part -/

theorem meets_pure {a : α} (h : Q a s) : (pure a : Run α).Meets s Q E := h

instance : LawfulMonad Run := by
  refine LawfulMonad.mk' Run ?_ ?_ ?_
  · intro α r
    funext s
    show Run.bind r Run.pure s = r s
    unfold Run.bind
    cases r s <;> rfl
  · intro α β a f
    rfl
  · intro α β γ r f g
    funext s
    show Run.bind (Run.bind r f) g s = Run.bind r (fun a => Run.bind (f a) g) s
    unfold Run.bind
    cases r s <;> rfl

theorem bind_apply (r : Run α) (f : α → Run β) (s : Store) :
    (r >>= f) s = match r s with
      | .done a s' => f a s'
      | .failed e s' => .failed e s'
      | .outOfFuel => .outOfFuel := rfl

theorem meets_bind {f : α → Run β} (h : r.Meets s (fun a s' => (f a).Meets s' R E) E) :
    (r >>= f).Meets s R E := by
  unfold Meets
  rw [bind_apply]
  cases hr : r s with
  | done a s' => exact h.of_done hr
  | failed e s' => exact h.of_failed hr
  | outOfFuel => trivial

theorem meets_fail {e : Fault} (h : E e s) : (fail e : Run α).Meets s Q E := h

theorem meets_read {f : Store → α} (h : Q (f s) s) : (read f).Meets s Q E := h

theorem meets_readExcept {f : Store → Except Fault α} (hok : ∀ a, f s = .ok a → Q a s)
    (herror : ∀ e, f s = .error e → E e s) : (readExcept f).Meets s Q E := by
  unfold Meets readExcept
  cases hf : f s with
  | ok a => exact hok a hf
  | error e => exact herror e hf

end Offside.Run
