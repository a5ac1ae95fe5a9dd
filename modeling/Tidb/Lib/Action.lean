import Tidb.Lib.Outcome

/-!
# Calls that work on a state

The state outlives an error: what a call has changed before it failed stays changed.
-/

namespace GoLang

universe u v

def Action (σ : Type u) (ε : Type v) (α : Type u) := σ → Outcome ε α × σ

namespace Action

variable {σ α β : Type u} {ε : Type v}

protected def bind (x : Action σ ε α) (f : α → Action σ ε β) : Action σ ε β := fun s =>
  match x s with
  | (.ok a, s') => f a s'
  | (.error e, s') => (.error e, s')
  | (.fault, s') => (.fault, s')

instance : Monad (Action σ ε) where
  pure a s := (.ok a, s)
  bind := Action.bind

def lift (x : Outcome ε α) : Action σ ε α := fun s => (x, s)

def fail (e : ε) : Action σ ε α := fun s => (.error e, s)

@[simp] theorem pure_run (a : α) (s : σ) : (pure a : Action σ ε α) s = (.ok a, s) := rfl

@[simp] theorem lift_run (x : Outcome ε α) (s : σ) : (lift x : Action σ ε α) s = (x, s) := rfl

theorem bind_ok {x : Action σ ε α} {f : α → Action σ ε β} {s s' : σ} {a : α} (h : x s = (.ok a, s')) :
    (x >>= f) s = f a s' := by
  show Action.bind x f s = _
  rw [Action.bind, h]

theorem bind_error {x : Action σ ε α} {f : α → Action σ ε β} {s s' : σ} {e : ε}
    (h : x s = (.error e, s')) : (x >>= f) s = (.error e, s') := by
  show Action.bind x f s = _
  rw [Action.bind, h]

end Action

end GoLang
