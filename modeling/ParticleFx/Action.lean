import ParticleFx.Fault

namespace ParticleFx

-- A step on a state that may fail. The state reached by then is kept either way.
def Act (σ α : Type) : Type :=
  σ → Except Fault α × σ

namespace Act

variable {σ τ α β : Type}

@[inline] protected def pure (a : α) : Act σ α :=
  fun s => (.ok a, s)

@[inline] protected def bind (x : Act σ α) (f : α → Act σ β) : Act σ β := fun s =>
  match x s with
  | (.ok a, s) => f a s
  | (.error e, s) => (.error e, s)

instance : Monad (Act σ) where
  pure := Act.pure
  bind := Act.bind

@[inline] def fail (e : Fault) : Act σ α :=
  fun s => (.error e, s)

@[inline] def get : Act σ σ :=
  fun s => (.ok s, s)

@[inline] def modify (f : σ → σ) : Act σ Unit :=
  fun s => (.ok (), f s)

-- A check that leaves the state alone.
@[inline] def check (r : Except Fault α) : Act σ α :=
  fun s => (r, s)

-- A step on one part of the state.
@[inline] def focus (view : σ → τ) (put : τ → σ → σ) (x : Act τ α) : Act σ α := fun s =>
  let (r, t) := x (view s)
  (r, put t s)

@[simp] theorem run_pure (a : α) (s : σ) : (pure a : Act σ α) s = (.ok a, s) := rfl

@[simp] theorem run_fail (e : Fault) (s : σ) : (fail e : Act σ α) s = (.error e, s) := rfl

@[simp] theorem run_get (s : σ) : (get : Act σ σ) s = (.ok s, s) := rfl

@[simp] theorem run_modify (f : σ → σ) (s : σ) : modify f s = (.ok (), f s) := rfl

@[simp] theorem run_check (r : Except Fault α) (s : σ) : (check r : Act σ α) s = (r, s) := rfl

theorem run_bind_ok {x : Act σ α} {s t : σ} {a : α} (f : α → Act σ β) (h : x s = (.ok a, t)) :
    (x >>= f) s = f a t := by
  show Act.bind x f s = f a t
  simp [Act.bind, h]

theorem run_bind_error {x : Act σ α} {s t : σ} {e : Fault} (f : α → Act σ β)
    (h : x s = (.error e, t)) : (x >>= f) s = (.error e, t) := by
  show Act.bind x f s = (.error e, t)
  simp [Act.bind, h]

-- Steps may be grouped at will.
instance : LawfulMonad (Act σ) := by
  refine LawfulMonad.mk' _ ?_ ?_ ?_
  · intro α x
    funext s
    show Act.bind x (fun a => Act.pure a) s = x s
    simp only [Act.bind, Act.pure]
    split <;> simp_all
  · intro α β a f
    rfl
  · intro α β γ x f g
    funext s
    show Act.bind (Act.bind x f) g s = Act.bind x (fun a => Act.bind (f a) g) s
    simp only [Act.bind]
    cases h : x s with
    | mk r t => cases r <;> rfl

end Act

end ParticleFx
