import ParticleFx.Action
import ParticleFx.Number.Word

namespace ParticleFx

-- A fault that ends the caller too, so that it is no answer.
def Fault.Aborts (e : Fault) : Prop :=
  e.kind = .aborted

instance (e : Fault) : Decidable e.Aborts :=
  inferInstanceAs (Decidable (e.kind = .aborted))

theorem Fault.aborts_aborted : Fault.aborted.Aborts := rfl

theorem bind_eq_ok_iff {α β : Type} {x : Except Fault α} {f : α → Except Fault β} {b : β} :
    (x >>= f) = .ok b ↔ ∃ a, x = .ok a ∧ f a = .ok b := by
  cases x with
  | error e => simp [bind, Except.bind]
  | ok a => simp [bind, Except.bind]

theorem bind_eq_error_iff {α β : Type} {x : Except Fault α} {f : α → Except Fault β} {e : Fault} :
    (x >>= f) = .error e ↔ x = .error e ∨ ∃ a, x = .ok a ∧ f a = .error e := by
  cases x with
  | error e => simp [bind, Except.bind]
  | ok a => simp [bind, Except.bind]

namespace Word

variable {α : Type} {b : α}

theorem bind_signed {n : Int} (h : IsSigned n) (next : Int → Except Fault α) : signed n >>= next = next n := by
  rw [signed_of_isSigned h]
  rfl

theorem bind_unsigned {n : Nat} (h : n < 0x10000000000000000) (next : Nat → Except Fault α) :
    unsigned n >>= next = next n := by
  rw [unsigned_of_lt h]
  rfl

theorem bind_signed_eq_ok_iff {next : Int → Except Fault α} {n : Int} :
    (signed n >>= next) = .ok b ↔ IsSigned n ∧ next n = .ok b := by
  rw [bind_eq_ok_iff]
  constructor
  · rintro ⟨_, hsigned, h⟩
    obtain ⟨hn, rfl⟩ := signed_eq_ok_iff.mp hsigned
    exact ⟨hn, h⟩
  · rintro ⟨hn, h⟩
    exact ⟨n, signed_of_isSigned hn, h⟩

theorem bind_unsigned_eq_ok_iff {next : Nat → Except Fault α} {n : Nat} :
    (unsigned n >>= next) = .ok b ↔ n < UInt64.size ∧ next n = .ok b := by
  rw [bind_eq_ok_iff]
  constructor
  · rintro ⟨_, hunsigned, h⟩
    obtain ⟨hn, rfl⟩ := unsigned_eq_ok_iff.mp hunsigned
    exact ⟨hn, h⟩
  · rintro ⟨hn, h⟩
    exact ⟨n, unsigned_of_lt hn, h⟩

end Word

-- Whatever goes wrong belongs to the given class of faults.
def ErrsOnly {α : Type} (p : Fault → Prop) (r : Except Fault α) : Prop :=
  ∀ e, r = .error e → p e

namespace ErrsOnly

variable {α β : Type} {p : Fault → Prop}

theorem ok (a : α) : ErrsOnly p (.ok a) := nofun

theorem of_exists_ok {r : Except Fault α} (h : ∃ a, r = .ok a) : ErrsOnly p r := by
  obtain ⟨a, rfl⟩ := h
  exact .ok a

theorem error {e : Fault} (he : p e) : ErrsOnly p (.error e : Except Fault α) := by
  rintro _ ⟨⟩
  exact he

theorem bind {x : Except Fault α} {f : α → Except Fault β} (hx : ErrsOnly p x)
    (hf : ∀ a, ErrsOnly p (f a)) : ErrsOnly p (x >>= f) := by
  intro e h
  rcases bind_eq_error_iff.mp h with h | ⟨a, _, h⟩
  · exact hx e h
  · exact hf a e h

theorem ite {c : Prop} [Decidable c] {x y : Except Fault α} (hx : ErrsOnly p x) (hy : ErrsOnly p y) :
    ErrsOnly p (if c then x else y) := by
  split
  · exact hx
  · exact hy

theorem foldlM {step : β → α → Except Fault β} (hstep : ∀ b a, ErrsOnly p (step b a)) (l : List α) (b : β) :
    ErrsOnly p (l.foldlM step b) := by
  induction l generalizing b with
  | nil => exact .ok b
  | cons a rest ih =>
      rw [List.foldlM_cons]
      exact .bind (hstep b a) ih

-- Words and memory have one way to run out.
theorem signed (hp : p .aborted) (n : Int) : ErrsOnly p (Word.signed n) := .ite (.ok n) (.error hp)

theorem unsigned (hp : p .aborted) (n : Nat) : ErrsOnly p (Word.unsigned n) := .ite (.ok n) (.error hp)

theorem allocate (hp : p .aborted) (bytes : Nat) : ErrsOnly p (Word.allocate bytes) :=
  .ite (.ok ()) (.error hp)

end ErrsOnly

section

variable {α β : Type} {step : β → α → Except Fault β}

-- A run goes through when every step does and leaves what the next one needs.
theorem exists_foldlM_ok (Fine : β → Prop) {l : List α} {b : β}
    (hstep : ∀ a ∈ l, ∀ b, Fine b → ∃ b', step b a = .ok b' ∧ Fine b') (hb : Fine b) :
    ∃ b', l.foldlM step b = .ok b' ∧ Fine b' := by
  induction l generalizing b with
  | nil => exact ⟨b, rfl, hb⟩
  | cons a rest ih =>
      obtain ⟨hfirst, hothers⟩ := List.forall_mem_cons.mp hstep
      obtain ⟨mid, hok, hfine⟩ := hfirst b hb
      obtain ⟨b', hrest, hb'⟩ := ih hothers hfine
      rw [List.foldlM_cons]
      exact ⟨b', bind_eq_ok_iff.mpr ⟨mid, hok, hrest⟩, hb'⟩

end

namespace Act

variable {σ τ α β γ : Type}

theorem run_bind_eq_ok {x : Act σ α} {f : α → Act σ β} {s u : σ} {b : β} :
    (x >>= f) s = (.ok b, u) ↔ ∃ a t, x s = (.ok a, t) ∧ f a t = (.ok b, u) := by
  rcases hx : x s with ⟨r, t⟩
  cases r with
  | error e =>
      rw [run_bind_error f hx]
      simp
  | ok a =>
      rw [run_bind_ok f hx]
      constructor
      · intro h
        exact ⟨a, t, rfl, h⟩
      · rintro ⟨_, _, heq, h⟩
        cases heq
        exact h

theorem run_bind_eq_error {x : Act σ α} {f : α → Act σ β} {s u : σ} {e : Fault} :
    (x >>= f) s = (.error e, u) ↔
      x s = (.error e, u) ∨ ∃ a t, x s = (.ok a, t) ∧ f a t = (.error e, u) := by
  rcases hx : x s with ⟨r, t⟩
  cases r with
  | error e' =>
      rw [run_bind_error f hx]
      simp
  | ok a =>
      rw [run_bind_ok f hx]
      constructor
      · intro h
        exact .inr ⟨a, t, rfl, h⟩
      · rintro (heq | ⟨_, _, heq, h⟩)
        · cases heq
        · cases heq
          exact h

theorem map_eq_error_iff {r : Except Fault α} {f : α → β} {e : Fault} :
    r.map f = .error e ↔ r = .error e := by
  cases r with
  | error e' => simp [Except.map]
  | ok a => simp [Except.map]

-- Putting a result in another form leaves faults and states as they are.
theorem run_bind_pure (x : Act σ α) (f : α → β) (s : σ) :
    (x >>= fun a => pure (f a)) s = ((x s).1.map f, (x s).2) := by
  rcases hx : x s with ⟨r, t⟩
  cases r with
  | error e => rw [run_bind_error _ hx]; rfl
  | ok a => rw [run_bind_ok _ hx]; rfl

-- Steps one after the other, as far as the first that fails.
theorem run_mapM_cons_ok {x : Act σ α} (rest : List (Act σ α)) {s t : σ} {a : α} (hx : x s = (.ok a, t)) :
    (x :: rest).mapM id s = ((rest.mapM id t).1.map (a :: ·), (rest.mapM id t).2) := by
  rw [List.mapM_cons, id_eq, run_bind_ok _ hx, run_bind_pure]

theorem run_mapM_cons_error {x : Act σ α} (rest : List (Act σ α)) {s t : σ} {e : Fault}
    (hx : x s = (.error e, t)) : (x :: rest).mapM id s = (.error e, t) := by
  rw [List.mapM_cons, id_eq, run_bind_error _ hx]

theorem run_mapM_cons_eq_ok {x : Act σ α} {rest : List (Act σ α)} {s u : σ} {l : List α}
    (h : (x :: rest).mapM id s = (.ok l, u)) :
    ∃ a t others, x s = (.ok a, t) ∧ rest.mapM id t = (.ok others, u) ∧ l = a :: others := by
  rw [List.mapM_cons, id_eq] at h
  obtain ⟨a, t, hx, h⟩ := run_bind_eq_ok.mp h
  obtain ⟨others, _, hrest, h⟩ := run_bind_eq_ok.mp h
  obtain ⟨hall, rfl⟩ := Prod.mk.inj h
  exact ⟨a, t, others, hx, hrest, (Except.ok.inj hall).symm⟩

theorem exists_ok_of_isOk {x : Act σ α} {s : σ} (h : (x s).1.isOk = true) : ∃ a t, x s = (.ok a, t) := by
  rcases hx : x s with ⟨r, t⟩
  rw [hx] at h
  cases r with
  | error e => cases h
  | ok a => exact ⟨a, t, rfl⟩

-- A view of the state that the step leaves alone, whether it fails or not.
def Keeps (view : σ → γ) (x : Act σ α) : Prop :=
  ∀ s, view (x s).2 = view s

namespace Keeps

variable {view : σ → γ}

theorem pure (a : α) : Keeps view (Pure.pure a : Act σ α) := fun _ => rfl

theorem fail (e : Fault) : Keeps view (Act.fail e : Act σ α) := fun _ => rfl

theorem get : Keeps view (Act.get : Act σ σ) := fun _ => rfl

theorem check (r : Except Fault α) : Keeps view (Act.check r : Act σ α) := fun _ => rfl

theorem modify {f : σ → σ} (h : ∀ s, view (f s) = view s) : Keeps view (Act.modify f) := h

theorem bind {x : Act σ α} {f : α → Act σ β} (hx : Keeps view x) (hf : ∀ a, Keeps view (f a)) :
    Keeps view (x >>= f) := by
  intro s
  rcases h : x s with ⟨r, t⟩
  have ht : view t = view s := by simpa [h] using hx s
  cases r with
  | error e => rw [run_bind_error f h, ht]
  | ok a => rw [run_bind_ok f h, hf a t, ht]

-- A step on one part of the state keeps every view that does not look at that part.
theorem focus {part : σ → τ} {put : τ → σ → σ} {x : Act τ α} (h : ∀ t s, view (put t s) = view s) :
    Keeps view (Act.focus part put x) := fun s => h _ s

theorem of_ok {x : Act σ α} {s t : σ} {a : α} (hx : Keeps view x) (h : x s = (.ok a, t)) :
    view t = view s := by
  simpa [h] using hx s

end Keeps

-- Whatever the step gives belongs to the given class.
def Gives (p : α → Prop) (x : Act σ α) : Prop :=
  ∀ s a t, x s = (.ok a, t) → p a

namespace Gives

variable {p : α → Prop}

theorem pure {a : α} (ha : p a) : Gives p (Pure.pure a : Act σ α) := by
  intro s b t h
  obtain ⟨rfl, -⟩ : a = b ∧ s = t := by simpa using h
  exact ha

theorem fail (e : Fault) : Gives p (Act.fail e : Act σ α) := by
  intro s a t h
  simp at h

theorem check {r : Except Fault α} (hr : ∀ a, r = .ok a → p a) : Gives p (Act.check r : Act σ α) := by
  intro s a t h
  simp only [run_check, Prod.mk.injEq] at h
  exact hr a h.1

theorem bind {x : Act σ β} {f : β → Act σ α} (hf : ∀ s b t, x s = (.ok b, t) → Gives p (f b)) :
    Gives p (x >>= f) := by
  intro s a u h
  obtain ⟨b, t, hx, h⟩ := run_bind_eq_ok.mp h
  exact hf s b t hx t a u h

end Gives

-- Whatever makes the step fail belongs to the given class of faults.
def FailsOnly (p : Fault → Prop) (x : Act σ α) : Prop :=
  ∀ s e t, x s = (.error e, t) → p e

namespace FailsOnly

variable {p : Fault → Prop}

theorem pure (a : α) : FailsOnly p (Pure.pure a : Act σ α) := by
  intro s e t h
  simp at h

theorem get : FailsOnly p (Act.get : Act σ σ) := by
  intro s e t h
  simp at h

theorem modify (f : σ → σ) : FailsOnly p (Act.modify f) := by
  intro s e t h
  simp at h

theorem fail {e : Fault} (he : p e) : FailsOnly p (Act.fail e : Act σ α) := by
  intro s e' t h
  obtain ⟨rfl, -⟩ : e = e' ∧ s = t := by simpa using h
  exact he

theorem check {r : Except Fault α} (hr : ErrsOnly p r) : FailsOnly p (Act.check r : Act σ α) := by
  intro s e t h
  simp only [run_check, Prod.mk.injEq] at h
  exact hr e h.1

theorem bind {x : Act σ α} {f : α → Act σ β} (hx : FailsOnly p x) (hf : ∀ a, FailsOnly p (f a)) :
    FailsOnly p (x >>= f) := by
  intro s e u h
  rcases run_bind_eq_error.mp h with h | ⟨a, t, _, h⟩
  · exact hx s e u h
  · exact hf a t e u h

theorem bind_of_gives {x : Act σ α} {f : α → Act σ β} {q : α → Prop} (hx : FailsOnly p x) (hq : Gives q x)
    (hf : ∀ a, q a → FailsOnly p (f a)) : FailsOnly p (x >>= f) := by
  intro s e u h
  rcases run_bind_eq_error.mp h with h | ⟨a, t, hok, h⟩
  · exact hx s e u h
  · exact hf a (hq s a t hok) t e u h

theorem focus {part : σ → τ} {put : τ → σ → σ} {x : Act τ α} (hx : FailsOnly p x) :
    FailsOnly p (Act.focus part put x) := by
  intro s e t h
  simp only [Act.focus, Prod.mk.injEq] at h
  exact hx (part s) e _ (Prod.ext h.1 rfl)

theorem mapM {steps : List (Act σ α)} (h : ∀ x ∈ steps, FailsOnly p x) : FailsOnly p (steps.mapM id) := by
  induction steps with
  | nil => exact .pure []
  | cons x rest ih =>
      rw [List.mapM_cons]
      refine .bind (h x List.mem_cons_self) fun _ => .bind (ih fun y hy => ?_) fun _ => .pure _
      exact h y (List.mem_cons_of_mem x hy)

theorem exists_ok {x : Act σ α} (hx : FailsOnly (fun _ => False) x) (s : σ) :
    ∃ a t, x s = (.ok a, t) := by
  rcases h : x s with ⟨r, t⟩
  cases r with
  | error e => exact (hx s e t h).elim
  | ok a => exact ⟨a, t, rfl⟩

end FailsOnly

-- The step fails wherever it is taken.
def Fails (x : Act σ α) : Prop :=
  ∀ s, ∃ e t, x s = (.error e, t)

namespace Fails

theorem left {x : Act σ α} (hx : Fails x) (f : α → Act σ β) : Fails (x >>= f) := by
  intro s
  obtain ⟨e, t, h⟩ := hx s
  exact ⟨e, t, run_bind_error f h⟩

theorem right (x : Act σ α) {f : α → Act σ β} (hf : ∀ a, Fails (f a)) : Fails (x >>= f) := by
  intro s
  rcases h : x s with ⟨r, t⟩
  cases r with
  | error e => exact ⟨e, t, run_bind_error f h⟩
  | ok a =>
      rw [run_bind_ok f h]
      exact hf a t

theorem mapM {steps : List (Act σ α)} (h : ∀ x ∈ steps, Fails x) (hne : steps ≠ []) :
    Fails (steps.mapM id) := by
  cases steps with
  | nil => exact absurd rfl hne
  | cons x rest =>
      rw [List.mapM_cons]
      exact (h x List.mem_cons_self).left _

end Fails

-- A fault that is returned leaves the state as it was. Nothing is said of one that aborts.
def Atomic (x : Act σ α) : Prop :=
  ∀ s e t, x s = (.error e, t) → ¬e.Aborts → t = s

theorem Atomic.of_aborts {x : Act σ α} (hx : FailsOnly Fault.Aborts x) : Atomic x := by
  intro s e t h hreturned
  exact absurd (hx s e t h) hreturned

-- Seen through the view, the first step is the second: the same result, and the same change.
def Mirrors (view : τ → σ) (x : Act τ α) (y : Act σ α) : Prop :=
  ∀ t, y (view t) = ((x t).1, view (x t).2)

namespace Mirrors

variable {view : τ → σ}

theorem pure (a : α) : Mirrors view (Pure.pure a) (Pure.pure a) := fun _ => rfl

theorem check (r : Except Fault α) : Mirrors view (Act.check r) (Act.check r) := fun _ => rfl

theorem bind {x : Act τ α} {y : Act σ α} {f : α → Act τ β} {g : α → Act σ β}
    (hx : Mirrors view x y) (hf : ∀ a, Mirrors view (f a) (g a)) :
    Mirrors view (x >>= f) (y >>= g) := by
  intro t
  have hy := hx t
  rcases h : x t with ⟨r, u⟩
  rw [h] at hy
  cases r with
  | error e => rw [run_bind_error f h, run_bind_error g hy]
  | ok a => rw [run_bind_ok f h, run_bind_ok g hy, hf a u]

end Mirrors

-- The same result and the same state, but for the state that a fault leaves behind.
def Agree (p q : Except Fault α × σ) : Prop :=
  p = q ∨ ∃ fault, p.1 = .error fault ∧ q.1 = .error fault

namespace Agree

variable {q : Except Fault α × σ}

theorem ok_left {a : α} {s : σ} (h : Agree (.ok a, s) q) : q = (.ok a, s) := by
  rcases h with heq | ⟨fault, hp, _⟩
  · exact heq.symm
  · cases hp

theorem error_left {fault : Fault} {s : σ} (h : Agree (.error fault, s) q) :
    ∃ t, q = (.error fault, t) := by
  rcases h with heq | ⟨fault', hp, hq⟩
  · exact ⟨s, heq.symm⟩
  · exact ⟨q.2, Prod.ext (hq.trans hp.symm) rfl⟩

theorem bind {x y : Act σ α} {s : σ} (h : Agree (x s) (y s)) (f : α → Act σ β) :
    Agree ((x >>= f) s) ((y >>= f) s) := by
  rcases hx : x s with ⟨r, t⟩
  rw [hx] at h
  cases r with
  | ok a =>
      rw [run_bind_ok f hx, run_bind_ok f h.ok_left]
      exact .inl rfl
  | error fault =>
      obtain ⟨t', hy⟩ := h.error_left
      rw [run_bind_error f hx, run_bind_error f hy]
      exact .inr ⟨fault, rfl, rfl⟩

end Agree

-- The step goes by the view alone: where two states look alike it gives the same result, and they
-- look alike after it.
def Sees (view : σ → γ) (x : Act σ α) : Prop :=
  ∀ s t, view s = view t → (x s).1 = (x t).1 ∧ view (x s).2 = view (x t).2

namespace Sees

variable {view : σ → γ}

theorem pure (a : α) : Sees view (Pure.pure a : Act σ α) := fun _ _ h => ⟨rfl, h⟩

theorem fail (e : Fault) : Sees view (Act.fail e : Act σ α) := fun _ _ h => ⟨rfl, h⟩

theorem bind {x : Act σ α} {f : α → Act σ β} (hx : Sees view x) (hf : ∀ a, Sees view (f a)) :
    Sees view (x >>= f) := by
  intro s t h
  obtain ⟨hresult, hview⟩ := hx s t h
  rcases hs : x s with ⟨r, s'⟩
  have ht : x t = (r, (x t).2) := Prod.ext (by rw [← hresult, hs]) rfl
  rw [hs] at hview
  cases r with
  | error e =>
      rw [run_bind_error f hs, run_bind_error f ht]
      exact ⟨rfl, hview⟩
  | ok a =>
      rw [run_bind_ok f hs, run_bind_ok f ht]
      exact hf a s' (x t).2 hview

-- Two runs that both succeed, from states that look alike.
theorem of_ok {x : Act σ α} {s t s' t' : σ} {a b : α} (hx : Sees view x) (h : view s = view t)
    (hs : x s = (.ok a, s')) (ht : x t = (.ok b, t')) : a = b ∧ view s' = view t' := by
  obtain ⟨hresult, hview⟩ := hx s t h
  rw [hs, ht] at hresult hview
  exact ⟨Except.ok.inj hresult, hview⟩

end Sees

end Act

end ParticleFx
