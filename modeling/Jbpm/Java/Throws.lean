/-
  Statements of Java over a state: they may throw, and what they did to the
  state before stays done.
-/

namespace Java

/-- Runs from a state to a value or an exception, and a state in both cases. -/
def Throws (ε σ α : Type) : Type := σ → Except ε α × σ

namespace Throws

variable {ε σ α β : Type}

instance : Monad (Throws ε σ) where
  pure a := fun s => (.ok a, s)
  bind m f := fun s =>
    match m s with
    | (.ok a, s') => f a s'
    | (.error e, s') => (.error e, s')

def throw_ (e : ε) : Throws ε σ α := fun s => (.error e, s)

def ofExcept (x : Except ε α) : Throws ε σ α := fun s => (x, s)

def modify_ (f : σ → σ) : Throws ε σ Unit := fun s => (.ok (), f s)

/-- `try { m } catch (e) { h e }` -/
def tryCatch_ (m : Throws ε σ α) (h : ε → Throws ε σ α) : Throws ε σ α := fun s =>
  match m s with
  | (.ok a, s') => (.ok a, s')
  | (.error e, s') => h e s'

/-- `try { m } finally { f }`: an exception of `f` replaces that of `m`. -/
def tryFinally_ (m : Throws ε σ α) (f : Throws ε σ Unit) : Throws ε σ α := fun s =>
  match f (m s).2 with
  | (.ok (), s') => ((m s).1, s')
  | (.error e, s') => (.error e, s')

theorem pure_run (a : α) (s : σ) : (pure a : Throws ε σ α) s = (.ok a, s) := rfl

theorem ofExcept_run (x : Except ε α) (s : σ) : ofExcept x s = (x, s) := rfl

theorem bind_run (m : Throws ε σ α) (f : α → Throws ε σ β) (s : σ) :
    (m >>= f) s = match m s with
      | (.ok a, s') => f a s'
      | (.error e, s') => (.error e, s') := rfl

theorem bind_of_ok {m : Throws ε σ α} {a : α} {s s' : σ} (h : m s = (.ok a, s'))
    (f : α → Throws ε σ β) : (m >>= f) s = f a s' := by
  rw [bind_run, h]

theorem bind_of_error {m : Throws ε σ α} {e : ε} {s s' : σ} (h : m s = (.error e, s'))
    (f : α → Throws ε σ β) : (m >>= f) s = (.error e, s') := by
  rw [bind_run, h]

/-- A sequence ends well if both parts do. -/
theorem bind_eq_ok {m : Throws ε σ α} {f : α → Throws ε σ β} {b : β} {s s'' : σ} :
    (m >>= f) s = (.ok b, s'') ↔ ∃ a s', m s = (.ok a, s') ∧ f a s' = (.ok b, s'') := by
  rcases hm : m s with ⟨e | a, s'⟩
  · rw [bind_of_error hm]
    simp
  · rw [bind_of_ok hm]
    constructor
    · exact fun h => ⟨a, s', rfl, h⟩
    · rintro ⟨a', t, h, hf⟩
      obtain ⟨rfl, rfl⟩ : a = a' ∧ s' = t := by simpa using h
      exact hf

end Throws

end Java
