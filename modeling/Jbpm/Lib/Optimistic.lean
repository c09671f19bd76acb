/-
  Optimistic locking.  The rows of a table carry versions; a session holds rows
  as it has read them and as it will write them, and a flush writes what differs,
  each row only if its version is still the one that was read.

  * `flush`, `flushAll`: the writes of a session;
  * `UpToDate S t l`: the row `l`, read at some time, is older than the one in the
    table, or says the same up to `S`, the changes made without a new version;
  * `UpToDate.flushAll`: flushes keep every row that was read up to date.
-/
import Mathlib.Logic.Function.Basic
import Mathlib.Data.Nat.Notation

namespace Lib

/-- Rows with a key and a version. -/
class Row (R : Type*) where
  key : R → ℕ
  version : R → ℕ
  /-- the row with its version raised -/
  bump : R → R
  key_bump : ∀ r, key (bump r) = key r
  version_bump : ∀ r, version (bump r) = version r + 1

/-- A row as it was read and as it will be written, `none` if it is deleted. -/
structure Entity (R : Type*) [Row R] where
  loaded : R
  current : Option R
  key_current : ∀ c ∈ current, Row.key c = Row.key loaded
  version_current : ∀ c ∈ current, Row.version c = Row.version loaded

namespace Optimistic

open Row

variable {R : Type*} [Row R]

/-- Every row is found under its own key. -/
def Keyed (t : ℕ → Option R) : Prop := ∀ k, ∀ r ∈ t k, key r = k

section Flush

variable [DecidableEq R]

def flush (t : ℕ → Option R) (e : Entity R) : Option (ℕ → Option R) :=
  if e.current = some e.loaded then some t
  else match t (key e.loaded) with
    | some r =>
      if version r = version e.loaded then
        some (Function.update t (key e.loaded) (e.current.map bump))
      else none
    | none => none

/-- The entities are flushed one after the other; one that is stale ends it. -/
def flushAll (t : ℕ → Option R) : List (Entity R) → Option (ℕ → Option R)
  | [] => some t
  | e :: es => (flush t e).bind fun t => flushAll t es

theorem flush_eq_some {t t' : ℕ → Option R} {e : Entity R} (h : flush t e = some t') :
    (e.current = some e.loaded ∧ t' = t) ∨
      (e.current ≠ some e.loaded ∧ ∃ r, t (key e.loaded) = some r ∧ version r = version e.loaded ∧
        t' = Function.update t (key e.loaded) (e.current.map bump)) := by
  unfold flush at h
  split at h
  · rename_i hc
    exact .inl ⟨hc, (Option.some.inj h).symm⟩
  · rename_i hc
    split at h
    · rename_i r hr
      split at h
      · rename_i hv
        exact .inr ⟨hc, r, hr, hv, (Option.some.inj h).symm⟩
      · cases h
    · cases h

/-- The entity as the session has it after the flush. -/
def committed (e : Entity R) : Option R :=
  if e.current = some e.loaded then some e.loaded else e.current.map bump

theorem key_committed {e : Entity R} {c : R} (h : c ∈ committed e) : key c = key e.loaded := by
  unfold committed at h
  split at h
  · cases h
    rfl
  · rw [Option.mem_def, Option.map_eq_some_iff] at h
    obtain ⟨c, hc, rfl⟩ := h
    rw [key_bump, e.key_current c hc]

/-- What every flush keeps is kept by the flush of a session. -/
theorem flushAll_inv {I : (ℕ → Option R) → Prop} {es : List (Entity R)}
    (hf : ∀ e ∈ es, ∀ t t', I t → flush t e = some t' → I t') {t t' : ℕ → Option R} (h : I t)
    (ht : flushAll t es = some t') : I t' := by
  induction es generalizing t with
  | nil => exact Option.some.inj ht ▸ h
  | cons e es ih =>
    obtain ⟨t₁, h₁, h₂⟩ := Option.bind_eq_some_iff.mp ht
    exact ih (fun e' he' => hf e' (.tail _ he')) (hf e (.head _) t t₁ h h₁) h₂

/-- A row after a flush was there before or is written by the flush. -/
theorem flushAll_get {es : List (Entity R)} {t t' : ℕ → Option R} (h : flushAll t es = some t')
    {k : ℕ} {r : R} (hr : t' k = some r) :
    t k = some r ∨ ∃ e ∈ es, e.current ≠ some e.loaded ∧ key e.loaded = k ∧
      ∃ c ∈ e.current, r = bump c := by
  induction es generalizing t with
  | nil => exact .inl (Option.some.inj h ▸ hr)
  | cons e es ih =>
    obtain ⟨t₁, h₁, h₂⟩ := Option.bind_eq_some_iff.mp h
    rcases ih h₂ with h' | ⟨e', he', h'⟩
    · rcases flush_eq_some h₁ with ⟨-, rfl⟩ | ⟨hd, -, -, -, rfl⟩
      · exact .inl h'
      · by_cases hk : k = key e.loaded
        · subst hk
          rw [Function.update_self, Option.map_eq_some_iff] at h'
          obtain ⟨c, hc, rfl⟩ := h'
          exact .inr ⟨e, .head _, hd, rfl, c, hc, rfl⟩
        · rw [Function.update_of_ne hk] at h'
          exact .inl h'
    · exact .inr ⟨e', .tail _ he', h'⟩

/-- A row that no entity of the session changes is left alone. -/
theorem flushAll_of_unchanged {es : List (Entity R)} {t t' : ℕ → Option R}
    (h : flushAll t es = some t') {k : ℕ}
    (hk : ∀ e ∈ es, e.current ≠ some e.loaded → key e.loaded ≠ k) : t' k = t k := by
  induction es generalizing t with
  | nil => exact Option.some.inj h ▸ rfl
  | cons e es ih =>
    obtain ⟨t₁, h₁, h₂⟩ := Option.bind_eq_some_iff.mp h
    rw [ih h₂ fun e' he' => hk e' (.tail _ he')]
    rcases flush_eq_some h₁ with ⟨-, rfl⟩ | ⟨hd, -, -, -, rfl⟩
    · rfl
    · exact Function.update_of_ne (hk e (.head _) hd).symm _ _

/-- What a session changes is in the table after its flush, if it holds every row
    only once. -/
theorem flushAll_written {es : List (Entity R)} {t t' : ℕ → Option R}
    (h : flushAll t es = some t') (hn : (es.map fun e => key e.loaded).Nodup) {e : Entity R}
    (he : e ∈ es) (hd : e.current ≠ some e.loaded) : t' (key e.loaded) = e.current.map bump := by
  induction es generalizing t with
  | nil => cases he
  | cons e' es ih =>
    obtain ⟨t₁, h₁, h₂⟩ := Option.bind_eq_some_iff.mp h
    rw [List.map_cons, List.nodup_cons] at hn
    rcases List.mem_cons.mp he with rfl | he
    · have hk : ∀ e' ∈ es, e'.current ≠ some e'.loaded → key e'.loaded ≠ key e.loaded :=
        fun e' he' _ hk => hn.1 (hk ▸ List.mem_map_of_mem he')
      rw [flushAll_of_unchanged h₂ hk]
      rcases flush_eq_some h₁ with ⟨hc, -⟩ | ⟨-, -, -, -, rfl⟩
      · exact absurd hc hd
      · exact Function.update_self ..
    · exact ih h₂ hn.2 he

/-- What a session changes has not been changed since it was read. -/
theorem flushAll_read {es : List (Entity R)} {t t' : ℕ → Option R} (h : flushAll t es = some t')
    (hn : (es.map fun e => key e.loaded).Nodup) {e : Entity R} (he : e ∈ es)
    (hd : e.current ≠ some e.loaded) :
    ∃ r, t (key e.loaded) = some r ∧ version r = version e.loaded := by
  induction es generalizing t with
  | nil => cases he
  | cons e' es ih =>
    obtain ⟨t₁, h₁, h₂⟩ := Option.bind_eq_some_iff.mp h
    rw [List.map_cons, List.nodup_cons] at hn
    rcases List.mem_cons.mp he with rfl | he
    · rcases flush_eq_some h₁ with ⟨hc, -⟩ | ⟨-, r, hr, hv, -⟩
      · exact absurd hc hd
      · exact ⟨r, hr, hv⟩
    · obtain ⟨r, hr, hv⟩ := ih h₂ hn.2 he
      refine ⟨r, ?_, hv⟩
      have hk : key e.loaded ≠ key e'.loaded := fun hk => hn.1 (hk ▸ List.mem_map_of_mem he)
      rcases flush_eq_some h₁ with ⟨-, rfl⟩ | ⟨-, -, -, -, rfl⟩
      · exact hr
      · rwa [Function.update_of_ne hk] at hr

theorem Keyed.flush {t t' : ℕ → Option R} {e : Entity R} (ht : Keyed t)
    (h : Optimistic.flush t e = some t') : Keyed t' := by
  rcases flush_eq_some h with ⟨-, rfl⟩ | ⟨-, r, hr, -, rfl⟩
  · exact ht
  · intro k r' hr'
    by_cases hk : k = key e.loaded
    · subst hk
      rw [Function.update_self, Option.mem_def, Option.map_eq_some_iff] at hr'
      obtain ⟨c, hc, rfl⟩ := hr'
      rw [key_bump, e.key_current c hc]
    · rw [Function.update_of_ne hk] at hr'
      exact ht k r' hr'

theorem Keyed.flushAll {t t' : ℕ → Option R} {es : List (Entity R)} (ht : Keyed t)
    (h : Optimistic.flushAll t es = some t') : Keyed t' :=
  flushAll_inv (fun _ _ _ _ ht h => Keyed.flush ht h) ht h

end Flush

/-! ## Rows that were read -/

/-- The row `l` was read from the table; since then it may have been replaced by
    newer ones and changed without a new version, as `S` tells. -/
def UpToDate (S : R → R → Prop) (t : ℕ → Option R) (l : R) : Prop :=
  ∀ r ∈ t (key l), version l ≤ version r ∧ (version l = version r → S l r)

variable {S : R → R → Prop} {t t' : ℕ → Option R} {l : R}

theorem UpToDate.of_read (hS : ∀ r, S r r) (hk : Keyed t) {k : ℕ} (h : t k = some l) :
    UpToDate S t l := by
  intro r hr
  rw [hk k l h, h] at hr
  cases hr
  exact ⟨Nat.le_refl _, fun _ => hS l⟩

/-- Deleting rows, or creating some under other keys, does not matter. -/
theorem UpToDate.mono (h : UpToDate S t l) (ht : ∀ r ∈ t' (key l), r ∈ t (key l)) :
    UpToDate S t' l :=
  fun r hr => h r (ht r hr)

/-- Changes made without a new version. -/
theorem UpToDate.map (h : UpToDate S t l) {f : R → R} (hv : ∀ r, version (f r) = version r)
    (hS : ∀ r, S l r → S l (f r)) (ht : ∀ k, t' k = (t k).map f) : UpToDate S t' l := by
  intro r hr
  rw [ht, Option.mem_def, Option.map_eq_some_iff] at hr
  obtain ⟨r', hr', rfl⟩ := hr
  rw [hv]
  exact ⟨(h r' hr').1, fun h' => hS r' ((h r' hr').2 h')⟩

variable [DecidableEq R]

theorem UpToDate.flush {e : Entity R} (h : UpToDate S t l) (ht : Optimistic.flush t e = some t') :
    UpToDate S t' l := by
  rcases flush_eq_some ht with ⟨-, rfl⟩ | ⟨-, r, hr, hv, rfl⟩
  · exact h
  · intro r' hr'
    by_cases hk : key l = key e.loaded
    · rw [hk, Function.update_self, Option.mem_def, Option.map_eq_some_iff] at hr'
      obtain ⟨c, hc, rfl⟩ := hr'
      have hl := (h r (by rw [hk]; exact hr)).1
      rw [version_bump, e.version_current c hc, ← hv]
      exact ⟨by omega, fun _ => by omega⟩
    · rw [Function.update_of_ne hk] at hr'
      exact h r' hr'

theorem UpToDate.flushAll {es : List (Entity R)} (h : UpToDate S t l)
    (ht : Optimistic.flushAll t es = some t') : UpToDate S t' l :=
  flushAll_inv (fun _ _ _ _ h ht => UpToDate.flush h ht) h ht

/-- What a session has written is up to date after its flush. -/
theorem UpToDate.written (hS : ∀ r, S r r) {es : List (Entity R)}
    (ht : Optimistic.flushAll t es = some t') {e : Entity R} (he : e ∈ es) {c : R}
    (hc : c ∈ e.current) (hd : e.current ≠ some e.loaded) : UpToDate S t' (bump c) := by
  induction es generalizing t with
  | nil => cases he
  | cons e' es ih =>
    obtain ⟨t₁, h₁, h₂⟩ := Option.bind_eq_some_iff.mp ht
    rcases List.mem_cons.mp he with rfl | he
    · refine UpToDate.flushAll ?_ h₂
      rcases flush_eq_some h₁ with ⟨hc', -⟩ | ⟨-, r, -, -, rfl⟩
      · exact absurd hc' hd
      · intro r' hr'
        rw [key_bump, e.key_current c hc, Function.update_self, Option.mem_def, Option.map_eq_some_iff] at hr'
        obtain ⟨c', hc', rfl⟩ := hr'
        cases Option.mem_unique hc hc'
        exact ⟨Nat.le_refl _, fun _ => hS _⟩
    · exact ih h₂ he

theorem UpToDate.committed (hS : ∀ r, S r r) {es : List (Entity R)}
    (ht : Optimistic.flushAll t es = some t') {e : Entity R} (he : e ∈ es)
    (hl : UpToDate S t e.loaded) {c : R} (hc : c ∈ Optimistic.committed e) : UpToDate S t' c := by
  unfold Optimistic.committed at hc
  split at hc
  · cases hc
    exact hl.flushAll ht
  · rename_i hd
    rw [Option.mem_def, Option.map_eq_some_iff] at hc
    obtain ⟨c, hc, rfl⟩ := hc
    exact UpToDate.written hS ht he hc hd

end Optimistic

end Lib
