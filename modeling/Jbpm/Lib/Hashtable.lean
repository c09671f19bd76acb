/-
  Hash tables over a hash function and a key comparison that need not agree
  with equality.

  A table searches a key by its hash and by the comparison of the keys it
  stores with the key it is given.  Where no stored key is taken for another
  one (`Faithful`), the table is the partial map of its entries
  (`Represents`).
-/
import Mathlib.Data.List.Nodup
import Mathlib.Logic.Function.Basic

namespace Lib

/-- The hash of a key and the comparison of a stored key with a searched one. -/
structure Hashing (K H : Type*) where
  hash : K → H
  eq : K → K → Bool

namespace Hashing

variable {K H V : Type*} [DecidableEq H] (γ : Hashing K H)

/-- The stored key `k'` answers a search for `k`. -/
def hits (k' k : K) : Bool := γ.hash k' == γ.hash k && γ.eq k' k

/-- The value of the first entry whose key answers. -/
def get (k : K) : List (K × V) → Option V
  | [] => none
  | e :: t => if γ.hits e.1 k then some e.2 else get k t

/-- Give the first entry whose key answers a new value. -/
def replace (k : K) (v : V) : List (K × V) → List (K × V)
  | [] => []
  | e :: t => if γ.hits e.1 k then (e.1, v) :: t else e :: replace k v t

/-- Replace the value of the entry whose key answers, else add an entry. -/
def put (k : K) (v : V) (t : List (K × V)) : List (K × V) :=
  if (γ.get k t).isSome then γ.replace k v t else (k, v) :: t

/-- Drop the first entry whose key answers. -/
def remove (k : K) : List (K × V) → List (K × V)
  | [] => []
  | e :: t => if γ.hits e.1 k then t else e :: remove k t

/-- Among the keys stored in `t`, only `k` itself answers a search for `k`. -/
def Faithful (k : K) (t : List (K × V)) : Prop := ∀ e ∈ t, γ.hits e.1 k = true → e.1 = k

/-- The entries of `t` are those of the partial map `m`, each stored once. -/
structure Represents (t : List (K × V)) (m : K → Option V) : Prop where
  nodup : (t.map Prod.fst).Nodup
  mem_iff : ∀ k v, (k, v) ∈ t ↔ m k = some v

variable {γ} {k : K} {v w : V} {t : List (K × V)}

theorem hits_self (hr : γ.eq k k = true) : γ.hits k k = true := by simp [hits, hr]

theorem Faithful.of_cons {e : K × V} (hf : γ.Faithful k (e :: t)) : γ.Faithful k t :=
  fun e' he' => hf e' (List.mem_cons_of_mem _ he')

/-- An entry of another key does not answer. -/
theorem Faithful.miss {e : K × V} (hf : γ.Faithful k (e :: t)) (he : e.1 ≠ k) :
    γ.hits e.1 k = false := by
  by_contra h
  exact he (hf e List.mem_cons_self (by simpa using h))

theorem fst_ne_of_notMem (h : k ∉ t.map Prod.fst) : ∀ e ∈ t, e.1 ≠ k :=
  fun _ he hk => h (hk ▸ List.mem_map_of_mem he)

theorem get_eq_some_iff (hr : γ.eq k k = true) (hn : (t.map Prod.fst).Nodup)
    (hf : γ.Faithful k t) : γ.get k t = some v ↔ (k, v) ∈ t := by
  induction t with
  | nil => simp [get]
  | cons e t ih =>
    obtain ⟨k', w⟩ := e
    rw [List.map_cons, List.nodup_cons] at hn
    by_cases hk : k' = k
    · subst hk
      have hv : (k', v) ∉ t := fun h => fst_ne_of_notMem hn.1 _ h rfl
      simp [get, hits_self hr, hv, eq_comm]
    · have hm := hf.miss hk
      simp only [get, hm, Bool.false_eq_true, if_false, ih hn.2 hf.of_cons, List.mem_cons,
        Prod.mk.injEq, Ne.symm hk, false_and, false_or]

theorem mem_replace (hr : γ.eq k k = true) (hn : (t.map Prod.fst).Nodup) (hf : γ.Faithful k t)
    (hk : (k, w) ∈ t) (e : K × V) : e ∈ γ.replace k v t ↔ e = (k, v) ∨ e.1 ≠ k ∧ e ∈ t := by
  induction t with
  | nil => simp at hk
  | cons e' t ih =>
    obtain ⟨k', w'⟩ := e'
    rw [List.map_cons, List.nodup_cons] at hn
    by_cases hkk : k' = k
    · subst hkk
      have hne := fst_ne_of_notMem hn.1
      simp only [replace, hits_self hr, if_true, List.mem_cons]
      constructor
      · rintro (h | h)
        · exact Or.inl h
        · exact Or.inr ⟨hne e h, Or.inr h⟩
      · rintro (h | ⟨h, rfl | h'⟩)
        · exact Or.inl h
        · exact absurd rfl h
        · exact Or.inr h'
    · have hk' : (k, w) ∈ t := by
        rcases List.mem_cons.1 hk with h | h
        · exact absurd (congrArg Prod.fst h).symm hkk
        · exact h
      simp only [replace, hf.miss hkk, Bool.false_eq_true, if_false, List.mem_cons,
        ih hn.2 hf.of_cons hk']
      constructor
      · rintro (rfl | h | ⟨h, h'⟩)
        · exact Or.inr ⟨hkk, Or.inl rfl⟩
        · exact Or.inl h
        · exact Or.inr ⟨h, Or.inr h'⟩
      · rintro (h | ⟨h, h' | h'⟩)
        · exact Or.inr (Or.inl h)
        · exact Or.inl h'
        · exact Or.inr (Or.inr ⟨h, h'⟩)

@[simp]
theorem map_fst_replace : (γ.replace k v t).map Prod.fst = t.map Prod.fst := by
  induction t with
  | nil => rfl
  | cons e t ih => unfold replace; split <;> simp [ih]

theorem mem_remove (hr : γ.eq k k = true) (hn : (t.map Prod.fst).Nodup) (hf : γ.Faithful k t)
    (e : K × V) : e ∈ γ.remove k t ↔ e.1 ≠ k ∧ e ∈ t := by
  induction t with
  | nil => simp [remove]
  | cons e' t ih =>
    obtain ⟨k', w'⟩ := e'
    rw [List.map_cons, List.nodup_cons] at hn
    by_cases hkk : k' = k
    · subst hkk
      have hne := fst_ne_of_notMem hn.1
      simp only [remove, hits_self hr, if_true, List.mem_cons]
      exact ⟨fun h => ⟨hne e h, Or.inr h⟩, fun ⟨h, h'⟩ => h'.resolve_left fun he => h (by rw [he])⟩
    · simp only [remove, hf.miss hkk, Bool.false_eq_true, if_false, List.mem_cons,
        ih hn.2 hf.of_cons]
      constructor
      · rintro (rfl | ⟨h, h'⟩)
        exacts [⟨hkk, Or.inl rfl⟩, ⟨h, Or.inr h'⟩]
      · rintro ⟨h, h' | h'⟩
        exacts [Or.inl h', Or.inr ⟨h, h'⟩]

theorem remove_sublist : (γ.remove k t).Sublist t := by
  induction t with
  | nil => exact .slnil
  | cons e t ih =>
    unfold remove; split
    · exact List.sublist_cons_self e t
    · exact ih.cons_cons e

/-! ## The operations on the partial map -/

namespace Represents

variable {m : K → Option V}

theorem nil : Represents ([] : List (K × V)) fun _ => none := ⟨List.nodup_nil, by simp⟩

theorem get_eq (h : Represents t m) (hr : γ.eq k k = true) (hf : γ.Faithful k t) :
    γ.get k t = m k :=
  Option.ext fun v => (get_eq_some_iff hr h.nodup hf).trans (h.mem_iff k v)

variable [DecidableEq K]

/-- **Filing**: the table of `put` is the updated map. -/
theorem put (h : Represents t m) (hr : γ.eq k k = true) (hf : γ.Faithful k t) :
    Represents (γ.put k v t) (Function.update m k (some v)) := by
  have hmem : ∀ e, e ∈ γ.put k v t ↔ e = (k, v) ∨ e.1 ≠ k ∧ e ∈ t := by
    intro e
    unfold Hashing.put
    split
    · next hs =>
      obtain ⟨w, hw⟩ := Option.isSome_iff_exists.1 hs
      exact mem_replace hr h.nodup hf ((get_eq_some_iff hr h.nodup hf).1 hw) e
    · next hs =>
      have hk : ∀ e ∈ t, e.1 ≠ k := by
        rintro ⟨k', w⟩ he rfl
        exact hs (by rw [(get_eq_some_iff hr h.nodup hf).2 he]; rfl)
      rw [List.mem_cons]
      exact or_congr Iff.rfl ⟨fun he => ⟨hk e he, he⟩, fun he => he.2⟩
  refine ⟨?_, fun k' v' => (hmem _).trans ?_⟩
  · unfold Hashing.put
    split
    · rw [map_fst_replace]; exact h.nodup
    · next hs =>
      rw [List.map_cons, List.nodup_cons]
      refine ⟨fun hk => ?_, h.nodup⟩
      obtain ⟨⟨k', w⟩, he, rfl⟩ := List.mem_map.1 hk
      exact hs (by rw [(get_eq_some_iff hr h.nodup hf).2 he]; rfl)
  · by_cases hk : k' = k
    · subst hk; simp [eq_comm]
    · simp [hk, h.mem_iff]

/-- **Removing**: the table of `remove` is the map without the key. -/
theorem remove (h : Represents t m) (hr : γ.eq k k = true) (hf : γ.Faithful k t) :
    Represents (γ.remove k t) (Function.update m k none) := by
  refine ⟨h.nodup.sublist (remove_sublist.map Prod.fst), fun k' v' => ?_⟩
  rw [mem_remove hr h.nodup hf]
  by_cases hk : k' = k
  · subst hk; simp
  · simp [hk, h.mem_iff]

end Represents

end Hashing

end Lib
