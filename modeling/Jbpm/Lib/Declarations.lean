/-
  Declarations in nested scopes, as of prefixes: each scope has a list of keys with values,
  and the innermost declaration of a key counts.
-/
import Mathlib.Data.List.Basic

namespace Lib

namespace Declarations

variable {K V : Type*} [DecidableEq K] [DecidableEq V]

/-- The scopes, the innermost first. -/
abbrev Scopes (K V : Type*) := List (List (K × V))

/-- The value of a key is that of its first declaration. -/
def binding (s : Scopes K V) (k : K) : Option V :=
  (s.flatten.find? fun d => decide (d.1 = k)).map Prod.snd

/-- The first key that is declared with a value. -/
def keyOf (s : Scopes K V) (v : V) : Option K :=
  (s.flatten.find? fun d => decide (d.2 = v)).map Prod.fst

/-- A declaration in a scope, in place of one of the same key. -/
def declare (own : List (K × V)) (k : K) (v : V) : List (K × V) :=
  if own.any fun d => decide (d.1 = k) then
    own.map fun d => if d.1 = k then (k, v) else d
  else own ++ [(k, v)]

/-- A declaration in the innermost scope, unless the key is the first one with the value. -/
def ensure (above : Scopes K V) (own : List (K × V)) (d : K × V) : List (K × V) :=
  if keyOf (own :: above) d.2 = some d.1 then own else declare own d.1 d.2

/-- A declaration in the innermost scope, unless the key is bound to the value. -/
def rebind (above : Scopes K V) (own : List (K × V)) (d : K × V) : List (K × V) :=
  if binding (own :: above) d.1 = some d.2 then own else declare own d.1 d.2

variable {s above : Scopes K V} {own : List (K × V)} {k k' : K} {v : V}

omit [DecidableEq K] in
/-- From the innermost scope outwards. -/
theorem keyOf_cons (own : List (K × V)) (above : Scopes K V) (v : V) :
    keyOf (own :: above) v =
      ((own.find? fun d => decide (d.2 = v)).map Prod.fst).or (keyOf above v) := by
  rw [keyOf, keyOf, List.flatten_cons, List.find?_append]
  cases own.find? fun d => decide (d.2 = v) <;> rfl

omit [DecidableEq K] in
/-- A key that is declared with the value may be bound to another one. -/
theorem mem_of_keyOf (h : keyOf s v = some k) : (k, v) ∈ s.flatten := by
  obtain ⟨⟨k', v'⟩, hd, rfl⟩ := Option.map_eq_some_iff.1 h
  obtain rfl : v' = v := by simpa using List.find?_some hd
  exact List.mem_of_find?_eq_some hd

section

omit [DecidableEq V]

theorem binding_cons (own : List (K × V)) (above : Scopes K V) (k : K) :
    binding (own :: above) k =
      ((own.find? fun d => decide (d.1 = k)).map Prod.snd).or (binding above k) := by
  rw [binding, binding, List.flatten_cons, List.find?_append]
  cases own.find? fun d => decide (d.1 = k) <;> rfl

theorem mem_of_binding (h : binding s k = some v) : (k, v) ∈ s.flatten := by
  obtain ⟨⟨k', v'⟩, hd, rfl⟩ := Option.map_eq_some_iff.1 h
  obtain rfl : k' = k := by simpa using List.find?_some hd
  exact List.mem_of_find?_eq_some hd

/-- A new declaration in the innermost scope. -/
theorem binding_append (hk : ∀ d ∈ own, d.1 ≠ k) (k' : K) :
    binding ((own ++ [(k, v)]) :: above) k' =
      if k' = k then some v else binding (own :: above) k' := by
  rw [binding_cons, binding_cons, List.find?_append]
  by_cases hk' : k' = k
  · subst hk'
    have hnone : (own.find? fun d => decide (d.1 = k')) = none :=
      List.find?_eq_none.2 fun d hd => by simpa using hk d hd
    simp [hnone]
  · have hlast : ([(k, v)].find? fun d => decide (d.1 = k')) = none :=
      List.find?_eq_none.2 fun d hd => by
        rw [List.mem_singleton.1 hd]
        simpa using Ne.symm hk'
    rw [hlast, Option.or_none, if_neg hk']

theorem find?_map_declare (own : List (K × V)) (k : K) (v : V) (k' : K) :
    ((own.map fun d => if d.1 = k then (k, v) else d).find?
        fun d => decide (d.1 = k')).map Prod.snd =
      if k' = k then (own.find? fun d => decide (d.1 = k)).map fun _ => v
      else (own.find? fun d => decide (d.1 = k')).map Prod.snd := by
  induction own with
  | nil => split <;> rfl
  | cons d own ih =>
    by_cases hd : d.1 = k
    · by_cases hk' : k' = k
      · simp [hd, hk']
      · have hdk' : ¬ d.1 = k' := fun h => hk' (h.symm.trans hd)
        simpa [hd, hk', Ne.symm hk', hdk'] using ih
    · by_cases hdk' : d.1 = k'
      · have hk' : ¬ k' = k := fun h => hd (hdk'.trans h)
        simp [hdk', hk']
      · simpa [hd, hdk'] using ih

/-- What is declared is bound, and the other keys are bound as before. -/
theorem binding_declare (own : List (K × V)) (above : Scopes K V) (k : K) (v : V) (k' : K) :
    binding (declare own k v :: above) k' =
      if k' = k then some v else binding (own :: above) k' := by
  unfold declare
  split
  case isTrue hany =>
    rw [binding_cons, binding_cons, find?_map_declare]
    by_cases hk' : k' = k
    · obtain ⟨d, hd⟩ := Option.isSome_iff_exists.1 (List.find?_isSome.2 (List.any_eq_true.1 hany))
      simp [hk', hd]
    · simp [hk']
  case isFalse hany =>
    refine binding_append (fun d hd h => hany ?_) k'
    exact List.any_eq_true.2 ⟨d, hd, by simpa using h⟩

/-- A key that the innermost scope does not declare is bound further out, if at all. -/
theorem binding_of_not_own (hk : ∀ d ∈ own, d.1 ≠ k) :
    binding (own :: above) k = binding above k := by
  have hnone : (own.find? fun d => decide (d.1 = k)) = none :=
    List.find?_eq_none.2 fun d hd => by simpa using hk d hd
  rw [binding_cons, hnone]
  rfl

/-- A key that the innermost scope declares with one value only is bound to it. -/
theorem binding_of_own (hmem : (k, v) ∈ own) (hown : ∀ v', (k, v') ∈ own → v' = v)
    (above : Scopes K V) : binding (own :: above) k = some v := by
  have hsome : (own.find? fun d => decide (d.1 = k)).isSome :=
    List.find?_isSome.2 ⟨(k, v), hmem, by simp⟩
  obtain ⟨⟨k', v'⟩, hd⟩ := Option.isSome_iff_exists.1 hsome
  obtain rfl : k' = k := by simpa using List.find?_some hd
  rw [binding_cons, hd, hown v' (List.mem_of_find?_eq_some hd)]
  rfl

theorem mem_declare {d : K × V} (h : d ∈ declare own k v) : d = (k, v) ∨ d ∈ own := by
  unfold declare at h
  split at h
  · obtain ⟨d', hd', rfl⟩ := List.mem_map.1 h
    split
    · exact .inl rfl
    · exact .inr hd'
  · rcases List.mem_append.1 h with h | h
    · exact .inr h
    · exact .inl (List.mem_singleton.1 h)

end

/-- Nothing is bound to a value that is not declared. -/
theorem binding_ne_of_keyOf (h : keyOf s v = none) (k : K) : binding s k ≠ some v := by
  intro hb
  rw [keyOf, Option.map_eq_none_iff, List.find?_eq_none] at h
  exact h _ (mem_of_binding hb) (by simp)

theorem binding_rebind (above : Scopes K V) (own : List (K × V)) (d : K × V) (k : K) :
    binding (rebind above own d :: above) k =
      if k = d.1 then some d.2 else binding (own :: above) k := by
  unfold rebind
  split
  case isFalse => exact binding_declare ..
  case isTrue h =>
    split
    case isTrue hk => rw [hk, h]
    case isFalse => rfl

/-! ## Ensured declarations -/

theorem mem_ensure {d d' : K × V} (h : d' ∈ ensure above own d) : d' = d ∨ d' ∈ own := by
  unfold ensure at h
  split at h
  · exact .inr h
  · exact mem_declare h

/-- One declaration: the key is bound to the value, unless the outer scopes declare it with the
    value and with another one further in. -/
theorem binding_ensure (hown : ∀ v', (k, v') ∈ own → v' = v)
    (habove : (k, v) ∈ above.flatten → binding above k = some v) :
    binding (ensure above own (k, v) :: above) k = some v := by
  unfold ensure
  split
  case isFalse => rw [binding_declare, if_pos rfl]
  case isTrue hkey =>
    by_cases hmem : (k, v) ∈ own
    · exact binding_of_own hmem hown above
    · have hfree : ∀ d ∈ own, d.1 ≠ k := by
        rintro ⟨k', v'⟩ hd rfl
        exact hmem (hown v' hd ▸ hd)
      rw [binding_of_not_own hfree]
      refine habove ((List.mem_append.1 ?_).resolve_left hmem)
      exact mem_of_keyOf hkey

/-- Declarations that agree on a key bind it. -/
theorem binding_foldl_ensure (ds : List (K × V)) (hds : ∀ v', (k, v') ∈ ds → v' = v)
    (hown : ∀ v', (k, v') ∈ own → v' = v)
    (habove : (k, v) ∈ above.flatten → binding above k = some v)
    (h : (k, v) ∈ ds ∨ binding (own :: above) k = some v) :
    binding (ds.foldl (ensure above) own :: above) k = some v := by
  induction ds generalizing own with
  | nil => exact h.resolve_left (List.not_mem_nil)
  | cons d ds ih =>
    refine ih (fun v' hv' => hds v' (List.mem_cons_of_mem _ hv')) (fun v' hv' => ?_) ?_
    · rcases mem_ensure hv' with rfl | hv'
      · exact hds v' (List.mem_cons_self ..)
      · exact hown v' hv'
    · by_cases hd : d.1 = k
      · obtain ⟨k', v'⟩ := d
        subst hd
        obtain rfl := hds v' (List.mem_cons_self ..)
        exact .inr (binding_ensure hown habove)
      · refine h.imp (fun hmem => (List.mem_cons.1 hmem).resolve_left ?_) fun hb => ?_
        · rintro rfl
          exact hd rfl
        · unfold ensure
          split
          · exact hb
          · rw [binding_declare, if_neg (Ne.symm hd), hb]

end Declarations

end Lib
