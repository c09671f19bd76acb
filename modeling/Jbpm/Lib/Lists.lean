/-
  Lists whose elements move, lists in parallel, and lists of elements with distinct keys.

  * `moved`: the element at `i` is taken out, and put in again before the element at `j`;
  * `map_moved`, `moved_append`: lists in parallel, and the front part of a list;
  * `moved_adjacent`: two neighbours trade places;
  * `perm_moved`: nothing is lost;
  * `set_map_idxOf`, `eraseIdx_map_idxOf`: changes of a list in parallel, at the index of an
    element;
  * `findIdx?_eq_some`, `lastIdx?_eq_some`: the list around the first and the last element with
    a property;
  * `filter_key`: there is one element of a key;
  * `putKey`, `foldl_putKey_iff`: elements that replace one another under their keys.
-/
import Mathlib.Data.List.InsertIdx
import Mathlib.Data.List.Nodup
import Mathlib.Logic.Function.Basic

namespace Lib

variable {α β : Type*}

/-- The list after `add(j, remove(i))`. -/
def moved (i j : ℕ) (l : List α) : List α :=
  match l[i]? with
  | some a => (l.eraseIdx i).insertIdx j a
  | none => l

theorem moved_of_lt {i : ℕ} (j : ℕ) {l : List α} (h : i < l.length) :
    moved i j l = (l.eraseIdx i).insertIdx j l[i] := by
  rw [moved, List.getElem?_eq_getElem h]

/-- Lists in parallel stay so. -/
theorem map_moved (f : α → β) (i j : ℕ) (l : List α) : (moved i j l).map f = moved i j (l.map f) := by
  unfold moved
  rw [List.getElem?_map]
  cases l[i]? with
  | none => rfl
  | some a =>
    dsimp only [Option.map_some]
    rw [List.map_insertIdx, List.eraseIdx_map]

theorem moved_self {i : ℕ} {l : List α} (h : i < l.length) : moved i i l = l := by
  rw [moved_of_lt i h, List.insertIdx_eraseIdx_getElem h]

theorem insertIdx_append {j : ℕ} {l : List α} (h : j ≤ l.length) (a : α) (l' : List α) :
    (l ++ l').insertIdx j a = l.insertIdx j a ++ l' := by
  induction l generalizing j with
  | nil =>
    obtain rfl : j = 0 := by simpa using h
    rfl
  | cons b l ih =>
    cases j with
    | zero => rfl
    | succ j =>
      rw [List.cons_append, List.insertIdx_succ_cons, ih (by simpa using h),
        List.insertIdx_succ_cons, List.cons_append]

/-- A move within the front part leaves the rest where it is. -/
theorem moved_append {i j : ℕ} {l : List α} (hi : i < l.length) (hj : j < l.length)
    (l' : List α) : moved i j (l ++ l') = moved i j l ++ l' := by
  have hi' : i < (l ++ l').length := by
    rw [List.length_append]
    omega
  rw [moved_of_lt j hi', moved_of_lt j hi, List.getElem_append_left hi,
    List.eraseIdx_append_of_lt_length hi, insertIdx_append]
  rw [List.length_eraseIdx_of_lt hi]
  omega

theorem insertIdx_append_right (l : List α) {j : ℕ} (a : α) (l' : List α) :
    (l ++ l').insertIdx (l.length + j) a = l ++ l'.insertIdx j a := by
  induction l with
  | nil => simp
  | cons b l ih =>
    rw [List.cons_append, List.length_cons, Nat.add_right_comm, List.insertIdx_succ_cons, ih,
      List.cons_append]

/-- A move behind the front part leaves that where it is. -/
theorem moved_append_right (l : List α) {i j : ℕ} {l' : List α} (hi : i < l'.length) :
    moved (l.length + i) (l.length + j) (l ++ l') = l ++ moved i j l' := by
  rw [moved_of_lt _ (by simpa using hi), moved_of_lt j hi,
    List.eraseIdx_append_of_length_le (by omega), Nat.add_sub_cancel_left,
    insertIdx_append_right, List.getElem_append_right (by omega)]
  simp only [Nat.add_sub_cancel_left]

/-- Neighbours trade places. -/
theorem moved_adjacent (l : List α) (a b : α) (l' : List α) :
    moved l.length (l.length + 1) (l ++ a :: b :: l') = l ++ b :: a :: l' :=
  moved_append_right l (i := 0) (j := 1) (by simp)

theorem moved_adjacent_back (l : List α) (a b : α) (l' : List α) :
    moved (l.length + 1) l.length (l ++ a :: b :: l') = l ++ b :: a :: l' :=
  moved_append_right l (i := 1) (j := 0) (by simp)

theorem perm_moved {i j : ℕ} {l : List α} (hi : i < l.length) (hj : j < l.length) :
    (moved i j l).Perm l := by
  have hlen : (l.eraseIdx i).length = l.length - 1 := List.length_eraseIdx_of_lt hi
  have hput (k : ℕ) (hk : k < l.length) :
      ((l.eraseIdx i).insertIdx k l[i]).Perm (l[i] :: l.eraseIdx i) :=
    List.perm_insertIdx _ _ (by omega)
  rw [moved_of_lt j hi]
  refine (hput j hj).trans (List.Perm.trans (hput i hi).symm ?_)
  rw [List.insertIdx_eraseIdx_getElem hi]

/-! ## Lists in parallel -/

section
variable [DecidableEq α] {f : α → β} {a : α} {l : List α}

theorem map_update_of_notMem (h : a ∉ l) (v : β) : l.map (Function.update f a v) = l.map f := by
  refine List.map_congr_left fun b hb => Function.update_of_ne ?_ _ _
  rintro rfl
  exact h hb

theorem eraseIdx_map_idxOf : (l.map f).eraseIdx (l.idxOf a) = (l.erase a).map f := by
  rw [List.erase_eq_eraseIdx_of_idxOf rfl, List.eraseIdx_map]

theorem set_map_idxOf (hnodup : l.Nodup) (h : a ∈ l) (v : β) :
    (l.map f).set (l.idxOf a) v = l.map (Function.update f a v) := by
  induction l with
  | nil => cases h
  | cons b l ih =>
    obtain ⟨hb, hnodup⟩ := List.nodup_cons.1 hnodup
    by_cases hab : b = a
    · subst hab
      rw [List.idxOf_cons_self, List.map_cons, List.set_cons_zero, List.map_cons,
        Function.update_self, map_update_of_notMem hb]
    · have hmem : a ∈ l := by
        rcases List.mem_cons.1 h with rfl | h
        · exact absurd rfl hab
        · exact h
      rw [List.idxOf_cons_ne _ hab, List.map_cons, List.set_cons_succ, List.map_cons,
        Function.update_of_ne hab, ih hnodup hmem]

end

/-! ## Where an element is found -/

section
variable {p : α → Bool}

theorem insertIdx_of_length {l : List α} {i : ℕ} (h : l.length = i) (a : α) (l' : List α) :
    (l ++ l').insertIdx i a = l ++ a :: l' := by
  rw [← h]
  exact insertIdx_append_right l a (j := 0) l'

theorem findIdx?_eq_some {l : List α} {i : ℕ} (h : l.findIdx? p = some i) :
    ∃ u a v, l = u ++ a :: v ∧ u.length = i ∧ p a ∧ ∀ b ∈ u, ¬ p b := by
  induction l generalizing i with
  | nil => cases h
  | cons a l ih =>
    rw [List.findIdx?_cons] at h
    split at h
    · next ha => exact ⟨[], a, l, rfl, Option.some_inj.1 h, ha, by simp⟩
    · next ha =>
      obtain ⟨j, hj, rfl⟩ := Option.map_eq_some_iff.1 h
      obtain ⟨u, b, v, rfl, rfl, hb, hu⟩ := ih hj
      exact ⟨a :: u, b, v, rfl, rfl, hb, List.forall_mem_cons.2 ⟨ha, hu⟩⟩

/-- The index that a loop from the end of the list finds. -/
def lastIdx? (p : α → Bool) : List α → Option ℕ
  | [] => none
  | a :: l =>
    match lastIdx? p l with
    | some i => some (i + 1)
    | none => if p a then some 0 else none

theorem lastIdx?_eq_none_iff {l : List α} : lastIdx? p l = none ↔ ∀ a ∈ l, ¬ p a := by
  induction l with
  | nil => simp [lastIdx?]
  | cons a l ih =>
    rw [lastIdx?, List.forall_mem_cons, ← ih]
    cases lastIdx? p l with
    | some i => simp
    | none => simp

theorem lastIdx?_eq_some {l : List α} {i : ℕ} (h : lastIdx? p l = some i) :
    ∃ u a v, l = u ++ a :: v ∧ u.length = i ∧ p a ∧ ∀ b ∈ v, ¬ p b := by
  induction l generalizing i with
  | nil => cases h
  | cons a l ih =>
    rw [lastIdx?] at h
    cases hl : lastIdx? p l with
    | some j =>
      rw [hl] at h
      obtain ⟨u, b, v, rfl, rfl, hb, hv⟩ := ih hl
      exact ⟨a :: u, b, v, rfl, Option.some_inj.1 h, hb, hv⟩
    | none =>
      rw [hl] at h
      dsimp only at h
      split at h
      · next ha => exact ⟨[], a, l, rfl, Option.some_inj.1 h, ha, lastIdx?_eq_none_iff.1 hl⟩
      · cases h

theorem lastIdx?_append_cons {u v : List α} {a : α} (ha : p a) (hv : ∀ b ∈ v, ¬ p b) :
    lastIdx? p (u ++ a :: v) = some u.length := by
  induction u with
  | nil => rw [List.nil_append, lastIdx?, lastIdx?_eq_none_iff.2 hv, if_pos ha, List.length_nil]
  | cons b u ih => rw [List.cons_append, lastIdx?, ih, List.length_cons]

end

/-! ## Keys -/

section
variable {κ : Type*} [DecidableEq κ] {f : α → κ} {l : List α}

theorem filter_key (h : (l.map f).Nodup) (k : κ) :
    (l.filter fun a => f a = k) = (l.find? fun a => f a = k).toList := by
  induction l with
  | nil => rfl
  | cons a l ih =>
    obtain ⟨hnot, hnodup⟩ := List.nodup_cons.1 h
    by_cases ha : f a = k
    · have hrest : (l.filter fun a => f a = k) = [] := by
        refine List.filter_eq_nil_iff.2 fun b hb heq => hnot ?_
        rw [ha, ← of_decide_eq_true heq]
        exact List.mem_map_of_mem hb
      rw [List.filter_cons_of_pos (by simpa using ha),
        List.find?_cons_of_pos (by simpa using ha), hrest]
      rfl
    · rw [List.filter_cons_of_neg (by simpa using ha),
        List.find?_cons_of_neg (by simpa using ha), ih hnodup]

theorem filter_key_of_mem (h : (l.map f).Nodup) {a : α} (ha : a ∈ l) :
    (l.filter fun b => f b = f a) = [a] := by
  have hmem : a ∈ l.filter fun b => f b = f a := List.mem_filter.2 ⟨ha, decide_eq_true rfl⟩
  rw [filter_key h, Option.mem_toList] at hmem
  rw [filter_key h, hmem, Option.toList_some]

end

/-! ## Maps -/

section
variable {κ : Type*} [DecidableEq κ] (key : α → Option κ)

/-- An element is put under its key, if it has one. -/
def putKey (kept : κ → Option α) (a : α) : κ → Option α :=
  (key a).elim kept fun k => Function.update kept k (some a)

variable {key} {kept : κ → Option α} {l : List α} {a : α} {k : κ}

theorem putKey_of_none (h : key a = none) : putKey key kept a = kept := by
  rw [putKey, h]
  rfl

theorem putKey_of_some (h : key a = some k) :
    putKey key kept a = Function.update kept k (some a) := by
  rw [putKey, h]
  rfl

/-- What is kept is an element, under its key. -/
theorem mem_of_foldl_putKey (h : l.foldl (putKey key) kept k = some a) :
    kept k = some a ∨ a ∈ l ∧ key a = some k := by
  induction l generalizing kept with
  | nil => exact .inl h
  | cons b l ih =>
    rcases ih h with hkept | ⟨ha, hk⟩
    · cases hb : key b with
      | none =>
        rw [putKey_of_none hb] at hkept
        exact .inl hkept
      | some k' =>
        rw [putKey_of_some hb, Function.update_apply] at hkept
        split at hkept
        · next heq =>
          cases hkept
          exact .inr ⟨List.mem_cons_self, hb.trans (congrArg some heq.symm)⟩
        · exact .inl hkept
    · exact .inr ⟨List.mem_cons_of_mem b ha, hk⟩

/-- A key stays in use. -/
theorem foldl_putKey_ne_none (h : kept k ≠ none ∨ ∃ a ∈ l, key a = some k) :
    l.foldl (putKey key) kept k ≠ none := by
  induction l generalizing kept with
  | nil =>
    rcases h with h | ⟨a, ha, -⟩
    · exact h
    · cases ha
  | cons b l ih =>
    refine ih ?_
    rcases h with h | ⟨a, ha, hk⟩
    · left
      cases hb : key b with
      | none => rwa [putKey_of_none hb]
      | some k' =>
        rw [putKey_of_some hb, Function.update_apply]
        split
        · exact Option.some_ne_none b
        · exact h
    · rcases List.mem_cons.1 ha with rfl | ha
      · left
        rw [putKey_of_some hk, Function.update_self]
        exact Option.some_ne_none a
      · exact .inr ⟨a, ha, hk⟩

/-- **Elements with keys.**  Each of them is kept iff no two have the same key. -/
theorem foldl_putKey_iff (key : α → Option κ) (l : List α) :
    (∀ a ∈ l, key a ≠ none → ∃! k, l.foldl (putKey key) (fun _ => none) k = some a) ↔
      ∀ a ∈ l, ∀ b ∈ l, key a ≠ none → key a = key b → a = b := by
  have hsound {k : κ} {a : α} (h : l.foldl (putKey key) (fun _ => none) k = some a) :
      a ∈ l ∧ key a = some k :=
    (mem_of_foldl_putKey h).resolve_left fun hnone => nomatch hnone
  constructor
  · intro h a ha b hb hne heq
    obtain ⟨k, hk, -⟩ := h a ha hne
    obtain ⟨k', hk', -⟩ := h b hb (heq ▸ hne)
    have hkey : some k = some k' := (hsound hk).2.symm.trans (heq.trans (hsound hk').2)
    cases hkey
    exact Option.some_inj.1 (hk.symm.trans hk')
  · intro h a ha hne
    obtain ⟨k, hk⟩ := Option.ne_none_iff_exists'.1 hne
    have hused : l.foldl (putKey key) (fun _ => none) k ≠ none :=
      foldl_putKey_ne_none (.inr ⟨a, ha, hk⟩)
    obtain ⟨b, hb⟩ := Option.ne_none_iff_exists'.1 hused
    obtain ⟨hbl, hbk⟩ := hsound hb
    have hab : a = b := h a ha b hbl hne (hk.trans hbk.symm)
    refine ⟨k, hab ▸ hb, fun k' hk' => ?_⟩
    exact Option.some_inj.1 ((hsound hk').2.symm.trans hk)

end

end Lib
