/-
  Time of which only a part counts: a set `B` of instants, as whole numbers.

  * `elapsed B a b`: how much of it lies between two instants;
  * `IsEnd B s d e`: an instant, in `B` or at the end of a part of it, at which `d` has just elapsed;
  * `IsEnd.mono`, `IsEnd.unique`, `IsEnd.of_elapsed`;
  * `Computes`: the results of functions with fuel.
-/
import Mathlib.Data.Nat.Count
import Mathlib.Algebra.Order.Group.Unbundled.Int
import Mathlib.Algebra.Ring.Int.Defs
import Mathlib.Tactic.ByContra

namespace Lib

section Elapsed

variable (B : ℤ → Prop) [DecidablePred B]

/-- How many instants of `[a, b)` are in `B`. -/
def elapsed (a b : ℤ) : ℕ := Nat.count (fun k => B (a + k)) (b - a).toNat

variable {a b c : ℤ}

theorem elapsed_add (hab : a ≤ b) (hbc : b ≤ c) :
    elapsed B a b + elapsed B b c = elapsed B a c := by
  obtain ⟨m, rfl⟩ : ∃ m : ℕ, b = a + m := ⟨(b - a).toNat, by omega⟩
  obtain ⟨n, rfl⟩ : ∃ n : ℕ, c = a + m + n := ⟨(c - (a + m)).toNat, by omega⟩
  have hm : (a + m - a).toNat = m := by omega
  have hn : (a + m + n - (a + m)).toNat = n := by omega
  have hmn : (a + m + n - a).toNat = m + n := by omega
  simp only [elapsed, hm, hn, hmn, Nat.count_add]
  simp only [Nat.cast_add, add_assoc]

theorem elapsed_mono (h : b ≤ c) (a : ℤ) : elapsed B a b ≤ elapsed B a c :=
  Nat.count_monotone _ (by omega)

theorem elapsed_anti (h : a ≤ b) (c : ℤ) : elapsed B b c ≤ elapsed B a c := by
  rcases le_or_gt b c with hbc | hcb
  · have := elapsed_add B h hbc
    omega
  · rw [elapsed, show (c - b).toNat = 0 by omega, Nat.count_zero]
    exact Nat.zero_le _

variable {B}

theorem elapsed_of_forall (h : ∀ t, a ≤ t → t < b → B t) : elapsed B a b = (b - a).toNat :=
  Nat.count_iff_forall.2 fun k hk => h (a + k) (by omega) (by omega)

theorem elapsed_eq_zero (h : ∀ t, a ≤ t → t < b → ¬ B t) : elapsed B a b = 0 :=
  Nat.count_iff_forall_not.2 fun k hk => h (a + k) (by omega) (by omega)

theorem elapsed_pos {t : ℤ} (h : B t) (hat : a ≤ t) (htb : t < b) : 0 < elapsed B a b := by
  refine Nat.pos_of_ne_zero (Nat.count_ne_iff_exists.2 ⟨(t - a).toNat, by omega, ?_⟩)
  rwa [show a + ((t - a).toNat : ℤ) = t by omega]

theorem elapsed_le (a b : ℤ) : elapsed B a b ≤ (b - a).toNat := Nat.count_le _

theorem forall_of_elapsed (h : elapsed B a b = (b - a).toNat) : ∀ t, a ≤ t → t < b → B t := by
  intro t hat htb
  have := Nat.count_iff_forall.1 h (t - a).toNat (by omega)
  rwa [show a + ((t - a).toNat : ℤ) = t by omega] at this

/-- Where a cell of length `g` counts as a whole or not at all, whole cells give multiples of `g`. -/
theorem dvd_elapsed {g : ℕ} (hg : 0 < g) (hB : ∀ t t' : ℤ, t / g = t' / g → (B t ↔ B t')) (k : ℤ)
    (n : ℕ) : g ∣ elapsed B (k * g) ((k + n) * g) := by
  have hpos : (0 : ℤ) < g := Int.natCast_pos.2 hg
  induction n with
  | zero =>
    rw [elapsed_eq_zero fun t h₁ h₂ => by rw [Nat.cast_zero, add_zero] at h₂; omega]
    exact Nat.dvd_zero g
  | succ n ih =>
    have hk : k * g ≤ (k + n) * g := Int.mul_le_mul_of_nonneg_right (by omega) hpos.le
    have hs : (k + (n + 1 : ℕ)) * g = (k + n) * g + g := by
      rw [Nat.cast_succ, ← add_assoc, Int.add_mul, one_mul]
    have hcell : ∀ t, (k + n) * g ≤ t → t < (k + n) * g + g → t / g = k + n := fun t h₁ h₂ =>
      (Int.ediv_eq_iff_of_pos hpos).2 ⟨h₁, h₂⟩
    have hdiv := hcell ((k + n) * g) le_rfl (by omega)
    rw [hs, ← elapsed_add B hk (by omega)]
    refine Nat.dvd_add ih ?_
    by_cases hin : B ((k + n) * g)
    · rw [elapsed_of_forall fun t h₁ h₂ => (hB _ _ (hdiv.trans (hcell t h₁ h₂).symm)).1 hin]
      exact ⟨1, by omega⟩
    · rw [elapsed_eq_zero fun t h₁ h₂ => fun h =>
        hin ((hB _ _ (hdiv.trans (hcell t h₁ h₂).symm)).2 h)]
      exact Nat.dvd_zero g

variable (B) in
/-- In `B`, or at the end of a part of it. -/
def Closed (t : ℤ) : Prop := B t ∨ B (t - 1)

variable (B) in
structure IsEnd (s : ℤ) (d : ℕ) (e : ℤ) : Prop where
  le : s ≤ e
  closed : Closed B e
  elapsed : elapsed B s e = d
  /-- Not the beginning of a later part. -/
  last : 0 < d → B (e - 1)

variable {s s' e e' m : ℤ} {d d' k : ℕ}

/-- The duration fits into a part of `B`. -/
theorem IsEnd.within (h : ∀ t, s ≤ t → t < s + d → B t) (h₀ : d = 0 → Closed B s) :
    IsEnd B s d (s + d) where
  le := by omega
  closed := by
    rcases Nat.eq_zero_or_pos d with rfl | hd
    · rw [Nat.cast_zero, add_zero]
      exact h₀ rfl
    · exact .inr (h _ (by omega) (by omega))
  elapsed := by
    rw [elapsed_of_forall h]
    omega
  last hd := h _ (by omega) (by omega)

/-- The duration is counted up to `m` first. -/
theorem IsEnd.of_elapsed (hsm : s ≤ m) (hk : Lib.elapsed B s m = k) (h : IsEnd B m d e)
    (hd : k = 0 ∨ 0 < d) : IsEnd B s (k + d) e where
  le := hsm.trans h.le
  closed := h.closed
  elapsed := by rw [← elapsed_add B hsm h.le, hk, h.elapsed]
  last _ := h.last (by omega)

/-- The rest of the duration, after `m`. -/
theorem IsEnd.rest (h : IsEnd B s (k + d) e) (hsm : s ≤ m) (hk : Lib.elapsed B s m = k)
    (hd : 0 < d) : IsEnd B m d e := by
  have hme : m ≤ e := by
    by_contra hlt
    have := elapsed_mono B (not_le.1 hlt).le s
    rw [h.elapsed, hk] at this
    omega
  have hadd := elapsed_add B hsm hme
  rw [hk, h.elapsed] at hadd
  exact ⟨hme, h.closed, by omega, fun _ => h.last (by omega)⟩

theorem IsEnd.le_of_elapsed (h : IsEnd B s d e) (hd : 0 < d) {t : ℤ} (ht : d ≤ Lib.elapsed B s t) :
    e ≤ t := by
  have hle := h.le
  by_contra hlt
  have hsub : e - 1 < s ∨ s ≤ e - 1 := by omega
  rcases hsub with hlt' | hse
  · have := h.elapsed
    rw [elapsed_eq_zero fun t h₁ h₂ => by omega] at this
    omega
  · have hadd := elapsed_add B hse (show e - 1 ≤ e by omega)
    have hpos := elapsed_pos (h.last hd) (le_refl (e - 1)) (show e - 1 < e by omega)
    have hmono := elapsed_mono B (show t ≤ e - 1 by omega) s
    rw [h.elapsed] at hadd
    omega

theorem IsEnd.unique (h : IsEnd B s d e) (h' : IsEnd B s d e') (hd : 0 < d) : e = e' :=
  le_antisymm (h.le_of_elapsed hd h'.elapsed.ge) (h'.le_of_elapsed hd h.elapsed.ge)

/-- Later starts and longer durations end later, those of the same start and duration apart. -/
theorem IsEnd.mono (h : IsEnd B s d e) (h' : IsEnd B s' d' e') (hs : s ≤ s') (hd : d ≤ d') :
    e ≤ e' ∨ s = s' ∧ d = d' := by
  by_contra hne
  have hanti := elapsed_anti B hs e'
  rw [h'.elapsed] at hanti
  rcases Nat.eq_zero_or_pos d with rfl | hpos
  · have hmono := elapsed_mono B (show e' ≤ e by omega) s
    have hs' := h'.le
    rw [h.elapsed] at hmono
    rcases h'.closed with hin | hin
    · have := elapsed_pos hin (show s ≤ e' by omega) (show e' < e by omega)
      rw [h.elapsed] at this
      omega
    · have hlt : e' - 1 < s := by
        by_contra hge
        have := elapsed_pos hin (show s ≤ e' - 1 by omega) (show e' - 1 < e by omega)
        rw [h.elapsed] at this
        omega
      omega
  · have := h.le_of_elapsed hpos (hd.trans hanti)
    omega

end Elapsed

/-! ## Enough fuel -/

/-- With enough fuel, the result is `a`. -/
def Computes {α : Type*} (f : ℕ → Option α) (a : α) : Prop := ∃ n₀, ∀ n, n₀ ≤ n → f n = some a

theorem Computes.unique {α : Type*} {f : ℕ → Option α} {a b : α} (ha : Computes f a)
    (hb : Computes f b) : a = b := by
  obtain ⟨n, hn⟩ := ha
  obtain ⟨m, hm⟩ := hb
  exact Option.some.inj ((hn (max n m) (le_max_left n m)).symm.trans (hm _ (le_max_right n m)))

/-- One more step needs one more unit of fuel. -/
theorem Computes.succ {α : Type*} {f g : ℕ → Option α} {a : α} (h : Computes f a)
    (hg : ∀ n, g (n + 1) = f n) : Computes g a := by
  obtain ⟨n₀, hn₀⟩ := h
  refine ⟨n₀ + 1, fun n hn => ?_⟩
  obtain ⟨n, rfl⟩ : ∃ k, n = k + 1 := ⟨n - 1, by omega⟩
  rw [hg, hn₀ n (by omega)]

theorem Computes.bind {α β : Type*} {f : ℕ → Option α} {g : α → ℕ → Option β} {a : α} {b : β}
    (hf : Computes f a) (hg : Computes (g a) b) : Computes (fun n => (f n).bind (g · n)) b := by
  obtain ⟨n, hn⟩ := hf
  obtain ⟨m, hm⟩ := hg
  refine ⟨max n m, fun k hk => ?_⟩
  show (f k).bind (g · k) = some b
  rw [hn k ((le_max_left n m).trans hk)]
  exact hm k ((le_max_right n m).trans hk)

theorem Computes.const {α : Type*} (a : α) : Computes (fun _ => some a) a := ⟨0, fun _ _ => rfl⟩

end Lib
