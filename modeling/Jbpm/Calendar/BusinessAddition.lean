/-
  Adding a duration of business time, from a date in a day part.

  * `addInDayPart_ends`: from a whole minute, the only error are the days that are skipped after a
    day part that ends at midnight;
  * `addInDayPart_inside`, `addInDayPart_gap`: the seconds of the date are added to every day part
    of its day, and lost on the way to the next day.
-/
import Jbpm.Calendar.BusinessTime

namespace Jbpm

namespace Calendar

namespace BusinessCalendar

open Lib

variable (c : BusinessCalendar)

/-! ## Skipped days -/

def EndsAtMidnight (D : ℤ) : Prop :=
  c.isHoliday (instant D 0) = false ∧ ∃ p ∈ c.weekDays (D % 7), p.stop = 1440

/-- The end of the last day part is on the next day, which `findStartOfNextDay` then skips. -/
def Skips (D : ℤ) : Prop := c.EndsAtMidnight D ∧ c.works (D + 1)

/-- The duration is over before a working day is skipped. -/
def NoSkip (s : ℤ) (d : ℕ) : Prop :=
  ∀ D, s < instant D 1440 → c.Skips D → d ≤ elapsed c.BusinessTime s (instant D 1440)

/-- A result of the addition: too late by whole minutes of business time. -/
structure Ends (s : ℤ) (d : ℕ) (e : ℤ) : Prop where
  le : s ≤ e
  closed : Closed c.BusinessTime e
  last : 0 < d → c.BusinessTime (e - 1)
  elapsed : ∃ n : ℕ, Lib.elapsed c.BusinessTime s e = d + n * 60000 ∧ (n = 0 ↔ c.NoSkip s d)

variable {c} {s m e x x₀ D : ℤ} {d k r : ℕ}

theorem noSkip_add_iff (hsm : s ≤ m) (hk : elapsed c.BusinessTime s m = k)
    (hno : ∀ E, s < instant E 1440 → instant E 1440 ≤ m → ¬ c.Skips E) :
    c.NoSkip s (k + r) ↔ c.NoSkip m r := by
  constructor
  · intro h E hE hskip
    have := h E (by omega) hskip
    rw [← elapsed_add c.BusinessTime hsm hE.le] at this
    omega
  · intro h E hE hskip
    have hmE : m < instant E 1440 := by
      by_contra hlt
      exact hno E hE (by omega) hskip
    have := h E hmE hskip
    rw [← elapsed_add c.BusinessTime hsm hmE.le]
    omega

/-- No working day is skipped on the way to `m`. -/
theorem Ends.of_elapsed (hsm : s ≤ m) (hk : Lib.elapsed c.BusinessTime s m = k)
    (hno : ∀ E, s < instant E 1440 → instant E 1440 ≤ m → ¬ c.Skips E) (h : c.Ends m r e)
    (hr : k = 0 ∨ 0 < r) : c.Ends s (k + r) e where
  le := hsm.trans h.le
  closed := h.closed
  last _ := h.last (by omega)
  elapsed := by
    obtain ⟨n, hn, hiff⟩ := h.elapsed
    refine ⟨n, ?_, hiff.trans (noSkip_add_iff hsm hk hno).symm⟩
    rw [← elapsed_add _ hsm h.le]
    omega

/-- A working day is. -/
theorem Ends.of_skips {n : ℕ} (hs : s < instant D 1440) (hskip : c.Skips D)
    (hk : Lib.elapsed c.BusinessTime s (instant D 1440) = k) (hm : instant D 1440 ≤ m)
    (hn : Lib.elapsed c.BusinessTime (instant D 1440) m = n * 60000) (hpos : 0 < n)
    (h : c.Ends m r e) (hr : 0 < r) : c.Ends s (k + r) e where
  le := (hs.le.trans hm).trans h.le
  closed := h.closed
  last _ := h.last hr
  elapsed := by
    obtain ⟨n', hn', -⟩ := h.elapsed
    refine ⟨n + n', ?_, iff_of_false (by omega) fun hno => ?_⟩
    · rw [← elapsed_add _ (hs.le.trans hm) h.le, ← elapsed_add _ hs.le hm]
      omega
    · have := hno D hs hskip
      omega

theorem dvd_elapsed_instant {m n E : ℤ} (h : instant D m ≤ instant E n) :
    60000 ∣ elapsed c.BusinessTime (instant D m) (instant E n) := by
  have hdvd := dvd_elapsed (B := c.BusinessTime) (g := 60000) (by omega)
    (fun _ _ => c.businessTime_congr) (D * 1440 + m) (E * 1440 + n - (D * 1440 + m)).toNat
  simp only [instant, dayMillis, minuteMillis] at h ⊢
  convert hdvd using 2 <;> push_cast <;> omega

/-! ## The next day -/

theorem not_businessTime_of_first {E D' t : ℤ} {p : DayPart} (h : c.FirstWorking E D')
    (hp : c.dayPart? (D' % 7) 0 = some p) (h₁ : instant E 0 ≤ t) (h₂ : t < instant D' p.start) :
    ¬ c.BusinessTime t := by
  intro hb
  have hle : E ≤ dayOf t ∧ dayOf t ≤ D' := by
    have := p.start_lt_stop
    have := p.stop_le
    simp only [instant, dayOf, dayMillis, minuteMillis] at *
    omega
  rcases hle.2.lt_or_eq with hlt | heq
  · exact h.first _ hle.1 hlt (hb.works rfl)
  · refine not_businessTime_before (by rw [weekday, heq]) hp ?_ hb
    have ht := eq_instant t
    have := seconds_range t
    rw [heq] at ht
    simp only [instant, dayMillis, minuteMillis] at *
    omega

/-- From the end `x₀` of the business time of a day. The date is `x`. -/
theorem exists_nextDay (hs : dayOf s = D) (hsx : s ≤ x₀) (hx₀ : x₀ ≤ instant D 1440)
    (hk : elapsed c.BusinessTime s x₀ = k)
    (hgap : ∀ t, x₀ ≤ t → t < instant D 1440 → ¬ c.BusinessTime t)
    (hx : dayOf x = D ∧ ¬ c.EndsAtMidnight D ∨
      dayOf x = D + 1 ∧ c.EndsAtMidnight D ∧ x₀ = instant D 1440) :
    ∃ D' p, c.isHoliday (instant D' 0) = false ∧ c.dayPart? (D' % 7) 0 = some p ∧
      Computes (fun n => c.findNextDayPartStart n (weekday (c.findStartOfNextDay x)) 0
        (c.findStartOfNextDay x)) (instant D' p.start, D' % 7, 0) ∧
      instant D 1440 ≤ instant D' p.start ∧
      ∀ r e, 0 < r ∨ k = 0 ∧ ¬ c.EndsAtMidnight D → c.Ends (instant D' p.start) r e →
        c.Ends s (k + r) e := by
  obtain ⟨D', hfirst⟩ := c.exists_firstWorking (dayOf x + 1)
  obtain ⟨p, hp, hc⟩ := findNextDayPartStart_first hfirst
  have hsD : s < instant D 1440 := by
    simp only [instant, dayOf, dayMillis, minuteMillis] at *
    omega
  have hle := hfirst.le
  have hDp : instant D 1440 ≤ instant D' p.start := by
    have := p.start_nonneg
    simp only [instant, dayMillis, minuteMillis]
    omega
  refine ⟨D', p, hfirst.works.1, hp, by rwa [findStartOfNextDay_eq], hDp, fun r e hr h => ?_⟩
  by_cases hskip : c.Skips D
  · obtain ⟨hx', -, rfl⟩ := hx.resolve_left fun hx => hx.2 hskip.1
    obtain ⟨n, hn⟩ := dvd_elapsed_instant (c := c) hDp
    refine h.of_skips hsD hskip hk hDp (n := n) (by omega) ?_
      (hr.resolve_right fun hr => hr.2 hskip.1)
    -- the first day part of the next day
    obtain ⟨hno, hne⟩ := hskip.2
    obtain ⟨q, hq⟩ := List.exists_mem_of_ne_nil _ hne
    obtain ⟨i, hi⟩ := List.getElem?_of_mem hq
    have hb := businessTime_of_dayPart hno hi le_rfl (by
      have := q.start_lt_stop
      simp only [instant, minuteMillis]
      omega)
    have := elapsed_pos hb (a := instant D 1440) (b := instant D' p.start) (by
      rw [instant_add_day]
      exact instant_le_instant q.start_nonneg) (by
      have := q.start_lt_stop
      have := q.stop_le
      have := p.start_nonneg
      simp only [instant, dayMillis, minuteMillis]
      omega)
    omega
  · -- the first working day after `D`
    have hfirst' : c.FirstWorking (D + 1) D' := by
      refine ⟨by omega, hfirst.works, fun E hE hlt hw => ?_⟩
      rcases hx with ⟨hx, -⟩ | ⟨hx, hmid, -⟩
      · exact hfirst.first E (by omega) hlt hw
      · rcases hE.eq_or_lt with rfl | hE
        · exact hskip ⟨hmid, hw⟩
        · exact hfirst.first E (by omega) hlt hw
    have hzero : elapsed c.BusinessTime x₀ (instant D' p.start) = 0 := by
      refine elapsed_eq_zero fun t h₁ h₂ => ?_
      rcases lt_or_ge t (instant D 1440) with hlt | hge
      · exact hgap t h₁ hlt
      · exact not_businessTime_of_first hfirst' hp (instant_add_day ▸ hge) h₂
    refine h.of_elapsed (hsx.trans (hx₀.trans hDp)) ?_ (fun E hE hEm hs' => ?_) (by omega)
    · rw [← elapsed_add _ hsx (hx₀.trans hDp), hk, hzero]
      rfl
    · have hlt : D ≤ E ∧ E < D' := by
        have := p.start_lt_stop
        have := p.stop_le
        simp only [instant, dayOf, dayMillis, minuteMillis] at *
        omega
      rcases hlt.1.eq_or_lt with rfl | hDE
      · exact hskip hs'
      · refine hfirst'.first E (by omega) hlt.2 ⟨hs'.1.1, fun hnil => ?_⟩
        obtain ⟨q, hq, -⟩ := hs'.1.2
        rw [hnil] at hq
        cases hq

/-! ## From a whole minute -/

/-- The duration is over in the day part. -/
theorem Ends.within {i : ℕ} {p : DayPart} (hD : c.isHoliday (instant D 0) = false)
    (hp : c.dayPart? (D % 7) i = some p) (h₁ : instant D p.start ≤ s)
    (h₂ : s + d ≤ instant D p.stop) : c.Ends s d (s + d) := by
  have hin : ∀ t, instant D p.start ≤ t → t < instant D p.stop → c.BusinessTime t :=
    fun t => businessTime_of_dayPart hD hp
  have hlt : instant D p.start < instant D p.stop := by
    have := p.start_lt_stop
    simp only [instant, minuteMillis]
    omega
  have hend : IsEnd c.BusinessTime s d (s + d) := .within (fun t ht ht' => hin t (by omega) (by omega))
    fun hd => by
      rcases h₁.eq_or_lt with rfl | h₁
      · exact .inl (hin _ le_rfl hlt)
      · exact .inr (hin _ (by omega) (by omega))
  refine ⟨hend.le, hend.closed, hend.last, 0, by rw [hend.elapsed]; rfl, iff_of_true rfl ?_⟩
  intro E hE hskip
  have hle : s + d ≤ instant E 1440 := by
    have := p.stop_le
    have := p.start_nonneg
    simp only [instant, dayMillis, minuteMillis] at *
    omega
  exact hend.elapsed.ge.trans (elapsed_mono _ hle s)

theorem endsAtMidnight_iff {i : ℕ} {p : DayPart} (hD : c.isHoliday (instant D 0) = false)
    (hp : c.dayPart? (D % 7) i = some p) (hnone : c.dayPart? (D % 7) (i + 1) = none) :
    c.EndsAtMidnight D ↔ p.stop = 1440 := by
  refine ⟨fun ⟨_, q, hq, hstop⟩ => ?_, fun h => ⟨hD, p, List.mem_of_getElem? hp, h⟩⟩
  obtain ⟨j, hj⟩ := List.getElem?_of_mem hq
  have hlt : j < i + 1 := (List.getElem?_eq_some_iff.1 hj).1.trans_le
    (List.getElem?_eq_none_iff.1 hnone)
  have := p.start_lt_stop
  have := p.stop_le
  rcases Nat.lt_succ_iff_lt_or_eq.1 hlt with hlt | rfl
  · have := c.stop_le_start (w := D % 7) hj hp hlt
    omega
  · obtain rfl : p = q := Option.some.inj (hp.symm.trans hj)
    exact hstop

section AddInDayPart

variable {w date duration : ℤ} {i : ℕ} {p : DayPart}

theorem addInDayPart_last (hp : c.dayPart? w i = some p)
    (h : duration ≤ p.millisInThisDayPart date) :
    Computes (fun n => c.addInDayPart n w i date duration) (date + duration) := by
  refine (Computes.const _).succ fun n => ?_
  rw [addInDayPart, hp]
  exact if_pos h

theorem addInDayPart_next {w' : ℤ} {j : ℕ} (hp : c.dayPart? w i = some p)
    (h : p.millisInThisDayPart date < duration)
    (hnext : Computes (fun n => c.findNextDayPartStart n w (i + 1)
      (date + p.millisInThisDayPart date)) (m, w', j))
    (hadd : Computes (fun n => c.addInDayPart n w' j m (duration - p.millisInThisDayPart date)) e) :
    Computes (fun n => c.addInDayPart n w i date duration) e := by
  refine (hnext.bind (g := fun result n => c.addInDayPart n result.2.1 result.2.2 result.1
    (duration - p.millisInThisDayPart date)) hadd).succ fun n => ?_
  rw [addInDayPart, hp]
  exact if_neg (not_le.2 h)

end AddInDayPart

/-- The next day part of the day begins with the seconds of the date. -/
theorem findNextDayPartStart_seconds {w σ : ℤ} {i : ℕ} {p q : DayPart}
    (hσ : 0 ≤ σ ∧ σ < minuteMillis) (hp : c.dayPart? w i = some p)
    (hq : c.dayPart? w (i + 1) = some q) :
    Computes (fun n => c.findNextDayPartStart n w (i + 1) (instant D p.stop + σ))
      (instant D q.start + σ, w, i + 1) := by
  have hpq := c.stop_le_start hp hq (Nat.lt_succ_self i)
  have := p.start_nonneg
  have := p.start_lt_stop
  have := q.start_lt_stop
  have := q.stop_le
  have hday := dayOf_instant (D := D) (m := p.stop) (by omega) (by omega) hσ
  have hmin := minuteOfDay_instant (D := D) (m := p.stop) (by omega) (by omega) hσ
  have hgo := findNextDayPartStart_here hq ((q.isStartAfter_iff _).2 (hmin.trans_le hpq))
  rwa [q.getStartTime_eq, hday, mod_instant hσ] at hgo

section Part

variable {i : ℕ} {p q : DayPart} (hD : c.isHoliday (instant D 0) = false)
  (hp : c.dayPart? (D % 7) i = some p)

include hD hp

/-- The rest of a day part. -/
theorem elapsed_dayPart (h : instant D p.start ≤ s) :
    elapsed c.BusinessTime s (instant D p.stop) = (instant D p.stop - s).toNat :=
  elapsed_of_forall fun _ ht ht' => businessTime_of_dayPart hD hp (h.trans ht) ht'

omit hD in
/-- No business time between this day part and the next one. -/
theorem elapsed_between (hq : c.dayPart? (D % 7) (i + 1) = some q) :
    elapsed c.BusinessTime (instant D p.stop) (instant D q.start) = 0 := by
  refine elapsed_eq_zero fun t ht ht' => ?_
  have := p.start_nonneg
  have := p.start_lt_stop
  have := q.start_lt_stop
  have := q.stop_le
  obtain ⟨hday, hm⟩ := between_instants (by omega) (by omega) ht ht'
  exact not_businessTime_between (by rw [weekday, hday]) hp hq hm.1 hm.2

omit hD in
/-- None after the last day part of the day. -/
theorem not_businessTime_rest (hnone : c.dayPart? (D % 7) (i + 1) = none) {t : ℤ}
    (ht : instant D p.stop ≤ t) (ht' : t < instant D 1440) : ¬ c.BusinessTime t := by
  have := p.start_nonneg
  have := p.start_lt_stop
  obtain ⟨hday, hm⟩ := between_instants (by omega) le_rfl ht ht'
  exact not_businessTime_after (by rw [weekday, hday]) hp hnone hm.1

/-- After the last one, the next day. -/
theorem exists_nextDay_of_last {σ : ℤ} (hσ : 0 ≤ σ ∧ σ < minuteMillis)
    (hnone : c.dayPart? (D % 7) (i + 1) = none) (hs : dayOf s = D) (hsx : s ≤ instant D p.stop)
    (hk : elapsed c.BusinessTime s (instant D p.stop) = k) :
    ∃ D' q, c.isHoliday (instant D' 0) = false ∧ c.dayPart? (D' % 7) 0 = some q ∧
      Computes (fun n => c.findNextDayPartStart n (D % 7) (i + 1) (instant D p.stop + σ))
        (instant D' q.start, D' % 7, 0) ∧
      ∀ r e, 0 < r → c.Ends (instant D' q.start) r e → c.Ends s (k + r) e := by
  have hmid := endsAtMidnight_iff hD hp hnone
  have hstop := p.stop_le
  have := p.start_nonneg
  have := p.start_lt_stop
  have hday : dayOf (instant D p.stop + σ) = D ∧ ¬ c.EndsAtMidnight D ∨
      dayOf (instant D p.stop + σ) = D + 1 ∧ c.EndsAtMidnight D ∧
        instant D p.stop = instant D 1440 := by
    rcases hstop.lt_or_eq with hlt | heq
    · exact .inl ⟨dayOf_instant (by omega) hlt hσ, fun h => by rw [hmid] at h; omega⟩
    · exact .inr ⟨heq ▸ dayOf_midnight hσ, hmid.2 heq, by rw [heq]⟩
  obtain ⟨D', q, hno, hq, hc, -, hends⟩ := exists_nextDay hs hsx (instant_le_instant hstop) hk
    (fun t ht ht' => not_businessTime_rest hp hnone ht ht') hday
  exact ⟨D', q, hno, hq, findNextDayPartStart_nextDay hnone hc, fun r e hr => hends r e (.inl hr)⟩

/-- What follows on a day part, from a whole minute of it. -/
theorem exists_next (h₁ : p.start ≤ m) (h₂ : m ≤ p.stop) (hm : m < 1440) :
    ∃ D' j q, c.isHoliday (instant D' 0) = false ∧ c.dayPart? (D' % 7) j = some q ∧
      Computes (fun n => c.findNextDayPartStart n (D % 7) (i + 1) (instant D p.stop))
        (instant D' q.start, D' % 7, j) ∧
      ∀ r e, 0 < r → c.Ends (instant D' q.start) r e →
        c.Ends (instant D m) ((instant D p.stop - instant D m).toNat + r) e := by
  have hk := elapsed_dayPart hD hp (instant_le_instant (D := D) h₁)
  have hmp := instant_le_instant (D := D) h₂
  have hstart := p.start_nonneg
  cases hq : c.dayPart? (D % 7) (i + 1) with
  | some q =>
    have hpq := c.stop_le_start hp hq (Nat.lt_succ_self i)
    have hql := q.start_lt_stop
    have hqs := q.stop_le
    have hgo := findNextDayPartStart_seconds (D := D) (seconds_range 0) hp hq
    rw [Int.zero_emod, add_zero, add_zero] at hgo
    refine ⟨D, i + 1, q, hD, hq, hgo, fun r e hr h => ?_⟩
    refine h.of_elapsed (hmp.trans (instant_le_instant hpq)) ?_ (fun E hE hEq _ => ?_) (.inr hr)
    · rw [← elapsed_add _ hmp (instant_le_instant hpq), hk, elapsed_between hp hq]
      rfl
    · simp only [instant, dayMillis, minuteMillis] at hE hEq
      omega
  | none =>
    have hs := dayOf_instant (D := D) (m := m) (by omega) hm (seconds_range 0)
    rw [Int.zero_emod, add_zero] at hs
    obtain ⟨D', q, hno, hq', hc, hends⟩ :=
      exists_nextDay_of_last hD hp (seconds_range 0) hq hs hmp hk
    rw [Int.zero_emod, add_zero] at hc
    exact ⟨D', 0, q, hno, hq', hc, hends⟩

end Part

theorem millis_instant (p : DayPart) (h₀ : 0 ≤ m) (h₁ : m < 1440) :
    p.millisInThisDayPart (instant D m) = instant D p.stop - instant D m := by
  have hmin := minuteOfDay_instant (D := D) h₀ h₁ (seconds_range 0)
  rw [Int.zero_emod, add_zero] at hmin
  rw [p.millisInThisDayPart_eq, hmin]
  simp only [instant, minuteMillis]
  omega

/-- The remaining duration is counted from the next day part. -/
theorem addInDayPart_step {i : ℕ} {p : DayPart} (hD : c.isHoliday (instant D 0) = false)
    (hp : c.dayPart? (D % 7) i = some p) (h₁ : p.start ≤ m) (h₂ : m ≤ p.stop) (hm : m < 1440)
    (hd : instant D p.stop - instant D m < d) :
    ∃ D' j q, c.isHoliday (instant D' 0) = false ∧ c.dayPart? (D' % 7) j = some q ∧
      ∀ e, Computes (fun n => c.addInDayPart n (D' % 7) j (instant D' q.start)
          (d - (instant D p.stop - instant D m).toNat : ℕ)) e →
        c.Ends (instant D' q.start) (d - (instant D p.stop - instant D m).toNat) e →
        Computes (fun n => c.addInDayPart n (D % 7) i (instant D m) d) e ∧
          c.Ends (instant D m) d e := by
  have hle := instant_le_instant (D := D) h₂
  have hmil := millis_instant (D := D) p (p.start_nonneg.trans h₁) hm
  obtain ⟨D', j, q, hno, hq, hc, hends⟩ := exists_next hD hp h₁ h₂ hm
  refine ⟨D', j, q, hno, hq, fun e he hend => ⟨?_, ?_⟩⟩
  · have hnext : Computes (fun n => c.findNextDayPartStart n (D % 7) (i + 1)
        (instant D m + p.millisInThisDayPart (instant D m))) (instant D' q.start, D' % 7, j) := by
      rwa [hmil, add_sub_cancel]
    refine addInDayPart_next hp (hmil ▸ hd) hnext ?_
    rwa [hmil, show (d : ℤ) - (instant D p.stop - instant D m) =
      (d - (instant D p.stop - instant D m).toNat : ℕ) by omega]
  · have := hends _ e (by omega) hend
    rwa [Nat.add_sub_cancel' (by omega)] at this

/-- From a whole minute of a day part, before its end. -/
theorem addInDayPart_ends (d : ℕ) {i : ℕ} {p : DayPart} (hD : c.isHoliday (instant D 0) = false)
    (hp : c.dayPart? (D % 7) i = some p) (h₁ : p.start ≤ m) (h₂ : m < p.stop) :
    ∃ e, Computes (fun n => c.addInDayPart n (D % 7) i (instant D m) d) e ∧
      c.Ends (instant D m) d e := by
  induction d using Nat.strong_induction_on generalizing D m i p with
  | h d ih =>
    have := p.start_nonneg
    have := p.stop_le
    have hmil := millis_instant (D := D) (m := m) p (by omega) (by omega)
    rcases le_or_gt (d : ℤ) (instant D p.stop - instant D m) with hle | hgt
    · exact ⟨_, addInDayPart_last hp (hmil ▸ hle),
        .within hD hp (instant_le_instant h₁) (by omega)⟩
    · have hlt : instant D m < instant D p.stop := by
        simp only [instant, minuteMillis]
        omega
      obtain ⟨D', j, q, hno, hq, hstep⟩ := addInDayPart_step hD hp h₁ h₂.le (by omega) hgt
      obtain ⟨e, he, hend⟩ := ih (d - (instant D p.stop - instant D m).toNat) (by omega) hno hq
        le_rfl q.start_lt_stop
      exact ⟨e, hstep e he hend⟩

/-- From a whole minute of a day part, or from its end. -/
theorem addInDayPart_ends_of_le (d : ℕ) {i : ℕ} {p : DayPart}
    (hD : c.isHoliday (instant D 0) = false) (hp : c.dayPart? (D % 7) i = some p)
    (h₁ : p.start ≤ m) (h₂ : m ≤ p.stop) (hm : m < 1440) :
    ∃ e, Computes (fun n => c.addInDayPart n (D % 7) i (instant D m) d) e ∧
      c.Ends (instant D m) d e := by
  have hmil := millis_instant (D := D) (m := m) p (p.start_nonneg.trans h₁) hm
  rcases le_or_gt (d : ℤ) (instant D p.stop - instant D m) with hle | hgt
  · exact ⟨_, addInDayPart_last hp (hmil ▸ hle), .within hD hp (instant_le_instant h₁) (by omega)⟩
  · obtain ⟨D', j, q, hno, hq, hstep⟩ := addInDayPart_step hD hp h₁ h₂ hm hgt
    obtain ⟨e, he, hend⟩ := addInDayPart_ends _ hno hq le_rfl q.start_lt_stop
    exact ⟨e, hstep e he hend⟩

/-! ## With seconds -/

variable (c) in
/-- A result of the addition, and when it is the right one. -/
structure Outcome (s : ℤ) (d : ℕ) (e : ℤ) (P : Prop) : Prop where
  le : s ≤ e
  isEnd : P → IsEnd c.BusinessTime s d e
  holds : Closed c.BusinessTime e → elapsed c.BusinessTime s e = d → P

theorem Ends.outcome (h : c.Ends s d e) : c.Outcome s d e (c.NoSkip s d) where
  le := h.le
  isEnd hP := by
    obtain ⟨n, hn, hiff⟩ := h.elapsed
    exact ⟨h.le, h.closed, by rw [hn, hiff.2 hP, Nat.zero_mul, Nat.add_zero], h.last⟩
  holds _ he := by
    obtain ⟨n, hn, hiff⟩ := h.elapsed
    exact hiff.1 (by omega)

theorem Outcome.of_elapsed {P Q : Prop} (hsm : s ≤ m) (hk : elapsed c.BusinessTime s m = k)
    (h : c.Outcome m r e P) (hPQ : Q ↔ P) (hr : k = 0 ∨ 0 < r) : c.Outcome s (k + r) e Q where
  le := hsm.trans h.le
  isEnd hQ := (h.isEnd (hPQ.1 hQ)).of_elapsed hsm hk hr
  holds hc he := by
    rw [← elapsed_add _ hsm h.le] at he
    exact hPQ.2 (h.holds hc (by omega))

theorem Outcome.congr {P Q : Prop} (h : c.Outcome s d e P) (hPQ : Q ↔ P) : c.Outcome s d e Q :=
  ⟨h.le, fun hQ => h.isEnd (hPQ.1 hQ), fun hc he => hPQ.2 (h.holds hc he)⟩

variable (c) in
/-- From business time: the duration is over on the same day, and before a gap in business time or
later after it than the seconds of the start. -/
def Inside (s : ℤ) (d : ℕ) : Prop :=
  ∃ e, e ≤ instant (dayOf s) 1440 + s % minuteMillis ∧ IsEnd c.BusinessTime s d e ∧
    ((∀ t, s ≤ t → t < e → c.BusinessTime t) ∨
      ∀ t, e - 1 - s % minuteMillis ≤ t → t < e → c.BusinessTime t)

variable (c) in
/-- From outside of business time: the duration is longer than the rest of the day. -/
def Later (s : ℤ) (d : ℕ) : Prop :=
  elapsed c.BusinessTime s (instant (dayOf s) 1440) < d ∧ c.NoSkip s d

theorem millis_eq (p : DayPart) (hx : dayOf x = D) :
    p.millisInThisDayPart x = instant D p.stop + x % minuteMillis - x := by
  have := eq_instant x
  rw [hx] at this
  rw [p.millisInThisDayPart_eq]
  simp only [instant, minuteMillis] at *
  omega

/-- No day ends between two instants of a day. -/
theorem not_midnight_between {E : ℤ} (hs : dayOf s = D) (hm : dayOf m = D)
    (h : s < instant E 1440) : ¬ instant E 1440 ≤ m := by
  simp only [instant, dayOf, dayMillis, minuteMillis] at *
  omega

theorem lt_midnight (hs : dayOf s = D) : s < instant D 1440 := by
  simp only [instant, dayOf, dayMillis, minuteMillis] at *
  omega

theorem later_add_iff (hs : dayOf s = D) (hm : dayOf m = D) (hsm : s ≤ m)
    (hk : elapsed c.BusinessTime s m = k) : c.Later s (k + r) ↔ c.Later m r := by
  rw [Later, Later, noSkip_add_iff hsm hk fun E hE hEm => absurd hEm (not_midnight_between hs hm hE),
    hs, hm, ← elapsed_add _ hsm (lt_midnight hm).le, hk]
  exact and_congr_left' (by omega)

/-- From outside of business time, with seconds: from the first day part on, the seconds count. -/
theorem addInDayPart_gap (d : ℕ) {σ : ℤ} {i : ℕ} {p : DayPart} (hpos : 0 < σ)
    (hσ : σ < minuteMillis) (hD : c.isHoliday (instant D 0) = false)
    (hp : c.dayPart? (D % 7) i = some p) :
    ∃ e, Computes (fun n => c.addInDayPart n (D % 7) i (instant D p.start + σ) d) e ∧
      c.Outcome (instant D p.start) d e (c.Later (instant D p.start) d) := by
  induction d using Nat.strong_induction_on generalizing i p with
  | h d ih =>
    have h₀ := p.start_nonneg
    have h₁ := p.start_lt_stop
    have h₂ := p.stop_le
    have hday := dayOf_instant (D := D) (m := p.start) h₀ (by omega) ⟨hpos.le, hσ⟩
    have hstart := dayOf_instant (D := D) (m := p.start) h₀ (by omega) (seconds_range 0)
    rw [Int.zero_emod, add_zero] at hstart
    have hmil := millis_eq p hday
    rw [mod_instant ⟨hpos.le, hσ⟩] at hmil
    have hlen : instant D p.start + minuteMillis ≤ instant D p.stop := by
      simp only [instant, minuteMillis]
      omega
    have hk := elapsed_dayPart hD hp (le_refl (instant D p.start))
    rcases le_or_gt (d : ℤ) (instant D p.stop - instant D p.start) with hle | hgt
    · refine ⟨_, addInDayPart_last hp (by omega), by omega, fun hlater => ?_, fun hc he => ?_⟩
      · -- the rest of the day is at least this day part
        obtain ⟨hlt, -⟩ := hlater
        rw [hstart] at hlt
        have := elapsed_mono c.BusinessTime (instant_le_instant (D := D) h₂) (instant D p.start)
        omega
      · exfalso
        rcases le_or_gt (instant D p.start + σ + d) (instant D p.stop) with hin | hout
        · rw [elapsed_of_forall fun t ht ht' =>
            businessTime_of_dayPart hD hp ht (ht'.trans_le hin)] at he
          omega
        · -- just after the end of the day part
          rw [← elapsed_add _ (instant_le_instant h₁.le) hout.le, hk] at he
          have hcell : ∀ t, instant D p.stop ≤ t → t ≤ instant D p.start + σ + d →
              ¬ c.BusinessTime t := fun t ht ht' hb => by
            have hcell : t / (60000 : ℕ) = instant D p.stop / (60000 : ℕ) := by
              simp only [instant, dayMillis, minuteMillis] at *
              omega
            have := elapsed_pos ((c.businessTime_congr hcell).1 hb) le_rfl hout
            omega
          rcases hc with hc | hc
          · exact hcell _ hout.le le_rfl hc
          · exact hcell _ (by omega) (by omega) hc
    · have hnext : instant D p.start + σ + p.millisInThisDayPart (instant D p.start + σ) =
          instant D p.stop + σ := by omega
      have hrem : (d : ℤ) - p.millisInThisDayPart (instant D p.start + σ) =
          (d - (instant D p.stop - instant D p.start).toNat : ℕ) := by omega
      have hadd : (instant D p.stop - instant D p.start).toNat +
          (d - (instant D p.stop - instant D p.start).toNat) = d := by omega
      cases hq : c.dayPart? (D % 7) (i + 1) with
      | some q =>
        have hpq := c.stop_le_start hp hq (Nat.lt_succ_self i)
        have hql := q.start_lt_stop
        have hqs := q.stop_le
        obtain ⟨e, he, hend⟩ := ih (d - (instant D p.stop - instant D p.start).toNat) (by omega) hq
        refine ⟨e, addInDayPart_next hp (by omega)
          (hnext ▸ findNextDayPartStart_seconds ⟨hpos.le, hσ⟩ hp hq) (hrem ▸ he), ?_⟩
        have hqday := dayOf_instant (D := D) (m := q.start) (by omega) (by omega) (seconds_range 0)
        rw [Int.zero_emod, add_zero] at hqday
        have hsm := instant_le_instant (D := D) h₁.le
        have hkq := elapsed_add c.BusinessTime hsm (instant_le_instant hpq)
        rw [hk, elapsed_between hp hq, add_zero] at hkq
        have hout := hend.of_elapsed (hsm.trans (instant_le_instant hpq)) hkq.symm
          (later_add_iff hstart hqday (hsm.trans (instant_le_instant hpq)) hkq.symm) (.inr (by omega))
        rwa [hadd] at hout
      | none =>
        obtain ⟨D', q, hno, hq', hc, hends⟩ := exists_nextDay_of_last hD hp ⟨hpos.le, hσ⟩ hq hstart
          (instant_le_instant h₁.le) hk
        obtain ⟨e, he, hend⟩ := addInDayPart_ends
          (d - (instant D p.stop - instant D p.start).toNat) hno hq' le_rfl q.start_lt_stop
        refine ⟨e, addInDayPart_next hp (by omega) (hnext ▸ hc) (hrem ▸ he), ?_⟩
        have hout := (hends _ _ (by omega) hend).outcome
        rw [hadd] at hout
        refine hout.congr (and_iff_right ?_)
        have hrest : elapsed c.BusinessTime (instant D p.stop) (instant D 1440) = 0 :=
          elapsed_eq_zero fun t ht ht' => not_businessTime_rest hp hq ht ht'
        rw [hstart, ← elapsed_add _ (instant_le_instant h₁.le) (instant_le_instant h₂), hk, hrest]
        omega

/-- A later day part of the day, at the same seconds. -/
theorem inside_add_iff (hday : dayOf s = dayOf m) (hmod : s % minuteMillis = m % minuteMillis)
    (hsm : s ≤ m) (hk : elapsed c.BusinessTime s m = k) (hr : 0 < r)
    (hm : ∀ t, m - m % minuteMillis ≤ t → t < m → c.BusinessTime t) :
    c.Inside s (k + r) ↔ c.Inside m r := by
  rw [Inside, Inside, hday, hmod]
  refine exists_congr fun e => and_congr_right fun _ => ?_
  constructor
  · rintro ⟨hend, halt⟩
    exact ⟨hend.rest hsm hk hr, halt.imp_left fun h t ht => h t (hsm.trans ht)⟩
  · rintro ⟨hend, halt⟩
    refine ⟨hend.of_elapsed hsm hk (.inr hr), .inr fun t ht hte => ?_⟩
    have hme := hend.le
    rcases lt_or_ge t m with hlt | hge
    · refine hm t ?_ hlt
      have hne : m ≠ e := fun heq => by
        have := hend.elapsed
        rw [← heq, elapsed_eq_zero fun t _ _ => by omega] at this
        omega
      omega
    · exact halt.elim (fun h => h t hge hte) fun h => h t ht hte

theorem mem_dayPart {p : DayPart} (hday : dayOf x = D) (h₁ : p.start ≤ minuteOfDay x)
    (h₂ : minuteOfDay x < p.stop) : instant D p.start ≤ x ∧ x < instant D p.stop := by
  have hx := eq_instant x
  rw [hday] at hx
  simp only [instant, minuteMillis] at *
  omega

section Inside

variable {i : ℕ} {p : DayPart} (hday : dayOf x = D) (hD : c.isHoliday (instant D 0) = false)
  (hp : c.dayPart? (D % 7) i = some p) (h₁ : p.start ≤ minuteOfDay x)
  (h₂ : minuteOfDay x < p.stop)

include hday hD hp h₁ h₂

/-- The duration is at most the rest of the day part, and the seconds of the start. -/
theorem outcome_inside (hle : (d : ℤ) ≤ instant D p.stop + x % minuteMillis - x) :
    c.Outcome x d (x + d) (c.Inside x d) := by
  obtain ⟨hpx, hxp⟩ := mem_dayPart hday h₁ h₂
  have hmid := instant_le_instant (D := D) p.stop_le
  have hk := elapsed_dayPart hD hp hpx
  have hin : ∀ t, x ≤ t → t < instant D p.stop → c.BusinessTime t := fun t ht ht' =>
    businessTime_of_dayPart hD hp (hpx.trans ht) ht'
  refine ⟨by omega, fun ⟨e, _, hend, halt⟩ => ?_, fun _ he => ?_⟩
  · -- a gap would be after the day part, and its end too late
    have hall : ∀ t, x ≤ t → t < e → c.BusinessTime t := by
      rcases halt with halt | halt
      · exact halt
      · intro t ht hte
        rcases lt_or_ge t (instant D p.stop) with hlt | hge
        · exact hin t ht hlt
        · refine halt t ?_ hte
          by_contra hlt
          have hpart := elapsed_mono c.BusinessTime
            (show instant D p.stop ≤ e - 1 - x % minuteMillis by omega) x
          have hadd := elapsed_add c.BusinessTime (show x ≤ e - 1 - x % minuteMillis by omega)
            (show e - 1 - x % minuteMillis ≤ e by have := seconds_range x; omega)
          rw [elapsed_of_forall halt, hend.elapsed] at hadd
          have := seconds_range x
          omega
    have he := hend.elapsed
    rw [elapsed_of_forall hall] at he
    have := hend.le
    rwa [show x + d = e by omega]
  · have hall := forall_of_elapsed (B := c.BusinessTime) (a := x) (b := x + d) (by
      rw [he]
      omega)
    refine ⟨x + d, ?_, .within hall fun _ => .inl (hin x le_rfl hxp), .inl hall⟩
    rw [hday]
    omega

/-- The duration goes beyond the last day part. -/
theorem not_inside (hnone : c.dayPart? (D % 7) (i + 1) = none)
    (hgt : instant D p.stop + x % minuteMillis - x < d) : ¬ c.Inside x d := by
  rintro ⟨e, hle, hend, -⟩
  obtain ⟨hpx, hxp⟩ := mem_dayPart hday h₁ h₂
  have hmid := instant_le_instant (D := D) p.stop_le
  have hmono := elapsed_mono c.BusinessTime hle x
  have hσ := seconds_range x
  rw [hend.elapsed, hday, ← elapsed_add _ (hxp.le.trans hmid) (by omega),
    ← elapsed_add _ hxp.le hmid, elapsed_dayPart hD hp hpx,
    elapsed_eq_zero fun t ht ht' => not_businessTime_rest hp hnone ht ht'] at hmono
  have := elapsed_le (B := c.BusinessTime) (instant D 1440) (instant D 1440 + x % minuteMillis)
  omega

/-- The next day part of the day, with the same seconds. -/
theorem elapsed_seconds {q : DayPart} (hq : c.dayPart? (D % 7) (i + 1) = some q) :
    x ≤ instant D q.start + x % minuteMillis ∧
      elapsed c.BusinessTime x (instant D q.start + x % minuteMillis) =
        (instant D p.stop + x % minuteMillis - x).toNat := by
  obtain ⟨hpx, hxp⟩ := mem_dayPart hday h₁ h₂
  have hσ := seconds_range x
  have hpq := instant_le_instant (D := D) (c.stop_le_start hp hq (Nat.lt_succ_self i))
  have hqin : ∀ t, instant D q.start ≤ t → t < instant D q.start + x % minuteMillis →
      c.BusinessTime t := fun t ht ht' => businessTime_of_dayPart hD hq ht (by
    have := q.start_lt_stop
    simp only [instant, minuteMillis] at *
    omega)
  refine ⟨by omega, ?_⟩
  rw [← elapsed_add _ (hxp.le.trans hpq) (by omega), ← elapsed_add _ hxp.le hpq,
    elapsed_dayPart hD hp hpx, elapsed_between hp hq, elapsed_of_forall hqin]
  omega

end Inside

/-- From business time, with seconds: they are lost on the way to the next day. -/
theorem addInDayPart_inside (d : ℕ) {i : ℕ} {p : DayPart} (hpos : 0 < x % minuteMillis)
    (hday : dayOf x = D) (hD : c.isHoliday (instant D 0) = false)
    (hp : c.dayPart? (D % 7) i = some p) (h₁ : p.start ≤ minuteOfDay x)
    (h₂ : minuteOfDay x < p.stop) :
    ∃ e, Computes (fun n => c.addInDayPart n (D % 7) i x d) e ∧
      c.Outcome x d e (c.Inside x d) := by
  induction d using Nat.strong_induction_on generalizing x i p with
  | h d ih =>
    have hmil := millis_eq p hday
    obtain ⟨hpx, hxp⟩ := mem_dayPart hday h₁ h₂
    rcases le_or_gt (d : ℤ) (instant D p.stop + x % minuteMillis - x) with hle | hgt
    · exact ⟨_, addInDayPart_last hp (hmil ▸ hle), outcome_inside hday hD hp h₁ h₂ hle⟩
    · have hnext : x + p.millisInThisDayPart x = instant D p.stop + x % minuteMillis := by omega
      have hrem : (d : ℤ) - p.millisInThisDayPart x =
          (d - (instant D p.stop + x % minuteMillis - x).toNat : ℕ) := by omega
      have hadd : (instant D p.stop + x % minuteMillis - x).toNat +
          (d - (instant D p.stop + x % minuteMillis - x).toNat) = d := by omega
      cases hq : c.dayPart? (D % 7) (i + 1) with
      | some q =>
        have hq₀ := q.start_nonneg
        have hql := q.start_lt_stop
        have hqs := q.stop_le
        have hqday := dayOf_instant (D := D) hq₀ (by omega) (seconds_range x)
        have hqmin := minuteOfDay_instant (D := D) hq₀ (by omega) (seconds_range x)
        have hqmod := mod_instant (D := D) (m := q.start) (seconds_range x)
        obtain ⟨hxq, hk⟩ := elapsed_seconds hday hD hp h₁ h₂ hq
        obtain ⟨e, he, hout⟩ := ih (d - (instant D p.stop + x % minuteMillis - x).toNat) (by omega)
          (hqmod.symm ▸ hpos) hqday hq hqmin.ge (hqmin.trans_lt hql)
        refine ⟨e, addInDayPart_next hp (by omega)
          (hnext ▸ findNextDayPartStart_seconds (seconds_range x) hp hq) (hrem ▸ he), ?_⟩
        have hqin := mem_dayPart hqday hqmin.ge (hqmin.trans_lt hql)
        have hrest := hout.of_elapsed hxq hk (inside_add_iff (by rw [hday, hqday]) hqmod.symm hxq hk
          (by omega) fun t ht ht' => businessTime_of_dayPart hD hq (by omega)
            (ht'.trans hqin.2)) (.inr (by omega))
        rwa [hadd] at hrest
      | none =>
        obtain ⟨D', q, hno, hq', hc, hends⟩ := exists_nextDay_of_last hD hp (seconds_range x) hq hday
          hxp.le (elapsed_dayPart hD hp hpx)
        obtain ⟨e, he, hend⟩ := addInDayPart_ends
          (d - (instant D p.stop + x % minuteMillis - x).toNat) hno hq' le_rfl q.start_lt_stop
        have hfin := hends _ _ (by omega) hend
        obtain ⟨n, hn, -⟩ := hfin.elapsed
        refine ⟨e, addInDayPart_next hp (by omega) (hnext ▸ hc) (hrem ▸ he), hfin.le,
          fun h => absurd h (not_inside hday hD hp h₁ h₂ hq (by omega)), fun _ he => ?_⟩
        -- the seconds are missing
        exfalso
        have hσ := (seconds_range x).2
        simp only [minuteMillis] at hpos hσ hn hgt hadd
        omega

end BusinessCalendar

end Calendar

end Jbpm
