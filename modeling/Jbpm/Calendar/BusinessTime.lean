/-
  Business time: which instants count, and where `findNextDayPartStart` goes.
-/
import Jbpm.Calendar.BusinessCalendar

namespace Jbpm

namespace Calendar

open Lib

/-! ## Instants of a day -/

/-- The minute `m` of the day `D`. -/
def instant (D m : ℤ) : ℤ := D * dayMillis + m * minuteMillis

def minuteOfDay (date : ℤ) : ℤ := hour date * 60 + minute date

theorem minute_bounds (date : ℤ) : 0 ≤ minute date ∧ minute date < 60 := by
  simp only [minute, hourMillis, minuteMillis]
  omega

theorem minuteOfDay_eq (date : ℤ) : minuteOfDay date = date % dayMillis / minuteMillis := by
  simp only [minuteOfDay, hour, minute, dayMillis, hourMillis, minuteMillis]
  omega

theorem minuteOfDay_nonneg (date : ℤ) : 0 ≤ minuteOfDay date := by
  simp only [minuteOfDay_eq, dayMillis, minuteMillis]
  omega

theorem minuteOfDay_lt (date : ℤ) : minuteOfDay date < 1440 := by
  simp only [minuteOfDay_eq, dayMillis, minuteMillis]
  omega

theorem eq_instant (date : ℤ) :
    date = instant (dayOf date) (minuteOfDay date) + date % minuteMillis := by
  simp only [instant, dayOf, minuteOfDay_eq, dayMillis, minuteMillis]
  omega

section Instant

variable {D m σ : ℤ}

theorem dayOf_instant (h₀ : 0 ≤ m) (h₁ : m < 1440) (hσ : 0 ≤ σ ∧ σ < minuteMillis) :
    dayOf (instant D m + σ) = D := by
  simp only [instant, dayOf, dayMillis, minuteMillis] at *
  omega

theorem dayOf_start (D : ℤ) : dayOf (instant D 0) = D := by
  simp only [instant, dayOf, dayMillis, minuteMillis]
  omega

theorem minuteOfDay_instant (h₀ : 0 ≤ m) (h₁ : m < 1440) (hσ : 0 ≤ σ ∧ σ < minuteMillis) :
    minuteOfDay (instant D m + σ) = m := by
  simp only [instant, minuteOfDay_eq, dayMillis, minuteMillis] at *
  omega

theorem dayOf_midnight (hσ : 0 ≤ σ ∧ σ < minuteMillis) : dayOf (instant D 1440 + σ) = D + 1 := by
  simp only [instant, dayOf, dayMillis, minuteMillis] at *
  omega

theorem mod_instant (hσ : 0 ≤ σ ∧ σ < minuteMillis) : (instant D m + σ) % minuteMillis = σ := by
  simp only [instant, dayMillis, minuteMillis] at *
  omega

theorem seconds_range (date : ℤ) : 0 ≤ date % minuteMillis ∧ date % minuteMillis < minuteMillis := by
  simp only [minuteMillis]
  omega

/-- The instants between two minutes of a day. -/
theorem between_instants {t n : ℤ} (h₀ : 0 ≤ m) (h₁ : n ≤ 1440) (hm : instant D m ≤ t)
    (hn : t < instant D n) : dayOf t = D ∧ m ≤ minuteOfDay t ∧ minuteOfDay t < n := by
  simp only [instant, dayOf, minuteOfDay_eq, dayMillis, minuteMillis] at *
  omega

theorem instant_le_instant {n : ℤ} (h : m ≤ n) : instant D m ≤ instant D n := by
  simp only [instant, minuteMillis]
  omega

theorem instant_add_day : instant D 1440 = instant (D + 1) 0 := by
  simp only [instant, dayMillis, minuteMillis]
  omega

end Instant

/-! ## Day parts -/

namespace DayPart

variable (p : DayPart) (date : ℤ)

theorem start_nonneg : 0 ≤ p.start := by
  have := p.hour_nonneg
  have := p.minute_range
  simp only [start]
  omega

theorem start_lt_stop : p.start < p.stop := p.from_lt_to

theorem stop_le : p.stop ≤ 1440 := p.to_le

theorem isStartAfter_iff : p.isStartAfter date = true ↔ minuteOfDay date ≤ p.start := by
  have := p.minute_range
  have := minute_bounds date
  simp only [isStartAfter, minuteOfDay, start, Bool.or_eq_true, Bool.and_eq_true,
    decide_eq_true_eq]
  omega

theorem includes_iff :
    p.includes date = true ↔ p.start ≤ minuteOfDay date ∧ minuteOfDay date ≤ p.stop := by
  have := p.minute_range
  have := minute_bounds date
  simp only [includes, minuteOfDay, start, stop, Bool.or_eq_true, Bool.and_eq_true,
    decide_eq_true_eq]
  omega

theorem getStartTime_eq :
    p.getStartTime date = instant (dayOf date) p.start + date % minuteMillis := by
  simp only [getStartTime, instant, start, hourMillis, minuteMillis]
  omega

theorem millisInThisDayPart_eq :
    p.millisInThisDayPart date = (p.stop - minuteOfDay date) * minuteMillis := by
  simp only [millisInThisDayPart, stop, minuteOfDay, hourMillis, minuteMillis]
  omega

end DayPart

namespace BusinessCalendar

variable (c : BusinessCalendar)

theorem stop_le_start {w : ℤ} {i j : ℕ} {p q : DayPart} (hp : c.dayPart? w i = some p)
    (hq : c.dayPart? w j = some q) (hij : i < j) : p.stop ≤ q.start := by
  obtain ⟨hi, rfl⟩ := List.getElem?_eq_some_iff.1 hp
  obtain ⟨hj, rfl⟩ := List.getElem?_eq_some_iff.1 hq
  exact List.pairwise_iff_getElem.1 (c.ordered w) i j hi hj hij

/-! ## Business time -/

def BusinessTime (t : ℤ) : Prop :=
  c.isHoliday t = false ∧
    ∃ p ∈ c.weekDays (weekday t), p.start ≤ minuteOfDay t ∧ minuteOfDay t < p.stop

instance : DecidablePred c.BusinessTime := fun _ => inferInstanceAs (Decidable (_ ∧ _))

theorem isHoliday_congr {t t' : ℤ} (h : dayOf t = dayOf t') : c.isHoliday t = c.isHoliday t' := by
  have hinc : ∀ g : Holiday, g.includes t = g.includes t' := fun g => by
    rw [Bool.eq_iff_iff]
    simp only [Holiday.includes, Bool.and_eq_true, decide_eq_true_eq]
    simp only [dayOf, dayMillis] at h ⊢
    omega
  simp only [isHoliday, hinc]

/-- The business time of a minute. -/
theorem businessTime_congr {t t' : ℤ} (h : t / (60000 : ℕ) = t' / (60000 : ℕ)) :
    c.BusinessTime t ↔ c.BusinessTime t' := by
  have hday : dayOf t = dayOf t' := by
    simp only [dayOf, dayMillis]
    omega
  have hmin : minuteOfDay t = minuteOfDay t' := by
    simp only [minuteOfDay_eq, dayMillis, minuteMillis]
    omega
  simp only [BusinessTime, weekday, hday, hmin, c.isHoliday_congr hday]

/-- No holiday, and some business time on its day of the week. -/
def works (D : ℤ) : Prop := c.isHoliday (instant D 0) = false ∧ c.weekDays (D % 7) ≠ []

variable {c}

theorem isHoliday_instant {t D : ℤ} (h : dayOf t = D) :
    c.isHoliday t = c.isHoliday (instant D 0) :=
  c.isHoliday_congr (h.trans (dayOf_start D).symm)

theorem BusinessTime.exists_dayPart {t : ℤ} (h : c.BusinessTime t) :
    ∃ i p, c.dayPart? (weekday t) i = some p ∧ p.start ≤ minuteOfDay t ∧ minuteOfDay t < p.stop := by
  obtain ⟨-, p, hp, hm⟩ := h
  obtain ⟨i, hi⟩ := List.getElem?_of_mem hp
  exact ⟨i, p, hi, hm⟩

theorem BusinessTime.works {t D : ℤ} (h : c.BusinessTime t) (hD : dayOf t = D) : c.works D := by
  refine ⟨(isHoliday_instant hD).symm.trans h.1, fun hnil => ?_⟩
  obtain ⟨-, p, hp, -⟩ := h
  rw [weekday, hD, hnil] at hp
  cases hp

/-- The instants of a day part. -/
theorem businessTime_of_dayPart {D t : ℤ} {i : ℕ} {p : DayPart}
    (hD : c.isHoliday (instant D 0) = false) (hp : c.dayPart? (D % 7) i = some p)
    (h₁ : instant D p.start ≤ t) (h₂ : t < instant D p.stop) : c.BusinessTime t := by
  obtain ⟨hday, hm⟩ := between_instants p.start_nonneg p.stop_le h₁ h₂
  exact ⟨(isHoliday_instant hday).trans hD, p, by
    rw [weekday, hday]
    exact List.mem_of_getElem? hp, hm⟩

/-- No business time between two day parts of a day that follow each other. -/
theorem not_businessTime_between {w t : ℤ} {i : ℕ} {p q : DayPart} (hw : weekday t = w)
    (hp : c.dayPart? w i = some p) (hq : c.dayPart? w (i + 1) = some q)
    (h₁ : p.stop ≤ minuteOfDay t) (h₂ : minuteOfDay t < q.start) : ¬ c.BusinessTime t := by
  intro h
  obtain ⟨j, r, hr, hm⟩ := h.exists_dayPart
  rw [hw] at hr
  have hrp := r.start_lt_stop
  rcases lt_trichotomy j (i + 1) with hj | rfl | hj
  · rcases Nat.lt_succ_iff_lt_or_eq.1 hj with hj | rfl
    · have := c.stop_le_start hr hp hj
      have := p.start_lt_stop
      omega
    · obtain rfl : p = r := Option.some.inj (hp.symm.trans hr)
      omega
  · obtain rfl : q = r := Option.some.inj (hq.symm.trans hr)
    omega
  · have := c.stop_le_start hq hr hj
    have := q.start_lt_stop
    omega

/-- None after the last day part of a day. -/
theorem not_businessTime_after {w t : ℤ} {i : ℕ} {p : DayPart} (hw : weekday t = w)
    (hp : c.dayPart? w i = some p) (hnone : c.dayPart? w (i + 1) = none)
    (h : p.stop ≤ minuteOfDay t) : ¬ c.BusinessTime t := by
  intro hb
  obtain ⟨j, r, hr, hm⟩ := hb.exists_dayPart
  rw [hw] at hr
  have hlt : j < i + 1 := (List.getElem?_eq_some_iff.1 hr).1.trans_le
    (List.getElem?_eq_none_iff.1 hnone)
  rcases Nat.lt_succ_iff_lt_or_eq.1 hlt with hj | rfl
  · have := c.stop_le_start hr hp hj
    have := p.start_lt_stop
    omega
  · obtain rfl : p = r := Option.some.inj (hp.symm.trans hr)
    omega

/-- None before the first one. -/
theorem not_businessTime_before {w t : ℤ} {q : DayPart} (hw : weekday t = w)
    (hq : c.dayPart? w 0 = some q) (h : minuteOfDay t < q.start) : ¬ c.BusinessTime t := by
  intro hb
  obtain ⟨j, r, hr, hm⟩ := hb.exists_dayPart
  rw [hw] at hr
  rcases Nat.eq_zero_or_pos j with rfl | hj
  · obtain rfl : q = r := Option.some.inj (hq.symm.trans hr)
    omega
  · have := c.stop_le_start hq hr hj
    have := q.start_lt_stop
    omega

/-! ## Working days -/

variable (c) in
/-- The first working day, from `D` on. -/
structure FirstWorking (D D' : ℤ) : Prop where
  le : D ≤ D'
  works : c.works D'
  first : ∀ E, D ≤ E → E < D' → ¬ c.works E

variable (c) in
theorem exists_works (D : ℤ) : ∃ n : ℕ, c.works (D + n) := by
  obtain ⟨w, hw₀, hw₇, hw⟩ := c.exists_dayPart
  -- a week after the holidays
  refine ⟨(w + 7 * max (max D (c.lastHoliday + 1)) 0 - D).toNat, ?_⟩
  have hle := le_max_left (max D (c.lastHoliday + 1)) 0
  have hD := le_max_left D (c.lastHoliday + 1)
  have hlast := le_max_right D (c.lastHoliday + 1)
  have hnonneg := le_max_right (max D (c.lastHoliday + 1)) 0
  generalize max (max D (c.lastHoliday + 1)) 0 = M at hle hnonneg ⊢
  have heq : D + (w + 7 * M - D).toNat = w + 7 * M := by omega
  rw [heq]
  refine ⟨?_, by rwa [show (w + 7 * M) % 7 = w by omega]⟩
  by_contra hh
  have hlt := c.lt_of_isHoliday (Bool.eq_true_of_not_eq_false hh)
  simp only [instant, dayMillis, minuteMillis] at hlt
  omega

variable (c) in
theorem exists_firstWorking (D : ℤ) : ∃ D', c.FirstWorking D D' := by
  classical
  have hex := c.exists_works D
  refine ⟨D + Nat.find hex, by omega, Nat.find_spec hex, fun E hDE hE hw => ?_⟩
  obtain ⟨k, rfl⟩ : ∃ k : ℕ, E = D + k := ⟨(E - D).toNat, by omega⟩
  exact Nat.find_min hex (by omega) hw

theorem FirstWorking.tail {D D' E : ℤ} (h : c.FirstWorking D D') (hD : D ≤ E) (hE : E ≤ D') :
    c.FirstWorking E D' where
  le := hE
  works := h.works
  first F hF hlt := h.first F (hD.trans hF) hlt

variable (c) in
theorem skipHolidays_instant (D : ℤ) : ∃ E, c.skipHolidays (instant D 0) = instant E 0 ∧ D ≤ E ∧
    c.isHoliday (instant E 0) = false ∧ ∀ F, D ≤ F → F < E → c.isHoliday (instant F 0) = true := by
  generalize hx : instant D 0 = x
  fun_induction skipHolidays c x generalizing D with
  | case1 x hh ih =>
    obtain ⟨E, hE, hle, hno, hall⟩ := ih (D + 1) (by
      rw [← hx]
      simp only [instant, dayMillis, minuteMillis]
      omega)
    refine ⟨E, hE, by omega, hno, fun F hF hlt => ?_⟩
    rcases hF.eq_or_lt with rfl | hF
    · rw [hx, hh]
    · exact hall F hF hlt
  | case2 x hh =>
    exact ⟨D, hx.symm, le_rfl, by rw [hx]; exact Bool.eq_false_of_not_eq_true hh,
      fun F hF hlt => absurd hF (by omega)⟩

/-! ## The next day part -/

theorem findStartOfNextDay_eq (date : ℤ) :
    c.findStartOfNextDay date = c.skipHolidays (instant (dayOf date + 1) 0) := by
  simp only [findStartOfNextDay, instant, zero_mul, add_zero]

section FindNextDayPartStart

variable {w date : ℤ} {i : ℕ} {p : DayPart} {r : ℤ × ℤ × ℕ}

theorem findNextDayPartStart_here (hp : c.dayPart? w i = some p) (h : p.isStartAfter date = true) :
    Computes (fun n => c.findNextDayPartStart n w i date) (p.getStartTime date, w, i) := by
  refine (Computes.const _).succ fun n => ?_
  rw [findNextDayPartStart, hp]
  exact if_pos h

theorem findNextDayPartStart_skip (hp : c.dayPart? w i = some p) (h : p.isStartAfter date = false)
    (hr : Computes (fun n => c.findNextDayPartStart n w (i + 1) date) r) :
    Computes (fun n => c.findNextDayPartStart n w i date) r := by
  refine hr.succ fun n => ?_
  rw [findNextDayPartStart, hp]
  exact if_neg (ne_true_of_eq_false h)

theorem findNextDayPartStart_nextDay (hp : c.dayPart? w i = none)
    (hr : Computes (fun n => c.findNextDayPartStart n (weekday (c.findStartOfNextDay date)) 0
      (c.findStartOfNextDay date)) r) :
    Computes (fun n => c.findNextDayPartStart n w i date) r := by
  refine hr.succ fun n => ?_
  rw [findNextDayPartStart, hp]

/-- From the beginning of a day, over holidays and days without day parts. -/
theorem findNextDayPartStart_first {D D' : ℤ} (h : c.FirstWorking D D') :
    ∃ p, c.dayPart? (D' % 7) 0 = some p ∧
      Computes (fun n => c.findNextDayPartStart n (weekday (c.skipHolidays (instant D 0))) 0
        (c.skipHolidays (instant D 0))) (instant D' p.start, D' % 7, 0) := by
  induction hk : (D' - D).toNat using Nat.strong_induction_on generalizing D with
  | h k ih =>
    obtain ⟨E, hE, hDE, hno, hall⟩ := c.skipHolidays_instant D
    have hED : E ≤ D' := by
      by_contra hlt
      exact absurd h.works.1 (by simp [hall D' h.le (by omega)])
    have hweek : weekday (instant E 0) = E % 7 := by rw [weekday, dayOf_start]
    rw [hE, hweek]
    cases hparts : c.weekDays (E % 7) with
    | nil =>
      have hne : E ≠ D' := fun heq => h.works.2 (heq ▸ hparts)
      have hnone : c.dayPart? (E % 7) 0 = none := by rw [dayPart?, hparts]; rfl
      obtain ⟨p, hp, hc⟩ := ih (D' - (E + 1)).toNat (by omega) (h.tail (by omega) (by omega)) rfl
      refine ⟨p, hp, findNextDayPartStart_nextDay hnone ?_⟩
      rwa [findStartOfNextDay_eq, dayOf_start]
    | cons p ps =>
      have heq : E = D' := by
        by_contra hne
        exact h.first E hDE (by omega) ⟨hno, by rw [hparts]; exact List.cons_ne_nil _ _⟩
      subst heq
      have hp : c.dayPart? (E % 7) 0 = some p := by rw [dayPart?, hparts]; rfl
      have hmin : minuteOfDay (instant E 0) = 0 := by
        have := minuteOfDay_instant (D := E) le_rfl (show (0 : ℤ) < 1440 by omega) (seconds_range 0)
        rwa [Int.zero_emod, add_zero] at this
      have hstart : p.getStartTime (instant E 0) = instant E p.start := by
        have := mod_instant (D := E) (m := 0) (seconds_range 0)
        rw [p.getStartTime_eq, dayOf_start]
        simpa using this
      refine ⟨p, hp, ?_⟩
      rw [← hstart]
      exact findNextDayPartStart_here hp ((p.isStartAfter_iff _).2 (by
        rw [hmin]
        exact p.start_nonneg))

end FindNextDayPartStart

end BusinessCalendar

end Calendar

end Jbpm
