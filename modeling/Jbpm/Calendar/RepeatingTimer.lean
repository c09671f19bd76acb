/-
  Timers that repeat.

  * `reschedule`: the loop of `Timer.execute`, which adds the repeat to the due date until it is
    after the current time;
  * `add_total`: an addition of business time ends, and is at least as late as without the gaps;
  * `reschedules_iff`: the loop ends for all dates if and only if the repeat is positive.
-/
import Jbpm.Calendar.BusinessSubtraction

namespace Jbpm

namespace Calendar

namespace BusinessCalendar

open Lib

section Reschedule

variable (c : BusinessCalendar) {δ : Type} (f : NumberFormat δ) (b : BusinessAmounts)

/-- The new due date; `now` is the current time, and `none` also an exception. -/
def reschedule (repeat_ : List Char) (now : ℤ) : ℕ → ℤ → Option ℤ
  | 0, _ => none
  | n + 1, dueDate =>
    if dueDate ≤ now then
      (parseDuration f b repeat_).bind fun d =>
        (c.addDuration n dueDate d).bind (reschedule repeat_ now n)
    else some dueDate

/-- The elements of the progression `due`, `due + d`, `due + d + d`, ... -/
def Progression (d : Duration) : ℕ → ℤ → ℤ → Prop
  | 0, due, date => date = due
  | k + 1, due, date =>
    ∃ next, Computes (fun n => c.addDuration n due d) next ∧ Progression d k next date

/-- The loop ends with the first element that is after the current time. -/
def Reschedules (repeat_ : List Char) (d : Duration) (now due : ℤ) : Prop :=
  ∃ date k, Computes (fun n => c.reschedule f b repeat_ now n due) date ∧ now < date ∧
    c.Progression d k due date ∧ ∀ j < k, ∃ x, c.Progression d j due x ∧ x ≤ now

end Reschedule

variable {c : BusinessCalendar} {w date : ℤ} {i : ℕ} {p : DayPart}

/-! ## The addition ends -/

theorem exists_findNextDayPartStart (w date : ℤ) (i : ℕ) :
    ∃ m w' j q, Computes (fun n => c.findNextDayPartStart n w i date) (m, w', j) ∧
      c.dayPart? w' j = some q ∧ date ≤ m ∧ minuteOfDay m = q.start := by
  rcases findNextDayPartStart_scan (c := c) w date i with ⟨j, q, hq, hle, -, hc⟩ | ⟨-, hc⟩
  · have hσ := seconds_range date
    have hqm := q.start_lt_stop.trans_le q.stop_le
    refine ⟨_, _, j, q, hc, hq, ?_, ?_⟩
    · have := eq_instant date
      rw [q.getStartTime_eq]
      simp only [instant, minuteMillis] at *
      omega
    · rw [q.getStartTime_eq, minuteOfDay_instant q.start_nonneg hqm hσ]
  · obtain ⟨D', hfirst⟩ := c.exists_firstWorking (dayOf date + 1)
    obtain ⟨q, hq, hgo⟩ := findNextDayPartStart_first hfirst
    have hmin := minuteOfDay_instant (D := D') q.start_nonneg
      (q.start_lt_stop.trans_le q.stop_le) (seconds_range 0)
    rw [Int.zero_emod, add_zero] at hmin
    refine ⟨_, _, 0, q, hc _ (by rwa [findStartOfNextDay_eq]), hq, ?_, hmin⟩
    have := hfirst.le
    have := q.start_nonneg
    simp only [instant, dayOf, dayMillis, minuteMillis] at *
    omega

theorem addInDayPart_total (d : ℕ) (hp : c.dayPart? w i = some p)
    (hm : minuteOfDay date < p.stop) :
    ∃ e, Computes (fun n => c.addInDayPart n w i date d) e ∧ date + d ≤ e := by
  induction d using Nat.strong_induction_on generalizing w date i p with
  | h d ih =>
    have hmil := p.millisInThisDayPart_eq date
    simp only [minuteMillis] at hmil
    rcases le_or_gt (d : ℤ) (p.millisInThisDayPart date) with hle | hgt
    · exact ⟨_, addInDayPart_last hp hle, le_rfl⟩
    · obtain ⟨m, w', j, q, hc, hq, hdm, hqm⟩ := exists_findNextDayPartStart (c := c) w
        (date + p.millisInThisDayPart date) (i + 1)
      obtain ⟨e, he, hle⟩ := ih (d - (p.millisInThisDayPart date).toNat) (by omega) hq
        (hqm.trans_lt q.start_lt_stop)
      refine ⟨e, addInDayPart_next hp hgt hc ?_, by omega⟩
      rwa [show (d : ℤ) - p.millisInThisDayPart date =
        (d - (p.millisInThisDayPart date).toNat : ℕ) by omega]

/-- The addition is at least as late as the date with the duration, whatever is skipped. -/
theorem add_total (date : ℤ) (d : ℕ) : ∃ e, Computes (fun n => c.add n date d) e ∧
    date + d ≤ e := by
  cases h : c.findDayPart date with
  | some i =>
    obtain ⟨-, p, hp, -, hm⟩ := findDayPart_eq_some h
    rcases hm.lt_or_eq with hlt | heq
    · obtain ⟨e, he, hle⟩ := addInDayPart_total d hp hlt
      exact ⟨e, add_of_some h he, hle⟩
    · -- at the end of the day part
      have hmil : p.millisInThisDayPart date = 0 := by
        rw [p.millisInThisDayPart_eq, heq, sub_self, zero_mul]
      rcases Nat.eq_zero_or_pos d with rfl | hd
      · exact ⟨_, add_of_some h (addInDayPart_last hp hmil.ge), le_rfl⟩
      · obtain ⟨m, w', j, q, hc, hq, hdm, hqm⟩ := exists_findNextDayPartStart (c := c)
          (weekday date) (date + p.millisInThisDayPart date) (i + 1)
        obtain ⟨e, he, hle⟩ := addInDayPart_total d hq (hqm.trans_lt q.start_lt_stop)
        refine ⟨e, add_of_some h (addInDayPart_next hp (by omega) hc ?_), by omega⟩
        rwa [hmil, sub_zero]
  | none =>
    obtain ⟨m, w', j, q, hc, hq, hdm, hqm⟩ :=
      exists_findNextDayPartStart (c := c) (weekday date) date 0
    obtain ⟨e, he, hle⟩ := addInDayPart_total d hq (hqm.trans_lt q.start_lt_stop)
    exact ⟨e, add_of_none h hc he, by omega⟩

theorem addDuration_pos {d : Duration} (hd : 0 < d.added) (date : ℤ) :
    ∃ e, Computes (fun n => c.addDuration n date d) e ∧ date < e := by
  simp only [addDuration]
  cases hb : d.isBusinessTime with
  | true =>
    rw [d.added_of_business hb] at hd
    obtain ⟨e, he, hle⟩ := add_total (c := c) date d.amount.toNat
    rw [show (d.amount.toNat : ℤ) = d.amount by omega] at he hle
    exact ⟨e, he, by omega⟩
  | false => exact ⟨_, .const _, Duration.lt_addTo hd date⟩

section Loop

variable {δ : Type} {f : NumberFormat δ} {b : BusinessAmounts} {repeat_ : List Char}
  {d : Duration} {now due : ℤ}

theorem reschedules_of_lt (h : now < due) : c.Reschedules f b repeat_ d now due := by
  refine ⟨due, 0, ?_, h, rfl, fun j hj => absurd hj (Nat.not_lt_zero j)⟩
  refine (Computes.const due).succ fun n => ?_
  rw [reschedule, if_neg (not_le.2 h)]

theorem reschedules_of_pos (hparse : parseDuration f b repeat_ = some d) (hd : 0 < d.added)
    (now due : ℤ) : c.Reschedules f b repeat_ d now due := by
  induction hk : (now - due + 1).toNat using Nat.strong_induction_on generalizing due with
  | h k ih =>
    rcases lt_or_ge now due with hlt | hle
    · exact reschedules_of_lt hlt
    · obtain ⟨next, hnext, hgt⟩ := addDuration_pos (c := c) hd due
      obtain ⟨date, k, hc, hnow, hprog, hbefore⟩ := ih (now - next + 1).toNat (by omega) next rfl
      refine ⟨date, k + 1, ?_, hnow, ⟨next, hnext, hprog⟩, fun j hj => ?_⟩
      · refine (hnext.bind (g := fun x n => c.reschedule f b repeat_ now n x) hc).succ fun n => ?_
        rw [reschedule, if_pos hle, hparse]
        rfl
      · cases j with
        | zero => exact ⟨due, rfl, hle⟩
        | succ j =>
          obtain ⟨x, hx, hxn⟩ := hbefore j (by omega)
          exact ⟨x, ⟨next, hnext, hx⟩, hxn⟩

/-! ## It does not end -/

/-- Below a bound that no addition passes. -/
theorem reschedule_eq_none {bound : ℤ} (hbound : bound ≤ now)
    (hparse : parseDuration f b repeat_ = some d)
    (hadd : ∀ n date e, date ≤ bound → c.addDuration n date d = some e → e ≤ bound) (n : ℕ)
    (hdue : due ≤ bound) : c.reschedule f b repeat_ now n due = none := by
  induction n generalizing due with
  | zero => rfl
  | succ n ih =>
    rw [reschedule, if_pos (hdue.trans hbound), hparse]
    show (c.addDuration n due d).bind _ = none
    cases he : c.addDuration n due d with
    | none => rfl
    | some e => exact ih (hadd n due e hdue he)

theorem not_reschedules {bound : ℤ} (hbound : bound ≤ now)
    (hparse : parseDuration f b repeat_ = some d)
    (hadd : ∀ n date e, date ≤ bound → c.addDuration n date d = some e → e ≤ bound)
    (hdue : due ≤ bound) : ¬ c.Reschedules f b repeat_ d now due := by
  rintro ⟨date, -, ⟨n, hn⟩, -⟩
  have hsome : c.reschedule f b repeat_ now n due = some date := hn n le_rfl
  rw [reschedule_eq_none hbound hparse hadd n hdue] at hsome
  cases hsome

theorem addDuration_le (hb : d.isBusinessTime = false) (hd : d.added ≤ 0) {n : ℕ} {date e : ℤ}
    (h : c.addDuration n date d = some e) : e ≤ date := by
  rw [addDuration, hb, if_neg Bool.false_ne_true, Option.some.injEq] at h
  exact h ▸ Duration.addTo_le hd date

/-- Up to the minute in which a working day begins, the search does not go further. -/
theorem findNextDayPartStart_le {D : ℤ} (hD : c.works D) (hp : c.dayPart? (D % 7) 0 = some p)
    {n : ℕ} {r : ℤ × ℤ × ℕ} (hr : c.findNextDayPartStart n w i date = some r)
    (h : dayOf date < D ∨ dayOf date = D ∧ w = D % 7 ∧ i = 0 ∧ minuteOfDay date ≤ p.start) :
    r.1 < instant D p.start + minuteMillis := by
  induction n generalizing w i date with
  | zero => cases hr
  | succ n ih =>
    rw [findNextDayPartStart] at hr
    have hps := p.start_nonneg
    split at hr
    · next q hq =>
      split at hr
      · obtain rfl := Option.some.inj hr
        have hqm := q.start_lt_stop.trans_le q.stop_le
        have hσ := seconds_range date
        rcases h with hlt | ⟨hday, rfl, rfl, -⟩
        · simp only [q.getStartTime_eq, instant, dayMillis, minuteMillis] at *
          omega
        · obtain rfl : p = q := Option.some.inj (hp.symm.trans hq)
          simp only [p.getStartTime_eq, hday, minuteMillis] at *
          omega
      · next hstart =>
        refine ih hr (.inl (h.resolve_right ?_))
        rintro ⟨-, rfl, rfl, hle⟩
        obtain rfl : p = q := Option.some.inj (hp.symm.trans hq)
        exact hstart ((p.isStartAfter_iff date).2 hle)
    · next hq =>
      have hlt := h.resolve_right (by
        rintro ⟨-, rfl, rfl, -⟩
        rw [hp] at hq
        cases hq)
      obtain ⟨E, hE, hle, -, hall⟩ := c.skipHolidays_instant (dayOf date + 1)
      have hED : E ≤ D := by
        by_contra hgt
        exact absurd hD.1 (by simp [hall D (by omega) (by omega)])
      simp only [findStartOfNextDay_eq, hE] at hr
      refine ih hr ?_
      rw [weekday, dayOf_start]
      rcases hED.lt_or_eq with hlt | rfl
      · exact .inl hlt
      · have hmin := minuteOfDay_instant (D := E) le_rfl (show (0 : ℤ) < 1440 by omega)
          (seconds_range 0)
        rw [Int.zero_emod, add_zero] at hmin
        exact .inr ⟨rfl, rfl, rfl, hmin.trans_le hps⟩

theorem findNextDayPartStart_spec {n : ℕ} {r : ℤ × ℤ × ℕ}
    (hr : c.findNextDayPartStart n w i date = some r) :
    ∃ q, c.dayPart? r.2.1 r.2.2 = some q ∧ minuteOfDay r.1 = q.start := by
  induction n generalizing w i date with
  | zero => cases hr
  | succ n ih =>
    rw [findNextDayPartStart] at hr
    split at hr
    · next q hq =>
      split at hr
      · obtain rfl := Option.some.inj hr
        refine ⟨q, hq, ?_⟩
        rw [q.getStartTime_eq, minuteOfDay_instant q.start_nonneg
          (q.start_lt_stop.trans_le q.stop_le) (seconds_range date)]
      · exact ih hr
    · exact ih hr

theorem addInDayPart_le {duration e : ℤ} (hd : duration ≤ 0) (hp : c.dayPart? w i = some p)
    (hm : minuteOfDay date ≤ p.stop) {n : ℕ} (h : c.addInDayPart n w i date duration = some e) :
    e ≤ date := by
  cases n with
  | zero => cases h
  | succ n =>
    have hle : duration ≤ p.millisInThisDayPart date := by
      rw [p.millisInThisDayPart_eq]
      simp only [minuteMillis]
      omega
    rw [addInDayPart, hp] at h
    have := Option.some.inj ((if_pos hle).symm.trans h)
    omega

/-- From the minute in which a working day begins, or before, it is not passed. -/
theorem add_le_of_nonpos {D : ℤ} (hD : c.works D) (hp : c.dayPart? (D % 7) 0 = some p)
    {duration e : ℤ} (hd : duration ≤ 0) {n : ℕ} (h : c.add n date duration = some e)
    (hdate : date < instant D p.start + minuteMillis) : e < instant D p.start + minuteMillis := by
  rw [add] at h
  split at h
  · next i hi =>
    obtain ⟨-, q, hq, -, hm⟩ := findDayPart_eq_some hi
    exact (addInDayPart_le hd hq hm h).trans_lt hdate
  · obtain ⟨r, hr, he⟩ := Option.bind_eq_some_iff.1 h
    obtain ⟨q, hq, hm⟩ := findNextDayPartStart_spec hr
    refine (addInDayPart_le hd hq (hm.trans_le q.start_lt_stop.le) he).trans_lt
      (findNextDayPartStart_le hD hp hr ?_)
    have hday : dayOf date < D ∨ dayOf date = D ∧ minuteOfDay date ≤ p.start := by
      have := eq_instant date
      have := minuteOfDay_nonneg date
      have := minuteOfDay_lt date
      have := p.start_nonneg
      have := p.start_lt_stop
      have := p.stop_le
      have := seconds_range date
      simp only [instant, dayMillis, minuteMillis] at *
      omega
    exact hday.imp_right fun h => ⟨h.1, by rw [weekday, h.1], rfl, h.2⟩

/-- A repeat that is not positive is never over for some dates. -/
theorem exists_not_reschedules (hparse : parseDuration f b repeat_ = some d)
    (hd : d.added ≤ 0) : ∃ now due, ¬ c.Reschedules f b repeat_ d now due := by
  cases hb : d.isBusinessTime with
  | false =>
    exact ⟨0, 0, not_reschedules le_rfl hparse
      (fun n date e hdate he => (addDuration_le hb hd he).trans hdate) le_rfl⟩
  | true =>
    obtain ⟨D, hfirst⟩ := c.exists_firstWorking 0
    obtain ⟨p, hp, -⟩ := findNextDayPartStart_first hfirst
    refine ⟨instant D p.start + minuteMillis - 1, instant D p.start + minuteMillis - 1,
      not_reschedules le_rfl hparse (fun n date e hdate he => ?_) le_rfl⟩
    rw [addDuration, hb, if_pos rfl] at he
    rw [d.added_of_business hb] at hd
    have := add_le_of_nonpos hfirst.works hp hd he (by omega)
    omega

/-! ## The condition -/

theorem progression_eq {millis : ℤ} (hb : d.isBusinessTime = false)
    (hf : d.field.millis = some millis) (k : ℕ) (due date : ℤ) :
    c.Progression d k due date ↔ date = due + k * (d.added * millis) := by
  have hadd : ∀ due n, c.addDuration n due d = some (due + d.added * millis) := fun due n => by
    rw [addDuration, hb, if_neg Bool.false_ne_true, Duration.addTo, hf]
  induction k generalizing due with
  | zero => simp [Progression]
  | succ k ih =>
    have hnext : Computes (fun n => c.addDuration n due d) (due + d.added * millis) :=
      ⟨0, fun n _ => hadd due n⟩
    have hk : due + d.added * millis + k * (d.added * millis) =
        due + (k + 1 : ℕ) * (d.added * millis) := by
      rw [Nat.cast_succ, Int.add_mul, one_mul]
      omega
    rw [← hk]
    refine Iff.trans ?_ (ih (due + d.added * millis))
    constructor
    · rintro ⟨next, hn, hp⟩
      rwa [hnext.unique hn]
    · exact fun hp => ⟨_, hnext, hp⟩

/-- The loop reschedules all timers if and only if the repeat is positive, and any timer if its due
date is after the current time already. The elements of the progression are multiples where the
repeat has a fixed length. -/
theorem reschedules_iff (hparse : parseDuration f b repeat_ = some d) :
    ((∀ now due, c.Reschedules f b repeat_ d now due) ↔ 0 < d.added) ∧
    (∀ now due, now < due ∨ 0 < d.added → c.Reschedules f b repeat_ d now due) ∧
    (d.isBusinessTime = false → ∀ now due,
      (c.Reschedules f b repeat_ d now due ↔ now < due ∨ 0 < d.added)) ∧
    ∀ millis, d.isBusinessTime = false → d.field.millis = some millis →
      ∀ k due date, c.Progression d k due date ↔ date = due + k * (d.added * millis) := by
  have hif : ∀ now due, now < due ∨ 0 < d.added → c.Reschedules f b repeat_ d now due :=
    fun now due h => h.elim reschedules_of_lt fun hd => reschedules_of_pos hparse hd now due
  refine ⟨⟨fun h => ?_, fun hd now due => hif now due (.inr hd)⟩, hif, fun hb now due =>
    ⟨fun h => ?_, hif now due⟩, fun millis hb hf => progression_eq hb hf⟩
  · by_contra hd
    obtain ⟨now, due, hnot⟩ := exists_not_reschedules (c := c) hparse (not_lt.1 hd)
    exact hnot (h now due)
  · by_contra hnot
    have hbound : due ≤ now := by omega
    exact not_reschedules hbound hparse
      (fun n date e hdate he => (addDuration_le hb (by omega) he).trans hdate) le_rfl h

end Loop

/-! ## Examples of repeats -/

theorem reschedules_iff_seconds : mornings.Reschedules plainDigits officeAmounts
    "10 seconds".toList ⟨.second, 10, false, nofun⟩ 60000 0 :=
  (reschedules_iff (by decide +kernel)).1.2 (by decide) 60000 0

/-- Nothing is ever added. -/
theorem not_reschedules_zero : ¬ mornings.Reschedules plainDigits officeAmounts
    "0 seconds".toList ⟨.second, 0, false, nofun⟩ 0 0 :=
  not_reschedules le_rfl (by decide +kernel)
    (fun n date e hdate he => (addDuration_le rfl le_rfl he).trans hdate) le_rfl

end BusinessCalendar

end Calendar

end Jbpm
