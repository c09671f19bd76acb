/-
  When the addition of business time is exact.

  * `Regular`: the dates and durations for which it is;
  * `exact_iff`: and only for these, a start on a holiday apart;
  * `add_exact_iff_regular`: then durations add up, and the addition is monotone.
-/
import Jbpm.Calendar.BusinessAddition

namespace Jbpm

namespace Calendar

namespace BusinessCalendar

open Lib

variable {c : BusinessCalendar} {s m e x D : ℤ} {d k r : ℕ}

/-! ## The addition -/

theorem findDayPart_eq_some {i : ℕ} (h : c.findDayPart s = some i) :
    c.isHoliday s = false ∧ ∃ p, c.dayPart? (weekday s) i = some p ∧
      p.start ≤ minuteOfDay s ∧ minuteOfDay s ≤ p.stop := by
  rw [findDayPart] at h
  split at h
  · cases h
  · next hh =>
    obtain ⟨hi, hinc, -⟩ := List.findIdx?_eq_some_iff_getElem.1 h
    exact ⟨Bool.eq_false_of_not_eq_true hh, _, List.getElem?_eq_getElem hi,
      (DayPart.includes_iff _ _).1 hinc⟩

theorem findDayPart_eq_none {p : DayPart} (h : c.findDayPart s = none)
    (hh : c.isHoliday s = false) (hp : p ∈ c.weekDays (weekday s)) :
    ¬ (p.start ≤ minuteOfDay s ∧ minuteOfDay s ≤ p.stop) := by
  rw [findDayPart, hh, if_neg Bool.false_ne_true, List.findIdx?_eq_none_iff] at h
  intro hinc
  exact Bool.false_ne_true ((h p hp).symm.trans ((p.includes_iff s).2 hinc))

/-- The first day part, from the number `i` on, that starts after the date, or the next day. -/
theorem findNextDayPartStart_scan (w date : ℤ) (i : ℕ) :
    (∃ j q, c.dayPart? w j = some q ∧ minuteOfDay date ≤ q.start ∧
      (∀ k p, i ≤ k → k < j → c.dayPart? w k = some p → p.start < minuteOfDay date) ∧
      Computes (fun n => c.findNextDayPartStart n w i date) (q.getStartTime date, w, j)) ∨
    ((∀ k p, i ≤ k → c.dayPart? w k = some p → p.start < minuteOfDay date) ∧
      ∀ r, Computes (fun n => c.findNextDayPartStart n (weekday (c.findStartOfNextDay date)) 0
        (c.findStartOfNextDay date)) r →
        Computes (fun n => c.findNextDayPartStart n w i date) r) := by
  induction hk : (c.weekDays w).length - i generalizing i with
  | zero =>
    have hnone : c.dayPart? w i = none := List.getElem?_eq_none (by omega)
    refine .inr ⟨fun k p hik hp => ?_, fun r hr => findNextDayPartStart_nextDay hnone hr⟩
    have := (List.getElem?_eq_some_iff.1 hp).1
    omega
  | succ l ih =>
    obtain ⟨p, hp⟩ : ∃ p, c.dayPart? w i = some p := ⟨_, List.getElem?_eq_getElem (by omega)⟩
    by_cases hstart : p.isStartAfter date = true
    · exact .inl ⟨i, p, hp, (p.isStartAfter_iff date).1 hstart,
        fun k _ hik hki _ => absurd hki (by omega), findNextDayPartStart_here hp hstart⟩
    · have hlt : p.start < minuteOfDay date :=
        not_le.1 fun hle => hstart ((p.isStartAfter_iff date).2 hle)
      have hprev : ∀ k q, i ≤ k → (i + 1 ≤ k → c.dayPart? w k = some q →
          q.start < minuteOfDay date) → c.dayPart? w k = some q → q.start < minuteOfDay date := by
        intro k q hik hrest hq
        rcases hik.eq_or_lt with rfl | hik
        · rwa [← Option.some.inj (hp.symm.trans hq)]
        · exact hrest hik hq
      have hskip := fun r => findNextDayPartStart_skip (r := r) hp
        (Bool.eq_false_of_not_eq_true hstart)
      rcases ih (i + 1) (by omega) with ⟨j, q, hq, hle, hall, hc⟩ | ⟨hall, hc⟩
      · exact .inl ⟨j, q, hq, hle, fun k r hik hkj hr =>
          hprev k r hik (fun hik' hr => hall k r hik' hkj hr) hr, hskip _ hc⟩
      · exact .inr ⟨fun k r hik hr => hprev k r hik (fun hik' hr => hall k r hik' hr) hr,
          fun r hr => hskip r (hc r hr)⟩

theorem add_of_some {i : ℕ} (h : c.findDayPart s = some i)
    (hc : Computes (fun n => c.addInDayPart n (weekday s) i s d) e) :
    Computes (fun n => c.add n s d) e := by
  simpa only [add, h] using hc

theorem add_of_none {w' : ℤ} {j : ℕ} (h : c.findDayPart s = none)
    (hnext : Computes (fun n => c.findNextDayPartStart n (weekday s) 0 s) (m, w', j))
    (hadd : Computes (fun n => c.addInDayPart n w' j m d) e) :
    Computes (fun n => c.add n s d) e := by
  simpa only [add, h] using hnext.bind
    (g := fun result n => c.addInDayPart n result.2.1 result.2.2 result.1 d) hadd

/-- The business time of the day is over. -/
theorem exists_nextDay_of_over (hs : dayOf s = D)
    (hgap : ∀ t, s ≤ t → t < instant D 1440 → ¬ c.BusinessTime t) (hmid : ¬ c.EndsAtMidnight D) :
    ∃ D' q, c.isHoliday (instant D' 0) = false ∧ c.dayPart? (D' % 7) 0 = some q ∧
      Computes (fun n => c.findNextDayPartStart n (weekday (c.findStartOfNextDay s)) 0
        (c.findStartOfNextDay s)) (instant D' q.start, D' % 7, 0) ∧
      ∀ d e, c.Ends (instant D' q.start) d e → c.Ends s d e := by
  obtain ⟨D', q, hno, hq, hc, -, hends⟩ := exists_nextDay hs le_rfl (lt_midnight hs).le
    (elapsed_eq_zero fun t h₁ h₂ => absurd h₂ (not_lt.2 h₁)) hgap (.inl ⟨hs, hmid⟩)
  refine ⟨D', q, hno, hq, hc, fun d e h => ?_⟩
  have := hends d e (.inr ⟨rfl, hmid⟩) h
  rwa [Nat.zero_add] at this

variable (c) in
/-- On a holiday, before a day part of its day of the week. -/
def HolidayStart (s : ℤ) : Prop :=
  c.isHoliday s = true ∧ ∃ p ∈ c.weekDays (weekday s), p.isStartAfter s = true

variable (c) in
/-- No day part of the day goes on, or is still to come. -/
def DayOver (s : ℤ) : Prop :=
  c.isHoliday s = true ∨ ∀ p ∈ c.weekDays (weekday s), p.stop < minuteOfDay s

instance : Decidable (c.DayOver s) := inferInstanceAs (Decidable (_ ∨ _))

variable (c) in
def Regular (s : ℤ) (d : ℕ) : Prop :=
  ¬ c.HolidayStart s ∧
    if s % minuteMillis = 0 ∨ c.DayOver s then c.NoSkip s d
    else if c.BusinessTime s then c.Inside s d else c.Later s d

/-- From outside of business time, the next day part being `q`. -/
theorem Outcome.of_gap {q : DayPart} (hs : dayOf s = D) (h : minuteOfDay s < q.start)
    (hzero : elapsed c.BusinessTime s (instant D q.start) = 0)
    (hout : c.Outcome (instant D q.start) d e (c.Later (instant D q.start) d)) :
    c.Outcome s d e (c.Later s d) := by
  have hq := dayOf_instant (D := D) q.start_nonneg (q.start_lt_stop.trans_le q.stop_le)
    (seconds_range 0)
  rw [Int.zero_emod, add_zero] at hq
  have hle : s ≤ instant D q.start := by
    have ht := eq_instant s
    have := seconds_range s
    rw [hs] at ht
    simp only [instant, minuteMillis] at *
    omega
  have := hout.of_elapsed hle hzero (later_add_iff hs hq hle hzero) (.inl rfl)
  rwa [Nat.zero_add] at this

/-- At the end of a day part, with seconds. -/
theorem addInDayPart_end {i : ℕ} {p : DayPart} (hpos : 0 < s % minuteMillis) (hs : dayOf s = D)
    (hD : c.isHoliday (instant D 0) = false) (hp : c.dayPart? (D % 7) i = some p)
    (hm : minuteOfDay s = p.stop) :
    ∃ e, Computes (fun n => c.addInDayPart n (D % 7) i s d) e ∧
      c.Outcome s d e (if c.BusinessTime s then c.Inside s d else c.Later s d) := by
  have hx := eq_instant s
  have hσ := seconds_range s
  have hmil : p.millisInThisDayPart s = 0 := by
    rw [p.millisInThisDayPart_eq, hm, sub_self, zero_mul]
  have hnext : s + p.millisInThisDayPart s = instant D p.stop + s % minuteMillis := by
    rw [hmil, add_zero, ← hm, ← hs]
    exact hx
  have hlt := minuteOfDay_lt s
  rcases Nat.eq_zero_or_pos d with rfl | hd
  · refine ⟨_, addInDayPart_last hp hmil.ge, ?_⟩
    rw [Nat.cast_zero, add_zero]
    split
    · next hb =>
      have hend : IsEnd c.BusinessTime s 0 s := by
        simpa using IsEnd.within (s := s) (d := 0) (fun t h₁ h₂ => by omega) fun _ => .inl hb
      refine ⟨le_rfl, fun _ => hend, fun _ _ => ⟨s, ?_, hend, .inl fun t h₁ h₂ => by omega⟩⟩
      have := lt_midnight (s := s) rfl
      omega
    · next hb =>
      refine ⟨le_rfl, fun h => absurd h.1 (Nat.not_lt_zero _), fun hc _ => ?_⟩
      -- the instant before is in the same minute
      rcases hc with hc | hc
      · exact absurd hc hb
      · refine absurd ((c.businessTime_congr ?_).1 hc) hb
        simp only [minuteMillis] at hpos
        omega
  · have hrem : (d : ℤ) - p.millisInThisDayPart s = d := by rw [hmil, sub_zero]
    have hgt : p.millisInThisDayPart s < d := by omega
    cases hq : c.dayPart? (D % 7) (i + 1) with
    | some q =>
      have hpq := c.stop_le_start hp hq (Nat.lt_succ_self i)
      have hgo := hnext ▸ findNextDayPartStart_seconds (D := D) hσ hp hq
      have hqm := q.start_lt_stop
      rcases hpq.eq_or_lt with heq | hlt'
      · -- the next day part follows at once
        have hqs : instant D q.start + s % minuteMillis = s := by
          rw [← heq, ← hm, ← hs]
          exact hx.symm
        have hb : c.BusinessTime s := by
          obtain ⟨h₁, h₂⟩ := mem_dayPart (p := q) hs (by omega) (by omega)
          exact businessTime_of_dayPart hD hq h₁ h₂
        obtain ⟨e, he, hout⟩ := addInDayPart_inside d hpos hs hD hq (by omega) (by omega)
        rw [if_pos hb]
        exact ⟨e, addInDayPart_next hp hgt hgo (by rwa [hrem, hqs]), hout⟩
      · have hb : ¬ c.BusinessTime s :=
          not_businessTime_between (by rw [weekday, hs]) hp hq hm.ge (by omega)
        obtain ⟨e, he, hout⟩ := addInDayPart_gap d hpos hσ.2 hD hq
        rw [if_neg hb]
        refine ⟨e, addInDayPart_next hp hgt hgo (by rwa [hrem]), hout.of_gap hs (by omega) ?_⟩
        have hanti := elapsed_anti c.BusinessTime (show instant D p.stop ≤ s by omega)
          (instant D q.start)
        rw [elapsed_between hp hq] at hanti
        omega
    | none =>
      have hgap : ∀ t, s ≤ t → t < instant D 1440 → ¬ c.BusinessTime t := fun t h₁ h₂ =>
        not_businessTime_rest hp hq (by omega) h₂
      have hmid : ¬ c.EndsAtMidnight D := by
        rw [endsAtMidnight_iff hD hp hq]
        omega
      obtain ⟨D', q, hno, hq', hc, hends⟩ := exists_nextDay_of_over hs hgap hmid
      obtain ⟨e, he, hend⟩ := addInDayPart_ends d hno hq' le_rfl q.start_lt_stop
      have hback : s + p.millisInThisDayPart s = s := by rw [hmil, add_zero]
      rw [if_neg (hgap s le_rfl (lt_midnight hs))]
      refine ⟨e, addInDayPart_next hp hgt (hback.symm ▸ findNextDayPartStart_nextDay hq hc)
        (by rwa [hrem]), (hends d e hend).outcome.congr (and_iff_right ?_)⟩
      rwa [hs, elapsed_eq_zero hgap]

/-- From a date of a day part. -/
theorem add_outcome_of_some {i : ℕ} (h : c.findDayPart s = some i) (d : ℕ) :
    ∃ e, Computes (fun n => c.add n s d) e ∧ c.Outcome s d e (c.Regular s d) := by
  obtain ⟨hh, p, hp, h₁, h₂⟩ := findDayPart_eq_some h
  have hD : c.isHoliday (instant (dayOf s) 0) = false := (isHoliday_instant rfl).symm.trans hh
  have hstart : ¬ c.HolidayStart s := fun hstart => by rw [hstart.1] at hh; cases hh
  have hover : ¬ c.DayOver s := by
    rintro (hover | hover)
    · rw [hover] at hh
      cases hh
    · have := hover p (List.mem_of_getElem? hp)
      omega
  have hσ := seconds_range s
  simp only [Regular, hstart, hover, not_false_eq_true, true_and, or_false]
  split
  · next hmod =>
    have hs := eq_instant s
    rw [hmod, add_zero] at hs
    obtain ⟨e, he, hend⟩ := addInDayPart_ends_of_le d hD hp h₁ h₂ (minuteOfDay_lt s)
    rw [← hs] at he hend
    exact ⟨e, add_of_some h he, hend.outcome⟩
  · next hmod =>
    rcases h₂.lt_or_eq with hlt | heq
    · obtain ⟨e, he, hout⟩ := addInDayPart_inside d (by omega) rfl hD hp h₁ hlt
      obtain ⟨h₃, h₄⟩ := mem_dayPart rfl h₁ hlt
      rw [if_pos (businessTime_of_dayPart hD hp h₃ h₄)]
      exact ⟨e, add_of_some h he, hout⟩
    · obtain ⟨e, he, hout⟩ := addInDayPart_end (d := d) (by omega) rfl hD hp heq
      exact ⟨e, add_of_some h he, hout⟩

/-- A part of the day that is still to come is after all that have started. -/
theorem not_businessTime_of_started {t : ℤ} (hb : ¬ c.BusinessTime s) (hst : s ≤ t)
    (hday : dayOf t = dayOf s)
    (hstarted : ∀ k p, c.dayPart? (weekday s) k = some p → p.start ≤ minuteOfDay t →
      p.start ≤ minuteOfDay s) : ¬ c.BusinessTime t := by
  intro hbt
  obtain ⟨k, p, hp, h₁, h₂⟩ := hbt.exists_dayPart
  have hw : weekday t = weekday s := by rw [weekday, weekday, hday]
  rw [hw] at hp
  have hle : minuteOfDay s ≤ minuteOfDay t := by
    simp only [dayOf, minuteOfDay_eq, dayMillis, minuteMillis] at hday ⊢
    omega
  exact hb ⟨(c.isHoliday_congr hday).symm.trans hbt.1, p, List.mem_of_getElem? hp,
    hstarted k p hp h₁, by omega⟩

/-- From a date outside of the day parts. -/
theorem add_outcome_of_none (h : c.findDayPart s = none) (hstart : ¬ c.HolidayStart s) (d : ℕ) :
    ∃ e, Computes (fun n => c.add n s d) e ∧ c.Outcome s d e (c.Regular s d) := by
  have hb : ¬ c.BusinessTime s := fun ⟨hh, p, hp, hm⟩ =>
    findDayPart_eq_none h hh hp ⟨hm.1, hm.2.le⟩
  have hσ := seconds_range s
  simp only [Regular, hstart, not_false_eq_true, true_and, if_neg hb]
  rcases findNextDayPartStart_scan (c := c) (weekday s) s 0 with
    ⟨j, q, hq, hle, hall, hc⟩ | ⟨hall, hc⟩
  · have hqm := List.mem_of_getElem? hq
    have hh : c.isHoliday s = false := Bool.eq_false_of_not_eq_true fun hh =>
      hstart ⟨hh, q, hqm, (q.isStartAfter_iff s).2 hle⟩
    have hql := q.start_lt_stop
    have hlt : minuteOfDay s < q.start := by
      rcases hle.lt_or_eq with hlt | heq
      · exact hlt
      · exact absurd ⟨heq.ge, by omega⟩ (findDayPart_eq_none h hh hqm)
    have hover : ¬ c.DayOver s := by
      rintro (hover | hover)
      · rw [hover] at hh
        cases hh
      · have := hover q hqm
        omega
    have hD : c.isHoliday (instant (dayOf s) 0) = false := (isHoliday_instant rfl).symm.trans hh
    have hzero : elapsed c.BusinessTime s (instant (dayOf s) q.start) = 0 := by
      refine elapsed_eq_zero fun t h₁ h₂ => ?_
      obtain ⟨hday, -, htq⟩ := between_instants (D := dayOf s) (m := 0) le_rfl
        (hql.le.trans q.stop_le) (by
          have := eq_instant s
          have := minuteOfDay_nonneg s
          simp only [instant, minuteMillis] at *
          omega) h₂
      refine not_businessTime_of_started hb h₁ hday fun k p hp hpt => ?_
      rcases lt_trichotomy k j with hkj | rfl | hkj
      · exact (hall k p (Nat.zero_le k) hkj hp).le
      · obtain rfl : q = p := Option.some.inj (hq.symm.trans hp)
        omega
      · have := c.stop_le_start hq hp hkj
        omega
    rw [q.getStartTime_eq] at hc
    simp only [hover, or_false]
    split
    · next hmod =>
      rw [hmod, add_zero] at hc
      obtain ⟨e, he, hend⟩ := addInDayPart_ends d hD hq le_rfl hql
      refine ⟨e, add_of_none h hc he, ?_⟩
      have hle : s ≤ instant (dayOf s) q.start := by
        have hs := eq_instant s
        rw [hmod] at hs
        simp only [instant, minuteMillis] at *
        omega
      have hday := dayOf_instant (D := dayOf s) q.start_nonneg (hql.trans_le q.stop_le)
        (seconds_range 0)
      rw [Int.zero_emod, add_zero] at hday
      have := hend.of_elapsed hle hzero
        (fun E hE hEq _ => not_midnight_between rfl hday hE hEq) (.inl rfl)
      rw [Nat.zero_add] at this
      exact this.outcome
    · obtain ⟨e, he, hout⟩ := addInDayPart_gap d (by omega) hσ.2 hD hq
      exact ⟨e, add_of_none h hc he, hout.of_gap rfl hlt hzero⟩
  · have hover : c.DayOver s := by
      cases hh : c.isHoliday s with
      | true => exact .inl hh
      | false =>
        refine .inr fun p hp => ?_
        obtain ⟨k, hk⟩ := List.getElem?_of_mem hp
        have := hall k p (Nat.zero_le k) hk
        have := findDayPart_eq_none h hh hp
        omega
    have hgap : ∀ t, s ≤ t → t < instant (dayOf s) 1440 → ¬ c.BusinessTime t := fun t h₁ h₂ =>
      not_businessTime_of_started hb h₁ (by
        simp only [instant, dayOf, dayMillis, minuteMillis] at *
        omega) fun k p hp _ => (hall k p (Nat.zero_le k) hp).le
    have hmid : ¬ c.EndsAtMidnight (dayOf s) := by
      rintro ⟨hh, p, hp, hstop⟩
      obtain ⟨k, hk⟩ := List.getElem?_of_mem hp
      have := hall k p (Nat.zero_le k) hk
      have := minuteOfDay_lt s
      exact hb ⟨(isHoliday_instant rfl).trans hh, p, hp, by omega, by omega⟩
    obtain ⟨D', q, hno, hq, hgo, hends⟩ := exists_nextDay_of_over rfl hgap hmid
    obtain ⟨e, he, hend⟩ := addInDayPart_ends d hno hq le_rfl q.start_lt_stop
    simp only [hover, or_true, if_true]
    exact ⟨e, add_of_none h (hc _ hgo) he, (hends d e hend).outcome⟩

theorem add_outcome (hstart : ¬ c.HolidayStart s) (d : ℕ) :
    ∃ e, Computes (fun n => c.add n s d) e ∧ c.Outcome s d e (c.Regular s d) := by
  cases h : c.findDayPart s with
  | some i => exact add_outcome_of_some h d
  | none => exact add_outcome_of_none h hstart d

/-! ## Exactness -/

variable (c) in
/-- The end is in business time, or at the end of a day part, and the duration has elapsed. -/
def Exact (s : ℤ) (d : ℕ) : Prop :=
  ∃ e, Computes (fun n => c.add n s d) e ∧ Closed c.BusinessTime e ∧
    elapsed c.BusinessTime s e = d

theorem exact_iff (hstart : ¬ c.HolidayStart s) : c.Exact s d ↔ c.Regular s d := by
  obtain ⟨e, he, hout⟩ := add_outcome hstart d
  constructor
  · rintro ⟨e', he', hc, hd⟩
    obtain rfl := he.unique he'
    exact hout.holds hc hd
  · intro h
    have hend := hout.isEnd h
    exact ⟨e, he, hend.closed, hend.elapsed⟩

theorem Regular.isEnd (h : c.Regular s d) (he : Computes (fun n => c.add n s d) e) :
    IsEnd c.BusinessTime s d e := by
  obtain ⟨e', he', hout⟩ := add_outcome h.1 d
  obtain rfl := he.unique he'
  exact hout.isEnd h

/-- The day part of a holiday counts as business time. -/
theorem not_exact_of_holidayStart (h : c.HolidayStart s) : ¬ c.Exact s 1 := by
  obtain ⟨hh, p, hp, hstart⟩ := h
  have hnone : c.findDayPart s = none := by rw [findDayPart, hh, if_pos rfl]
  rcases findNextDayPartStart_scan (c := c) (weekday s) s 0 with ⟨j, q, hq, hle, -, hc⟩ | ⟨hall, -⟩
  · rintro ⟨e, he, -, hd⟩
    have hσ := seconds_range s
    have hqs := q.stop_le
    have hqm := q.start_lt_stop
    have hday := dayOf_instant (D := dayOf s) q.start_nonneg (by omega) hσ
    have hmil := millis_eq q hday
    rw [mod_instant hσ] at hmil
    rw [q.getStartTime_eq] at hc
    have hone : ((1 : ℕ) : ℤ) ≤
        q.millisInThisDayPart (instant (dayOf s) q.start + s % minuteMillis) := by
      rw [hmil]
      simp only [instant, minuteMillis] at *
      omega
    have hend := addInDayPart_last hq hone
    obtain rfl := (add_of_none hnone hc hend).unique he
    rw [elapsed_eq_zero] at hd
    · cases hd
    · intro t h₁ h₂ hb
      have hts : dayOf t = dayOf s := by
        have := q.start_nonneg
        simp only [instant, dayOf, dayMillis, minuteMillis] at *
        omega
      exact Bool.false_ne_true (hb.1.symm.trans ((c.isHoliday_congr hts).trans hh))
  · obtain ⟨k, hk⟩ := List.getElem?_of_mem hp
    have hlt := hall k p (Nat.zero_le k) hk
    exact absurd ((p.isStartAfter_iff s).1 hstart) (not_le.2 hlt)

/-- Durations add up. At midnight, after a day part that ends there, nothing is not added. -/
theorem add_add (h : c.Regular s d) (hk : c.Regular s (d + k))
    (he : Computes (fun n => c.add n s d) e) (hek : c.Regular e k)
    (hpart : 0 < k ∨ c.findDayPart e ≠ none) :
    ∃ e', Computes (fun n => c.add n e k) e' ∧ Computes (fun n => c.add n s (d + k : ℕ)) e' := by
  have hend := h.isEnd he
  rcases Nat.eq_zero_or_pos k with rfl | hpos
  · obtain ⟨i, hi⟩ := Option.ne_none_iff_exists'.1 (hpart.resolve_left (lt_irrefl 0))
    obtain ⟨-, p, hp, -, hm⟩ := findDayPart_eq_some hi
    have hzero : ((0 : ℕ) : ℤ) ≤ p.millisInThisDayPart e := by
      rw [p.millisInThisDayPart_eq]
      simp only [minuteMillis]
      omega
    have hlast := add_of_some hi (addInDayPart_last hp hzero)
    rw [Nat.cast_zero, add_zero] at hlast
    exact ⟨e, hlast, he⟩
  · obtain ⟨e', he', -⟩ := add_outcome hek.1 k
    obtain ⟨x, hx, -⟩ := add_outcome hk.1 (d + k)
    have hend' := (hek.isEnd he').of_elapsed hend.le hend.elapsed (.inr hpos)
    obtain rfl := hend'.unique (hk.isEnd hx) (by omega)
    exact ⟨e', he', hx⟩

theorem add_mono {s' e' : ℤ} {d' : ℕ} (h : c.Regular s d) (h' : c.Regular s' d') (hs : s ≤ s')
    (hd : d ≤ d') (he : Computes (fun n => c.add n s d) e)
    (he' : Computes (fun n => c.add n s' d') e') : e ≤ e' := by
  rcases (h.isEnd he).mono (h'.isEnd he') hs hd with hle | ⟨rfl, rfl⟩
  · exact hle
  · exact (he.unique he').le

/-- The addition from a date is exact, for all durations, if and only if all are regular, and for one
duration if and only if it is regular, a start on a holiday apart. Regular durations add up, and
their addition is monotone. -/
theorem add_exact_iff_regular (c : BusinessCalendar) :
    (∀ s, (∀ d, c.Exact s d) ↔ ∀ d, c.Regular s d) ∧
    (∀ s d, ¬ c.HolidayStart s → (c.Exact s d ↔ c.Regular s d)) ∧
    (∀ s d k e, c.Regular s d → c.Regular s (d + k) → Computes (fun n => c.add n s d) e →
      c.Regular e k → 0 < k ∨ c.findDayPart e ≠ none →
        ∃ e', Computes (fun n => c.add n e k) e' ∧
          Computes (fun n => c.add n s (d + k : ℕ)) e') ∧
    ∀ s s' d d' e e', c.Regular s d → c.Regular s' d' → s ≤ s' → d ≤ d' →
      Computes (fun n => c.add n s d) e → Computes (fun n => c.add n s' d') e' → e ≤ e' := by
  refine ⟨fun s => ⟨fun h d => ?_, fun h d => (exact_iff (h d).1).2 (h d)⟩, fun _ _ => exact_iff,
    fun _ _ _ _ h hk he hek hpart => add_add h hk he hek hpart,
    fun _ _ _ _ _ _ h h' hs hd he he' => add_mono h h' hs hd he he'⟩
  have hstart : ¬ c.HolidayStart s := fun hstart => not_exact_of_holidayStart hstart (h 1)
  exact (exact_iff hstart).1 (h d)

/-! ## Office hours -/

def morning : DayPart where
  fromHour := 9
  fromMinute := 0
  toHour := 12
  toMinute := 0
  hour_nonneg := by decide
  minute_range := by decide
  from_lt_to := by decide
  to_le := by decide

/-- Weekday mornings; the second Thursday is a holiday. -/
def mornings : BusinessCalendar where
  weekDays w := if w = 2 ∨ w = 3 then [] else [morning]
  holidays := [⟨7, 7⟩]
  ordered w := by split <;> simp
  exists_dayPart := ⟨0, by decide, by decide, by decide⟩

theorem mornings_not_skips (D : ℤ) : ¬ mornings.Skips D := by
  rintro ⟨⟨-, p, hp, hstop⟩, -⟩
  simp only [mornings] at hp
  split at hp
  · cases hp
  · obtain rfl := List.mem_singleton.1 hp
    exact absurd hstop (by decide)

/-- Four hours from nine o'clock. -/
theorem add_exact_mornings : mornings.Exact (instant 0 540) 14400000 := by
  have hstart : ¬ mornings.HolidayStart (instant 0 540) := fun h =>
    absurd h.1 (by decide +kernel)
  refine ((add_exact_iff_regular mornings).2.1 _ _ hstart).2 ⟨hstart, ?_⟩
  rw [if_pos (.inl (by decide +kernel))]
  exact fun D _ h => absurd h (mornings_not_skips D)

/-- Three hours from half a minute past nine end half a minute after the morning. -/
theorem not_exact_seconds : ¬ mornings.Exact (instant 0 540 + 30000) 10800000 := by
  rintro ⟨e, he, hc, -⟩
  have hi : mornings.findDayPart (instant 0 540 + 30000) = some 0 := by decide +kernel
  have hp : mornings.dayPart? (weekday (instant 0 540 + 30000)) 0 = some morning := rfl
  have hle : ((10800000 : ℕ) : ℤ) ≤ morning.millisInThisDayPart (instant 0 540 + 30000) := by
    decide +kernel
  obtain rfl := (add_of_some hi (addInDayPart_last hp hle)).unique he
  rw [Closed] at hc
  revert hc
  decide +kernel

end BusinessCalendar

end Calendar

end Jbpm
