/-
  Due dates before a date: `base - x business <unit>`.

  * `dueDate`: what `createTaskInstance` makes of the text after the base date;
  * `subtraction_iff`: when business time is subtracted.
-/
import Jbpm.Calendar.BusinessExactness
import Jbpm.Calendar.Duration

namespace Jbpm

namespace Calendar

namespace BusinessCalendar

open Lib

section DueDate

variable (c : BusinessCalendar) {δ : Type} (f : NumberFormat δ) (b : BusinessAmounts)

/-- The due date, of a base date and the text after its expression. -/
def dueDate (n : ℕ) (baseDate : ℤ) (text : List Char) : Option ℤ :=
  if text = [] then some baseDate
  else
    match trim text with
    | [] => none
    | durationSeparator :: rest =>
      if durationSeparator = '+' ∨ durationSeparator = '-' then
        (parseDuration f b (durationSeparator :: rest)).bind (c.addDuration n baseDate)
      else none

end DueDate

variable {c : BusinessCalendar} {t : ℤ}

theorem findDayPart_isSome (h : c.BusinessTime t) : ∃ i, c.findDayPart t = some i := by
  obtain ⟨hh, p, hp, hm⟩ := h
  cases hd : c.findDayPart t with
  | none => exact absurd ⟨hm.1, hm.2.le⟩ (findDayPart_eq_none hd hh hp)
  | some i => exact ⟨i, rfl⟩

/-- A day part only ends after its dates, so what is not after them is not looked at. -/
theorem add_nonpos (h : c.BusinessTime t) {d : ℤ} (hd : d ≤ 0) :
    Computes (fun n => c.add n t d) (t + d) := by
  obtain ⟨i, hi⟩ := findDayPart_isSome h
  obtain ⟨-, p, hp, -, hm⟩ := findDayPart_eq_some hi
  have hle : d ≤ p.millisInThisDayPart t := by
    rw [p.millisInThisDayPart_eq]
    simp only [minuteMillis]
    omega
  simpa only [add, hi] using addInDayPart_last hp hle

theorem elapsed_back_iff (h : c.BusinessTime t) (x : ℕ) :
    c.BusinessTime (t - x) ∧ elapsed c.BusinessTime (t - x) t = x ↔
      ∀ t', t - x ≤ t' → t' < t → c.BusinessTime t' := by
  constructor
  · rintro ⟨-, he⟩
    exact forall_of_elapsed (by rw [he]; omega)
  · intro hall
    refine ⟨?_, ?_⟩
    · rcases Nat.eq_zero_or_pos x with rfl | hx
      · rwa [Nat.cast_zero, sub_zero]
      · exact hall _ le_rfl (by omega)
    · rw [elapsed_of_forall hall]
      omega

/-- There and back again. -/
theorem add_sub_iff (h : c.BusinessTime t) {x : ℕ} (hreg : c.Regular (t - x) x) :
    Computes (fun n => c.add n (t - x) x) t ↔
      ∀ t', t - x ≤ t' → t' < t → c.BusinessTime t' := by
  constructor
  · intro hc
    have hend := (hreg.isEnd hc).elapsed
    exact forall_of_elapsed (by rw [hend]; omega)
  · intro hall
    obtain ⟨e, he, -⟩ := add_outcome hreg.1 x
    rcases Nat.eq_zero_or_pos x with rfl | hx
    · have := add_nonpos h le_rfl
      simpa using this
    · have hend : IsEnd c.BusinessTime (t - x) x t :=
        ⟨by omega, .inl h, ((elapsed_back_iff h x).2 hall).2, fun _ => hall _ (by omega) (by omega)⟩
      rwa [(hreg.isEnd he).unique hend hx] at he

section Subtraction

variable {δ : Type} {f : NumberFormat δ} {b : BusinessAmounts} {text rest : List Char}
  {dur : Duration} {x : ℕ}

theorem dueDate_minus (htext : trim text = '-' :: rest)
    (hparse : parseDuration f b ('-' :: rest) = some dur) (hb : dur.isBusinessTime = true)
    (hx : dur.amount = -x) (h : c.BusinessTime t) :
    Computes (fun n => c.dueDate f b n t text) (t - x) := by
  have hne : text ≠ [] := fun hnil => by
    rw [hnil] at htext
    cases htext
  simpa [dueDate, hne, htext, hparse, addDuration, hb, hx, sub_eq_add_neg] using
    add_nonpos h (show -(x : ℤ) ≤ 0 by omega)

/-- The due date is `x` of business time before the base date if and only if there is no gap in
business time between them; and otherwise `x` added to it is not the base date. -/
theorem subtraction_iff (htext : trim text = '-' :: rest)
    (hparse : parseDuration f b ('-' :: rest) = some dur) (hb : dur.isBusinessTime = true)
    (hx : dur.amount = -x) (h : c.BusinessTime t) :
    ((∃ e, Computes (fun n => c.dueDate f b n t text) e ∧ c.BusinessTime e ∧
      elapsed c.BusinessTime e t = x) ↔ ∀ t', t - x ≤ t' → t' < t → c.BusinessTime t') ∧
    (c.Regular (t - x) x → ((∃ e, Computes (fun n => c.dueDate f b n t text) e ∧
      Computes (fun n => c.add n e x) t) ↔ ∀ t', t - x ≤ t' → t' < t → c.BusinessTime t')) := by
  have hc := dueDate_minus htext hparse hb hx h
  constructor
  · rw [← elapsed_back_iff h x]
    exact ⟨fun ⟨e, he, hin⟩ => hc.unique he ▸ hin, fun hin => ⟨_, hc, hin⟩⟩
  · intro hreg
    rw [← add_sub_iff h hreg]
    exact ⟨fun ⟨e, he, hin⟩ => hc.unique he ▸ hin, fun hin => ⟨_, hc, hin⟩⟩

end Subtraction

/-! ## Office hours -/

/-- Digits only. -/
def plainDigits : NumberFormat Unit where
  parse text :=
    match text.takeWhile Char.isDigit with
    | [] => none
    | digits => some (.long (digits.foldl (fun n d => 10 * n + (d.toNat - 48)) 0),
        text.dropWhile Char.isDigit)
  ofLong _ := ()
  times _ _ := 0

def officeAmounts : BusinessAmounts := ⟨27000000, 135000000, 567000000, 6831000000⟩

/-- Half an hour before ten, and before half past nine. -/
theorem parseDuration_halfHour : parseDuration plainDigits officeAmounts
    "- 30 business minutes".toList = some ⟨.millisecond, -1800000, true, fun _ => rfl⟩ := by
  decide +kernel

theorem subtraction_iff_mornings :
    (∃ e, Computes (fun n => mornings.dueDate plainDigits officeAmounts n (instant 0 600)
      " - 30 business minutes".toList) e ∧ mornings.BusinessTime e ∧
      elapsed mornings.BusinessTime e (instant 0 600) = 1800000) := by
  have h : mornings.BusinessTime (instant 0 600) := by decide +kernel
  have htext : trim " - 30 business minutes".toList = '-' :: " 30 business minutes".toList := by
    decide +kernel
  refine (subtraction_iff htext parseDuration_halfHour rfl rfl h).1.2 fun t' h₁ h₂ => ?_
  refine businessTime_of_dayPart (D := 0) (i := 0) (p := morning) (by decide +kernel) rfl ?_ ?_
  all_goals
    simp only [instant, minuteMillis, dayMillis, morning, DayPart.start, DayPart.stop] at *
    omega

theorem not_subtracted : ¬ ∃ e, Computes (fun n => mornings.dueDate plainDigits officeAmounts n
    (instant 0 550) " - 30 business minutes".toList) e ∧ mornings.BusinessTime e ∧
      elapsed mornings.BusinessTime e (instant 0 550) = 1800000 := by
  rintro ⟨e, he, hin, -⟩
  have h : mornings.BusinessTime (instant 0 550) := by decide +kernel
  have htext : trim " - 30 business minutes".toList = '-' :: " 30 business minutes".toList := by
    decide +kernel
  have hc := dueDate_minus (x := 1800000) htext parseDuration_halfHour rfl rfl h
  rw [← hc.unique he] at hin
  revert hin
  decide +kernel

end BusinessCalendar

end Calendar

end Jbpm
