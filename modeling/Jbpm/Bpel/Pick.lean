/-
  `Pick`: the activities of its message and alarm events.

  * `Pick`: the activities, those of messages first, with the two lists of their events;
  * `addNode`, `removeNode`, `reorderNode`, `setOnMessage`, `setOnAlarm`: the changes;
  * `eventSet`: the event last set for each activity;
  * `Regular`: the changes on which the code keeps the events beside their activities;
  * `Inv.step`: the step lemma, and `Inv.keeps`: what the lists are for.
-/
import Jbpm.Lib.Lists
import Jbpm.Lib.Run

namespace Jbpm

open Lib

namespace Bpel

/-- The events of a pick, by the objects that stand for them. -/
inductive Pick.Event (M L : Type)
  | message (onMessage : M)
  | alarm (onAlarm : L)
  deriving DecidableEq

/-- The activities of messages and then those of alarms.  A message is `null` until it is set. -/
structure Pick (A M L : Type) where
  activities : List A
  onMessages : List (Option M)
  onAlarms : List L

/-- The exception of `List.get`. -/
inductive Pick.Raise
  | indexOutOfBounds
  deriving DecidableEq

namespace Pick

variable {A M L : Type} (s : Pick A M L)

def empty : Pick A M L := ⟨[], [], []⟩

/-! ## Children -/

section
variable [DecidableEq A]

def removeActivity (activity : A) : Pick A M L :=
  let index := s.activities.idxOf activity
  { activities := s.activities.erase activity
    onMessages :=
      if index < s.onMessages.length then s.onMessages.eraseIdx index else s.onMessages
    onAlarms :=
      if index < s.onMessages.length then s.onAlarms
      else s.onAlarms.eraseIdx (index - s.onMessages.length) }

def removeNode (activity : A) : Pick A M L :=
  if activity ∈ s.activities then s.removeActivity activity else s

/-- `addActivity`: the activity is first detached from its parent, which may be this one; if
    there are alarms, it is moved to the last receptor index. -/
def addNode (activity : A) : Pick A M L :=
  let s := s.removeNode activity
  let activities := s.activities ++ [activity]
  let onMessages := s.onMessages ++ [none]
  let alarmCount := s.onAlarms.length
  let receptorIndex := onMessages.length - 1
  { s with
    activities :=
      if alarmCount > 0 then
        (activities.eraseIdx (receptorIndex + alarmCount)).insertIdx receptorIndex activity
      else activities
    onMessages := onMessages }

/-- `StructuredActivity.reorderNode`, for the activities alone. -/
def reorderNode (oldIndex newIndex : ℕ) : Pick A M L :=
  if s.activities.length ≤ oldIndex then s
  else if s.activities.length ≤ newIndex then
    { s with activities := s.activities.eraseIdx oldIndex }
  else { s with activities := moved oldIndex newIndex s.activities }

/-- An activity that is not a member is refused, here and in `setOnAlarm`. -/
def setOnMessage (activity : A) (onMessage : M) : Pick A M L :=
  let activityIndex := s.activities.idxOf activity
  if activity ∉ s.activities then s
  else if activityIndex < s.onMessages.length then
    { s with onMessages := s.onMessages.set activityIndex (some onMessage) }
  else
    { activities := (s.activities.eraseIdx activityIndex).insertIdx s.onMessages.length activity
      onMessages := s.onMessages ++ [some onMessage]
      onAlarms := s.onAlarms.eraseIdx (activityIndex - s.onMessages.length) }

def setOnAlarm (activity : A) (onAlarm : L) : Pick A M L :=
  let activityIndex := s.activities.idxOf activity
  if activity ∉ s.activities then s
  else if s.onMessages.length ≤ activityIndex then
    { s with onAlarms := s.onAlarms.set (activityIndex - s.onMessages.length) onAlarm }
  else
    { activities := s.activities.eraseIdx activityIndex ++ [activity]
      onMessages := s.onMessages.eraseIdx activityIndex
      onAlarms := s.onAlarms ++ [onAlarm] }

end

/-- `getActivity`: an event that is not of the pick has the index `-1` in its list. -/
def getActivity [DecidableEq M] [DecidableEq L] : Event M L → Except Raise A
  | .message onMessage =>
    if some onMessage ∈ s.onMessages then
      (s.activities[s.onMessages.idxOf (some onMessage)]?).elim (.error .indexOutOfBounds) .ok
    else .error .indexOutOfBounds
  | .alarm onAlarm =>
    if onAlarm ∈ s.onAlarms then
      (s.activities[s.onMessages.length + s.onAlarms.idxOf onAlarm]?).elim
        (.error .indexOutOfBounds) .ok
    else if s.onMessages.length = 0 then .error .indexOutOfBounds
    else (s.activities[s.onMessages.length - 1]?).elim (.error .indexOutOfBounds) .ok

/-! ## Changes -/

/-- A change of the children. -/
inductive Op (A M L : Type)
  | addNode (activity : A)
  | removeNode (activity : A)
  | reorderNode (oldIndex newIndex : ℕ)
  | setOnMessage (activity : A) (onMessage : M)
  | setOnAlarm (activity : A) (onAlarm : L)

/-- The events beside the activities. -/
def slots : List (Option (Event M L)) :=
  s.onMessages.map (Option.map .message) ++ s.onAlarms.map fun onAlarm => some (.alarm onAlarm)

section
variable [DecidableEq A]

def apply : Op A M L → Pick A M L
  | .addNode activity => s.addNode activity
  | .removeNode activity => s.removeNode activity
  | .reorderNode oldIndex newIndex => s.reorderNode oldIndex newIndex
  | .setOnMessage activity onMessage => s.setOnMessage activity onMessage
  | .setOnAlarm activity onAlarm => s.setOnAlarm activity onAlarm

/-- The event last set for each activity.  An activity that is added has none. -/
def eventSet (event : A → Option (Event M L)) : Op A M L → A → Option (Event M L)
  | .addNode activity => Function.update event activity none
  | .setOnMessage activity onMessage =>
    if activity ∈ s.activities then Function.update event activity (some (.message onMessage))
    else event
  | .setOnAlarm activity onAlarm =>
    if activity ∈ s.activities then Function.update event activity (some (.alarm onAlarm))
    else event
  | .removeNode _ | .reorderNode _ _ => event

def step (x : Pick A M L × (A → Option (Event M L))) (op : Op A M L) :
    Pick A M L × (A → Option (Event M L)) :=
  (x.1.apply op, x.1.eventSet x.2 op)

/-- A reorder passes over equal events only, which are those not set yet, or begins at an index
    that does not exist; and no event is set for two activities. -/
def Regular (event : A → Option (Event M L)) : Op A M L → Prop
  | .reorderNode oldIndex newIndex =>
    s.activities.length ≤ oldIndex ∨
      newIndex < s.activities.length ∧ moved oldIndex newIndex s.slots = s.slots
  | .setOnMessage activity onMessage =>
    activity ∈ s.activities → ∀ other ∈ s.activities,
      event other = some (.message onMessage) → other = activity
  | .setOnAlarm activity onAlarm =>
    activity ∈ s.activities → ∀ other ∈ s.activities,
      event other = some (.alarm onAlarm) → other = activity
  | .addNode _ | .removeNode _ => True

instance [DecidableEq M] [DecidableEq L] (event : A → Option (Event M L)) :
    DecidablePred (s.Regular event)
  | .reorderNode oldIndex newIndex => inferInstanceAs (Decidable
      (s.activities.length ≤ oldIndex ∨
        newIndex < s.activities.length ∧ moved oldIndex newIndex s.slots = s.slots))
  | .setOnMessage activity onMessage => inferInstanceAs (Decidable
      (activity ∈ s.activities → ∀ other ∈ s.activities,
        event other = some (.message onMessage) → other = activity))
  | .setOnAlarm activity onAlarm => inferInstanceAs (Decidable
      (activity ∈ s.activities → ∀ other ∈ s.activities,
        event other = some (.alarm onAlarm) → other = activity))
  | .addNode _ | .removeNode _ => .isTrue trivial

end

/-- Every activity has exactly the event that was last set for it, and the events have their
    activities. -/
structure Keeps [DecidableEq M] [DecidableEq L] (event : A → Option (Event M L)) : Prop where
  nodup : s.activities.Nodup
  events : s.slots = s.activities.map event
  getActivity : ∀ activity ∈ s.activities, ∀ e, event activity = some e →
    s.getActivity e = .ok activity

/-! ## The two parts of the activities -/

/-- The lists are in step, and no event is that of two activities. -/
structure Inv (x : Pick A M L × (A → Option (Event M L))) : Prop where
  nodup : x.1.activities.Nodup
  events : x.1.slots = x.1.activities.map x.2
  distinct : ∀ a ∈ x.1.activities, ∀ b ∈ x.1.activities, ∀ e, x.2 a = some e → x.2 b = some e →
    a = b

/-- The activities of messages and those of alarms. -/
structure Split (event : A → Option (Event M L)) (receptors alarmed : List A) : Prop where
  activities : s.activities = receptors ++ alarmed
  onMessages : s.onMessages.map (Option.map .message) = receptors.map event
  onAlarms : (s.onAlarms.map fun onAlarm => some (.alarm onAlarm)) = alarmed.map event

variable {s} {event : A → Option (Event M L)} {receptors alarmed : List A} {a : A}

theorem length_slots : s.slots.length = s.onMessages.length + s.onAlarms.length := by
  rw [slots, List.length_append, List.length_map, List.length_map]

theorem split_of_slots (h : s.slots = s.activities.map event) :
    ∃ receptors alarmed, s.Split event receptors alarmed := by
  have hlen := congrArg List.length h
  rw [length_slots, List.length_map] at hlen
  have hparts : s.slots = (s.activities.take s.onMessages.length).map event ++
      (s.activities.drop s.onMessages.length).map event := by
    rw [← List.map_append, List.take_append_drop, h]
  obtain ⟨hmessages, halarms⟩ := List.append_inj hparts (by
    rw [List.length_map, List.length_map, List.length_take]
    omega)
  exact ⟨_, _, (List.take_append_drop _ _).symm, hmessages, halarms⟩

namespace Split

variable (h : s.Split event receptors alarmed)

include h

theorem slots_eq : s.slots = s.activities.map event := by
  rw [slots, h.onMessages, h.onAlarms, h.activities, List.map_append]

theorem length_onMessages : s.onMessages.length = receptors.length := by
  simpa using congrArg List.length h.onMessages

theorem length_onAlarms : s.onAlarms.length = alarmed.length := by
  simpa using congrArg List.length h.onAlarms

variable [DecidableEq A]

theorem idxOf_receptor (ha : a ∈ receptors) :
    s.activities.idxOf a = receptors.idxOf a ∧ s.activities.idxOf a < s.onMessages.length := by
  have hidx : s.activities.idxOf a = receptors.idxOf a := by
    rw [h.activities, List.idxOf_append_of_mem ha]
  exact ⟨hidx, by rw [hidx, h.length_onMessages]; exact List.idxOf_lt_length_of_mem ha⟩

theorem idxOf_alarmed (ha : a ∉ receptors) :
    s.activities.idxOf a = s.onMessages.length + alarmed.idxOf a := by
  rw [h.activities, List.idxOf_append_of_notMem ha, h.length_onMessages, Nat.add_comm]

theorem removeNode :
    (s.removeNode a).Split event (receptors.erase a)
      (if a ∈ receptors then alarmed else alarmed.erase a) := by
  unfold Pick.removeNode
  by_cases hmem : a ∈ s.activities
  · rw [if_pos hmem]
    by_cases ha : a ∈ receptors
    · obtain ⟨hidx, hlt⟩ := h.idxOf_receptor ha
      rw [if_pos ha]
      refine ⟨?_, ?_, ?_⟩
      · unfold removeActivity
        rw [h.activities, List.erase_append_left _ ha]
      · unfold removeActivity
        dsimp only
        rw [if_pos hlt, ← List.eraseIdx_map, h.onMessages, hidx, eraseIdx_map_idxOf]
      · unfold removeActivity
        dsimp only
        rw [if_pos hlt, h.onAlarms]
    · have hidx := h.idxOf_alarmed ha
      have hlt : ¬ s.activities.idxOf a < s.onMessages.length := by omega
      rw [if_neg ha, List.erase_of_not_mem ha]
      refine ⟨?_, ?_, ?_⟩
      · unfold removeActivity
        rw [h.activities, List.erase_append_right _ ha]
      · unfold removeActivity
        dsimp only
        rw [if_neg hlt, h.onMessages]
      · unfold removeActivity
        dsimp only
        rw [if_neg hlt, ← List.eraseIdx_map, h.onAlarms, hidx, Nat.add_sub_cancel_left,
          eraseIdx_map_idxOf]
  · rw [if_neg hmem]
    rw [h.activities, List.mem_append, not_or] at hmem
    rw [if_neg hmem.1, List.erase_of_not_mem hmem.1, List.erase_of_not_mem hmem.2]
    exact h

/-- An activity that is added has no event, behind those of messages. -/
theorem addNode (hnodup : s.activities.Nodup) :
    ∃ others, (s.addNode a).Split (Function.update event a none) (receptors.erase a ++ [a]) others ∧
      (receptors.erase a ++ others).Perm (s.activities.erase a) := by
  have hremoved := h.removeNode (a := a)
  rw [h.activities] at hnodup
  obtain ⟨hreceptors, halarmed, hdisjoint⟩ := List.nodup_append'.1 hnodup
  generalize hothers : (if a ∈ receptors then alarmed else alarmed.erase a) = others at hremoved
  have ha : a ∉ others := by
    rw [← hothers]
    split
    · rename_i hmem
      exact fun hmem' => hdisjoint hmem hmem'
    · exact halarmed.not_mem_erase
  refine ⟨others, ⟨?_, ?_, ?_⟩, ?_⟩
  · have hlen : (s.removeNode a).activities.length =
        (s.removeNode a).onMessages.length + (s.removeNode a).onAlarms.length := by
      rw [hremoved.length_onMessages, hremoved.length_onAlarms, hremoved.activities,
        List.length_append]
    unfold Pick.addNode
    dsimp only
    rw [List.length_append, List.length_singleton, Nat.add_sub_cancel, ← hlen,
      List.eraseIdx_append_of_length_le (Nat.le_refl _), Nat.sub_self, List.eraseIdx_zero,
      List.tail_cons, List.append_nil, hremoved.length_onMessages, hremoved.length_onAlarms,
      hremoved.activities]
    split
    · rw [← Nat.add_zero (receptors.erase a).length, insertIdx_append_right]
      simp
    · have hnil : others = [] := List.length_eq_zero_iff.1 (by omega)
      simp [hnil]
  · unfold Pick.addNode
    dsimp only
    rw [List.map_append, hremoved.onMessages, List.map_append, List.map_singleton,
      List.map_singleton, Function.update_self, map_update_of_notMem hreceptors.not_mem_erase]
    rfl
  · rw [map_update_of_notMem ha]
    exact hremoved.onAlarms
  · rw [h.activities, ← hothers]
    split
    · rename_i hmem
      rw [List.erase_append_left _ hmem]
    · rename_i hmem
      rw [List.erase_append_right _ hmem, List.erase_of_not_mem hmem]

theorem setOnMessage_receptor {m : M} (hreceptors : receptors.Nodup) (hdisjoint : a ∉ alarmed)
    (ha : a ∈ receptors) :
    (s.setOnMessage a m).Split (Function.update event a (some (.message m))) receptors alarmed := by
  obtain ⟨hidx, hlt⟩ := h.idxOf_receptor ha
  have hmem : ¬ a ∉ s.activities := not_not.2 (h.activities ▸ List.mem_append_left _ ha)
  unfold setOnMessage
  dsimp only
  rw [if_neg hmem, if_pos hlt]
  refine ⟨h.activities, ?_, ?_⟩
  · dsimp only
    rw [List.map_set, h.onMessages, hidx, Option.map_some, set_map_idxOf hreceptors ha]
  · rw [map_update_of_notMem hdisjoint]
    exact h.onAlarms

/-- An alarm event becomes a message event. -/
theorem setOnMessage_alarmed {m : M} (halarmed : alarmed.Nodup) (hdisjoint : a ∉ receptors)
    (ha : a ∈ alarmed) :
    (s.setOnMessage a m).Split (Function.update event a (some (.message m))) (receptors ++ [a])
      (alarmed.erase a) := by
  have hidx := h.idxOf_alarmed hdisjoint
  have hmem : ¬ a ∉ s.activities := not_not.2 (h.activities ▸ List.mem_append_right _ ha)
  unfold setOnMessage
  dsimp only
  rw [if_neg hmem, if_neg (by omega), hidx, Nat.add_sub_cancel_left]
  refine ⟨?_, ?_, ?_⟩
  · rw [h.activities, h.length_onMessages, List.eraseIdx_append_of_length_le (by omega),
      Nat.add_sub_cancel_left, ← List.erase_eq_eraseIdx_of_idxOf rfl]
    nth_rewrite 1 [← Nat.add_zero receptors.length]
    rw [insertIdx_append_right]
    simp
  · rw [List.map_append, h.onMessages, List.map_append, List.map_singleton, List.map_singleton,
      Function.update_self, map_update_of_notMem hdisjoint]
    rfl
  · rw [← List.eraseIdx_map, h.onAlarms, eraseIdx_map_idxOf,
      map_update_of_notMem halarmed.not_mem_erase]

theorem setOnAlarm_alarmed {l : L} (halarmed : alarmed.Nodup) (hdisjoint : a ∉ receptors)
    (ha : a ∈ alarmed) :
    (s.setOnAlarm a l).Split (Function.update event a (some (.alarm l))) receptors alarmed := by
  have hidx := h.idxOf_alarmed hdisjoint
  have hmem : ¬ a ∉ s.activities := not_not.2 (h.activities ▸ List.mem_append_right _ ha)
  unfold setOnAlarm
  dsimp only
  rw [if_neg hmem, if_pos (by omega), hidx, Nat.add_sub_cancel_left]
  refine ⟨h.activities, ?_, ?_⟩
  · rw [map_update_of_notMem hdisjoint]
    exact h.onMessages
  · dsimp only
    rw [List.map_set, h.onAlarms, set_map_idxOf halarmed ha]

/-- A message event becomes an alarm event. -/
theorem setOnAlarm_receptor {l : L} (hreceptors : receptors.Nodup) (hdisjoint : a ∉ alarmed)
    (ha : a ∈ receptors) :
    (s.setOnAlarm a l).Split (Function.update event a (some (.alarm l))) (receptors.erase a)
      (alarmed ++ [a]) := by
  obtain ⟨hidx, hlt⟩ := h.idxOf_receptor ha
  have hmem : ¬ a ∉ s.activities := not_not.2 (h.activities ▸ List.mem_append_left _ ha)
  unfold setOnAlarm
  dsimp only
  rw [if_neg hmem, if_neg (by omega), hidx]
  refine ⟨?_, ?_, ?_⟩
  · rw [h.activities, List.eraseIdx_append_of_lt_length (List.idxOf_lt_length_of_mem ha),
      ← List.erase_eq_eraseIdx_of_idxOf rfl, List.append_assoc]
  · rw [← List.eraseIdx_map, h.onMessages, eraseIdx_map_idxOf,
      map_update_of_notMem hreceptors.not_mem_erase]
  · rw [List.map_append, h.onAlarms, List.map_append, List.map_singleton, List.map_singleton,
      Function.update_self, map_update_of_notMem hdisjoint]

end Split

/-! ## Runs of changes -/

section
variable {s' : Pick A M L} [DecidableEq A]

/-- An activity gets an event, or none, that no other one has. -/
theorem Inv.update {v : Option (Event M L)} (hx : Inv (s, event))
    (hslots : s'.slots = s'.activities.map (Function.update event a v))
    (hnodup : s'.activities.Nodup) (hsub : ∀ b ∈ s'.activities, b = a ∨ b ∈ s.activities)
    (hfree : ∀ b ∈ s.activities, ∀ e, v = some e → event b = some e → b = a) :
    Inv (s', Function.update event a v) := by
  refine ⟨hnodup, hslots, fun b hb c hc e hbe hce => ?_⟩
  dsimp only at hb hc hbe hce
  rw [Function.update_apply] at hbe hce
  split at hbe <;> split at hce
  case isTrue.isTrue hba hca => rw [hba, hca]
  case isTrue.isFalse hba hca =>
    rw [hba, hfree c ((hsub c hc).resolve_left hca) e hbe hce]
  case isFalse.isTrue hba hca =>
    rw [hca, hfree b ((hsub b hb).resolve_left hba) e hce hbe]
  case isFalse.isFalse hba hca =>
    exact hx.distinct b ((hsub b hb).resolve_left hba) c ((hsub c hc).resolve_left hca) e hbe hce

/-- The event of a member is replaced: the same activities, in another order. -/
theorem Inv.set {e : Event M L} {r o : List A} (hx : Inv (s, event))
    (hsplit : s'.Split (Function.update event a (some e)) r o)
    (hperm : (r ++ o).Perm s.activities)
    (hfree : ∀ b ∈ s.activities, event b = some e → b = a) :
    Inv (s', Function.update event a (some e)) := by
  rw [← hsplit.activities] at hperm
  refine hx.update hsplit.slots_eq (hperm.nodup_iff.2 hx.nodup)
    (fun b hb => .inr (hperm.mem_iff.1 hb)) fun b hb e' he' => ?_
  cases he'
  exact hfree b hb

omit [DecidableEq A] in
theorem inv_reorderNode (hx : Inv (s, event)) {i j : ℕ}
    (h : s.Regular event (.reorderNode i j)) : Inv (s.reorderNode i j, event) := by
  unfold reorderNode
  by_cases hi : s.activities.length ≤ i
  · rw [if_pos hi]
    exact hx
  · obtain ⟨hj, hmoved⟩ := h.resolve_left hi
    rw [if_neg hi, if_neg (by omega)]
    have hperm := perm_moved (i := i) (l := s.activities) (by omega) hj
    refine ⟨hperm.nodup_iff.2 hx.nodup, ?_, fun b hb c hc => ?_⟩
    · rw [map_moved, ← hx.events, hmoved]
      rfl
    · exact hx.distinct b (hperm.mem_iff.1 hb) c (hperm.mem_iff.1 hc)

/-- **One change.** -/
theorem Inv.step {x : Pick A M L × (A → Option (Event M L))} (hx : Inv x) {op : Op A M L}
    (hop : x.1.Regular x.2 op) : Inv (Pick.step x op) := by
  obtain ⟨s, event⟩ := x
  obtain ⟨receptors, alarmed, hsplit⟩ := split_of_slots hx.events
  have hnodup : (receptors ++ alarmed).Nodup := hsplit.activities ▸ hx.nodup
  obtain ⟨hreceptors, halarmed, hdisjoint⟩ := List.nodup_append'.1 hnodup
  cases op with
  | addNode a =>
    obtain ⟨others, hadded, hperm⟩ := hsplit.addNode (a := a) hx.nodup
    have hperm : (s.addNode a).activities.Perm (a :: s.activities.erase a) := by
      rw [hadded.activities, List.append_assoc]
      exact List.perm_middle.trans (hperm.cons a)
    refine hx.update hadded.slots_eq ?_ (fun b hb => ?_) (fun b _ e he => nomatch he)
    · exact hperm.nodup_iff.2 (List.nodup_cons.2 ⟨hx.nodup.not_mem_erase, hx.nodup.erase a⟩)
    · exact (List.mem_cons.1 (hperm.mem_iff.1 hb)).imp_right List.mem_of_mem_erase
  | removeNode a =>
    have hremoved := hsplit.removeNode (a := a)
    have hsub : (s.removeNode a).activities.Sublist s.activities := by
      unfold Pick.removeNode removeActivity
      split
      · exact List.erase_sublist
      · exact List.Sublist.refl _
    exact ⟨hx.nodup.sublist hsub, hremoved.slots_eq, fun b hb c hc =>
      hx.distinct b (hsub.subset hb) c (hsub.subset hc)⟩
  | reorderNode i j => exact inv_reorderNode hx hop
  | setOnMessage a m =>
    unfold Pick.step apply eventSet
    dsimp only
    by_cases hmem : a ∈ s.activities
    · rw [if_pos hmem]
      by_cases ha : a ∈ receptors
      · exact hx.set (hsplit.setOnMessage_receptor hreceptors (hdisjoint ha) ha)
          (hsplit.activities ▸ List.Perm.refl _) (hop hmem)
      · have ha' : a ∈ alarmed := by
          rw [hsplit.activities, List.mem_append] at hmem
          exact hmem.resolve_left ha
        refine hx.set (hsplit.setOnMessage_alarmed halarmed ha ha') ?_ (hop hmem)
        rw [hsplit.activities, List.append_assoc]
        exact (List.perm_cons_erase ha').symm.append_left _
    · rw [if_neg hmem, setOnMessage, if_pos hmem]
      exact hx
  | setOnAlarm a l =>
    unfold Pick.step apply eventSet
    dsimp only
    by_cases hmem : a ∈ s.activities
    · rw [if_pos hmem]
      by_cases ha : a ∈ receptors
      · refine hx.set (hsplit.setOnAlarm_receptor hreceptors (hdisjoint ha) ha) ?_ (hop hmem)
        rw [hsplit.activities, ← List.append_assoc]
        refine (List.perm_append_singleton a _).trans ?_
        exact ((List.perm_cons_erase ha).symm.append_right alarmed)
      · have ha' : a ∈ alarmed := by
          rw [hsplit.activities, List.mem_append] at hmem
          exact hmem.resolve_left ha
        exact hx.set (hsplit.setOnAlarm_alarmed halarmed ha ha')
          (hsplit.activities ▸ List.Perm.refl _) (hop hmem)
    · rw [if_neg hmem, setOnAlarm, if_pos hmem]
      exact hx

end

/-! ## What the lists are for -/

section
variable [DecidableEq M] [DecidableEq L]

omit [DecidableEq M] [DecidableEq L] in
/-- The activity beside an event is the one that has it. -/
theorem Inv.activity_of_slot (hx : Inv (s, event)) {e : Event M L} (ha : a ∈ s.activities)
    (he : event a = some e) {k : ℕ} (hk : s.slots[k]? = some (some e)) :
    s.activities[k]? = some a := by
  rw [hx.events, List.getElem?_map, Option.map_eq_some_iff] at hk
  obtain ⟨b, hb, hbe⟩ := hk
  rw [hb, hx.distinct b (List.mem_of_getElem? hb) a ha e hbe he]

/-- An event that is set for one activity is found at its index. -/
theorem Inv.getActivity (hx : Inv (s, event)) {e : Event M L} (ha : a ∈ s.activities)
    (he : event a = some e) : s.getActivity e = .ok a := by
  have hmem : some e ∈ s.slots := by
    rw [hx.events, ← he]
    exact List.mem_map_of_mem ha
  cases e with
  | message m =>
    have hm : some m ∈ s.onMessages := by
      simpa [slots] using hmem
    have hslot : s.slots[s.onMessages.idxOf (some m)]? = some (some (.message m)) := by
      rw [slots, List.getElem?_append_left (by simpa using List.idxOf_lt_length_of_mem hm),
        List.getElem?_map, List.getElem?_idxOf hm]
      rfl
    unfold Pick.getActivity
    dsimp only
    rw [if_pos hm, hx.activity_of_slot ha he hslot]
    rfl
  | alarm l =>
    have hl : l ∈ s.onAlarms := by
      simpa [slots] using hmem
    have hslot : s.slots[s.onMessages.length + s.onAlarms.idxOf l]? = some (some (.alarm l)) := by
      rw [slots, List.getElem?_append_right (by simp), List.length_map, Nat.add_sub_cancel_left,
        List.getElem?_map, List.getElem?_idxOf hl]
      rfl
    unfold Pick.getActivity
    dsimp only
    rw [if_pos hl, hx.activity_of_slot ha he hslot]
    rfl

theorem Inv.keeps (hx : Inv (s, event)) : s.Keeps event where
  nodup := hx.nodup
  events := hx.events
  getActivity _ ha _ he := hx.getActivity ha he

end

end Pick

end Bpel

end Jbpm
