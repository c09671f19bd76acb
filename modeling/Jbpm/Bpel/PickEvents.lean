/-
  `Pick` at work: the messages and alarms that a token waits for at it.

  * `Waits`: the receptions and timers of the token, and the events that are under way;
  * `react`: an execution of the pick, a message or an alarm that arrives, and what then
    passes control to it;
  * `Timely`: the steps on which neither a message nor a timer outlives the wait for it;
  * `Exclusive`: every execution performs the activity of one event, and eliminates the others;
  * `pick_exclusive`: the activities of events, and the executions of the pick.
-/
import Jbpm.Bpel.Pick
import Mathlib.Data.List.ReduceOption

namespace Jbpm

open Lib

namespace Bpel.Pick

/-- What a pick does to its branches. -/
inductive Effect (A M L : Type)
  | eliminated (activity : A)
  | performed (event : Event M L) (activity : A)
  deriving DecidableEq

/-- A token and what it waits for.  The listeners of an execution share a session, which delivers
    one message after the other. -/
structure Waits (A M L : Type) where
  /-- the token is at the pick -/
  waiting : Bool
  /-- the registered listeners -/
  receptions : List M
  /-- a message whose listener has left the registry, to deliver it -/
  delivering : Option M
  /-- the timers in the database, by their identifiers -/
  timers : List (ℕ × L)
  /-- the timers that a job executor has acquired -/
  acquired : List (ℕ × L)
  next : ℕ
  executions : ℕ
  effects : List (Effect A M L)

def Waits.initial {A M L : Type} : Waits A M L := ⟨false, [], none, [], [], 0, 0, []⟩

inductive Step (M L : Type)
  /-- the token enters the pick -/
  | execute
  /-- `RequestListener.onMessage`, up to the removal of the listener -/
  | messageArrives (onMessage : M)
  /-- `RequestListener.deliverRequest` -/
  | deliverMessage
  /-- a job executor locks a timer that is due -/
  | acquireTimer (id : ℕ)
  /-- the job executor loads the timer and executes it -/
  | executeTimer (timer : ℕ × L)

variable {A M L : Type} [DecidableEq A] [DecidableEq M] [DecidableEq L] (s : Pick A M L)
  (repeats : L → Bool)

/-! ## Services -/

theorem lawfulBEq_messages : LawfulBEq (Option M) := inferInstance

attribute [local instance] lawfulBEq_messages

/-- `receive` and `createTimer`, for all events.  A message that was not set has no listener. -/
def execute (x : Waits A M L) : Waits A M L :=
  if none ∈ s.onMessages then x
  else
    { x with
      waiting := true
      receptions := s.onMessages.reduceOption
      timers := x.timers ++ (List.range' x.next s.onAlarms.length).zip s.onAlarms
      next := x.next + s.onAlarms.length
      executions := x.executions + 1 }

/-- `cancelReception`, for all messages but one. -/
def cancelReceptions (messageTarget : Option M) (x : Waits A M L) : Waits A M L :=
  { x with
    receptions := x.receptions.filter fun m => some m = messageTarget ∨ some m ∉ s.onMessages }

/-- `deleteTimersByName`, for all alarms but one. -/
def deleteTimers (timerTarget : Option L) (x : Waits A M L) : Waits A M L :=
  { x with timers := x.timers.filter fun t => some t.2 = timerTarget ∨ t.2 ∉ s.onAlarms }

/-- The effects of `performActivity`. -/
def round (e : Event M L) (selectedActivity : A) : List (Effect A M L) :=
  (s.activities.filter fun activity => selectedActivity ≠ activity).map .eliminated ++
    [.performed e selectedActivity]

/-- `performActivity`: the token leaves through the transition to the activity. -/
def performActivity (e : Event M L) (selectedActivity : A) (x : Waits A M L) : Waits A M L :=
  { x with
    waiting := false
    effects := x.effects ++ s.round e selectedActivity }

def messageReceived (messageTarget : M) (x : Waits A M L) : Except Raise (Waits A M L) :=
  (s.getActivity (.message messageTarget)).map fun activity =>
    s.performActivity (.message messageTarget) activity
      (s.deleteTimers none (s.cancelReceptions (some messageTarget) x))

def timerFired (timerTarget : L) (x : Waits A M L) : Except Raise (Waits A M L) :=
  (s.getActivity (.alarm timerTarget)).map fun activity =>
    s.performActivity (.alarm timerTarget) activity
      (s.deleteTimers (some timerTarget) (s.cancelReceptions none x))

/-- `Timer.execute`: a timer that is to be repeated is not deleted, but is due again. -/
def executeJob (timer : ℕ × L) (x : Waits A M L) : Except Raise (Waits A M L) :=
  (s.timerFired timer.2 x).map fun x =>
    if repeats timer.2 then x else { x with timers := x.timers.erase timer }

/-- One step.  A message finds its listener only while it is registered, and a timer that has been
    deleted cannot be loaded; but neither a message that is delivered nor a timer is held against
    the token.  After an exception the listeners stay cancelled; the transaction of a message is
    rolled back, that of a timer is not, and keeps the timer. -/
def react (x : Waits A M L) : Step M L → Waits A M L
  | .execute => if x.waiting then x else s.execute x
  | .messageArrives onMessage =>
    if onMessage ∈ x.receptions ∧ x.delivering = none then
      { x with receptions := x.receptions.erase onMessage, delivering := some onMessage }
    else x
  | .deliverMessage =>
    match x.delivering with
    | none => x
    | some onMessage =>
      (s.messageReceived onMessage { x with delivering := none }).toOption.getD
        (s.cancelReceptions (some onMessage) { x with delivering := none })
  | .acquireTimer id =>
    match x.timers.find? fun t => t.1 = id with
    | none => x
    | some timer => { x with acquired := x.acquired ++ [timer] }
  | .executeTimer timer =>
    if timer ∈ x.acquired then
      let x := { x with acquired := x.acquired.erase timer }
      if timer ∈ x.timers then
        (s.executeJob repeats timer x).toOption.getD
          (s.deleteTimers (some timer.2) (s.cancelReceptions none x))
      else x
    else x

/-! ## Executions -/

/-- A message is delivered while the token still waits for it, and the token does not come back
    before; and no alarm that fires is to be repeated. -/
def Timely (x : Waits A M L) : Step M L → Prop
  | .execute => x.delivering = none
  | .deliverMessage => x.waiting = true
  | .executeTimer timer => timer ∈ x.timers → repeats timer.2 = false
  | .messageArrives _ | .acquireTimer _ => True

/-- Each execution that is over has performed the activity of one event and eliminated the other
    branches, whatever else was under way; nothing is left to wait for then. -/
structure Exclusive (x : Waits A M L) : Prop where
  rounds : ∃ rounds : List (List (Effect A M L)), x.effects = rounds.flatten ∧
    rounds.length + x.waiting.toNat = x.executions ∧
    ∀ r ∈ rounds, ∃ e activity, s.getActivity e = .ok activity ∧ r = s.round e activity
  cancelled : x.waiting = false → x.receptions = [] ∧ x.timers = []

/-! ## What holds of a pick whose events have their activities -/

section
variable {s} {event : A → Option (Event M L)}

omit [DecidableEq A] in
theorem Inv.getActivity_of_slot (hs : Inv (s, event)) {e : Event M L} (he : some e ∈ s.slots) :
    ∃ activity, s.getActivity e = .ok activity := by
  rw [hs.events] at he
  obtain ⟨a, ha, hae⟩ := List.mem_map.1 he
  exact ⟨a, hs.getActivity ha hae⟩

omit [DecidableEq A] [DecidableEq M] [DecidableEq L] in
theorem Inv.nodup_events (hs : Inv (s, event)) : s.slots.reduceOption.Nodup := by
  rw [hs.events]
  dsimp only
  have hdistinct := hs.distinct
  have hnodup := hs.nodup
  dsimp only at hdistinct hnodup
  generalize s.activities = activities at hdistinct hnodup
  induction activities with
  | nil => exact List.nodup_nil
  | cons a activities ih =>
    obtain ⟨ha, hnodup⟩ := List.nodup_cons.1 hnodup
    have hrest := ih (fun b hb c hc => hdistinct b (List.mem_cons_of_mem a hb) c
      (List.mem_cons_of_mem a hc)) hnodup
    rw [List.map_cons]
    cases hae : event a with
    | none => rwa [List.reduceOption_cons_of_none]
    | some e =>
      rw [List.reduceOption_cons_of_some]
      refine List.nodup_cons.2 ⟨fun hmem => ha ?_, hrest⟩
      rw [List.reduceOption_mem_iff] at hmem
      obtain ⟨b, hb, hbe⟩ := List.mem_map.1 hmem
      rwa [hdistinct a List.mem_cons_self b (List.mem_cons_of_mem a hb) e hae hbe]

omit [DecidableEq A] [DecidableEq M] [DecidableEq L] in
theorem reduceOption_slots : s.slots.reduceOption =
    s.onMessages.reduceOption.map .message ++ s.onAlarms.map .alarm := by
  have halarms : (s.onAlarms.map fun l => some (Event.alarm (M := M) l)) =
      (s.onAlarms.map .alarm).map some := by
    rw [List.map_map]
    rfl
  have hsome : ((s.onAlarms.map (Event.alarm (M := M))).map some).reduceOption =
      s.onAlarms.map .alarm := by
    rw [List.reduceOption, List.filterMap_map]
    simp
  rw [slots, List.reduceOption_append, List.reduceOption_map, halarms, hsome]

omit [DecidableEq A] [DecidableEq M] [DecidableEq L] in
theorem Inv.nodup_lists (hs : Inv (s, event)) :
    s.onMessages.reduceOption.Nodup ∧ s.onAlarms.Nodup := by
  have h := hs.nodup_events
  rw [reduceOption_slots] at h
  obtain ⟨hmessages, halarms, -⟩ := List.nodup_append'.1 h
  exact ⟨hmessages.of_map _, halarms.of_map _⟩

omit [DecidableEq A] [DecidableEq M] [DecidableEq L] in
theorem message_mem_slots {m : M} (h : some m ∈ s.onMessages) :
    some (.message m) ∈ s.slots :=
  List.mem_append_left _ (List.mem_map.2 ⟨_, h, rfl⟩)

omit [DecidableEq A] [DecidableEq M] [DecidableEq L] in
theorem alarm_mem_slots {l : L} (h : l ∈ s.onAlarms) : some (.alarm l) ∈ s.slots :=
  List.mem_append_right _ (List.mem_map.2 ⟨_, h, rfl⟩)

end

/-! ## Runs -/

/-- What holds between the steps. -/
structure Core (x : Waits A M L) : Prop where
  exclusive : s.Exclusive x
  receptions : x.receptions.Nodup ∧ ∀ m ∈ x.receptions, some m ∈ s.onMessages
  delivering : ∀ m, x.delivering = some m → some m ∈ s.onMessages ∧ m ∉ x.receptions
  timers : (x.timers.map Prod.snd).Nodup ∧ ∀ t ∈ x.timers, t.2 ∈ s.onAlarms

theorem core_initial : s.Core Waits.initial where
  exclusive := ⟨⟨[], rfl, rfl, by simp⟩, fun _ => ⟨rfl, rfl⟩⟩
  receptions := ⟨List.nodup_nil, by simp [Waits.initial]⟩
  delivering m h := nomatch h
  timers := ⟨List.nodup_nil, by simp [Waits.initial]⟩

section
variable {s} {repeats} {event : A → Option (Event M L)} {x : Waits A M L}

/-- Control passes to the pick while the token waits at it: one more round, and nothing is left
    to wait for. -/
theorem Core.performed (hx : s.Core x) (hwaiting : x.waiting = true) {e : Event M L} {activity : A}
    (hactivity : s.getActivity e = .ok activity) {z : Waits A M L}
    (heffects : z.effects = x.effects ++ s.round e activity)
    (hexecutions : z.executions = x.executions) (hz : z.waiting = false)
    (hreceptions : z.receptions = []) (htimers : z.timers = [])
    (hdelivering : ∀ m, z.delivering = some m → some m ∈ s.onMessages) : s.Core z := by
  obtain ⟨rounds, hflatten, hlength, hrounds⟩ := hx.exclusive.rounds
  refine ⟨⟨⟨rounds ++ [s.round e activity], ?_, ?_, ?_⟩, fun _ => ⟨hreceptions, htimers⟩⟩,
    ?_, fun m hm => ⟨hdelivering m hm, by simp [hreceptions]⟩, ?_⟩
  · rw [heffects, hflatten, List.flatten_append, List.flatten_singleton]
  · rw [List.length_append, List.length_singleton, hz, hexecutions, ← hlength, hwaiting]
    rfl
  · intro r hr
    rcases List.mem_append.1 hr with hr | hr
    · exact hrounds r hr
    · exact ⟨e, activity, hactivity, List.mem_singleton.1 hr⟩
  · simp [hreceptions]
  · simp [htimers]

omit [DecidableEq A] [DecidableEq L] in
theorem cancelReceptions_eq_nil {target : Option M}
    (h : ∀ m ∈ x.receptions, some m ∈ s.onMessages) (ht : ∀ m ∈ x.receptions, target ≠ some m) :
    (s.cancelReceptions target x).receptions = [] := by
  refine List.filter_eq_nil_iff.2 fun m hm hkept => ?_
  rcases of_decide_eq_true hkept with heq | hnot
  · exact ht m hm heq.symm
  · exact hnot (h m hm)

omit [DecidableEq A] [DecidableEq M] in
/-- All timers are deleted, or all but the one of the alarm that was fired. -/
theorem deleteTimers_eq (h : ∀ t ∈ x.timers, t.2 ∈ s.onAlarms) (target : Option L) :
    (s.deleteTimers target x).timers = x.timers.filter fun t => some t.2 = target := by
  refine List.filter_congr fun t ht => ?_
  simp [h t ht]

theorem Core.execute (hs : Inv (s, event)) (hx : s.Core x) (hwaiting : x.waiting = false)
    (hdelivering : x.delivering = none) : s.Core (s.execute x) := by
  unfold Pick.execute
  split
  · exact hx
  · obtain ⟨rounds, hflatten, hlength, hrounds⟩ := hx.exclusive.rounds
    obtain ⟨hmessages, halarms⟩ := hs.nodup_lists
    have htimers : (x.timers ++ (List.range' x.next s.onAlarms.length).zip s.onAlarms).map
        Prod.snd = s.onAlarms := by
      rw [(hx.exclusive.cancelled hwaiting).2, List.nil_append, List.map_snd_zip]
      simp
    refine ⟨⟨⟨rounds, hflatten, ?_, hrounds⟩, fun h => nomatch h⟩, ⟨hmessages, fun m hm => ?_⟩,
      ?_, ⟨?_, fun t ht => ?_⟩⟩
    · rw [← hlength, hwaiting]
      rfl
    · exact List.reduceOption_mem_iff.1 hm
    · intro m hm
      rw [hdelivering] at hm
      cases hm
    · rwa [htimers]
    · rw [← htimers]
      exact List.mem_map_of_mem ht

theorem Core.deliverMessage (hs : Inv (s, event)) (hx : s.Core x) (hwaiting : x.waiting = true)
    {m : M} (hm : x.delivering = some m) :
    ∃ z, s.messageReceived m { x with delivering := none } = .ok z ∧ s.Core z := by
  obtain ⟨hmem, hgone⟩ := hx.delivering m hm
  obtain ⟨activity, hactivity⟩ := hs.getActivity_of_slot (message_mem_slots hmem)
  refine ⟨_, by rw [messageReceived, hactivity]; rfl, ?_⟩
  refine hx.performed hwaiting hactivity rfl rfl rfl ?_ ?_ fun m hm => nomatch hm
  · exact cancelReceptions_eq_nil (x := { x with delivering := none }) hx.receptions.2 fun m' hm' h =>
      hgone (Option.some.inj h ▸ hm')
  · refine (deleteTimers_eq (x := s.cancelReceptions (some m) { x with delivering := none })
      hx.timers.2 none).trans ?_
    simp

theorem Core.executeJob (hs : Inv (s, event)) (hx : s.Core x) {t : ℕ × L} (ht : t ∈ x.timers)
    (hrepeats : repeats t.2 = false) (acquired : List (ℕ × L)) :
    ∃ z, s.executeJob repeats t { x with acquired := acquired } = .ok z ∧ s.Core z := by
  have hwaiting : x.waiting = true := by
    refine Bool.not_eq_false _ ▸ fun h => ?_
    rw [(hx.exclusive.cancelled h).2] at ht
    cases ht
  have hmem := hx.timers.2 t ht
  obtain ⟨activity, hactivity⟩ := hs.getActivity_of_slot (alarm_mem_slots hmem)
  refine ⟨_, by rw [Pick.executeJob, timerFired, hactivity, hrepeats]; rfl, ?_⟩
  refine hx.performed hwaiting hactivity rfl rfl rfl ?_ ?_ fun m hm => (hx.delivering m hm).1
  · exact cancelReceptions_eq_nil (x := { x with acquired := acquired }) hx.receptions.2
      fun m _ h => nomatch h
  · -- no other timer is that of the same alarm
    have hkept := deleteTimers_eq (x := s.cancelReceptions none { x with acquired := acquired })
      hx.timers.2 (some t.2)
    have hone : x.timers.filter (fun t' => some t'.2 = some t.2) = [t] := by
      refine Eq.trans ?_ (filter_key_of_mem hx.timers.1 ht)
      exact List.filter_congr fun t' _ => by simp
    refine (congrArg (List.erase · t) (hkept.trans hone)).trans ?_
    simp

/-- **One step.** -/
theorem Core.react (hs : Inv (s, event)) (hx : s.Core x) {step : Step M L}
    (hstep : Timely repeats x step) : s.Core (s.react repeats x step) := by
  unfold Pick.react
  cases step with
  | execute =>
    dsimp only
    split
    · exact hx
    · rename_i hwaiting
      exact hx.execute hs (by simpa using hwaiting) hstep
  | messageArrives m =>
    dsimp only
    split
    · rename_i h
      obtain ⟨hm, -⟩ := h
      refine ⟨⟨hx.exclusive.rounds, fun hwaiting => ?_⟩, ⟨hx.receptions.1.erase m, fun m' hm' =>
        hx.receptions.2 m' (List.mem_of_mem_erase hm')⟩, fun m' hm' => ?_, hx.timers⟩
      · rw [(hx.exclusive.cancelled hwaiting).1] at hm
        cases hm
      · obtain rfl : m = m' := Option.some.inj hm'
        exact ⟨hx.receptions.2 m hm, hx.receptions.1.not_mem_erase⟩
    · exact hx
  | deliverMessage =>
    dsimp only
    split
    · exact hx
    · rename_i m hm
      obtain ⟨z, hz, hcore⟩ := hx.deliverMessage hs hstep hm
      rw [hz]
      exact hcore
  | acquireTimer id =>
    dsimp only
    split
    · exact hx
    · exact ⟨⟨hx.exclusive.rounds, hx.exclusive.cancelled⟩, hx.receptions, hx.delivering,
        hx.timers⟩
  | executeTimer timer =>
    dsimp only
    split
    · split
      · rename_i ht
        obtain ⟨z, hz, hcore⟩ := hx.executeJob hs ht (hstep ht) (x.acquired.erase timer)
        rw [hz]
        exact hcore
      · exact ⟨⟨hx.exclusive.rounds, hx.exclusive.cancelled⟩, hx.receptions, hx.delivering,
          hx.timers⟩
    · exact hx

omit [DecidableEq A] [DecidableEq M] [DecidableEq L] in
theorem inv_empty : Inv ((empty, fun _ => none) : Pick A M L × (A → Option (Event M L))) :=
  ⟨List.nodup_nil, rfl, fun _ h => nomatch h⟩

end

def orderOps : List (Op String String String) :=
  [.addNode "ship", .addNode "remind", .setOnMessage "ship" "order", .setOnAlarm "remind" "late"]

/-- Two messages whose activities trade places. -/
def reorderOps : List (Op String String String) :=
  [.addNode "ship", .addNode "bill", .setOnMessage "ship" "order", .setOnMessage "bill" "payment",
    .reorderNode 0 1]

/-- A message arrives, and before it is delivered the timer fires. -/
def lateMessage : List (Step String String) :=
  [.execute, .messageArrives "order", .acquireTimer 0, .executeTimer (0, "late"), .deliverMessage]

/-- The timer fires twice. -/
def timerTwice : List (Step String String) :=
  [.execute, .acquireTimer 0, .executeTimer (0, "late"), .acquireTimer 0,
    .executeTimer (0, "late")]

omit [DecidableEq M] [DecidableEq L] in
theorem length_round_le (e : Event M L) (selectedActivity : A) :
    (s.round e selectedActivity).length ≤ s.activities.length + 1 := by
  rw [round, List.length_append, List.length_map]
  exact Nat.succ_le_succ (List.length_filter_le _ _)

/-- A token that has been at the pick once has at most the effects of one round. -/
theorem Exclusive.length_effects {s : Pick A M L} {x : Waits A M L} (h : s.Exclusive x)
    (hwaiting : x.waiting = false) (hexecutions : x.executions = 1) :
    x.effects.length ≤ s.activities.length + 1 := by
  obtain ⟨rounds, hflatten, hlength, hrounds⟩ := h.rounds
  rw [hwaiting, hexecutions] at hlength
  obtain ⟨r, rfl⟩ := List.length_eq_one_iff.1 hlength
  obtain ⟨e, activity, -, hr⟩ := hrounds r List.mem_cons_self
  rw [hflatten, List.flatten_singleton, hr]
  exact s.length_round_le e activity

end Bpel.Pick

end Jbpm
