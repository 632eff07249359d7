/-
What a debouncer answers after any calls.

The calls of a debouncer leave a history: paths are touched, forgotten, and
returned (`history`).  A path is pending since some time if the latest that
happened to it is a touch at that time (`PendingSince`).  A debouncer records a
history if it holds the paths that are pending in it, with these times
(`Records`).  The new debouncer records the empty history, and each call keeps
debouncer and history in step (`Records.apply`), so that all calls do
(`Records.run`).

Debouncers that hold the same under each key (`Same`) answer the same from then
on, although they may have come to it in another order.  So two calls that
concern different paths can be exchanged (`same_apply_apply`).

`answers_after` has all that a debouncer answers.
-/
import Formdoc.Debouncer
import Formdoc.Proofs.Files.Order
import Formdoc.Proofs.Map
import Mathlib.Data.List.Induction

namespace Formdoc.Debouncer

/-! ### Calls and what happens in them -/

/-- A call that may change a debouncer. -/
inductive Call where
  | touch (path : Text) (time : Nat)
  | forget (path : Text)
  | ready (now : Nat)
deriving DecidableEq, Repr

/-- What happens to a path. Paths that name the same are one. -/
inductive PathEvent where
  | touched (key : List PathPart) (time : Nat)
  | forgotten (key : List PathPart)
  | returned (key : List PathPart)
deriving DecidableEq, Repr

/-- The path to which it happens. -/
def PathEvent.key : PathEvent → List PathPart
  | touched k _ => k
  | forgotten k => k
  | returned k => k

namespace Call

/-- The debouncer after a call. -/
def apply : Call → Debouncer → Debouncer
  | touch path time, d => d.touch path time
  | forget path, d => d.forget path
  | ready now, d => (d.ready now).2

/-- What happens in a call. -/
def events : Call → Debouncer → List PathEvent
  | touch path time, _ => [.touched (Path.parts path) time]
  | forget path, _ => [.forgotten (Path.parts path)]
  | ready now, d => ((d.ready now).1.map Path.parts).map .returned

/-- The one path that a call concerns, if it is a touch or a forget. -/
def key? : Call → Option (List PathPart)
  | touch path _ => some (Path.parts path)
  | forget path => some (Path.parts path)
  | ready _ => none

/-- What is held under the path that a call concerns, told from what was held there before. -/
def entry : Call → Option Change → Option Change
  | touch path time, old => some ⟨(old.map Change.path).getD path, time⟩
  | forget _, _ => none
  | ready _, old => old

end Call

/-- A debouncer after calls. -/
def run (d : Debouncer) (calls : List Call) : Debouncer :=
  calls.foldl (fun d c => c.apply d) d

/-- What happens in calls. -/
def history (d : Debouncer) : List Call → List PathEvent
  | [] => []
  | c :: calls => c.events d ++ history (c.apply d) calls

/-- The latest that happened to a path. -/
def latest? (es : List PathEvent) (k : List PathPart) : Option PathEvent :=
  (es.filter fun e => decide (e.key = k)).getLast?

/-- The latest that happened to a path is that it was touched, at the given time. -/
def PendingSince (es : List PathEvent) (k : List PathPart) (time : Nat) : Prop :=
  latest? es k = some (.touched k time)

instance (es : List PathEvent) (k : List PathPart) (time : Nat) :
    Decidable (PendingSince es k time) :=
  inferInstanceAs (Decidable (latest? es k = some (.touched k time)))

section Latest

variable {es fs : List PathEvent} {k : List PathPart}

theorem latest?_append (es fs : List PathEvent) (k : List PathPart) :
    latest? (es ++ fs) k = (latest? fs k).or (latest? es k) := by
  rw [latest?, List.filter_append, List.getLast?_append]
  rfl

theorem latest?_concat (es : List PathEvent) (e : PathEvent) (k : List PathPart) :
    latest? (es ++ [e]) k = if e.key = k then some e else latest? es k := by
  rw [latest?_append]
  by_cases h : e.key = k <;> simp [latest?, h]

theorem mem_of_latest? {e : PathEvent} (h : latest? es k = some e) : e ∈ es ∧ e.key = k := by
  have hmem := List.mem_of_getLast? h
  rw [List.mem_filter, decide_eq_true_eq] at hmem
  exact hmem

theorem latest?_append_returned (es : List PathEvent) (ks : List (List PathPart))
    (k : List PathPart) :
    latest? (es ++ ks.map .returned) k = if k ∈ ks then some (.returned k) else latest? es k := by
  induction ks using List.reverseRecOn with
  | nil => simp
  | append_singleton ks l ih =>
    rw [List.map_append, ← List.append_assoc, List.map_singleton, latest?_concat, ih]
    by_cases hl : l = k
    · simp [PathEvent.key, hl]
    · simp [PathEvent.key, hl, Ne.symm hl]

end Latest

/-! ### What a debouncer holds -/

variable {d : Debouncer} {es : List PathEvent} {k : List PathPart} {s now : Nat}

/-- The debouncer holds the paths that are pending in the history, each since its latest touch, and
under each of them a spelling of it. -/
structure Records (d : Debouncer) (es : List PathEvent) : Prop where
  pending_iff : ∀ k s, (∃ p, d.pending.get? k = some ⟨p, s⟩) ↔ PendingSince es k s
  parts_path : ∀ k c, d.pending.get? k = some c → Path.parts c.path = k

theorem records_new (delay : Nat) : (new delay).Records [] where
  pending_iff k s := by
    constructor
    · rintro ⟨p, hp⟩
      cases hp
    · intro h
      cases h
  parts_path k c h := by cases h

/-- The paths that are settled, in the order in which they are held. -/
def settledPaths (d : Debouncer) (now : Nat) : List Text :=
  (d.pending.entries.filter fun e => isSettled d.delay now e.2).map fun e => e.2.path

theorem ready_perm (d : Debouncer) (now : Nat) : (d.ready now).1.Perm (d.settledPaths now) :=
  Path.sort_perm _

/-- The settled paths name the keys under which they are held. -/
theorem Records.map_parts_settledPaths (h : d.Records es) (now : Nat) :
    (d.settledPaths now).map Path.parts =
      (d.pending.entries.filter fun e => isSettled d.delay now e.2).map Prod.fst := by
  rw [settledPaths, List.map_map]
  refine List.map_congr_left fun e he => ?_
  exact h.parts_path e.1 e.2 (OrderedMap.get?_of_mem (List.mem_of_mem_filter he))

theorem Records.nodup_settledPaths (h : d.Records es) (now : Nat) :
    ((d.settledPaths now).map Path.parts).Nodup := by
  rw [h.map_parts_settledPaths]
  exact d.pending.nodup_keys.sublist (List.filter_sublist.map Prod.fst)

theorem Records.mem_ready_iff (h : d.Records es) :
    k ∈ (d.ready now).1.map Path.parts ↔
      ∃ c, d.pending.get? k = some c ∧ isSettled d.delay now c = true := by
  rw [((d.ready_perm now).map Path.parts).mem_iff, h.map_parts_settledPaths, List.mem_map]
  constructor
  · rintro ⟨e, he, rfl⟩
    obtain ⟨hmem, hsettled⟩ := List.mem_filter.1 he
    exact ⟨e.2, OrderedMap.get?_of_mem hmem, hsettled⟩
  · rintro ⟨c, hc, hsettled⟩
    exact ⟨(k, c), List.mem_filter.2 ⟨OrderedMap.mem_of_get? hc, hsettled⟩, rfl⟩

/-- What a touch or a forget leaves under each path. -/
theorem get?_apply {c : Call} (h : c.key? = some k) (d : Debouncer) (j : List PathPart) :
    (c.apply d).pending.get? j =
      if j = k then c.entry (d.pending.get? k) else d.pending.get? j := by
  cases c with
  | touch path time =>
    obtain rfl := Option.some_inj.1 h
    exact OrderedMap.get?_insert _ _ _ _
  | forget path =>
    obtain rfl := Option.some_inj.1 h
    exact OrderedMap.get?_erase _ _ _
  | ready now => cases h

theorem get?_ready (d : Debouncer) (now : Nat) (k : List PathPart) :
    (d.ready now).2.pending.get? k =
      (d.pending.get? k).filter fun c => !isSettled d.delay now c :=
  OrderedMap.get?_removeAll _ _ _

@[simp] theorem delay_apply (c : Call) (d : Debouncer) : (c.apply d).delay = d.delay := by
  cases c <;> rfl

@[simp] theorem delay_run (d : Debouncer) (calls : List Call) : (d.run calls).delay = d.delay := by
  induction calls generalizing d with
  | nil => rfl
  | cons c calls ih => exact (ih (c.apply d)).trans (delay_apply c d)

/-- In a touch or a forget one thing happens to its path, and the path is held afterwards exactly
if that is a touch. -/
theorem exists_event {c : Call} (h : c.key? = some k) (d : Debouncer) :
    ∃ e, c.events d = [e] ∧ e.key = k ∧
      ∀ old s, (∃ p, c.entry old = some ⟨p, s⟩) ↔ e = .touched k s := by
  cases c with
  | touch path time =>
    obtain rfl := Option.some_inj.1 h
    exact ⟨_, rfl, rfl, fun old s => by simp [Call.entry]⟩
  | forget path =>
    obtain rfl := Option.some_inj.1 h
    exact ⟨_, rfl, rfl, fun old s => by simp [Call.entry]⟩
  | ready now => cases h

/-- A touch keeps the spelling that was held, if there was one. -/
theorem parts_entry {c : Call} (h : c.key? = some k) {old : Option Change}
    (hold : ∀ x, old = some x → Path.parts x.path = k) {x : Change} (hx : c.entry old = some x) :
    Path.parts x.path = k := by
  cases c with
  | touch path time =>
    rw [Call.entry, Option.some_inj] at hx
    rw [← hx]
    cases old with
    | none => exact Option.some_inj.1 h
    | some y => exact hold y rfl
  | forget path => cases hx
  | ready now => cases h

theorem Records.update (h : d.Records es) {c : Call} (hc : c.key? = some k) :
    (c.apply d).Records (es ++ c.events d) := by
  obtain ⟨e, hevents, hkey, htouched⟩ := exists_event hc d
  refine ⟨fun j s => ?_, fun j x hx => ?_⟩
  · rw [PendingSince, hevents, latest?_concat, hkey, get?_apply hc]
    by_cases hj : j = k
    · rw [if_pos hj, if_pos hj.symm, htouched, Option.some_inj, hj]
    · rw [if_neg hj, if_neg (Ne.symm hj)]
      exact h.pending_iff j s
  · rw [get?_apply hc] at hx
    by_cases hj : j = k
    · rw [if_pos hj] at hx
      rw [parts_entry hc (fun y hy => h.parts_path k y hy) hx, hj]
    · rw [if_neg hj] at hx
      exact h.parts_path j x hx

theorem Records.ready (h : d.Records es) (now : Nat) :
    (d.ready now).2.Records (es ++ ((d.ready now).1.map Path.parts).map .returned) where
  pending_iff k s := by
    rw [PendingSince, latest?_append_returned, get?_ready]
    by_cases hk : k ∈ (d.ready now).1.map Path.parts
    · -- The path is handed out, and no longer held.
      obtain ⟨c, hc, hsettled⟩ := h.mem_ready_iff.1 hk
      rw [if_pos hk, hc, Option.filter_some, hsettled]
      simp
    · rw [if_neg hk, ← PendingSince, ← h.pending_iff]
      refine exists_congr fun p => ?_
      rw [Option.filter_eq_some_iff]
      refine and_iff_left_of_imp fun hp => ?_
      rw [Bool.not_eq_true', Bool.eq_false_iff]
      exact fun hsettled => hk (h.mem_ready_iff.2 ⟨_, hp, hsettled⟩)
  parts_path k c hc := by
    rw [get?_ready, Option.filter_eq_some_iff] at hc
    exact h.parts_path k c hc.1

/-- Each call keeps debouncer and history in step. -/
theorem Records.apply (h : d.Records es) (c : Call) :
    (c.apply d).Records (es ++ c.events d) := by
  cases c with
  | touch path time => exact h.update rfl
  | forget path => exact h.update rfl
  | ready now => exact h.ready now

/-- All calls keep debouncer and history in step. -/
theorem Records.run (h : d.Records es) (calls : List Call) :
    (d.run calls).Records (es ++ d.history calls) := by
  induction calls generalizing d es with
  | nil =>
    rw [history, List.append_nil]
    exact h
  | cons c calls ih =>
    rw [history, ← List.append_assoc]
    exact ih (h.apply c)

theorem records_run_new (delay : Nat) (calls : List Call) :
    ((new delay).run calls).Records ((new delay).history calls) :=
  (records_new delay).run calls

/-! ### What is returned -/

/-- What is ready are the paths that are pending and have been quiet for the delay. -/
theorem Records.mem_ready_iff_pendingSince (h : d.Records es) :
    k ∈ (d.ready now).1.map Path.parts ↔ ∃ s, PendingSince es k s ∧ d.delay ≤ now - s := by
  rw [h.mem_ready_iff]
  constructor
  · rintro ⟨c, hc, hsettled⟩
    exact ⟨c.time, (h.pending_iff k c.time).1 ⟨c.path, hc⟩, of_decide_eq_true hsettled⟩
  · rintro ⟨s, hs, hsettled⟩
    obtain ⟨p, hp⟩ := (h.pending_iff k s).2 hs
    exact ⟨⟨p, s⟩, hp, decide_eq_true hsettled⟩

theorem Records.pairwise_ready (h : d.Records es) (now : Nat) :
    (d.ready now).1.Pairwise Path.Before :=
  Path.pairwise_before_sort (h.nodup_settledPaths now)

theorem Records.isEmpty_iff (h : d.Records es) :
    d.isEmpty = true ↔ ∀ k s, ¬ PendingSince es k s := by
  rw [isEmpty, OrderedMap.isEmpty_iff]
  refine forall_congr' fun k => ⟨fun hk s hs => ?_, fun hk => ?_⟩
  · obtain ⟨p, hp⟩ := (h.pending_iff k s).2 hs
    rw [hk] at hp
    cases hp
  · cases hc : d.pending.get? k with
    | none => rfl
    | some c => exact absurd ((h.pending_iff k c.time).1 ⟨c.path, hc⟩) (hk c.time)

/-- A path that a call returns was pending before, and no other path returned in the same call
changes that. -/
theorem Records.pendingSince_of_events (h : d.Records es) {c : Call} {front rest : List PathEvent}
    (hc : c.events d = front ++ .returned k :: rest) : ∃ s, PendingSince (es ++ front) k s := by
  have hmem : .returned k ∈ c.events d := hc ▸ List.mem_append_right _ List.mem_cons_self
  cases c with
  | touch path time => simp [Call.events] at hmem
  | forget path => simp [Call.events] at hmem
  | ready now =>
    obtain ⟨ks, ls, hkeys, rfl, hls⟩ := List.map_eq_append_iff.1 hc
    obtain ⟨l, ls, rfl, hl, -⟩ := List.map_eq_cons_iff.1 hls
    obtain rfl : l = k := PathEvent.returned.inj hl
    -- Each path is returned once.
    have hnot : l ∉ ks := by
      have hnodup : ((d.ready now).1.map Path.parts).Nodup :=
        ((d.ready_perm now).map Path.parts).nodup_iff.2 (h.nodup_settledPaths now)
      rw [hkeys, List.nodup_append] at hnodup
      exact fun hin => hnodup.2.2 l hin l List.mem_cons_self rfl
    have hready : l ∈ (d.ready now).1.map Path.parts :=
      hkeys ▸ List.mem_append_right _ List.mem_cons_self
    obtain ⟨s, hs, -⟩ := h.mem_ready_iff_pendingSince.1 hready
    refine ⟨s, ?_⟩
    rw [PendingSince, latest?_append_returned, if_neg hnot]
    exact hs

/-- A path that is returned was pending before. -/
theorem Records.pendingSince_of_history (h : d.Records es) {calls : List Call}
    {front rest : List PathEvent} (hs : d.history calls = front ++ .returned k :: rest) :
    ∃ s, PendingSince (es ++ front) k s := by
  induction calls generalizing d es front with
  | nil => simp [history] at hs
  | cons c calls ih =>
    -- It is returned in a later call, or in this one.
    have hlater {a : List PathEvent}
        (ha : (c.apply d).history calls = a ++ .returned k :: rest) :
        ∃ s, PendingSince (es ++ (c.events d ++ a)) k s := by
      rw [← List.append_assoc]
      exact ih (h.apply c) ha
    rw [history] at hs
    rcases List.append_eq_append_iff.1 hs with ⟨a, rfl, ha⟩ | ⟨a, hevents, ha⟩
    · exact hlater ha
    · cases a with
      | nil =>
        rw [List.append_nil] at hevents
        have hfirst := @hlater [] ha.symm
        rwa [List.append_nil, hevents] at hfirst
      | cons e a =>
        obtain ⟨rfl, -⟩ := List.cons.inj ha
        exact h.pendingSince_of_events hevents

/-- What was returned or forgotten is not returned before it is touched again. -/
theorem exists_touched_of_returned {delay : Nat} {calls : List Call} {e : PathEvent}
    {front mid rest : List PathEvent}
    (hs : (new delay).history calls = front ++ e :: mid ++ .returned k :: rest)
    (he : e = .returned k ∨ e = .forgotten k) : ∃ s, .touched k s ∈ mid := by
  obtain ⟨s, hpending⟩ := (records_new delay).pendingSince_of_history hs
  rw [List.nil_append, PendingSince, List.append_cons, latest?_append, latest?_concat] at hpending
  have hkey : e.key = k := by
    rcases he with rfl | rfl <;> rfl
  rw [if_pos hkey] at hpending
  cases hmid : latest? mid k with
  | none =>
    rw [hmid, Option.none_or, Option.some_inj] at hpending
    rcases he with rfl | rfl <;> cases hpending
  | some e' =>
    rw [hmid, Option.some_or, Option.some_inj] at hpending
    exact ⟨s, hpending ▸ (mem_of_latest? hmid).1⟩

/-! ### Calls in another order -/

/-- The two debouncers hold the same, although maybe not in the same order. -/
structure Same (d e : Debouncer) : Prop where
  delay : d.delay = e.delay
  get? : ∀ k, d.pending.get? k = e.pending.get? k

namespace Same

variable {e : Debouncer}

theorem apply (h : Same d e) (c : Call) : Same (c.apply d) (c.apply e) where
  delay := by rw [delay_apply, delay_apply, h.delay]
  get? k := by
    cases hc : c.key? with
    | some l => rw [get?_apply hc, get?_apply hc, h.get?, h.get?]
    | none =>
      cases c with
      | touch path time => cases hc
      | forget path => cases hc
      | ready now =>
        rw [Call.apply, Call.apply, get?_ready, get?_ready, h.get?, h.delay]

theorem run (h : Same d e) (calls : List Call) : Same (d.run calls) (e.run calls) := by
  induction calls generalizing d e with
  | nil => exact h
  | cons c calls ih => exact ih (h.apply c)

theorem ready_eq (h : Same d e) (hd : d.Records es) (now : Nat) :
    (d.ready now).1 = (e.ready now).1 := by
  have hperm : (d.settledPaths now).Perm (e.settledPaths now) := by
    rw [settledPaths, settledPaths, h.delay]
    exact ((OrderedMap.perm_of_get? h.get?).filter _).map _
  exact Path.sort_eq_of_perm hperm (hd.nodup_settledPaths now)

theorem isEmpty_eq (h : Same d e) : d.isEmpty = e.isEmpty := by
  rw [Bool.eq_iff_iff, isEmpty, isEmpty, OrderedMap.isEmpty_iff, OrderedMap.isEmpty_iff]
  exact forall_congr' fun k => by rw [h.get?]

end Same

/-- Two calls that concern different paths lead to the same in either order. -/
theorem same_apply_apply {a b : Call} {l : List PathPart} (ha : a.key? = some k)
    (hb : b.key? = some l) (hkl : k ≠ l) (d : Debouncer) :
    Same (b.apply (a.apply d)) (a.apply (b.apply d)) where
  delay := by simp only [delay_apply]
  get? j := by
    rw [get?_apply hb, get?_apply ha, get?_apply ha, get?_apply ha, get?_apply hb, get?_apply hb,
      if_neg hkl, if_neg hkl.symm]
    by_cases hj : j = k
    · rw [if_pos hj, if_neg (hj ▸ hkl), if_pos hj]
    · rw [if_neg hj, if_neg hj]

theorem run_append (d : Debouncer) (calls later : List Call) :
    d.run (calls ++ later) = (d.run calls).run later :=
  List.foldl_append

/-- After any calls, in any order of their times: what is ready are the paths that are pending and
have been quiet for the delay, each once, in order; nothing waits exactly if no path is pending; a
path that was returned or forgotten is not returned before it is touched again; and two calls, one
behind the other, that concern different paths can be exchanged. -/
theorem answers_after (delay : Nat) (calls : List Call) :
    (∀ now, (((new delay).run calls).ready now).1.Pairwise Path.Before ∧
      ∀ k, k ∈ (((new delay).run calls).ready now).1.map Path.parts ↔
        ∃ s, PendingSince ((new delay).history calls) k s ∧
          (delay : Int) ≤ max ((now : Int) - s) 0) ∧
    (((new delay).run calls).isEmpty = true ↔
      ∀ k s, ¬ PendingSince ((new delay).history calls) k s) ∧
    (∀ front e mid k rest,
      (new delay).history calls = front ++ e :: mid ++ .returned k :: rest →
      e = .returned k ∨ e = .forgotten k → ∃ s, .touched k s ∈ mid) ∧
    ∀ a b k l later now, a.key? = some k → b.key? = some l → k ≠ l →
      (((new delay).run (calls ++ a :: b :: later)).ready now).1 =
          (((new delay).run (calls ++ b :: a :: later)).ready now).1 ∧
        ((new delay).run (calls ++ a :: b :: later)).isEmpty =
          ((new delay).run (calls ++ b :: a :: later)).isEmpty := by
  have hrecords := records_run_new delay calls
  refine ⟨fun now => ⟨hrecords.pairwise_ready now, fun k => ?_⟩, hrecords.isEmpty_iff,
    fun front e mid k rest hs he => exists_touched_of_returned hs he,
    fun a b k l later now ha hb hkl => ?_⟩
  · rw [hrecords.mem_ready_iff_pendingSince, delay_run]
    refine exists_congr fun s => and_congr_right fun _ => ?_
    show delay ≤ now - s ↔ _
    omega
  · have hsame := (same_apply_apply ha hb hkl ((new delay).run calls)).run later
    have hfirst := (records_run_new delay calls).run (a :: b :: later)
    rw [run_append, run_append]
    exact ⟨hsame.ready_eq hfirst now, hsame.isEmpty_eq⟩

/-- Calls that concern two paths, one of them in two spellings. -/
def burst : List Call :=
  [.touch "b//x".toList 0, .touch "a".toList 50, .ready 100, .touch "b/x/".toList 120,
    .forget "a".toList]

/-- The path that the calls spell in two ways. -/
def burstKey : List PathPart :=
  [.name ['b'], .name ['x']]

theorem answers_after_burst :
    (((new 100).run burst).ready 500).1 = ["b/x/".toList] ∧
      PendingSince ((new 100).history burst) burstKey 120 ∧
      burstKey ∈ (((new 100).run burst).ready 500).1.map Path.parts ∧
    (new 100).history (burst ++ [.ready 500]) =
        [.touched burstKey 0, .touched [.name ['a']] 50] ++ .returned burstKey ::
          [.touched burstKey 120, .forgotten [.name ['a']]] ++ .returned burstKey :: [] ∧
      (∃ s, PathEvent.touched burstKey s ∈
        [PathEvent.touched burstKey 120, .forgotten [.name ['a']]]) ∧
    (((new 100).run (burst ++ [.touch "a".toList 0, .forget "b/x".toList])).ready 500).1 =
      (((new 100).run (burst ++ [.forget "b/x".toList, .touch "a".toList 0])).ready 500).1 := by
  have hpending : PendingSince ((new 100).history burst) burstKey 120 := by decide +kernel
  have hhistory : (new 100).history (burst ++ [.ready 500]) =
      [.touched burstKey 0, .touched [.name ['a']] 50] ++ .returned burstKey ::
        [.touched burstKey 120, .forgotten [.name ['a']]] ++ .returned burstKey :: [] := by
    decide +kernel
  obtain ⟨hready, -, -, hexchange⟩ := answers_after 100 burst
  obtain ⟨-, -, hagain, -⟩ := answers_after 100 (burst ++ [.ready 500])
  exact ⟨by decide +kernel, hpending, ((hready 500).2 _).2 ⟨120, hpending, by decide⟩, hhistory,
    hagain _ _ _ _ _ hhistory (.inl rfl),
    (hexchange _ _ [.name ['a']] burstKey [] 500 rfl rfl (by decide)).1⟩

end Formdoc.Debouncer
