import Flowscope.Flow.Course

/-!
# The table of flows over whole runs

Whatever a tracker is asked to do, it returns: the hot flow is in the table, so that the table lookup
that relies on it never fails. No flow that has ended is in the table, there are no more flows than
`max_flows` allows, and, as long as `max_flows` is not reduced, every flow that was created is in the
table, has ended, or was forgotten.
-/

namespace Flowscope

open FlowTracker

inductive TrackerOp (K : Type) where
  | track (view : PacketView)
  | sweep (now : Timestamp)
  | forceClose (key : K)
  | forget (key : K)
  | finish
  | pauseEvents
  | resumeEvents
  | setConfig (config : FlowTrackerConfig)
  | setIdleTimeoutFn (f : Option (K → Option L4Proto → Option Duration))

namespace FlowTracker

variable {K : Type} {t t' : FlowTracker K}

/-- Every flow that was created is in the table, has ended, or was forgotten. -/
def Balanced (t : FlowTracker K) : Prop :=
  t.stats.flows_created = t.stats.flows_ended + t.forgotten + t.flowCount

variable [DecidableEq K]

/-- The invariant of the table, and its capacity. -/
structure Sound (t : FlowTracker K) : Prop extends t.Inv where
  cap : t.flows.cap = max t.config.max_flows 1

variable {evs : List (FlowEvent K)}

theorem Happens.cap (h : Happens t evs t') : t'.flows.cap = t.flows.cap ∧ t'.config = t.config := by
  cases h with
  | rest flows _ counts => exact ⟨by rw [flows], counts.config⟩
  | start _ _ _ _ _ flows _ _ counts => exact ⟨flows.cap, counts.config⟩
  | packet _ _ _ _ _ _ _ _ _ flows _ _ _ counts => exact ⟨flows.cap, counts.config⟩
  | lastPacket _ _ _ _ _ _ _ _ _ _ flows _ _ _ counts => exact ⟨flows.cap, counts.config⟩
  | end_ _ _ _ flows _ _ counts => exact ⟨flows.cap, counts.config⟩
  | forget _ _ flows _ counts => exact ⟨flows.cap, counts.config⟩

theorem Happens.balanced (h : Happens t evs t') (ht : t.Balanced) : t'.Balanced := by
  unfold Balanced flowCount at ht ⊢
  cases h with
  | rest flows _ counts =>
    rw [counts.created, counts.ended, counts.forgotten, flows]
    exact ht
  | start _ _ _ _ _ flows _ _ counts =>
    rw [counts.created, counts.ended, counts.forgotten, flows.len]
    omega
  | packet _ _ _ _ _ _ _ _ _ flows _ _ _ counts =>
    rw [counts.created, counts.ended, counts.forgotten, flows.len]
    exact ht
  | lastPacket _ _ _ _ _ _ _ _ _ _ flows _ _ _ counts | end_ _ _ _ flows _ _ counts
  | forget _ _ flows _ counts =>
    have := flows.len
    rw [counts.created, counts.ended, counts.forgotten]
    omega

theorem Course.sound (h : Course t evs t') (ht : t.Sound) : t'.Sound :=
  h.keep (fun _ _ _ hs hi => ⟨hs.inv hi.toInv, by rw [hs.cap.1, hs.cap.2, hi.cap]⟩) ht

theorem Course.balanced (h : Course t evs t') (ht : t.Balanced) : t'.Balanced :=
  h.keep (fun _ _ _ hs hi => hs.balanced hi) ht

/-- There are no more flows than the settings allow. -/
theorem Sound.flowCount_le (h : t.Sound) : t.flowCount ≤ max 1 t.config.max_flows := by
  have hle : t.flowCount ≤ t.flows.cap := t.flows.len_le
  rw [h.cap] at hle
  omega

theorem Sound.setConfig (h : t.Sound) (config : FlowTrackerConfig) : (t.setConfig config).Sound where
  hot k hk := absurd hk (by simp [FlowTracker.setConfig])
  live k e he := h.live k e (LruCache.peek_of_peek_resize he)
  cap := rfl

/-- Nothing is lost where the new table has room for as many flows as the old one. -/
theorem Balanced.setConfig (h : t.Balanced) (hs : t.Sound) {config : FlowTrackerConfig}
    (hle : t.config.max_flows ≤ config.max_flows) : (t.setConfig config).Balanced := by
  have hct := hs.flowCount_le
  have hrm : t.flows.len ≤ max config.max_flows 1 := by
    unfold flowCount at hct
    omega
  have hfl : (t.setConfig config).flowCount = t.flowCount :=
    congrArg Table.size (LruCache.resize_of_len_le hrm)
  unfold Balanced at ⊢
  rw [hfl]
  exact h

end FlowTracker

namespace TrackerOp

variable {K : Type} [DecidableEq K]

/-- What a call does to the tracker. -/
def exec : TrackerOp K → FlowTracker K → Result (FlowTracker K)
  | .track view, t => (t.trackWith view).map Prod.fst
  | .sweep now, t => .ok (t.sweep now).1
  | .forceClose key, t => .ok (t.forceClose key).1
  | .forget key, t => .ok (t.forget key).1
  | .finish, t => .ok t.finish.1
  | .pauseEvents, t => .ok t.pauseEvents
  | .resumeEvents, t => .ok t.resumeEvents
  | .setConfig config, t => .ok (t.setConfig config)
  | .setIdleTimeoutFn f, t => .ok { t with idle_timeout_fn := f }

/-- The call does not reduce `max_flows`. -/
def Enlarges (op : TrackerOp K) (t : FlowTracker K) : Prop :=
  ∀ config, op = .setConfig config → t.config.max_flows ≤ config.max_flows

/-- Every call returns, and keeps what is known of the table. -/
theorem exec_sound (op : TrackerOp K) (t : FlowTracker K) (ht : t.Sound) :
    (op.exec t).Sat (fun t' => t'.Sound ∧ (op.Enlarges t → t.Balanced → t'.Balanced))
      fun _ => False := by
  have hcr : ∀ {evs : List (FlowEvent K)} {t' : FlowTracker K}, Course t evs t' →
      t'.Sound ∧ (op.Enlarges t → t.Balanced → t'.Balanced) :=
    fun h => ⟨h.sound ht, fun _ hb => h.balanced hb⟩
  cases op with
  | track view =>
    obtain ⟨t', evs, p, hok, h⟩ := trackWith_course ht.toInv view
    apply Except.Sat.map
    rw [hok]
    exact hcr h
  | sweep now => exact hcr (sweep_course ht.toInv now)
  | forceClose key =>
    obtain ⟨evs, h, -⟩ := t.forceClose_course key
    exact hcr h
  | forget key => exact hcr (t.forget_course key)
  | finish => exact hcr (sweep_course ht.toInv _)
  | pauseEvents => exact ⟨⟨⟨ht.hot, ht.live⟩, ht.cap⟩, fun _ hb => hb⟩
  | resumeEvents => exact ⟨⟨⟨ht.hot, ht.live⟩, ht.cap⟩, fun _ hb => hb⟩
  | setConfig config => exact ⟨ht.setConfig config, fun he hb => hb.setConfig ht (he config rfl)⟩
  | setIdleTimeoutFn f => exact ⟨⟨⟨ht.hot, ht.live⟩, ht.cap⟩, fun _ hb => hb⟩

theorem runs_flowTable (extractor : PacketView → Option (Extracted K)) (config : FlowTrackerConfig)
    (owned : Bool) (ops : List (TrackerOp K)) :
    ∃ t, Except.runs exec ops ((FlowTracker.withConfig extractor config).setDriverOwned owned) =
        .ok t ∧
      (∀ k, t.hot = some k → t.flows.contains k = true) ∧
      (∀ k e, t.flows.peek k = some e → e.state ≠ .closed ∧ e.state ≠ .reset) ∧
      t.flowCount ≤ max 1 t.config.max_flows ∧
      (Except.Along exec Enlarges ops
          ((FlowTracker.withConfig extractor config).setDriverOwned owned) →
        t.stats.flows_created = t.stats.flows_ended + t.forgotten + t.flowCount) := by
  obtain ⟨t0, ht0⟩ : ∃ t0, t0 = (withConfig extractor config).setDriverOwned owned :=
    ⟨_, rfl⟩
  rw [← ht0]
  have hsr : t0.Sound ∧ t0.Balanced := by
    rw [ht0]
    refine ⟨⟨⟨fun k hk => ?_, fun k e he => ?_⟩, rfl⟩, rfl⟩
    · cases hk
    · cases he
  have hall : Except.Along exec (fun (_ : TrackerOp K) _ => True) ops t0 :=
    Except.Along.of_forall (fun _ _ => trivial) t0
  obtain ⟨t, hrun, ht⟩ := (Except.runs_sat
    (fun op t _ hi => (exec_sound op t hi).imp fun _ h => h.1) hall hsr.1).exists_ok
  refine ⟨t, hrun, fun k hk => ?_, fun k e he => ?_, ht.flowCount_le, fun hal => ?_⟩
  · exact LruCache.contains_iff.mpr (ht.hot k hk)
  · have hlv := ht.live k e he
    constructor
    · rintro hs
      rw [hs] at hlv
      exact absurd hlv (by decide)
    · rintro hs
      rw [hs] at hlv
      exact absurd hlv (by decide)
  · have hbh := Except.runs_sat (I := fun t => Sound t ∧ t.Balanced)
      (fun op t hop hi => (exec_sound op t hi.1).imp fun _ h => ⟨h.1, h.2 hop hi.2⟩) hal hsr
    exact (hbh.of_ok hrun).2

end TrackerOp

end Flowscope
