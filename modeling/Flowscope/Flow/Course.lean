import Flowscope.Flow.Tracker
import Flowscope.Lib.Trace

/-!
# What happens in a tracker

Whatever is asked of a tracker, one of a few things happens to one flow at a time: it starts, it has
a packet, a packet ends it, it ends otherwise, or it is forgotten. `Happens` lists these, with the
events that report them, and the operations are sequences of them (`Course`). Facts about all
operations are proved for each thing that can happen.
-/

namespace Flowscope

open Trace LruCache

namespace FlowTracker

variable {K : Type} {t t' : FlowTracker K}

/-- The settings are kept, and so many flows are counted as created, ended and forgotten. -/
structure Counts (created ended forgotten : ℕ) (t t' : FlowTracker K) : Prop where
  extractor : t'.extractor = t.extractor
  config : t'.config = t.config
  idle_timeout_fn : t'.idle_timeout_fn = t.idle_timeout_fn
  paused : t'.events_paused = t.events_paused
  owned : t'.driver_owned = t.driver_owned
  created : t'.stats.flows_created = t.stats.flows_created + created
  ended : t'.stats.flows_ended = t.stats.flows_ended + ended
  forgotten : t'.forgotten = t.forgotten + forgotten

theorem Counts.emit {a b c : ℕ} (h : Counts a b c t t') (ev : FlowEvent K) :
    t'.emit ev = t.emit ev := by
  rw [FlowTracker.emit, FlowTracker.emit, FlowTracker.emits, FlowTracker.emits, h.owned, h.paused,
    h.config]

variable [DecidableEq K]

/-- The hot flow was hot before, and is not the one that is taken out. -/
def Cools (key : K) (t t' : FlowTracker K) : Prop :=
  ∀ k, t'.hot = some k → t.hot = some k ∧ k ≠ key

/-- One thing that happens in a tracker, with the events that report it. -/
inductive Happens : FlowTracker K → List (FlowEvent K) → FlowTracker K → Prop
  /-- Nothing happens to a flow. One that is in the table may become the hot one. -/
  | rest {t t' : FlowTracker K} (flows : t'.flows = t.flows)
      (hot : t'.hot = t.hot ∨ ∃ k e, t'.hot = some k ∧ t.flows.peek k = some e)
      (counts : Counts 0 0 0 t t') : Happens t [] t'
  /-- A flow starts. -/
  | start {t t' : FlowTracker K} (key : K) (entry : FlowEntry) (side : FlowSide)
      (orientation : Orientation) (ts : Timestamp) (flows : t.flows.Adds key entry t'.flows)
      (state : entry.state = .active) (hot : t'.hot = t.hot) (counts : Counts 1 0 0 t t') :
      Happens t (t.emit (.started key side orientation ts entry.l4)) t'
  /-- A flow has a packet. -/
  | packet {t t' : FlowTracker K} (key : K) (old new : FlowEntry) (side : FlowSide)
      (orientation : Orientation) (len : ℕ) (ts : Timestamp) (source_idx : Option ℕ)
      (became : Bool) (flows : t.flows.Sets key old new t'.flows)
      (state : new.state = old.state ∨
        ∃ flags sender fin, transition old.state flags sender fin = (new.state, became))
      (live : new.state.isTerminal = false) (hot : t'.hot = t.hot) (counts : Counts 0 0 0 t t') :
      Happens t (t.stateEvent key old.state new.state became ts new.l4 ++
        t.emit (.packet key side orientation len ts source_idx)) t'
  /-- A flow has its last packet. -/
  | lastPacket {t t' : FlowTracker K} (key : K) (old new : FlowEntry) (side : FlowSide)
      (orientation : Orientation) (len : ℕ) (ts : Timestamp) (source_idx : Option ℕ)
      (became : Bool) (reason : EndReason) (flows : t.flows.Drops key old t'.flows)
      (state : new.state = old.state ∨
        ∃ flags sender fin, transition old.state flags sender fin = (new.state, became))
      (reason_mem : reason ∈ [EndReason.fin, .rst]) (hot : Cools key t t')
      (counts : Counts 0 1 0 t t') :
      Happens t (t.stateEvent key old.state new.state became ts new.l4 ++
        t.emit (.packet key side orientation len ts source_idx) ++
        t.emit (new.ended key reason)) t'
  /-- A flow ends without a packet of its own. -/
  | end_ {t t' : FlowTracker K} (key : K) (entry : FlowEntry) (reason : EndReason)
      (flows : t.flows.Drops key entry t'.flows)
      (reason_mem : reason ∈ [EndReason.idleTimeout, .evicted, .forceClosed]) (hot : Cools key t t')
      (counts : Counts 0 1 0 t t') : Happens t (t.emit (entry.ended key reason)) t'
  /-- A flow is forgotten. -/
  | forget {t t' : FlowTracker K} (key : K) (entry : FlowEntry)
      (flows : t.flows.Drops key entry t'.flows) (hot : Cools key t t')
      (counts : Counts 0 0 1 t t') : Happens t [] t'

/-- A sequence of such things. -/
abbrev Course : FlowTracker K → List (FlowEvent K) → FlowTracker K → Prop := Trace Happens

/-- The hot flow is in the table, and so is no flow that has ended. -/
structure Inv (t : FlowTracker K) : Prop where
  hot : ∀ k, t.hot = some k → ∃ e, t.flows.peek k = some e
  live : ∀ k e, t.flows.peek k = some e → e.state.isTerminal = false

/-! ## What every happening keeps -/

variable {e : Extracted K} {key : K} {entry : FlowEntry}

theorem Inv.drop (ht : t.Inv)
    (flows : t.flows.Drops key entry t'.flows) (hot : Cools key t t') : t'.Inv := by
  refine ⟨fun k hk => ?_, fun k e he => ?_⟩
  · obtain ⟨hk, hne⟩ := hot k hk
    obtain ⟨e, he⟩ := ht.hot k hk
    exact ⟨e, by rw [flows.peek, if_neg hne, he]⟩
  · rw [flows.peek] at he
    split_ifs at he
    exact ht.live k e he

variable {evs : List (FlowEvent K)}

theorem Happens.inv (h : Happens t evs t') (ht : t.Inv) : t'.Inv := by
  cases h with
  | rest flows hot counts =>
    refine ⟨fun k hk => ?_, fun k e he => ht.live k e (flows ▸ he)⟩
    rw [flows]
    rcases hot with hot | ⟨k', e, hot, he⟩
    · exact ht.hot k (hot ▸ hk)
    · obtain rfl : k' = k := Option.some.inj (hot.symm.trans hk)
      exact ⟨e, he⟩
  | start key entry side orientation ts flows state hot counts =>
    refine ⟨fun k hk => ?_, fun k e he => ?_⟩
    · obtain ⟨e, he⟩ := ht.hot k (hot ▸ hk)
      by_cases hkey : k = key
      · exact ⟨entry, by rw [flows.peek, if_pos hkey]⟩
      · exact ⟨e, by rw [flows.peek, if_neg hkey, he]⟩
    · rw [flows.peek] at he
      split_ifs at he with hkey
      · rw [← Option.some.inj he, state]
        rfl
      · exact ht.live k e he
  | packet key old new side orientation len ts source_idx became flows state live hot counts =>
    refine ⟨fun k hk => ?_, fun k e he => ?_⟩
    · obtain ⟨e, he⟩ := ht.hot k (hot ▸ hk)
      by_cases hkey : k = key
      · exact ⟨new, by rw [flows.peek, if_pos hkey]⟩
      · exact ⟨e, by rw [flows.peek, if_neg hkey, he]⟩
    · rw [flows.peek] at he
      split_ifs at he with hkey
      · rw [← Option.some.inj he, live]
      · exact ht.live k e he
  | lastPacket key old new side orientation len ts source_idx became reason flows state hr hot =>
    exact ht.drop flows hot
  | end_ key entry reason flows hr hot counts => exact ht.drop flows hot
  | forget key entry flows hot counts => exact ht.drop flows hot

theorem Course.inv (h : Course t evs t') (ht : t.Inv) : t'.Inv :=
  h.keep (fun _ _ _ hs hi => hs.inv hi) ht

/-! ## The operations -/

section

variable (t : FlowTracker K) (key : K)

theorem flows_clearHot : (t.clearHot key).flows = t.flows := by
  unfold clearHot
  split_ifs <;> rfl

theorem cools_clearHot : Cools key t (t.clearHot key) := by
  intro k hk
  unfold clearHot at hk
  split_ifs at hk with h
  refine ⟨hk, ?_⟩
  rintro rfl
  exact h hk

theorem counts_clearHot : Counts 0 0 0 t (t.clearHot key) := by
  unfold clearHot
  split_ifs <;> exact ⟨rfl, rfl, rfl, rfl, rfl, rfl, rfl, rfl⟩

end

theorem drops_endFlow (h : t.flows.peek key = some entry) :
    t.flows.Drops key entry (t.endFlow key).flows := by
  have hfl : (t.endFlow key).flows = t.flows.pop key := flows_clearHot _ key
  rw [hfl]
  exact drops_pop h

theorem cools_endFlow (t : FlowTracker K) (key : K) : Cools key t (t.endFlow key) :=
  cools_clearHot { t with flows := t.flows.pop key } key

theorem counts_endFlow (t : FlowTracker K) (key : K) : Counts 0 1 0 t (t.endFlow key) := by
  have h := counts_clearHot { t with flows := t.flows.pop key } key
  exact ⟨h.extractor, h.config, h.idle_timeout_fn, h.paused, h.owned, h.created,
    congrArg (· + 1) h.ended, h.forgotten⟩

theorem happens_endFlow {reason : EndReason} (h : t.flows.peek key = some entry)
    (hr : reason ∈ [EndReason.idleTimeout, .evicted, .forceClosed]) :
    Happens t (t.emit (entry.ended key reason)) (t.endFlow key) :=
  .end_ key entry reason (drops_endFlow h) hr (cools_endFlow t key) (counts_endFlow t key)

/-- What `evict` does to a tracker does not depend on the table. -/
theorem evict_withFlows (t : FlowTracker K) (flows : LruCache K FlowEntry) (new : K)
    (dropped : Option (K × FlowEntry)) :
    { t with flows }.evict new dropped =
      ({ (t.evict new dropped).1 with flows }, (t.evict new dropped).2) := by
  unfold evict clearHot
  split
  · split_ifs <;> rfl
  · rfl

/-- The displaced flow ends. -/
theorem evict_happens {new : K} {old : FlowEntry} (h : t.flows.peek key = some old)
    (hne : key ≠ new) :
    Happens t (t.evict new (some (key, old))).2
      { (t.evict new (some (key, old))).1 with flows := t.flows.pop key } := by
  have het : t.evict new (some (key, old)) =
      ({ t.clearHot key with
          stats.flows_evicted := (t.clearHot key).stats.flows_evicted + 1
          stats.flows_ended := (t.clearHot key).stats.flows_ended + 1 },
        (t.clearHot key).emit (old.ended key .evicted)) := if_pos hne
  have hcn := counts_clearHot t key
  rw [het, hcn.emit]
  exact .end_ key old .evicted (drops_pop h) (by simp) (cools_clearHot t key)
    ⟨hcn.extractor, hcn.config, hcn.idle_timeout_fn, hcn.paused, hcn.owned,
      hcn.created, congrArg (· + 1) hcn.ended, hcn.forgotten⟩

/-- A new flow starts, after the flow that it displaces has ended. -/
theorem insertFlow_course (h : t.flows.peek e.key = none) (ts : Timestamp) :
    Course t (t.insertFlow e ts).2 (t.insertFlow e ts).1 := by
  unfold insertFlow
  simp only [evict_withFlows]
  rcases t.flows.push_cases h (t.newEntry e ts) with ⟨hnn, hads⟩ | ⟨k, old, hso, hne, hk, hads⟩
  · rw [hnn]
    exact single (.start e.key (t.newEntry e ts) _ _ ts hads rfl rfl
      ⟨rfl, rfl, rfl, rfl, rfl, rfl, rfl, rfl⟩)
  · rw [hso]
    have hend := evict_happens hk hne
    exact head hend (single (.start e.key (t.newEntry e ts) _ _ ts hads rfl rfl
      ⟨rfl, rfl, rfl, rfl, rfl, rfl, rfl, rfl⟩))

theorem peek_insertFlow (h : t.flows.peek e.key = none) (ts : Timestamp) :
    (t.insertFlow e ts).1.flows.peek e.key = some (t.newEntry e ts) := by
  have hfl : (t.insertFlow e ts).1.flows = (t.flows.push e.key (t.newEntry e ts)).1 := by
    unfold insertFlow
    dsimp only
    rw [evict_withFlows]
  rw [hfl]
  rcases t.flows.push_cases h (t.newEntry e ts) with ⟨-, hads⟩ | ⟨k, old, -, -, -, hads⟩
  · rw [hads.peek, if_pos rfl]
  · rw [hads.peek, if_pos rfl]

omit [DecidableEq K] in
/-- The next state is the same or that of a transition, and the event reports the change. -/
theorem stepState_spec (t : FlowTracker K) (key : K) (entry : FlowEntry) (tcp : Option TcpInfo)
    (side : FlowSide) (ts : Timestamp) :
    ∃ became, ((t.stepState key entry tcp side ts).1.state = entry.state ∨
        ∃ flags sender fin, transition entry.state flags sender fin =
          ((t.stepState key entry tcp side ts).1.state, became)) ∧
      (t.stepState key entry tcp side ts).2 = t.stateEvent key entry.state
        (t.stepState key entry tcp side ts).1.state became ts
        (t.stepState key entry tcp side ts).1.l4 := by
  cases tcp with
  | none => exact ⟨false, .inl rfl, (if_pos rfl).symm⟩
  | some tcp => exact ⟨_, .inr ⟨tcp.flags, side, _, rfl⟩, rfl⟩

/-- A flow whose last packet was accounted for stays in the table as the hot one, or ends. -/
theorem settle_cases (h : t.flows.peek key = some entry) :
    (entry.state.isTerminal = false ∧ t.settle key = ({ t with hot := some key }, [])) ∨
      ∃ reason ∈ [EndReason.fin, .rst],
        t.settle key = (t.endFlow key, t.emit (entry.ended key reason)) := by
  unfold settle
  rw [h]
  dsimp only
  split_ifs with htr
  · split <;> simp
  · left
    exact ⟨by simpa using htr, rfl⟩

/-- A packet that changes the entry of a flow, and ends the flow if the new state is terminal. -/
theorem settle_course {old new : FlowEntry} {became : Bool} (side : FlowSide)
    (orientation : Orientation) (len : ℕ) (ts : Timestamp) (source_idx : Option ℕ)
    (h : t.flows.peek key = some old)
    (hst : new.state = old.state ∨
      ∃ flags sender fin, transition old.state flags sender fin = (new.state, became)) :
    Course t (t.stateEvent key old.state new.state became ts new.l4 ++
        t.emit (.packet key side orientation len ts source_idx) ++
        ({ t with flows := t.flows.set key new }.settle key).2)
      ({ t with flows := t.flows.set key new }.settle key).1 := by
  have hss : t.flows.Sets key old new (t.flows.set key new) := sets_set h
  have hpk : (t.flows.set key new).peek key = some new := by rw [hss.peek, if_pos rfl]
  rcases settle_cases (t := { t with flows := t.flows.set key new }) hpk with
    ⟨hlv, hsl⟩ | ⟨reason, hrn, hsl⟩
  · rw [hsl]
    -- the flow has its packet, and then it is the hot one
    have hpc : Happens t _ { t with flows := t.flows.set key new } :=
      .packet key old new side orientation len ts source_idx became hss hst hlv rfl
        ⟨rfl, rfl, rfl, rfl, rfl, rfl, rfl, rfl⟩
    have hhot : Happens { t with flows := t.flows.set key new } []
        { t with flows := t.flows.set key new, hot := some key } :=
      .rest rfl (.inr ⟨key, new, rfl, hpk⟩) ⟨rfl, rfl, rfl, rfl, rfl, rfl, rfl, rfl⟩
    exact head hpc (single hhot)
  · rw [hsl]
    have hcl := cools_endFlow { t with flows := t.flows.set key new } key
    have hcn := counts_endFlow { t with flows := t.flows.set key new } key
    have hdr : t.flows.Drops key old
        (({ t with flows := t.flows.set key new } : FlowTracker K).endFlow key).flows :=
      hss.drops (drops_endFlow (t := { t with flows := t.flows.set key new }) hpk)
    exact single (.lastPacket key old new side orientation len ts source_idx became reason
      hdr hst hrn hcl ⟨hcn.extractor, hcn.config, hcn.idle_timeout_fn,
        hcn.paused, hcn.owned, hcn.created, hcn.ended, hcn.forgotten⟩)

theorem process_course (h : t.flows.peek e.key = some entry) (view : PacketView) (is_new : Bool) :
    Course t (t.process view e is_new entry).2 (t.process view e is_new entry).1 := by
  obtain ⟨became, hst, hev⟩ := t.stepState_spec e.key
    (entry.account e view t.config.active_idle_threshold is_new) e.tcp
    (entry.sideFor e.orientation) view.timestamp
  have hcr := settle_course (entry.sideFor e.orientation) e.orientation (e.packetLen view)
    view.timestamp (if t.config.emit_packet_source_idx && view.source_idx ≠ 0
      then some view.source_idx else none) h hst
  unfold process
  dsimp only
  rw [hev]
  exact hcr

section

variable (ht : t.Inv)
include ht

/-- A flow that is idle for too long ends. -/
theorem expire_course (key : K) : Course t (t.expire key).2 (t.expire key).1 := by
  unfold expire
  cases h : t.flows.peek key with
  | none => exact refl t
  | some entry =>
    have hlv := ht.live key entry h
    have hst : ¬(entry.state = .closed ∨ entry.state = .reset) := by
      rintro (hs | hs) <;> rw [hs] at hlv <;> exact absurd hlv (by decide)
    dsimp only
    rw [if_neg hst]
    exact single (happens_endFlow h (by simp))

theorem expireAll_course (keys : List K) : Course t (t.expireAll keys).2 (t.expireAll keys).1 := by
  induction keys generalizing t with
  | nil => exact refl t
  | cons key keys ih =>
    have hfr := expire_course ht key
    exact hfr.trans (ih (hfr.inv ht))

theorem sweep_course (now : Timestamp) : Course t (t.sweep now).2 (t.sweep now).1 := by
  have hrs : Happens t [] { t with last_sweep_ts := some now } :=
    .rest rfl (.inl rfl) ⟨rfl, rfl, rfl, rfl, rfl, rfl, rfl, rfl⟩
  exact head hrs (expireAll_course (hrs.inv ht) _)

theorem autoSweep_course (ts : Timestamp) : Course t (t.autoSweep ts).2 (t.autoSweep ts).1 := by
  unfold autoSweep
  split_ifs
  · exact sweep_course ht ts
  · exact refl t

/-- A packet's flow is in the table once it was entered. -/
theorem enter_course (e : Extracted K) (ts : Timestamp) :
    Course t (t.enter e ts).2 (t.enter e ts).1 ∧
      ∃ entry, (t.enter e ts).1.flows.peek e.key = some entry := by
  unfold enter
  split_ifs with hnew
  · have hnn : t.flows.peek e.key = none := by
      simp only [isNew, Bool.and_eq_true, Bool.not_eq_true', contains_eq_false] at hnew
      exact hnew.2
    exact ⟨insertFlow_course hnn ts, _, peek_insertFlow hnn ts⟩
  · refine ⟨refl t, ?_⟩
    simp only [isNew, Bool.and_eq_true, Bool.not_eq_true', decide_eq_false_iff_not, not_and,
      Bool.not_eq_false] at hnew
    by_cases hhot : t.hot = some e.key
    · exact ht.hot e.key hhot
    · exact contains_iff.mp (hnew hhot)

/-- A packet is tracked: the flow is found, whether or not the hot key was believed. -/
theorem trackWith_course (view : PacketView) :
    ∃ t' evs p, t.trackWith view = .ok (t', evs, p) ∧ Course t evs t' := by
  unfold trackWith
  cases t.matchPacket view with
  | none =>
    exact ⟨_, _, _, rfl, single (.rest rfl (.inl rfl) ⟨rfl, rfl, rfl, rfl, rfl, rfl, rfl, rfl⟩)⟩
  | some e =>
    obtain ⟨hen, entry, hey⟩ := enter_course ht e view.timestamp
    dsimp only
    rw [hey]
    have hpr := process_course hey view (t.isNew e.key)
    have hbh : Course t _ _ := hen.trans hpr
    exact ⟨_, _, _, rfl, hbh.trans (autoSweep_course (hbh.inv ht) view.timestamp)⟩

end

theorem forceClose_course (t : FlowTracker K) (key : K) : ∃ evs, Course t evs (t.forceClose key).1 ∧
    (t.driver_owned = true → evs = (t.forceClose key).2.toList) := by
  unfold forceClose
  cases h : t.flows.peek key with
  | none => exact ⟨[], refl t, fun _ => rfl⟩
  | some entry =>
    have hend : Happens t (t.emit (entry.ended key .forceClosed)) (t.endFlow key) :=
      happens_endFlow h (by simp)
    refine ⟨_, single hend, fun how => ?_⟩
    have hem : t.emits .ended = true := by simp [emits, how]
    exact if_pos hem

theorem forget_course (t : FlowTracker K) (key : K) : Course t [] (t.forget key).1 := by
  unfold forget
  split_ifs with h
  · obtain ⟨entry, hey⟩ := contains_iff.mp h
    have hcn := counts_clearHot { t with flows := t.flows.pop key } key
    have hfl : (t.removeFlow key).flows = t.flows.pop key := flows_clearHot _ key
    refine single (.forget key entry ?_ (cools_clearHot { t with flows := t.flows.pop key } key)
      ⟨hcn.extractor, hcn.config, hcn.idle_timeout_fn, hcn.paused, hcn.owned,
        hcn.created, hcn.ended, congrArg (· + 1) hcn.forgotten⟩)
    rw [hfl]
    exact drops_pop hey
  · exact refl t

end FlowTracker

end Flowscope
