import Flowscope.Http.Tracking
import Flowscope.Http.Boundary

/-!
# HTTP/1 bytes may be cut anywhere

`Engine.feed` pushes bytes in pieces, and polls until nothing is reported after each of them. What it
reports does not depend on how the bytes were cut (`feed_cuts`), and the bytes that the events report
as consumed, followed by those that are still buffered, are the bytes that were taken.

The one exception is a chunk-size line of exactly the largest allowed length (`Engine.Critical`): it is
refused if all of it but its LF arrives first.
-/

namespace Flowscope.Http

open List EngineEvent

namespace Engine

variable {hp : Httparse} {e e' : Engine} {dir : Dir}

/-! ## Polling until nothing is reported -/

variable {ev : EngineEvent}

theorem Round.left_lt (h : Round hp e dir e' (.ok (.event ev))) : e'.left dir < e.left dir := by
  cases h with
  | preface _ hst =>
    rw [left, left, state_switchToTunnel, buf_switchToTunnel, hst]
    exact Nat.lt_succ_self _
  | head hlen head _ _ hst hsc _ _ hfd =>
    obtain ⟨hlt, hle, -, -⟩ := blankFrom_eq_some.mp hsc
    refine Engine.left_lt (Nat.zero_lt_of_lt hlt) hle ?_ (.inl hst)
    rw [hfd.buf.2, dir_setDir]
    exact length_drop
  | switch kind hst =>
    rw [left, left, state_switchToTunnel, buf_switchToTunnel, hst]
    exact Nat.lt_add_of_pos_right Nat.two_pos
  | done hst =>
    rw [left, left, dir_setDir, hst]
    split_ifs with hcls
    · exact Nat.lt_add_of_pos_right Nat.two_pos
    · exact Nat.lt_succ_self _
  | span n _ b _ _ hst hpos hlen =>
    refine Engine.left_lt hpos hlen ?_ (.inr ⟨b, hst⟩)
    rw [dir_setDir]
    exact length_drop
  | trailers n _ hst hpos hlen =>
    refine Engine.left_lt hpos hlen ?_ (.inr ⟨_, hst⟩)
    rw [dir_setDir]
    exact length_drop

theorem Polled.left_lt (h : Polled hp dir e e' (.ok (some ev))) : e'.left dir < e.left dir := by
  generalize hr : (.ok (some ev) : Except HttpPoison (Option EngineEvent)) = r at h
  induction h with
  | event hrn =>
    exact hrn.left_lt
  | wait | lost => cases hr
  | again hrn _ ih =>
    refine (ih hr).trans_le ?_
    cases hrn with
    | restart i hst =>
      rw [left, left, hst]
      simp
    | lastChunk eol hst =>
      rw [left, left, dir_setDir, hst]

variable (hp) in
/-- Poll a direction until it reports nothing, and collect the events. -/
def drain (e : Engine) (dir : Dir) : Engine × List EngineEvent :=
  match _h : e.poll hp dir with
  | (e', .ok (some ev)) => ((drain e' dir).1, ev :: (drain e' dir).2)
  | (e', _) => (e', [])
termination_by e.left dir
decreasing_by
  all_goals exact (polled_of_poll _h).left_lt

variable (hp) in
/-- Push pieces, and poll until nothing is reported after each of them. -/
def feed (e : Engine) (dir : Dir) : List Bytes → Engine × List EngineEvent
  | [] => (e, [])
  | piece :: cuts =>
    let (e₁, events) := (e.push dir piece).drain hp dir
    let (e₂, more) := feed e₁ dir cuts
    (e₂, events ++ more)

variable (hp) in
/-- The bytes of the pieces that are pushed while the direction still parses what it is given. -/
def taken (e : Engine) (dir : Dir) : List Bytes → Bytes
  | [] => []
  | piece :: cuts =>
    if e.canConsume dir then piece ++ taken ((e.push dir piece).drain hp dir).1 dir cuts else []

variable (hp) in
/-- The engines that a direction goes through while it is polled for events. -/
inductive Polls (dir : Dir) (e : Engine) : Engine → Prop
  | refl : Polls dir e e
  | tail {e₁ e₂ : Engine} {ev : EngineEvent} (h : Polls dir e e₁)
      (hpoll : e₁.poll hp dir = (e₂, .ok (some ev))) : Polls dir e e₂

theorem Polls.head {e₁ e₂ : Engine} (hpoll : e.poll hp dir = (e₁, .ok (some ev)))
    (h : Polls hp dir e₁ e₂) : Polls hp dir e e₂ := by
  induction h with
  | refl => exact .tail .refl hpoll
  | tail _ hls ih => exact .tail ih hls

theorem drain_of_event (h : e.poll hp dir = (e', .ok (some ev))) :
    e.drain hp dir = ((e'.drain hp dir).1, ev :: (e'.drain hp dir).2) := by
  rw [drain]
  split
  · next heq =>
    rw [h] at heq
    cases heq
    rfl
  · next hnot heq =>
    rw [h] at heq
    cases heq
    exact absurd rfl (hnot ev)

variable {r : Except HttpPoison (Option EngineEvent)} {cuts : List Bytes}

theorem drain_of_quiet (h : e.poll hp dir = (e', r))
    (hr : ∀ ev, r ≠ .ok (some ev)) : e.drain hp dir = (e', []) := by
  rw [drain]
  split
  · next ev heq =>
    rw [h] at heq
    cases heq
    exact absurd rfl (hr ev)
  · next heq =>
    rw [h] at heq
    cases heq
    rfl

variable (hp dir) in
/-- An induction over the polls that report something. -/
theorem drain_induction {P : Engine → Prop}
    (quiet : ∀ e e' r, e.poll hp dir = (e', r) → (∀ ev, r ≠ .ok (some ev)) → P e)
    (event : ∀ e e' ev, e.poll hp dir = (e', .ok (some ev)) → P e' → P e) (e : Engine) : P e := by
  induction hn : e.left dir using Nat.strong_induction_on generalizing e with
  | _ n ih =>
    match hpoll : e.poll hp dir with
    | (e', .ok (some ev)) =>
      exact event e e' ev hpoll (ih _ (hn ▸ (polled_of_poll hpoll).left_lt) e' rfl)
    | (e', .ok none) => exact quiet e e' _ hpoll nofun
    | (e', .error reason) => exact quiet e e' _ hpoll nofun

section

variable (h : e.canConsume dir = false)
include h

/-- A direction that parses nothing more reports nothing. -/
theorem drain_of_not_canConsume : e.drain hp dir = (e, []) := by
  obtain ⟨he, hr⟩ := (poll_polled hp e dir).of_not_canConsume h
  exact drain_of_quiet (Prod.ext he hr) nofun

theorem push_of_not_canConsume (bytes : Bytes) : e.push dir bytes = e :=
  if_pos (.inr (by rw [h]; exact Bool.false_ne_true))

theorem feed_of_not_canConsume (cuts : List Bytes) : e.feed hp dir cuts = (e, []) := by
  induction cuts with
  | nil => rfl
  | cons piece cuts ih =>
    rw [feed, push_of_not_canConsume h, drain_of_not_canConsume h]
    dsimp only
    rw [ih]
    rfl

end

/-! ## What is told -/

/-- The direction can be followed: it does not look for a head after bytes were missing, and its scans
have overlooked nothing. -/
structure Followed (e : Engine) (dir : Dir) : Prop where
  valid : (e.dir dir).Valid e.limits
  state : (e.dir dir).state ≠ .resync

theorem Followed.of_new (h : e.dir dir = .new) : e.Followed dir := by
  constructor
  · rw [h]
    exact DirMachine.valid_of_scanned rfl nofun
  · rw [h]
    nofun

theorem Polled.followed (h : Polled hp dir e e' r) (hf : e.Followed dir) : e'.Followed dir :=
  ⟨h.valid_self hf.valid, h.not_resync hf.state⟩

theorem Followed.push (hf : e.Followed dir) (bytes : Bytes) : (e.push dir bytes).Followed dir := by
  rcases e.push_cases dir bytes with heq | heq
  · rwa [heq]
  · rw [heq]
    refine ⟨?_, ?_⟩
    · rw [dir_setDir, limits_setDir]
      exact hf.valid.append bytes
    · rw [dir_setDir]
      exact hf.state

theorem Followed.drain (hf : e.Followed dir) (hp : Httparse) : (e.drain hp dir).1.Followed dir := by
  induction e using drain_induction hp dir with
  | quiet e e' r hpoll hr =>
    rw [drain_of_quiet hpoll hr]
    exact (polled_of_poll hpoll).followed hf
  | event e e' ev hpoll ih =>
    rw [drain_of_event hpoll]
    exact ih ((polled_of_poll hpoll).followed hf)

/-- An engine that has told `told` is where the reader is. -/
def Agrees (dir : Dir) (told : List Atom) (e : Engine) : Except Ending Reading → Prop
  | .ok s => e.canConsume dir = true ∧ s = ⟨e.rewind dir, told⟩
  | .error r => e.canConsume dir = false ∧ r = ⟨told, (e.dir dir).state, (e.dir dir).poison⟩

theorem Followed.tracks (hf : e.Followed dir) (hcn : e.canConsume dir = true)
    (hpoll : e.poll hp dir = (e', r)) (told : List Atom) :
    Tracks hp dir ⟨e.rewind dir, told⟩ (e', r) :=
  hpoll ▸ poll_tracks hf.valid hf.state hcn told

/-- Polling until nothing is reported is a run of the reader. -/
theorem drain_agrees (hp : Httparse) (hf : e.Followed dir) (hcn : e.canConsume dir = true)
    (told : List Atom) :
    Agrees dir (told ++ (e.drain hp dir).2.flatMap atoms) (e.drain hp dir).1
      ((reader hp dir).run ⟨e.rewind dir, told⟩) := by
  induction e using drain_induction hp dir generalizing told with
  | quiet e e' r hpoll hr =>
    have hts := hf.tracks hcn hpoll told
    rw [drain_of_quiet hpoll hr, flatMap_nil, append_nil]
    match r with
    | .ok none =>
      obtain ⟨hwt, he⟩ := hts
      rw [Reader.run_of_wait hwt]
      refine ⟨?_, by rw [he]⟩
      rw [← canConsume_rewind, he, canConsume_rewind]
      exact hcn
    | .error reason =>
      obtain ⟨hst, hpo⟩ := (polled_of_poll hpoll).lost_state
      have hsp : (reader hp dir).turn ⟨e.rewind dir, told⟩ = _ := hts
      rw [Reader.run_of_stop hsp]
      refine ⟨?_, ?_⟩
      · rw [canConsume, hst]
      · rw [hst, hpo]
    | .ok (some ev) => exact absurd rfl (hr ev)
  | event e e' ev hpoll ih =>
    have hts := hf.tracks hcn hpoll told
    rw [Tracks] at hts
    rw [drain_of_event hpoll, flatMap_cons, ← append_assoc]
    split_ifs at hts with hcn'
    · rw [hts.run]
      exact ih ((polled_of_poll hpoll).followed hf) hcn' _
    · have hid := Bool.eq_false_iff.mpr hcn'
      rw [Reader.run_of_stop hts, drain_of_not_canConsume hid, flatMap_nil, append_nil]
      exact ⟨hid, rfl⟩

/-- No line that the direction is polled at is critical, so none that the reader visits is. -/
theorem not_critical_of_visits (hf : e.Followed dir) (hcn : e.canConsume dir = true)
    (hli : ∀ e', Polls hp dir e e' → ¬e'.Critical dir) {told : List Atom} {t : Reading}
    (ht : (reader hp dir).Visits ⟨e.rewind dir, told⟩ t) : ¬t.engine.Critical dir := by
  induction e using drain_induction hp dir generalizing told with
  | quiet e e' r hpoll hr =>
    have hsf : ¬(e.rewind dir).Critical dir := fun h => hli e .refl (critical_rewind.mp h)
    have hts := hf.tracks hcn hpoll told
    -- the reader makes no turn
    have htr (s' : Reading) : (reader hp dir).turn ⟨e.rewind dir, told⟩ ≠ .next s' := by
      change turn hp dir _ ≠ _
      match r with
      | .ok none => rw [hts.1]; nofun
      | .error reason => rw [hts]; nofun
      | .ok (some ev) => exact absurd rfl (hr ev)
    rcases ht.cases_head with rfl | ⟨s', hnx, -⟩
    · exact hsf
    · exact absurd hnx (htr s')
  | event e e' ev hpoll ih =>
    have hsf : ¬(e.rewind dir).Critical dir := fun h => hli e .refl (critical_rewind.mp h)
    have hts := hf.tracks hcn hpoll told
    rw [Tracks] at hts
    split_ifs at hts with hcn'
    · rcases hts.visits ht with rfl | hoff | hvs
      · exact hsf
      · intro hcr
        rw [OffLine, hcr.1] at hoff
        cases hoff
      · exact ih ((polled_of_poll hpoll).followed hf) hcn'
          (fun e₂ h => hli e₂ (h.head hpoll)) hvs
    · rcases ht.cases_head with rfl | ⟨s', hnx, -⟩
      · exact hsf
      · rw [show (reader hp dir).turn _ = _ from hts] at hnx
        cases hnx

theorem push_of_canConsume (hcn : e.canConsume dir = true) (bytes : Bytes) :
    e.push dir bytes = e.more dir bytes := by
  unfold push
  by_cases hnil : bytes = []
  · rw [hnil, more, append_nil]
    exact (setDir_dir e dir).symm
  · rw [if_neg (by simp [hnil, hcn]), more]

theorem canConsume_push (e : Engine) (dir : Dir) (bytes : Bytes) :
    (e.push dir bytes).canConsume dir = e.canConsume dir := by
  rw [canConsume, canConsume, state_push]

theorem rewind_push (hcn : e.canConsume dir = true) (bytes : Bytes) :
    (e.push dir bytes).rewind dir = (e.rewind dir).more dir bytes := by
  rw [push_of_canConsume hcn, more, more, rewind_setDir, setDir_rewind, dir_rewind]
  rfl

/-- Feeding pieces is a run of the reader over all of them. -/
theorem feed_agrees (hf : e.Followed dir) (hcn : e.canConsume dir = true) {told : List Atom}
    (hwt : (reader hp dir).turn ⟨e.rewind dir, told⟩ = .wait) {cuts : List Bytes}
    (hli : ∀ t, (reader hp dir).Visits ((reader hp dir).more ⟨e.rewind dir, told⟩ cuts.flatten) t →
      ¬t.engine.Critical dir) :
    Agrees dir (told ++ (e.feed hp dir cuts).2.flatMap atoms) (e.feed hp dir cuts).1
      ((reader hp dir).run ((reader hp dir).more ⟨e.rewind dir, told⟩ cuts.flatten)) := by
  induction cuts generalizing e told with
  | nil =>
    rw [flatten_nil, (reader hp dir).more_nil, Reader.run_of_wait hwt]
    refine ⟨hcn, ?_⟩
    rw [feed, flatMap_nil, append_nil]
  | cons piece cuts ih =>
    obtain ⟨s, hs⟩ : ∃ s, s = (reader hp dir).more ⟨e.rewind dir, told⟩ piece := ⟨_, rfl⟩
    have hps : s = ⟨(e.push dir piece).rewind dir, told⟩ := by
      rw [hs, rewind_push hcn]
      rfl
    rw [flatten_cons, (reader hp dir).more_append, ← hs] at hli ⊢
    have hsl : ∀ t, (reader hp dir).Visits s t →
        (reader hp dir).Visits ((reader hp dir).more s cuts.flatten)
          ((reader hp dir).more t cuts.flatten) →
        (reader hp dir).StableAt t cuts.flatten :=
      fun t _ ht => stableAt (hli _ ht)
    rw [Reader.run_more hsl]
    -- the first piece alone
    have hdrn := drain_agrees hp (hf.push piece)
      ((canConsume_push e dir piece).trans hcn) told
    have hf' := (hf.push piece).drain hp
    rw [← hps] at hdrn
    rw [feed]
    dsimp only at hdrn hf' ⊢
    rw [flatMap_append, ← append_assoc]
    cases hrun : (reader hp dir).run s with
    | error r =>
      rw [hrun] at hdrn
      rw [feed_of_not_canConsume hdrn.1, flatMap_nil, append_nil]
      exact hdrn
    | ok s' =>
      rw [hrun] at hdrn
      obtain ⟨hcn', rfl⟩ := hdrn
      obtain ⟨hvs, hwt'⟩ := Reader.visits_of_run hrun
      exact ih hf' hcn' hwt' fun t ht => hli t ((hvs.more hsl).trans ht)

/-! ## What is consumed -/

theorem drain_raw (hp : Httparse) (hf : e.Followed dir)
    (hsy : (e.drain hp dir).1.isDesynced dir = false) :
    (e.drain hp dir).2.flatMap raw ++ ((e.drain hp dir).1.dir dir).buf =
      (e.dir dir).buf := by
  induction e using drain_induction hp dir with
  | quiet e e' r hpoll hr =>
    have hpd := polled_of_poll hpoll
    rw [drain_of_quiet hpoll hr] at hsy ⊢
    match r with
    | .ok none => exact hpd.spent_append hf.state
    | .ok (some ev) => exact absurd rfl (hr ev)
    | .error reason => simp [isDesynced, hpd.lost_state.1] at hsy
  | event e e' ev hpoll ih =>
    have hpd := polled_of_poll hpoll
    rw [drain_of_event hpoll] at hsy ⊢
    rw [flatMap_cons, append_assoc, ih (hpd.followed hf) hsy]
    exact hpd.spent_append hf.state

/-- The bytes that are reported and those that are still buffered are those that were taken. -/
theorem feed_raw (hf : e.Followed dir) (hsy : (e.feed hp dir cuts).1.isDesynced dir = false) :
    (e.feed hp dir cuts).2.flatMap raw ++ ((e.feed hp dir cuts).1.dir dir).buf =
      (e.dir dir).buf ++ e.taken hp dir cuts := by
  induction cuts generalizing e with
  | nil => rw [taken, append_nil]; rfl
  | cons piece cuts ih =>
    by_cases hcn : e.canConsume dir = true
    · have hf' := (hf.push piece).drain hp
      have hdrn := drain_raw hp (hf.push piece)
      rw [feed] at hsy ⊢
      rw [taken, if_pos hcn]
      generalize hd : (e.push dir piece).drain hp dir = d at *
      obtain ⟨e₁, events⟩ := d
      dsimp only at *
      -- a direction that is given up stays so
      have hsy1 : e₁.isDesynced dir = false := by
        by_contra hlo
        have hst : (e₁.dir dir).state = .desynced := by simpa [isDesynced] using hlo
        have hid : e₁.canConsume dir = false := by rw [canConsume, hst]
        rw [feed_of_not_canConsume hid] at hsy
        exact hlo hsy
      rw [flatMap_append, append_assoc, ih hf' hsy, ← append_assoc, hdrn hsy1,
        buf_push hcn, append_assoc]
    · have hid := Bool.eq_false_iff.mpr hcn
      rw [feed_of_not_canConsume hid, taken, if_neg hcn, append_nil]
      rfl

/-- Of a direction that still parses what it is given, all pieces were taken. -/
theorem taken_eq_flatten (hcn : (e.feed hp dir cuts).1.canConsume dir = true) :
    e.taken hp dir cuts = cuts.flatten := by
  induction cuts generalizing e with
  | nil => rfl
  | cons piece cuts ih =>
    have hbf : e.canConsume dir = true := by
      by_contra hid
      rw [feed_of_not_canConsume (Bool.eq_false_iff.mpr hid)] at hcn
      exact hid hcn
    rw [taken, if_pos hbf, ih hcn, flatten_cons]

/-! ## Cuts -/

theorem headAhead_nil (hp : Httparse) (limits : EngineLimits) (dir : Dir) :
    headAhead hp limits dir [] = .wait := by
  have hbl : blankFrom [] 0 = none := by
    rw [blankFrom]
    exact if_neg (Nat.not_lt_zero 0)
  unfold headAhead
  cases dir with
  | request => rfl
  | response =>
    rw [hbl]
    exact if_neg (Nat.not_lt_zero _)

/-- Two engines that are where the reader is. -/
theorem Agrees.unique {told told' : List Atom} {out : Except Ending Reading}
    (h : Agrees dir told e out) (h' : Agrees dir told' e' out) :
    told = told' ∧ e.isDesynced dir = e'.isDesynced dir ∧
      (e.dir dir).poison = (e'.dir dir).poison := by
  match out with
  | .ok s =>
    obtain ⟨hcn, rfl⟩ := h
    obtain ⟨hcn', heq⟩ := h'
    obtain ⟨hrw, htl⟩ := Reading.mk.inj heq
    have hsy {e : Engine} (h : e.canConsume dir = true) : e.isDesynced dir = false := by
      rw [isDesynced, decide_eq_false_iff_not]
      intro hst
      rw [canConsume, hst] at h
      cases h
    refine ⟨htl, (hsy hcn).trans (hsy hcn').symm, ?_⟩
    have := congrArg (fun e => (e.dir dir).poison) hrw
    rwa [dir_rewind, dir_rewind] at this
  | .error r =>
    obtain ⟨-, rfl⟩ := h
    obtain ⟨-, heq⟩ := h'
    obtain ⟨htl, hst, hpo⟩ := Ending.mk.inj heq
    refine ⟨htl, ?_, hpo⟩
    rw [isDesynced, isDesynced, hst]

/-- What a new direction tells of a stream that is pushed in pieces, and whether and why its framing is
lost, are those of a reader of the whole stream. -/
theorem feed_agrees_of_new (hnew : e.dir dir = .new) {stream : Bytes}
    (hli : ∀ e', Polls hp dir (e.push dir stream) e' → ¬e'.Critical dir)
    (hct : cuts.flatten = stream) :
    Agrees dir ((e.feed hp dir cuts).2.flatMap atoms) (e.feed hp dir cuts).1
      ((reader hp dir).run ((reader hp dir).more ⟨e.rewind dir, []⟩ stream)) := by
  have hf := Followed.of_new hnew
  have hcn : e.canConsume dir = true := by rw [canConsume, hnew]; rfl
  have hwt : (reader hp dir).turn ⟨e.rewind dir, []⟩ = .wait := by
    change turn hp dir _ = _
    rw [turn_rewind, Engine.ahead, hnew]
    exact congrArg (act dir _) (headAhead_nil hp e.limits dir)
  -- the lines that the reader visits are those that the engine is polled at
  have hvs : ∀ t, (reader hp dir).Visits ((reader hp dir).more ⟨e.rewind dir, []⟩ stream) t →
      ¬t.engine.Critical dir := by
    intro t ht
    have hsr : (reader hp dir).more ⟨e.rewind dir, []⟩ stream =
        ⟨(e.push dir stream).rewind dir, []⟩ := by
      rw [rewind_push hcn]
      rfl
    rw [hsr] at ht
    exact not_critical_of_visits (hf.push stream) ((canConsume_push ..).trans hcn) hli ht
  have := @feed_agrees hp e dir hf hcn [] hwt cuts (by rwa [hct])
  rwa [hct] at this

/-- The spans of a direction partition its bytes, and what it tells does not depend on how they are cut.
The bytes of the stream are pushed in pieces, with polls until nothing is reported after each. Unless
the framing is lost, the bytes of the events and those still buffered are the bytes of the pieces that
were pushed up to a switch or a close, and all bytes if there was none. Heads, bodies, trailers, ends
and switches, and whether and why the framing is lost, are as if the stream was pushed at once. No
chunk-size line may have exactly the largest allowed length. -/
theorem feed_cuts (hp : Httparse) (e : Engine) (dir : Dir) (hnew : e.dir dir = .new) (stream : Bytes)
    (hline : ∀ e', Polls hp dir (e.push dir stream) e' → ¬e'.Critical dir) (cuts : List Bytes)
    (hcuts : cuts.flatten = stream) :
    ((e.feed hp dir cuts).1.isDesynced dir = false →
      (e.feed hp dir cuts).2.flatMap EngineEvent.raw ++ ((e.feed hp dir cuts).1.dir dir).buf =
        e.taken hp dir cuts) ∧
    ((e.feed hp dir cuts).1.canConsume dir = true → e.taken hp dir cuts = stream) ∧
    (e.feed hp dir cuts).2.flatMap EngineEvent.atoms =
      (e.feed hp dir [stream]).2.flatMap EngineEvent.atoms ∧
    (e.feed hp dir cuts).1.isDesynced dir = (e.feed hp dir [stream]).1.isDesynced dir ∧
    ((e.feed hp dir cuts).1.dir dir).poison = ((e.feed hp dir [stream]).1.dir dir).poison := by
  refine ⟨fun hsy => ?_, fun hend => ?_, ?_⟩
  · have := feed_raw (Followed.of_new hnew) hsy
    rwa [hnew] at this
  · rw [taken_eq_flatten hend, hcuts]
  · exact (feed_agrees_of_new hnew hline hcuts).unique (feed_agrees_of_new hnew hline (by simp))

/-- A line that is within the buffer is shorter than the buffer. -/
theorem Polls.not_critical (h : Polls hp dir e e') (hf : e.Followed dir)
    (hsh : (e.dir dir).buf.length ≤ e.limits.max_chunk_line_bytes) : ¬e'.Critical dir := by
  have hkt : e'.Followed dir ∧ e'.limits = e.limits ∧
      (e'.dir dir).buf.length ≤ (e.dir dir).buf.length := by
    induction h with
    | refl => exact ⟨hf, rfl, le_rfl⟩
    | tail _ hpoll ih =>
      have hpd := polled_of_poll hpoll
      obtain ⟨hf1, hlm, hle⟩ := ih
      refine ⟨hpd.followed hf1, hpd.limits.trans hlm, le_trans ?_ hle⟩
      rw [← hpd.spent_append hf1.state, length_append]
      exact Nat.le_add_left _ _
  rintro ⟨-, hcf⟩
  have := findCrlf_lt hcf
  rw [hkt.2.1] at this
  omega

/-- A request head in two pieces, cut within its blank line. -/
theorem feed_cuts_head :
    (new {}).dir .request = .new ∧
      [plainHead.take 23, plainHead.drop 23].flatten = plainHead ∧
      ((new {}).feed lineHttparse .request [plainHead.take 23, plainHead.drop 23]).2.flatMap
          EngineEvent.atoms =
        ((new {}).feed lineHttparse .request [plainHead]).2.flatMap EngineEvent.atoms := by
  refine ⟨rfl, by decide +kernel, ?_⟩
  refine (feed_cuts lineHttparse (new {}) .request rfl plainHead (fun e' h => ?_)
    [plainHead.take 23, plainHead.drop 23] (by decide +kernel)).2.2.1
  refine h.not_critical ?_ (by decide +kernel)
  exact (Followed.of_new rfl).push plainHead

/-- Whether a direction is given up, for a size cap (`headOverflow`, `chunkLineOverflow`,
`trailerOverflow`) or any other reason, does not depend on how its bytes are cut, as long as no
chunk-size line has exactly the largest allowed length. -/
theorem overflow_cuts (hp : Httparse) (e : Engine) (dir : Dir) (hnew : e.dir dir = .new)
    (stream : Bytes) (hline : ∀ e', Polls hp dir (e.push dir stream) e' → ¬e'.Critical dir)
    (cuts cuts' : List Bytes) (hcuts : cuts.flatten = stream) (hcuts' : cuts'.flatten = stream)
    (reason : HttpPoison) :
    (e.feed hp dir cuts).1.poison dir = some reason ↔
      (e.feed hp dir cuts').1.poison dir = some reason := by
  obtain ⟨-, -, hpo⟩ :=
    (feed_agrees_of_new hnew hline hcuts).unique (feed_agrees_of_new hnew hline hcuts')
  rw [poison, poison, hpo]

/-- A head of 24 bytes where 23 are allowed. -/
theorem overflow_cuts_head :
    ((new { max_head_bytes := 23 }).feed lineHttparse .request
      [plainHead.take 23, plainHead.drop 23]).1.poison .request = some .headOverflow := by
  refine (overflow_cuts lineHttparse (new { max_head_bytes := 23 }) .request rfl plainHead
    (fun e' h => ?_) [plainHead] [plainHead.take 23, plainHead.drop 23] (by decide +kernel)
    (by decide +kernel) .headOverflow).mp (by decide +kernel)
  refine h.not_critical ?_ (by decide +kernel)
  exact (Followed.of_new rfl).push plainHead

/-- The head of a request with a chunked body, and what `httparse` reports of it. -/
def chunkedHead : Bytes := ascii "POST / HTTP/1.1\r\nTransfer-Encoding: chunked\r\n\r\n"

def chunkedHttparse : Httparse := .ofTable
  [(chunkedHead, ⟨chunkedHead.length, some (ascii "POST"), some (ascii "/"), none, none, some 1,
    [(ascii "Transfer-Encoding", ascii "chunked")]⟩)]

/-- A chunk-size line of the largest allowed length is refused if it is cut before its LF, since the
bytes that wait for the LF count its CR. -/
theorem line_overflow_of_cut :
    ((new { max_chunk_line_bytes := 1 }).feed chunkedHttparse .request
        [chunkedHead ++ ascii "1\r\n"]).1.poison .request = none ∧
      ((new { max_chunk_line_bytes := 1 }).feed chunkedHttparse .request
        [chunkedHead ++ ascii "1\r", ascii "\n"]).1.poison .request = some .chunkLineOverflow := by
  decide +kernel

/-- What is pushed after a switch is neither reported nor buffered. -/
theorem feed_after_switch :
    ((new {}).feed lineHttparse .request [H2_PREFACE, ascii "x"]).1.isDesynced .request = false ∧
      ((new {}).feed lineHttparse .request [H2_PREFACE, ascii "x"]).2 =
        [.switch .http2PriorKnowledge] ∧
      ((new {}).feed lineHttparse .request [H2_PREFACE, ascii "x"]).2.flatMap EngineEvent.raw ++
          (((new {}).feed lineHttparse .request [H2_PREFACE, ascii "x"]).1.dir .request).buf ≠
        H2_PREFACE ++ ascii "x" := by
  decide +kernel

end Engine

end Flowscope.Http
