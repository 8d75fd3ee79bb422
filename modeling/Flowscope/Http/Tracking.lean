import Flowscope.Http.Reader
import Flowscope.Http.Resume

/-!
# HTTP/1: a step of the engine is some turns of the reader

`Engine.poll` scans from where the last scan stopped, keeps the line of the last chunk for the trailer
section, and takes all the payload that has arrived. The reader scans from the front and takes one byte
of payload a turn. `Engine.poll_tracks` relates the two: what the engine has scanned is forgotten
(`Engine.rewind`), and a step is then nothing, the end, or some turns.
-/

namespace Flowscope.Http

open DirMachine BodyState Engine Nat

/-! ## Scanning again -/

/-- A direction that has to scan its buffer again. The line of the last chunk is a line again. -/
def DirMachine.rewind (m : DirMachine) : DirMachine :=
  { m with
    scanned := 0
    state := if m.state = .body (.chunked .trailer) then .body (.chunked .size) else m.state }

theorem DirMachine.rewind_of_ne {m : DirMachine} (h : m.state ≠ .body (.chunked .trailer)) :
    m.rewind = { m with scanned := 0 } := by
  rw [rewind, if_neg h]

theorem DirMachine.rewind_take {m : DirMachine} {n : ℕ} {state : DirState}
    (h : state ≠ .body (.chunked .trailer)) :
    { m.take n with state := state }.rewind =
      { m with buf := m.buf.drop n, scanned := 0, state := state } :=
  rewind_of_ne h

theorem DirMachine.atLine_rewind (m : DirMachine) : m.rewind.state.atLine = m.state.atLine := by
  unfold rewind
  split
  · next h => rw [h]; rfl
  · rfl

namespace Engine

variable {hp : Httparse} {e e' : Engine} {dir : Dir}

/-- An engine of which a direction has to scan its buffer again. -/
def rewind (e : Engine) (dir : Dir) : Engine := e.setDir dir (e.dir dir).rewind

/-- The scan of the direction starts anew. -/
@[simp]
theorem dir_rewind (e : Engine) (dir : Dir) : (e.rewind dir).dir dir = (e.dir dir).rewind :=
  dir_setDir ..

@[simp]
theorem limits_rewind (e : Engine) (dir : Dir) : (e.rewind dir).limits = e.limits :=
  limits_setDir ..

@[simp]
theorem pending_switch_rewind (e : Engine) (dir : Dir) :
    (e.rewind dir).pending_switch = e.pending_switch :=
  pending_switch_setDir ..

@[simp]
theorem setDir_rewind (e : Engine) (dir : Dir) (m : DirMachine) :
    (e.rewind dir).setDir dir m = e.setDir dir m :=
  setDir_setDir ..

@[simp]
theorem rewind_setDir (e : Engine) (dir : Dir) (m : DirMachine) :
    (e.setDir dir m).rewind dir = e.setDir dir m.rewind := by
  rw [rewind, dir_setDir, setDir_setDir]

theorem rewind_eq_self (hsd : (e.dir dir).scanned = 0)
    (hst : (e.dir dir).state ≠ .body (.chunked .trailer)) : e.rewind dir = e := by
  rw [rewind, rewind_of_ne hst, ← hsd]
  exact setDir_dir ..

/-- What is at the front of the buffer does not depend on how far it was scanned. -/
theorem ahead_rewind (hp : Httparse) (e : Engine) (dir : Dir) :
    (e.rewind dir).ahead hp dir = e.ahead hp dir := by
  unfold ahead
  rw [dir_rewind, limits_rewind, DirMachine.rewind]
  split
  · next h => rw [h]; rfl
  · rfl

theorem canConsume_rewind (e : Engine) (dir : Dir) :
    (e.rewind dir).canConsume dir = e.canConsume dir := by
  unfold canConsume
  rw [dir_rewind, DirMachine.rewind]
  by_cases h : (e.dir dir).state = .body (.chunked .trailer)
  · rw [if_pos h, h]
  · rw [if_neg h]

/-- Where the scan stands does not matter for this. -/
theorem critical_rewind : (e.rewind dir).Critical dir ↔ e.Critical dir := by
  unfold Critical
  rw [dir_rewind, atLine_rewind, limits_rewind]
  exact Iff.rfl

end Engine

/-- A turn at a rewound scan. -/
theorem turn_rewind (hp : Httparse) (dir : Dir) (e : Engine) (told : List Atom) :
    turn hp dir ⟨e.rewind dir, told⟩ = act dir ⟨e.rewind dir, told⟩ (e.ahead hp dir) := by
  rw [turn, ahead_rewind]

/-! ## Payload -/

/-- How much payload there is among `n` bytes. -/
def BodyState.room : BodyState → ℕ → ℕ
  | .length remaining, n | .chunked (.data remaining), n => min remaining n
  | .untilClose, n => n
  | _, _ => 0

/-- Where a body is after `n` bytes of payload. -/
def BodyState.after : BodyState → ℕ → BodyState
  | .length remaining, n => .length (remaining - n)
  | .chunked (.data remaining), n => .chunked (dataState (remaining - n))
  | b, _ => b

/-- Payload comes next. -/
def BodyState.isPayload : BodyState → Bool
  | .length (_ + 1) | .untilClose | .chunked (.data _) => true
  | _ => false

/-- No chunk-size line comes next. -/
def OffLine (dir : Dir) (s : Reading) : Prop := (s.engine.dir dir).state.atLine = false

section Payload

variable {hp : Httparse} {dir : Dir} {limits : EngineLimits} {e : Engine} {n : ℕ} {buf : Bytes}

/-- Within a payload the next byte is payload. -/
theorem ahead_payload {b : BodyState}
    (h : 0 < b.room buf.length) : ahead hp limits dir (.body b) buf = .payload (b.after 1) := by
  have hpy (next : BodyState) (hlen : 0 < buf.length) :
      payloadAhead buf next = .payload next :=
    if_neg (List.length_pos_iff.mp hlen)
  match b with
  | .length 0 | .chunked (.data 0) =>
    cases h
  | .length (n + 1) | .chunked (.data (n + 1)) =>
    exact hpy _ (h.trans_le (min_le_right _ _))
  | .untilClose => exact hpy _ h
  | .chunked .size | .chunked .dataCrlf | .chunked .trailer => cases h

theorem ahead_of_room_eq_zero {b : BodyState}
    (hb : b.isPayload = true) (h : b.room buf.length = 0) :
    ahead hp limits dir (.body b) buf = .wait := by
  have hwt (next : BodyState) (hlen : buf.length = 0) : payloadAhead buf next = .wait :=
    if_pos (List.length_eq_zero_iff.mp hlen)
  match b with
  | .length 0 => cases hb
  | .length (n + 1) | .chunked (.data (n + 1)) =>
    rw [room] at h
    exact hwt _ (by omega)
  | .untilClose => exact hwt _ h
  | .chunked (.data 0) => rfl
  | .chunked .size | .chunked .dataCrlf | .chunked .trailer => cases hb

/-- A poll takes all the payload that there is. -/
theorem pollBody_of_isPayload {b : BodyState} (hb : b.isPayload = true) :
    e.pollBody dir b = e.bodySpan dir (b.room (e.dir dir).buf.length)
      (.body (b.after (b.room (e.dir dir).buf.length))) := by
  match b with
  | .length 0 => cases hb
  | .length (n + 1) | .untilClose | .chunked (.data n) => rfl
  | .chunked .size | .chunked .dataCrlf | .chunked .trailer => cases hb

variable {b : BodyState}

theorem BodyState.after_ne_trailer (hb : b.isPayload = true) (n : ℕ) :
    b.after n ≠ .chunked .trailer := by
  match b with
  | .length _ | .untilClose => nofun
  | .chunked (.data remaining) =>
    rw [after, dataState]
    split <;> nofun
  | .chunked .size | .chunked .dataCrlf | .chunked .trailer => cases hb

theorem BodyState.room_after (h : 1 < b.room n) : (b.after 1).room (n - 1) = b.room n - 1 := by
  match b with
  | .length remaining =>
    rw [after, room, room]
    omega
  | .untilClose => rfl
  | .chunked (.data remaining) =>
    rw [room] at h
    rw [after, dataState, if_neg (by omega), room, room]
    omega
  | .chunked .size | .chunked .dataCrlf | .chunked .trailer => cases h

theorem BodyState.after_after {m : ℕ} (h : 1 < b.room m) :
    (b.after 1).after n = b.after (n + 1) := by
  match b with
  | .length remaining => rw [after, after, after, Nat.sub_sub, Nat.add_comm]
  | .untilClose => rfl
  | .chunked (.data remaining) =>
    rw [room] at h
    rw [after, dataState, if_neg (by omega), after, after, Nat.sub_sub, Nat.add_comm]
  | .chunked .size | .chunked .dataCrlf | .chunked .trailer => cases h

theorem BodyState.atLine_of_room (h : 0 < b.room n) : (DirState.body b).atLine = false := by
  match b with
  | .length _ | .untilClose | .chunked (.data _) => rfl
  | .chunked .size | .chunked .dataCrlf | .chunked .trailer => cases h

/-- A turn takes one byte of payload. -/
theorem turn_payload (hst : (e.dir dir).state = .body b)
    (hrm : 0 < b.room (e.dir dir).buf.length) (told : List Atom) :
    turn hp dir ⟨e, told⟩ = .next
      ⟨e.setDir dir { e.dir dir with buf := (e.dir dir).buf.drop 1, state := .body (b.after 1) },
        told ++ ((e.dir dir).buf.take 1).map .byte⟩ := by
  rw [turn, Engine.ahead, hst, ahead_payload hrm]
  rfl

/-- Payload is taken byte by byte, and no line is looked for in between. -/
theorem passes_payload (hn : 1 ≤ n)
    (hst : (e.dir dir).state = .body b) (hrm : n ≤ b.room (e.dir dir).buf.length)
    (told : List Atom) :
    (reader hp dir).Passes (OffLine dir) ⟨e, told⟩
      ⟨e.setDir dir { e.dir dir with buf := (e.dir dir).buf.drop n, state := .body (b.after n) },
        told ++ ((e.dir dir).buf.take n).map .byte⟩ := by
  induction n, hn using le_induction generalizing e b told with
  | base => exact .one (turn_payload hst hrm told)
  | succ n hn ih =>
    -- one byte, and then the rest of them
    have hrm' : (b.after 1).room ((e.dir dir).buf.drop 1).length =
        b.room (e.dir dir).buf.length - 1 := by
      rw [List.length_drop]
      exact room_after (by omega)
    have hle : n ≤ (b.after 1).room ((e.dir dir).buf.drop 1).length := by omega
    refine .cons (turn_payload hst (by omega) told) ?_ ?_
    · rw [OffLine, dir_setDir]
      exact atLine_of_room (lt_of_lt_of_le hn hle)
    · have hrs := @ih (e.setDir dir { e.dir dir with
        buf := (e.dir dir).buf.drop 1, state := .body (b.after 1) }) (b.after 1)
        (by rw [dir_setDir]) (by rwa [dir_setDir])
        (told ++ ((e.dir dir).buf.take 1).map .byte)
      rw [setDir_setDir, dir_setDir, List.drop_drop, add_comm 1 n,
        after_after (m := (e.dir dir).buf.length) (by omega), List.append_assoc,
        ← List.map_append] at hrs
      rwa [add_comm n 1, List.take_add, add_comm 1 n]

end Payload

/-! ## Steps -/

/-- What a step may come to where the reader is in `s`. -/
def Tracks (hp : Httparse) (dir : Dir) (s : Reading) :
    Engine × Except HttpPoison (Option EngineEvent) → Prop
  | (e', .ok none) => turn hp dir s = .wait ∧ e'.rewind dir = s.engine
  | (_, .error reason) => turn hp dir s = .stop ⟨s.told, .desynced, some reason⟩
  | (e', .ok (some ev)) =>
    if e'.canConsume dir then
      (reader hp dir).Passes (OffLine dir) s ⟨e'.rewind dir, s.told ++ ev.atoms⟩
    else
      turn hp dir s = .stop ⟨s.told ++ ev.atoms, (e'.dir dir).state, (e'.dir dir).poison⟩

namespace Engine

section Tracks

variable {hp : Httparse} {e e' : Engine} {dir : Dir} {told : List Atom}

/-- Nothing is ready. -/
theorem tracks_wait (hah : e.ahead hp dir = .wait) (hpl : e.poll hp dir = (e', .ok none))
    (he : e'.rewind dir = e.rewind dir) : Tracks hp dir ⟨e.rewind dir, told⟩ (e.poll hp dir) := by
  rw [hpl]
  refine ⟨?_, he⟩
  rw [turn_rewind, hah]
  rfl

/-- The framing is lost. -/
theorem tracks_lost {reason : HttpPoison} (hah : e.ahead hp dir = .lost reason)
    (hpl : e.poll hp dir = (e', .error reason)) :
    Tracks hp dir ⟨e.rewind dir, told⟩ (e.poll hp dir) := by
  rw [hpl]
  change turn hp dir _ = _
  rw [turn_rewind, hah]
  rfl

variable {ev : EngineEvent}

/-- A step that takes `n` bytes in one turn. -/
theorem tracks_next (hcn : e'.canConsume dir = true)
    (hpl : e.poll hp dir = (e', .ok (some ev)))
    (hact : act dir ⟨e.rewind dir, told⟩ (e.ahead hp dir) =
      .next ⟨e'.rewind dir, told ++ ev.atoms⟩) :
    Tracks hp dir ⟨e.rewind dir, told⟩ (e.poll hp dir) := by
  rw [hpl, Tracks, if_pos hcn]
  refine .one ?_
  change turn hp dir _ = _
  rw [turn_rewind, hact]

/-- An event after which nothing is parsed. -/
theorem tracks_stop (hcn : e'.canConsume dir = false)
    (hpl : e.poll hp dir = (e', .ok (some ev)))
    (hact : act dir ⟨e.rewind dir, told⟩ (e.ahead hp dir) =
      .stop ⟨told ++ ev.atoms, (e'.dir dir).state, (e'.dir dir).poison⟩) :
    Tracks hp dir ⟨e.rewind dir, told⟩ (e.poll hp dir) := by
  rw [hpl, Tracks, if_neg (by rw [hcn]; exact Bool.false_ne_true), turn_rewind, hact]

/-- A head is framed alike by the engine and by the reader. -/
theorem tracks_framed {head : Head} (hst : (e.dir dir).state = .head)
    (hah : e.ahead hp dir = .head head)
    (hpl : e.poll hp dir = (e.setDir dir { e.dir dir with
        buf := (e.dir dir).buf.drop head.raw.length, scanned := 0 }).finishHead dir head) :
    Tracks hp dir ⟨e.rewind dir, told⟩ (e.poll hp dir) := by
  have hrw : (e.dir dir).rewind = { e.dir dir with scanned := 0 } :=
    rewind_of_ne (by simp [hst])
  have hfd := finishHead_framed (e.setDir dir { e.dir dir with
    buf := (e.dir dir).buf.drop head.raw.length, scanned := 0 }) dir head
  have hact : act dir ⟨e.rewind dir, told⟩ (e.ahead hp dir) = headTurn told (e.poll hp dir) := by
    rw [hah, hpl, act]
    rw [setDir_rewind, dir_rewind, hrw]
  rw [← hpl] at hfd
  generalize hr : e.poll hp dir = r at hact hfd
  obtain ⟨e', reason | _ | ev⟩ := r
  · rw [Tracks, turn_rewind, hact, headTurn]
  · cases hfd
  · obtain ⟨hsd, htr⟩ := hfd.scanned
    rw [dir_setDir] at hsd
    have hcn : e'.canConsume dir = true := by
      rcases hfd.state with hs | ⟨b, hs⟩
      · rw [canConsume, hs]
      · exact canConsume_of_body hs
    rw [← hr]
    refine tracks_next hcn hr ?_
    rw [hact, rewind_eq_self hsd htr, headTurn]

variable (hp) in
/-- What a step does where a head is expected is what is at the front of the buffer. -/
theorem poll_atHead (hv : (e.dir dir).Valid e.limits) (hst : (e.dir dir).state = .head) :
    e.ahead hp dir = .preface ∧
        e.poll hp dir = (e.switchToTunnel, .ok (some (.switch .http2PriorKnowledge))) ∨
      (e.ahead hp dir = .wait ∧
        ∃ e', e.poll hp dir = (e', .ok none) ∧ e'.rewind dir = e.rewind dir) ∨
      (∃ reason e', e.ahead hp dir = .lost reason ∧ e.poll hp dir = (e', .error reason)) ∨
      ∃ head, e.ahead hp dir = .head head ∧
        e.poll hp dir = (e.setDir dir { e.dir dir with
          buf := (e.dir dir).buf.drop head.raw.length, scanned := 0 }).finishHead dir head := by
  have hah : e.ahead hp dir = headAhead hp e.limits dir (e.dir dir).buf := by
    rw [ahead, hst]
    rfl
  have hpl : e.poll hp dir = e.pollHead hp dir := poll_head hst
  unfold pollHead at hpl
  unfold headAhead at hah
  dsimp only at hpl
  generalize (if dir = .request then prefaceMatch (e.dir dir).buf else .no) = preface
    at hpl hah
  cases preface with
  | yes => exact .inl ⟨hah, hpl⟩
  | beginning => exact .inr (.inl ⟨hah, e, hpl, rfl⟩)
  | no =>
    unfold scanBlankLine at hpl
    rw [hv.blankFrom hst] at hpl
    cases hsc : blankFrom (e.dir dir).buf 0 with
    | none =>
      rw [hsc] at hpl hah
      dsimp only at hpl hah
      rw [limits_setDir] at hpl
      split_ifs at hpl hah
      · exact .inr (.inr (.inl ⟨_, _, hah, hpl⟩))
      · exact .inr (.inl ⟨hah, _, hpl, rewind_setDir ..⟩)
    | some hlen =>
      rw [hsc] at hpl hah
      dsimp only at hpl hah
      rw [limits_setDir] at hpl
      by_cases hmax : e.limits.max_head_bytes < hlen
      · rw [if_pos hmax] at hpl hah
        exact .inr (.inr (.inl ⟨_, _, hah, hpl⟩))
      · rw [if_neg hmax, readHead, limits_setDir, dir_setDir] at hpl
        rw [if_neg hmax, regionAhead] at hah
        generalize (if e.limits.policy ≠ .observe then
          checkHeadBytes true ((e.dir dir).buf.take hlen) else .ok ()) = check at hpl hah
        cases check with
        | error reason => exact .inr (.inr (.inl ⟨_, _, hah, hpl⟩))
        | ok u =>
          cases hpr : parseHead hp dir ((e.dir dir).buf.take hlen) e.limits.max_headers with
          | none =>
            rw [hpr] at hpl hah
            exact .inr (.inr (.inl ⟨_, _, hah, hpl⟩))
          | some head =>
            rw [hpr] at hpl hah
            refine .inr (.inr (.inr ⟨head, hah, ?_⟩))
            have hln : head.raw.length = hlen := by
              rw [raw_of_parseHead hpr]
              exact List.length_take_of_le (blankFrom_eq_some.mp hsc).2.1
            rw [hpl, setDir_setDir, take, Nat.sub_self, hln]

/-- At a head. -/
theorem tracks_head (hv : (e.dir dir).Valid e.limits) (hst : (e.dir dir).state = .head) :
    Tracks hp dir ⟨e.rewind dir, told⟩ (e.poll hp dir) := by
  rcases poll_atHead hp hv hst with ⟨hah, hpl⟩ | ⟨hah, e', hpl, he⟩ |
    ⟨reason, e', hah, hpl⟩ | ⟨head, hah, hpl⟩
  · refine tracks_stop ?_ hpl ?_
    · rw [canConsume, state_switchToTunnel]
    · rw [hah]
      cases dir <;> rfl
  · exact tracks_wait hah hpl he
  · exact tracks_lost hah hpl
  · exact tracks_framed hst hah hpl

/-- In a payload, which the reader passes byte by byte. -/
theorem tracks_payload {b : BodyState} (hst : (e.dir dir).state = .body b)
    (hb : b.isPayload = true) : Tracks hp dir ⟨e.rewind dir, told⟩ (e.poll hp dir) := by
  obtain ⟨n, hn⟩ : ∃ n, n = b.room (e.dir dir).buf.length := ⟨_, rfl⟩
  have hrn : e.pollRound hp dir = e.bodySpan dir n (.body (b.after n)) := by
    rw [pollRound_body hst, pollBody_of_isPayload hb, hn]
  unfold bodySpan at hrn
  split_ifs at hrn with hzr
  · refine tracks_wait ?_ (poll_of_wait hrn) rfl
    rw [ahead, hst, ahead_of_room_eq_zero hb (hn ▸ hzr)]
  · have hne : (e.dir dir).state ≠ .body (.chunked .trailer) := by
      rw [hst]
      rintro ⟨rfl⟩
      cases hb
    have hrw := rewind_of_ne hne
    rw [poll_of_event hrn, Tracks, if_pos (by rw [canConsume, dir_setDir]), rewind_setDir,
      rewind_of_ne fun h => after_ne_trailer hb n (DirState.body.inj h)]
    have hps : (reader hp dir).Passes (OffLine dir) ⟨e.rewind dir, told⟩ _ :=
      passes_payload (pos_of_ne_zero hzr) (by rw [dir_rewind, hrw, hst])
        (by rw [dir_rewind, hrw, hn]) told
    rw [setDir_rewind, dir_rewind] at hps
    exact hps

/-- At the end of a body. -/
theorem tracks_done (hst : (e.dir dir).state = .body (.length 0)) :
    Tracks hp dir ⟨e.rewind dir, told⟩ (e.poll hp dir) := by
  have hah : e.ahead hp dir = .done := by
    rw [ahead, hst]
    rfl
  have hrn : e.pollRound hp dir = e.pollBody dir (.length 0) := pollRound_body hst
  have hrw : (e.dir dir).rewind = { e.dir dir with scanned := 0 } :=
    rewind_of_ne (by rw [hst]; nofun)
  unfold pollBody at hrn
  cases hsw : e.pending_switch with
  | some kind =>
    rw [hsw] at hrn
    refine tracks_stop ?_ (poll_of_event hrn) ?_
    · rw [canConsume, state_switchToTunnel]
    · rw [hah, act, pending_switch_rewind, hsw]
      cases dir <;> rfl
  | none =>
    rw [hsw] at hrn
    dsimp only at hrn
    split_ifs at hrn with hcls
    · refine tracks_stop ?_ (poll_of_event hrn) ?_
      · rw [canConsume, dir_setDir]
      · rw [hah, act, pending_switch_rewind, hsw, dir_rewind, hrw, dir_setDir]
        rw [if_pos hcls]
        rfl
    · refine tracks_next ?_ (poll_of_event hrn) ?_
      · rw [canConsume, dir_setDir]
      · rw [hah, act, pending_switch_rewind, hsw, dir_rewind, hrw, rewind_setDir]
        rw [if_neg hcls, setDir_rewind]
        rfl

/-- The engine and the reader take the same bytes of framing. -/
theorem tracks_framing {n scanned : ℕ} {next : BodyState}
    (hah : e.ahead hp dir = .framing n next)
    (hrn : e.pollRound hp dir =
      (e.setDir dir { e.dir dir with scanned }).framingSpan dir n (.body next))
    (hnx : next ≠ .chunked .trailer) :
    Tracks hp dir ⟨e.rewind dir, told⟩ (e.poll hp dir) := by
  refine tracks_next ?_ (poll_of_event hrn) ?_
  · rw [canConsume, dir_setDir]
  · rw [hah, act, rewind_setDir, setDir_setDir, rewind_take fun h => hnx
      (DirState.body.inj h)]
    rw [setDir_rewind, dir_rewind, dir_setDir, EngineEvent.atoms, List.map_nil, List.append_nil]
    rfl

/-- Behind a chunk. -/
theorem tracks_crlf (hst : (e.dir dir).state = .body (.chunked .dataCrlf)) :
    Tracks hp dir ⟨e.rewind dir, told⟩ (e.poll hp dir) := by
  have hah : e.ahead hp dir = crlfAhead (e.dir dir).buf := by
    rw [ahead, hst]
    rfl
  have hrn : e.pollRound hp dir = e.pollChunked dir .dataCrlf := pollRound_body hst
  unfold pollChunked at hrn
  unfold crlfAhead at hah
  dsimp only at hrn
  split_ifs at hrn hah with hlen hcf
  · exact tracks_wait hah (poll_of_wait hrn) rfl
  · exact tracks_lost hah (poll_of_error hrn)
  · have hsf : e.setDir dir { e.dir dir with scanned := (e.dir dir).scanned } = e :=
      setDir_dir e dir
    exact tracks_framing hah (hrn.trans (by rw [hsf])) nofun

variable (hv : (e.dir dir).Valid e.limits)
include hv

/-- In a trailer. -/
theorem tracks_trailer (hst : (e.dir dir).state = .body (.chunked .trailer)) :
    Tracks hp dir ⟨e.rewind dir, told⟩ (e.poll hp dir) := by
  obtain ⟨eol, hcf, hmax, hsz⟩ := hv.trailer hst
  -- the line of the last chunk is still there
  have hah : e.ahead hp dir = trailerAhead e.limits (e.dir dir).buf eol := by
    rw [ahead, hst]
    change lineAhead _ _ = _
    rw [lineAhead, hcf]
    dsimp only
    rw [if_neg (not_lt.mpr hmax), hsz]
  have hrn : e.pollRound hp dir = e.pollChunked dir .trailer := pollRound_body hst
  unfold pollChunked at hrn
  dsimp only at hrn
  unfold scanTrailerEnd at hrn
  rw [findCrlfFrom_zero, hcf] at hrn
  unfold trailerAhead at hah
  dsimp only at hrn
  cases hend : trailerFrom (e.dir dir).buf (eol + 2) with
  | none =>
    rw [hend] at hrn hah
    dsimp only at hrn hah
    rw [limits_setDir] at hrn
    split_ifs at hrn hah with hov
    · exact tracks_lost hah (poll_of_error hrn)
    · exact tracks_wait hah (poll_of_wait hrn) (rewind_setDir ..)
  | some end_ =>
    rw [hend] at hrn hah
    dsimp only at hrn hah
    rw [limits_setDir] at hrn
    split_ifs at hrn hah with hov
    · exact tracks_lost hah (poll_of_error hrn)
    · rw [dir_setDir, setDir_setDir] at hrn
      refine tracks_next ?_ (poll_of_event hrn) ?_
      · rw [canConsume, dir_setDir]
      · rw [hah, act, rewind_setDir]
        rw [setDir_rewind, dir_rewind]
        rfl

/-- At the size of a chunk. -/
theorem tracks_size (hst : (e.dir dir).state = .body (.chunked .size)) :
    Tracks hp dir ⟨e.rewind dir, told⟩ (e.poll hp dir) := by
  have hah : e.ahead hp dir = lineAhead e.limits (e.dir dir).buf := by
    rw [ahead, hst]
    rfl
  have hrn : e.pollRound hp dir = e.pollChunked dir .size := pollRound_body hst
  unfold pollChunked at hrn
  dsimp only at hrn
  unfold scanCrlf at hrn
  rw [hv.findCrlf hst] at hrn
  unfold lineAhead at hah
  cases hcf : findCrlf (e.dir dir).buf with
  | none =>
    rw [hcf] at hrn hah
    dsimp only at hrn hah
    rw [limits_setDir] at hrn
    split_ifs at hrn hah with hmax
    · exact tracks_lost hah (poll_of_error hrn)
    · exact tracks_wait hah (poll_of_wait hrn) (rewind_setDir ..)
  | some eol =>
    rw [hcf] at hrn hah
    dsimp only at hrn hah
    rw [limits_setDir] at hrn
    split_ifs at hrn hah with hmax
    · exact tracks_lost hah (poll_of_error hrn)
    match hsz : chunkSize ((e.dir dir).buf.take eol) with
    | none =>
      rw [hsz] at hrn hah
      exact tracks_lost hah (poll_of_error hrn)
    | some 0 =>
      -- the trailer section is looked for in the next round
      rw [hsz, setDir_setDir, dir_setDir] at hrn
      rw [poll_of_again hrn]
      have hsm : (e.setDir dir { e.dir dir with
          scanned := eol, state := .body (.chunked .trailer) }).rewind dir = e.rewind dir := by
        rw [rewind_setDir, rewind, DirMachine.rewind, DirMachine.rewind, hst]
        rfl
      rw [← hsm]
      refine tracks_trailer ?_ (by rw [dir_setDir])
      rw [dir_setDir, limits_setDir]
      exact ⟨eol, hcf, Nat.le_of_not_lt hmax, hsz⟩
    | some (size + 1) =>
      rw [hsz] at hrn hah
      exact tracks_framing hah hrn nofun

/-- A step of the engine is nothing, the end, or some turns of the reader. -/
theorem poll_tracks (hrc : (e.dir dir).state ≠ .resync)
    (hcn : e.canConsume dir = true) (told : List Atom) :
    Tracks hp dir ⟨e.rewind dir, told⟩ (e.poll hp dir) := by
  match hst : (e.dir dir).state with
  | .head => exact tracks_head hv hst
  | .body (.length 0) => exact tracks_done hst
  | .body (.length (n + 1)) | .body .untilClose | .body (.chunked (.data n)) =>
    exact tracks_payload hst rfl
  | .body (.chunked .size) => exact tracks_size hv hst
  | .body (.chunked .dataCrlf) => exact tracks_crlf hst
  | .body (.chunked .trailer) => exact tracks_trailer hv hst
  | .resync => exact absurd hst hrc
  | .tunnel | .closed | .desynced =>
    rw [canConsume, hst] at hcn
    cases hcn

variable (hrc : (e.dir dir).state ≠ .resync)
include hrc

/-- Where nothing complete is at the front of the buffer, a step reports nothing. -/
theorem poll_of_ahead_wait (hah : e.ahead hp dir = .wait) : (e.poll hp dir).2 = .ok none := by
  by_cases hcn : e.canConsume dir = true
  · have htr : Tracks hp dir ⟨e.rewind dir, []⟩ _ := poll_tracks hv hrc hcn []
    have htn : turn hp dir ⟨e.rewind dir, []⟩ = .wait := by
      rw [turn_rewind, hah]
      rfl
    rcases hpl : e.poll hp dir with ⟨e', reason | _ | ev⟩
    · rw [hpl, Tracks, htn] at htr
      cases htr
    · rfl
    · rw [hpl, Tracks] at htr
      split_ifs at htr
      · cases htr with
        | one h => cases htn.symm.trans h
        | cons h _ _ => cases htn.symm.trans h
      · cases htn.symm.trans htr
  · exact ((poll_polled hp e dir).of_not_canConsume (Bool.eq_false_iff.mpr hcn)).2

/-- A step loses the framing at something that cannot be framed, or at a head. -/
theorem ahead_of_poll_error {reason : HttpPoison} (hpl : e.poll hp dir = (e', .error reason)) :
    e.ahead hp dir = .lost reason ∨
      ∃ head, e.ahead hp dir = .head head ∧
        e.poll hp dir = (e.setDir dir { e.dir dir with
          buf := (e.dir dir).buf.drop head.raw.length, scanned := 0 }).finishHead dir head := by
  by_cases hst : (e.dir dir).state = .head
  · rcases poll_atHead hp hv hst with ⟨-, heq⟩ | ⟨-, _, heq, -⟩ | ⟨_, _, hah, heq⟩ | hhd
    · cases hpl.symm.trans heq
    · cases hpl.symm.trans heq
    · cases hpl.symm.trans heq
      exact .inl hah
    · exact .inr hhd
  · have hcn : e.canConsume dir = true := by
      by_contra hid
      cases ((polled_of_poll hpl).of_not_canConsume (Bool.eq_false_iff.mpr hid)).2
    have htr : Tracks hp dir ⟨e.rewind dir, []⟩ _ := poll_tracks hv hrc hcn []
    rw [hpl, Tracks, turn_rewind] at htr
    have hft := ahead_fits hp e.limits dir (e.dir dir).state (e.dir dir).buf
    change (e.ahead hp dir).Fits _ _ at hft
    cases hah : e.ahead hp dir with
    | lost r =>
      rw [hah] at htr
      cases htr
      exact .inl rfl
    | head head =>
      rw [hah] at hft
      exact absurd hft.1 hst
    | done =>
      rw [hah, act] at htr
      split at htr
      · cases htr
      · split_ifs at htr
        cases htr
    | wait | preface | payload | framing | trailers =>
      rw [hah] at htr
      cases htr

/-- A step reports a switch at the HTTP/2 preface, or after a message that announced it. -/
theorem ahead_of_poll_switch {kind : SwitchKind}
    (hpl : e.poll hp dir = (e', .ok (some (.switch kind)))) :
    e.ahead hp dir = .preface ∨ e.pending_switch = some kind := by
  have hpd := polled_of_poll hpl
  have hcn : e.canConsume dir = true := by
    by_contra hid
    cases (hpd.of_not_canConsume (Bool.eq_false_iff.mpr hid)).2
  have hcn' : e'.canConsume dir = false := by
    rw [canConsume, hpd.tunnel_of_switch rfl dir]
  have htr : Tracks hp dir ⟨e.rewind dir, []⟩ _ := poll_tracks hv hrc hcn []
  rw [hpl, Tracks, hcn', if_neg Bool.false_ne_true, turn_rewind] at htr
  cases hah : e.ahead hp dir with
  | preface => exact .inl rfl
  | done =>
    rw [hah, act, pending_switch_rewind] at htr
    cases hsw : e.pending_switch with
    | some kind' =>
      rw [hsw] at htr
      injection htr with hend
      injection hend with htold
      cases htold
      exact .inr rfl
    | none =>
      rw [hsw] at htr
      split_ifs at htr
      cases htr
  | head head =>
    rw [hah, act] at htr
    generalize finishHead _ dir head = r at htr
    obtain ⟨_, _ | _ | _⟩ := r <;> cases htr
  | wait | lost | payload | framing | trailers =>
    rw [hah] at htr
    cases htr

/-- A step reports a head that is at the front of the buffer. -/
theorem ahead_of_poll_head {hd : Head} (hpl : e.poll hp dir = (e', .ok (some (.head hd)))) :
    ∃ head, e.ahead hp dir = .head head ∧
      Framed (e.setDir dir { e.dir dir with
        buf := (e.dir dir).buf.drop head.raw.length, scanned := 0 }) head dir e'
        (.ok (some (.head hd))) := by
  have hst := (polled_of_poll hpl).state_of_head hrc
  rcases poll_atHead hp hv hst with ⟨-, heq⟩ | ⟨-, _, heq, -⟩ | ⟨_, _, -, heq⟩ | ⟨head, hah, heq⟩
  · cases hpl.symm.trans heq
  · cases hpl.symm.trans heq
  · cases hpl.symm.trans heq
  · have hframed := finishHead_framed (e.setDir dir { e.dir dir with
      buf := (e.dir dir).buf.drop head.raw.length, scanned := 0 }) dir head
    rw [← heq, hpl] at hframed
    exact ⟨head, hah, hframed⟩

end Tracks

end Engine

end Flowscope.Http
