import Flowscope.Http.Engine

/-!
# HTTP/1: what a round can do

`Engine.Round` lists everything that one round of `Engine::poll` can do to the engine, with what it
reports. Every invariant of the engine is a case distinction over it. The loop, `Engine.poll`, is
defined here, since it ends because of what a round can do.
-/

namespace Flowscope.Http.Engine

/-- What the framing of a head does. `ctx` is the request that a response answers. -/
inductive Framed (e : Engine) (head : Head) :
    Dir → Engine → Except HttpPoison (Option EngineEvent) → Prop
  | request (framing : BodyFraming) (applied : List Normalization)
      (hframing : requestFraming head.headers e.limits.policy = .ok (framing, applied))
      (hroom : e.pending.length < e.limits.max_pipelined) :
      Framed e head .request
        { e with
          pending := e.pending ++
            [⟨eqIgnoreAsciiCase head.method (ascii "HEAD"),
              eqIgnoreAsciiCase head.method (ascii "CONNECT")⟩]
          request := { e.request with
            close_after_message := signalsClose head, state := bodyState framing } }
        (.ok (some (.head { head with framing, applied })))
  | upgrade (hstatus : head.status = 101) :
      Framed e head .response
        { e with
          pending := e.pending.tail
          pending_switch := some (.upgrade ((headerValue head.headers (ascii "upgrade")).getD []))
          response := { e.response with state := .body (.length 0) } }
        (.ok (some (.head { head with framing := .none, interim := false })))
  | interim (hstatus : 100 ≤ head.status ∧ head.status ≤ 199 ∧ head.status ≠ 101) :
      Framed e head .response { e with response := { e.response with state := .head } }
        (.ok (some (.head { head with framing := .none, interim := true })))
  | connect (ctx : ReqCtx) (hctx : e.pending.head? = some ctx) (hconnect : ctx.is_connect)
      (hstatus : 200 ≤ head.status ∧ head.status ≤ 299) :
      Framed e head .response
        { e with
          pending := e.pending.tail
          pending_switch := some .connectTunnel
          response := { e.response with state := .body (.length 0) } }
        (.ok (some (.head { head with framing := .none, interim := false })))
  | response (ctx : Option ReqCtx) (framing : BodyFraming) (applied : List Normalization)
      (hctx : e.pending.head? = ctx) (hstatus : ¬(100 ≤ head.status ∧ head.status ≤ 199))
      (hnone : ctx = none → e.limits.policy = .observe)
      (hconnect : ¬(ctx.any (·.is_connect) ∧ 200 ≤ head.status ∧ head.status ≤ 299))
      (hframing : responseFraming head.status (ctx.any (·.is_head)) head.headers e.limits.policy =
        .ok (framing, applied)) :
      Framed e head .response
        { e with
          pending := e.pending.tail
          response := { e.response with
            close_after_message := signalsClose head, state := bodyState framing } }
        (.ok (some (.head { head with framing, interim := false, applied })))
  | lost (dir : Dir) (reason : HttpPoison) (pending : List ReqCtx)
      (hpending : pending = e.pending ∨ (dir = .response ∧ pending = e.pending.tail)) :
      Framed e head dir ({ e with pending }.setDir dir ((e.dir dir).desync reason)) (.error reason)

theorem finishRequestHead_framed (e : Engine) (head : Head) :
    Framed e head .request (e.finishRequestHead head (signalsClose head)).1
      (e.finishRequestHead head (signalsClose head)).2 := by
  have hlo (reason : HttpPoison) :
      Framed e head .request (e.setDir .request (e.request.desync reason)) (.error reason) :=
    .lost .request reason e.pending (.inl rfl)
  unfold finishRequestHead
  split
  · next reason _ => exact hlo reason
  · split
    · next reason _ => exact hlo reason
    · next framing applied hframing =>
      split
      · exact hlo .pipelineOverflow
      · next hroom => exact .request framing applied hframing (Nat.lt_of_not_le hroom)

theorem finishResponseHead_framed (e : Engine) (head : Head) :
    Framed e head .response (e.finishResponseHead head (signalsClose head)).1
      (e.finishResponseHead head (signalsClose head)).2 := by
  have hlo (reason : HttpPoison) :
      Framed e head .response
        ({ e with pending := e.pending.tail }.setDir .response (e.response.desync reason))
        (.error reason) :=
    .lost .response reason e.pending.tail (.inr ⟨rfl, rfl⟩)
  unfold finishResponseHead
  split_ifs with h101 h1xx
  · exact .upgrade h101
  · exact .interim ⟨h1xx.1, h1xx.2, h101⟩
  · by_cases hnone : e.pending.head? = none ∧ e.limits.policy ≠ .observe
    · rw [if_pos hnone]
      exact hlo .unexpectedResponse
    · rw [if_neg hnone]
      by_cases hconnect :
          e.pending.head?.any (·.is_connect) ∧ 200 ≤ head.status ∧ head.status ≤ 299
      · rw [if_pos hconnect]
        cases hctx : e.pending.head? with
        | none => simp [hctx] at hconnect
        | some ctx => exact .connect ctx hctx (by simpa [hctx] using hconnect.1) hconnect.2
      · rw [if_neg hconnect]
        split
        · next reason _ => exact hlo reason
        · next framing applied hframing =>
          exact .response _ framing applied rfl h1xx
            (fun h => by_contra fun hobs => hnone ⟨h, hobs⟩) hconnect hframing

theorem finishHead_framed (e : Engine) (dir : Dir) (head : Head) :
    Framed e head dir (e.finishHead dir head).1 (e.finishHead dir head).2 := by
  cases dir with
  | request => exact finishRequestHead_framed e head
  | response => exact finishResponseHead_framed e head

variable (hp : Httparse)

/-- What one round does for a direction, by its state. -/
inductive Round (e : Engine) (dir : Dir) : Engine → Except HttpPoison Progress → Prop
  /-- The direction parses nothing more. -/
  | idle (h : e.canConsume dir = false) : Round e dir e (.ok .needMore)
  /-- A head was found after bytes were missing. -/
  | restart (i : ℕ) (hstate : (e.dir dir).state = .resync) :
      Round e dir
        (e.setDir dir
          { e.dir dir with buf := (e.dir dir).buf.drop i, scanned := 0, state := .head })
        (.ok .again)
  /-- No head was found after bytes were missing. -/
  | skip (buf : Bytes) (hstate : (e.dir dir).state = .resync) :
      Round e dir (e.setDir dir { e.dir dir with buf }) (.ok .needMore)
  /-- The client began with the HTTP/2 preface. -/
  | preface (hdir : dir = .request) (hstate : (e.dir dir).state = .head) :
      Round e dir e.switchToTunnel (.ok (.event (.switch .http2PriorKnowledge)))
  /-- The head is not complete. -/
  | waitHead (scanned : ℕ) (hstate : (e.dir dir).state = .head)
      (hscanned : scanned = (e.dir dir).scanned ∨
        (blankFrom (e.dir dir).buf ((e.dir dir).scanned - 3) = none ∧
          scanned = (e.dir dir).buf.length)) :
      Round e dir (e.setDir dir { e.dir dir with scanned }) (.ok .needMore)
  /-- A head was read and framed. -/
  | head (hlen : ℕ) (head : Head) (e' : Engine) (ev : EngineEvent)
      (hstate : (e.dir dir).state = .head)
      (hscan : blankFrom (e.dir dir).buf ((e.dir dir).scanned - 3) = some hlen)
      (hbytes : e.limits.policy ≠ .observe →
        checkHeadBytes true ((e.dir dir).buf.take hlen) = .ok ())
      (hparse : parseHead hp dir ((e.dir dir).buf.take hlen) e.limits.max_headers = some head)
      (hframed : Framed (e.setDir dir { (e.dir dir).take hlen with scanned := 0 }) head dir e'
        (.ok (some ev))) :
      Round e dir e' (.ok (.event ev))
  /-- The message that announced a switch is over. -/
  | switch (kind : SwitchKind) (hstate : (e.dir dir).state = .body (.length 0))
      (hswitch : e.pending_switch = some kind) :
      Round e dir { e with pending_switch := none }.switchToTunnel (.ok (.event (.switch kind)))
  /-- A message is over. -/
  | done (hstate : (e.dir dir).state = .body (.length 0)) (hswitch : e.pending_switch = none) :
      Round e dir
        (e.setDir dir
          { e.dir dir with state := if (e.dir dir).close_after_message then .closed else .head })
        (.ok (.event .end_))
  /-- Bytes of a body were reported. -/
  | span (n scanned : ℕ) (b next : BodyState) (decoded : Bytes)
      (hstate : (e.dir dir).state = .body b) (hpos : 0 < n) (hlen : n ≤ (e.dir dir).buf.length)
      (hnext : next ≠ .chunked .trailer)
      (hscanned : scanned = 0 ∨
        (scanned = (e.dir dir).scanned - n ∧ b ≠ .chunked .size ∧ b ≠ .chunked .trailer)) :
      Round e dir
        (e.setDir dir { e.dir dir with
          buf := (e.dir dir).buf.drop n, scanned := scanned, state := .body next })
        (.ok (.event (.body decoded ((e.dir dir).buf.take n))))
  /-- More of a body is needed. -/
  | waitBody (scanned : ℕ) (b : BodyState) (hstate : (e.dir dir).state = .body b)
      (hscanned : scanned = (e.dir dir).scanned ∨ b = .chunked .trailer ∨
        (b = .chunked .size ∧ findCrlfFrom (e.dir dir).buf ((e.dir dir).scanned - 1) = none ∧
          scanned = (e.dir dir).buf.length)) :
      Round e dir (e.setDir dir { e.dir dir with scanned }) (.ok .needMore)
  /-- The line of the last chunk is there. -/
  | lastChunk (eol : ℕ) (hstate : (e.dir dir).state = .body (.chunked .size))
      (hscan : findCrlfFrom (e.dir dir).buf ((e.dir dir).scanned - 1) = some eol)
      (hmax : eol ≤ e.limits.max_chunk_line_bytes)
      (hsize : chunkSize ((e.dir dir).buf.take eol) = some 0) :
      Round e dir
        (e.setDir dir { e.dir dir with scanned := eol, state := .body (.chunked .trailer) })
        (.ok .again)
  /-- The trailer section is complete. -/
  | trailers (n : ℕ) (fields : List Field) (hstate : (e.dir dir).state = .body (.chunked .trailer))
      (hpos : 0 < n) (hlen : n ≤ (e.dir dir).buf.length) :
      Round e dir
        (e.setDir dir { e.dir dir with
          buf := (e.dir dir).buf.drop n, scanned := 0, state := .body (.length 0) })
        (.ok (.event (.trailers fields ((e.dir dir).buf.take n))))
  /-- The framing was lost. A response that cannot be framed may have taken its request. -/
  | lost (reason : HttpPoison) (pending : List ReqCtx) (hconsume : e.canConsume dir = true)
      (hpending : pending = e.pending ∨ (dir = .response ∧ pending = e.pending.tail)) :
      Round e dir ({ e with pending }.setDir dir ((e.dir dir).desync reason)) (.error reason)

variable {hp} {e : Engine} {dir : Dir} {reason : HttpPoison} {hlen : ℕ}

/-- A direction that is given up loses what it had read, however far it got. -/
theorem Round.of_desync {m : DirMachine} (hconsume : e.canConsume dir = true)
    (hm : m.desync reason = (e.dir dir).desync reason) :
    Round hp e dir ((e.setDir dir m).desync dir reason : Engine × Except HttpPoison Progress).1
      (.error reason) := by
  have hlo : Round hp e dir (e.setDir dir ((e.dir dir).desync reason)) (.error reason) :=
    .lost reason e.pending hconsume (.inl rfl)
  simpa [Engine.desync, hm] using hlo

variable {e' : Engine} {b : BodyState}

section

variable (hstate : (e.dir dir).state = .body b)
include hstate

theorem Round.wait : Round hp e dir e (.ok .needMore) := by
  have hwt : Round hp e dir (e.setDir dir (e.dir dir)) (.ok .needMore) :=
    .waitBody (e.dir dir).scanned b hstate (.inl rfl)
  rwa [setDir_dir] at hwt

theorem canConsume_of_body : e.canConsume dir = true := by
  rw [canConsume, hstate]

/-- The payload states take what there is, up to a bound. -/
theorem bodySpan_round {next : BodyState} {n : ℕ}
    (hlen : n ≤ (e.dir dir).buf.length) (hb : b ≠ .chunked .size ∧ b ≠ .chunked .trailer)
    (hnext : next ≠ .chunked .trailer) :
    Round hp e dir (e.bodySpan dir n (.body next)).1 (e.bodySpan dir n (.body next)).2 := by
  unfold bodySpan
  split_ifs with hn
  · exact .wait hstate
  · exact .span n _ b next _ hstate (Nat.pos_of_ne_zero hn) hlen hnext (.inr ⟨rfl, hb⟩)

end

theorem pollChunked_round {cs : ChunkState} (hstate : (e.dir dir).state = .body (.chunked cs)) :
    Round hp e dir (e.pollChunked dir cs).1 (e.pollChunked dir cs).2 := by
  have hconsume := canConsume_of_body hstate
  unfold pollChunked
  dsimp only
  cases cs with
  | size =>
    unfold scanCrlf
    cases hscan : findCrlfFrom (e.dir dir).buf ((e.dir dir).scanned - 1) with
    | none =>
      dsimp only
      split
      · exact .of_desync hconsume rfl
      · exact .waitBody _ _ hstate (.inr (.inr ⟨rfl, hscan, rfl⟩))
    | some eol =>
      have hbn := findCrlfFrom_bounds hscan
      dsimp only
      split
      · exact .of_desync hconsume rfl
      · next hmax =>
        split
        · exact .of_desync hconsume rfl
        · next hsize =>
          simpa using Round.lastChunk eol hstate hscan (Nat.le_of_not_lt (by simpa using hmax)) hsize
        · next size _ _ =>
          have hsp : Round hp e dir _ _ :=
            .span (eol + 2) 0 _ (.chunked (.data size)) [] hstate (Nat.succ_pos _) hbn.2
              (by simp) (.inl rfl)
          simpa [framingSpan, DirMachine.take] using hsp
  | data remaining =>
    exact bodySpan_round hstate (Nat.min_le_right _ _) (by simp) (by split <;> simp)
  | dataCrlf =>
    dsimp only
    split
    · exact .wait hstate
    · next hlen =>
      split
      · exact .lost _ e.pending hconsume (.inl rfl)
      · exact .span 2 _ _ _ [] hstate Nat.two_pos (Nat.le_of_not_lt hlen) (by simp)
          (.inr ⟨rfl, by simp⟩)
  | trailer =>
    have hwt (scanned : ℕ) : Round hp e dir (e.setDir dir { e.dir dir with scanned })
        (.ok .needMore) := .waitBody scanned _ hstate (.inr (.inl rfl))
    unfold scanTrailerEnd
    cases hfr : findCrlfFrom (e.dir dir).buf 0 with
    | none =>
      dsimp only
      split
      · exact .of_desync hconsume rfl
      · exact hwt _
    | some first =>
      dsimp only
      cases hend : trailerFrom (e.dir dir).buf (first + 2) with
      | none =>
        dsimp only
        split
        · exact .of_desync hconsume rfl
        · exact hwt _
      | some end_ =>
        have hbn := trailerFrom_bounds hend
        dsimp only
        split
        · exact .of_desync hconsume rfl
        · have htr : Round hp e dir _ _ :=
            .trailers end_ (parseTrailerFields ((e.dir dir).buf.take end_)) hstate (by omega) hbn.2
          simpa [DirMachine.take] using htr

/-- A poll in a body is one of the rounds, or leaves things as they are. -/
theorem pollBody_round (hstate : (e.dir dir).state = .body b) :
    Round hp e dir (e.pollBody dir b).1 (e.pollBody dir b).2 := by
  match b with
  | .length 0 =>
    unfold pollBody
    cases hswitch : e.pending_switch with
    | none => exact .done hstate hswitch
    | some kind => exact .switch kind hstate hswitch
  | .length (remaining + 1) =>
    exact bodySpan_round hstate (Nat.min_le_right _ _) (by simp) (by simp)
  | .untilClose => exact bodySpan_round hstate le_rfl (by simp) (by simp)
  | .chunked cs => exact pollChunked_round hstate

/-- What a head that is looked for comes to, as a round. -/
def headProgress : Except HttpPoison (Option EngineEvent) → Except HttpPoison Progress
  | .ok (some ev) => .ok (.event ev)
  | .ok none => .ok .needMore
  | .error reason => .error reason

section

variable (hstate : (e.dir dir).state = .head)
  (hscan : blankFrom (e.dir dir).buf ((e.dir dir).scanned - 3) = some hlen)
include hstate hscan

theorem Framed.round {head : Head} {e' : Engine} {r : Except HttpPoison (Option EngineEvent)}
    (hbytes : e.limits.policy ≠ .observe → checkHeadBytes true ((e.dir dir).buf.take hlen) = .ok ())
    (hparse : parseHead hp dir ((e.dir dir).buf.take hlen) e.limits.max_headers = some head)
    (h : Framed (e.setDir dir { (e.dir dir).take hlen with scanned := 0 }) head dir e' r) :
    Round hp e dir e' (headProgress r) := by
  match r with
  | .ok (some ev) => exact .head hlen head e' ev hstate hscan hbytes hparse h
  | .ok none => nomatch h
  | .error reason =>
    cases h with
    | lost _ _ pending hpending =>
      have hlo : Round hp e dir ({ e with pending }.setDir dir ((e.dir dir).desync reason))
          (.error reason) :=
        .lost reason pending (by rw [canConsume, hstate]) (by simpa using hpending)
      have hsm : ({ e.setDir dir { (e.dir dir).take hlen with scanned := 0 } with pending }.setDir dir
          (((e.setDir dir { (e.dir dir).take hlen with scanned := 0 }).dir dir).desync reason)) =
          { e with pending }.setDir dir ((e.dir dir).desync reason) := by
        cases dir <;> rfl
      rw [hsm]
      exact hlo

theorem readHead_round :
    Round hp e dir ((e.setDir dir { e.dir dir with scanned := hlen }).readHead hp dir hlen).1
      (headProgress
        ((e.setDir dir { e.dir dir with scanned := hlen }).readHead hp dir hlen).2) := by
  have hconsume : e.canConsume dir = true := by rw [canConsume, hstate]
  unfold readHead
  simp only [dir_setDir, limits_setDir]
  split
  · exact .of_desync hconsume rfl
  · next hbytes =>
    split
    · exact .of_desync hconsume rfl
    · next head hparse =>
      have hframed := finishHead_framed
        (e.setDir dir (DirMachine.take { e.dir dir with scanned := hlen } hlen)) dir head
      rw [DirMachine.take, Nat.sub_self] at hframed
      rw [setDir_setDir, DirMachine.take, Nat.sub_self]
      refine hframed.round hstate hscan (fun hob => ?_) hparse
      rwa [if_pos hob] at hbytes

end

theorem pollHead_round (hstate : (e.dir dir).state = .head) :
    Round hp e dir (e.pollHead hp dir).1 (headProgress (e.pollHead hp dir).2) := by
  have hconsume : e.canConsume dir = true := by rw [canConsume, hstate]
  unfold pollHead
  dsimp only
  split
  · next hpc =>
    refine .preface ?_ hstate
    by_contra hdir
    rw [if_neg hdir] at hpc
    cases hpc
  · have hwt : Round hp e dir (e.setDir dir (e.dir dir)) (.ok .needMore) :=
      .waitHead (e.dir dir).scanned hstate (.inl rfl)
    rwa [setDir_dir] at hwt
  · unfold scanBlankLine
    cases hscan : blankFrom (e.dir dir).buf ((e.dir dir).scanned - 3) with
    | none =>
      dsimp only
      split
      · exact .of_desync hconsume rfl
      · exact .waitHead _ hstate (.inr ⟨hscan, rfl⟩)
    | some hlen =>
      dsimp only
      split
      · exact .of_desync hconsume rfl
      · exact readHead_round hstate hscan

theorem findHead_round {found : Bool} (hstate : (e.dir dir).state = .resync)
    (h : e.findHead dir = (e', found)) :
    Round hp e dir e' (.ok (if found then .again else .needMore)) := by
  unfold findHead at h
  dsimp only at h
  split at h
  · next i _ =>
    cases h
    exact .restart i hstate
  · cases h
    exact .skip _ hstate

/-- A round does nothing else. -/
theorem pollRound_round (hp : Httparse) (e : Engine) (dir : Dir) :
    Round hp e dir (e.pollRound hp dir).1 (e.pollRound hp dir).2 := by
  unfold pollRound
  split
  · next hstate => exact .idle (by rw [canConsume, hstate])
  · next hstate => exact .idle (by rw [canConsume, hstate])
  · next hstate => exact .idle (by rw [canConsume, hstate])
  · next hstate =>
    split
    · next heq => exact findHead_round hstate heq
    · next heq => exact findHead_round hstate heq
  · next hstate =>
    have hround : Round hp e dir _ _ := pollHead_round hstate
    split
    · next heq => rwa [heq] at hround
    · next heq => rwa [heq] at hround
    · next heq => rwa [heq] at hround
  · next b hstate => exact pollBody_round hstate

/-! ## The loop -/

/-- How many more rounds there may be after this one. -/
def roundsLeft (e : Engine) (dir : Dir) : ℕ :=
  match (e.dir dir).state with
  | .resync | .body (.chunked .size) => 1
  | _ => 0

theorem Round.roundsLeft_lt (h : Round hp e dir e' (.ok .again)) :
    e'.roundsLeft dir < e.roundsLeft dir := by
  cases h with
  | restart i hstate => simp [roundsLeft, hstate]
  | lastChunk eol hstate => simp [roundsLeft, hstate]

variable (hp) in
/-- Advance a direction by one step: an event, nothing if more bytes are needed, or the reason why the
framing was lost. -/
def poll (e : Engine) (dir : Dir) : Engine × Except HttpPoison (Option EngineEvent) :=
  match _h : e.pollRound hp dir with
  | (e', .error reason) => (e', .error reason)
  | (e', .ok (.event ev)) => (e', .ok (some ev))
  | (e', .ok .needMore) => (e', .ok none)
  | (e', .ok .again) => poll e' dir
termination_by e.roundsLeft dir
decreasing_by
  have hround := pollRound_round hp e dir
  rw [_h] at hround
  exact hround.roundsLeft_lt

theorem poll_eq (hp : Httparse) (e : Engine) (dir : Dir) :
    e.poll hp dir =
      match e.pollRound hp dir with
      | (e', .error reason) => (e', .error reason)
      | (e', .ok (.event ev)) => (e', .ok (some ev))
      | (e', .ok .needMore) => (e', .ok none)
      | (e', .ok .again) => e'.poll hp dir := by
  rw [poll]
  split <;> next heq => rw [heq]

/-- A step that is over after one round. -/
theorem poll_of_event {ev : EngineEvent}
    (h : e.pollRound hp dir = (e', .ok (.event ev))) : e.poll hp dir = (e', .ok (some ev)) := by
  rw [poll_eq, h]

theorem poll_of_wait (h : e.pollRound hp dir = (e', .ok .needMore)) :
    e.poll hp dir = (e', .ok none) := by
  rw [poll_eq, h]

theorem poll_of_error
    (h : e.pollRound hp dir = (e', .error reason)) : e.poll hp dir = (e', .error reason) := by
  rw [poll_eq, h]

theorem poll_of_again (h : e.pollRound hp dir = (e', .ok .again)) :
    e.poll hp dir = e'.poll hp dir := by
  rw [poll_eq, h]

/-- A step from a state within a body. -/
theorem pollRound_body (hstate : (e.dir dir).state = .body b) :
    e.pollRound hp dir = e.pollBody dir b := by
  rw [pollRound, hstate]

/-- A step where a head is expected. -/
theorem poll_head (hstate : (e.dir dir).state = .head) : e.poll hp dir = e.pollHead hp dir := by
  have hround : e.pollRound hp dir =
      ((e.pollHead hp dir).1, headProgress (e.pollHead hp dir).2) := by
    rw [pollRound, hstate]
    dsimp only
    split <;> next heq => rw [heq, headProgress]
  rw [poll_eq, hround]
  match e.pollHead hp dir with
  | (_, .ok (some _)) => rfl
  | (_, .ok none) => rfl
  | (_, .error _) => rfl

variable (hp) in
/-- What a step does: rounds that only change the state, and one that ends it. -/
inductive Polled (dir : Dir) : Engine → Engine → Except HttpPoison (Option EngineEvent) → Prop
  | event {e e' : Engine} {ev : EngineEvent} (h : Round hp e dir e' (.ok (.event ev))) :
      Polled dir e e' (.ok (some ev))
  | wait {e e' : Engine} (h : Round hp e dir e' (.ok .needMore)) : Polled dir e e' (.ok none)
  | lost {e e' : Engine} {reason : HttpPoison} (h : Round hp e dir e' (.error reason)) :
      Polled dir e e' (.error reason)
  | again {e e₁ e' : Engine} {r : Except HttpPoison (Option EngineEvent)}
      (h : Round hp e dir e₁ (.ok .again)) (hrest : Polled dir e₁ e' r) : Polled dir e e' r

theorem poll_polled (hp : Httparse) (e : Engine) (dir : Dir) :
    Polled hp dir e (e.poll hp dir).1 (e.poll hp dir).2 := by
  induction hn : e.roundsLeft dir using Nat.strong_induction_on generalizing e with
  | _ n ih =>
    have hround := pollRound_round hp e dir
    rw [poll]
    split
    · next heq => rw [heq] at hround; exact .lost hround
    · next heq => rw [heq] at hround; exact .event hround
    · next heq => rw [heq] at hround; exact .wait hround
    · next e₁ heq =>
      rw [heq] at hround
      exact .again hround (ih _ (hn ▸ hround.roundsLeft_lt) e₁ rfl)

/-- What a step that came out in a certain way did. -/
theorem polled_of_poll {r : Except HttpPoison (Option EngineEvent)}
    (h : e.poll hp dir = (e', r)) : Polled hp dir e e' r := by
  have := poll_polled hp e dir
  rwa [h] at this

end Flowscope.Http.Engine
