import Flowscope.Http.Tunnel

/-!
# HTTP/1: responses are framed for their own request

How the body of a response is delimited depends on its request: a response to a `HEAD` has none, and a
`2xx` to a `CONNECT` opens a tunnel. The engine keeps the requests that wait in a queue
(`Engine.pending`). A request enters it when its head is reported, and a response takes the first one
when its own head is, unless it is interim.

As long as `next_event` finds no response that no request waits for (`Engine.awaited`), the queue is what
is left of the requests after the responses (`Queued.pending`), so the `k`-th response is framed for the
`k`-th request (`Exchange.responses_framed`). A response that no request waits for poisons the
connection if the policy is not to observe only; but `1xx` responses are passed on whatever is waiting,
and a `101` even switches the protocol (`interim_without_request`).
-/

namespace Flowscope.Http

open List HttpEvent Engine

/-! ## Requests and responses among the events -/

/-- A `1xx` other than `101`. -/
def IsInterim (status : ℕ) : Prop := 100 ≤ status ∧ status ≤ 199 ∧ status ≠ 101

instance (status : ℕ) : Decidable (IsInterim status) := by unfold IsInterim; infer_instance

/-- What a response needs to know of its request. -/
def RequestHead.ctx (h : RequestHead) : ReqCtx :=
  ⟨eqIgnoreAsciiCase h.method (ascii "HEAD"), eqIgnoreAsciiCase h.method (ascii "CONNECT")⟩

def HttpEvent.request? : HttpEvent → Option ReqCtx
  | .requestHead h => some h.ctx
  | _ => none

def HttpEvent.answer? : HttpEvent → Option ResponseHead
  | .responseHead h => if IsInterim h.status then none else some h
  | _ => none

/-- The requests among events, in their order. -/
def requests (events : List HttpEvent) : List ReqCtx := events.filterMap HttpEvent.request?

/-- The responses among events that are not interim, in their order. -/
def answers (events : List HttpEvent) : List ResponseHead := events.filterMap HttpEvent.answer?

/-- A response head is framed as the answer to a request. -/
def FramedFor (policy : SmugglingPolicy) (ctx : ReqCtx) (h : ResponseHead) : Prop :=
  if h.status = 101 ∨ (ctx.is_connect ∧ 200 ≤ h.status ∧ h.status ≤ 299) then h.framing = .none
  else responseFraming h.status ctx.is_head h.headers policy = .ok (h.framing, h.applied)

/-! ## The queue -/

namespace Engine

/-- A request waits for the response at the front, or the response takes none: it is interim, or the
connection is poisoned, as the policy is not only to observe. -/
def awaited (hp : Httparse) (e : Engine) : Bool :=
  match e.ahead hp .response with
  | .head head =>
    decide (e.pending ≠ [] ∨ IsInterim head.status ∨
      e.limits.policy ≠ .observe ∧ head.status ≠ 101)
  | _ => true

/-- No further response is parsed. -/
def Over (e : Engine) : Prop :=
  (e.dir .response).state = .desynced ∨ (e.dir .response).state = .tunnel

/-- The queue is what the responses have left of the requests, as long as there may be further
responses. -/
structure Queued (e : Engine) (policy : SmugglingPolicy) (reqs : List ReqCtx)
    (answ : List ResponseHead) : Prop where
  limits_policy : e.limits.policy = policy
  /-- No response came before its request. -/
  asked : answ.length ≤ reqs.length
  framed : ∀ (k : ℕ) (h : ResponseHead), answ[k]? = some h →
    ∃ ctx, reqs[k]? = some ctx ∧ FramedFor policy ctx h
  pending : e.pending = reqs.drop answ.length ∨ Over e

variable {hp : Httparse} {e e' : Engine} {dir : Dir} {policy : SmugglingPolicy}
  {reqs : List ReqCtx} {answ : List ResponseHead}

theorem Over.not_canConsume (h : Over e) : e.canConsume .response = false := by
  rcases h with hs | hs
  · exact not_canConsume_of_desynced hs
  · exact not_canConsume_of_tunnel hs

variable {r : Except HttpPoison (Option EngineEvent)} {ev : EngineEvent}

theorem Over.poll (h : Over e) (hpl : Polled hp dir e e' r) : Over e' := by
  cases dir with
  | response =>
    obtain ⟨rfl, -⟩ := hpl.of_not_canConsume h.not_canConsume
    exact h
  | request =>
    have hne : Dir.response ≠ Dir.request := nofun
    rcases hpl.other hne with ⟨_, hsm⟩ | ⟨_, htn⟩
    · rwa [Over, hsm]
    · exact .inr (by rw [htn])

section

variable (h : Queued e policy reqs answ)
include h

/-- The response direction is over. -/
theorem Queued.of_over (hlm : e'.limits = e.limits)
    (hov : Over e') : Queued e' policy reqs answ where
  limits_policy := hlm ▸ h.limits_policy
  asked := h.asked
  framed := h.framed
  pending := .inr hov

/-- What leaves the queue as it is, and the response direction over if it was. -/
theorem Queued.congr (hlm : e'.limits = e.limits)
    (hpn : e'.pending = e.pending) (hov : Over e → Over e') : Queued e' policy reqs answ where
  limits_policy := hlm ▸ h.limits_policy
  asked := h.asked
  framed := h.framed
  pending := h.pending.imp hpn.trans hov

/-- A change of one direction that does not end what is over. -/
theorem Queued.setDir {m : DirMachine} (hm : m.state = (e.dir dir).state ∨
      (e.dir dir).state ≠ .desynced ∧ (e.dir dir).state ≠ .tunnel) :
    Queued (e.setDir dir m) policy reqs answ := by
  refine h.congr (limits_setDir ..) (pending_setDir ..) fun hov => ?_
  by_cases hdir : dir = .response
  · subst hdir
    rw [Over, dir_setDir]
    rcases hm with hsm | ⟨hds, htn⟩
    · rwa [hsm]
    · exact (hov.elim hds htn).elim
  · rwa [Over, dir_setDir_of_ne e (Ne.symm hdir)]

/-- A step that reports nothing. -/
theorem Queued.poll_quiet (hpl : Polled hp dir e e' r) (hr : ∀ ev, r ≠ .ok (some ev)) :
    Queued e' policy reqs answ := by
  rcases hpl.pending_cases with ⟨hd, hev⟩ | ⟨kind, hev⟩ | ⟨rfl, reason, rfl⟩ | hpn
  · exact absurd hev (hr _)
  · exact absurd hev (hr _)
  · exact h.of_over hpl.limits (.inl hpl.lost_state.1)
  · exact h.congr hpl.limits hpn fun hov => hov.poll hpl

end

variable {head : Head} {ctx : ReqCtx} {hlen : ℕ}

section

variable (hq : Queued e policy reqs answ) (hlm : e'.limits = e.limits)
include hq hlm

/-- A further response, framed for the request that is first in the queue. -/
theorem Queued.answer {h : ResponseHead} (hctx : reqs[answ.length]? = some ctx)
    (hfd : FramedFor policy ctx h) (hpn : e'.pending = (reqs.drop answ.length).tail) :
    Queued e' policy reqs (answ ++ [h]) where
  limits_policy := hlm ▸ hq.limits_policy
  asked := by
    rw [length_append]
    exact (List.getElem?_eq_some_iff.mp hctx).1
  framed := by
    intro k h' hk
    rcases Nat.lt_or_ge k answ.length with hlt | hge
    · rw [getElem?_append_left hlt] at hk
      exact hq.framed k h' hk
    · rw [getElem?_append_right hge, getElem?_singleton] at hk
      split at hk
      · obtain rfl : k = answ.length := by omega
        cases hk
        exact ⟨ctx, hctx, hfd⟩
      · cases hk
  pending := by
    rw [length_append, hpn, tail_drop]
    exact .inl rfl

/-- A further request. -/
theorem Queued.ask
    (hpn : e'.pending = e.pending ++ [ctx] ∧ ¬Over e ∨ Over e') :
    Queued e' policy (reqs ++ [ctx]) answ where
  limits_policy := hlm ▸ hq.limits_policy
  asked := by
    rw [length_append]
    exact hq.asked.trans (Nat.le_add_right _ _)
  framed := by
    intro k h hk
    obtain ⟨c, hc, hfd⟩ := hq.framed k h hk
    have hlt := (List.getElem?_eq_some_iff.mp hc).1
    exact ⟨c, by rw [List.getElem?_append_left hlt, hc], hfd⟩
  pending := by
    refine hpn.imp_left fun ⟨hps, hov⟩ => ?_
    rw [hps, hq.pending.resolve_right hov, List.drop_append_of_le_length hq.asked]

end

/-- A response is framed for the request that is first in the queue, if it takes one. -/
theorem Queued.poll_response {hd : Head} (h : Queued e policy reqs answ) (hvalid : e.Valid)
    (hresync : (e.dir .response).state ≠ .resync) (hawaited : e.awaited hp = true)
    (hpoll : e.poll hp .response = (e', .ok (some (.head hd)))) :
    Queued e' policy reqs (answ ++ (convert .response (.head hd)).answer?.toList) := by
  have hpl := polled_of_poll hpoll
  have hpn : e.pending = reqs.drop answ.length := by
    refine h.pending.resolve_right fun hov => ?_
    cases (hpl.of_not_canConsume hov.not_canConsume).2
  have hlm := hpl.limits
  obtain ⟨head, hah, hfd⟩ := ahead_of_poll_head (hvalid .response) hresync hpoll
  rw [awaited, hah, decide_eq_true_eq, hpn] at hawaited
  generalize { e.dir .response with
    buf := (e.dir .response).buf.drop head.raw.length, scanned := 0 } = m at hfd
  have hhd : (e.setDir .response m).pending.head? = reqs[answ.length]? := by
    rw [pending_setDir, hpn, head?_drop]
  -- what a final response is framed for, and what it leaves
  have hfl {resp : ResponseHead} {ctx : ReqCtx} (hnot : ¬IsInterim resp.status)
      (hrp : convert .response (.head hd) = .responseHead resp)
      (hctx : reqs[answ.length]? = some ctx) (hfor : FramedFor policy ctx resp)
      (htl : e'.pending = (e.setDir .response m).pending.tail) :
      Queued e' policy reqs (answ ++ (convert .response (.head hd)).answer?.toList) := by
    have han : (convert .response (.head hd)).answer? = some resp := by
      rw [hrp, answer?, if_neg hnot]
    rw [han]
    refine h.answer hlm hctx hfor ?_
    rw [htl, pending_setDir, hpn]
  have hwaits (hne : reqs.drop answ.length ≠ []) : ∃ ctx, reqs[answ.length]? = some ctx := by
    rw [← head?_drop]
    exact Option.ne_none_iff_exists'.mp fun hnone => hne (head?_eq_none_iff.mp hnone)
  cases hfd with
  | upgrade hss =>
    have hnot : ¬IsInterim head.status := fun hi => hi.2.2 hss
    obtain ⟨ctx, hctx⟩ := hwaits
      (hawaited.resolve_right fun hor => hor.elim hnot fun h101 => h101.2 hss)
    refine hfl hnot rfl hctx ?_ rfl
    rw [FramedFor, if_pos (.inl hss)]
  | interim hss =>
    have han : (convert .response
        (.head { head with framing := .none, interim := true })).answer? = none := if_pos hss
    rw [han, Option.toList_none, append_nil]
    exact ⟨hlm ▸ h.limits_policy, h.asked, h.framed, .inl ((pending_setDir ..).trans hpn)⟩
  | connect ctx hctx hct hss =>
    refine hfl (fun hi => ?_) rfl (hhd.symm.trans hctx) ?_ rfl
    · have := hi.2.1
      dsimp only at this
      omega
    · rw [FramedFor, if_pos (.inr ⟨hct, hss⟩)]
  | response ctx framing applied hctx hss hnn hct hfr =>
    have hnot : ¬IsInterim head.status := fun hi => hss ⟨hi.1, hi.2.1⟩
    rw [hhd] at hctx
    obtain ⟨c, hc⟩ : ∃ c, reqs[answ.length]? = some c := by
      rcases hawaited with hne | hi | ⟨hpy, -⟩
      · exact hwaits hne
      · exact absurd hi hnot
      · -- nothing waits only if the policy is to observe
        rw [← hctx] at hnn
        exact Option.ne_none_iff_exists'.mp fun hnone => hpy (hnn hnone)
    obtain rfl : some c = ctx := hc.symm.trans hctx
    refine hfl hnot rfl hc ?_ rfl
    rw [FramedFor, if_neg]
    · rw [limits_setDir, h.limits_policy] at hfr
      exact hfr
    · rintro (h101 | ⟨hc, h2xx⟩)
      · dsimp only at h101
        omega
      · exact hct ⟨hc, h2xx⟩

/-- A request is refused if the queue is full. -/
theorem Framed.pending_le
    (h : Framed e head dir e' r) (hle : e.pending.length ≤ e.limits.max_pipelined) :
    e'.pending.length ≤ e.limits.max_pipelined := by
  have htl : e.pending.tail.length ≤ e.limits.max_pipelined := by
    rw [length_tail]
    omega
  cases h with
  | request framing applied hfr hrm =>
    rw [length_append, length_singleton]
    omega
  | upgrade | connect | response => exact htl
  | interim => exact hle
  | lost dir reason pending hpn =>
    rw [pending_setDir]
    rcases hpn with rfl | ⟨-, rfl⟩
    · exact hle
    · exact htl

theorem Round.pending_le {r : Except HttpPoison Progress} (h : Round hp e dir e' r)
    (hle : e.pending.length ≤ e.limits.max_pipelined) :
    e'.pending.length ≤ e.limits.max_pipelined := by
  cases h with
  | idle => exact hle
  | preface | switch => exact Nat.zero_le _
  | head _ _ _ _ _ _ _ _ hfd =>
    have := hfd.pending_le (by rwa [pending_setDir, limits_setDir])
    rwa [limits_setDir] at this
  | restart | skip | waitHead | done | span | waitBody | lastChunk | trailers =>
    rwa [pending_setDir]
  | lost reason pending _ hpn =>
    rw [pending_setDir]
    rcases hpn with rfl | ⟨-, rfl⟩
    · exact hle
    · rw [length_tail]
      omega

theorem Polled.pending_le (h : Polled hp dir e e' r)
    (hle : e.pending.length ≤ e.limits.max_pipelined) :
    e'.pending.length ≤ e'.limits.max_pipelined := by
  rw [h.limits]
  induction h with
  | event hrn | wait hrn | lost hrn => exact hrn.pending_le hle
  | again hrn _ ih =>
    have := ih (by rw [hrn.limits]; exact hrn.pending_le hle)
    rwa [hrn.limits] at this

/-- A response that no request waits for poisons the connection, unless it is a `1xx` or the policy is
only to observe. -/
theorem poll_unexpected (hvalid : e.Valid) (hah : e.ahead hp .response = .head head)
    (hss : ¬(100 ≤ head.status ∧ head.status ≤ 199)) (hpn : e.pending = [])
    (hpy : e.limits.policy ≠ .observe) :
    (e.poll hp .response).2 = .error .unexpectedResponse := by
  have hfits := ahead_fits hp e.limits .response (e.dir .response).state (e.dir .response).buf
  change (e.ahead hp .response).Fits _ _ at hfits
  rw [hah] at hfits
  rcases poll_atHead hp (hvalid .response) hfits.1 with ⟨hne, -⟩ | ⟨hne, -⟩ | ⟨_, _, hne, -⟩ |
    ⟨head', heq, hpl⟩
  · cases hah.symm.trans hne
  · cases hah.symm.trans hne
  · cases hah.symm.trans hne
  · cases hah.symm.trans heq
    rw [hpl]
    change (finishResponseHead _ head (signalsClose head)).2 = _
    unfold finishResponseHead
    rw [if_neg (fun h101 => hss (by omega)), if_neg hss]
    rw [pending_setDir, hpn, if_pos ⟨rfl, by rwa [limits_setDir]⟩]
    rfl

theorem convert_of_not_head (hnot : ∀ hd, ev ≠ .head hd) (dir : Dir) :
    (convert dir ev).request? = none ∧ (convert dir ev).answer? = none := by
  cases ev with
  | head hd => exact absurd rfl (hnot hd)
  | body | trailers | end_ | switch => exact ⟨rfl, rfl⟩

variable (h : Queued e policy reqs answ)
include h

/-- A step that reports something other than a head. -/
theorem Queued.poll_other (hpl : Polled hp dir e e' (.ok (some ev))) (hnot : ∀ hd, ev ≠ .head hd) :
    Queued e' policy reqs answ := by
  rcases hpl.pending_cases with ⟨hd, hev⟩ | ⟨kind, hev⟩ | ⟨-, reason, hev⟩ | hpn
  · cases hev
    exact absurd rfl (hnot hd)
  · exact h.of_over hpl.limits (.inr (hpl.tunnel_of_switch hev .response))
  · cases hev
  · exact h.congr hpl.limits hpn fun hov => hov.poll hpl

/-- A step that reports an event. Where a response is at the front, a request waits for it. -/
theorem Queued.poll_event (hvalid : e.Valid) (hresync : ∀ d, (e.dir d).state ≠ .resync)
    (hawaited : dir = .response → e.awaited hp = true)
    (hpoll : e.poll hp dir = (e', .ok (some ev))) :
    Queued e' policy (reqs ++ (convert dir ev).request?.toList)
      (answ ++ (convert dir ev).answer?.toList) := by
  have hpl := polled_of_poll hpoll
  by_cases hhd : ∃ hd, ev = .head hd
  · obtain ⟨hd, rfl⟩ := hhd
    cases dir with
    | response =>
      have hnone : (convert .response (.head hd)).request? = none := rfl
      rw [hnone, Option.toList_none, append_nil]
      exact h.poll_response hvalid (hresync .response) (hawaited rfl) hpoll
    | request =>
      have hnone : (convert .request (.head hd)).answer? = none := rfl
      rw [hnone, Option.toList_none, append_nil]
      refine h.ask hpl.limits ?_
      by_cases hov : Over e
      · exact .inr (hov.poll hpl)
      · obtain ⟨m, head, hfd⟩ := hpl.framed
        cases hfd with
        | request => exact .inl ⟨by rw [pending_setDir]; rfl, hov⟩
  · have hnot (hd : Head) : ev ≠ .head hd := fun heq => hhd ⟨hd, heq⟩
    obtain ⟨hrq, han⟩ := convert_of_not_head hnot dir
    rw [hrq, han, Option.toList_none, Option.toList_none, append_nil, append_nil]
    exact h.poll_other hpl hnot

end Engine

namespace Exchange

variable {hp : Httparse} {x : Exchange} {config : HttpProxyConfig} {P : Exchange → ProxyOp → Prop}

theorem requests_append (events : List HttpEvent) (ev : Option HttpEvent) :
    requests (events ++ ev.toList) = requests events ++ (ev.bind request?).toList := by
  cases ev with
  | none => simp
  | some ev => cases h : ev.request? <;> simp [requests, h]

theorem answers_append (events : List HttpEvent) (ev : Option HttpEvent) :
    answers (events ++ ev.toList) = answers events ++ (ev.bind answer?).toList := by
  cases ev with
  | none => simp
  | some ev => cases h : ev.answer? <;> simp [answers, h]

/-- `next_event` is called when a request waits for the response at the front, if there is one. -/
def Answered (hp : Httparse) (x : Exchange) : ProxyOp → Prop
  | .nextEvent => x.parser.engine.awaited hp = true
  | _ => True

instance (x : Exchange) : (op : ProxyOp) → Decidable (x.Answered hp op)
  | .nextEvent => inferInstanceAs (Decidable (_ = true))
  | .push _ _ | .fin _ | .takeTunnelResidue _ => inferInstanceAs (Decidable True)

/-- A step of the requests that reports nothing leaves the responses as they are. -/
theorem response_of_quiet {e e₁ : Engine} {r : Except HttpPoison (Option EngineEvent)}
    (hpl : Polled hp .request e e₁ r) (hr : ∀ ev, r ≠ .ok (some ev)) :
    e₁.ahead hp .response = e.ahead hp .response := by
  have hne : Dir.response ≠ Dir.request := Dir.noConfusion
  have hsame : e₁.dir .response = e.dir .response := by
    rcases hpl.other hne with ⟨_, hsame⟩ | ⟨⟨kind, hkind⟩, _⟩
    · exact hsame
    · exact absurd hkind (hr _)
  unfold Engine.ahead
  rw [hsame, hpl.limits]

theorem queued_nextEvent {policy : SmugglingPolicy} (hrun : Reach hp config P x)
    (h : x.parser.engine.Queued policy (requests x.events) (answers x.events))
    (hawaited : x.parser.engine.awaited hp = true) :
    (x.call hp .nextEvent).parser.engine.Queued policy (requests (x.call hp .nextEvent).events)
      (answers (x.call hp .nextEvent).events) := by
  unfold call
  rw [requests_append, answers_append]
  have hnx := x.parser.nextEvent_next hp
  revert hnx
  generalize x.parser.nextEvent hp = q
  obtain ⟨p, ev⟩ := q
  intro hnx
  cases hnx with
  | request hpl =>
    exact h.poll_event hrun.valid hrun.not_resync (fun hdir => by cases hdir) hpl
  | response h₁ hr hpl =>
    have hpd₁ := polled_of_poll h₁
    refine (h.poll_quiet hpd₁ hr).poll_event (hpd₁.valid hrun.valid)
      (hpd₁.not_resync_all hrun.not_resync) (fun _ => ?_) hpl
    rw [awaited, response_of_quiet hpd₁ hr, (hpd₁.shared_of_request hr).1, hpd₁.limits]
    exact hawaited
  | none h₁ hr hpl hr' =>
    have := (h.poll_quiet (polled_of_poll h₁) hr).poll_quiet (polled_of_poll hpl) hr'
    simpa using this

/-- The queue along every run. -/
theorem Reach.queued (h : Reach hp config (Answered hp) x) :
    x.parser.engine.Queued config.smuggling (requests x.events) (answers x.events) := by
  induction h with
  | new => exact ⟨rfl, Nat.le_refl _, fun _ _ hk => (by cases hk), .inl rfl⟩
  | @call x op hrun hop hq =>
    cases op with
    | push side data =>
      change (x.parser.push side data).1.engine.Queued _ _ _
      rcases x.parser.push_cases side data with heq | ⟨n, -, -, -, -, -, heq⟩
      · rw [heq]
        exact hq
      · rw [heq]
        rcases x.parser.engine.push_cases (toDir side) (data.take n) with hsm | hset
        · rw [hsm]
          exact hq
        · rw [hset]
          exact hq.setDir (.inl rfl)
    | nextEvent => exact queued_nextEvent hrun hq hop
    | fin side =>
      change (x.parser.engine.fin (toDir side)).1.Queued _ _ _
      rcases x.parser.engine.fin_cases (toDir side) with hsm | ⟨hds, htn, m, -, hset⟩
      · rw [hsm]
        exact hq
      · rw [hset]
        exact hq.setDir (.inr ⟨hds, htn⟩)
    | takeTunnelResidue side =>
      change (x.parser.engine.takeResidue (toDir side)).1.Queued _ _ _
      rcases x.parser.engine.takeResidue_cases (toDir side) with hsm | hset
      · rw [hsm]
        exact hq
      · rw [hset]
        exact hq.setDir (.inl rfl)

/-- The queue never exceeds its limit. -/
theorem Reach.pending_le (h : Reach hp config P x) :
    x.parser.engine.pending.length ≤ config.max_pipelined := by
  have hkp (e : Engine) (dir : Dir) (m : DirMachine)
      (hI : e.limits.max_pipelined = config.max_pipelined ∧
        e.pending.length ≤ e.limits.max_pipelined) :
      (e.setDir dir m).limits.max_pipelined = config.max_pipelined ∧
        (e.setDir dir m).pending.length ≤ (e.setDir dir m).limits.max_pipelined := by
    rw [limits_setDir, pending_setDir]
    exact hI
  have hI := h.engine_rule (I := fun e => e.limits.max_pipelined = config.max_pipelined ∧
    e.pending.length ≤ e.limits.max_pipelined) ⟨rfl, Nat.zero_le _⟩
    (fun e dir bytes hI => by
      rcases e.push_cases dir bytes with heq | heq
      · rwa [heq]
      · rw [heq]
        exact hkp e dir _ hI)
    (fun dir e e' r hpl hI => ⟨by rw [hpl.limits, hI.1], hpl.pending_le hI.2⟩)
    (fun e dir hI => by
      rcases e.fin_cases dir with heq | ⟨-, -, m, -, heq⟩
      · rwa [heq]
      · rw [heq]
        exact hkp e dir _ hI)
    (fun e dir hI => by
      rcases e.takeResidue_cases dir with heq | heq
      · rwa [heq]
      · rw [heq]
        exact hkp e dir _ hI)
  exact hI.1 ▸ hI.2

/-- An interim response leaves the queue as it is. -/
theorem pending_of_interim {h : ResponseHead}
    (hhd : (x.parser.nextEvent hp).2 = some (.responseHead h)) (hin : IsInterim h.status) :
    (x.call hp .nextEvent).parser.engine.pending = x.parser.engine.pending := by
  obtain ⟨e0, head, hd, hfd, hpn, hsm⟩ := framed_of_responseHead hhd
  rw [← hpn]
  rw [← hsm] at hin
  obtain ⟨h100, h199, h101⟩ := hin
  generalize (x.call hp .nextEvent).parser.engine = e' at hfd ⊢
  cases hfd with
  | interim => rfl
  | upgrade hss => exact absurd hss h101
  | connect _ _ _ hss =>
    dsimp only at h199
    omega
  | response _ _ _ _ hss => exact absurd ⟨h100, h199⟩ hss

/-- A response that no request waits for poisons the connection, once the requests have nothing more
to report. -/
theorem poisoned_of_unexpected {head : Head} (hrun : Reach hp config P x)
    (hah : x.parser.engine.ahead hp .response = .head head)
    (hss : ¬(100 ≤ head.status ∧ head.status ≤ 199)) (hpn : x.parser.engine.pending = [])
    (hpy : x.parser.engine.limits.policy ≠ .observe) :
    (∃ ev, (x.parser.engine.poll hp .request).2 = .ok (some ev)) ∨
      (x.call hp .nextEvent).parser.isPoisoned = true ∧
        (x.call hp .nextEvent).parser.engine.poison .response = some .unexpectedResponse := by
  have hunexpected {e₁ : Engine} {r : Except HttpPoison (Option EngineEvent)}
      (h₁ : x.parser.engine.poll hp .request = (e₁, r)) (hr : ∀ ev, r ≠ .ok (some ev)) :
      (e₁.poll hp .response).2 = .error .unexpectedResponse := by
    have hpd := polled_of_poll h₁
    exact poll_unexpected (hpd.valid hrun.valid) ((response_of_quiet hpd hr).trans hah) hss
      ((hpd.shared_of_request hr).1.trans hpn) (by rwa [hpd.limits])
  change _ ∨ (x.parser.nextEvent hp).1.isPoisoned = true ∧
    (x.parser.nextEvent hp).1.engine.poison .response = some .unexpectedResponse
  have hnx := x.parser.nextEvent_next hp
  generalize (x.parser.nextEvent hp).1 = p, (x.parser.nextEvent hp).2 = o at hnx ⊢
  cases hnx with
  | request h => exact .inl ⟨_, by rw [h]⟩
  | response h₁ hr h =>
    have := hunexpected h₁ hr
    rw [h] at this
    cases this
  | none h₁ hr h hr' =>
    have hlost := hunexpected h₁ hr
    rw [h] at hlost
    cases hlost
    obtain ⟨hst, hpo⟩ := (polled_of_poll h).lost_state
    refine .inr ⟨?_, hpo⟩
    rw [HttpProxyParser.isPoisoned, Bool.or_eq_true]
    exact .inr (decide_eq_true hst)

/-- Responses are framed for their own request, interim ones take none, the queue is bounded, and a
response that no request waits for poisons the connection. -/
theorem responses_framed (h : Reach hp config (Answered hp) x) :
    (∀ (k : ℕ) (resp : ResponseHead), (answers x.events)[k]? = some resp →
      ∃ ctx, (requests x.events)[k]? = some ctx ∧ FramedFor config.smuggling ctx resp) ∧
    (∀ resp : ResponseHead, (x.parser.nextEvent hp).2 = some (.responseHead resp) →
      IsInterim resp.status →
      (x.call hp .nextEvent).parser.engine.pending = x.parser.engine.pending) ∧
    x.parser.engine.pending.length ≤ config.max_pipelined ∧
    (config.smuggling ≠ .observe → x.parser.engine.pending = [] →
      ∀ head, x.parser.engine.ahead hp .response = .head head →
        ¬(100 ≤ head.status ∧ head.status ≤ 199) →
        (∃ ev, (x.parser.engine.poll hp .request).2 = .ok (some ev)) ∨
          (x.call hp .nextEvent).parser.isPoisoned = true ∧
            (x.call hp .nextEvent).parser.engine.poison .response = some .unexpectedResponse) := by
  have hq := h.queued
  refine ⟨hq.framed, fun resp hhd hin => pending_of_interim hhd hin, h.pending_le, ?_⟩
  intro hpy hpn head hah hss
  exact poisoned_of_unexpected h hah hss hpn (by rwa [hq.limits_policy])

/-- A `HEAD` and a `GET` are pipelined; the first response comes after an interim one, and has a length
but no body. -/
def pipelinedOps : List ProxyOp :=
  [.push .initiator (headRequest ++ getHead), .nextEvent, .nextEvent, .nextEvent, .nextEvent,
    .push .responder (continueHead ++ lengthHead ++ lengthHead ++ ascii "x"), .nextEvent, .nextEvent,
    .nextEvent, .nextEvent, .nextEvent]

theorem responses_framed_pipelined :
    (answers (sampleRun pipelinedOps).events).map (·.framing) = [.none, .contentLength 1] ∧
      ∀ (k : ℕ) (resp : ResponseHead), (answers (sampleRun pipelinedOps).events)[k]? = some resp →
        ∃ ctx, (requests (sampleRun pipelinedOps).events)[k]? = some ctx ∧
          FramedFor .strict ctx resp := by
  have hanswered : Meets sampleHttparse (Answered sampleHttparse) (new {}) pipelinedOps := by
    decide +kernel
  exact ⟨by decide +kernel, (responses_framed (Reach.new.calls hanswered)).1⟩

/-- With no request waiting, a `101` switches the protocol and other `1xx` are passed on, under the
strict policy too. -/
theorem interim_without_request :
    (sampleRun [.push .responder upgradeHead, .nextEvent, .nextEvent]).events =
        [.responseHead ⟨101, ascii "Go", .http1_1, [], .none, false, [], upgradeHead⟩,
          .switchProtocols (.upgrade [])] ∧
      (sampleRun [.push .responder upgradeHead, .nextEvent, .nextEvent]).parser.poison = none ∧
      (sampleRun [.push .responder continueHead, .nextEvent]).events =
        [.responseHead ⟨100, ascii "Go", .http1_1, [], .none, true, [], continueHead⟩] ∧
      (sampleRun [.push .responder continueHead, .nextEvent]).parser.poison = none := by
  decide +kernel

end Exchange

end Flowscope.Http
