import Flowscope.Http.Exchange

/-!
# HTTP/1: bytes of a tunnel are not parsed

A `101`, or a `2xx` that answers a `CONNECT`, hands the connection over to another protocol. The switch
takes effect at a later step than the one that reports the response head, and `next_event` looks at
the requests first. So a request that is pushed in between is parsed, although it belongs to the new
protocol (`tunnel_byte_parsed`).

If the request direction had nothing buffered when the response head was reported, and is at the end
of a message or has nothing complete at its front when `next_event` is called again, that call reports
the switch. Then nothing is parsed any more, and what was pushed since is the residue
(`Exchange.tunnel_not_parsed`).
-/

namespace Flowscope.Http

open Engine

namespace Engine

variable {hp : Httparse} {e e' : Engine} {dir : Dir} {kind : SwitchKind}

/-- Once its message is over, either direction reports a switch that was announced. -/
theorem poll_switch (hst : (e.dir dir).state = .body (.length 0))
    (hsw : e.pending_switch = some kind) :
    e.poll hp dir = ({ e with pending_switch := none }.switchToTunnel, .ok (some (.switch kind))) := by
  apply poll_of_event
  rw [pollRound, hst]
  unfold pollBody
  rw [hsw]
  rfl

/-- The response that switches the connection announces it. -/
theorem Framed.announces {head hd : Head} (h : Framed e head .response e' (.ok (some (.head hd))))
    (hss : hd.status = 101 ∨
      (200 ≤ hd.status ∧ hd.status ≤ 299 ∧ e.pending.head?.any (·.is_connect))) :
    (∃ kind, e'.pending_switch = some kind) ∧ e'.response.state = .body (.length 0) := by
  cases h with
  | upgrade => exact ⟨⟨_, rfl⟩, rfl⟩
  | interim h1xx =>
    dsimp only at hss
    omega
  | connect => exact ⟨⟨_, rfl⟩, rfl⟩
  | response ctx _ _ hctx h1xx _ hct =>
    dsimp only at hss
    rcases hss with h101 | ⟨h200, h299, hany⟩
    · omega
    · exact absurd ⟨hctx ▸ hany, h200, h299⟩ hct

theorem poll_of_tunnel (h : (e.dir dir).state = .tunnel) : e.poll hp dir = (e, .ok none) := by
  obtain ⟨h₁, h₂⟩ := (poll_polled hp e dir).of_not_canConsume (not_canConsume_of_tunnel h)
  exact Prod.ext h₁ h₂

end Engine

namespace HttpProxyParser

variable {hp : Httparse} {p : HttpProxyParser}

/-- A push leaves the states as they are. -/
theorem state_push (p : HttpProxyParser) (side : FlowSide) (data : Bytes) (dir : Dir) :
    ((p.push side data).1.engine.dir dir).state = (p.engine.dir dir).state := by
  rcases p.push_cases side data with heq | ⟨n, -, -, -, -, -, heq⟩
  · rw [heq]
  · rw [heq]
    exact Engine.state_push ..

theorem pending_switch_push (p : HttpProxyParser) (side : FlowSide) (data : Bytes) :
    (p.push side data).1.engine.pending_switch = p.engine.pending_switch := by
  rcases p.push_cases side data with heq | ⟨n, -, -, -, -, -, heq⟩
  · rw [heq]
  · rw [heq]
    exact Engine.pending_switch_push ..

/-- Both directions are in the tunnel. -/
def InTunnel (p : HttpProxyParser) : Prop := ∀ dir, (p.engine.dir dir).state = .tunnel

variable (h : p.InTunnel)
include h

theorem InTunnel.isTunnelled : p.engine.isTunnelled = true :=
  decide_eq_true (h .request)

theorem InTunnel.not_poisoned : p.isPoisoned = false := by
  have hst (dir : Dir) : p.engine.isDesynced dir = false :=
    decide_eq_false (by rw [h dir]; nofun)
  rw [isPoisoned, hst, hst]
  rfl

theorem InTunnel.push (side : FlowSide) (data : Bytes) : p.push side data = (p, 0) :=
  if_pos (.inr h.isTunnelled)

theorem InTunnel.nextEvent : p.nextEvent hp = (p, none) := by
  unfold HttpProxyParser.nextEvent
  rw [poll_of_tunnel (h .request)]
  dsimp only
  rw [poll_of_tunnel (h .response)]

end HttpProxyParser

namespace Exchange

variable {hp : Httparse} {x : Exchange} {config : HttpProxyConfig} {P : Exchange → ProxyOp → Prop}

/-- A call that pushes bytes or takes an event. -/
def IsFeed : ProxyOp → Prop
  | .push _ _ | .nextEvent => True
  | _ => False

/-- In the tunnel, pushes and events are refused. -/
theorem call_of_inTunnel (h : x.parser.InTunnel) {op : ProxyOp} (hop : IsFeed op) :
    x.call hp op = x := by
  cases op with
  | push side data =>
    have hset : x.accepted.set side (x.accepted.get side) = x.accepted := by cases side <;> rfl
    simp [call, h.push, hset]
  | nextEvent => simp [call, h.nextEvent]
  | fin | takeTunnelResidue => exact hop.elim

theorem calls_of_inTunnel (h : x.parser.InTunnel) {ops : List ProxyOp} (hops : ∀ op ∈ ops, IsFeed op) :
    ops.foldl (call hp) x = x := by
  induction ops with
  | nil => rfl
  | cons op ops ih =>
    rw [List.foldl_cons, call_of_inTunnel h (hops op List.mem_cons_self)]
    exact ih fun o ho => hops o (List.mem_cons_of_mem op ho)

/-- A parser for proxies never looks for a head after missing bytes. -/
theorem Reach.not_resync (h : Reach hp config P x) :
    ∀ d, (x.parser.engine.dir d).state ≠ .resync := by
  refine h.engine_rule (I := fun e => ∀ d, (e.dir d).state ≠ .resync) ?_ ?_ ?_ ?_ ?_
  · intro d
    cases d <;> nofun
  · intro e dir bytes h d
    rw [state_push]
    exact h d
  · intro dir e e' r hpl h
    exact hpl.not_resync_all h
  · intro e dir h d
    rcases e.fin_cases dir with hsm | ⟨_, _, m, hm, hcl⟩
    · rw [hsm]
      exact h d
    · rw [hcl]
      by_cases hd : d = dir
      · subst hd
        rw [dir_setDir, hm]
        nofun
      · rw [dir_setDir_of_ne e hd]
        exact h d
  · intro e dir h d
    rw [state_takeResidue]
    exact h d

def pushAll (hp : Httparse) (x : Exchange) (pushes : List (FlowSide × Bytes)) : Exchange :=
  pushes.foldl (fun x s => x.call hp (.push s.1 s.2)) x

theorem Reach.pushAll (h : Reach hp config (fun _ _ => True) x)
    (pushes : List (FlowSide × Bytes)) :
    Reach hp config (fun _ _ => True) (x.pushAll hp pushes) := by
  have := h.calls (meets_true (pushes.map fun s => .push s.1 s.2))
  rwa [List.foldl_map] at this

/-- What a push changes: what it accepts is buffered, if the direction can take it. -/
theorem push_open (hp : Httparse) (x : Exchange) (hon : x.parser.engine.isClosed .request = false)
    (side : FlowSide) (data : Bytes) :
    ∃ bytes, (x.call hp (.push side data)).accepted.get .initiator =
        x.accepted.get .initiator ++ bytes ∧
      (x.call hp (.push side data)).held .initiator = x.held .initiator ++ bytes := by
  unfold held call
  dsimp only
  rcases x.parser.push_cases side data with heq | ⟨n, -, -, hpo, htd, -, heq⟩
  · rw [heq]
    refine ⟨[], ?_, ?_⟩
    · cases side <;> simp [Sides.get, Sides.set]
    · rw [List.append_nil]
  · rw [heq]
    cases side with
    | initiator =>
      have hcn : x.parser.engine.canConsume .request = true :=
        canConsume_of_ne (of_decide_eq_false hon)
          (of_decide_eq_false (HttpProxyParser.isDesynced_of_not_poisoned hpo .request))
          (of_decide_eq_false htd)
      exact ⟨data.take n, rfl, buf_push hcn _⟩
    | responder =>
      refine ⟨[], (List.append_nil _).symm, ?_⟩
      rw [List.append_nil]
      have hne : toDir .initiator ≠ toDir .responder := nofun
      exact congrArg DirMachine.buf (dir_push_of_ne _ hne _)

theorem pushAll_spec (hp : Httparse) (pushes : List (FlowSide × Bytes)) (x : Exchange)
    (hon : x.parser.engine.isClosed .request = false) :
    (x.pushAll hp pushes).events = x.events ∧
      (∀ dir, ((x.pushAll hp pushes).parser.engine.dir dir).state =
        (x.parser.engine.dir dir).state) ∧
      (x.pushAll hp pushes).parser.engine.pending_switch = x.parser.engine.pending_switch ∧
      ∃ bytes, (x.pushAll hp pushes).accepted.get .initiator =
          x.accepted.get .initiator ++ bytes ∧
        (x.pushAll hp pushes).held .initiator = x.held .initiator ++ bytes := by
  induction pushes generalizing x with
  | nil => exact ⟨rfl, fun _ => rfl, rfl, [], (List.append_nil _).symm, (List.append_nil _).symm⟩
  | cons s pushes ih =>
    have hst (d : Dir) := x.parser.state_push s.1 s.2 d
    have hon' : (x.call hp (.push s.1 s.2)).parser.engine.isClosed .request = false :=
      decide_eq_false (by
        change ((x.parser.push s.1 s.2).1.engine.dir .request).state ≠ .closed
        rw [hst]
        exact of_decide_eq_false hon)
    obtain ⟨hes, hsts, hsw, bytes, hacc, hhl⟩ := ih (x.call hp (.push s.1 s.2)) hon'
    obtain ⟨bytes₀, hac0, hhl0⟩ := push_open hp x hon s.1 s.2
    refine ⟨hes, fun d => (hsts d).trans (hst d),
      hsw.trans (x.parser.pending_switch_push s.1 s.2), bytes₀ ++ bytes, ?_, ?_⟩
    · exact hacc.trans (by rw [hac0, List.append_assoc])
    · exact hhl.trans (by rw [hhl0, List.append_assoc])

variable {h : ResponseHead}

section

variable (hhead : (x.parser.nextEvent hp).2 = some (.responseHead h))
include hhead

/-- The call that reports a response head has framed it, with the queue as it was. -/
theorem framed_of_responseHead :
    ∃ (e0 : Engine) (head hd : Head),
      Framed e0 head .response (x.call hp .nextEvent).parser.engine
        (.ok (some (.head hd))) ∧
      e0.pending = x.parser.engine.pending ∧ hd.status = h.status := by
  have hnx := x.parser.nextEvent_next hp
  unfold call
  dsimp only
  rw [hhead] at hnx
  generalize (x.parser.nextEvent hp).1 = p at hnx ⊢
  generalize hev : some (HttpEvent.responseHead h) = ev at hnx
  cases hnx with
  | @request e ev hpl => cases ev <;> cases hev
  | none => cases hev
  | @response e1 e r ev h₁ hr hpl =>
    obtain ⟨hpn, -⟩ := (polled_of_poll h₁).shared_of_request hr
    cases ev with
    | head hd =>
      obtain ⟨m, head, hfd⟩ := (polled_of_poll hpl).framed
      cases hev
      exact ⟨_, head, hd, hfd, by rw [pending_setDir, hpn], rfl⟩
    | body | trailers | end_ | switch => cases hev

/-- The call that reports the switching response head announces the switch. -/
theorem announced_of_head (hss : h.status = 101 ∨ (200 ≤ h.status ∧ h.status ≤ 299 ∧
      x.parser.engine.pending.head?.any (·.is_connect))) :
    (∃ kind, (x.call hp .nextEvent).parser.engine.pending_switch = some kind) ∧
      (x.call hp .nextEvent).parser.engine.response.state = .body (.length 0) := by
  obtain ⟨e0, head, hd, hfd, hpn, hsm⟩ := framed_of_responseHead hhead
  rw [← hsm, ← hpn] at hss
  exact hfd.announces hss

end

/-- The next call reports the switch, if the requests are at the end of a message or have nothing
complete at their front. -/
theorem switches {kind : SwitchKind} (hrun : Reach hp config P x)
    (hswitch : x.parser.engine.pending_switch = some kind)
    (hresponse : (x.parser.engine.dir .response).state = .body (.length 0))
    (hquiet : x.parser.engine.ahead hp .request = .done ∨
      x.parser.engine.ahead hp .request = .wait) :
    (x.call hp .nextEvent).events = x.events ++ [.switchProtocols kind] ∧
      (x.call hp .nextEvent).parser.InTunnel ∧
      (x.call hp .nextEvent).held .initiator = x.held .initiator := by
  unfold call HttpProxyParser.nextEvent
  have hresync := hrun.not_resync .request
  rcases hquiet with hdone | hwait
  · have hrequest : (x.parser.engine.dir .request).state = .body (.length 0) := by
      have hfits := ahead_fits hp x.parser.engine.limits .request
        (x.parser.engine.dir .request).state (x.parser.engine.dir .request).buf
      change (x.parser.engine.ahead hp .request).Fits _ _ at hfits
      rwa [hdone] at hfits
    rw [poll_switch hrequest hswitch]
    exact ⟨rfl, state_switchToTunnel _, buf_switchToTunnel _ _⟩
  · -- the step of the requests waits, and that of the responses reports the switch
    obtain ⟨e₁, hpl⟩ : ∃ e₁, x.parser.engine.poll hp .request = (e₁, .ok none) :=
      ⟨_, Prod.ext rfl (poll_of_ahead_wait (hrun.valid .request) hresync hwait)⟩
    have hpd := polled_of_poll hpl
    have hbuf : (e₁.dir .request).buf = (x.parser.engine.dir .request).buf :=
      hpd.spent_append hresync
    obtain ⟨m, rfl⟩ := hpd.eq_setDir
    have hrs : ((x.parser.engine.setDir .request m).dir .response).state =
        .body (.length 0) := hresponse
    rw [hpl]
    dsimp only
    rw [poll_switch hrs ((pending_switch_setDir ..).trans hswitch)]
    exact ⟨rfl, state_switchToTunnel _, (buf_switchToTunnel _ _).trans hbuf⟩

/-- Once the response head that switches the connection was reported, with nothing of the requests
buffered, no byte of a tunnel is parsed: the next call reports the switch, no event follows and no byte
is accepted any more, and the residue is what was accepted in between. -/
theorem tunnel_not_parsed {h : ResponseHead} (hrun : Reach hp config (fun _ _ => True) x)
    (hhead : (x.parser.nextEvent hp).2 = some (.responseHead h))
    (hstatus : h.status = 101 ∨ (200 ≤ h.status ∧ h.status ≤ 299 ∧
      x.parser.engine.pending.head?.any (·.is_connect)))
    (hopen : (x.call hp .nextEvent).parser.engine.isClosed .request = false)
    (hheld : (x.call hp .nextEvent).held .initiator = []) (pushes : List (FlowSide × Bytes))
    (hquiet : ((x.call hp .nextEvent).pushAll hp pushes).parser.engine.ahead hp .request = .done ∨
      ((x.call hp .nextEvent).pushAll hp pushes).parser.engine.ahead hp .request = .wait)
    (later : List ProxyOp) (hlater : ∀ op ∈ later, IsFeed op) :
    let x₁ := x.call hp .nextEvent
    let x₂ := x₁.pushAll hp pushes
    let x₃ := later.foldl (call hp) (x₂.call hp .nextEvent)
    (∃ kind, x₃.events = x₁.events ++ [.switchProtocols kind]) ∧
      x₃.parser.isPoisoned = false ∧ x₃.accepted = x₂.accepted ∧
      ∃ bytes, x₂.accepted.get .initiator = x₁.accepted.get .initiator ++ bytes ∧
        (x₃.parser.takeTunnelResidue .initiator).2 = bytes := by
  intro x₁ x₂ x₃
  obtain ⟨⟨kind, hkind⟩, hresponse⟩ := announced_of_head hhead hstatus
  obtain ⟨hevents, hstates, hswitch, bytes, haccepted, hbuffered⟩ :=
    pushAll_spec hp pushes x₁ hopen
  have hrun₂ : Reach hp config (fun _ _ => True) x₂ :=
    (hrun.call .nextEvent trivial).pushAll pushes
  obtain ⟨hevents₃, htunnel, hbuffered₃⟩ := switches hrun₂ (hswitch.trans hkind)
    ((hstates .response).trans hresponse) hquiet
  have hx₃ : x₃ = x₂.call hp .nextEvent := calls_of_inTunnel htunnel hlater
  have hresidue : (x₂.call hp .nextEvent).held .initiator = bytes :=
    calc (x₂.call hp .nextEvent).held .initiator = x₂.held .initiator := hbuffered₃
      _ = x₁.held .initiator ++ bytes := hbuffered
      _ = bytes := by rw [hheld, List.nil_append]
  rw [hx₃]
  refine ⟨⟨kind, by rw [hevents₃, hevents]⟩, htunnel.not_poisoned, rfl, bytes, haccepted, ?_⟩
  rw [← hresidue]
  unfold HttpProxyParser.takeTunnelResidue takeResidue
  rw [if_neg (not_not.mpr htunnel.isTunnelled)]
  rfl

/-- A request, and the `101` that answers it. -/
def answeredOps : List ProxyOp :=
  [.push .initiator getHead, .nextEvent, .nextEvent, .push .responder upgradeHead]

theorem tunnel_not_parsed_upgrade :
    ∃ bytes, (((sampleRun answeredOps).call sampleHttparse .nextEvent).pushAll sampleHttparse
          [(.initiator, ascii "ws")]).accepted.get .initiator =
        ((sampleRun answeredOps).call sampleHttparse .nextEvent).accepted.get .initiator ++ bytes ∧
      ((([.nextEvent, .push .initiator getHead, .nextEvent].foldl (call sampleHttparse)
        ((((sampleRun answeredOps).call sampleHttparse .nextEvent).pushAll sampleHttparse
          [(.initiator, ascii "ws")]).call sampleHttparse .nextEvent))).parser.takeTunnelResidue
            .initiator).2 =
        bytes := by
  have hrun : Reach sampleHttparse {} (fun _ _ => True) (sampleRun answeredOps) :=
    Reach.new.calls (meets_true answeredOps)
  have hhead : ((sampleRun answeredOps).parser.nextEvent sampleHttparse).2 =
      some (.responseHead ⟨101, ascii "Go", .http1_1, [], .none, false, [], upgradeHead⟩) := by
    decide +kernel
  exact (tunnel_not_parsed hrun hhead (.inl rfl) (by decide +kernel) (by decide +kernel)
    [(.initiator, ascii "ws")] (.inr (by decide +kernel))
    [.nextEvent, .push .initiator getHead, .nextEvent] (by simp [IsFeed])).2.2.2

/-- After the response head that switches the connection, what looks like a request is parsed as one,
and what does not poisons the parser. -/
theorem tunnel_byte_parsed :
    (sampleRun (answeredOps ++ [.nextEvent])).events =
        (sampleRun answeredOps).events ++
          [.responseHead ⟨101, ascii "Go", .http1_1, [], .none, false, [], upgradeHead⟩] ∧
      (sampleRun (answeredOps ++ [.nextEvent, .push .initiator getHead, .nextEvent])).events =
        (sampleRun (answeredOps ++ [.nextEvent])).events ++
          [.requestHead ⟨ascii "GET", ascii "/", .http1_1, [], .none, [], getHead⟩] ∧
      (sampleRun (answeredOps ++ [.nextEvent, .push .initiator (ascii "\n\n"),
        .nextEvent])).parser.poison = some .malformedHead := by
  decide +kernel

end Exchange

end Flowscope.Http
