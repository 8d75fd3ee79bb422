import Flowscope.Http.Proxy
import Flowscope.Http.Tracking

/-!
# HTTP/1: accepted bytes are accounted for

`Exchange` is a parser with a record of what was exchanged with it: the bytes that `push` accepted, the
events that `next_event` returned, and the bytes that `take_tunnel_residue` returned.

A byte that was accepted should be in the `raw` of an event, or in the residue, or still be buffered.
Three things break this (`Exchange.Careful` excludes them): `push` accepts bytes for a direction that
is closed, where the engine drops them; `fin` discards the rest of a body that runs to the close; and
a switch of protocols takes a direction that was given up into the tunnel, so the connection is not
poisoned any more. Otherwise every accepted byte is accounted for (`Exchange.accepted_accounted`).
`Exchange.Careful` is about the state before each call: what was announced, what is closed, and what
is at the front of a buffer.
-/

namespace Flowscope.Http

open Function Engine

/-! ## The balance of an engine -/

namespace Engine

/-- The directions are in the tunnel together. -/
def Paired (e : Engine) : Prop :=
  ∀ dir dir', (e.dir dir).state = .tunnel → (e.dir dir').state = .tunnel

/-- What was accepted (`acc`) is what was reported (`rep`), what was handed out as residue (`res`) and
what is buffered, unless the direction was given up. -/
structure Balanced (e : Engine) (acc rep res : Dir → Bytes) : Prop where
  balance : ∀ dir, acc dir = rep dir ++ res dir ++ (e.dir dir).buf ∨ (e.dir dir).state = .desynced
  residue : ∀ dir, res dir = [] ∨ (e.dir dir).state = .tunnel
  paired : e.Paired
  not_resync : ∀ dir, (e.dir dir).state ≠ .resync

variable {hp : Httparse} {e e' : Engine} {dir : Dir} {acc rep res : Dir → Bytes}

/-- No direction of a new engine is in the tunnel. -/
theorem paired_new (limits : EngineLimits) : (new limits).Paired := by
  intro dir dir' h
  cases dir <;> cases h

/-- A new engine is balanced. -/
theorem balanced_new (limits : EngineLimits) :
    Balanced (new limits) (fun _ => []) (fun _ => []) fun _ => [] where
  balance dir := .inl (by cases dir <;> rfl)
  residue _ := .inl rfl
  paired := paired_new limits
  not_resync dir := by cases dir <;> nofun

/-- In the tunnel nothing is parsed. -/
theorem not_canConsume_of_tunnel (h : (e.dir dir).state = .tunnel) : e.canConsume dir = false := by
  rw [canConsume, h]

/-- Nothing is parsed in a direction that was given up. -/
theorem not_canConsume_of_desynced (h : (e.dir dir).state = .desynced) :
    e.canConsume dir = false := by
  rw [canConsume, h]

/-- Every other direction that is not closed is parsed. -/
theorem canConsume_of_ne (hopen : (e.dir dir).state ≠ .closed)
    (hdesynced : (e.dir dir).state ≠ .desynced) (htunnel : (e.dir dir).state ≠ .tunnel) :
    e.canConsume dir = true := by
  unfold canConsume
  cases hs : (e.dir dir).state with
  | head | body | resync => rfl
  | closed => exact absurd hs hopen
  | desynced => exact absurd hs hdesynced
  | tunnel => exact absurd hs htunnel

section Paired

variable (h : e.Paired)
include h

/-- A step takes both directions into the tunnel, or none. -/
theorem Paired.poll {r : Except HttpPoison (Option EngineEvent)} (hpoll : Polled hp dir e e' r) :
    e'.Paired := by
  by_cases hidle : e.canConsume dir = false
  · obtain ⟨rfl, -⟩ := hpoll.of_not_canConsume hidle
    exact h
  -- before the step no direction is in the tunnel; a switch takes both there
  have hout (d : Dir) : (e.dir d).state ≠ .tunnel :=
    fun hs => hidle (not_canConsume_of_tunnel (h d dir hs))
  have hall (d : Dir) : (e'.dir d).state = .tunnel ↔ ∃ kind, r = .ok (some (.switch kind)) := by
    by_cases hd : d = dir
    · subst hd
      rw [hpoll.tunnel_iff, or_iff_right (hout d)]
    · rcases hpoll.other hd with ⟨hnot, hsame⟩ | ⟨hkind, htunnel⟩
      · rw [hsame]
        exact ⟨fun hs => absurd hs (hout d), fun ⟨kind, hkind⟩ => absurd hkind (hnot kind)⟩
      · rw [htunnel]
        exact ⟨fun _ => hkind, fun _ => rfl⟩
  intro d d' hd
  exact (hall d').mpr ((hall d).mp hd)

/-- Bytes do not change where the directions are. -/
theorem Paired.push (dir : Dir) (bytes : Bytes) : (e.push dir bytes).Paired := by
  intro d d'
  rw [state_push, state_push]
  exact h d d'

/-- The end of a stream does not end a tunnel. -/
theorem Paired.fin (dir : Dir) : (e.fin dir).1.Paired := by
  rcases e.fin_cases dir with hsame | ⟨_, htunnel, m, hm, hclosed⟩
  · rwa [hsame]
  · have hout (d : Dir) : ((e.setDir dir m).dir d).state ≠ .tunnel := by
      by_cases hd : d = dir
      · subst hd
        rw [dir_setDir, hm]
        exact DirState.noConfusion
      · rw [dir_setDir_of_ne e hd]
        exact fun hs => htunnel (h d dir hs)
    rw [hclosed]
    exact fun d d' hs => absurd hs (hout d)

/-- Taking the residue does not either. -/
theorem Paired.takeResidue (dir : Dir) : (e.takeResidue dir).1.Paired := by
  intro d d'
  rw [state_takeResidue, state_takeResidue]
  exact h d d'

end Paired

variable (h : Balanced e acc rep res)
include h

/-- A step keeps the balance. A switch must not hide that a direction was given up. -/
theorem Balanced.poll {r : Except HttpPoison (Option EngineEvent)} (hpoll : Polled hp dir e e' r)
    (hother : ∀ kind, r = .ok (some (.switch kind)) → ∀ d ≠ dir, (e.dir d).state ≠ .desynced) :
    Balanced e' acc (update rep dir (rep dir ++ spent r)) res := by
  by_cases hidle : e.canConsume dir = false
  · obtain ⟨rfl, rfl⟩ := hpoll.of_not_canConsume hidle
    simpa [spent] using h
  have hdesynced : (e.dir dir).state ≠ .desynced :=
    fun hs => hidle (not_canConsume_of_desynced hs)
  have hres : res dir = [] :=
    (h.residue dir).resolve_right fun hs => hidle (not_canConsume_of_tunnel hs)
  constructor
  case balance =>
    intro dir'
    by_cases hdir : dir' = dir
    · subst hdir
      cases r with
      | error reason => exact .inr hpoll.lost_state.1
      | ok o =>
        have hacc := (h.balance dir').resolve_right hdesynced
        rw [hacc, hres, ← hpoll.spent_append (h.not_resync dir')]
        exact .inl (by simp)
    · rw [update_of_ne hdir]
      rcases hpoll.other hdir with ⟨_, hsame⟩ | ⟨⟨kind, hkind⟩, htunnel⟩
      · rw [hsame]
        exact h.balance dir'
      · rw [htunnel]
        exact .inl ((h.balance dir').resolve_right (hother kind hkind dir' hdir))
  case residue =>
    intro dir'
    by_cases hdir : dir' = dir
    · subst hdir
      exact .inl hres
    · rcases hpoll.other hdir with ⟨_, hsame⟩ | ⟨_, htunnel⟩
      · rw [hsame]
        exact h.residue dir'
      · rw [htunnel]
        exact .inr rfl
  case paired => exact h.paired.poll hpoll
  case not_resync => exact hpoll.not_resync_all h.not_resync

/-- What is pushed to a direction that still parses is buffered. -/
theorem Balanced.push (hcan : e.canConsume dir = true) (bytes : Bytes) :
    Balanced (e.push dir bytes) (update acc dir (acc dir ++ bytes)) rep res := by
  constructor
  case balance =>
    intro d
    rw [state_push]
    by_cases hd : d = dir
    · subst hd
      rw [buf_push hcan]
      refine (h.balance d).imp_left fun hacc => ?_
      rw [hacc]
      simp
    · rw [update_of_ne hd, dir_push_of_ne e hd]
      exact h.balance d
  case residue => exact fun d => by rw [state_push]; exact h.residue d
  case paired => exact h.paired.push dir bytes
  case not_resync => exact fun d => by rw [state_push]; exact h.not_resync d

/-- The end of a stream keeps the balance, unless the rest of a body was still buffered. -/
theorem Balanced.fin (hrest : (e.dir dir).state = .body .untilClose → (e.dir dir).buf = []) :
    Balanced (e.fin dir).1 acc rep res := by
  unfold Engine.fin
  dsimp only
  have hset (m : DirMachine) (hbuf : m.buf = (e.dir dir).buf) (hstate : m.state = .closed)
      (hdesynced : (e.dir dir).state ≠ .desynced) (htunnel : (e.dir dir).state ≠ .tunnel) :
      Balanced (e.setDir dir m) acc rep res := by
    have hout (d : Dir) : (e.dir d).state ≠ .tunnel := fun hs => htunnel (h.paired d dir hs)
    have hout' (d : Dir) : ((e.setDir dir m).dir d).state ≠ .tunnel := by
      by_cases hd : d = dir
      · subst hd
        rw [dir_setDir, hstate]
        nofun
      · rw [dir_setDir_of_ne e hd]
        exact hout d
    constructor
    case balance =>
      intro d
      by_cases hd : d = dir
      · subst hd
        rw [dir_setDir, hbuf]
        exact .inl ((h.balance d).resolve_right hdesynced)
      · rw [dir_setDir_of_ne e hd]
        exact h.balance d
    case residue => exact fun d => .inl ((h.residue d).resolve_right (hout d))
    case paired => exact fun d d' hs => absurd hs (hout' d)
    case not_resync =>
      intro d
      by_cases hd : d = dir
      · subst hd
        rw [dir_setDir, hstate]
        nofun
      · rw [dir_setDir_of_ne e hd]
        exact h.not_resync d
  split
  · next hs =>
    exact hset _ (by simp [DirMachine.take, hrest hs]) rfl (by simp [hs]) (by simp [hs])
  · exact h
  · exact h
  · next hdesynced htunnel => exact hset _ rfl rfl hdesynced htunnel

/-- What is taken from the tunnel is taken from a buffer. -/
theorem Balanced.takeResidue (dir : Dir) :
    Balanced (e.takeResidue dir).1 acc rep
      (update res dir (res dir ++ (e.takeResidue dir).2)) := by
  unfold Engine.takeResidue
  by_cases htunnel : e.isTunnelled
  · rw [if_neg (not_not.mpr htunnel)]
    have hall (d : Dir) : (e.dir d).state = .tunnel :=
      h.paired .request d (of_decide_eq_true htunnel)
    have hstate (d : Dir) :
        ((e.setDir dir ((e.dir dir).take (e.dir dir).buf.length)).dir d).state = .tunnel := by
      by_cases hd : d = dir
      · subst hd
        rw [dir_setDir]
        exact hall d
      · rw [dir_setDir_of_ne e hd]
        exact hall d
    constructor
    case balance =>
      intro d
      by_cases hd : d = dir
      · subst hd
        have hacc := (h.balance d).resolve_right (by simp [hall d])
        rw [hacc]
        simp [DirMachine.take]
      · rw [update_of_ne hd, dir_setDir_of_ne e hd]
        exact h.balance d
    case residue => exact fun d => .inr (hstate d)
    case paired => exact fun _ d' _ => hstate d'
    case not_resync => exact fun d => by simp [hstate d]
  · rw [if_pos htunnel]
    simpa using h

end Engine

/-! ## What is at the front of the requests -/

namespace Engine

/-- What is at the front of the requests can be framed. A head can if it has at most one `Host`, if it
says how its body is delimited, and if there is room in the queue. -/
def framable (hp : Httparse) (e : Engine) : Bool :=
  match e.ahead hp .request with
  | .lost _ => false
  | .head head =>
    (e.limits.policy = .observe || (checkSingleHost head.headers).isOk) &&
      (requestFraming head.headers e.limits.policy).isOk &&
      e.pending.length < e.limits.max_pipelined
  | _ => true

variable {hp : Httparse} {e : Engine}

/-- A head that can be framed is. -/
theorem finishRequestHead_of_framable {head : Head} (wants_close : Bool)
    (hhost : e.limits.policy = .observe ∨ (checkSingleHost head.headers).isOk = true)
    (hframing : (requestFraming head.headers e.limits.policy).isOk = true)
    (hroom : e.pending.length < e.limits.max_pipelined) :
    ∃ ev, (e.finishRequestHead head wants_close).2 = .ok (some ev) := by
  unfold finishRequestHead
  have hhosts : (if e.limits.policy ≠ .observe then checkSingleHost head.headers else .ok ()) =
      .ok () := by
    split
    · next hpolicy =>
      cases hcheck : checkSingleHost head.headers with
      | error reason =>
        rw [hcheck] at hhost
        cases hhost.resolve_left hpolicy
      | ok u => rfl
    · rfl
  rw [hhosts]
  cases hreq : requestFraming head.headers e.limits.policy with
  | error reason =>
    rw [hreq] at hframing
    cases hframing
  | ok framed =>
    dsimp only
    rw [if_neg (Nat.not_le.mpr hroom)]
    exact ⟨_, rfl⟩

/-- The framing of the requests is not lost at something that can be framed. -/
theorem poll_of_framable (hv : e.Valid) (hresync : (e.dir .request).state ≠ .resync)
    (h : e.framable hp = true) (reason : HttpPoison) :
    (e.poll hp .request).2 ≠ .error reason := by
  intro herror
  have hpoll : e.poll hp .request = ((e.poll hp .request).1, .error reason) := Prod.ext rfl herror
  unfold framable at h
  rcases ahead_of_poll_error (hv .request) hresync hpoll with hahead | ⟨head, hahead, hfinish⟩
  · rw [hahead] at h
    cases h
  · rw [hahead] at h
    simp only [Bool.and_eq_true, Bool.or_eq_true, decide_eq_true_eq] at h
    obtain ⟨⟨hhost, hframing⟩, hroom⟩ := h
    rw [hfinish] at herror
    obtain ⟨ev, hevent⟩ := finishRequestHead_of_framable
      (e := e.setDir .request { e.dir .request with
        buf := (e.dir .request).buf.drop head.raw.length, scanned := 0 })
      (signalsClose head) hhost hframing hroom
    cases hevent.symm.trans herror

end Engine

/-! ## Exchanges -/

/-- The bytes of one side that an event reports as consumed. -/
def HttpEvent.rawOf (side : FlowSide) : HttpEvent → Bytes
  | .requestHead h => if side = .initiator then h.raw else []
  | .responseHead h => if side = .responder then h.raw else []
  | .body dir _ raw => if side = dir then raw else []
  | .trailers dir _ raw => if side = dir then raw else []
  | .end_ _ => []
  | .switchProtocols _ => []

/-- A call of the parser. -/
inductive ProxyOp where
  | push (side : FlowSide) (data : Bytes)
  | nextEvent
  | fin (side : FlowSide)
  | takeTunnelResidue (side : FlowSide)
deriving DecidableEq, Repr

/-- A parser with what was exchanged with it. -/
structure Exchange where
  parser : HttpProxyParser
  /-- What `push` accepted. -/
  accepted : Sides Bytes
  /-- What `next_event` returned. -/
  events : List HttpEvent
  /-- What `take_tunnel_residue` returned. -/
  residue : Sides Bytes
deriving DecidableEq, Repr

namespace Exchange

/-- Nothing was exchanged. -/
def new (config : HttpProxyConfig) : Exchange := ⟨.withConfig config, .both [], [], .both []⟩

/-- The bytes of one side that were reported as consumed. -/
def reported (x : Exchange) (side : FlowSide) : Bytes := x.events.flatMap (·.rawOf side)

/-- The bytes of one side that are buffered. -/
def held (x : Exchange) (side : FlowSide) : Bytes := (x.parser.engine.dir (toDir side)).buf

variable (hp : Httparse)

/-- Make a call and record it. -/
def call (x : Exchange) : ProxyOp → Exchange
  | .push side data =>
    let (p, n) := x.parser.push side data
    { x with parser := p, accepted := x.accepted.set side (x.accepted.get side ++ data.take n) }
  | .nextEvent =>
    let (p, ev) := x.parser.nextEvent hp
    { x with parser := p, events := x.events ++ ev.toList }
  | .fin side => { x with parser := x.parser.fin side }
  | .takeTunnelResidue side =>
    let (p, bytes) := x.parser.takeTunnelResidue side
    { x with parser := p, residue := x.residue.set side (x.residue.get side ++ bytes) }

/-- The exchanges that calls lead to, each of which meets a condition. -/
inductive Reach (config : HttpProxyConfig) (P : Exchange → ProxyOp → Prop) : Exchange → Prop
  | new : Reach config P (new config)
  | call {x : Exchange} (op : ProxyOp) (h : Reach config P x) (hop : P x op) :
      Reach config P (x.call hp op)

/-- A switch of protocols was announced, or the client begins with the HTTP/2 preface. -/
def SwitchDue (x : Exchange) : Prop :=
  x.parser.engine.pending_switch ≠ none ∨ x.parser.engine.ahead hp .request = .preface

/-- The calls that lose no byte. A direction that is closed is given no bytes, as long as the parser
takes any; a switch of protocols that is due finds no direction given up, and the requests at something
that can be framed; and what is left of a body that runs to the close was reported before `fin`. -/
def Careful (x : Exchange) : ProxyOp → Prop
  | .push side data =>
    x.parser.engine.isClosed (toDir side) = false ∨ data = [] ∨ x.parser.isPoisoned = true ∨
      x.parser.isTunnelled = true ∨ x.parser.config.max_buffered_bytes ≤ x.parser.buffered side
  | .nextEvent =>
    x.SwitchDue hp → x.parser.isPoisoned = false ∧ x.parser.engine.framable hp = true
  | .fin side => (x.parser.engine.dir (toDir side)).state = .body .untilClose → x.held side = []
  | .takeTunnelResidue _ => True

instance (x : Exchange) : Decidable (x.SwitchDue hp) := inferInstanceAs (Decidable (_ ∨ _))

instance (x : Exchange) : (op : ProxyOp) → Decidable (x.Careful hp op)
  | .push _ _ => inferInstanceAs (Decidable (_ ∨ _))
  | .nextEvent => inferInstanceAs (Decidable (_ → _))
  | .fin _ => inferInstanceAs (Decidable (_ → _))
  | .takeTunnelResidue _ => inferInstanceAs (Decidable True)

end Exchange

/-- The bytes that an event of the engine reports are of its direction. -/
theorem rawOf_convert (side : FlowSide) (dir : Dir) (ev : EngineEvent) :
    (convert dir ev).rawOf side = if toDir side = dir then ev.raw else [] := by
  cases ev with
  | head h => cases dir <;> cases side <;> rfl
  | _ => cases dir <;> cases side <;> rfl

namespace Exchange

variable {hp : Httparse} {x : Exchange} {op : ProxyOp}
variable {config : HttpProxyConfig}

/-- Each of some calls meets a condition, in the state that the calls before it lead to. -/
def Meets (hp : Httparse) (P : Exchange → ProxyOp → Prop) (x : Exchange) : List ProxyOp → Prop
  | [] => True
  | op :: ops => P x op ∧ Meets hp P (x.call hp op) ops

instance decidableMeets {P : Exchange → ProxyOp → Prop} [∀ x op, Decidable (P x op)] :
    (x : Exchange) → (ops : List ProxyOp) → Decidable (Meets hp P x ops)
  | _, [] => inferInstanceAs (Decidable True)
  | x, op :: ops => @instDecidableAnd _ _ _ (decidableMeets (x.call hp op) ops)

/-- Calls that meet the condition lead on. -/
theorem Reach.calls {P : Exchange → ProxyOp → Prop} (h : Reach hp config P x) {ops : List ProxyOp}
    (hops : Meets hp P x ops) : Reach hp config P (ops.foldl (Exchange.call hp) x) := by
  induction ops generalizing x with
  | nil => exact h
  | cons op ops ih => exact ih (h.call op hops.1) hops.2

/-- Every call meets no condition. -/
theorem meets_true (ops : List ProxyOp) : Meets hp (fun _ _ => True) x ops := by
  induction ops generalizing x with
  | nil => trivial
  | cons op ops ih => exact ⟨trivial, ih⟩

/-- What every operation of the engine keeps holds along every run. -/
theorem Reach.engine_rule {P : Exchange → ProxyOp → Prop}
    {I : Engine → Prop} (h : Reach hp config P x)
    (hnew : I (HttpProxyParser.withConfig config).engine)
    (hpush : ∀ e dir bytes, I e → I (e.push dir bytes))
    (hpoll : ∀ dir e e' r, Polled hp dir e e' r → I e → I e')
    (hfin : ∀ e dir, I e → I (e.fin dir).1)
    (hresidue : ∀ e dir, I e → I (e.takeResidue dir).1) : I x.parser.engine := by
  induction h with
  | new => exact hnew
  | @call x op _ _ ih =>
    cases op with
    | push side data =>
      change I (x.parser.push side data).1.engine
      rcases x.parser.push_cases side data with heq | ⟨n, -, -, -, -, -, heq⟩
      · rw [heq]
        exact ih
      · rw [heq]
        exact hpush _ _ _ ih
    | nextEvent => exact (x.parser.nextEvent_next hp).engine_rule hpoll ih
    | fin side => exact hfin _ _ ih
    | takeTunnelResidue side => exact hresidue _ _ ih

/-- Scans resume where nothing was overlooked, and the directions are in the tunnel together, along
every run. -/
theorem Reach.valid {P : Exchange → ProxyOp → Prop} (h : Reach hp config P x) :
    x.parser.engine.Valid := by
  refine (h.engine_rule (I := fun e => e.Valid ∧ e.Paired) ⟨valid_new _, paired_new _⟩
    ?_ ?_ ?_ ?_).1
  · exact fun e dir bytes hI => ⟨hI.1.push dir bytes, hI.2.push dir bytes⟩
  · exact fun dir e e' r hpoll hI => ⟨hpoll.valid hI.1, hI.2.poll hpoll⟩
  · exact fun e dir hI => ⟨hI.1.fin dir, hI.2.fin dir⟩
  · refine fun e dir hI => ⟨?_, hI.2.takeResidue dir⟩
    unfold takeResidue
    by_cases htunnel : e.isTunnelled
    · rw [if_neg (not_not.mpr htunnel)]
      refine hI.1.setDir ?_
      have hstate : ((e.dir dir).take (e.dir dir).buf.length).state = .tunnel :=
        hI.2 .request dir (of_decide_eq_true htunnel)
      rw [DirMachine.Valid, hstate]
      trivial
    · rw [if_pos htunnel]
      exact hI.1

/-- Every accepted byte is accounted for, unless the direction was given up. -/
def Accounted (x : Exchange) : Prop :=
  x.parser.engine.Balanced (fun d => x.accepted.get (toSide d)) (fun d => x.reported (toSide d))
    fun d => x.residue.get (toSide d)

/-- Setting a side is setting its direction. -/
theorem get_set_toSide (s : Sides Bytes) (side : FlowSide) (bytes : Bytes) :
    (fun d => (s.set side bytes).get (toSide d)) =
      update (fun d => s.get (toSide d)) (toDir side) bytes := by
  funext d
  cases side <;> cases d <;> rfl

/-- The side of the direction of a side. -/
theorem toSide_toDir (side : FlowSide) : toSide (toDir side) = side := by cases side <;> rfl

/-- A step reports bytes of its own direction. -/
theorem reported_append (x : Exchange) (dir : Dir) (ev : EngineEvent) :
    (fun d => (x.events ++ [convert dir ev]).flatMap (·.rawOf (toSide d))) =
      update (fun d => x.reported (toSide d)) dir
        (x.reported (toSide dir) ++ ev.raw) := by
  funext d
  rw [List.flatMap_append, List.flatMap_singleton, rawOf_convert]
  cases d <;> cases dir <;> simp [toDir, toSide, reported]

/-- A step that reports nothing. -/
theorem reported_quiet (x : Exchange) (dir : Dir) {r : Except HttpPoison (Option EngineEvent)}
    (hr : ∀ ev, r ≠ .ok (some ev)) :
    update (fun d => x.reported (toSide d)) dir (x.reported (toSide dir) ++ spent r) =
      fun d => x.reported (toSide d) := by
  have hspent : spent r = [] := by
    match r with
    | .ok (some ev) => exact absurd rfl (hr ev)
    | .ok none => rfl
    | .error _ => rfl
  rw [hspent, List.append_nil]
  exact update_eq_self dir _

/-- Nothing was accepted yet. -/
theorem accounted_new (config : HttpProxyConfig) : (new config).Accounted := by
  have hnil : (fun d => (Sides.both ([] : Bytes)).get (toSide d)) = fun _ => [] := by
    funext d
    exact Sides.get_both _ _
  unfold Accounted new
  rw [hnil]
  exact balanced_new _

/-- An event, or none, leaves every byte accounted for. -/
theorem Accounted.nextEvent (h : x.Accounted) (hvalid : x.parser.engine.Valid)
    (hcareful : x.Careful hp .nextEvent) : (x.call hp .nextEvent).Accounted := by
  unfold Accounted call
  have hresync := h.not_resync .request
  have hnext := x.parser.nextEvent_next hp
  revert hnext
  generalize x.parser.nextEvent hp = q
  obtain ⟨p, ev⟩ := q
  intro hnext
  dsimp only [reported] at hnext ⊢
  cases hnext with
  | request hpoll =>
    -- the switch was due, so the responses were not given up
    have hbal := h.poll (polled_of_poll hpoll) fun kind hkind d hd => by
      cases hkind
      have hdue : x.SwitchDue hp := by
        rcases ahead_of_poll_switch (hvalid .request) hresync hpoll with hpreface | hswitch
        · exact .inr hpreface
        · exact .inl (by rw [hswitch]; exact Option.some_ne_none kind)
      exact of_decide_eq_false
        (HttpProxyParser.isDesynced_of_not_poisoned (hcareful hdue).1 d)
    rw [Option.toList_some, reported_append]
    exact hbal
  | response h₁ hr hpoll =>
    have hpd₁ := polled_of_poll h₁
    have hbal₁ := h.poll hpd₁ fun kind hkind => absurd hkind (hr _)
    rw [reported_quiet x .request hr] at hbal₁
    -- the switch was due, so the requests were not given up, before the call or in it
    have hbal := hbal₁.poll (polled_of_poll hpoll) fun kind hkind d hd => by
      cases hkind
      have hswitch : x.parser.engine.pending_switch = some kind := by
        rw [← (hpd₁.shared_of_request hr).2]
        exact (polled_of_poll hpoll).announced
      obtain ⟨hpoisoned, hframable⟩ :=
        hcareful (.inl (by rw [hswitch]; exact Option.some_ne_none kind))
      have hdesynced := of_decide_eq_false
        (HttpProxyParser.isDesynced_of_not_poisoned hpoisoned .request)
      cases d with
      | response => exact absurd rfl hd
      | request =>
        rcases hres : (x.parser.engine.poll hp .request).2 with reason | _ | ev₁
        · exact absurd hres (poll_of_framable hvalid hresync hframable reason)
        · rw [h₁] at hres
          cases hres
          exact hpd₁.not_desynced hdesynced
        · rw [h₁] at hres
          exact absurd hres (hr ev₁)
    rw [Option.toList_some, reported_append]
    exact hbal
  | none h₁ hr hpoll hr' =>
    have hbal₁ := h.poll (polled_of_poll h₁) fun kind hkind => absurd hkind (hr _)
    rw [reported_quiet x .request hr] at hbal₁
    have hbal := hbal₁.poll (polled_of_poll hpoll) fun kind hkind => absurd hkind (hr' _)
    rw [reported_quiet x .response hr'] at hbal
    simpa [reported] using hbal

/-- A push that accepts bytes finds the direction parsing, unless it is closed. -/
theorem Accounted.push (h : x.Accounted) {side : FlowSide} {data : Bytes}
    (hcareful : x.Careful hp (.push side data)) : (x.call hp (.push side data)).Accounted := by
  unfold Accounted call
  dsimp only
  rw [get_set_toSide]
  rcases x.parser.push_cases side data with heq | ⟨n, hpos, hle, hclean, htunnel, hroom, heq⟩
  · have hself : update (fun d => x.accepted.get (toSide d)) (toDir side)
        (x.accepted.get side) = fun d => x.accepted.get (toSide d) := by
      funext d
      cases side <;> cases d <;> rfl
    rw [heq, List.take_zero, List.append_nil, hself]
    exact h
  · rw [heq]
    have hopen : (x.parser.engine.dir (toDir side)).state ≠ .closed := by
      rcases hcareful with hopen | rfl | hpoisoned | htunnelled | hfull
      · exact of_decide_eq_false hopen
      · exact absurd hle (Nat.not_le.mpr hpos)
      · exact absurd (hclean.symm.trans hpoisoned) Bool.false_ne_true
      · exact absurd (htunnel.symm.trans htunnelled) Bool.false_ne_true
      · exact absurd hroom (Nat.not_lt.mpr hfull)
    have hdesynced := of_decide_eq_false
      (HttpProxyParser.isDesynced_of_not_poisoned hclean (toDir side))
    have htunnel : (x.parser.engine.dir (toDir side)).state ≠ .tunnel :=
      fun hs => of_decide_eq_false htunnel (h.paired (toDir side) .request hs)
    have hcan := canConsume_of_ne hopen hdesynced htunnel
    have hbal := Balanced.push h hcan (data.take n)
    rw [toSide_toDir] at hbal
    exact hbal

/-- One call leaves every byte accounted for. -/
theorem Accounted.call (h : x.Accounted) (hvalid : x.parser.engine.Valid)
    (hcareful : x.Careful hp op) : (x.call hp op).Accounted := by
  cases op with
  | push side data => exact h.push hcareful
  | nextEvent => exact h.nextEvent hvalid hcareful
  | fin side => exact Balanced.fin h hcareful
  | takeTunnelResidue side =>
    have hbal := Balanced.takeResidue h (toDir side)
    unfold Accounted Exchange.call
    rw [get_set_toSide]
    rw [toSide_toDir] at hbal
    exact hbal

/-- So do all calls. -/
theorem Reach.accounted (h : Reach hp config (Careful hp) x) : x.Accounted := by
  induction h with
  | new => exact accounted_new config
  | call op h hop ih => exact ih.call h.valid hop

/-- Accepted bytes do not vanish. On a connection that is not poisoned, what `push` accepted for a
side is what the events report, what was taken as residue and what is buffered, in this order. -/
theorem accepted_accounted {config : HttpProxyConfig} (h : Reach hp config (Careful hp) x)
    (hpoisoned : x.parser.isPoisoned = false) (side : FlowSide) :
    x.accepted.get side = x.reported side ++ x.residue.get side ++ x.held side := by
  have hdesynced := of_decide_eq_false
    (HttpProxyParser.isDesynced_of_not_poisoned hpoisoned (toDir side))
  have hbal := (h.accounted.balance (toDir side)).resolve_right hdesynced
  rwa [toSide_toDir] at hbal

/-! Some heads, for runs of the parser. -/

/-- A request without a body. -/
def getHead : Bytes := ascii "GET / HTTP/1.1\r\n\r\n"

/-- A request after which the client closes. -/
def closeHead : Bytes := ascii "GET / HTTP/1.1\r\nConnection: close\r\n\r\n"

/-- A switch of protocols. -/
def upgradeHead : Bytes := ascii "HTTP/1.1 101 Go\r\n\r\n"

/-- A response whose body runs to the close. -/
def okHead : Bytes := ascii "HTTP/1.1 200 OK\r\n\r\n"

/-- A request whose response has no body. -/
def headRequest : Bytes := ascii "HEAD / HTTP/1.1\r\n\r\n"

/-- An interim response. -/
def continueHead : Bytes := ascii "HTTP/1.1 100 Go\r\n\r\n"

/-- A response with a body of one byte. -/
def lengthHead : Bytes := ascii "HTTP/1.1 200 OK\r\nContent-Length: 1\r\n\r\n"

/-- What `httparse` reports of the head of a request. -/
def requestParts (raw : Bytes) (method : String) (headers : List Field) : Bytes × HeadParts :=
  (raw, ⟨raw.length, some (ascii method), some (ascii "/"), none, none, some 1, headers⟩)

/-- What `httparse` reports of the head of a response. -/
def responseParts (raw : Bytes) (code : ℕ) (reason : String) (headers : List Field) :
    Bytes × HeadParts :=
  (raw, ⟨raw.length, none, none, some code, some (ascii reason), some 1, headers⟩)

/-- An `httparse` for these heads. -/
def sampleHttparse : Httparse := .ofTable
  [requestParts getHead "GET" [],
    requestParts closeHead "GET" [(ascii "Connection", ascii "close")],
    requestParts headRequest "HEAD" [],
    responseParts upgradeHead 101 "Go" [],
    responseParts continueHead 100 "Go" [],
    responseParts okHead 200 "OK" [],
    responseParts lengthHead 200 "OK" [(ascii "Content-Length", ascii "1")]]

/-- Make calls one after another. -/
def sampleRun (ops : List ProxyOp) : Exchange := ops.foldl (call sampleHttparse) (new {})

/-- A request, a switch of protocols, and bytes in the tunnel. -/
def upgradeOps : List ProxyOp :=
  [.push .initiator getHead, .nextEvent, .push .responder (upgradeHead ++ ascii "ws"), .nextEvent,
    .nextEvent, .nextEvent, .takeTunnelResidue .responder]

/-- The bytes behind the switch are the residue. -/
theorem accepted_accounted_upgrade :
    (sampleRun upgradeOps).residue.get .responder = ascii "ws" ∧
      (sampleRun upgradeOps).accepted.get .responder =
        (sampleRun upgradeOps).reported .responder ++ (sampleRun upgradeOps).residue.get .responder ++
          (sampleRun upgradeOps).held .responder := by
  have hcareful : Meets sampleHttparse (Careful sampleHttparse) (new {}) upgradeOps := by
    decide +kernel
  exact ⟨by decide +kernel,
    accepted_accounted (Reach.new.calls hcareful) (by decide +kernel) .responder⟩

/-- On a connection that is not poisoned, accepted bytes are not accounted for. -/
def Vanished (x : Exchange) (side : FlowSide) : Prop :=
  x.parser.isPoisoned = false ∧
    x.accepted.get side ≠ x.reported side ++ x.residue.get side ++ x.held side

instance (x : Exchange) (side : FlowSide) : Decidable (x.Vanished side) := by
  unfold Vanished
  infer_instance

/-- Bytes that were accepted vanish: after the last message of a closing direction, when the stream
ends within a body that runs to the close, and when a switch hides that the framing was lost. -/
theorem accepted_bytes_vanish :
    (sampleRun [.push .initiator closeHead, .nextEvent, .nextEvent,
        .push .initiator (ascii "x")]).Vanished .initiator ∧
      (sampleRun [.push .initiator getHead, .nextEvent, .nextEvent, .push .responder okHead,
        .nextEvent, .push .responder (ascii "x"), .fin .responder]).Vanished .responder ∧
      (sampleRun [.push .initiator getHead, .nextEvent, .nextEvent, .push .responder upgradeHead,
        .nextEvent, .push .initiator (ascii "\n\n"), .nextEvent]).Vanished .initiator := by
  decide +kernel

end Exchange

end Flowscope.Http
