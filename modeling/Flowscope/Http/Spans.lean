import Flowscope.Http.Rounds

/-!
# HTTP/1: what a step consumes

Each event carries the bytes that its step took from the front of the direction's buffer
(`EngineEvent.raw`). A step takes nothing else, unless the framing is lost or bytes were missing
before (`Polled.spent_append`), and it leaves the other direction's buffer alone (`Polled.other`).
-/

namespace Flowscope.Http

/-- The bytes that an event reports as consumed. -/
def EngineEvent.raw : EngineEvent → Bytes
  | .head h => h.raw
  | .body _ raw => raw
  | .trailers _ raw => raw
  | .end_ => []
  | .switch _ => []

/-- The bytes that the outcome of a step reports as consumed. -/
def spent : Except HttpPoison (Option EngineEvent) → Bytes
  | .ok (some ev) => ev.raw
  | _ => []

theorem raw_of_parseHead {hp : Httparse} {dir : Dir} {region : Bytes} {max_headers : ℕ} {head : Head}
    (h : parseHead hp dir region max_headers = some head) : head.raw = region := by
  unfold parseHead at h
  split at h
  · cases dir with
    | request =>
      simp only [Option.bind_eq_bind, Option.bind_eq_some_iff, Option.some.injEq] at h
      obtain ⟨method, -, path, -, version, -, rfl⟩ := h
      rfl
    | response =>
      simp only [Option.bind_eq_bind, Option.bind_eq_some_iff, Option.some.injEq] at h
      obtain ⟨status, -, version, -, rfl⟩ := h
      rfl
  · cases h
  · cases h

namespace Engine

variable {hp : Httparse} {e e' : Engine} {dir dir' : Dir}
variable {r : Except HttpPoison (Option EngineEvent)} {head : Head} {ev : EngineEvent}

/-- Framing a head takes nothing from a buffer, and reports the bytes of the head. -/
theorem Framed.buf (h : Framed e head dir e' (.ok (some ev))) :
    ev.raw = head.raw ∧ (e'.dir dir).buf = (e.dir dir).buf := by
  cases h <;> exact ⟨rfl, rfl⟩

theorem Framed.event (h : Framed e head dir e' (.ok (some ev))) : ∃ hed', ev = .head hed' := by
  cases h <;> exact ⟨_, rfl⟩

/-- Framing a head changes the state of its own direction only. -/
theorem Framed.dir_of_ne
    (h : Framed e head dir e' r) (hne : dir' ≠ dir) : e'.dir dir' = e.dir dir' := by
  cases h with
  | lost dir reason pending _ => rw [dir_setDir_of_ne _ hne]; cases dir' <;> rfl
  | _ => cases dir' <;> first | rfl | exact absurd rfl hne

theorem Framed.state (h : Framed e head dir e' (.ok (some ev))) :
    (e'.dir dir).state = .head ∨ ∃ b, (e'.dir dir).state = .body b := by
  cases h with
  | interim => exact .inl rfl
  | request framing | response _ framing => cases framing <;> exact .inr ⟨_, rfl⟩
  | upgrade | connect => exact .inr ⟨_, rfl⟩

section

variable (e : Engine)

theorem buf_switchToTunnel (dir : Dir) : (e.switchToTunnel.dir dir).buf = (e.dir dir).buf := by
  cases dir <;> rfl

theorem state_switchToTunnel (dir : Dir) : (e.switchToTunnel.dir dir).state = .tunnel := by
  cases dir <;> rfl

theorem dir_pending_switch (sw : Option SwitchKind) (dir : Dir) :
    { e with pending_switch := sw }.dir dir = e.dir dir := by
  cases dir <;> rfl

theorem state_push (dir : Dir) (bytes : Bytes) (d : Dir) :
    ((e.push dir bytes).dir d).state = (e.dir d).state := by
  unfold push
  split
  · rfl
  · by_cases hd : d = dir
    · subst hd
      rw [dir_setDir]
    · rw [dir_setDir_of_ne e hd]

theorem pending_switch_push (dir : Dir) (bytes : Bytes) :
    (e.push dir bytes).pending_switch = e.pending_switch := by
  unfold push
  split
  · rfl
  · exact pending_switch_setDir ..

end

theorem buf_push (hcn : e.canConsume dir = true) (bytes : Bytes) :
    ((e.push dir bytes).dir dir).buf = (e.dir dir).buf ++ bytes := by
  unfold push
  by_cases hnil : bytes = []
  · rw [if_pos (.inl hnil), hnil, List.append_nil]
  · rw [if_neg (by simp [hnil, hcn]), dir_setDir]

section

variable (e : Engine)

theorem dir_push_of_ne {d : Dir} (hd : d ≠ dir) (bytes : Bytes) :
    (e.push dir bytes).dir d = e.dir d := by
  unfold push
  split
  · rfl
  · exact dir_setDir_of_ne e hd _

theorem state_takeResidue (dir d : Dir) :
    ((e.takeResidue dir).1.dir d).state = (e.dir d).state := by
  unfold takeResidue
  split
  · rfl
  · by_cases hd : d = dir
    · subst hd
      rw [dir_setDir]
      rfl
    · rw [dir_setDir_of_ne e hd]

/-- The end of a stream only closes, and not a direction that was given up or is in the tunnel. -/
theorem fin_cases (dir : Dir) :
    (e.fin dir).1 = e ∨
      (e.dir dir).state ≠ .desynced ∧ (e.dir dir).state ≠ .tunnel ∧
        ∃ m : DirMachine, m.state = .closed ∧ (e.fin dir).1 = e.setDir dir m := by
  unfold fin
  dsimp only
  split
  · next hs => exact .inr ⟨by rw [hs]; nofun, by rw [hs]; nofun, _, rfl, rfl⟩
  · exact .inl rfl
  · exact .inl rfl
  · next hds htn => exact .inr ⟨hds, htn, _, rfl, rfl⟩

theorem takeResidue_cases (dir : Dir) :
    (e.takeResidue dir).1 = e ∨
      (e.takeResidue dir).1 = e.setDir dir ((e.dir dir).take (e.dir dir).buf.length) := by
  unfold takeResidue
  split
  · exact .inl rfl
  · exact .inr rfl

theorem push_cases (dir : Dir) (bytes : Bytes) :
    e.push dir bytes = e ∨
      e.push dir bytes = e.setDir dir { e.dir dir with buf := (e.dir dir).buf ++ bytes } := by
  unfold push
  split
  · exact .inl rfl
  · exact .inr rfl

end

/-- What a round leaves in the buffer, if it reports an event. -/
theorem Round.event_buf (h : Round hp e dir e' (.ok (.event ev))) :
    ev.raw ++ (e'.dir dir).buf = (e.dir dir).buf := by
  cases h with
  | preface => exact buf_switchToTunnel e dir
  | head hlen head _ _ _ _ _ hpr hfd =>
    obtain ⟨hraw, hbuf⟩ := hfd.buf
    rw [hraw, hbuf, raw_of_parseHead hpr, dir_setDir]
    exact List.take_append_drop hlen _
  | switch => exact (buf_switchToTunnel _ dir).trans (by rw [dir_pending_switch])
  | done => rw [dir_setDir]; rfl
  | span n => rw [dir_setDir]; exact List.take_append_drop n _
  | trailers n => rw [dir_setDir]; exact List.take_append_drop n _

variable {reason : HttpPoison} {p : Progress}

/-- What a round leaves in the buffer, if it reports nothing. -/
theorem Round.quiet_buf (h : Round hp e dir e' (.ok p)) (hp' : ∀ ev, p ≠ .event ev)
    (hrc : (e.dir dir).state ≠ .resync) : (e'.dir dir).buf = (e.dir dir).buf := by
  cases h with
  | idle => rfl
  | restart i hst | skip i hst => exact absurd hst hrc
  | waitHead | waitBody | lastChunk => rw [dir_setDir]
  | _ => exact absurd rfl (hp' _)

theorem Round.not_resync (h : Round hp e dir e' (.ok p))
    (hrc : (e.dir dir).state ≠ .resync) : (e'.dir dir).state ≠ .resync := by
  cases h with
  | idle => exact hrc
  | restart i hst | skip i hst => exact absurd hst hrc
  | preface | switch => rw [state_switchToTunnel]; nofun
  | head _ _ _ _ _ _ _ _ hfd =>
    rcases hfd.state with hs | ⟨b, hs⟩
    · rw [hs]; nofun
    · rw [hs]; nofun
  | waitHead _ hst | waitBody _ _ hst => rw [dir_setDir]; exact hrc
  | done => rw [dir_setDir]; dsimp only; split <;> nofun
  | span | lastChunk | trailers => rw [dir_setDir]; nofun

theorem Round.lost_state (h : Round hp e dir e' (.error reason)) :
    (e'.dir dir).state = .desynced ∧ (e'.dir dir).poison = some reason := by
  cases h with
  | lost => rw [dir_setDir]; exact ⟨rfl, rfl⟩

/-- A round leaves the other direction alone, or puts both into the tunnel. -/
theorem Round.other {r : Except HttpPoison Progress} (h : Round hp e dir e' r) (hne : dir' ≠ dir) :
    (∀ kind, r ≠ .ok (.event (.switch kind))) ∧ e'.dir dir' = e.dir dir' ∨
      (∃ kind, r = .ok (.event (.switch kind))) ∧
        e'.dir dir' = { e.dir dir' with state := .tunnel } := by
  cases h with
  | idle => exact .inl ⟨nofun, rfl⟩
  | restart | skip | waitHead | done | span | waitBody | lastChunk | trailers =>
    exact .inl ⟨nofun, dir_setDir_of_ne e hne _⟩
  | head _ _ _ _ _ _ _ _ hfd =>
    obtain ⟨hed', rfl⟩ := hfd.event
    exact .inl ⟨nofun, (hfd.dir_of_ne hne).trans (dir_setDir_of_ne e hne _)⟩
  | preface => exact .inr ⟨⟨_, rfl⟩, by cases dir' <;> rfl⟩
  | switch => exact .inr ⟨⟨_, rfl⟩, by cases dir' <;> rfl⟩
  | lost => exact .inl ⟨nofun, (dir_setDir_of_ne _ hne _).trans (by cases dir' <;> rfl)⟩

/-- A direction enters the tunnel when a switch is reported. -/
theorem Round.tunnel_iff {r : Except HttpPoison Progress} (h : Round hp e dir e' r) :
    (e'.dir dir).state = .tunnel ↔
      (e.dir dir).state = .tunnel ∨ ∃ kind, r = .ok (.event (.switch kind)) := by
  cases h with
  | idle => simp
  | preface | switch => simp [state_switchToTunnel]
  | restart _ hst | skip _ hst | waitHead _ hst | span _ _ _ _ _ hst
  | waitBody _ _ hst | lastChunk _ hst | trailers _ _ hst => simp [hst]
  | done hst => simp only [hst]; split <;> simp
  | head _ _ _ _ hst _ _ _ hfd =>
    obtain ⟨h, rfl⟩ := hfd.event
    rcases hfd.state with hs | ⟨b, hs⟩
    · simp [hs, hst]
    · simp [hs, hst]
  | lost _ _ hcn =>
    have : (e.dir dir).state ≠ .tunnel := fun hs => by rw [canConsume, hs] at hcn; cases hcn
    simp [DirMachine.desync, this]

/-- A step takes from its buffer what it reports, unless the framing is lost. -/
theorem Polled.spent_append {o : Option EngineEvent} (h : Polled hp dir e e' (.ok o))
    (hrc : (e.dir dir).state ≠ .resync) : spent (.ok o) ++ (e'.dir dir).buf = (e.dir dir).buf := by
  generalize hr : (.ok o : Except HttpPoison (Option EngineEvent)) = r at h
  induction h with
  | event hrn =>
    exact hrn.event_buf
  | wait hrn =>
    exact hrn.quiet_buf nofun hrc
  | lost => cases hr
  | again hrn _ ih =>
    exact (ih (hrn.not_resync hrc) hr).trans (hrn.quiet_buf nofun hrc)

theorem Polled.lost_state (h : Polled hp dir e e' (.error reason)) :
    (e'.dir dir).state = .desynced ∧ (e'.dir dir).poison = some reason := by
  generalize hr : (.error reason : Except HttpPoison (Option EngineEvent)) = r at h
  induction h with
  | event | wait => cases hr
  | lost hrn =>
    cases hr
    exact hrn.lost_state
  | again _ _ ih => exact ih hr

section

variable (h : Polled hp dir e e' r)
include h

theorem Polled.not_resync
    (hrc : (e.dir dir).state ≠ .resync) : (e'.dir dir).state ≠ .resync := by
  induction h with
  | event hrn | wait hrn => exact hrn.not_resync hrc
  | lost hrn => rw [hrn.lost_state.1]; nofun
  | again hrn _ ih => exact ih (hrn.not_resync hrc)

/-- A direction that parses nothing more is left as it is. -/
theorem Polled.of_not_canConsume (hid : e.canConsume dir = false) : e' = e ∧ r = .ok none := by
  have hrn {p : Except HttpPoison Progress} {e1 : Engine} (h : Round hp e dir e1 p) :
      e1 = e ∧ p = .ok .needMore := by
    cases h with
    | idle => exact ⟨rfl, rfl⟩
    | lost _ _ hcn => rw [hid] at hcn; cases hcn
    | restart _ hst | skip _ hst | preface _ hst | waitHead _ hst
    | head _ _ _ _ hst | switch _ hst | done hst | span _ _ _ _ _ hst
    | waitBody _ _ hst | lastChunk _ hst | trailers _ _ hst =>
      rw [canConsume, hst] at hid
      cases hid
  cases h with
  | event h => cases (hrn h).2
  | wait h => exact ⟨(hrn h).1, rfl⟩
  | lost h => cases (hrn h).2
  | again h => cases (hrn h).2

/-- A step leaves the other direction alone, or puts both into the tunnel. -/
theorem Polled.other (hne : dir' ≠ dir) :
    (∀ kind, r ≠ .ok (some (.switch kind))) ∧ e'.dir dir' = e.dir dir' ∨
      (∃ kind, r = .ok (some (.switch kind))) ∧
        e'.dir dir' = { e.dir dir' with state := .tunnel } := by
  induction h with
  | event hrn =>
    rcases hrn.other hne with ⟨hnot, hsm⟩ | ⟨⟨kind, hkn⟩, htn⟩
    · exact .inl ⟨fun kind hkn => hnot kind (by cases hkn; rfl), hsm⟩
    · cases hkn
      exact .inr ⟨⟨kind, rfl⟩, htn⟩
  | wait hrn | lost hrn =>
    rcases hrn.other hne with ⟨_, hsm⟩ | ⟨⟨kind, hkn⟩, _⟩
    · exact .inl ⟨nofun, hsm⟩
    · cases hkn
  | again hrn _ ih =>
    rcases hrn.other hne with ⟨_, hsm⟩ | ⟨⟨kind, hkn⟩, _⟩
    · rwa [hsm] at ih
    · cases hkn

/-- A step does not begin to look for a head. -/
theorem Polled.not_resync_all
    (hrc : ∀ d, (e.dir d).state ≠ .resync) (d : Dir) : (e'.dir d).state ≠ .resync := by
  by_cases hd : d = dir
  · subst hd
    exact h.not_resync (hrc d)
  · rcases h.other hd with ⟨_, hsm⟩ | ⟨_, htn⟩
    · rw [hsm]
      exact hrc d
    · rw [htn]
      nofun

/-- A direction enters the tunnel when a switch is reported. -/
theorem Polled.tunnel_iff :
    (e'.dir dir).state = .tunnel ↔
      (e.dir dir).state = .tunnel ∨ ∃ kind, r = .ok (some (.switch kind)) := by
  induction h with
  | event hrn => rw [hrn.tunnel_iff]; simp
  | wait hrn | lost hrn => rw [hrn.tunnel_iff]; simp
  | again hrn _ ih =>
    have := hrn.tunnel_iff
    simp only [Except.ok.injEq, reduceCtorEq, exists_false, or_false] at this
    rw [ih, this]

/-- A switch takes both directions into the tunnel. -/
theorem Polled.tunnel_of_switch {kind : SwitchKind} (hr : r = .ok (some (.switch kind))) (d : Dir) :
    (e'.dir d).state = .tunnel := by
  by_cases hd : d = dir
  · subst hd
    exact h.tunnel_iff.mpr (.inr ⟨kind, hr⟩)
  · rcases h.other hd with ⟨hnot, _⟩ | ⟨_, htn⟩
    · exact absurd hr (hnot kind)
    · rw [htn]

end

/-- A response direction reports a switch that was announced. -/
theorem Polled.announced {kind : SwitchKind}
    (h : Polled hp .response e e' (.ok (some (.switch kind)))) : e.pending_switch = some kind := by
  generalize hr : (.ok (some (.switch kind)) : Except HttpPoison (Option EngineEvent)) = r at h
  induction h with
  | event hrn =>
    cases hr
    cases hrn with
    | preface hdir => cases hdir
    | head _ _ _ _ _ _ _ _ hfd =>
      obtain ⟨_, hev⟩ := hfd.event
      cases hev
    | switch _ _ hsw => exact hsw
  | wait | lost => cases hr
  | again hrn _ ih =>
    have := ih hr
    cases hrn with
    | restart | lastChunk => rwa [pending_switch_setDir] at this

/-- A step that waits does not give its direction up. -/
theorem Polled.not_desynced (h : Polled hp dir e e' (.ok none))
    (hds : (e.dir dir).state ≠ .desynced) : (e'.dir dir).state ≠ .desynced := by
  generalize hr : (.ok none : Except HttpPoison (Option EngineEvent)) = r at h
  induction h with
  | event | lost => cases hr
  | wait hrn =>
    cases hrn with
    | idle => exact hds
    | skip | waitHead | waitBody =>
      rw [dir_setDir]
      exact hds
  | again hrn _ ih =>
    refine ih ?_ hr
    cases hrn with
    | restart | lastChunk =>
      rw [dir_setDir]
      exact DirState.noConfusion

/-- What a step that reports a head does: the head is framed, and nothing else is changed but the
direction itself. -/
theorem Polled.framed {hd : Head} (h : Polled hp dir e e' (.ok (some (.head hd)))) :
    ∃ (m : DirMachine) (head : Head),
      Framed (e.setDir dir m) head dir e' (.ok (some (.head hd))) := by
  generalize hr : (.ok (some (.head hd)) : Except HttpPoison (Option EngineEvent)) = r at h
  induction h with
  | event hrn =>
    cases hr
    cases hrn with
    | head hlen head _ _ _ _ _ _ hfd => exact ⟨_, head, hfd⟩
  | wait | lost => cases hr
  | again hrn _ ih =>
    obtain ⟨m, head, hfd⟩ := ih hr
    refine ⟨m, head, ?_⟩
    cases hrn with
    | restart | lastChunk => rwa [setDir_setDir] at hfd

/-- A step reports a head where one is expected. -/
theorem Polled.state_of_head {hd : Head} (h : Polled hp dir e e' (.ok (some (.head hd))))
    (hrc : (e.dir dir).state ≠ .resync) : (e.dir dir).state = .head := by
  generalize hr : (.ok (some (.head hd)) : Except HttpPoison (Option EngineEvent)) = r at h
  induction h with
  | event hrn =>
    cases hr
    cases hrn with
    | head _ _ _ _ hst => exact hst
  | wait | lost => cases hr
  | again hrn _ ih =>
    have hst := ih (hrn.not_resync hrc) hr
    cases hrn with
    | restart _ hst' => exact absurd hst' hrc
    | lastChunk =>
      rw [dir_setDir] at hst
      cases hst

/-- A step that waits changes nothing but the direction itself. -/
theorem Polled.eq_setDir (h : Polled hp dir e e' (.ok none)) : ∃ m, e' = e.setDir dir m := by
  generalize hr : (.ok none : Except HttpPoison (Option EngineEvent)) = r at h
  induction h with
  | event | lost => cases hr
  | wait hrn =>
    cases hrn with
    | idle => exact ⟨_, (setDir_dir _ dir).symm⟩
    | skip | waitHead | waitBody => exact ⟨_, rfl⟩
  | again hrn _ ih =>
    obtain ⟨m, rfl⟩ := ih hr
    cases hrn with
    | restart | lastChunk => exact ⟨m, setDir_setDir _ dir _ m⟩

/-- Nothing changes the limits. -/
theorem Framed.limits (h : Framed e head dir e' r) : e'.limits = e.limits := by
  cases h with
  | lost => exact limits_setDir ..
  | _ => rfl

theorem Round.limits {r : Except HttpPoison Progress} (h : Round hp e dir e' r) :
    e'.limits = e.limits := by
  cases h with
  | idle | preface | switch => rfl
  | head _ _ _ _ _ _ _ _ hfd => exact hfd.limits.trans (limits_setDir ..)
  | restart | skip | waitHead | done | span | waitBody | lastChunk | trailers | lost =>
    exact limits_setDir ..

theorem Polled.limits (h : Polled hp dir e e' r) : e'.limits = e.limits := by
  induction h with
  | event hrn | wait hrn | lost hrn => exact hrn.limits
  | again hrn _ ih => exact ih.trans hrn.limits

/-- The queue changes when a head is framed, when the connection switches and when the framing of a
response is lost. -/
theorem Polled.pending_cases (h : Polled hp dir e e' r) :
    (∃ hd, r = .ok (some (.head hd))) ∨ (∃ kind, r = .ok (some (.switch kind))) ∨
      (dir = .response ∧ ∃ reason, r = .error reason) ∨ e'.pending = e.pending := by
  induction h with
  | event hrn =>
    cases hrn with
    | head _ _ _ _ _ _ _ _ hfd =>
      obtain ⟨hd, rfl⟩ := hfd.event
      exact .inl ⟨hd, rfl⟩
    | preface => exact .inr (.inl ⟨_, rfl⟩)
    | switch => exact .inr (.inl ⟨_, rfl⟩)
    | done | span | trailers => exact .inr (.inr (.inr (pending_setDir ..)))
  | wait hrn =>
    obtain ⟨m, rfl⟩ := (Polled.wait hrn).eq_setDir
    exact .inr (.inr (.inr (pending_setDir ..)))
  | lost hrn =>
    cases hrn with
    | lost reason pending _ hpn =>
      rcases hpn with rfl | ⟨hdir, _⟩
      · exact .inr (.inr (.inr (pending_setDir ..)))
      · exact .inr (.inr (.inl ⟨hdir, _, rfl⟩))
  | again hrn _ ih =>
    cases hrn with
    | restart | lastChunk =>
      rw [pending_setDir] at ih
      exact ih

/-- A request direction that reports nothing leaves the queue and the switch as they are. -/
theorem Polled.shared_of_request (h : Polled hp .request e e' r) (hr : ∀ ev, r ≠ .ok (some ev)) :
    e'.pending = e.pending ∧ e'.pending_switch = e.pending_switch := by
  induction h with
  | event => exact absurd rfl (hr _)
  | wait hrn =>
    obtain ⟨m, rfl⟩ := (Polled.wait hrn).eq_setDir
    exact ⟨pending_setDir .., pending_switch_setDir ..⟩
  | lost hrn =>
    cases hrn with
    | lost reason pending _ hpn =>
      rcases hpn with rfl | ⟨hdir, _⟩
      · exact ⟨rfl, rfl⟩
      · cases hdir
  | again hrn _ ih =>
    cases hrn with
    | restart | lastChunk => exact ih hr

end Engine

end Flowscope.Http
