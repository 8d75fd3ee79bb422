import Flowscope.Http2.Faults
import Flowscope.Lib.Incremental

/-!
# The HTTP/2 parser as a reader of bytes

The parser reads one direction as an incremental reader (`reader`): a turn takes the preface or one
frame. A turn depends on no bytes behind what it takes, since it is decided by the preface or by the
header of a frame (`stableAt`), and on no events that are queued (`drive_after`). That a frame which is
waited for will fit in the buffer comes from the limits being composed: no frame is let through that is
larger than the buffer less its header (`run_spec`).
-/

namespace Flowscope.Http2

open List Reader

namespace Http2Parser

/-! ## Buffers and frames -/

theorem handleFrame_setBuf (p : Http2Parser) (d d' : FlowSide) (b : Bytes) (f : Frame) :
    (p.setBuf d b).handleFrame d' f =
      ((p.handleFrame d' f).1.setBuf d b, (p.handleFrame d' f).2) := by
  obtain ⟨hsl, her⟩ := p.shell_handleFrame d' f
  have hreq : (p.handleFrame d' f).1.request.shell = p.request.shell := hsl .initiator
  have hrp : (p.handleFrame d' f).1.response.shell = p.response.shell := hsl .responder
  cases d with
  | initiator =>
    calc (p.setBuf .initiator b).handleFrame d' f
        = (p.dress [] { p.request.shell with buf := b } p.response.shell p.error).handleFrame d' f :=
          rfl
      _ = dressed (p.handleFrame d' f) [] { p.request.shell with buf := b } p.response.shell
            p.error := handleFrame_dress f
      _ = ((p.handleFrame d' f).1.setBuf .initiator b, (p.handleFrame d' f).2) := by
          rw [← hreq, ← hrp, ← her]
          rfl
  | responder =>
    calc (p.setBuf .responder b).handleFrame d' f
        = (p.dress [] p.request.shell { p.response.shell with buf := b } p.error).handleFrame d' f :=
          rfl
      _ = dressed (p.handleFrame d' f) [] p.request.shell { p.response.shell with buf := b }
            p.error := handleFrame_dress f
      _ = ((p.handleFrame d' f).1.setBuf .responder b, (p.handleFrame d' f).2) := by
          rw [← hreq, ← hrp, ← her]
          rfl

def after (p : Http2Parser) (before : List Http2Event) : Http2Parser :=
  { p with events := before ++ p.events }

theorem handleFrame_after (p : Http2Parser) (before : List Http2Event) (d : FlowSide) (f : Frame) :
    (p.after before).handleFrame d f =
      ((p.handleFrame d f).1.after before, (p.handleFrame d f).2) := by
  obtain ⟨hsl, her⟩ := p.shell_handleFrame d f
  have hreq : (p.handleFrame d f).1.request.shell = p.request.shell := hsl .initiator
  have hrp : (p.handleFrame d f).1.response.shell = p.response.shell := hsl .responder
  calc (p.after before).handleFrame d f
      = (p.dress before p.request.shell p.response.shell p.error).handleFrame d f := rfl
    _ = dressed (p.handleFrame d f) before p.request.shell p.response.shell p.error :=
        handleFrame_dress f
    _ = ((p.handleFrame d f).1.after before, (p.handleFrame d f).2) := by
        rw [← hreq, ← hrp, ← her]
        rfl

section Reader

variable (d : FlowSide)

/-- Whether the preface is still to come. -/
def awaitsPreface (p : Http2Parser) : Prop := d = .initiator ∧ p.request.preface ≠ .seen

instance (p : Http2Parser) : Decidable (p.awaitsPreface d) :=
  inferInstanceAs (Decidable (_ ∧ _))

/-- Take the preface. -/
def prefaceTurn (p : Http2Parser) : Turn Http2Parser Http2Parser :=
  match p.readPreface d with
  | (q, .error e) => .stop (q.fail e)
  | (_, .ok false) => .wait
  | (q, .ok true) => .next q

def frameTurn (p : Http2Parser) : Turn Http2Parser Http2Parser :=
  match peekFrameLen (p.dir d).buf (p.dir d).max_frame_size with
  | .error e => .stop (p.fail e)
  | .ok none => .wait
  | .ok (some total) =>
    let q := p.setBuf d ((p.dir d).buf.drop total)
    match parseFrame ((p.dir d).buf.take total) (p.dir d).max_frame_size with
    | .error e => .stop (q.fail e)
    | .ok none => .wait
    | .ok (some (f, _)) =>
      match q.handleFrame d f with
      | (r, .error e) => .stop (r.fail e)
      | (r, .ok ()) => .next r

def turn (p : Http2Parser) : Turn Http2Parser Http2Parser :=
  if p.awaitsPreface d then p.prefaceTurn d else p.frameTurn d

/-- Put bytes behind those of a direction. -/
def more (p : Http2Parser) (x : Bytes) : Http2Parser := p.setBuf d ((p.dir d).buf ++ x)

variable (p : Http2Parser) {c : Http2Config} {buf : Bytes} (before : List Http2Event)

theorem setBuf_setBuf (b b' : Bytes) : (p.setBuf d b).setBuf d b' = p.setBuf d b' := by
  cases d <;> rfl

theorem setBuf_self : p.setBuf d (p.dir d).buf = p := by
  cases d <;> rfl

theorem max_frame_size_setBuf (b : Bytes) :
    ((p.setBuf d b).dir d).max_frame_size = (p.dir d).max_frame_size := by
  cases d <;> rfl

theorem awaitsPreface_setBuf (b : Bytes) : (p.setBuf d b).awaitsPreface d ↔ p.awaitsPreface d := by
  cases d <;> rfl

/-- What is left to take: a turn takes the preface, or bytes. -/
def left (p : Http2Parser) : ℕ := 2 * (p.dir d).buf.length + if p.awaitsPreface d then 1 else 0

variable {d}

theorem awaitsPreface_handleFrame (d' : FlowSide) (f : Frame) :
    (p.handleFrame d' f).1.awaitsPreface d ↔ p.awaitsPreface d := by
  have h := congrArg Shell.preface ((p.shell_handleFrame d' f).1 .initiator)
  exact and_congr_right fun _ => not_congr (Eq.congr_left h)

/-- The turn that takes the preface. -/
theorem prefaceTurn_next {p q : Http2Parser} (haw : p.awaitsPreface d)
    (h : p.prefaceTurn d = .next q) :
    ¬q.awaitsPreface d ∧ ∃ k, q = { p with request :=
      { p.request with buf := p.request.buf.drop k, preface := .seen } } := by
  unfold prefaceTurn readPreface at h
  rw [if_pos (show d = .initiator ∧ p.request.preface ≠ .seen from haw)] at h
  dsimp only at h
  split_ifs at h with hmt hsh hrr
  · obtain rfl := Turn.next.inj h
    exact ⟨fun hq => hq.2 rfl, _, rfl⟩
  · obtain rfl := Turn.next.inj h
    exact ⟨fun hq => hq.2 rfl, 0, rfl⟩

/-- A preface that is waited for is shorter than it will be. -/
theorem readPreface_wait {p q : Http2Parser} (h : p.readPreface d = (q, .ok false)) :
    q = p ∧ d = .initiator ∧ p.request.buf.length < PREFACE.length := by
  unfold readPreface at h
  dsimp only at h
  split_ifs at h with haw hmt hsh hrr
  · exact ⟨(Prod.mk.inj h).1.symm, haw.1, hsh⟩
  · simp at h
  · simp at h
  · simp at h
  · simp at h

theorem frameTurn_next {p r : Http2Parser} (h : p.frameTurn d = .next r) :
    ∃ total f used, peekFrameLen (p.dir d).buf (p.dir d).max_frame_size = .ok (some total) ∧
      parseFrame ((p.dir d).buf.take total) (p.dir d).max_frame_size = .ok (some (f, used)) ∧
      (p.setBuf d ((p.dir d).buf.drop total)).handleFrame d f = (r, .ok ()) := by
  unfold frameTurn at h
  rcases hpk : peekFrameLen (p.dir d).buf (p.dir d).max_frame_size with e | _ | total
  · simp [hpk] at h
  · simp [hpk] at h
  · rw [hpk] at h
    dsimp only at h
    rcases hpr : parseFrame ((p.dir d).buf.take total) (p.dir d).max_frame_size with
      e | _ | ⟨f, used⟩
    · simp [hpr] at h
    · simp [hpr] at h
    · rw [hpr] at h
      dsimp only at h
      refine ⟨total, f, used, rfl, hpr, ?_⟩
      rcases hhn : (p.setBuf d ((p.dir d).buf.drop total)).handleFrame d f with ⟨r', e | _⟩
      · simp [hhn] at h
      · rw [hhn] at h
        obtain rfl := Turn.next.inj h
        rfl

theorem left_lt {p q : Http2Parser} (h : p.turn d = .next q) : q.left d < p.left d := by
  unfold turn at h
  unfold left
  split_ifs at h with haw
  · obtain ⟨hsn, k, rfl⟩ := prefaceTurn_next haw h
    obtain rfl : d = .initiator := haw.1
    rw [if_pos haw, if_neg hsn]
    simp only [dir, length_drop]
    omega
  · obtain ⟨total, f, used, hpk, -, hhn⟩ := frameTurn_next h
    obtain ⟨htt, -, hle⟩ := total_of_peekFrameLen hpk
    have hbuf := buf_handleFrame (p.setBuf d ((p.dir d).buf.drop total)) d d f
    have hsn := awaitsPreface_handleFrame (d := d) (p.setBuf d ((p.dir d).buf.drop total)) d f
    rw [hhn] at hbuf hsn
    rw [awaitsPreface_setBuf] at hsn
    rw [buf_setBuf] at hbuf
    rw [if_neg (mt hsn.mp haw), hbuf, length_drop]
    unfold FRAME_HEADER_LEN at htt
    omega

/-- A parser that gives up forgets what it holds. -/
theorem fail_setBuf (b : Bytes) (e : Http2Error) : (p.setBuf d b).fail e = p.fail e := by
  cases d <;> rfl

/-! ### No turn depends on the bytes behind what it takes -/

theorem peekFrameLen_append_of_error {max : ℕ} {e : Http2Error}
    (h : peekFrameLen buf max = .error e) (x : Bytes) :
    peekFrameLen (buf ++ x) max = .error e := by
  unfold peekFrameLen at h ⊢
  dsimp only at h ⊢
  split_ifs at h with hsh hbig hpt
  have hlen : ¬(buf ++ x).length < FRAME_HEADER_LEN := by rw [length_append]; omega
  unfold FRAME_HEADER_LEN at hsh
  rw [if_neg hlen, take_append_of_le_length (by omega), if_pos hbig]
  exact h

theorem peekFrameLen_append_of_some {max total : ℕ}
    (h : peekFrameLen buf max = .ok (some total)) (x : Bytes) :
    peekFrameLen (buf ++ x) max = .ok (some total) := by
  obtain ⟨htt, hmax, hle⟩ := total_of_peekFrameLen h
  have hlen : (buf ++ x).length = buf.length + x.length := length_append
  have hhd : FRAME_HEADER_LEN = 9 := rfl
  unfold peekFrameLen
  rw [if_neg (by omega)]
  rw [take_append_of_le_length (by omega), if_neg (by omega), ← htt, if_neg (by omega)]

/-- Bytes that are not those of the preface stay so. -/
theorem take_ne_preface
    (h : ¬buf.take (min buf.length PREFACE.length) = PREFACE.take (min buf.length PREFACE.length))
    (x : Bytes) : ¬(buf ++ x).take (min (buf ++ x).length PREFACE.length) =
      PREFACE.take (min (buf ++ x).length PREFACE.length) := by
  intro hmr
  apply h
  have hcut := congrArg (List.take (min buf.length PREFACE.length)) hmr
  have hle : min buf.length PREFACE.length ≤ min (buf ++ x).length PREFACE.length := by
    rw [length_append]
    omega
  rw [take_take, take_take, min_eq_left hle, take_append_of_le_length (min_le_left _ _)] at hcut
  exact hcut

/-- What has been decided about the preface stays so. -/
theorem readPreface_more {p q : Http2Parser} {o : Except Http2Error Bool} (x : Bytes)
    (haw : p.awaitsPreface d) (h : p.readPreface d = (q, o)) (hdc : o ≠ .ok false) :
    (p.more d x).readPreface d = (q.more d x, o) := by
  obtain rfl : d = .initiator := haw.1
  unfold readPreface at h ⊢
  rw [if_pos (show _ ∧ p.request.preface ≠ .seen from haw)] at h
  rw [if_pos (show _ ∧ (p.more .initiator x).request.preface ≠ .seen from haw)]
  have hbuf : (p.more .initiator x).request.buf = p.request.buf ++ x := rfl
  have hpc : (p.more .initiator x).request.preface = p.request.preface := rfl
  dsimp only at h ⊢
  rw [hbuf, hpc]
  split_ifs at h with hmt hsh hrr
  · exact absurd (Prod.mk.inj h).2.symm hdc
  · -- the whole preface is there
    obtain ⟨rfl, rfl⟩ := Prod.mk.inj h
    have hlen : min p.request.buf.length PREFACE.length = PREFACE.length := by omega
    have hln' : min (p.request.buf ++ x).length PREFACE.length = PREFACE.length := by
      rw [length_append]
      omega
    rw [hlen] at hmt
    rw [hln', take_append_of_le_length (by omega), if_pos hmt,
      if_neg (by rw [length_append]; omega), drop_append_of_le_length (by omega)]
    rfl
  · obtain ⟨rfl, rfl⟩ := Prod.mk.inj h
    rw [if_neg (take_ne_preface hmt x), if_pos hrr]
  · obtain ⟨rfl, rfl⟩ := Prod.mk.inj h
    rw [if_neg (take_ne_preface hmt x), if_neg hrr]
    rfl

theorem prefaceTurn_more {p : Http2Parser} (haw : p.awaitsPreface d) (x : Bytes) :
    (p.prefaceTurn d).Extends (more d · x) ((p.more d x).prefaceTurn d) := by
  unfold prefaceTurn
  rcases hrd : p.readPreface d with ⟨q, e | _ | _⟩
  · rw [readPreface_more x haw hrd (by simp)]
    exact congrArg Turn.stop (fail_setBuf q _ e)
  · trivial
  · rw [readPreface_more x haw hrd (by simp)]
    rfl

theorem frameTurn_more (x : Bytes) :
    (p.frameTurn d).Extends (more d · x) ((p.more d x).frameTurn d) := by
  have hbuf : ((p.more d x).dir d).buf = (p.dir d).buf ++ x := buf_setBuf p d _
  have hmax : ((p.more d x).dir d).max_frame_size = (p.dir d).max_frame_size :=
    max_frame_size_setBuf d p _
  unfold frameTurn
  rw [hbuf, hmax]
  rcases hpk : peekFrameLen (p.dir d).buf (p.dir d).max_frame_size with e | _ | total
  · rw [peekFrameLen_append_of_error hpk]
    exact congrArg Turn.stop (fail_setBuf p _ e)
  · trivial
  -- the frame is the same, and so is all that it is handled by
  obtain ⟨-, -, hle⟩ := total_of_peekFrameLen hpk
  have hrs : (p.more d x).setBuf d (((p.dir d).buf ++ x).drop total) =
      (p.setBuf d ((p.dir d).buf.drop total)).more d x := by
    rw [more, more, buf_setBuf, setBuf_setBuf, setBuf_setBuf, drop_append_of_le_length hle]
  rw [peekFrameLen_append_of_some hpk]
  dsimp only
  rw [hrs, take_append_of_le_length hle]
  generalize p.setBuf d ((p.dir d).buf.drop total) = q
  rcases parseFrame ((p.dir d).buf.take total) (p.dir d).max_frame_size with e | _ | ⟨f, used⟩
  · exact congrArg Turn.stop (fail_setBuf q _ e)
  · trivial
  · have hsm := q.buf_handleFrame d d f
    dsimp only
    rw [more, handleFrame_setBuf]
    rcases hhn : q.handleFrame d f with ⟨r, e | _⟩
    · exact congrArg Turn.stop (fail_setBuf r _ e)
    · rw [hhn] at hsm
      rw [← hsm]
      rfl

/-- One direction of a parser as a reader of bytes. -/
def reader (d : FlowSide) : Reader Http2Parser Http2Parser UInt8 where
  turn := turn d
  more := more d
  more_nil p := by rw [more, List.append_nil, setBuf_self]
  more_append p x y := by rw [more, more, more, buf_setBuf, setBuf_setBuf, List.append_assoc]
  size := left d
  size_lt _ _ := left_lt

theorem stableAt (x : Bytes) : (reader d).StableAt p x := by
  have hmr : (p.more d x).awaitsPreface d ↔ p.awaitsPreface d := awaitsPreface_setBuf d p _
  show (p.turn d).Extends _ ((p.more d x).turn d)
  unfold turn
  by_cases haw : p.awaitsPreface d
  · rw [if_pos haw, if_pos (hmr.mpr haw)]
    exact prefaceTurn_more haw x
  · rw [if_neg haw, if_neg (mt hmr.mp haw)]
    exact frameTurn_more p x

/-! ### Driving the parser is running the reader -/

/-- A frame that is whole is read or refused. -/
theorem parseFrame_take_ne_none {max total : ℕ}
    (h : peekFrameLen buf max = .ok (some total)) : parseFrame (buf.take total) max ≠ .ok none := by
  obtain ⟨htt, hmax, hle⟩ := total_of_peekFrameLen h
  have hpk : peekFrameLen (buf.take total) max = .ok (some total) := by
    have hhd : FRAME_HEADER_LEN = 9 := rfl
    have hlen : (buf.take total).length = total := length_take_of_le hle
    unfold peekFrameLen
    rw [if_neg (by omega)]
    rw [take_take, min_eq_left (by omega), if_neg (by omega), ← htt, if_neg (by omega)]
  unfold parseFrame
  rw [hpk, Except.ok_bind]
  intro hnn
  obtain ⟨payload, -, hnn⟩ := Except.bind_eq_ok.mp hnn
  obtain ⟨payload, -, hnn⟩ := Except.bind_eq_ok.mp hnn
  obtain ⟨⟨promised, payload⟩, -, hnn⟩ := Except.bind_eq_ok.mp hnn
  simp [pure, Except.pure] at hnn

/-- The parser that an outcome leaves, given up if the outcome is an error. -/
def settle (r : Http2Parser × Except Http2Error Unit) : Except Http2Parser Http2Parser :=
  match r with
  | (p, .error e) => .error (p.fail e)
  | (p, .ok ()) => .ok p

theorem run_eq_driveFrames {p : Http2Parser} (haw : ¬p.awaitsPreface d) :
    (reader d).run p = settle (p.driveFrames d) := by
  have htr : ∀ p : Http2Parser, ¬p.awaitsPreface d → (reader d).turn p = p.frameTurn d :=
    fun p h => if_neg h
  fun_induction driveFrames p d with
  | case1 p e hpk =>
    exact run_of_stop ((htr p haw).trans (by simp [frameTurn, hpk]))
  | case2 p hpk =>
    exact run_of_wait ((htr p haw).trans (by simp [frameTurn, hpk]))
  | case3 p total hpk raw q e hpr =>
    exact run_of_stop ((htr p haw).trans (by simp [frameTurn, hpk, hpr, raw, q]))
  | case4 p total hpk raw q hpr => exact absurd hpr (parseFrame_take_ne_none hpk)
  | case5 p total hpk raw q f used hpr r e hhn =>
    have hpr' : parseFrame ((p.dir d).buf.take total) _ = .ok (some (f, used)) := hpr
    have hhn' : (p.setBuf d ((p.dir d).buf.drop total)).handleFrame d f = (r, .error e) := hhn
    apply run_of_stop
    rw [htr p haw, frameTurn]
    simp only [hpk, hpr', hhn']
  | case6 p total hpk raw q f used hpr r hhn ih =>
    have hpr' : parseFrame ((p.dir d).buf.take total) _ = .ok (some (f, used)) := hpr
    have hhn' : (p.setBuf d ((p.dir d).buf.drop total)).handleFrame d f = (r, .ok ()) := hhn
    have hsn : ¬r.awaitsPreface d := by
      have h := awaitsPreface_handleFrame (d := d) q d f
      rw [hhn, awaitsPreface_setBuf] at h
      exact mt h.mp haw
    rw [← ih hsn]
    apply run_of_next
    rw [htr p haw, frameTurn]
    simp only [hpk, hpr', hhn']

theorem run_eq_driveInner : (reader d).run p = settle (p.driveInner d) := by
  unfold driveInner
  by_cases haw : p.awaitsPreface d
  · have htr : (reader d).turn p = p.prefaceTurn d := if_pos haw
    have hnx := fun q => prefaceTurn_next (q := q) haw
    unfold prefaceTurn at htr hnx
    rcases hrd : p.readPreface d with ⟨q, e | _ | _⟩
    · rw [hrd] at htr
      exact run_of_stop htr
    · rw [hrd] at htr
      obtain rfl := (readPreface_wait hrd).1
      exact run_of_wait htr
    · rw [hrd] at htr hnx
      rw [run_of_next htr]
      exact run_eq_driveFrames (hnx q rfl).1
  · have hrd : p.readPreface d = (p, .ok true) := if_neg haw
    rw [hrd]
    exact run_eq_driveFrames haw

/-- The parser that the reader ends up with. -/
def outcome : Except Http2Parser Http2Parser → Http2Parser
  | .error p => p
  | .ok p => p

theorem drive_eq_run : p.drive d = outcome ((reader d).run p) := by
  rw [run_eq_driveInner]
  unfold drive
  rcases p.driveInner d with ⟨q, e | _⟩ <;> rfl

/-! ### Events that have been queued before -/

theorem dir_after : (p.after before).dir d = p.dir d := by
  cases d <;> rfl

theorem setBuf_after (b : Bytes) : (p.after before).setBuf d b = (p.setBuf d b).after before := by
  cases d <;> rfl

theorem prefaceTurn_after :
    (p.after before).prefaceTurn d = (p.prefaceTurn d).map (after · before) (after · before) := by
  have hrd : (p.after before).readPreface d =
      ((p.readPreface d).1.after before, (p.readPreface d).2) := by
    have hrq : (p.after before).request = p.request := rfl
    unfold readPreface
    dsimp only
    rw [hrq]
    split_ifs <;> rfl
  unfold prefaceTurn
  rw [hrd]
  rcases p.readPreface d with ⟨q, e | _ | _⟩ <;> rfl

theorem frameTurn_after :
    (p.after before).frameTurn d = (p.frameTurn d).map (after · before) (after · before) := by
  unfold frameTurn
  rw [dir_after]
  rcases peekFrameLen (p.dir d).buf (p.dir d).max_frame_size with e | _ | total
  · rfl
  · rfl
  dsimp only
  rw [setBuf_after]
  generalize p.setBuf d ((p.dir d).buf.drop total) = q
  rcases parseFrame ((p.dir d).buf.take total) (p.dir d).max_frame_size with e | _ | ⟨f, used⟩
  · rfl
  · rfl
  · dsimp only
    rw [handleFrame_after]
    rcases q.handleFrame d f with ⟨r, e | _⟩ <;> rfl

/-- Driving the parser does not depend on the events that are queued. -/
theorem drive_after : (p.after before).drive d = (p.drive d).after before := by
  have hrun := run_map (R := reader d)
    (fun p => by
      show (p.after before).turn d = (p.turn d).map _ _
      have haw : (p.after before).awaitsPreface d ↔ p.awaitsPreface d := Iff.rfl
      unfold turn
      rw [prefaceTurn_after, frameTurn_after]
      simp only [haw]
      split_ifs <;> rfl) p
  rw [drive_eq_run, drive_eq_run, hrun]
  cases (reader d).run p <;> rfl

/-! ### Limits -/

/-- No direction admits a frame larger than the limits. -/
structure Limited (c : Http2Config) (p : Http2Parser) : Prop where
  config : p.config = c
  frames : ∀ d, (p.dir d).max_frame_size ≤ c.effectiveMaxFrameSize

theorem Limited.modifyDir {p : Http2Parser} (h : Limited c p) {d : FlowSide}
    {f : DirState → DirState} (hf : ∀ s, s.max_frame_size ≤ c.effectiveMaxFrameSize →
      (f s).max_frame_size ≤ c.effectiveMaxFrameSize) : Limited c (p.modifyDir d f) := by
  have hreq := h.frames .initiator
  have hrp := h.frames .responder
  constructor
  · rw [← h.config]
    cases d <;> rfl
  · intro d'
    cases d <;> cases d'
    · exact hf _ hreq
    · exact hrp
    · exact hreq
    · exact hf _ hrp

theorem frameInvariant_limited (c : Http2Config) : FrameInvariant d (Limited c) where
  emit _ _ h := ⟨h.config, h.frames⟩
  setStreams _ _ h := ⟨h.config, h.frames⟩
  setHpack _ _ h := h.modifyDir fun _ hs => hs
  setPartial _ _ h := h.modifyDir fun _ hs => hs
  applyTableSize p n h := by
    cases n with
    | none => exact h
    | some n =>
      unfold applyTableSize
      exact h.modifyDir fun _ hs => hs
  applyFrameSize p n h := by
    cases n with
    | none => exact h
    | some n =>
      unfold applyFrameSize
      rw [h.config]
      exact h.modifyDir fun _ _ => min_le_right _ _

/-- A direction that waits holds fewer bytes than it may: what it waits for fits. -/
theorem buf_lt_of_turn (hc : 24 ≤ c.max_buffered_bytes) {p : Http2Parser}
    (h : Limited c p) (htr : p.turn d = .wait) : (p.dir d).buf.length < c.max_buffered_bytes := by
  unfold turn at htr
  split_ifs at htr with haw
  · unfold prefaceTurn at htr
    rcases hrd : p.readPreface d with ⟨q, e | _ | _⟩
    · simp [hrd] at htr
    · obtain ⟨-, rfl, hsh⟩ := readPreface_wait hrd
      have hpc : PREFACE.length = 24 := by decide
      exact (hsh.trans_eq hpc).trans_le hc
    · simp [hrd] at htr
  · have hfm := h.frames d
    have hef : c.effectiveMaxFrameSize ≤ c.max_buffered_bytes - FRAME_HEADER_LEN :=
      (min_le_left _ _).trans (min_le_left _ _)
    have hhd : FRAME_HEADER_LEN = 9 := rfl
    unfold frameTurn at htr
    rcases hpk : peekFrameLen (p.dir d).buf (p.dir d).max_frame_size with e | _ | total
    · simp [hpk] at htr
    · unfold peekFrameLen at hpk
      dsimp only at hpk
      split_ifs at hpk
      · omega
      · omega
      · simp at hpk
    · rw [hpk] at htr
      dsimp only at htr
      rcases hpr : parseFrame ((p.dir d).buf.take total) (p.dir d).max_frame_size with
        e | _ | ⟨f, used⟩
      · simp [hpr] at htr
      · exact absurd hpr (parseFrame_take_ne_none hpk)
      · rw [hpr] at htr
        dsimp only at htr
        split at htr <;> simp at htr

/-- What the turns of a direction keep of a parser: its limits, its verdict, which sides have ended,
and what the other direction holds. -/
structure Kept (d : FlowSide) (c : Http2Config) (p q : Http2Parser) : Prop where
  limited : Limited c q
  error : q.error = p.error
  done : ∀ d', (q.dir d').done = (p.dir d').done
  buf : (q.dir (opposite d)).buf = (p.dir (opposite d)).buf

theorem kept_setBuf {p q : Http2Parser} (h : Kept d c p q) (b : Bytes) :
    Kept d c p (q.setBuf d b) := by
  obtain ⟨hlm, her, hdn, hbuf⟩ := h
  refine ⟨hlm.modifyDir fun _ hs => hs, ?_, fun d' => ?_, ?_⟩
  · rw [← her]
    cases d <;> rfl
  · rw [← hdn d']
    cases d <;> cases d' <;> rfl
  · rw [← hbuf]
    cases d <;> rfl

theorem kept_handleFrame {p q : Http2Parser} (h : Kept d c p q) (f : Frame) :
    Kept d c p (q.handleFrame d f).1 := by
  obtain ⟨hsl, her⟩ := q.shell_handleFrame d f
  exact {
    limited := (frameInvariant_limited c).handleFrame h.limited f
    error := her.trans h.error
    done := fun d' => (congrArg Shell.done (hsl d')).trans (h.done d')
    buf := (congrArg Shell.buf (hsl _)).trans h.buf }

theorem kept_prefaceTurn {p q : Http2Parser} (h : Kept d c p q) (k : ℕ) (hd : d = .initiator) :
    Kept d c p { q with request :=
      { q.request with buf := q.request.buf.drop k, preface := .seen } } := by
  subst hd
  obtain ⟨⟨hcn, hfrs⟩, her, hdn, hbuf⟩ := h
  refine ⟨⟨hcn, fun d' => ?_⟩, her, fun d' => ?_, hbuf⟩
  · have := hfrs d'
    cases d' <;> exact this
  · have := hdn d'
    cases d' <;> exact this

theorem kept_of_next {p q r : Http2Parser} (h : Kept d c p q)
    (htr : q.turn d = .next r) : Kept d c p r := by
  unfold turn at htr
  split_ifs at htr with haw
  · obtain ⟨-, k, rfl⟩ := prefaceTurn_next haw htr
    exact kept_prefaceTurn h k haw.1
  · obtain ⟨total, f, used, -, -, hhn⟩ := frameTurn_next htr
    have hkt := kept_handleFrame (kept_setBuf h ((q.dir d).buf.drop total)) f
    rwa [hhn] at hkt

/-- A parser that gives up does so for another reason than a full buffer. -/
theorem kept_of_stop {p q r : Http2Parser} (h : Kept d c p q)
    (htr : q.turn d = .stop r) : ∃ q' e, r = q'.fail e ∧ e.OfFrame ∧ Kept d c p q' := by
  unfold turn at htr
  split_ifs at htr with haw
  · unfold prefaceTurn at htr
    rcases hrd : q.readPreface d with ⟨q', e | _ | _⟩
    · rw [hrd] at htr
      obtain rfl := Turn.stop.inj htr
      unfold readPreface at hrd
      dsimp only at hrd
      split_ifs at hrd
      all_goals obtain ⟨rfl, he⟩ := Prod.mk.inj hrd
      all_goals cases he
      exact ⟨q, .badPreface, rfl, by simp, h⟩
    · simp [hrd] at htr
    · simp [hrd] at htr
  · unfold frameTurn at htr
    rcases hpk : peekFrameLen (q.dir d).buf (q.dir d).max_frame_size with e | _ | total
    · rw [hpk] at htr
      obtain rfl := Turn.stop.inj htr
      exact ⟨q, e, rfl, (peekFrameLen_sat _ _).of_error hpk, h⟩
    · simp [hpk] at htr
    · rw [hpk] at htr
      dsimp only at htr
      have hrs := kept_setBuf h ((q.dir d).buf.drop total)
      generalize q.setBuf d ((q.dir d).buf.drop total) = q' at htr hrs
      rcases hpr : parseFrame ((q.dir d).buf.take total) (q.dir d).max_frame_size with
        e | _ | ⟨f, used⟩
      · rw [hpr] at htr
        obtain rfl := Turn.stop.inj htr
        exact ⟨q', e, rfl, (parseFrame_sat _ _).of_error hpr, hrs⟩
      · simp [hpr] at htr
      · rw [hpr] at htr
        dsimp only at htr
        have hha := kept_handleFrame hrs f
        rcases hhn : q'.handleFrame d f with ⟨q'', e | _⟩
        · rw [hhn] at htr hha
          obtain rfl := Turn.stop.inj htr
          refine ⟨q'', e, rfl, ?_, hha⟩
          exact (q'.handleFrame_sat d f).of_error (congrArg Prod.snd hhn)
        · simp [hhn] at htr

/-- What driving a direction leads to: the direction waits and holds fewer bytes than it may, or the
parser has given up. -/
theorem run_spec (hc : 24 ≤ c.max_buffered_bytes) {p : Http2Parser} (h : Limited c p) :
    ((reader d).run p).Sat
      (fun q => Kept d c p q ∧ (q.dir d).buf.length < c.max_buffered_bytes)
      fun r => ∃ q e, r = q.fail e ∧ e.OfFrame ∧ Kept d c p q := by
  have hsf : Kept d c p p := ⟨h, rfl, fun _ => rfl, rfl⟩
  have hsat := run_sat (R := reader d) (fun _ _ => kept_of_next) (fun _ _ => kept_of_stop)
    hsf
  exact hsat.imp fun q hq => ⟨hq.1, buf_lt_of_turn hc hq.1.limited hq.2⟩

end Reader

end Http2Parser

end Flowscope.Http2
