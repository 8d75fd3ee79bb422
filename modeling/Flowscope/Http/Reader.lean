import Flowscope.Http.Front
import Flowscope.Http.Spans
import Flowscope.Lib.Incremental

/-!
# HTTP/1: a direction as a reader

A direction of the engine reads what is at the front of its buffer (`ahead`), one thing after another.
`reader` is this as an incremental reader. It gives up when the framing is lost, and also when the
connection switches or closes, since the direction parses nothing after that.

What is told of a message (`Atom`) does not say in which pieces the payload arrived.
-/

namespace Flowscope.Http

open Engine List

/-- What is told of messages. -/
inductive Atom where
  | head (h : Head)
  /-- One byte of a decoded body. -/
  | byte (b : UInt8)
  | trailers (fields : List Field) (raw : Bytes)
  | end_
  | switch (kind : SwitchKind)
deriving DecidableEq, Repr

def EngineEvent.atoms : EngineEvent → List Atom
  | .head h => [.head h]
  | .body decoded _ => decoded.map .byte
  | .trailers fields raw => [.trailers fields raw]
  | .end_ => [.end_]
  | .switch kind => [.switch kind]

/-- An engine, and what it has told. -/
structure Reading where
  engine : Engine
  told : List Atom

/-- How a direction ended: what it has told, its last state, and why it was given up if it was. -/
structure Ending where
  told : List Atom
  state : DirState
  poison : Option HttpPoison

namespace Engine

/-- Put bytes behind those that a direction has buffered. -/
def more (e : Engine) (dir : Dir) (x : Bytes) : Engine :=
  e.setDir dir { e.dir dir with buf := (e.dir dir).buf ++ x }

/-- What is left to read in a direction: twice its bytes, and steps that take no byte. -/
def left (e : Engine) (dir : Dir) : ℕ :=
  2 * (e.dir dir).buf.length +
    match (e.dir dir).state with
    | .body (.length 0) => 2
    | .head | .body _ | .resync => 1
    | _ => 0

variable {e e' : Engine} {dir : Dir} {x : Bytes}

@[simp]
theorem limits_more (e : Engine) (dir : Dir) (x : Bytes) : (e.more dir x).limits = e.limits :=
  limits_setDir ..

@[simp]
theorem pending_more (e : Engine) (dir : Dir) (x : Bytes) : (e.more dir x).pending = e.pending :=
  pending_setDir ..

@[simp]
theorem dir_more (e : Engine) (dir : Dir) (x : Bytes) :
    (e.more dir x).dir dir = { e.dir dir with buf := (e.dir dir).buf ++ x } :=
  dir_setDir ..

@[simp]
theorem pending_switch_more (e : Engine) (dir : Dir) (x : Bytes) :
    (e.more dir x).pending_switch = e.pending_switch :=
  pending_switch_setDir ..

@[simp]
theorem more_setDir (e : Engine) (dir : Dir) (m : DirMachine) (x : Bytes) :
    (e.setDir dir m).more dir x = e.setDir dir { m with buf := m.buf ++ x } := by
  rw [more, dir_setDir, setDir_setDir]

@[simp]
theorem setDir_more (e : Engine) (dir : Dir) (m : DirMachine) (x : Bytes) :
    (e.more dir x).setDir dir m = e.setDir dir m :=
  setDir_setDir ..

/-- What a framed head comes to with more bytes behind it. -/
def withMore (dir : Dir) (x : Bytes) :
    Engine × Except HttpPoison (Option EngineEvent) →
      Engine × Except HttpPoison (Option EngineEvent)
  | (e, .ok o) => (e.more dir x, .ok o)
  | (e, .error reason) => (e, .error reason)

theorem finishRequestHead_more (e : Engine) (x : Bytes) (head : Head) (wants_close : Bool) :
    (e.more .request x).finishRequestHead head wants_close =
      withMore .request x (e.finishRequestHead head wants_close) := by
  unfold finishRequestHead
  rw [limits_more, pending_more]
  split
  · rfl
  · split
    · rfl
    · split_ifs with hfu
      · rfl
      · rfl

theorem finishResponseHead_more (e : Engine) (x : Bytes) (head : Head) (wants_close : Bool) :
    (e.more .response x).finishResponseHead head wants_close =
      withMore .response x (e.finishResponseHead head wants_close) := by
  unfold finishResponseHead
  split_ifs with h1xx
  · rfl
  · rfl
  rw [limits_more, pending_more]
  dsimp only
  split_ifs with hct
  · rfl
  · rfl
  split
  · rfl
  · rfl

/-- A head is framed alike with more bytes behind it. -/
theorem finishHead_more (e : Engine) (dir : Dir) (x : Bytes) (head : Head) :
    (e.more dir x).finishHead dir head = withMore dir x (e.finishHead dir head) := by
  cases dir with
  | request => exact finishRequestHead_more e x head _
  | response => exact finishResponseHead_more e x head _

end Engine

/-- What the framing of a head comes to. -/
def headTurn (told : List Atom) :
    Engine × Except HttpPoison (Option EngineEvent) → Turn Reading Ending
  | (e, .ok (some ev)) => .next ⟨e, told ++ ev.atoms⟩
  | (_, .ok none) => .wait
  | (_, .error reason) => .stop ⟨told, .desynced, some reason⟩

/-- Read what is at the front of the buffer. -/
def act (dir : Dir) (s : Reading) : Ahead → Turn Reading Ending
  | .wait => .wait
  | .lost reason => .stop ⟨s.told, .desynced, some reason⟩
  | .preface =>
    .stop ⟨s.told ++ [.switch .http2PriorKnowledge], .tunnel, (s.engine.dir dir).poison⟩
  | .head head =>
    let m := s.engine.dir dir
    headTurn s.told
      ((s.engine.setDir dir { m with buf := m.buf.drop head.raw.length }).finishHead dir head)
  | .done =>
    let m := s.engine.dir dir
    match s.engine.pending_switch with
    | some kind => .stop ⟨s.told ++ [.switch kind], .tunnel, m.poison⟩
    | none =>
      if m.close_after_message then .stop ⟨s.told ++ [.end_], .closed, m.poison⟩
      else .next ⟨s.engine.setDir dir { m with state := .head }, s.told ++ [.end_]⟩
  | .payload next =>
    let m := s.engine.dir dir
    .next ⟨s.engine.setDir dir { m with buf := m.buf.drop 1, state := .body next },
      s.told ++ (m.buf.take 1).map .byte⟩
  | .framing n next =>
    let m := s.engine.dir dir
    .next ⟨s.engine.setDir dir { m with buf := m.buf.drop n, state := .body next }, s.told⟩
  | .trailers n =>
    let m := s.engine.dir dir
    .next ⟨s.engine.setDir dir { m with buf := m.buf.drop n, state := .body (.length 0) },
      s.told ++ [.trailers (parseTrailerFields (m.buf.take n)) (m.buf.take n)]⟩

/-- What is at the front of a direction's buffer. -/
def Engine.ahead (hp : Httparse) (e : Engine) (dir : Dir) : Ahead :=
  Http.ahead hp e.limits dir (e.dir dir).state (e.dir dir).buf

def turn (hp : Httparse) (dir : Dir) (s : Reading) : Turn Reading Ending :=
  act dir s (s.engine.ahead hp dir)

/-! ## What a turn takes -/

/-- What an `Ahead` says of the state and the buffer that it was found in. -/
def Ahead.Fits (state : DirState) (buf : Bytes) : Ahead → Prop
  | .head h => state = .head ∧ 0 < h.raw.length ∧ h.raw = buf.take h.raw.length
  | .done => state = .body (.length 0)
  | .payload _ => (∃ b, state = .body b) ∧ 0 < buf.length
  | .framing n _ | .trailers n => (∃ b, state = .body b) ∧ 0 < n ∧ n ≤ buf.length
  | _ => True

section Fits

variable {hp : Httparse} {limits : EngineLimits} {dir : Dir} {buf : Bytes} {b : BodyState}

theorem headAhead_fits : (headAhead hp limits dir buf).Fits .head buf := by
  unfold headAhead
  split
  · trivial
  · trivial
  · cases hsc : blankFrom buf 0 with
    | none =>
      dsimp only
      split <;> trivial
    | some hlen =>
      obtain ⟨hpos, hle, -, -⟩ := blankFrom_eq_some.mp hsc
      dsimp only
      split
      · trivial
      · unfold regionAhead
        split
        · trivial
        · split
          · trivial
          · next hpr =>
            have hraw := raw_of_parseHead hpr
            have hln : (buf.take hlen).length = hlen := length_take_of_le hle
            refine ⟨rfl, ?_, ?_⟩
            · rw [hraw, hln]
              exact hpos
            · rw [hraw, hln]

theorem lineAhead_fits : (lineAhead limits buf).Fits (.body b) buf := by
  unfold lineAhead
  cases hsc : findCrlf buf with
  | none =>
    dsimp only
    split <;> trivial
  | some eol =>
    have hlt := findCrlf_lt hsc
    dsimp only
    split
    · trivial
    · split
      · trivial
      · unfold trailerAhead
        cases hend : trailerFrom buf (eol + 2) with
        | none =>
          dsimp only
          split <;> trivial
        | some end_ =>
          have hbn := trailerFrom_bounds hend
          dsimp only
          split
          · trivial
          · exact ⟨⟨b, rfl⟩, by omega, hbn.2⟩
      · exact ⟨⟨b, rfl⟩, by omega, hlt⟩

theorem crlfAhead_fits : (crlfAhead buf).Fits (.body b) buf := by
  unfold crlfAhead
  split
  · trivial
  · next hlen =>
    split
    · trivial
    · exact ⟨⟨b, rfl⟩, Nat.two_pos, Nat.le_of_not_lt hlen⟩

theorem payloadAhead_fits {next : BodyState} : (payloadAhead buf next).Fits (.body b) buf := by
  unfold payloadAhead
  split
  · trivial
  · next hbuf => exact ⟨⟨b, rfl⟩, length_pos_iff.mpr hbuf⟩

theorem ahead_fits (hp : Httparse) (limits : EngineLimits) (dir : Dir) (state : DirState)
    (buf : Bytes) : (ahead hp limits dir state buf).Fits state buf := by
  match state with
  | .head => exact headAhead_fits
  | .body (.length 0) => rfl
  | .body (.length (n + 1)) => exact payloadAhead_fits
  | .body .untilClose => exact payloadAhead_fits
  | .body (.chunked (.data 0)) => trivial
  | .body (.chunked (.data (n + 1))) => exact payloadAhead_fits
  | .body (.chunked .dataCrlf) => exact crlfAhead_fits
  | .body (.chunked .size) => exact lineAhead_fits
  | .body (.chunked .trailer) => exact lineAhead_fits
  | .tunnel => trivial
  | .closed => trivial
  | .desynced => trivial
  | .resync => trivial

end Fits

namespace Engine

variable {hp : Httparse} {e e' : Engine} {dir : Dir}

/-- Bytes were taken, and what is in the buffer now is at most one step longer. -/
theorem left_lt {n : ℕ} (hn : 0 < n) (hlen : n ≤ (e.dir dir).buf.length)
    (hbuf : (e'.dir dir).buf.length = (e.dir dir).buf.length - n)
    (hst : (e.dir dir).state = .head ∨ ∃ b, (e.dir dir).state = .body b) :
    e'.left dir < e.left dir := by
  have hle : e'.left dir ≤ 2 * (e'.dir dir).buf.length + 2 := by
    unfold left
    split <;> omega
  have hlt : 2 * (e.dir dir).buf.length < e.left dir := by
    unfold left
    rcases hst with hs | ⟨b, hs⟩
    · rw [hs]
      exact Nat.lt_succ_self _
    · split <;> simp_all
  omega

end Engine

theorem left_turn {hp : Httparse} {dir : Dir} {s s' : Reading} (h : turn hp dir s = .next s') :
    s'.engine.left dir < s.engine.left dir := by
  have hft := ahead_fits hp s.engine.limits dir (s.engine.dir dir).state (s.engine.dir dir).buf
  unfold turn Engine.ahead at h
  generalize ahead hp s.engine.limits dir (s.engine.dir dir).state (s.engine.dir dir).buf = a
    at h hft
  -- `n` bytes were taken within a body
  have htk {n : ℕ} {next : BodyState} {told : List Atom}
      (hbd : ∃ b, (s.engine.dir dir).state = .body b) (hpos : 0 < n)
      (hle : n ≤ (s.engine.dir dir).buf.length)
      (hs' : (.next ⟨s.engine.setDir dir { s.engine.dir dir with
        buf := (s.engine.dir dir).buf.drop n, state := .body next }, told⟩ : Turn Reading Ending) =
          .next s') : s'.engine.left dir < s.engine.left dir := by
    cases hs'
    refine left_lt hpos hle ?_ (.inr hbd)
    rw [dir_setDir]
    exact length_drop
  cases a with
  | wait | lost | preface => cases h
  | head head =>
    obtain ⟨hst, hpos, hraw⟩ := hft
    have hle : head.raw.length ≤ (s.engine.dir dir).buf.length := by
      have := congrArg length hraw
      rw [length_take] at this
      omega
    dsimp only [act] at h
    unfold headTurn at h
    split at h
    · next e ev hfh =>
      cases h
      have hfd := finishHead_framed (s.engine.setDir dir { s.engine.dir dir with
        buf := (s.engine.dir dir).buf.drop head.raw.length }) dir head
      rw [hfh] at hfd
      refine left_lt hpos hle ?_ (.inl hst)
      rw [hfd.buf.2, dir_setDir]
      exact length_drop
    · cases h
    · cases h
  | done =>
    dsimp only [act] at h
    split at h
    · cases h
    · split at h
      · cases h
      · cases h
        have hst : (s.engine.dir dir).state = .body (.length 0) := hft
        rw [left, left, dir_setDir, hst]
        exact Nat.lt_succ_self _
  | payload next => exact htk hft.1 Nat.one_pos hft.2 h
  | framing n next => exact htk hft.1 hft.2.1 hft.2.2 h
  | trailers n => exact htk hft.1 hft.2.1 hft.2.2 h

/-- A direction as an incremental reader. -/
def reader (hp : Httparse) (dir : Dir) : Reader Reading Ending UInt8 where
  turn := turn hp dir
  more s x := { s with engine := s.engine.more dir x }
  more_nil s := by
    have : s.engine.more dir [] = s.engine := by
      rw [Engine.more, List.append_nil]
      exact Engine.setDir_dir ..
    rw [this]
  more_append s x y := by
    have : s.engine.more dir (x ++ y) = (s.engine.more dir x).more dir y := by
      rw [Engine.more, Engine.more, Engine.dir_more, ← List.append_assoc, Engine.more,
        Engine.setDir_setDir]
    rw [this]
  size s := s.engine.left dir
  size_lt _ _ h := left_turn h

/-! ## More bytes -/

section More

variable {hp : Httparse} {dir : Dir} {s : Reading} {x : Bytes}

/-- The line that comes next has exactly the largest allowed length. -/
def Engine.Critical (e : Engine) (dir : Dir) : Prop :=
  (e.dir dir).state.atLine = true ∧
    findCrlf (e.dir dir).buf = some e.limits.max_chunk_line_bytes

/-- A turn is made alike with more bytes behind what it reads. -/
theorem stableAt (hli : ¬(s.engine.more dir x).Critical dir) : (reader hp dir).StableAt s x := by
  have hft := ahead_fits hp s.engine.limits dir (s.engine.dir dir).state (s.engine.dir dir).buf
  have hap : s.engine.ahead hp dir ≠ .wait →
      (s.engine.more dir x).ahead hp dir = s.engine.ahead hp dir := by
    intro hwt
    unfold Engine.ahead at ⊢
    rw [dir_more, limits_more]
    refine ahead_append hwt fun hat hcf => hli ⟨?_, ?_⟩
    · rwa [dir_more]
    · rwa [dir_more, limits_more]
  have hnx (m : DirMachine) (told : List Atom) :
      (.next ⟨s.engine.setDir dir m, told⟩ : Turn Reading Ending).Extends
        ((reader hp dir).more · x)
        (.next ⟨s.engine.setDir dir { m with buf := m.buf ++ x }, told⟩) := by
    change Turn.next _ = Turn.next (Reading.mk ((s.engine.setDir dir m).more dir x) told)
    rw [more_setDir]
  change (turn hp dir s).Extends _ (turn hp dir { s with engine := s.engine.more dir x })
  unfold turn
  by_cases hwt : s.engine.ahead hp dir = .wait
  · rw [hwt]
    trivial
  rw [hap hwt]
  change (s.engine.ahead hp dir).Fits _ _ at hft
  generalize s.engine.ahead hp dir = a at hft ⊢
  cases a with
  | wait => trivial
  | lost reason => rfl
  | preface =>
    simp only [act, dir_more]
    rfl
  | head head =>
    have hle : head.raw.length ≤ (s.engine.dir dir).buf.length := by
      have := congrArg length hft.2.2
      rw [length_take] at this
      omega
    simp only [act, dir_more, setDir_more]
    rw [drop_append_of_le_length hle, ← more_setDir s.engine dir
      { s.engine.dir dir with buf := (s.engine.dir dir).buf.drop head.raw.length } x,
      finishHead_more]
    generalize finishHead _ dir head = r
    match r with
    | (e, .ok (some ev)) => rfl
    | (e, .ok none) => trivial
    | (e, .error reason) => rfl
  | done =>
    simp only [act, dir_more, pending_switch_more, setDir_more]
    split
    · rfl
    · split
      · rfl
      · exact hnx { s.engine.dir dir with state := .head } _
  | payload next =>
    have hle : 1 ≤ (s.engine.dir dir).buf.length := hft.2
    simp only [act, dir_more, setDir_more]
    rw [drop_append_of_le_length hle, take_append_of_le_length hle]
    exact hnx { s.engine.dir dir with
      buf := (s.engine.dir dir).buf.drop 1, state := .body next } _
  | framing n next =>
    simp only [act, dir_more, setDir_more]
    rw [drop_append_of_le_length hft.2.2]
    exact hnx { s.engine.dir dir with
      buf := (s.engine.dir dir).buf.drop n, state := .body next } _
  | trailers n =>
    simp only [act, dir_more, setDir_more]
    rw [drop_append_of_le_length hft.2.2, take_append_of_le_length hft.2.2]
    exact hnx { s.engine.dir dir with
      buf := (s.engine.dir dir).buf.drop n, state := .body (.length 0) } _

end More

end Flowscope.Http
