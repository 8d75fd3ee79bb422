import Flowscope.Http.Spans

/-!
# HTTP/1: scans resume where nothing was overlooked

A scan starts where the last one stopped (`DirMachine.scanned`). That is right as long as there is no
end of a head, or of a line, in what the scan skips (`DirMachine.Valid`). Every operation of the engine
keeps this (`Engine.Reach.valid`).
-/

namespace Flowscope.Http

/-- There is nothing to be found in what the next scan skips. Before a trailer section, the buffer
begins with the line of the last chunk. -/
def DirMachine.Valid (m : DirMachine) (limits : EngineLimits) : Prop :=
  match m.state with
  | .head => m.scanned ≤ m.buf.length ∧ ∀ j < m.scanned - 3, ¬blankEndsAt m.buf j
  | .body (.chunked .size) => m.scanned ≤ m.buf.length ∧ ∀ j < m.scanned - 1, ¬CrlfAt m.buf j
  | .body (.chunked .trailer) =>
    ∃ eol, findCrlf m.buf = some eol ∧ eol ≤ limits.max_chunk_line_bytes ∧
      chunkSize (m.buf.take eol) = some 0
  | .body _ => m.scanned = 0
  | _ => True

namespace DirMachine

variable {m : DirMachine} {limits : EngineLimits}

/-- A scan from the front skips nothing. -/
theorem valid_of_scanned (hsd : m.scanned = 0)
    (hst : m.state ≠ .body (.chunked .trailer)) : m.Valid limits := by
  unfold Valid
  split
  · rw [hsd]
    exact ⟨Nat.zero_le _, fun j hj => absurd hj (Nat.not_lt_zero j)⟩
  · rw [hsd]
    exact ⟨Nat.zero_le _, fun j hj => absurd hj (Nat.not_lt_zero j)⟩
  · next hs => exact absurd hs hst
  · exact hsd
  · trivial

variable (h : m.Valid limits)
include h

theorem Valid.head (hst : m.state = .head) :
    m.scanned ≤ m.buf.length ∧ ∀ j < m.scanned - 3, ¬blankEndsAt m.buf j := by
  rw [Valid, hst] at h
  exact h

theorem Valid.size (hst : m.state = .body (.chunked .size)) :
    m.scanned ≤ m.buf.length ∧ ∀ j < m.scanned - 1, ¬CrlfAt m.buf j := by
  rw [Valid, hst] at h
  exact h

theorem Valid.trailer (hst : m.state = .body (.chunked .trailer)) :
    ∃ eol, findCrlf m.buf = some eol ∧ eol ≤ limits.max_chunk_line_bytes ∧
      chunkSize (m.buf.take eol) = some 0 := by
  rw [Valid, hst] at h
  exact h

theorem Valid.body {b : BodyState} (hst : m.state = .body b)
    (hsz : b ≠ .chunked .size) (htr : b ≠ .chunked .trailer) : m.scanned = 0 := by
  rw [Valid, hst] at h
  match b, h with
  | .length _, h => exact h
  | .untilClose, h => exact h
  | .chunked (.data _), h => exact h
  | .chunked .dataCrlf, h => exact h
  | .chunked .size, _ => exact absurd rfl hsz
  | .chunked .trailer, _ => exact absurd rfl htr

/-- The scan for a head finds the first blank line. -/
theorem Valid.blankFrom (hst : m.state = .head) :
    blankFrom m.buf (m.scanned - 3) = Http.blankFrom m.buf 0 := by
  have := scanBlankLine_fst (h.head hst).2
  unfold scanBlankLine at this
  cases hf : Http.blankFrom m.buf (m.scanned - 3) with
  | none => rwa [hf] at this
  | some n => rwa [hf] at this

/-- The scan for a chunk-size line finds the first end of a line. -/
theorem Valid.findCrlf (hst : m.state = .body (.chunked .size)) :
    findCrlfFrom m.buf (m.scanned - 1) = Http.findCrlf m.buf := by
  have := scanCrlf_fst (h.size hst).2
  unfold scanCrlf at this
  cases hf : findCrlfFrom m.buf (m.scanned - 1) with
  | none => rwa [hf] at this
  | some n => rwa [hf] at this

/-- More bytes change nothing in what was scanned. -/
theorem Valid.append (bytes : Bytes) : { m with buf := m.buf ++ bytes }.Valid limits := by
  have hlen : m.buf.length ≤ (m.buf ++ bytes).length :=
    (List.prefix_append m.buf bytes).length_le
  unfold Valid
  split
  · next hs =>
    obtain ⟨hle, hnn⟩ := h.head hs
    refine ⟨hle.trans hlen, fun j hj => ?_⟩
    dsimp only at hj
    rw [blankEndsAt_append (by omega)]
    exact hnn j hj
  · next hs =>
    obtain ⟨hle, hnn⟩ := h.size hs
    refine ⟨hle.trans hlen, fun j hj => ?_⟩
    dsimp only at hj
    rw [crlfAt_append (by omega)]
    exact hnn j hj
  · next hs =>
    obtain ⟨eol, hcf, hmax, hsz⟩ := h.trailer hs
    have := findCrlf_lt hcf
    refine ⟨eol, findCrlf_append hcf bytes, hmax, ?_⟩
    rw [List.take_append_of_le_length (by omega)]
    exact hsz
  · next b hsz htr hs => exact h.body hs hsz htr
  · trivial

end DirMachine

namespace Engine

/-- Both directions resume their scans where nothing was overlooked. -/
def Valid (e : Engine) : Prop := ∀ dir, (e.dir dir).Valid e.limits

variable {hp : Httparse} {e e' : Engine} {dir : Dir}

theorem valid_new (limits : EngineLimits) : (new limits).Valid := by
  intro dir
  cases dir with
  | request => exact DirMachine.valid_of_scanned rfl nofun
  | response => exact DirMachine.valid_of_scanned rfl nofun

theorem Valid.setDir (h : e.Valid) {m : DirMachine} (hm : m.Valid e.limits) :
    (e.setDir dir m).Valid := by
  intro d
  rw [limits_setDir]
  by_cases hd : d = dir
  · subst hd
    rwa [dir_setDir]
  · rw [dir_setDir_of_ne e hd]
    exact h d

/-- Once a head is framed, the next scan starts at the front. -/
theorem Framed.scanned {head : Head} {ev : EngineEvent} (h : Framed e head dir e' (.ok (some ev))) :
    (e'.dir dir).scanned = (e.dir dir).scanned ∧
      (e'.dir dir).state ≠ .body (.chunked .trailer) := by
  cases h with
  | request framing | response _ framing => cases framing <;> exact ⟨rfl, nofun⟩
  | upgrade | interim | connect => exact ⟨rfl, nofun⟩

/-- What a round leaves of its own direction is valid. -/
theorem Round.valid_self {r : Except HttpPoison Progress} (h : Round hp e dir e' r)
    (hdir : (e.dir dir).Valid e.limits) : (e'.dir dir).Valid e.limits := by
  cases h with
  | idle => exact hdir
  | restart => rw [dir_setDir]; exact DirMachine.valid_of_scanned rfl nofun
  | skip buf hst => rw [dir_setDir]; dsimp only; rw [hst]; trivial
  | preface | switch => rw [DirMachine.Valid, state_switchToTunnel]; trivial
  | waitHead scanned hst hsd =>
    rw [dir_setDir]
    rcases hsd with rfl | ⟨hnn, rfl⟩
    · exact hdir
    · rw [DirMachine.Valid]
      dsimp only
      rw [hst]
      refine ⟨le_rfl, fun j hj => ?_⟩
      by_cases hsk : j < (e.dir dir).scanned - 3
      · exact (hdir.head hst).2 j hsk
      · exact blankFrom_eq_none.mp hnn j (Nat.le_of_not_lt hsk) (by omega)
  | head hlen head _ _ hst _ _ _ hfd =>
    obtain ⟨hsd, htr⟩ := hfd.scanned
    refine DirMachine.valid_of_scanned ?_ htr
    rw [hsd, dir_setDir]
  | done hst =>
    rw [dir_setDir]
    refine DirMachine.valid_of_scanned (hdir.body hst nofun nofun) ?_
    split <;> nofun
  | span n scanned b next decoded hst _ _ hnx hsd =>
    rw [dir_setDir]
    refine DirMachine.valid_of_scanned ?_ (fun hs => hnx (DirState.body.inj hs))
    rcases hsd with rfl | ⟨rfl, hsz, htr⟩
    · rfl
    · rw [hdir.body hst hsz htr, Nat.zero_sub]
  | waitBody scanned b hst hsd =>
    rw [dir_setDir]
    rcases hsd with rfl | rfl | ⟨rfl, hnn, rfl⟩
    · exact hdir
    · have := hdir.trailer hst
      rw [DirMachine.Valid]
      rwa [hst]
    · rw [DirMachine.Valid]
      rw [hst]
      refine ⟨le_rfl, fun j hj => ?_⟩
      by_cases hsk : j < (e.dir dir).scanned - 1
      · exact (hdir.size hst).2 j hsk
      · exact findCrlfFrom_eq_none.mp hnn j (Nat.le_of_not_lt hsk)
  | lastChunk eol hst hsc hmax hsz =>
    rw [dir_setDir]
    rw [hdir.findCrlf hst] at hsc
    exact ⟨eol, hsc, hmax, hsz⟩
  | trailers => rw [dir_setDir]; exact DirMachine.valid_of_scanned rfl nofun
  | lost => rw [dir_setDir]; trivial

theorem Round.valid {r : Except HttpPoison Progress} (h : Round hp e dir e' r) (hv : e.Valid) :
    e'.Valid := by
  intro d
  rw [h.limits]
  by_cases hd : d = dir
  · subst hd
    exact h.valid_self (hv d)
  · rcases h.other hd with ⟨_, hsm⟩ | ⟨_, htn⟩
    · rw [hsm]
      exact hv d
    · rw [htn]
      trivial

variable {r : Except HttpPoison (Option EngineEvent)}

theorem Polled.valid_self (h : Polled hp dir e e' r)
    (hdir : (e.dir dir).Valid e.limits) : (e'.dir dir).Valid e'.limits := by
  induction h with
  | event hrn | wait hrn | lost hrn => exact hrn.limits ▸ hrn.valid_self hdir
  | again hrn _ ih => exact ih (hrn.limits ▸ hrn.valid_self hdir)

theorem Polled.valid (h : Polled hp dir e e' r) (hv : e.Valid) : e'.Valid := by
  induction h with
  | event hrn | wait hrn | lost hrn => exact hrn.valid hv
  | again hrn _ ih => exact ih (hrn.valid hv)

theorem Valid.push (h : e.Valid) (dir : Dir) (bytes : Bytes) : (e.push dir bytes).Valid := by
  rcases e.push_cases dir bytes with heq | heq
  · rwa [heq]
  · rw [heq]
    exact h.setDir ((h dir).append bytes)

/-- The end of a stream leaves nothing to scan. -/
theorem Valid.fin (h : e.Valid) (dir : Dir) : (e.fin dir).1.Valid := by
  rcases e.fin_cases dir with heq | ⟨_, _, m, hm, heq⟩
  · rwa [heq]
  · rw [heq]
    refine h.setDir ?_
    rw [DirMachine.Valid, hm]
    trivial

/-! ## Runs of the engine -/

/-- The engines that its operations lead to. -/
inductive Reach (hp : Httparse) (limits : EngineLimits) : Engine → Prop
  | new : Reach hp limits (new limits)
  | push {e : Engine} (h : Reach hp limits e) (dir : Dir) (bytes : Bytes) :
      Reach hp limits (e.push dir bytes)
  | poll {e : Engine} (h : Reach hp limits e) (dir : Dir) : Reach hp limits (e.poll hp dir).1
  | fin {e : Engine} (h : Reach hp limits e) (dir : Dir) : Reach hp limits (e.fin dir).1
  | resync {e : Engine} (h : Reach hp limits e) (dir : Dir) : Reach hp limits (e.resync dir)
  | reset {e : Engine} (h : Reach hp limits e) (dir : Dir) : Reach hp limits (e.reset dir)

theorem Reach.valid {limits : EngineLimits} (h : Reach hp limits e) : e.Valid := by
  induction h with
  | new => exact valid_new limits
  | push _ dir bytes ih => exact ih.push dir bytes
  | poll _ dir ih => exact (poll_polled hp _ dir).valid ih
  | fin _ dir ih => exact ih.fin dir
  | @resync e _ dir ih =>
    unfold Engine.resync
    split
    · exact ih
    · exact ih
    · exact ih.setDir trivial
  | @reset e _ dir ih =>
    have hnew : DirMachine.new.Valid e.limits := DirMachine.valid_of_scanned rfl nofun
    intro d
    cases dir with
    | request =>
      cases d with
      | request => exact hnew
      | response => exact ih .response
    | response =>
      cases d with
      | request => exact ih .request
      | response => exact hnew

/-- A poll says what it would say had nothing been scanned before. -/
theorem poll_rescans {limits : EngineLimits} (h : Reach hp limits e) (dir : Dir) :
    (e.poll hp dir).2 = ((e.setDir dir { e.dir dir with scanned := 0 }).poll hp dir).2 := by
  have hv := h.valid dir
  rw [poll_eq, poll_eq]
  unfold pollRound
  rw [dir_setDir]
  cases hst : (e.dir dir).state with
  | head =>
    simp only [pollHead, scanBlankLine, hv.blankFrom hst, dir_setDir, setDir_setDir]
    generalize (if dir = .request then _ else _ : PrefaceMatch) = pm
    cases pm <;> rfl
  | resync =>
    simp only [findHead, dir_setDir, setDir_setDir]
    generalize List.find? _ _ = found
    cases found <;> rfl
  | body b =>
    by_cases hsz : b = .chunked .size
    · subst hsz
      simp only [pollBody, pollChunked, scanCrlf, hv.findCrlf hst, ← findCrlfFrom_zero,
        dir_setDir, setDir_setDir]
    · by_cases htr : b = .chunked .trailer
      · subst htr
        simp only [pollBody, pollChunked, dir_setDir, setDir_setDir]
      · -- no other part of a body is scanned
        rw [← hv.body hst hsz htr, setDir_dir]
  | _ => rfl

/-- A head whose blank line is cut by a poll: the next one goes on three bytes before the cut, and says
what a scan from the start would. -/
theorem poll_rescans_cut :
    let head := ascii "GET / HTTP/1.1\r\n\r"
    let hp : Httparse := .ofTable [(head ++ [10], ⟨18, some (ascii "GET"), some (ascii "/"), none, none,
      some 1, []⟩)]
    let e := (((new {}).push .request head).poll hp .request).1.push .request [10]
    (e.dir .request).scanned = 17 ∧ (e.poll hp .request).2 =
      ((e.setDir .request { e.dir .request with scanned := 0 }).poll hp .request).2 := by
  intro head hp e
  have hreach : Reach hp {} e := .push (.poll (.push .new .request head) .request) .request [10]
  exact ⟨by decide +kernel, poll_rescans hreach .request⟩

end Engine

end Flowscope.Http
