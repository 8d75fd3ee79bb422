import Flowscope.Flow.Basic
import Flowscope.Http.Scan
import Flowscope.Lib.Bytes
import Flowscope.Lib.Utf8

/-!
# The cleartext part of an SSH handshake

`SshParser` (`src/ssh/session.rs`, `src/ssh/parser.rs`): on each side the line with the version, then
binary packets up to the one that switches to new keys. What a side sends is buffered until a line or
a packet is complete.

A line that begins like a version and is not UTF-8, and a packet whose padding does not fit into it,
are neither read nor dropped: the side keeps them at the head of its buffer, and everything that
follows behind them. `run_settled_iff` says that there is no other way in which a buffer grows without
bound or keeps what is complete.

The MD5 digest is a parameter.
-/

namespace Flowscope.Ssh

open List Nat
open Flowscope.Http (findCrlf findCrlf_lt findCrlf_append)

/-! ## The messages -/

/-- How a line with a version begins. -/
def versionBannerPrefix : Bytes := ascii "SSH-2.0-"

/-- The type of a `KEXINIT` packet. -/
def kexinitMessageByte : UInt8 := 20

/-- The type of the packet that switches to new keys. -/
def newkeysMessageByte : UInt8 := 21

/-- The algorithms that one side offers. Strings are their bytes. -/
structure SshKexInit where
  from_client : Bool
  kex_algorithms : List Bytes
  server_host_key_algorithms : List Bytes
  encryption_c2s : List Bytes
  encryption_s2c : List Bytes
  mac_c2s : List Bytes
  mac_s2c : List Bytes
  compression_c2s : List Bytes
  compression_s2c : List Bytes
  languages_c2s : List Bytes
  languages_s2c : List Bytes
  first_kex_packet_follows : Bool
  hassh : Bytes
deriving DecidableEq, Repr

/-- What is told of a connection. -/
inductive SshMessage where
  | banner (banner : Bytes)
  | kexInit (kex : SshKexInit)
  | encrypted
deriving DecidableEq, Repr

/-- Why a `KEXINIT` packet is not read. -/
inductive ParseError where
  | truncated (need have_ : ℕ)
  | invalidName
deriving DecidableEq, Repr

/-- Take a list of names, and its length, off the front. -/
def takeNameList (cursor : Bytes) : Except ParseError (List Bytes × Bytes) :=
  if cursor.length < 4 then .error (.truncated 4 cursor.length)
  else
    let len := beNat (cursor.take 4)
    if cursor.length < 4 + len then .error (.truncated (4 + len) cursor.length)
    else
      let raw := (cursor.drop 4).take len
      if Utf8.valid raw then
        .ok (if raw = [] then [] else raw.splitOn 44, cursor.drop (4 + len))
      else .error .invalidName

section

variable (md5 : Bytes → Bytes)

/-- A byte in lowercase hexadecimal. -/
def hexEncode (l : Bytes) : Bytes :=
  l.flatMap fun b => ascii (String.ofList (Nat.toDigits 16 (256 + b.toNat)).tail)

/-- The fingerprint of the algorithms of one direction. -/
def computeHassh (kex enc mac compression : List Bytes) : Bytes :=
  hexEncode (md5 ((ascii ";").intercalate
    ([kex, enc, mac, compression].map fun names => (ascii ",").intercalate names)))

/-- The payload of a `KEXINIT` packet behind its type. -/
def parseKexinitPayload (payload : Bytes) (from_client : Bool) : Except ParseError SshKexInit := do
  if payload.length < 16 then throw (.truncated 16 payload.length)
  let (kex_algorithms, cursor) ← takeNameList (payload.drop 16)
  let (server_host_key_algorithms, cursor) ← takeNameList cursor
  let (encryption_c2s, cursor) ← takeNameList cursor
  let (encryption_s2c, cursor) ← takeNameList cursor
  let (mac_c2s, cursor) ← takeNameList cursor
  let (mac_s2c, cursor) ← takeNameList cursor
  let (compression_c2s, cursor) ← takeNameList cursor
  let (compression_s2c, cursor) ← takeNameList cursor
  let (languages_c2s, cursor) ← takeNameList cursor
  let (languages_s2c, cursor) ← takeNameList cursor
  match cursor with
  | [] => throw (.truncated 1 0)
  | follows :: _ =>
    let hassh :=
      if from_client then computeHassh md5 kex_algorithms encryption_c2s mac_c2s compression_c2s
      else computeHassh md5 kex_algorithms encryption_s2c mac_s2c compression_s2c
    return {
      from_client, kex_algorithms, server_host_key_algorithms, encryption_c2s, encryption_s2c,
      mac_c2s, mac_s2c, compression_c2s, compression_s2c, languages_c2s, languages_s2c
      first_kex_packet_follows := follows ≠ 0
      hassh }

end

/-! ## One side -/

/-- How long a line with a version may be. -/
def MAX_BANNER : ℕ := 255

/-- How long a packet may be. -/
def MAX_PACKET_LEN : ℕ := 256 * 1024

/-- Take the line with the version, and what comes before it, off the front. -/
def extractBanner (buffer : Bytes) : Bytes × Option Bytes :=
  match h : findCrlf buffer with
  | none => (if MAX_BANNER < buffer.length then [] else buffer, none)
  | some eol =>
    if MAX_BANNER < eol then extractBanner (buffer.drop (eol + 2))
    else
      let line := buffer.take eol
      if ¬ versionBannerPrefix <+: line then extractBanner (buffer.drop (eol + 2))
      else if Utf8.valid line then (buffer.drop (eol + 2), some line)
      else (buffer, none)
termination_by buffer.length
decreasing_by
  all_goals
    have := findCrlf_lt h
    rw [List.length_drop]
    omega

/-- The length that the head of the buffer gives. -/
def packetLength (buffer : Bytes) : ℕ := beNat (buffer.take 4)

/-- The length of the padding that the head of the buffer gives. -/
def paddingLength (buffer : Bytes) : ℕ := beNat ((buffer.drop 4).take 1)

/-- Take a packet off the front. -/
def extractBinaryPacket (buffer : Bytes) : Bytes × Option Bytes :=
  if buffer.length < 5 then (buffer, none)
  else
    let packet_length := packetLength buffer
    if packet_length = 0 ∨ MAX_PACKET_LEN < packet_length then ([], none)
    else
      let total := 4 + packet_length
      if buffer.length < total then (buffer, none)
      -- the subtraction underflows
      else if packet_length < paddingLength buffer + 1 then (buffer, none)
      else
        let payload_len := packet_length - (paddingLength buffer + 1)
        (buffer.drop total, some ((buffer.drop 5).take payload_len))

/-- A packet at the head of the buffer is complete. -/
def CompletePacket (buffer : Bytes) : Prop :=
  5 ≤ buffer.length ∧ 4 + packetLength buffer ≤ buffer.length

/-- A packet at the head of the buffer is complete, and its padding does not fit into it. -/
def wedgedPacket (buffer : Bytes) : Bool :=
  5 ≤ buffer.length ∧ 4 + packetLength buffer ≤ buffer.length ∧ packetLength buffer ≠ 0 ∧
    packetLength buffer ≤ MAX_PACKET_LEN ∧ packetLength buffer < paddingLength buffer + 1

/-- What taking a packet off comes to. -/
theorem extractBinaryPacket_cases (buffer : Bytes) :
    (extractBinaryPacket buffer = (buffer, none) ∧ wedgedPacket buffer = false ∧
        ¬ CompletePacket buffer ∧ buffer.length < 4 + MAX_PACKET_LEN) ∨
      (extractBinaryPacket buffer = ([], none) ∧ wedgedPacket buffer = false) ∨
      (extractBinaryPacket buffer = (buffer, none) ∧ wedgedPacket buffer = true) ∨
      ∃ payload, extractBinaryPacket buffer = (buffer.drop (4 + packetLength buffer), some payload) ∧
        wedgedPacket buffer = false ∧ 5 ≤ buffer.length := by
  unfold extractBinaryPacket CompletePacket
  dsimp only
  split_ifs with hpadding
  · refine .inl ⟨rfl, decide_eq_false (by omega), by omega, ?_⟩
    unfold MAX_PACKET_LEN
    omega
  · exact .inr (.inl ⟨rfl, decide_eq_false (by omega)⟩)
  · exact .inl ⟨rfl, decide_eq_false (by omega), by omega, by omega⟩
  · exact .inr (.inr (.inl ⟨rfl, decide_eq_true (by omega)⟩))
  · exact .inr (.inr (.inr ⟨_, rfl, decide_eq_false (by omega), by omega⟩))

variable {buffer buffer' payload : Bytes}

/-- A packet that is taken off makes the buffer shorter. -/
theorem length_extractBinaryPacket
    (h : extractBinaryPacket buffer = (buffer', some payload)) : buffer'.length < buffer.length := by
  rcases extractBinaryPacket_cases buffer with ⟨htake, _⟩ | ⟨htake, _⟩ | ⟨htake, _⟩ | ⟨_, htake, _, hlen⟩
  all_goals
    rw [htake] at h
    cases h
  rw [length_drop]
  omega

/-- What is kept of a side. -/
structure SideState where
  buffer : Bytes
  banner_seen : Bool
  encrypted : Bool
deriving DecidableEq, Repr

section

variable (md5 : Bytes → Bytes) (from_client : Bool)

/-- What a packet before the new keys tells. -/
def messageOf (payload : Bytes) : List SshMessage :=
  match payload with
  | [] => []
  | msg_type :: body =>
    if msg_type = kexinitMessageByte then
      match parseKexinitPayload md5 body from_client with
      | .ok kex => [.kexInit kex]
      | .error _ => []
    else []

/-- A packet that switches to new keys. -/
def isNewkeys (payload : Bytes) : Bool := payload.head? = some newkeysMessageByte

/-- Take packets off the front, up to the one that switches to new keys. -/
def drainPackets (s : SideState) : SideState × List SshMessage :=
  match _h : extractBinaryPacket s.buffer with
  | (buffer, none) => ({ s with buffer := buffer }, [])
  | (buffer, some payload) =>
    if isNewkeys payload then ({ s with buffer := [], encrypted := true }, [.encrypted])
    else
      let (s', out) := drainPackets { s with buffer := buffer }
      (s', messageOf md5 from_client payload ++ out)
termination_by s.buffer.length
decreasing_by exact length_extractBinaryPacket _h

/-- Read all that is complete: the line with the version first, then packets. -/
def drainSide (s : SideState) : SideState × List SshMessage :=
  if s.encrypted then ({ s with buffer := [] }, [])
  else if s.banner_seen then drainPackets md5 from_client s
  else
    match extractBanner s.buffer with
    | (buffer, none) => ({ s with buffer := buffer }, [])
    | (buffer, some banner) =>
      let (s', out) := drainPackets md5 from_client { s with buffer := buffer, banner_seen := true }
      (s', .banner banner :: out)

end

/-- Both sides of a connection. -/
abbrev SshParser : Type := Sides SideState

/-- Nothing was fed. -/
def SshParser.new : SshParser := .both ⟨[], false, false⟩

/-- `feed_initiator` and `feed_responder`. -/
def SshParser.feed (md5 : Bytes → Bytes) (p : SshParser) (side : FlowSide) (bytes : Bytes) :
    SshParser × List SshMessage :=
  let s := p.get side
  let (s', out) := drainSide md5 (side = .initiator) { s with buffer := s.buffer ++ bytes }
  (p.set side s', out)

/-! ## What a side can read -/

/-- A line at the head of the buffer begins like a version, and is not UTF-8. -/
def wedgedBanner (buffer : Bytes) : Bool :=
  match findCrlf buffer with
  | none => false
  | some eol => eol ≤ MAX_BANNER ∧ versionBannerPrefix <+: buffer.take eol ∧
      Utf8.valid (buffer.take eol) = false

/-- What such a line is. -/
theorem wedgedBanner_iff : wedgedBanner buffer = true ↔
    ∃ eol, findCrlf buffer = some eol ∧ eol ≤ MAX_BANNER ∧
      versionBannerPrefix <+: buffer.take eol ∧ Utf8.valid (buffer.take eol) = false := by
  unfold wedgedBanner
  cases findCrlf buffer with
  | none => simp
  | some eol => simp

/-- All packets up to the one that switches to new keys can be read. -/
def legiblePackets (buffer : Bytes) : Bool :=
  if wedgedPacket buffer then false
  else
    match _h : extractBinaryPacket buffer with
    | (_, none) => true
    | (buffer', some payload) => isNewkeys payload || legiblePackets buffer'
termination_by buffer.length
decreasing_by exact length_extractBinaryPacket _h

/-- The line with the version and the packets behind it can be read. -/
def legibleBanner (buffer : Bytes) : Bool :=
  match h : findCrlf buffer with
  | none => true
  | some eol =>
    if MAX_BANNER < eol ∨ ¬ versionBannerPrefix <+: buffer.take eol then
      legibleBanner (buffer.drop (eol + 2))
    else Utf8.valid (buffer.take eol) && legiblePackets (buffer.drop (eol + 2))
termination_by buffer.length
decreasing_by
  have := findCrlf_lt h
  rw [List.length_drop]
  omega

/-- What is buffered of a side can be read. -/
def SideState.legible (s : SideState) : Bool :=
  if s.encrypted then true
  else if s.banner_seen then legiblePackets s.buffer
  else legibleBanner s.buffer

/-- The head of a side's buffer is complete and cannot be read. -/
def SideState.wedged (s : SideState) : Bool :=
  !s.encrypted && if s.banner_seen then wedgedPacket s.buffer else wedgedBanner s.buffer

/-- A side has read all that is complete, and buffers no more than a packet. -/
structure SideState.Settled (s : SideState) : Prop where
  bounded : s.buffer.length < 4 + MAX_PACKET_LEN
  banner : s.encrypted = false → s.banner_seen = false → findCrlf s.buffer = none
  packet : s.encrypted = false → s.banner_seen = true → ¬ CompletePacket s.buffer

/-- Where no packet is taken off, all packets can be read. -/
theorem legiblePackets_of_none (hw : wedgedPacket buffer = false)
    (h : extractBinaryPacket buffer = (buffer', none)) : legiblePackets buffer = true := by
  rw [legiblePackets, if_neg (Bool.eq_false_iff.mp hw)]
  split
  · rfl
  · rename_i h'
    cases h.symm.trans h'

/-- Where one is taken off, the rest decides. -/
theorem legiblePackets_of_some (hw : wedgedPacket buffer = false)
    (h : extractBinaryPacket buffer = (buffer', some payload)) :
    legiblePackets buffer = (isNewkeys payload || legiblePackets buffer') := by
  rw [legiblePackets, if_neg (Bool.eq_false_iff.mp hw)]
  split
  · rename_i h'
    cases h.symm.trans h'
  · rename_i h'
    cases h.symm.trans h'
    rfl

section

variable (md5 : Bytes → Bytes) (from_client : Bool)

/-- No packet is complete. -/
theorem drainPackets_of_none {s : SideState} {buffer : Bytes}
    (h : extractBinaryPacket s.buffer = (buffer, none)) :
    drainPackets md5 from_client s = ({ s with buffer := buffer }, []) := by
  rw [drainPackets]
  split
  · rename_i h'
    cases h.symm.trans h'
    rfl
  · rename_i h'
    cases h.symm.trans h'

/-- A packet is complete: it switches to new keys, or the loop goes on. -/
theorem drainPackets_of_some {s : SideState} {buffer payload : Bytes}
    (h : extractBinaryPacket s.buffer = (buffer, some payload)) :
    (drainPackets md5 from_client s).1 =
      if isNewkeys payload then { s with buffer := [], encrypted := true }
      else (drainPackets md5 from_client { s with buffer := buffer }).1 := by
  rw [drainPackets]
  split
  · rename_i h'
    cases h.symm.trans h'
  · rename_i h'
    cases h.symm.trans h'
    split_ifs <;> rfl

/-- Draining the packets of a side ends settled or wedged, by whether they could be read. -/
theorem drainPackets_settled (s : SideState) (hs : s.encrypted = false ∧ s.banner_seen = true) :
    (legiblePackets s.buffer = true ∧ (drainPackets md5 from_client s).1.Settled) ∨
      (legiblePackets s.buffer = false ∧ (drainPackets md5 from_client s).1.wedged = true) := by
  induction hn : s.buffer.length using Nat.strong_induction_on generalizing s with
  | _ n ih =>
    obtain ⟨henc, hseen⟩ := hs
    rcases extractBinaryPacket_cases s.buffer with ⟨htake, hw, hpacket, hlen⟩ | ⟨htake, hw⟩ | ⟨htake, hw⟩ |
      ⟨payload, htake, hw, hlen⟩
    · -- nothing complete
      rw [legiblePackets_of_none hw htake, drainPackets_of_none md5 from_client htake]
      exact .inl ⟨rfl, hlen, fun _ hnot => absurd (hseen.symm.trans hnot) nofun, fun _ _ => hpacket⟩
    · -- an impossible length: the buffer is cleared
      rw [legiblePackets_of_none hw htake, drainPackets_of_none md5 from_client htake]
      refine .inl ⟨rfl, zero_lt_of_ne_zero nofun, fun _ _ => rfl, fun _ _ => ?_⟩
      exact fun hpacket => not_succ_le_zero _ hpacket.1
    · -- an impossible padding
      rw [legiblePackets, if_pos hw, drainPackets_of_none md5 from_client htake]
      refine .inr ⟨rfl, ?_⟩
      rw [henc, hseen]
      exact hw
    · rw [legiblePackets_of_some hw htake, drainPackets_of_some md5 from_client htake]
      cases isNewkeys payload with
      | true => exact .inl ⟨rfl, zero_lt_of_ne_zero nofun, nofun, nofun⟩
      | false =>
        have hlt := length_extractBinaryPacket htake
        exact ih _ (hn ▸ hlt) { s with buffer := _ } ⟨henc, hseen⟩ rfl

end

/-- A line is complete: it is skipped, or it is the version. -/
theorem legibleBanner_of_some {eol : ℕ} (h : findCrlf buffer = some eol) :
    legibleBanner buffer =
      if MAX_BANNER < eol ∨ ¬ versionBannerPrefix <+: buffer.take eol then
        legibleBanner (buffer.drop (eol + 2))
      else Utf8.valid (buffer.take eol) && legiblePackets (buffer.drop (eol + 2)) := by
  rw [legibleBanner]
  split
  · rename_i h'
    cases h.symm.trans h'
  · rename_i h'
    cases h.symm.trans h'
    rfl

/-- A line with a version was taken off: what follows decides whether the side can be read. -/
theorem extractBanner_some {line : Bytes} (h : extractBanner buffer = (buffer', some line)) :
    legibleBanner buffer = legiblePackets buffer' := by
  fun_induction extractBanner buffer with
  | case1 buffer hnone => cases h
  | case2 buffer eol hline hlong ih =>
    rw [legibleBanner_of_some hline, if_pos (.inl hlong)]
    exact ih h
  | case3 buffer eol hline hshort line hother ih =>
    rw [legibleBanner_of_some hline, if_pos (.inr hother)]
    exact ih h
  | case4 buffer eol hline hshort line hbegins hvalid =>
    rw [legibleBanner_of_some hline, if_neg (not_or.mpr ⟨hshort, hbegins⟩), hvalid, Bool.true_and,
      (Prod.mk.inj h).1]
  | case5 buffer eol hline hshort line hbegins hvalid => cases h

/-- No line with a version was taken off: there is no complete line, or one that cannot be read. -/
theorem extractBanner_none (h : extractBanner buffer = (buffer', none)) :
    (legibleBanner buffer = true ∧ findCrlf buffer' = none ∧ buffer'.length ≤ MAX_BANNER) ∨
      (legibleBanner buffer = false ∧ wedgedBanner buffer' = true) := by
  fun_induction extractBanner buffer with
  | case1 buffer hnone =>
    have hlegible : legibleBanner buffer = true := by
      rw [legibleBanner]
      split
      · rfl
      · rename_i h'
        cases hnone.symm.trans h'
    cases h
    split_ifs with hlong
    · exact .inl ⟨hlegible, rfl, zero_le _⟩
    · exact .inl ⟨hlegible, hnone, Nat.le_of_not_lt hlong⟩
  | case2 buffer eol hline hlong ih =>
    rw [legibleBanner_of_some hline, if_pos (.inl hlong)]
    exact ih h
  | case3 buffer eol hline hshort line hother ih =>
    rw [legibleBanner_of_some hline, if_pos (.inr hother)]
    exact ih h
  | case4 buffer eol hline hshort line hbegins hvalid => cases h
  | case5 buffer eol hline hshort line hbegins hvalid =>
    have hinvalid : Utf8.valid (buffer.take eol) = false := Bool.eq_false_iff.mpr hvalid
    rw [← (Prod.mk.inj h).1]
    refine .inr ⟨?_, ?_⟩
    · rw [legibleBanner_of_some hline, if_neg (not_or.mpr ⟨hshort, hbegins⟩), hinvalid, Bool.false_and]
    · exact wedgedBanner_iff.mpr
        ⟨eol, hline, Nat.le_of_not_lt hshort, not_not.mp hbegins, hinvalid⟩

section

variable (md5 : Bytes → Bytes) (from_client : Bool)

/-- Draining a side ends settled or wedged, by whether what was buffered could be read. -/
theorem drainSide_settled (s : SideState) :
    (s.legible = true ∧ (drainSide md5 from_client s).1.Settled) ∨
      (s.legible = false ∧ (drainSide md5 from_client s).1.wedged = true) := by
  rw [drainSide, SideState.legible]
  split_ifs with henc hseen
  · refine .inl ⟨rfl, zero_lt_of_ne_zero nofun, fun h => ?_, fun h => ?_⟩
    all_goals exact absurd henc (Bool.eq_false_iff.mp h)
  · exact drainPackets_settled md5 from_client s ⟨Bool.eq_false_iff.mpr henc, hseen⟩
  split
  · rename_i buffer htake
    rcases extractBanner_none htake with ⟨hlegible, hcrlf, hlen⟩ | ⟨hlegible, hwedged⟩
    · refine .inl ⟨hlegible, ?_, fun _ _ => hcrlf, fun _ h => absurd h hseen⟩
      exact lt_of_le_of_lt hlen (by decide)
    · refine .inr ⟨hlegible, ?_⟩
      rw [Bool.eq_false_iff.mpr henc, Bool.eq_false_iff.mpr hseen]
      exact hwedged
  · rename_i buffer banner htake
    rw [extractBanner_some htake]
    exact drainPackets_settled md5 from_client { s with buffer := buffer, banner_seen := true }
      ⟨Bool.eq_false_iff.mpr henc, rfl⟩

variable {s : SideState}

/-- A wedged side has not read what is complete. -/
theorem SideState.Settled.wedged_eq_false (h : s.Settled) : s.wedged = false := by
  rw [SideState.wedged]
  cases henc : s.encrypted with
  | true => rfl
  | false =>
    cases hseen : s.banner_seen with
    | true =>
      have hnot := h.packet henc hseen
      have hw : wedgedPacket s.buffer = false :=
        decide_eq_false fun ⟨hlen, htotal, _⟩ => hnot ⟨hlen, htotal⟩
      rw [hw]
      rfl
    | false =>
      have hw : wedgedBanner s.buffer = false := by rw [wedgedBanner, h.banner henc hseen]
      rw [hw]
      rfl

/-- What was buffered could be read just if the side is settled afterwards. -/
theorem drainSide_settled_iff (s : SideState) :
    (drainSide md5 from_client s).1.Settled ↔ s.legible = true := by
  rcases drainSide_settled md5 from_client s with ⟨hlegible, hsettled⟩ | ⟨hlegible, hwedged⟩
  · exact ⟨fun _ => hlegible, fun _ => hsettled⟩
  · refine ⟨fun hsettled => ?_, fun h => absurd (hlegible.symm.trans h) nofun⟩
    exact absurd (hwedged.symm.trans hsettled.wedged_eq_false) nofun

/-! ## A wedged side -/

/-- More bytes do not mend the line. -/
theorem wedgedBanner_append {buffer : Bytes} (h : wedgedBanner buffer = true) (x : Bytes) :
    wedgedBanner (buffer ++ x) = true := by
  obtain ⟨eol, hcrlf, hbad⟩ := wedgedBanner_iff.mp h
  have hlt := findCrlf_lt hcrlf
  refine wedgedBanner_iff.mpr ⟨eol, findCrlf_append hcrlf x, ?_⟩
  rwa [take_append_of_le_length (by omega)]

/-- More bytes do not mend the packet. -/
theorem wedgedPacket_append {buffer : Bytes} (h : wedgedPacket buffer = true) (x : Bytes) :
    wedgedPacket (buffer ++ x) = true := by
  obtain ⟨hlen, htotal, hpos, hmax, hpadding⟩ := of_decide_eq_true h
  have hpacket : packetLength (buffer ++ x) = packetLength buffer := by
    rw [packetLength, take_append_of_le_length (by omega), packetLength]
  have hpad : paddingLength (buffer ++ x) = paddingLength buffer := by
    rw [paddingLength, drop_append_of_le_length (by omega),
      take_append_of_le_length (by rw [length_drop]; omega), paddingLength]
  apply decide_eq_true
  rw [hpacket, hpad, length_append]
  exact ⟨le_add_right_of_le hlen, le_add_right_of_le htotal, hpos, hmax, hpadding⟩

/-- A wedged side reads nothing. -/
theorem drainSide_of_wedged (h : s.wedged = true) : drainSide md5 from_client s = (s, []) := by
  rw [SideState.wedged, Bool.and_eq_true, Bool.not_eq_true'] at h
  rw [drainSide, if_neg (Bool.eq_false_iff.mp h.1)]
  split_ifs at h with hseen
  · rw [if_pos hseen]
    have htake : extractBinaryPacket s.buffer = (s.buffer, none) := by
      rcases extractBinaryPacket_cases s.buffer with ⟨htake, _⟩ | ⟨_, hw⟩ | ⟨htake, _⟩ | ⟨_, _, hw, _⟩
      · exact htake
      · exact absurd (h.2.symm.trans hw) nofun
      · exact htake
      · exact absurd (h.2.symm.trans hw) nofun
    exact drainPackets_of_none md5 from_client htake
  · rw [if_neg hseen]
    have htake : extractBanner s.buffer = (s.buffer, none) := by
      obtain ⟨eol, hcrlf, hshort, hbegins, hinvalid⟩ := wedgedBanner_iff.mp h.2
      rw [extractBanner]
      split
      · rename_i hnone
        cases hnone.symm.trans hcrlf
      · rename_i hline
        cases hline.symm.trans hcrlf
        rw [if_neg (Nat.not_lt_of_le hshort)]
        rw [if_neg (not_not.mpr hbegins), if_neg (Bool.eq_false_iff.mp hinvalid)]
    rw [htake]

/-- Whatever a wedged side is fed is added to its buffer, and it stays wedged. -/
theorem SideState.wedged_append (h : s.wedged = true) (x : Bytes) :
    { s with buffer := s.buffer ++ x }.wedged = true := by
  rw [wedged, Bool.and_eq_true] at h ⊢
  refine ⟨h.1, ?_⟩
  split_ifs at h ⊢ with hseen
  · exact wedgedPacket_append h.2 x
  · exact wedgedBanner_append h.2 x

end

/-! ## Runs -/

namespace SshParser

variable (md5 : Bytes → Bytes)

/-- What a side has buffered, with more bytes behind it, can be read. -/
def legible (p : SshParser) (side : FlowSide) (bytes : Bytes) : Bool :=
  { p.get side with buffer := (p.get side).buffer ++ bytes }.legible

/-- A run of feeds. -/
def run (p : SshParser) (feeds : List (FlowSide × Bytes)) : SshParser :=
  feeds.foldl (fun p f => (p.feed md5 f.1 f.2).1) p

/-- Everything that a run feeds can be read. -/
def Legible : SshParser → List (FlowSide × Bytes) → Prop
  | _, [] => True
  | p, f :: feeds => p.legible f.1 f.2 = true ∧ Legible (p.feed md5 f.1 f.2).1 feeds

/-- Both sides are settled. -/
def Settled (p : SshParser) : Prop := ∀ side, (p.get side).Settled

/-- So they are in the beginning. -/
theorem settled_new : new.Settled := by
  intro side
  rw [new, Sides.get_both]
  exact ⟨by decide, fun _ _ => rfl, nofun⟩

variable {p : SshParser}

/-- One feed leaves both sides settled if it could be read. -/
theorem settled_feed_iff (h : p.Settled) (side : FlowSide) (bytes : Bytes) :
    (p.feed md5 side bytes).1.Settled ↔ p.legible side bytes = true := by
  rw [legible, ← drainSide_settled_iff md5 (side = .initiator)]
  constructor
  · intro hfed
    have hside := hfed side
    rwa [feed, Sides.get_set] at hside
  · intro hside side'
    by_cases heq : side' = side
    · rw [heq, feed, Sides.get_set]
      exact hside
    · rw [feed, Sides.get_set_of_ne _ heq]
      exact h side'

/-- The induction is on the feeds, with one feed by `settled_feed_iff`. -/
theorem settled_run_iff (h : p.Settled) (feeds : List (FlowSide × Bytes)) :
    (∀ n, (p.run md5 (feeds.take n)).Settled) ↔ p.Legible md5 feeds := by
  induction feeds generalizing p with
  | nil =>
    refine ⟨fun _ => trivial, fun _ n => ?_⟩
    rw [take_nil]
    exact h
  | cons f feeds ih =>
    have hone := settled_feed_iff md5 h f.1 f.2
    constructor
    · intro hall
      have hfed := hall 1
      exact ⟨hone.mp hfed, (ih hfed).mp fun n => hall (n + 1)⟩
    · rintro ⟨hlegible, hrest⟩ n
      have hfed := hone.mpr hlegible
      cases n with
      | zero => exact h
      | succ n => exact (ih hfed).mpr hrest n

/-- Both sides buffer no more than a packet and have read all that is complete, at all times, if
everything that they are fed can be read, and only then. -/
theorem run_settled_iff (feeds : List (FlowSide × Bytes)) :
    (∀ n, (new.run md5 (feeds.take n)).Settled) ↔ new.Legible md5 feeds :=
  settled_run_iff md5 settled_new feeds

example : new.legible .initiator (ascii "SSH-2.0-x\r\n" ++ [0, 0, 0, 6, 4, 21, 0, 0, 0, 0]) = true := by
  decide +kernel

variable {side : FlowSide}

/-- What a wedged side is fed is kept, and nothing is told. -/
theorem feed_of_wedged (h : (p.get side).wedged = true) (bytes : Bytes) : p.feed md5 side bytes =
      (p.set side { p.get side with buffer := (p.get side).buffer ++ bytes }, []) := by
  rw [feed]
  rw [drainSide_of_wedged md5 _ (SideState.wedged_append h bytes)]

/-- A wedged side can be made to buffer any amount. -/
theorem unbounded_of_wedged (h : (p.get side).wedged = true)
    (bound : ℕ) : ∃ bytes, bound < ((p.feed md5 side bytes).1.get side).buffer.length := by
  refine ⟨replicate (bound + 1) 0, ?_⟩
  rw [feed_of_wedged md5 h, Sides.get_set, length_append, length_replicate]
  omega

/-- A line `SSH-2.0-` with a byte behind it that is not UTF-8, and a packet of length 1 with a padding
of 1: what follows them is buffered without bound. -/
theorem wedged_line_and_packet :
    (¬ ∃ bound, ∀ bytes, (((new.run id [(.initiator, ascii "SSH-2.0-" ++ [0xFF, 13, 10])]).feed id
        .initiator bytes).1.get .initiator).buffer.length ≤ bound) ∧
      ¬ ∃ bound, ∀ bytes, (((new.run id [(.responder, ascii "SSH-2.0-x\r\n"),
        (.responder, [0, 0, 0, 1, 1])]).feed id .responder bytes).1.get .responder).buffer.length ≤
          bound := by
  constructor
  · rintro ⟨bound, hall⟩
    have hwedged : ((new.run id [(.initiator, ascii "SSH-2.0-" ++ [0xFF, 13, 10])]).get
      .initiator).wedged = true := by decide +kernel
    obtain ⟨bytes, hlt⟩ := unbounded_of_wedged id hwedged bound
    exact absurd (hall bytes) (Nat.not_le_of_lt hlt)
  · rintro ⟨bound, hall⟩
    have hwedged : ((new.run id [(.responder, ascii "SSH-2.0-x\r\n"),
      (.responder, [0, 0, 0, 1, 1])]).get .responder).wedged = true := by decide +kernel
    obtain ⟨bytes, hlt⟩ := unbounded_of_wedged id hwedged bound
    exact absurd (hall bytes) (Nat.not_le_of_lt hlt)

end SshParser

end Flowscope.Ssh
