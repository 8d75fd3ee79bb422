import Flowscope.Lib.Bytes
import Mathlib.Data.Finset.Insert
import Mathlib.Data.Finset.Lattice.Basic

/-!
# Passive TCP fingerprints

`fingerprint_from_layers` (`src/tcp_fingerprint/fingerprint.rs`) describes the TCP options of a
handshake packet. It walks them by kind and length (`TcpOptionsIter`, `src/layers/transport.rs`), but
looks for the bytes after the end of the list with a scan of its own: behind the first zero byte of the
options, be that byte the end of the list or part of an option.

`Wire` says what bytes a list of options has. `collect_wire` and `exists_wire` connect the walk with it.
-/

namespace Flowscope.Tcp

open List

/-! ## The options -/

inductive TcpOption where
  | endOfList
  | nop
  | mss (m : ℕ)
  | windowScale (w : UInt8)
  | sackPermitted
  | sack (data : Bytes)
  | timestamp (tsval tsecr : ℕ)
  | unknown (kind : UInt8) (data : Bytes)
deriving DecidableEq

/-- The option of this kind with this data. -/
def decodeOption (kind : UInt8) (data : Bytes) : TcpOption :=
  if kind = 2 ∧ data.length = 2 then .mss (beNat data)
  else if kind = 3 ∧ data.length = 1 then .windowScale (data.headD 0)
  else if kind = 4 ∧ data.length = 0 then .sackPermitted
  else if kind = 5 then .sack data
  else if kind = 8 ∧ data.length = 8 then .timestamp (beNat (data.take 4)) (beNat (data.drop 4))
  else .unknown kind data

/-- `TcpOptionsIter::next`: an option and the bytes that are left. -/
def next : Bytes → Option (TcpOption × Bytes)
  | [] => none
  | kind :: raw =>
    if kind = 0 then some (.endOfList, [])
    else if kind = 1 then some (.nop, raw)
    else match raw with
      | [] => none
      | len :: raw =>
        if len.toNat < 2 ∨ raw.length + 2 < len.toNat then none
        else some (decodeOption kind (raw.take (len.toNat - 2)), raw.drop (len.toNat - 2))

/-- What the iterator yields. Every option takes a byte at least. -/
def collect : ℕ → Bytes → List TcpOption
  | 0, _ => []
  | fuel + 1, raw =>
    match next raw with
    | none => []
    | some (opt, rest) => opt :: collect fuel rest

/-- A TCP header and its payload. -/
structure TcpSlice where
  raw : Bytes
  header_len : ℕ
  header_len_ge : 20 ≤ header_len
  header_len_le : header_len ≤ raw.length

namespace TcpSlice

variable (tcp : TcpSlice)

def header : Bytes := tcp.raw.take tcp.header_len
def optionBytes : Bytes := tcp.header.drop 20
def options : List TcpOption := collect tcp.optionBytes.length tcp.optionBytes
def field (start len : ℕ) : ℕ := beNat ((tcp.raw.drop start).take len)
def flag (mask : ℕ) : Bool := tcp.field 13 1 &&& mask ≠ 0

end TcpSlice

/-! ## The fingerprint -/

inductive Quirk where
  | df | idNonzeroWithDf | idZeroNoDf | ecn | reservedFlags | seqZero | ackNonzeroOnSyn
  | urgPtrNonzero | urgFlagOnSyn | pshFlagOnSyn | optTrailingNonzero
deriving DecidableEq

def quirkIf (c : Bool) (q : Quirk) : Finset Quirk := if c then {q} else ∅

inductive TcpDirection where
  | syn
  | synAck

structure Ipv4Slice where
  ttl : UInt8
  df : Bool
  identification : ℕ

structure Ipv6Slice where
  hop_limit : UInt8

/-- The layers of a packet that a fingerprint is taken from. -/
structure Layers where
  tcp : Option TcpSlice
  ipv4 : Option Ipv4Slice
  ipv6 : Option Ipv6Slice

structure TcpFingerprint where
  direction : TcpDirection
  ip_version : ℕ
  observed_ttl : UInt8
  guessed_initial_ttl : UInt8
  options_length : ℕ
  df : Bool
  window_size : ℕ
  mss : Option ℕ
  window_scale : Option UInt8
  sack_permitted : Bool
  timestamps : Bool
  option_layout : String
  quirks : Finset Quirk

def guessInitialTtl (observed : UInt8) : UInt8 :=
  if observed ≤ 32 then 32 else if observed ≤ 64 then 64 else if observed ≤ 128 then 128 else 255

def TcpOption.token : TcpOption → String
  | .endOfList => "eol"
  | .nop => "nop"
  | .mss _ => "mss"
  | .windowScale _ => "ws"
  | .sackPermitted => "sok"
  | .sack _ => "sack"
  | .timestamp _ _ => "ts"
  | .unknown kind _ => "?" ++ toString kind.toNat

def push (layout token : String) : String :=
  (if layout.isEmpty then layout else layout ++ ",") ++ token

/-- Is there a byte that is not zero behind the first zero byte of the options? -/
def headerTailNonzero (header : Bytes) : Bool :=
  ((header.drop 20).dropWhile (· ≠ 0)).tail.any (· ≠ 0)

/-- What the loop of `walk_options` has found. -/
structure OptionWalk where
  layout : String := ""
  mss : Option ℕ := none
  window_scale : Option UInt8 := none
  sack_permitted : Bool := false
  timestamps : Bool := false
  nonzero_after_eol : Bool := false

def OptionWalk.see (w : OptionWalk) (opt : TcpOption) : OptionWalk :=
  let w := { w with layout := push w.layout opt.token }
  match opt with
  | .mss m => { w with mss := some m }
  | .windowScale scale => { w with window_scale := some scale }
  | .sackPermitted => { w with sack_permitted := true }
  | .timestamp _ _ => { w with timestamps := true }
  | _ => w

def walkLoop (header : Bytes) : OptionWalk → List TcpOption → OptionWalk
  | w, [] => w
  | w, opt :: opts =>
    let w := w.see opt
    if opt = .endOfList then
      { w with nonzero_after_eol := w.nonzero_after_eol || headerTailNonzero header }
    else walkLoop header w opts

def walkOptions (tcp : TcpSlice) : OptionWalk := walkLoop tcp.header {} tcp.options

/-- What the IP header contributes. -/
structure IpView where
  ip_version : ℕ
  observed_ttl : UInt8
  df : Bool
  ip_id_nonzero : Bool

def Layers.ip (layers : Layers) : Option IpView :=
  match layers.ipv4 with
  | some v4 => some ⟨4, v4.ttl, v4.df, v4.identification ≠ 0⟩
  | none => layers.ipv6.map fun v6 => ⟨6, v6.hop_limit, false, false⟩

def fingerprint (tcp : TcpSlice) (ip : IpView) : TcpFingerprint :=
  let walk := walkOptions tcp
  { direction := if tcp.flag 0x10 then .synAck else .syn
    ip_version := ip.ip_version
    observed_ttl := ip.observed_ttl
    guessed_initial_ttl := guessInitialTtl ip.observed_ttl
    options_length := min (tcp.header.length - 20) 255
    df := ip.df
    window_size := tcp.field 14 2
    mss := walk.mss
    window_scale := walk.window_scale
    sack_permitted := walk.sack_permitted
    timestamps := walk.timestamps
    option_layout := walk.layout
    quirks :=
      quirkIf ip.df .df ∪ quirkIf (ip.ip_version = 4 && ip.df && ip.ip_id_nonzero) .idNonzeroWithDf ∪
      quirkIf (ip.ip_version = 4 && !ip.df && !ip.ip_id_nonzero) .idZeroNoDf ∪
      quirkIf (tcp.flag 0x40 || tcp.flag 0x80) .ecn ∪
      quirkIf (tcp.field 12 1 &&& 1 ≠ 0) .reservedFlags ∪
      quirkIf (tcp.field 4 4 = 0) .seqZero ∪
      quirkIf (!tcp.flag 0x10 && tcp.field 8 4 ≠ 0) .ackNonzeroOnSyn ∪
      quirkIf (tcp.field 18 2 ≠ 0 && !tcp.flag 0x20) .urgPtrNonzero ∪
      quirkIf (tcp.flag 0x20) .urgFlagOnSyn ∪ quirkIf (tcp.flag 0x08) .pshFlagOnSyn ∪
      quirkIf walk.nonzero_after_eol .optTrailingNonzero }

def fingerprintFromLayers (layers : Layers) : Option TcpFingerprint := do
  let tcp ← layers.tcp
  if !tcp.flag 0x02 || tcp.flag 0x04 || tcp.flag 0x01 then none
  else return fingerprint tcp (← layers.ip)

/-! ## The walk over the options -/

/-- The bytes of options, none of which ends the list. -/
inductive Wire : Bytes → List TcpOption → Prop
  | nil : Wire [] []
  | nop {w opts} : Wire w opts → Wire (1 :: w) (.nop :: opts)
  | sized {w opts} (kind len : UInt8) (data : Bytes) : 2 ≤ kind → len.toNat = data.length + 2 →
      Wire w opts → Wire (kind :: len :: (data ++ w)) (decodeOption kind data :: opts)

variable {w raw tail : Bytes} {opts : List TcpOption}

theorem decodeOption_ne_endOfList (kind : UInt8) (data : Bytes) :
    decodeOption kind data ≠ .endOfList := by
  unfold decodeOption
  split_ifs <;> exact TcpOption.noConfusion

theorem Wire.not_mem (h : Wire w opts) : TcpOption.endOfList ∉ opts := by
  induction h with
  | nil => exact not_mem_nil
  | nop _ ih => exact not_mem_cons_of_ne_of_not_mem TcpOption.noConfusion ih
  | sized kind len data _ _ _ ih =>
    exact not_mem_cons_of_ne_of_not_mem (decodeOption_ne_endOfList kind data).symm ih

/-- A kind with a length behind it. -/
theorem two_le {kind : UInt8} : 2 ≤ kind ↔ kind ≠ 0 ∧ kind ≠ 1 := by
  grind

/-- An option with a length is read whole. -/
theorem next_sized {kind len : UInt8} {data : Bytes} (hk : 2 ≤ kind)
    (hl : len.toNat = data.length + 2) :
    next (kind :: len :: (data ++ raw)) = some (decodeOption kind data, raw) := by
  obtain ⟨h0, h1⟩ := two_le.mp hk
  have hfit : ¬ (data.length + 2 < 2 ∨ (data ++ raw).length + 2 < data.length + 2) := by
    rw [length_append]
    omega
  simp only [next, if_neg h0, if_neg h1, hl, if_neg hfit, Nat.add_sub_cancel, take_left, drop_left]

/-- The walk passes the options and goes on behind them. -/
theorem collect_wire (h : Wire w opts) {fuel : ℕ} (hf : (w ++ raw).length ≤ fuel) :
    ∃ fuel', raw.length ≤ fuel' ∧ collect fuel (w ++ raw) = opts ++ collect fuel' raw := by
  induction h generalizing fuel with
  | nil => exact ⟨fuel, hf, rfl⟩
  | nop _ ih =>
    obtain ⟨fuel, rfl⟩ := Nat.exists_eq_add_one.mpr (Nat.zero_lt_of_lt hf)
    obtain ⟨fuel', hle, heq⟩ := ih (Nat.le_of_succ_le_succ hf)
    exact ⟨fuel', hle, congrArg _ heq⟩
  | @sized w opts kind len data hk hl _ ih =>
    obtain ⟨fuel, rfl⟩ := Nat.exists_eq_add_one.mpr (Nat.zero_lt_of_lt hf)
    have hf' : (w ++ raw).length ≤ fuel := by
      simp only [length_cons, length_append] at hf ⊢
      omega
    obtain ⟨fuel', hle, heq⟩ := ih hf'
    refine ⟨fuel', hle, ?_⟩
    rw [cons_append, cons_append, append_assoc, collect, next_sized hk hl, cons_append, ← heq]

/-- Where the walk ends: no option can be read, or the end of the list is. -/
def Ended (rest : Bytes) : Prop := next rest = none ∨ ∃ tail, rest = 0 :: tail

theorem not_ended_nop (rest : Bytes) : ¬Ended (1 :: rest) := by
  rintro (h | ⟨tail, h⟩) <;> cases h

theorem not_ended_sized {kind len : UInt8} {data : Bytes} (hk : 2 ≤ kind)
    (hl : len.toNat = data.length + 2) : ¬Ended (kind :: len :: (data ++ raw)) := by
  rintro (h | ⟨tail, h⟩)
  · rw [next_sized hk hl] at h
    cases h
  · exact absurd (cons_eq_cons.mp h).1 (two_le.mp hk).1

/-- The walk comes to a place where it ends. -/
theorem exists_wire (raw : Bytes) : ∃ w opts rest, Wire w opts ∧ raw = w ++ rest ∧ Ended rest := by
  induction hn : raw.length using Nat.strong_induction_on generalizing raw with
  | _ n ih =>
    subst hn
    match raw with
    | [] => exact ⟨[], [], [], .nil, rfl, .inl rfl⟩
    | kind :: raw =>
      by_cases h0 : kind = 0
      · exact ⟨[], [], _, .nil, rfl, .inr ⟨raw, congrArg (· :: raw) h0⟩⟩
      by_cases h1 : kind = 1
      · obtain ⟨w, opts, rest, hw, heq, hend⟩ := ih _ (Nat.lt_succ_self _) raw rfl
        exact ⟨1 :: w, _, rest, hw.nop, congrArg₂ cons h1 heq, hend⟩
      match raw with
      | [] => exact ⟨[], [], _, .nil, rfl, .inl (by simp only [next, if_neg h0, if_neg h1])⟩
      | len :: raw =>
        by_cases hbad : len.toNat < 2 ∨ raw.length + 2 < len.toNat
        · exact ⟨[], [], _, .nil, rfl, .inl (by simp only [next, if_neg h0, if_neg h1, if_pos hbad])⟩
        have hk : 2 ≤ kind := two_le.mpr ⟨h0, h1⟩
        obtain ⟨w, opts, rest, hw, heq, hend⟩ := ih (raw.drop (len.toNat - 2)).length
          (by rw [length_drop]; exact Nat.lt_succ_of_le ((Nat.sub_le _ _).trans (Nat.le_succ _))) _ rfl
        have hl : len.toNat = (raw.take (len.toNat - 2)).length + 2 := by
          rw [length_take]
          omega
        refine ⟨_, _, rest, hw.sized kind len (raw.take (len.toNat - 2)) hk hl, ?_, hend⟩
        rw [cons_append, cons_append, append_assoc, ← heq, take_append_drop]

/-- The walk ends at one place only. -/
theorem Wire.rest_eq {w' rest rest' : Bytes} {opts' : List TcpOption} (h : Wire w opts)
    (h' : Wire w' opts') (hend : Ended rest) (hend' : Ended rest') (heq : w ++ rest = w' ++ rest') :
    rest = rest' := by
  induction h generalizing w' opts' with
  | nil =>
    subst heq
    cases h' with
    | nil => rfl
    | nop _ => exact absurd hend (not_ended_nop _)
    | sized _ _ _ hk hl _ =>
      rw [cons_append, cons_append, append_assoc] at hend
      exact absurd hend (not_ended_sized hk hl)
  | nop _ ih =>
    cases h' with
    | nil =>
      rw [nil_append] at heq
      exact absurd (heq ▸ hend') (not_ended_nop _)
    | nop h' => exact ih h' (cons_eq_cons.mp heq).2
    | sized _ _ _ hk => exact absurd (cons_eq_cons.mp heq).1.symm (two_le.mp hk).2
  | @sized w opts kind len data hk hl _ ih =>
    rw [cons_append, cons_append, append_assoc] at heq
    cases h' with
    | nil =>
      rw [nil_append] at heq
      exact absurd (heq ▸ hend') (not_ended_sized hk hl)
    | nop _ => exact absurd (cons_eq_cons.mp heq).1 (two_le.mp hk).2
    | sized _ len' data' _ hl' h' =>
      rw [cons_append, cons_append, append_assoc] at heq
      obtain ⟨-, hsized⟩ := cons_eq_cons.mp heq
      obtain ⟨rfl, hdata⟩ := cons_eq_cons.mp hsized
      have hlen : data.length = data'.length := by omega
      exact ih h' (append_inj hdata hlen).2

/-- The options of a header: up to the first place where no option can be read, or up to and including
the end of the list. -/
def Listed (raw : Bytes) (opts : List TcpOption) : Prop :=
  (∃ w rest, Wire w opts ∧ raw = w ++ rest ∧ next rest = none) ∨
    ∃ w before tail, Wire w before ∧ raw = w ++ 0 :: tail ∧ opts = before ++ [.endOfList]

/-! ## What the loop finds -/

/-- The tokens of the options, each pushed behind the ones before it. -/
def layoutOf (layout : String) (opts : List TcpOption) : String :=
  (opts.map TcpOption.token).foldl push layout

theorem layout_see (walk : OptionWalk) (opt : TcpOption) :
    (walk.see opt).layout = push walk.layout opt.token := by
  cases opt <;> rfl

theorem nonzero_after_eol_see (walk : OptionWalk) (opt : TcpOption) :
    (walk.see opt).nonzero_after_eol = walk.nonzero_after_eol := by
  cases opt <;> rfl

/-- Options that do not end the list are seen one after the other. -/
theorem walkLoop_append {header : Bytes} {walk : OptionWalk} (h : TcpOption.endOfList ∉ opts)
    (more : List TcpOption) : ∃ walk', walkLoop header walk (opts ++ more) = walkLoop header walk' more ∧
      walk'.layout = layoutOf walk.layout opts ∧ walk'.nonzero_after_eol = walk.nonzero_after_eol := by
  induction opts generalizing walk with
  | nil => exact ⟨walk, rfl, rfl, rfl⟩
  | cons opt opts ih =>
    rw [mem_cons, not_or] at h
    obtain ⟨walk', heq, hl, hz⟩ := @ih (walk.see opt) h.2
    refine ⟨walk', ?_, ?_, hz.trans (nonzero_after_eol_see walk opt)⟩
    · rw [cons_append, walkLoop, if_neg (Ne.symm h.1), heq]
    · rw [hl, layout_see]
      rfl

variable {tcp : TcpSlice}

theorem walkOptions_eol (h : Wire w opts) (hraw : tcp.optionBytes = w ++ 0 :: tail) :
    (walkOptions tcp).layout = layoutOf "" (opts ++ [.endOfList]) ∧
      (walkOptions tcp).nonzero_after_eol = headerTailNonzero tcp.header := by
  obtain ⟨fuel, hf, heq⟩ := collect_wire h (le_refl (w ++ 0 :: tail).length)
  obtain ⟨fuel, rfl⟩ := Nat.exists_eq_add_one.mpr (Nat.zero_lt_of_lt hf)
  obtain ⟨walk, hwalk, hl, hz⟩ := walkLoop_append h.not_mem (collect (fuel + 1) (0 :: tail))
  rw [walkOptions, TcpSlice.options, hraw, heq, hwalk]
  constructor
  · rw [layoutOf, map_append, foldl_append]
    exact congrArg (push · "eol") hl
  · exact congrArg (· || headerTailNonzero tcp.header) hz

theorem walkOptions_stuck (h : Wire w opts) {rest : Bytes} (hraw : tcp.optionBytes = w ++ rest)
    (hnone : next rest = none) : (walkOptions tcp).layout = layoutOf "" opts ∧
      (walkOptions tcp).nonzero_after_eol = false := by
  obtain ⟨fuel, -, heq⟩ := collect_wire h (le_refl (w ++ rest).length)
  have hnil : collect fuel rest = [] := by
    cases fuel with
    | zero => rfl
    | succ fuel => rw [collect, hnone]
  obtain ⟨walk, hwalk, hl, hz⟩ := walkLoop_append h.not_mem []
  rw [walkOptions, TcpSlice.options, hraw, heq, hnil, hwalk]
  exact ⟨hl, hz⟩

/-- The scan sees what is behind the first zero byte, also if that is before the end of the list. -/
theorem headerTailNonzero_iff (hraw : tcp.optionBytes = w ++ 0 :: tail) :
    headerTailNonzero tcp.header = true ↔
      (∃ b ∈ w.dropWhile (· ≠ 0), b ≠ 0) ∨ ∃ b ∈ tail, b ≠ 0 := by
  rw [TcpSlice.optionBytes] at hraw
  rw [headerTailNonzero, hraw, dropWhile_append]
  cases hd : w.dropWhile (· ≠ 0) with
  | nil => simp
  | cons b rest =>
    have hb : b = 0 := by
      have hhead := head_dropWhile_not (fun b : UInt8 => decide (b ≠ 0)) (hd ▸ cons_ne_nil b rest)
      simpa only [hd, head_cons, decide_eq_false_iff_not, not_not] using hhead
    subst hb
    simp

theorem mem_quirkIf {c : Bool} {p q : Quirk} : p ∈ quirkIf c q ↔ c = true ∧ p = q := by
  cases c <;> simp [quirkIf]

theorem fingerprint_trailing (ip : IpView) : .optTrailingNonzero ∈ (fingerprint tcp ip).quirks ↔
    (walkOptions tcp).nonzero_after_eol = true := by
  simp [fingerprint, mem_quirkIf]

theorem exists_fingerprint {layers : Layers} {fp : TcpFingerprint} (htcp : layers.tcp = some tcp)
    (h : fingerprintFromLayers layers = some fp) : ∃ ip, fp = fingerprint tcp ip := by
  simp only [fingerprintFromLayers, htcp, Option.bind_eq_bind, Option.bind_some] at h
  split at h
  · cases h
  obtain ⟨ip, -, h⟩ := Option.bind_eq_some_iff.mp h
  cases h
  exact ⟨ip, rfl⟩

/-- The layout is that of the options. The quirk is about the bytes after the end of the list just when
no byte other than zero stands between a zero byte and the end of the list, or one stands behind it. -/
theorem trailing_iff (layers : Layers) {fp : TcpFingerprint} (htcp : layers.tcp = some tcp)
    (h : fingerprintFromLayers layers = some fp) :
    (∃ opts, Listed tcp.optionBytes opts ∧ fp.option_layout = layoutOf "" opts) ∧
    ((.optTrailingNonzero ∈ fp.quirks ↔
        ∃ w opts tail, Wire w opts ∧ tcp.optionBytes = w ++ 0 :: tail ∧ ∃ b ∈ tail, b ≠ 0) ↔
      ∀ w opts tail, Wire w opts → tcp.optionBytes = w ++ 0 :: tail →
        (∀ b ∈ w.dropWhile (· ≠ 0), b = 0) ∨ ∃ b ∈ tail, b ≠ 0) := by
  obtain ⟨ip, rfl⟩ := exists_fingerprint htcp h
  rw [fingerprint_trailing]
  obtain ⟨w, opts, rest, hw, hraw, hend⟩ := exists_wire tcp.optionBytes
  have hone : ∀ w' opts' tail, Wire w' opts' → tcp.optionBytes = w' ++ 0 :: tail → rest = 0 :: tail :=
    fun _ _ tail hw' hraw' => hw.rest_eq hw' hend (.inr ⟨tail, rfl⟩) (hraw.symm.trans hraw')
  obtain hnone | ⟨tail, rfl⟩ := hend
  · -- the list does not end, so there is nothing behind its end and the quirk is not set
    obtain ⟨hl, hz⟩ := walkOptions_stuck hw hraw hnone
    have hno : ∀ w' opts' tail, Wire w' opts' → tcp.optionBytes ≠ w' ++ 0 :: tail := by
      intro w' opts' tail hw' hraw'
      rw [hone w' opts' tail hw' hraw'] at hnone
      cases hnone
    refine ⟨⟨opts, .inl ⟨w, rest, hw, hraw, hnone⟩, hl⟩, iff_of_true ?_ ?_⟩
    · rw [hz]
      refine iff_of_false Bool.false_ne_true ?_
      rintro ⟨w', opts', tail, hw', hraw', -⟩
      exact hno w' opts' tail hw' hraw'
    · exact fun w' opts' tail hw' hraw' => absurd hraw' (hno w' opts' tail hw')
  · obtain ⟨hl, hz⟩ := walkOptions_eol hw hraw
    refine ⟨⟨_, .inr ⟨w, opts, tail, hw, hraw, rfl⟩, hl⟩, ?_⟩
    rw [hz, headerTailNonzero_iff hraw]
    have htail : (∃ w opts tail, Wire w opts ∧ tcp.optionBytes = w ++ 0 :: tail ∧ ∃ b ∈ tail, b ≠ 0) ↔
        ∃ b ∈ tail, b ≠ 0 := by
      refine ⟨?_, fun hb => ⟨w, opts, tail, hw, hraw, hb⟩⟩
      rintro ⟨w', opts', tail', hw', hraw', hb⟩
      rwa [(cons_eq_cons.mp (hone w' opts' tail' hw' hraw')).2]
    rw [htail]
    constructor
    · intro hiff w' opts' tail' hw' hraw'
      obtain rfl := (cons_eq_cons.mp (hone w' opts' tail' hw' hraw')).2
      obtain rfl := append_cancel_right (hraw.symm.trans hraw')
      by_cases hb : ∃ b ∈ tail, b ≠ 0
      · exact .inr hb
      · refine .inl fun b hmem => ?_
        by_contra hne
        exact hb (hiff.mp (.inl ⟨b, hmem, hne⟩))
    · intro hplain
      refine ⟨fun hset => (hplain w opts tail hw hraw).elim (fun hzero => ?_) id, .inr⟩
      exact hset.resolve_left fun ⟨b, hb, hne⟩ => hne (hzero b hb)

/-- A SYN packet with these options. -/
def syn (options : Bytes) : TcpSlice where
  raw := replicate 13 0 ++ [2] ++ replicate 6 0 ++ options
  header_len := 20 + options.length
  header_len_ge := Nat.le_add_right _ _
  header_len_le := le_of_eq (by simp only [length_append, length_replicate, length_singleton])

/-- A window scale of zero, the end of the list, and a byte behind it: no byte other than zero stands
between the two zeros, and the byte is found. -/
theorem trailing_five :
    .optTrailingNonzero ∈ (fingerprint (syn [3, 3, 0, 0, 0, 5]) ⟨4, 64, true, false⟩).quirks := by
  have hwire : Wire [3, 3, 0] [.windowScale 0] := Wire.nil.sized 3 3 [0] (by decide) rfl
  have hiff := (trailing_iff ⟨some (syn [3, 3, 0, 0, 0, 5]), some ⟨64, true, 0⟩, none⟩ rfl rfl).2
  refine (hiff.mpr fun w opts tail hw hraw => ?_).mpr ⟨_, _, [0, 5], hwire, rfl, by decide⟩
  have hrest : [0, 0, 5] = 0 :: tail := hwire.rest_eq hw (.inr ⟨_, rfl⟩) (.inr ⟨tail, rfl⟩) hraw
  obtain rfl := (cons_eq_cons.mp hrest).2
  exact .inr (by decide)

/-- A window scale of zero, a no-op and the end of the list: the scan takes the no-op for a byte behind
the end. -/
theorem trailing_within_options : ∃ tcp fp w opts tail,
    fingerprintFromLayers ⟨some tcp, some ⟨64, true, 0⟩, none⟩ = some fp ∧
      Wire w opts ∧ tcp.optionBytes = w ++ 0 :: tail ∧ (∀ b ∈ tail, b = 0) ∧
        .optTrailingNonzero ∈ fp.quirks := by
  have hwire : Wire [3, 3, 0, 1] [.windowScale 0, .nop] := Wire.nil.nop.sized 3 3 [0] (by decide) rfl
  have hraw : (syn [3, 3, 0, 1, 0, 0, 0, 0]).optionBytes = [3, 3, 0, 1] ++ 0 :: [0, 0, 0] := rfl
  refine ⟨_, fingerprint _ ⟨4, 64, true, false⟩, _, _, _, rfl, hwire, hraw, by simp, ?_⟩
  rw [fingerprint_trailing]
  rfl

end Flowscope.Tcp
