import Flowscope.Lib.Bytes
import Flowscope.Lib.Outcome

/-!
# Label stacks

`Layers` (`src/layers/mod.rs`) takes a frame apart into its layers. The third-party `etherparse` cuts
off the Ethernet header and the VLAN tags, but knows nothing of MPLS, so the label stack is read here.
The type of the frame is taken after the tags, but the label stack is read right behind the Ethernet
header: in a tagged frame, the tags are reported as labels, so the stack is reported as it is just when
there are none (`mpls_after_tags`).
-/

namespace Flowscope.Link

open List

/-- A layer with its bytes, to the end of the frame where it is not cut. -/
inductive Layer where
  | ethernet (bytes : Bytes)
  | vlan (bytes : Bytes)
  | arp (bytes : Bytes)
  | mpls (bytes : Bytes)
  | ipv4 (bytes : Bytes) (header_len : ℕ)
  | ipv6 (bytes : Bytes) (header_len : ℕ)
deriving DecidableEq

/-- What is reported of a frame. -/
structure Layers where
  stack : List Layer
  payload : Bytes
  truncated : Bool

/-- What `etherparse` gives: the frame, its tags from the outer one on, and what comes after them. Of
the network and transport layers, only what `from_sliced` makes of them is kept. -/
structure SlicedPacket where
  link : Option Bytes
  vlan : List Bytes
  arp : Option Bytes
  upper : List Layer → Layers

/-- The two bytes of a type. -/
def etherType (bytes : Bytes) (start : ℕ) : Bytes := (bytes.drop start).take 2

/-- MPLS unicast and multicast. -/
def mplsTypes : List Bytes := [[0x88, 0x47], [0x88, 0x48]]

/-- Four-byte entries up to the bottom of the stack, and the bytes after them. -/
def peelLabels : Bytes → List Bytes × Bytes
  | a :: b :: c :: d :: rest =>
    if c &&& 0x01 ≠ 0 then ([[a, b, c, d]], rest)
    else
      let (entries, inner) := peelLabels rest
      ([a, b, c, d] :: entries, inner)
  | inner => ([], inner)

/-- The first four bits after the labels tell which kind of packet they carry. -/
def innerLayers (stack : List Layer) (inner : Bytes) : Layers :=
  let first := inner.headD 0
  let header_len := (first &&& 0x0f).toNat * 4
  if first >>> 4 = 4 ∧ 20 ≤ inner.length ∧ 20 ≤ header_len ∧ header_len ≤ inner.length then
    ⟨stack ++ [.ipv4 inner header_len], inner.drop header_len, false⟩
  else if first >>> 4 = 6 ∧ 40 ≤ inner.length then
    ⟨stack ++ [.ipv6 inner 40], inner.drop 40, false⟩
  else ⟨stack, inner, false⟩

/-- The type behind the last tag, or in the Ethernet header. -/
def outerEtherType (tags : List Bytes) (link : Option Bytes) : Bytes :=
  match tags.getLast?, link with
  | some tag, _ => etherType tag 2
  | none, some eth => etherType eth 12
  | none, none => [0, 0]

/-- The layers of a sliced frame. The stack of labels is looked for at a fixed place of the frame. -/
def fromSliced (sp : SlicedPacket) : Layers :=
  let tags := if sp.vlan.all (4 ≤ ·.length) then sp.vlan.map (·.take 4) else []
  let stack := sp.link.toList.map .ethernet ++ tags.map .vlan
  let outer_ether_type := outerEtherType tags sp.link
  match sp.arp, sp.link with
  | some bytes, _ =>
    ⟨stack ++ if 28 ≤ bytes.length then [.arp (bytes.take 28)] else [], [], false⟩
  | none, some eth =>
    if outer_ether_type ∈ mplsTypes then
      let (entries, inner) := peelLabels (eth.drop 14)
      innerLayers (stack ++ entries.map .mpls) inner
    else sp.upper stack
  | none, none => sp.upper stack

/-! ## Frames -/

/-- The types that announce a tag. -/
def vlanTypes : List Bytes := [[0x81, 0x00], [0x88, 0xa8], [0x91, 0x00]]

/-- From a type on: the tags, at most so many, each with what follows, and the type after them. -/
def readTags : ℕ → Bytes → List Bytes × Bytes
  | n + 1, t :: u :: rest =>
    if [t, u] ∈ vlanTypes then
      let (tags, type) := readTags n (rest.drop 2)
      (rest :: tags, type)
    else ([], [t, u])
  | _, bytes => ([], bytes.take 2)

/-- The library cuts a frame as the standard says. -/
structure Slices (frame : Bytes) (sp : SlicedPacket) : Prop where
  link : sp.link = some frame
  vlan : sp.vlan = (readTags 2 (frame.drop 12)).1
  arp : sp.arp.isSome → (readTags 2 (frame.drop 12)).2 = [0x08, 0x06]

/-- Two addresses, the tags with their types, and the type of what follows. -/
def frameBytes (addrs : Bytes) (tags : List (Bytes × Bytes)) (type rest : Bytes) : Bytes :=
  addrs ++ tags.flatMap (fun tag => tag.1 ++ tag.2) ++ type ++ rest

/-- The bottom-of-stack bit. -/
def bos (entry : Bytes) : Bool := entry.getD 2 0 &&& 0x01 ≠ 0

/-- Entries of which the last one is the bottom of the stack. -/
inductive LabelStack : List Bytes → Prop
  | bottom {entry} : entry.length = 4 → bos entry = true → LabelStack [entry]
  | label {entry entries} : entry.length = 4 → bos entry = false → LabelStack entries →
      LabelStack (entry :: entries)

/-- The stack is read to its bottom, whatever its depth. -/
theorem peelLabels_stack {entries : List Bytes} (h : LabelStack entries) (rest : Bytes) :
    peelLabels (entries.flatten ++ rest) = (entries, rest) := by
  induction h with
  | @bottom entry hlen hbos =>
    obtain ⟨a, b, c, d, rfl⟩ := length_eq_four.mp hlen
    exact if_pos (of_decide_eq_true hbos)
  | @label entry entries hlen hbos _ ih =>
    obtain ⟨a, b, c, d, rfl⟩ := length_eq_four.mp hlen
    have hpeel : peelLabels (a :: b :: c :: d :: (entries.flatten ++ rest)) = _ :=
      if_neg (of_decide_eq_false hbos)
    rw [ih] at hpeel
    exact hpeel

/-- The packet after the labels becomes a layer of its own, or the payload. -/
theorem innerLayers_cases (stack : List Layer) (inner : Bytes) :
    innerLayers stack inner = ⟨stack, inner, false⟩ ∨
      ∃ n, ∃ ip ∈ [Layer.ipv4 inner n, .ipv6 inner n],
        innerLayers stack inner = ⟨stack ++ [ip], inner.drop n, false⟩ := by
  unfold innerLayers
  extract_lets first header_len
  split_ifs
  · exact .inr ⟨_, _, mem_cons_self, rfl⟩
  · exact .inr ⟨_, _, mem_cons_of_mem _ mem_cons_self, rfl⟩
  · exact .inl rfl

/-- Peeling takes nothing away. -/
theorem peelLabels_flatten (bytes : Bytes) :
    (peelLabels bytes).1.flatten ++ (peelLabels bytes).2 = bytes := by
  fun_induction peelLabels bytes with
  | case1 a b c d rest _ => rfl
  | case2 a b c d rest _ entries inner heq ih =>
    rw [heq] at ih
    exact congrArg (a :: b :: c :: d :: ·) ih
  | case3 inner _ => rfl

/-- The tags of a frame are found, with the type behind the last one. -/
theorem readTags_tags {n : ℕ} {tags : List (Bytes × Bytes)} {type : Bytes} (hn : tags.length ≤ n)
    (htags : ∀ tag ∈ tags, tag.1 ∈ vlanTypes ∧ tag.2.length = 2) (htype : type ∈ mplsTypes)
    (body : Bytes) :
    ∃ slices, readTags n (tags.flatMap (fun tag => tag.1 ++ tag.2) ++ type ++ body) = (slices, type) ∧
      slices.length = tags.length ∧ (∀ slice ∈ slices, 4 ≤ slice.length) ∧
      ∀ slice, slices.getLast? = some slice → etherType slice 2 = type := by
  have hmpls : ∀ type ∈ mplsTypes, type.length = 2 ∧ type ∉ vlanTypes := by decide
  have hvlan : ∀ type ∈ vlanTypes, type.length = 2 := by decide
  obtain ⟨hlen, hno⟩ := hmpls type htype
  obtain ⟨t, u, rfl⟩ := length_eq_two.mp hlen
  induction tags generalizing n with
  | nil =>
    refine ⟨[], ?_, rfl, forall_mem_nil _, fun _ h => by cases h⟩
    cases n with
    | zero => rfl
    | succ n => exact if_neg hno
  | cons tag tags ih =>
    obtain ⟨n, rfl⟩ := Nat.exists_eq_add_one.mpr (Nat.zero_lt_of_lt hn)
    obtain ⟨hin, htag⟩ := htags tag mem_cons_self
    obtain ⟨slices, hread, hsz, hfour, hlast⟩ :=
      ih (Nat.le_of_succ_le_succ hn) fun tag h => htags tag (mem_cons_of_mem _ h)
    obtain ⟨type', tci⟩ := tag
    obtain ⟨t', u', rfl⟩ := length_eq_two.mp (hvlan _ hin)
    obtain ⟨x, y, rfl⟩ := length_eq_two.mp htag
    set rest := tags.flatMap (fun tag => tag.1 ++ tag.2) ++ [t, u] ++ body with hrest
    refine ⟨(x :: y :: rest) :: slices, ?_, congrArg (· + 1) hsz, ?_, fun slice hs => ?_⟩
    · have hstep : readTags (n + 1) (t' :: u' :: x :: y :: rest) =
          ((x :: y :: rest) :: (readTags n rest).1, (readTags n rest).2) := if_pos hin
      rw [hread] at hstep
      simpa [hrest] using hstep
    · refine forall_mem_cons.mpr ⟨?_, hfour⟩
      simp only [hrest, length_cons, length_append]
      omega
    · cases tags with
      | nil =>
        rw [length_eq_zero_iff.mp hsz] at hs
        cases hs
        rfl
      | cons tag tags =>
        obtain ⟨slice', slices, rfl⟩ := exists_cons_of_length_eq_add_one hsz
        exact hlast slice hs

/-- The layers of a frame: the tags, the labels that are found behind the Ethernet header, and the packet
that they carry. -/
theorem fromSliced_mpls {frame type : Bytes} {sp : SlicedPacket} {slices : List Bytes}
    (hsp : Slices frame sp) (htype : type ∈ mplsTypes)
    (hread : readTags 2 (frame.drop 12) = (slices, type)) (hfour : ∀ slice ∈ slices, 4 ≤ slice.length)
    (hlast : ∀ slice, slices.getLast? = some slice → etherType slice 2 = type)
    (heth : slices = [] → etherType frame 12 = type) : fromSliced sp =
      innerLayers (.ethernet frame :: slices.map (fun slice => .vlan (slice.take 4)) ++
        (peelLabels (frame.drop 14)).1.map .mpls) (peelLabels (frame.drop 14)).2 := by
  have harp : sp.arp = none := by
    rw [← Option.not_isSome_iff_eq_none]
    intro hsome
    have := hsp.arp hsome
    rw [hread] at this
    rw [show type = _ from this] at htype
    exact absurd htype (by decide)
  have hall : slices.all (4 ≤ ·.length) = true := by simpa using hfour
  have hvlan : sp.vlan = slices := by rw [hsp.vlan, hread]
  have htake : ∀ slice : Bytes, etherType (slice.take 4) 2 = etherType slice 2 := by
    intro slice
    rw [etherType, drop_take, take_take]
    rfl
  have houter : outerEtherType (slices.map (·.take 4)) sp.link = type := by
    unfold outerEtherType
    rw [getLast?_map, hsp.link]
    cases hgl : slices.getLast? with
    | none => exact heth (getLast?_eq_none_iff.mp hgl)
    | some slice => exact (htake slice).trans (hlast slice hgl)
  unfold fromSliced
  simp only [hvlan, hall, if_true, houter]
  simp only [hsp.link, harp, if_pos htype, map_map]
  rfl

/-- The label stack is reported entry by entry behind the tags, and what it carries starts right after
the bottom entry. -/
def Reports (frame : Bytes) (sp : SlicedPacket) (entries : List Bytes) (payload : Bytes) : Prop :=
  ∃ inner, (fromSliced sp).stack = .ethernet frame :: sp.vlan.map (fun slice => .vlan (slice.take 4)) ++
      entries.map .mpls ++ inner ∧
    (inner = [] ∧ (fromSliced sp).payload = payload ∨
      ∃ n, ∃ ip ∈ [Layer.ipv4 payload n, .ipv6 payload n],
        inner = [ip] ∧ (fromSliced sp).payload = payload.drop n)

/-- The bytes of a label. -/
def Layer.label? : Layer → Option Bytes
  | .mpls bytes => some bytes
  | _ => none

/-- What is reported is what was peeled. -/
theorem reports_iff {frame payload inn : Bytes} {sp : SlicedPacket} {entries es : List Bytes}
    (h : fromSliced sp = innerLayers
      (.ethernet frame :: sp.vlan.map (fun slice => .vlan (slice.take 4)) ++ es.map .mpls) inn) :
    Reports frame sp entries payload ↔ es = entries ∧ inn = payload := by
  set below := Layer.ethernet frame :: sp.vlan.map (fun slice => .vlan (slice.take 4))
  unfold Reports
  rw [h]
  constructor
  · rintro ⟨inner, hstack, hinner⟩
    have hlabels : ∀ es : List Bytes, (es.map Layer.mpls).filterMap Layer.label? = es := by
      intro es
      rw [filterMap_map]
      exact filterMap_some
    -- no layer above the labels is one
    have hno : inner.filterMap Layer.label? = [] := by
      obtain ⟨rfl, -⟩ | ⟨n, ip, hip, rfl, -⟩ := hinner
      · rfl
      · rcases mem_pair.mp hip with rfl | rfl <;> rfl
    have hcut : ∀ inner', inner'.filterMap Layer.label? = [] →
        below ++ es.map .mpls ++ inner' = below ++ entries.map .mpls ++ inner →
          es = entries ∧ inner' = inner := by
      intro inner' hno' heq
      rw [append_assoc, append_assoc, append_cancel_left_eq] at heq
      have hes := congrArg (filterMap Layer.label?) heq
      rw [filterMap_append, filterMap_append, hlabels, hlabels, hno, hno', append_nil, append_nil] at hes
      subst hes
      exact ⟨rfl, append_cancel_left heq⟩
    obtain heq | ⟨n, ip, hip, heq⟩ := innerLayers_cases (below ++ es.map .mpls) inn
    · rw [heq] at hstack hinner
      obtain ⟨hes, rfl⟩ := hcut [] rfl (by rwa [append_nil])
      obtain ⟨-, hpay⟩ | ⟨n, ip, -, hip, -⟩ := hinner
      · exact ⟨hes, hpay⟩
      · cases hip
    · rw [heq] at hstack hinner
      obtain ⟨hes, rfl⟩ := hcut [ip] (by rcases mem_pair.mp hip with rfl | rfl <;> rfl) hstack
      obtain ⟨hnil, -⟩ | ⟨n', ip', hip', hone, -⟩ := hinner
      · cases hnil
      · obtain rfl := singleton_inj.mp hone
        refine ⟨hes, ?_⟩
        rcases mem_pair.mp hip with rfl | rfl <;> rcases mem_pair.mp hip' with h' | h' <;> cases h' <;> rfl
  · rintro ⟨rfl, rfl⟩
    obtain heq | ⟨n, ip, hip, heq⟩ := innerLayers_cases (below ++ es.map .mpls) inn
    · exact ⟨[], by rw [heq, append_nil], .inl ⟨rfl, by rw [heq]⟩⟩
    · exact ⟨[ip], by rw [heq], .inr ⟨n, ip, hip, rfl, by rw [heq]⟩⟩

/-- The label stack of a frame is reported as it is just when the frame has no tags: with tags, there
are more bytes behind the Ethernet header than the stack and the packet have. -/
theorem mpls_after_tags {addrs type payload : Bytes} {tags : List (Bytes × Bytes)}
    {entries : List Bytes} {sp : SlicedPacket} (haddrs : addrs.length = 12) (hlen : tags.length ≤ 2)
    (htags : ∀ tag ∈ tags, tag.1 ∈ vlanTypes ∧ tag.2.length = 2) (htype : type ∈ mplsTypes)
    (hstack : LabelStack entries)
    (hsp : Slices (frameBytes addrs tags type (entries.flatten ++ payload)) sp) :
    Reports (frameBytes addrs tags type (entries.flatten ++ payload)) sp entries payload ↔
      tags = [] := by
  set body := entries.flatten ++ payload with hbody
  obtain ⟨slices, hread, hsz, hfour, hlast⟩ := readTags_tags hlen htags htype body
  set frame := frameBytes addrs tags type body with hframe
  have hdrop : frame.drop 12 = tags.flatMap (fun tag => tag.1 ++ tag.2) ++ type ++ body := by
    rw [hframe, frameBytes, append_assoc, append_assoc, ← haddrs, drop_left, append_assoc]
  have hbehind : frame.drop 14 = (tags.flatMap (fun tag => tag.1 ++ tag.2) ++ type ++ body).drop 2 := by
    rw [← hdrop, drop_drop]
  have htwo : type.length = 2 := (by decide : ∀ type ∈ mplsTypes, type.length = 2) type htype
  rw [← hdrop] at hread
  have hsliced := fromSliced_mpls hsp htype hread hfour hlast fun hnil => by
    rw [hnil, length_nil, eq_comm, length_eq_zero_iff] at hsz
    rw [etherType, hdrop, hsz, flatMap_nil, nil_append, ← htwo, take_left]
  rw [show slices = sp.vlan by rw [hsp.vlan, hread]] at hsliced
  rw [reports_iff hsliced, hbehind]
  constructor
  · rintro ⟨hes, hinn⟩
    have hsum := congrArg length (peelLabels_flatten
      ((tags.flatMap (fun tag => tag.1 ++ tag.2) ++ type ++ body).drop 2))
    rw [hes, hinn, ← hbody] at hsum
    cases tags with
    | nil => rfl
    | cons tag tags =>
      have htci := (htags tag mem_cons_self).2
      simp only [flatMap_cons, length_drop, length_append] at hsum
      omega
  · rintro rfl
    rw [flatMap_nil, nil_append, ← htwo, drop_left, peelLabels_stack hstack]
    exact ⟨rfl, rfl⟩

/-- A frame cut by the library, with nothing above the tags. -/
def sliced (frame : Bytes) : SlicedPacket :=
  ⟨some frame, (readTags 2 (frame.drop 12)).1, none, fun stack => ⟨stack, [], false⟩⟩

/-- Such a frame is cut as the standard says. -/
theorem slices_sliced (frame : Bytes) : Slices frame (sliced frame) :=
  ⟨rfl, rfl, fun h => by cases h⟩

/-- Without tags a stack of two labels is reported, and with one tag it is not. -/
theorem mpls_after_tags_two :
    let entries : List Bytes := [[0, 1, 0, 64], [0, 2, 1, 64]]
    let frame := fun tags => frameBytes (replicate 12 0) tags [0x88, 0x47] (entries.flatten ++ [7])
    let tag : Bytes × Bytes := ([0x81, 0x00], [0, 5])
    Reports (frame []) (sliced (frame [])) entries [7] ∧
      ¬Reports (frame [tag]) (sliced (frame [tag])) entries [7] := by
  have hstack : LabelStack [[0, 1, 0, 64], [0, 2, 1, 64]] := .label rfl rfl (.bottom rfl rfl)
  constructor
  · exact (mpls_after_tags rfl (by decide) (by simp) (by decide) hstack (slices_sliced _)).mpr rfl
  · rw [mpls_after_tags rfl (by decide) (by decide) (by decide) hstack (slices_sliced _)]
    exact cons_ne_nil _ _

/-- With one tag, the bytes of the tag are reported as the first label. -/
theorem tag_read_as_label :
    let entries : List Bytes := [[0, 2, 1, 64]]
    let frame := frameBytes (replicate 12 0) [([0x81, 0x00], [0, 5])] [0x88, 0x47] entries.flatten
    LabelStack entries ∧ Slices frame (sliced frame) ∧ (fromSliced (sliced frame)).stack =
      [.ethernet frame, .vlan [0, 5, 0x88, 0x47], .mpls [0, 5, 0x88, 0x47], .mpls [0, 2, 1, 64]] :=
  ⟨.bottom rfl rfl, slices_sliced _, by decide⟩

end Flowscope.Link
