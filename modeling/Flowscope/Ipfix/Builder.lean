import Flowscope.Lib.Bytes
import Flowscope.Lib.Outcome
import Flowscope.Lib.Table

/-!
# Writing IPFIX messages

`MessageBuilder` (`src/ipfix/wire/builder.rs`, `src/ipfix/wire/templates.rs`) collects template sets and
data sets and writes them behind a message header. A template says which elements a record has, and how
many bytes each of them takes. It is caller data: an element that is a number takes as many bytes as
the template says, but the program panics if there are more than eight; an address takes as many bytes
as it has, whatever the template says.

`addDataRecord_matches_iff` says for which templates every record matches its template.
-/

namespace Flowscope.Ipfix

open List


def IPFIX_VERSION : ℕ := 0x000A
def MESSAGE_HEADER_LEN : ℕ := 16
def SET_HEADER_LEN : ℕ := 4
def TEMPLATE_HEADER_LEN : ℕ := 4
def SET_ID_TEMPLATE : ℕ := 2
def SET_ID_DATA_MIN : ℕ := 256
def FIELD_LENGTH_VARIABLE : BitVec 16 := 0xFFFF

/-! ## Templates -/

/-- An element of a record and how many bytes it takes. -/
structure FieldSpec where
  information_element_id : BitVec 16
  length : BitVec 16
  enterprise_number : Option (BitVec 32)
deriving DecidableEq, Repr

def FieldSpec.wireLength (f : FieldSpec) : ℕ := if f.enterprise_number.isSome then 8 else 4

structure TemplateDefinition where
  template_id : BitVec 16
  fields : List FieldSpec
deriving DecidableEq, Repr

/-- How many bytes a record has, unless the length of an element varies. -/
def TemplateDefinition.fixedRecordLength (t : TemplateDefinition) : Option ℕ :=
  if t.fields.any (·.length = FIELD_LENGTH_VARIABLE) then none
  else some (t.fields.map (·.length.toNat)).sum

structure TemplateRegistry where
  observation_domain_id : BitVec 32
  templates : Table (BitVec 16) TemplateDefinition

namespace TemplateRegistry

def new (observation_domain_id : BitVec 32) : TemplateRegistry := ⟨observation_domain_id, ∅⟩

def register (r : TemplateRegistry) (t : TemplateDefinition) : TemplateRegistry :=
  { r with templates := r.templates.insert t.template_id t }

def get (r : TemplateRegistry) (template_id : BitVec 16) : Option TemplateDefinition :=
  r.templates.lookup template_id

end TemplateRegistry

/-! ## Records -/

structure FlowRecord where
  protocol_identifier : BitVec 8
  source_ipv4_address : Option (BitVec 32)
  destination_ipv4_address : Option (BitVec 32)
  source_ipv6_address : Option (BitVec 128)
  destination_ipv6_address : Option (BitVec 128)
  source_transport_port : BitVec 16
  destination_transport_port : BitVec 16
  octet_delta_count_initiator : BitVec 64
  packet_delta_count_initiator : BitVec 64
  octet_total_count : BitVec 64
  packet_total_count : BitVec 64
  flow_start_milliseconds : BitVec 64
  flow_end_milliseconds : BitVec 64
  tcp_control_bits_initiator : Option (BitVec 16)
  flow_end_reason : Option (BitVec 8)
  source_mac_address : Option (BitVec 48)
  destination_mac_address : Option (BitVec 48)
  ingress_interface : Option (BitVec 32)
  egress_interface : Option (BitVec 32)
  vlan_id : Option (BitVec 16)
  ip_class_of_service : Option (BitVec 8)
deriving DecidableEq, Repr

/-- How an element is read off a record: a number, an address of the network layer, which a record may
not have, or one of the link layer, in whose place zeros may stand. -/
inductive Element where
  | number (octets : ℕ) (value : FlowRecord → BitVec (8 * octets))
  | address (octets : ℕ) (value : FlowRecord → Option (BitVec (8 * octets)))
  | mac (value : FlowRecord → Option (BitVec 48))
  | unknown

/-- The elements that are known. -/
def elements : List (BitVec 16 × Element) :=
  [(4, .number 1 fun r => r.protocol_identifier), (7, .number 2 fun r => r.source_transport_port),
    (8, .address 4 fun r => r.source_ipv4_address),
    (11, .number 2 fun r => r.destination_transport_port),
    (12, .address 4 fun r => r.destination_ipv4_address),
    (27, .address 16 fun r => r.source_ipv6_address),
    (28, .address 16 fun r => r.destination_ipv6_address),
    (1, .number 8 fun r => r.octet_delta_count_initiator),
    (2, .number 8 fun r => r.packet_delta_count_initiator),
    (85, .number 8 fun r => r.octet_total_count),
    (86, .number 8 fun r => r.packet_total_count),
    (152, .number 8 fun r => r.flow_start_milliseconds),
    (153, .number 8 fun r => r.flow_end_milliseconds),
    (6, .number 2 fun r => r.tcp_control_bits_initiator.getD 0),
    (136, .number 1 fun r => r.flow_end_reason.getD 0),
    (5, .number 1 fun r => r.ip_class_of_service.getD 0),
    (56, .mac fun r => r.source_mac_address),
    (80, .mac fun r => r.destination_mac_address),
    (10, .number 4 fun r => r.ingress_interface.getD 0),
    (14, .number 4 fun r => r.egress_interface.getD 0),
    (58, .number 2 fun r => r.vlan_id.getD 0)]

def element (id : BitVec 16) : Element :=
  ((elements.find? fun e => e.1 = id).map Prod.snd).getD .unknown

variable {t : TemplateDefinition} {template_id id : BitVec 16} {f : FieldSpec}

theorem mem_elements {el : Element} (h : element id = el) (hne : el ≠ .unknown) :
    (id, el) ∈ elements := by
  unfold element at h
  cases hfd : elements.find? fun e => e.1 = id with
  | none =>
    rw [hfd] at h
    exact absurd h.symm hne
  | some e =>
    rw [hfd] at h
    have hid : e.1 = id := by simpa using find?_some hfd
    have heq : e = (id, el) := Prod.ext hid h
    exact heq ▸ mem_of_find?_eq_some hfd

inductive EncodeError where
  | unknownTemplate (id : BitVec 16)
  | addressFamilyMismatch
  | messageTooLarge
deriving DecidableEq, Repr

/-- How a call ends when it gives no value. -/
inductive Stop where
  | error (e : EncodeError)
  /-- A panic: a number of more than eight bytes. -/
  | panic
deriving DecidableEq, Repr

def putPaddedU64 (value len : ℕ) : Except Stop Bytes :=
  if len ≤ 8 then .ok (beBytes len value) else .error .panic

def encodeField (rec : FlowRecord) (f : FieldSpec) : Except Stop Bytes :=
  let len := f.length.toNat
  if f.length = FIELD_LENGTH_VARIABLE then .ok [0]
  else
    match element f.information_element_id with
    | .number _ value => putPaddedU64 (value rec).toNat len
    | .address octets value =>
      match value rec with
      | some addr => .ok (beBytes octets addr.toNat)
      | none => .error (.error .addressFamilyMismatch)
    | .mac value =>
      match value rec with
      | some mac => if len = 6 then .ok (beBytes 6 mac.toNat) else .ok (List.replicate len 0)
      | none => .ok (List.replicate len 0)
    | .unknown => .ok (List.replicate len 0)

def encodeFlowRecord (rec : FlowRecord) (t : TemplateDefinition) : Except Stop Bytes := do
  let pieces ← t.fields.mapM (encodeField rec)
  return pieces.flatten

/-! ## Messages -/

inductive SetBuffer where
  | template (templates : List TemplateDefinition)
  | data (template_id : BitVec 16) (records : Bytes) (record_count : ℕ)
deriving DecidableEq, Repr

structure MessageBuilder where
  registry : TemplateRegistry
  sequence_number : BitVec 32
  export_time : BitVec 32
  sets : List SetBuffer

variable {b : MessageBuilder}

namespace MessageBuilder

def new (registry : TemplateRegistry) (sequence_number export_time : BitVec 32) : MessageBuilder :=
  ⟨registry, sequence_number, export_time, []⟩

/-- The template of a record or of an announcement. -/
def templateOf (b : MessageBuilder) (template_id : BitVec 16) : Except Stop TemplateDefinition :=
  match b.registry.get template_id with
  | some t => .ok t
  | none => .error (.error (.unknownTemplate template_id))

def addTemplateSet (b : MessageBuilder) (template_ids : List (BitVec 16)) :
    MessageBuilder × Except Stop Unit :=
  match template_ids.mapM b.templateOf with
  | .ok templates => ({ b with sets := b.sets ++ [.template templates] }, .ok ())
  | .error e => (b, .error e)

/-- Append a record to the last set if that is one of the same template, and to a new set if not. -/
def appendToDataSet (b : MessageBuilder) (template_id : BitVec 16) (record : Bytes) :
    MessageBuilder :=
  match b.sets.getLast? with
  | some (.data tid records record_count) =>
    if tid = template_id then
      { b with sets := b.sets.dropLast ++ [.data tid (records ++ record) (record_count + 1)] }
    else { b with sets := b.sets ++ [.data template_id record 1] }
  | _ => { b with sets := b.sets ++ [.data template_id record 1] }

def addDataRecord (b : MessageBuilder) (rec : FlowRecord) (template_id : BitVec 16) :
    MessageBuilder × Except Stop Unit :=
  match b.templateOf template_id >>= encodeFlowRecord rec with
  | .ok record => (b.appendToDataSet template_id record, .ok ())
  | .error e => (b, .error e)

end MessageBuilder

def setLength : SetBuffer → ℕ
  | .template templates =>
    SET_HEADER_LEN +
      (templates.map fun t => TEMPLATE_HEADER_LEN + (t.fields.map FieldSpec.wireLength).sum).sum
  | .data _ records _ => SET_HEADER_LEN + records.length

/-- A field of a template record. -/
def writeField (f : FieldSpec) : Bytes :=
  match f.enterprise_number with
  | some en =>
    beBytes 2 (f.information_element_id ||| 0x8000#16).toNat ++ beBytes 2 f.length.toNat ++
      beBytes 4 en.toNat
  | none => beBytes 2 f.information_element_id.toNat ++ beBytes 2 f.length.toNat

def writeTemplate (t : TemplateDefinition) : Bytes :=
  beBytes 2 t.template_id.toNat ++ beBytes 2 t.fields.length ++ t.fields.flatMap writeField

/-- A set behind its header. The length is written with 16 bits, whatever it is. -/
def writeSet (set : SetBuffer) : Bytes :=
  match set with
  | .template templates =>
    beBytes 2 SET_ID_TEMPLATE ++ beBytes 2 (setLength set) ++ templates.flatMap writeTemplate
  | .data template_id records _ => beBytes 2 template_id.toNat ++ beBytes 2 (setLength set) ++ records

namespace MessageBuilder

/-- How long the message would be. -/
def currentLength (b : MessageBuilder) : ℕ := MESSAGE_HEADER_LEN + (b.sets.map setLength).sum

/-- How many records the message would have. -/
def dataRecordCount (b : MessageBuilder) : ℕ :=
  (b.sets.map fun
    | .data _ _ record_count => record_count
    | .template _ => 0).sum

def header (b : MessageBuilder) : Bytes :=
  beBytes 2 IPFIX_VERSION ++ beBytes 2 b.currentLength ++ beBytes 4 b.export_time.toNat ++
    beBytes 4 b.sequence_number.toNat ++ beBytes 4 b.registry.observation_domain_id.toNat

/-- The whole message. -/
def finalize (b : MessageBuilder) : Except EncodeError Bytes :=
  if b.currentLength > 65535 then .error .messageTooLarge
  else .ok (b.header ++ b.sets.flatMap writeSet)

end MessageBuilder

/-! ## Records and their templates -/

/-- What a record's element needs of its template: no more than eight bytes for a number, and as many
bytes as it has for an address. -/
def FieldSpec.fits (f : FieldSpec) : Bool :=
  match element f.information_element_id with
  | .number _ _ => f.length.toNat ≤ 8
  | .address octets _ => f.length.toNat = octets
  | _ => true

/-- A record that was added matches its template: each element takes the bytes that the template says.
Where none was added, the message stays as it was and there is an error. -/
def Matches (b : MessageBuilder) (rec : FlowRecord) (t : TemplateDefinition) (template_id : BitVec 16)
    (r : MessageBuilder × Except Stop Unit) : Prop :=
  (∃ e, r = (b, .error (.error e))) ∨
    ∃ pieces, List.Forall₂ (fun f piece => encodeField rec f = .ok piece ∧
        piece.length = f.length.toNat) t.fields pieces ∧
      t.fixedRecordLength = some pieces.flatten.length ∧
      r = (b.appendToDataSet template_id pieces.flatten, .ok ())

/-- An element that fits takes the bytes that its template says, unless the record does not have it. -/
theorem encodeField_of_fits (hfx : f.length ≠ FIELD_LENGTH_VARIABLE)
    (hft : f.fits = true) (rec : FlowRecord) :
    (∃ e, encodeField rec f = .error (.error e)) ∨
      ∃ piece, encodeField rec f = .ok piece ∧ piece.length = f.length.toNat := by
  unfold encodeField
  unfold FieldSpec.fits at hft
  rw [if_neg hfx]
  generalize element f.information_element_id = el at hft
  cases el with
  | number octets value =>
    refine .inr ⟨beBytes f.length.toNat (value rec).toNat, ?_, length_beBytes _ _⟩
    exact if_pos (of_decide_eq_true hft)
  | address octets value =>
    dsimp only at hft ⊢
    cases value rec with
    | none => exact .inl ⟨.addressFamilyMismatch, rfl⟩
    | some addr => exact .inr ⟨_, rfl, by rw [length_beBytes, of_decide_eq_true hft]⟩
  | mac value =>
    dsimp only
    cases value rec with
    | none => exact .inr ⟨_, rfl, length_replicate⟩
    | some mac =>
      split_ifs with hlen
      · exact .inr ⟨_, rfl, by rw [length_beBytes, hlen]⟩
      · exact .inr ⟨_, rfl, length_replicate⟩
  | unknown => exact .inr ⟨_, rfl, length_replicate⟩

theorem length_flatten_of_forall₂ {fields : List FieldSpec} {pieces : List Bytes}
    (h : Forall₂ (fun f piece => piece.length = f.length.toNat) fields pieces) :
    pieces.flatten.length = (fields.map (·.length.toNat)).sum := by
  induction h with
  | nil => rfl
  | cons hfr _ ih =>
    rw [flatten_cons, length_append, map_cons, sum_cons, hfr, ih]

theorem fixedRecordLength_of_fixed (h : ∀ f ∈ t.fields, f.length ≠ FIELD_LENGTH_VARIABLE) :
    t.fixedRecordLength = some (t.fields.map (·.length.toNat)).sum := by
  rw [TemplateDefinition.fixedRecordLength]
  simpa using h

theorem addDataRecord_eq (hget : b.registry.get template_id = some t) (rec : FlowRecord) :
    b.addDataRecord rec template_id = match t.fields.mapM (encodeField rec) with
      | .ok pieces => (b.appendToDataSet template_id pieces.flatten, .ok ())
      | .error e => (b, .error e) := by
  have htm : b.templateOf template_id = .ok t := by rw [MessageBuilder.templateOf, hget]
  have hbn : b.templateOf template_id >>= encodeFlowRecord rec = encodeFlowRecord rec t := by
    rw [htm]
    rfl
  rw [MessageBuilder.addDataRecord, hbn, encodeFlowRecord]
  cases t.fields.mapM (encodeField rec) with
  | ok pieces => rfl
  | error e => rfl

theorem addDataRecord_of_fits (hget : b.registry.get template_id = some t)
    (hfx : ∀ f ∈ t.fields, f.length ≠ FIELD_LENGTH_VARIABLE)
    (hft : ∀ f ∈ t.fields, f.fits = true) (rec : FlowRecord) :
    Matches b rec t template_id (b.addDataRecord rec template_id) := by
  have hpc : (t.fields.mapM (encodeField rec)).Sat
      (Forall₂ (fun f piece => encodeField rec f = .ok piece ∧ piece.length = f.length.toNat)
        t.fields) fun e => ∃ e', e = .error e' := by
    refine Except.sat_mapM fun f hf => ?_
    rcases encodeField_of_fits (hfx f hf) (hft f hf) rec with ⟨e, he⟩ | ⟨piece, hpi, hlen⟩
    · rw [he]
      exact ⟨e, rfl⟩
    · rw [hpi]
      exact ⟨rfl, hlen⟩
  rw [addDataRecord_eq hget]
  cases hmap : t.fields.mapM (encodeField rec) with
  | error e =>
    rw [hmap] at hpc
    obtain ⟨e', rfl⟩ := hpc
    exact .inl ⟨e', rfl⟩
  | ok pieces =>
    rw [hmap] at hpc
    refine .inr ⟨pieces, hpc, ?_, rfl⟩
    have hln : Forall₂ (fun f piece => piece.length = f.length.toNat) t.fields pieces :=
      Forall₂.imp (fun _ _ h => h.2) hpc
    rw [fixedRecordLength_of_fixed hfx, length_flatten_of_forall₂ hln]

/-- A record that has every address. -/
def fullRecord : FlowRecord where
  protocol_identifier := 6
  source_ipv4_address := some 0
  destination_ipv4_address := some 0
  source_ipv6_address := some 0
  destination_ipv6_address := some 0
  source_transport_port := 0
  destination_transport_port := 0
  octet_delta_count_initiator := 0
  packet_delta_count_initiator := 0
  octet_total_count := 0
  packet_total_count := 0
  flow_start_milliseconds := 0
  flow_end_milliseconds := 0
  tcp_control_bits_initiator := none
  flow_end_reason := none
  source_mac_address := none
  destination_mac_address := none
  ingress_interface := none
  egress_interface := none
  vlan_id := none
  ip_class_of_service := none

/-- It has the address of every element that is one. -/
theorem fullRecord_address {octets : ℕ}
    {value : FlowRecord → Option (BitVec (8 * octets))} (h : element id = .address octets value) :
    ∃ addr, value fullRecord = some addr := by
  have hmem := mem_elements h nofun
  simp only [elements, mem_cons, Prod.mk.injEq, not_mem_nil, or_false] at hmem
  rcases hmem with h | h | h | h | h | h | h | h | h | h | h | h | h | h | h | h | h | h | h | h | h
  all_goals cases h.2
  all_goals exact ⟨0, rfl⟩

/-- An element of that record that takes the bytes that its template says fits. -/
theorem fits_of_encodeField (hfx : f.length ≠ FIELD_LENGTH_VARIABLE) {piece : Bytes}
    (h : encodeField fullRecord f = .ok piece) (hlen : piece.length = f.length.toNat) :
    f.fits = true := by
  unfold encodeField at h
  unfold FieldSpec.fits
  rw [if_neg hfx] at h
  cases hel : element f.information_element_id with
  | number octets value =>
    rw [hel] at h
    dsimp only at h
    rw [putPaddedU64] at h
    split_ifs at h with hle
    exact decide_eq_true hle
  | address octets value =>
    obtain ⟨addr, had⟩ := fullRecord_address hel
    rw [hel] at h
    dsimp only at h
    rw [had] at h
    cases h
    rw [length_beBytes] at hlen
    exact decide_eq_true hlen.symm
  | mac value => rfl
  | unknown => rfl

/-- The encoding of that record stops only at a panic. -/
theorem encodeField_fullRecord (f : FieldSpec) :
    (encodeField fullRecord f).Sat (fun _ => True) (· = .panic) := by
  unfold encodeField
  by_cases hvar : f.length = FIELD_LENGTH_VARIABLE
  · rw [if_pos hvar]
    trivial
  rw [if_neg hvar]
  cases hel : element f.information_element_id with
  | number octets value =>
    dsimp only
    rw [putPaddedU64]
    split_ifs
    · trivial
    · rfl
  | address octets value =>
    obtain ⟨addr, had⟩ := fullRecord_address hel
    dsimp only
    rw [had]
    trivial
  | mac value =>
    dsimp only
    cases value fullRecord with
    | none => trivial
    | some mac =>
      split_ifs <;> trivial
  | unknown => trivial

theorem forall₂_left {α β : Type} {R : α → β → Prop} {l : List α} {l' : List β}
    (h : Forall₂ R l l') {a : α} (ha : a ∈ l) : ∃ b, R a b := by
  induction h with
  | nil => exact nomatch ha
  | cons hfr _ ih =>
    rcases mem_cons.mp ha with rfl | hmem
    · exact ⟨_, hfr⟩
    · exact ih hmem

/-- Every record of a template of fixed length matches it if each element of the template fits, and only
then. -/
theorem addDataRecord_matches_iff (registry : TemplateRegistry) {template_id : BitVec 16}
    {t : TemplateDefinition} (hget : registry.get template_id = some t)
    (hfixed : ∀ f ∈ t.fields, f.length ≠ FIELD_LENGTH_VARIABLE) :
    (∀ b : MessageBuilder, b.registry = registry → ∀ rec,
        Matches b rec t template_id (b.addDataRecord rec template_id)) ↔
      ∀ f ∈ t.fields, f.fits = true := by
  constructor
  · intro h f hf
    rcases h (.new registry 0 0) rfl fullRecord with ⟨e, he⟩ | ⟨pieces, hpc, -, -⟩
    · have hsp := Except.sat_mapM (l := t.fields) fun f _ => encodeField_fullRecord f
      rw [addDataRecord_eq hget] at he
      cases hmap : t.fields.mapM (encodeField fullRecord) with
      | ok pieces =>
        rw [hmap] at he
        exact nomatch congrArg Prod.snd he
      | error stop =>
        rw [hmap] at he hsp
        cases hsp
        exact nomatch congrArg Prod.snd he
    · obtain ⟨piece, hpi, hlen⟩ := forall₂_left hpc hf
      exact fits_of_encodeField (hfixed f hf) hpi hlen
  · intro hft b hb rec
    exact addDataRecord_of_fits (hb ▸ hget) hfixed hft rec

/-- A template whose protocol number takes nine bytes. -/
def wideTemplate : TemplateDefinition := ⟨256, [⟨4, 9, none⟩]⟩

/-- A template whose source address takes five bytes. -/
def longAddressTemplate : TemplateDefinition := ⟨257, [⟨8, 5, none⟩, ⟨4, 1, none⟩]⟩

/-- A template as an exporter of flows over IPv4 has it. -/
def plainTemplate : TemplateDefinition :=
  ⟨258, [⟨8, 4, none⟩, ⟨12, 4, none⟩, ⟨4, 1, none⟩, ⟨1, 8, none⟩, ⟨56, 6, none⟩, ⟨999, 3, some 9⟩]⟩

def oddRegistry : TemplateRegistry :=
  (((TemplateRegistry.new 1).register wideTemplate).register longAddressTemplate).register plainTemplate

theorem addDataRecord_matches_plain :
    oddRegistry.get 258 = some plainTemplate ∧
      (∀ f ∈ plainTemplate.fields, f.length ≠ FIELD_LENGTH_VARIABLE) ∧
      ∀ b : MessageBuilder, b.registry = oddRegistry → ∀ rec,
        Matches b rec plainTemplate 258 (b.addDataRecord rec 258) :=
  ⟨by decide, by decide,
    (addDataRecord_matches_iff oddRegistry (by decide) (by decide)).mpr (by decide +kernel)⟩

/-- A number of nine bytes is a panic, and an address writes four bytes where its template says
five. -/
theorem addDataRecord_mismatch :
    (oddRegistry.get 256 = some wideTemplate ∧
        ((MessageBuilder.new oddRegistry 0 0).addDataRecord fullRecord 256).2 = .error .panic) ∧
      oddRegistry.get 257 = some longAddressTemplate ∧
      longAddressTemplate.fixedRecordLength = some 6 ∧
      ((MessageBuilder.new oddRegistry 0 0).addDataRecord fullRecord 257).2 = .ok () ∧
      ((MessageBuilder.new oddRegistry 0 0).addDataRecord fullRecord 257).1.sets =
        [.data 257 [0, 0, 0, 0, 6] 1] := by
  refine ⟨⟨by decide, by decide +kernel⟩, by decide, by decide, by decide +kernel, by decide +kernel⟩

end Flowscope.Ipfix
