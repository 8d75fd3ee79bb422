import Flowscope.Ipfix.Collector

/-!
# What is added to a message is found in it

A message is built by calls that announce templates and calls that add records, in any order. Sets are
opened and extended as the calls come. The items of a message are the templates and the records in it,
in order; `finalize_walks` says that a collector finds as items just what the calls added, whatever sets
they came to lie in, and that all lengths and counts are right.
-/

namespace Flowscope.Ipfix

open List MessageBuilder TemplateRegistry Content

open Get (Gives)

/-! ## Calls and items -/

/-- A call to the builder. -/
inductive Call where
  | templates (template_ids : List (BitVec 16))
  | record (rec : FlowRecord) (template_id : BitVec 16)

/-- How many records a call adds: one if it is to add one and succeeds. -/
def Call.adds : Call → Except Stop Unit → ℕ
  | .record _ _, .ok () => 1
  | _, _ => 0

/-- A template or a record of a message. -/
inductive Item where
  | template (t : TemplateDefinition)
  | record (template_id : BitVec 16) (values : List ℕ)
deriving DecidableEq, Repr

def Content.items : Content → List Item
  | .templates ts => ts.map .template
  | .data id records => records.map (.record id)

namespace MessageBuilder

def call (b : MessageBuilder) : Call → MessageBuilder × Except Stop Unit
  | .templates template_ids => b.addTemplateSet template_ids
  | .record rec template_id => b.addDataRecord rec template_id

def run (b : MessageBuilder) (calls : List Call) : MessageBuilder :=
  calls.foldl (fun b c => (b.call c).1) b

/-- How many records the calls of a run add. -/
def added (b : MessageBuilder) : List Call → ℕ
  | [] => 0
  | c :: calls => c.adds (b.call c).2 + added (b.call c).1 calls

end MessageBuilder

namespace Call

/-- The templates that a call announces: none unless all of them are registered. -/
def announces (registry : TemplateRegistry) : Call → List TemplateDefinition
  | .templates template_ids => (template_ids.mapM registry.get).getD []
  | .record _ _ => []

/-- What a call adds: for a record its values, if its template is registered and it has the addresses
that the template has. -/
def items (registry : TemplateRegistry) : Call → List Item
  | .templates template_ids => (announces registry (.templates template_ids)).map .template
  | .record rec template_id =>
    match (registry.get template_id).bind fun t => recordValues rec t.fields with
    | some values => [.record template_id values]
    | none => []

/-- The template of a record is among those that are known. -/
def Covered (known : List TemplateDefinition) : Call → Prop
  | .templates _ => True
  | .record _ template_id => ∃ t ∈ known, t.template_id = template_id

end Call

/-- The template of each record is known to the collector, or announced by a call before it. -/
def Announced (registry : TemplateRegistry) (known : List TemplateDefinition) : List Call → Prop
  | [] => True
  | c :: calls =>
    c.Covered known ∧ Announced registry ((c.announces registry).reverse ++ known) calls

/-! ## What a call does -/

/-- The sets of a message hold contents whose templates a collector knows in time. -/
structure Built (registry : TemplateRegistry) (known : List TemplateDefinition) (b : MessageBuilder)
    (contents : List Content) : Prop where
  registry_eq : b.registry = registry
  holds : List.Forall₂ (Holds registry) b.sets contents
  readable : Readable known contents

theorem forall₂_concat {α β : Type} {R : α → β → Prop} {l : List α} {a : α} {l' : List β}
    (h : List.Forall₂ R (l ++ [a]) l') : ∃ init b, l' = init ++ [b] ∧ List.Forall₂ R l init ∧ R a b := by
  induction l generalizing l' with
  | nil =>
    obtain ⟨b, _, hb, hnil, rfl⟩ := forall₂_cons_left_iff.mp h
    cases hnil
    exact ⟨[], b, rfl, .nil, hb⟩
  | cons x l ih =>
    obtain ⟨y, l'', hy, hrs, rfl⟩ := forall₂_cons_left_iff.mp h
    obtain ⟨init, b, rfl, hin, hb⟩ := ih hrs
    exact ⟨y :: init, b, rfl, .cons hy hin, hb⟩

variable (b : MessageBuilder)

theorem mapM_templateOf (ids : List (BitVec 16)) :
    match ids.mapM b.registry.get with
    | some ts => ids.mapM b.templateOf = .ok ts
    | none => ∃ e, ids.mapM b.templateOf = .error e := by
  induction ids with
  | nil => rfl
  | cons id ids ih =>
    rw [mapM_cons, mapM_cons, templateOf]
    cases b.registry.get id with
    | none => exact ⟨_, rfl⟩
    | some t =>
      cases hrs : ids.mapM b.registry.get with
      | none =>
        rw [hrs] at ih
        obtain ⟨e, he⟩ := ih
        rw [he]
        exact ⟨e, rfl⟩
      | some ts =>
        rw [hrs] at ih
        rw [ih]
        rfl

theorem get_of_mapM {registry : TemplateRegistry} {ids : List (BitVec 16)} {ts : List TemplateDefinition}
    (h : ids.mapM registry.get = some ts) {t : TemplateDefinition} (ht : t ∈ ts) :
    ∃ id, registry.get id = some t := by
  induction ids generalizing ts with
  | nil =>
    cases h
    exact nomatch ht
  | cons id ids ih =>
    rw [mapM_cons] at h
    cases hid : registry.get id with
    | none =>
      rw [hid] at h
      exact nomatch h
    | some t' =>
      cases hrs : ids.mapM registry.get with
      | none =>
        rw [hid, hrs] at h
        exact nomatch h
      | some ts' =>
        rw [hid, hrs] at h
        cases h
        rcases mem_cons.mp ht with rfl | ht
        · exact ⟨id, hid⟩
        · exact ih hrs ht

section Steps

variable {registry : TemplateRegistry} {known : List TemplateDefinition} {b : MessageBuilder}
  {contents : List Content}

/-- What is true after a call that has added what it adds. -/
def Added (registry : TemplateRegistry) (known : List TemplateDefinition) (b : MessageBuilder)
    (contents : List Content) (c : Call) (r : MessageBuilder × Except Stop Unit) : Prop :=
  ∃ contents', Built registry known r.1 contents' ∧
    contents'.flatMap Content.items = contents.flatMap Content.items ++ c.items registry ∧
    learned known contents' = (c.announces registry).reverse ++ learned known contents ∧
    r.1.dataRecordCount = b.dataRecordCount + c.adds r.2

/-- A call that fails leaves the message as it was. -/
theorem added_of_error (h : Built registry known b contents) {c : Call} (his : c.items registry = [])
    (han : c.announces registry = []) (e : Stop) :
    Added registry known b contents c (b, .error e) := by
  refine ⟨contents, h, ?_, ?_, ?_⟩
  · rw [his, append_nil]
  · rw [han]
    rfl
  · cases c <;> rfl

theorem added_templates (hcs : registry.Consistent) (h : Built registry known b contents)
    (ids : List (BitVec 16)) :
    Added registry known b contents (.templates ids) (b.call (.templates ids)) := by
  have hmap := mapM_templateOf b ids
  rw [h.registry_eq] at hmap
  rw [call, addTemplateSet]
  cases hget : ids.mapM registry.get with
  | none =>
    rw [hget] at hmap
    obtain ⟨e, he⟩ := hmap
    have han : Call.announces registry (.templates ids) = [] := by
      rw [Call.announces, hget, Option.getD_none]
    rw [he]
    refine added_of_error h ?_ han e
    rw [Call.items, han, map_nil]
  | some ts =>
    rw [hget] at hmap
    have han : Call.announces registry (.templates ids) = ts := by
      rw [Call.announces, hget, Option.getD_some]
    rw [hmap]
    refine ⟨contents ++ [.templates ts], ⟨h.registry_eq, ?_, ?_⟩, ?_, ?_, ?_⟩
    · apply rel_append h.holds
      refine .cons ⟨rfl, fun t ht => ?_⟩ .nil
      obtain ⟨id, hid⟩ := get_of_mapM hget ht
      rw [(hcs id t hid).1]
      exact hid
    · exact readable_append.mpr ⟨h.readable, trivial⟩
    · rw [flatMap_append, flatMap_singleton, Call.items, han, items]
    · rw [han]
      simp [learned, announces]
    · simp [dataRecordCount, Call.adds]

/-- A record goes into the last set, or into a new one. -/
theorem appendToDataSet_cases (b : MessageBuilder) (id : BitVec 16) (record : Bytes) :
    (∃ init records n, b.sets = init ++ [.data id records n] ∧ b.appendToDataSet id record =
          { b with sets := init ++ [.data id (records ++ record) (n + 1)] }) ∨
      b.appendToDataSet id record = { b with sets := b.sets ++ [.data id record 1] } := by
  unfold appendToDataSet
  rcases eq_nil_or_concat b.sets with hnil | ⟨init, last, hls⟩
  · rw [hnil]
    exact .inr rfl
  · rw [concat_eq_append] at hls
    rw [hls, getLast?_concat, dropLast_concat]
    cases last with
    | template ts => exact .inr rfl
    | data tid records n =>
      dsimp only
      by_cases htid : tid = id
      · subst htid
        rw [if_pos rfl]
        exact .inl ⟨init, records, n, rfl, rfl⟩
      · rw [if_neg htid]
        exact .inr rfl

/-- A record that was written is one more item. -/
theorem built_append (h : Built registry known b contents) {id : BitVec 16} {t : TemplateDefinition}
    (hget : registry.get id = some t)
    (hcv : ∃ t ∈ learned known contents, t.template_id = id) {record : Bytes} {values : List ℕ}
    (hgv : Gives (readRecord t) record values) (hne : record ≠ []) :
    ∃ contents', Built registry known (b.appendToDataSet id record) contents' ∧
      contents'.flatMap items = contents.flatMap items ++ [.record id values] ∧
      learned known contents' = learned known contents ∧
      (b.appendToDataSet id record).dataRecordCount = b.dataRecordCount + 1 := by
  rcases appendToDataSet_cases b id record with ⟨init, records, n, hss, hap⟩ | hap
  · -- the last set becomes longer
    have hhs := h.holds
    rw [hss] at hhs
    obtain ⟨before, last, rfl, hbf, hls⟩ := forall₂_concat hhs
    cases last with
    | templates ts => exact nomatch hls
    | data id' records' =>
      obtain ⟨rfl, rfl, t', ht', pieces, rfl, hpc⟩ := hls
      obtain rfl : t' = t := Option.some.inj (ht'.symm.trans hget)
      have hrd := readable_append.mp h.readable
      have hpc' : List.Forall₂ (fun w v => Gives (readRecord t') w v ∧ w ≠ [])
          (pieces ++ [record]) (records' ++ [values]) :=
        rel_append hpc (.cons ⟨hgv, hne⟩ .nil)
      have hls' : Holds registry (.data id (pieces.flatten ++ record) (records'.length + 1))
          (.data id (records' ++ [values])) :=
        ⟨rfl, by rw [length_append, length_singleton], t', hget, pieces ++ [record],
          by rw [flatten_append, flatten_singleton], hpc'⟩
      rw [hap]
      refine ⟨before ++ [.data id (records' ++ [values])], ⟨h.registry_eq, ?_, ?_⟩, ?_, ?_, ?_⟩
      · exact rel_append hbf (.cons hls' .nil)
      · exact readable_append.mpr hrd
      · simp [items]
      · simp [learned, announces]
      · simp [dataRecordCount, hss]
        omega
  · -- a new set
    have hnew : Holds registry (.data id record 1) (.data id [values]) :=
      ⟨rfl, rfl, t, hget, [record], by rw [flatten_singleton], .cons ⟨hgv, hne⟩ .nil⟩
    rw [hap]
    refine ⟨contents ++ [.data id [values]], ⟨h.registry_eq, ?_, ?_⟩, ?_, ?_, ?_⟩
    · exact rel_append h.holds (.cons hnew .nil)
    · exact readable_append.mpr ⟨h.readable, hcv, trivial⟩
    · simp [items]
    · simp [learned, announces]
    · simp [dataRecordCount]

variable (hcs : registry.Consistent) (h : Built registry known b contents)
include hcs h

theorem added_record
    (rec : FlowRecord) {id : BitVec 16} (hcv : ∃ t ∈ learned known contents, t.template_id = id) :
    Added registry known b contents (.record rec id) (b.call (.record rec id)) := by
  rw [call]
  cases hget : registry.get id with
  | none =>
    have his : Call.items registry (.record rec id) = [] := by
      rw [Call.items, hget]
      rfl
    have hsp : b.addDataRecord rec id = (b, .error (.error (.unknownTemplate id))) := by
      rw [addDataRecord, templateOf, h.registry_eq, hget]
      rfl
    rw [hsp]
    exact added_of_error h his rfl _
  | some t =>
    obtain ⟨-, hwe⟩ := hcs id t hget
    have hen := encoded hwe.natural rec
    have his : Call.items registry (.record rec id) = match recordValues rec t.fields with
        | some values => [.record id values]
        | none => [] := by
      rw [Call.items, hget, Option.bind_some]
    rw [addDataRecord_eq (h.registry_eq.symm ▸ hget)]
    generalize recordValues rec t.fields = values at hen his
    generalize t.fields.mapM (encodeField rec) = result at hen
    rcases values with _ | values <;> rcases result with e | pieces
    · exact added_of_error h his rfl e
    · cases hen
    · cases hen
    · obtain ⟨contents', hbl, his', hlr, hct⟩ :=
        built_append h hget hcv hen.1 (hen.2 hwe.nonempty)
      refine ⟨contents', hbl, ?_, ?_, hct⟩
      · rw [his', his]
      · rw [hlr]
        rfl

theorem added_call {c : Call}
    (hcv : c.Covered (learned known contents)) : Added registry known b contents c (b.call c) := by
  cases c with
  | templates ids => exact added_templates hcs h ids
  | record rec id => exact added_record hcs h rec hcv

theorem built_run
    {calls : List Call} (had : Announced registry (learned known contents) calls) :
    ∃ contents', Built registry known (b.run calls) contents' ∧
      contents'.flatMap items =
        contents.flatMap items ++ calls.flatMap (Call.items registry) ∧
      (b.run calls).dataRecordCount = b.dataRecordCount + b.added calls := by
  induction calls generalizing b contents with
  | nil => exact ⟨contents, h, (append_nil _).symm, rfl⟩
  | cons c calls ih =>
    obtain ⟨hcv, hrs⟩ := had
    obtain ⟨mid, hmid, his, hlr, hct⟩ := added_call hcs h hcv
    rw [← hlr] at hrs
    obtain ⟨contents', hbl, his', hct'⟩ := ih hmid hrs
    refine ⟨contents', hbl, ?_, ?_⟩
    · rw [his', his, flatMap_cons, append_assoc]
    · rw [added, ← Nat.add_assoc, ← hct]
      exact hct'

end Steps

/-! ## The whole message -/

def TemplateRegistry.of (observation_domain_id : BitVec 32) (templates : List TemplateDefinition) :
    TemplateRegistry :=
  templates.foldl TemplateRegistry.register (.new observation_domain_id)

theorem consistent_of (observation_domain_id : BitVec 32) {templates : List TemplateDefinition}
    (h : ∀ t ∈ templates, t.WellSized) :
    (of observation_domain_id templates).Consistent := by
  have hfo : ∀ r : TemplateRegistry, r.Consistent →
      (templates.foldl register r).Consistent := by
    induction templates with
    | nil => exact fun _ hr => hr
    | cons t templates ih =>
      intro r hr
      refine ih (fun t' ht' => h t' (mem_cons_of_mem t ht')) _ ?_
      intro id t' hget
      rw [TemplateRegistry.register, TemplateRegistry.get, Table.lookup_insert_eq] at hget
      split_ifs at hget with hid
      · cases hget
        exact ⟨hid.symm, h t mem_cons_self⟩
      · exact hr id t' hget
  apply hfo
  intro id t hget
  exact nomatch hget

theorem observation_domain_id_of (observation_domain_id : BitVec 32)
    (templates : List TemplateDefinition) :
    (of observation_domain_id templates).observation_domain_id =
      observation_domain_id := by
  have hfo : ∀ r : TemplateRegistry,
    (templates.foldl register r).observation_domain_id =
      r.observation_domain_id := by
    induction templates with
    | nil => exact fun _ => rfl
    | cons t templates ih => exact fun r => ih (r.register t)
  exact hfo _

theorem length_header : b.header.length = MESSAGE_HEADER_LEN := by
  simp [header, length_beBytes, MESSAGE_HEADER_LEN]

theorem length_message : (b.header ++ b.sets.flatMap writeSet).length = b.currentLength := by
  have hss : b.sets.map (fun set => (writeSet set).length) = b.sets.map setLength :=
    map_congr_left fun set _ => length_writeSet set
  rw [length_append, length_header, length_flatMap, hss, currentLength]

theorem gives_readHeader {b : MessageBuilder} (h : b.currentLength < 256 ^ 2) :
    Gives readHeader b.header (IPFIX_VERSION, b.currentLength, b.export_time, b.sequence_number,
      b.registry.observation_domain_id) := by
  have hvr : Gives (number 2) (beBytes 2 IPFIX_VERSION) IPFIX_VERSION := gives_number (by decide)
  have htm := gives_number_toNat 4 (by norm_num) b.export_time
  have hseq := gives_number_toNat 4 (by norm_num) b.sequence_number
  have hdm := (gives_number_toNat 4 (by norm_num) b.registry.observation_domain_id).map
    (f := fun n => (IPFIX_VERSION, b.currentLength, b.export_time, b.sequence_number, BitVec.ofNat 32 n))
  have hof : ∀ v : BitVec 32, BitVec.ofNat 32 v.toNat = v := by
    intro v
    rw [BitVec.ofNat_toNat, BitVec.setWidth_eq]
  rw [header, append_assoc, append_assoc, append_assoc]
  refine hvr.bind ((gives_number h).bind (htm.bind (hseq.bind ?_)))
  rw [hof] at hdm
  rw [hof, hof]
  exact hdm

theorem call_header (c : Call) :
    (b.call c).1.export_time = b.export_time ∧ (b.call c).1.sequence_number = b.sequence_number := by
  cases c with
  | templates ids =>
    rw [call, addTemplateSet]
    cases ids.mapM b.templateOf <;> exact ⟨rfl, rfl⟩
  | record rec id =>
    rw [call, addDataRecord]
    cases b.templateOf id >>= encodeFlowRecord rec with
    | error e => exact ⟨rfl, rfl⟩
    | ok record =>
      rcases appendToDataSet_cases b id record with ⟨_, _, _, _, hap⟩ | hap
      all_goals
        dsimp only
        rw [hap]
        exact ⟨rfl, rfl⟩

/-- A run changes only the sets. -/
theorem run_header (calls : List Call) :
    (b.run calls).export_time = b.export_time ∧ (b.run calls).sequence_number = b.sequence_number := by
  induction calls generalizing b with
  | nil => exact ⟨rfl, rfl⟩
  | cons c calls ih =>
    obtain ⟨htm, hseq⟩ := ih (b.call c).1
    obtain ⟨htm', hsq'⟩ := call_header b c
    exact ⟨htm.trans htm', hseq.trans hsq'⟩

theorem setLength_le {b : MessageBuilder} {set : SetBuffer} (h : set ∈ b.sets) :
    setLength set ≤ b.currentLength := by
  have hle : setLength set ≤ (b.sets.map setLength).sum := le_sum_of_mem (mem_map_of_mem h)
  rw [currentLength]
  omega

/-- The collector finds the contents of a message of proper length. -/
theorem walk_of_built {registry : TemplateRegistry} (hcs : registry.Consistent)
    {known : List TemplateDefinition} {b : MessageBuilder} {contents : List Content}
    (h : Built registry known b contents)
    (hkn : ∀ t ∈ known, registry.get t.template_id = some t) (hsz : b.currentLength ≤ 65535) :
    walk known (b.header ++ b.sets.flatMap writeSet) =
      some ⟨b.export_time, b.sequence_number, registry.observation_domain_id, contents⟩ := by
  have hlt : b.currentLength < 256 ^ 2 := by omega
  have hlen : ∀ set ∈ b.sets, setLength set < 256 ^ 2 := fun set hset => (setLength_le hset).trans_lt hlt
  have hss : Get.all readSet (b.sets.flatMap writeSet) =
      some (b.sets.map fun set => (set.id, set.content)) := by
    apply Get.all_flatten
    rw [forall₂_map_left_iff, forall₂_map_right_iff, forall₂_same]
    intro set hset
    refine ⟨gives_readSet (hlen set hset), ?_⟩
    rw [writeSet_eq]
    exact nofun
  have hcn := readSets_of_holds hcs h.holds hlen hkn h.readable
  rw [walk, gives_readHeader hlt]
  dsimp only
  rw [if_pos ⟨rfl, (length_message b).symm⟩, hss, h.registry_eq]
  change (readSets known _).bind _ = _
  rw [hcn]
  rfl

/-- A length that is written is read in its place. -/
theorem beNat_drop_take {k n : ℕ} {w rest : Bytes} (hw : w.length = 2) (hn : n < 256 ^ k) :
    beNat (((w ++ (beBytes k n ++ rest)).drop 2).take k) = n := by
  have hk : (beBytes k n).length = k := length_beBytes k n
  rw [← hw, drop_left]
  have htk : (beBytes k n ++ rest).take k = beBytes k n := by
    rw [take_append_of_le_length hk.ge, take_of_length_le hk.le]
  rw [htk, beNat_beBytes, Nat.mod_eq_of_lt hn]

/-- A collector finds in a message the templates and the values of the records that were added, in order.
The length of the message is known before it is written, the lengths of the message and of its sets are
written as they are, and the records are counted. -/
theorem finalize_walks (observation_domain_id sequence_number export_time : BitVec 32)
    {templates : List TemplateDefinition} (hwell : ∀ t ∈ templates, t.WellSized)
    {known : List TemplateDefinition}
    (hknown : ∀ t ∈ known,
      (TemplateRegistry.of observation_domain_id templates).get t.template_id = some t)
    {calls : List Call}
    (hannounced : Announced (TemplateRegistry.of observation_domain_id templates) known calls)
    {start b : MessageBuilder}
    (hstart : start =
      .new (TemplateRegistry.of observation_domain_id templates) sequence_number export_time)
    (hb : b = start.run calls) (hsize : b.currentLength ≤ 65535) :
    ∃ bytes contents, b.finalize = .ok bytes ∧
      walk known bytes = some ⟨export_time, sequence_number, observation_domain_id, contents⟩ ∧
      contents.flatMap Content.items =
        calls.flatMap (Call.items (TemplateRegistry.of observation_domain_id templates)) ∧
      b.currentLength = bytes.length ∧
      beNat ((bytes.drop 2).take 2) = bytes.length ∧
      bytes.drop MESSAGE_HEADER_LEN = b.sets.flatMap writeSet ∧
      (∀ set ∈ b.sets, beNat (((writeSet set).drop 2).take 2) = (writeSet set).length) ∧
      b.dataRecordCount = start.added calls := by
  have hcs := consistent_of observation_domain_id hwell
  have hem : Built (.of observation_domain_id templates) known start [] := by
    rw [hstart]
    exact ⟨rfl, .nil, trivial⟩
  obtain ⟨contents, hbl, his, hct⟩ := built_run hcs hem hannounced
  have hhd := run_header start calls
  have hfn : b.finalize = .ok (b.header ++ b.sets.flatMap writeSet) := if_neg (by omega)
  have hlt : b.currentLength < 256 ^ 2 := by omega
  have hdm : (of observation_domain_id templates).observation_domain_id =
      observation_domain_id := observation_domain_id_of observation_domain_id templates
  rw [← hb] at hbl hct hhd
  refine ⟨_, contents, hfn, ?_, his, (length_message b).symm, ?_, ?_, ?_, ?_⟩
  · have hwl := walk_of_built hcs hbl hknown hsize
    rw [hhd.1, hhd.2, hdm, hstart] at hwl
    exact hwl
  · rw [length_message]
    exact beNat_drop_take (length_beBytes _ _) hlt
  · rw [← length_header b, drop_left]
  · intro set hset
    rw [length_writeSet, writeSet_eq]
    exact beNat_drop_take (length_beBytes _ _) ((setLength_le hset).trans_lt hlt)
  · rw [hct, hstart]
    exact Nat.zero_add _

/-- A flow over IPv6: it does not have the addresses of IPv4. -/
def ipv6Record : FlowRecord :=
  { fullRecord with
    protocol_identifier := 17
    source_ipv4_address := none
    destination_ipv4_address := none }

def shortTemplate : TemplateDefinition := ⟨257, [⟨4, 1, none⟩, ⟨28, 16, none⟩]⟩

def longTemplate : TemplateDefinition := ⟨258, [⟨8, 4, some 9⟩, ⟨56, 6, none⟩, ⟨1, 8, none⟩]⟩

/-- Templates and records in turn. One record lacks an address. -/
def mixedCalls : List Call :=
  [.record fullRecord 257, .templates [258], .record fullRecord 258, .record ipv6Record 258,
    .record ipv6Record 257, .record fullRecord 257, .templates [258, 257]]

theorem wellSized_mixed : ∀ t ∈ [shortTemplate, longTemplate], t.WellSized := by
  have hall : ∀ t ∈ [shortTemplate, longTemplate], (∀ f ∈ t.fields, f.natural = true) ∧
      t.fields ≠ [] ∧ SET_ID_DATA_MIN ≤ t.template_id.toNat := by
    decide
  intro t ht
  obtain ⟨hnt, hnn, hid⟩ := hall t ht
  exact ⟨hnt, hnn, hid⟩

theorem announced_mixed :
    Announced (.of 1 [shortTemplate, longTemplate]) [shortTemplate] mixedCalls :=
  ⟨⟨shortTemplate, by decide, rfl⟩, trivial, ⟨longTemplate, by decide, rfl⟩,
    ⟨longTemplate, by decide, rfl⟩,
    ⟨shortTemplate, by decide, rfl⟩, ⟨shortTemplate, by decide, rfl⟩, trivial, trivial⟩

theorem finalize_walks_mixed :
    ∃ bytes contents,
      ((MessageBuilder.new (.of 1 [shortTemplate, longTemplate]) 7 9).run mixedCalls).finalize =
        .ok bytes ∧
      walk [shortTemplate] bytes = some ⟨9, 7, 1, contents⟩ ∧
      contents.flatMap Content.items =
        mixedCalls.flatMap (Call.items (.of 1 [shortTemplate, longTemplate])) := by
  obtain ⟨bytes, contents, hfn, hwl, his, -⟩ :=
    finalize_walks 1 7 9 wellSized_mixed (by decide) announced_mixed rfl rfl (by decide +kernel)
  exact ⟨bytes, contents, hfn, hwl, his⟩

/-- A message of a template without elements. -/
def emptyMessage (n : ℕ) : MessageBuilder :=
  (MessageBuilder.new (.of 1 [⟨256, []⟩]) 0 0).run
    (.templates [256] :: List.replicate n (.record fullRecord 256))

/-- A message of a template whose identifier is that of template sets. -/
def lowMessage : MessageBuilder :=
  (MessageBuilder.new (.of 1 [⟨2, [⟨4, 1, none⟩]⟩]) 0 0).run [.templates [2], .record fullRecord 2]

/-- Two records of a template without elements leave no more bytes than one, and a data set whose
identifier is that of template sets is not read. -/
theorem finalize_loses :
    ((emptyMessage 1).finalize.toOption = (emptyMessage 2).finalize.toOption ∧
        (emptyMessage 1).dataRecordCount = 1 ∧ (emptyMessage 2).dataRecordCount = 2) ∧
      lowMessage.dataRecordCount = 1 ∧ lowMessage.finalize.toOption.isSome = true ∧
      lowMessage.finalize.toOption.bind (walk []) = none := by
  decide +kernel

end Flowscope.Ipfix
