import Relabel.Proofs.Classification
import Relabel.Proofs.Extraction
import Relabel.Proofs.Relearning

set_option autoImplicit false

namespace Relabel

open ClassFile (constantAt? HasText HasClass)

namespace Entry.ReplacedBy

variable {entry other : Entry}

theorem constant_facts (replaced : entry.ReplacedBy other) (index : Nat) :
    other.constant.facts index = entry.constant.facts index := by
  by_cases text : entry.constant.tag = .text
  · obtain ⟨old, held⟩ := text_of_tag _ text
    obtain ⟨new, stored⟩ := text_of_tag _ (replaced.tag.trans text)
    rw [held, stored]
    rfl
  · rw [replaced.kept text]

theorem facts (replaced : entry.ReplacedBy other) : Thinned entry.facts other.facts := by
  rw [Entry.facts, Entry.facts, replaced.tag, replaced.index, replaced.constant_facts]
  exact .move _ _ _ _ (.refl _)

theorem handle (replaced : entry.ReplacedBy other) : other.handleFact? = entry.handleFact? := by
  by_cases text : entry.constant.tag = .text
  · obtain ⟨old, held⟩ := text_of_tag _ text
    obtain ⟨new, stored⟩ := text_of_tag _ (replaced.tag.trans text)
    simp only [handleFact?, held, stored]
  · simp only [handleFact?, replaced.kept text, replaced.index]

theorem all_facts {entries others : List Entry} (aligned : List.Forall₂ Entry.ReplacedBy entries others) :
    Thinned (entries.flatMap Entry.facts) (others.flatMap Entry.facts) := by
  induction aligned with
  | nil => exact .nil
  | cons one _ ih =>
      rw [List.flatMap_cons, List.flatMap_cons]
      exact one.facts.append ih

theorem all_handles {entries others : List Entry} (aligned : List.Forall₂ Entry.ReplacedBy entries others) :
    others.filterMap Entry.handleFact? = entries.filterMap Entry.handleFact? := by
  induction aligned with
  | nil => rfl
  | cons one _ ih => rw [List.filterMap_cons, List.filterMap_cons, one.handle, ih]

end Entry.ReplacedBy

theorem Pooled.facts_thinned {data out : Bytes} {pooled : Pooled data} {other : Pooled out}
    (aligned : List.Forall₂ Entry.ReplacedBy pooled.entries other.entries) :
    Thinned pooled.facts other.facts := by
  rw [Pooled.facts, Pooled.facts, Entry.ReplacedBy.all_handles aligned]
  exact (Entry.ReplacedBy.all_facts aligned).append (.refl _)

structure Tables.Unshared (tables : Tables) (constants : List Constant) (place : Nat) : Prop where
  members : ∀ header ∈ tables.members, header.name ≠ place
  constants : ∀ constant ∈ constants, ¬ constant.isNamedBy place

namespace Scanned

variable {mode : AttributeMode} {data : Bytes} {scan : Scan} (scanned : Scanned mode data scan)

theorem header_noted_iff {tables : Tables} (read : Tables.ofBytes data = .ok tables) (header : Header) :
    header.fact ∈ scanned.noted.toList ↔ header ∈ tables.members := by
  have stated := (scanned.stated read).2
  refine ⟨fun noted => ?_, fun member => ?_⟩
  · have inTables : header.fact ∈ tables.facts := by
      rw [← stated]
      exact List.mem_filter.mpr ⟨noted, rfl⟩
    rw [← tables.facts_headers]
    exact List.mem_filterMap.mpr ⟨header.fact, inTables, rfl⟩
  · have inTables : header.fact ∈ tables.facts := List.mem_append_right _ (List.mem_map_of_mem member)
    rw [← stated] at inTables
    exact (List.mem_filter.mp inTables).1

theorem uses_lighter {tables : Tables} (read : Tables.ofBytes data = .ok tables) {place : Nat}
    (unshared : tables.Unshared (ClassFile.constants data) place) {fact : Fact} (member : fact ∈ scanned.facts) {role : Role}
    (used : role ∈ fact.rolesAt place) : role = .className ∨ role.weight < Role.className.weight := by
  -- The use comes from a constant, from the tables or from an attribute.
  rcases scanned.fact_cases member with ⟨entry, inside, rfl | stated⟩ | ⟨_, _, _, rfl⟩ | noted
  · cases used
  · have among : entry.constant ∈ ClassFile.constants data := by
      rw [ClassFile.constants, scanned.pooled.walk]
      exact List.mem_map_of_mem inside
    have uses := (entry.constant.mem_roles place role).mp (Constant.role_of_fact stated used)
    rcases uses with ⟨_, named⟩ | ⟨rfl, _⟩ | ⟨rfl, _⟩ | moduleName
    · exact absurd named (unshared.constants _ among)
    · exact .inl rfl
    · exact .inr (by decide)
    · exact .inr (by rw [Constant.module_role_weight place _ role moduleName]; decide)
  · cases used
  · rcases body_fact_cases fact (scanned.noted_kinds fact noted) with ⟨header, rfl⟩ | ⟨_, _, rfl⟩ | other
    · rcases (header.mem_roles place role).mp used with ⟨_, named⟩ | ⟨rfl, _⟩
      · exact absurd named (unshared.members header ((scanned.header_noted_iff read header).mp noted))
      · exact .inr (by decide)
    · cases used
    · exact .inr (Nat.lt_of_le_of_lt (attribute_use_weight other used) (by decide))

theorem unshared_role (scanned : Scanned mode data scan) {tables : Tables} (read : Tables.ofBytes data = .ok tables)
    {index : Nat} {text : UInt16} {name : Name} (held : constantAt? data index = some (.classRef text))
    (named : constantAt? data text.toNat = some (.text name))
    (unshared : tables.Unshared (ClassFile.constants data) text.toNat) : scan.catalog.role text.toNat = .ok .className := by
  obtain ⟨entry, member, rfl, constant⟩ := (scanned.pooled.constant_at _ _).mp held
  have stated : Fact.className entry.index text.toNat ∈ scanned.facts :=
    scanned.entry_facts entry member _ (by rw [constant]; exact .head _)
  have present : Role.className ∈ scanned.facts.flatMap (Fact.rolesAt text.toNat) :=
    List.mem_flatMap.mpr ⟨_, stated, (Fact.mem_roles_at _ _ _).mpr (.head _)⟩
  rw [scanned.role_told _ (scanned.pooled.constant_addressable _ _ named), Slot.told_role]
  apply congrArg Except.ok
  apply Role.promote_all_top .className .plain _ present (Nat.zero_le _)
  intro role used
  obtain ⟨fact, learnt, used⟩ := List.mem_flatMap.mp used
  exact scanned.uses_lighter read unshared learnt used

theorem shared_use {tables : Tables} (read : Tables.ofBytes data = .ok tables) {place : Nat}
    (shared : ¬ tables.Unshared (ClassFile.constants data) place) :
    ∃ role ∈ scanned.facts.flatMap (Fact.rolesAt place), Role.memberName.weight ≤ role.weight := by
  by_cases declared : ∃ header ∈ tables.members, header.name = place
  · obtain ⟨header, member, named⟩ := declared
    have used := (header.mem_roles place header.kind.ownRole).mpr (.inl ⟨rfl, named⟩)
    have noted := (scanned.header_noted_iff read header).mpr member
    refine ⟨_, List.mem_flatMap.mpr ⟨_, List.mem_append_right _ noted, used⟩, ?_⟩
    cases header.kind <;> decide
  · have linked : ∃ constant ∈ ClassFile.constants data, constant.isNamedBy place := by
      by_contra none
      exact shared ⟨fun header member named => declared ⟨header, member, named⟩,
        fun constant member named => none ⟨constant, member, named⟩⟩
    obtain ⟨constant, among, named⟩ := linked
    rw [ClassFile.constants, scanned.pooled.walk] at among
    obtain ⟨entry, inside, rfl⟩ := List.mem_map.mp among
    have used := (entry.constant.mem_roles place .memberName).mpr (.inl ⟨rfl, named⟩)
    rw [← entry.constant.facts_roles place entry.index] at used
    obtain ⟨fact, stated, used⟩ := List.mem_flatMap.mp used
    exact ⟨_, List.mem_flatMap.mpr ⟨fact, scanned.entry_facts entry inside fact stated, used⟩, Nat.le_refl _⟩

theorem shared_role {tables : Tables} (read : Tables.ofBytes data = .ok tables) {place : Nat}
    (here : Catalog.Addressable scanned.pooled.count place) (shared : ¬ tables.Unshared (ClassFile.constants data) place) :
    ∃ role ∈ [Role.memberName, .ownField, .ownMethod], scan.catalog.role place = .ok role := by
  have heavy := Role.promote_all_heavy _ .plain _ (.inr (scanned.shared_use read shared))
  rw [← Slot.told_role] at heavy
  refine ⟨(Slot.told place scanned.facts).role, ?_, scanned.role_told place here⟩
  cases role : (Slot.told place scanned.facts).role with
  | memberName | ownField | ownMethod => decide
  | _ =>
      rw [role] at heavy
      exact absurd heavy (by decide)

end Scanned

structure ReadsBack (data out : Bytes) (tables : Tables) (name : Name) : Prop where
  scans : ∃ scan, Scan.ofBytes .pass out = .ok scan
  scanned : ∀ mode scan, Scan.ofBytes mode out = .ok scan → scan.thisName = .ok name
  extracts : (∀ method ∈ tables.methods, HasText data method.name ∧ HasText data method.descriptor) →
    ∃ found, NamedShape.ofBytes out = .ok found
  extracted : ∀ found, NamedShape.ofBytes out = .ok found → found.name = name

theorem prepared_classes {σ : Type} {renamer : Renamer} {oracle : Oracle σ} {settings : Settings} {data : Bytes} {job : Job σ}
    (ran : Job.prepare renamer oracle settings data = .ok job) {tables : Tables} (outline : tables.outline = job.scan.outline) :
    ∀ index ∈ tables.classes, ∃ name, job.scan.className index = .ok name := by
  obtain ⟨named, superNamed, interfacesNamed⟩ := prepare_named ran
  intro index member
  rw [Tables.classes, outline] at member
  rcases List.mem_cons.mp member with rfl | member
  · exact ⟨_, named⟩
  rcases List.mem_append.mp member with member | member
  · by_cases none : job.scan.outline.superClass = 0
    · rw [Tables.superClasses, if_neg (fun some => some none)] at member
      cases member
    · rw [Tables.superClasses, if_pos none, List.mem_singleton] at member
      rw [Scan.superName, if_neg none] at superNamed
      exact ⟨_, by rw [member]; exact superNamed⟩
  · exact except_map_each _ interfacesNamed index member

namespace Renewed

variable {σ : Type} {renamer : Renamer} {oracle : Oracle σ} {settings : Settings} {data : Bytes} {p q : Progress σ}
  {renamed : RenamedClass} (run : Renewed renamer oracle settings data p q renamed) {tables : Tables}

theorem own_name : run.job.scan.thisName = .ok renamed.oldName ∧ renamed.name = run.job.renamer.className renamed.oldName := by
  obtain ⟨scan, name, _, _, _, named, same⟩ := prepare_inv run.prepared
  rw [run.oldName, run.name, same]
  exact ⟨named, rfl⟩

theorem aligned : List.Forall₂ Entry.ReplacedBy run.scanned.pooled.entries run.out.entries :=
  placed_replaced _ _ _ _ _ (new_constants_replace run.job _ _ p q run.renewed)

include run in
theorem tables_kept (read : Tables.ofBytes data = .ok tables) : Tables.ofBytes renamed.bytes = .ok tables := by
  obtain ⟨c, ran⟩ := run.scanned.pooled.read_of_tables read
  obtain ⟨_, d, again, rfl, _⟩ := Tables.movable_read _ (.ahead run.out.stop run.out.body) _ _
    ⟨_, _, run.out.body, by rw [run.body], rfl⟩ ran
  exact run.out.tables_of_read again

theorem thinned (read : Tables.ofBytes data = .ok tables) : Thinned run.scanned.facts (run.out.facts ++ tables.facts) := by
  have noted : Thinned run.scanned.noted.toList tables.facts := by
    rw [← (run.scanned.stated read).2]
    exact .filter _ _ fun fact member => body_fact_plain fact (run.scanned.noted_kinds fact member)
  exact (Pooled.facts_thinned run.aligned).append noted

include run in
theorem rescanned (read : Tables.ofBytes data = .ok tables) : ∃ scan, Scan.ofBytes .pass renamed.bytes = .ok scan := by
  obtain ⟨catalog, learnt⟩ := (run.thinned read).learnt (fun _ => rfl) run.scanned.learnt
  rw [← run.count] at learnt
  exact run.out.scan_passes (run.tables_kept read) learnt

include run in
theorem text_kept {index : Nat} (there : HasText data index) : HasText renamed.bytes index := by
  obtain ⟨name, held⟩ := there
  obtain ⟨new, written, _⟩ := run.text_renamed index name held
  exact ⟨new, written⟩

include run in
theorem class_kept {index : Nat} {name : Name} (there : HasClass data index name) :
    ∃ new, HasClass renamed.bytes index new := by
  obtain ⟨text, held, named⟩ := there
  obtain ⟨new, written⟩ := run.text_kept ⟨name, named⟩
  exact ⟨new, text, run.constant_kept index _ held (fun same => nomatch same), written⟩

include run in
theorem resolved (outline : tables.outline = run.job.scan.outline)
    (texts : ∀ method ∈ tables.methods, HasText data method.name ∧ HasText data method.descriptor) :
    tables.Resolved renamed.bytes where
  classes index member := by
    obtain ⟨name, named⟩ := prepared_classes run.prepared outline index member
    exact run.class_kept ((run.scanned.class_name_iff index name).mp named)
  methods header member := ⟨run.text_kept (texts header member).1, run.text_kept (texts header member).2⟩

theorem reads_back (read : Tables.ofBytes data = .ok tables) (outline : tables.outline = run.job.scan.outline) {new : Name}
    (own : HasClass renamed.bytes tables.outline.thisClass new) : ReadsBack data renamed.bytes tables new where
  scans := run.rescanned read
  scanned mode scan accepted := by
    obtain ⟨again⟩ := scan_inv mode renamed.bytes scan accepted
    rw [Scan.thisName, ← (again.stated (run.tables_kept read)).1]
    exact (again.class_name_iff _ new).mpr own
  extracts texts := run.out.extracts (run.tables_kept read) (run.resolved outline texts)
  extracted found extracted := (run.out.extract_name (run.tables_kept read) extracted).unique own

end Renewed

theorem delivered_name_read_back {σ : Type} (renamer : Renamer) (oracle : Oracle σ) (settings : Settings) (data : Bytes)
    (p q : Progress σ) (renamed : RenamedClass) (ran : renameClass renamer oracle settings data p = .ok renamed q) :
    ∃ (tables : Tables) (text : UInt16) (name : Name), Tables.ofBytes data = .ok tables ∧
      constantAt? data tables.outline.thisClass = some (.classRef text) ∧
      constantAt? data text.toNat = some (.text renamed.oldName) ∧
      constantAt? renamed.bytes text.toNat = some (.text name) ∧ ReadsBack data renamed.bytes tables name ∧
      (tables.Unshared (ClassFile.constants data) text.toNat → name = renamed.name) ∧
      (¬ tables.Unshared (ClassFile.constants data) text.toNat → ∃ scan, Scan.ofBytes settings.attributes data = .ok scan ∧
        ∃ role ∈ [Role.memberName, .ownField, .ownMethod], scan.catalog.role text.toNat = .ok role) := by
  obtain ⟨run⟩ := rename_class_renewed ran
  obtain ⟨tables, read, outline, _⟩ := run.scanned.tables
  obtain ⟨text, held, named⟩ := (run.scanned.class_name_iff _ _).mp run.own_name.1
  rw [← outline] at held
  obtain ⟨new, written, ⟨start, stop, _, _, _, renewed, _⟩⟩ := run.text_renamed text.toNat _ named
  have own : HasClass renamed.bytes tables.outline.thisClass new :=
    ⟨text, run.constant_kept _ _ held (fun same => nomatch same), written⟩
  refine ⟨tables, text, new, read, held, named, written, run.reads_back read outline own, fun unshared => ?_, fun shared => ?_⟩
  · rw [Job.newText, run.scanned.unshared_role read held named unshared, lift_ok_bind] at renewed
    cases renewed
    exact run.own_name.2.symm
  · exact ⟨_, run.scanned.accepted, run.scanned.shared_role read (run.scanned.pooled.constant_addressable _ _ named) shared⟩

def deliveredClass : Bytes :=
  [0xCA, 0xFE, 0xBA, 0xBE, 0, 0, 0, 52, 0, 5, 1, 0, 1, 97, 7, 0, 1, 1, 0, 1, 109, 1, 0, 3, 40, 41, 86,
    0, 33, 0, 2, 0, 0, 0, 0, 0, 0, 0, 1, 0, 1, 0, 3, 0, 4, 0, 0, 0, 0]

def deliveredTables : Tables := ⟨⟨2, 0, []⟩, [], [⟨.method, 3, 4⟩]⟩

def deliveredRules : RuleSet := ({} : RuleSet).putClass (.ofString "a") (.ofString "b")

def deliveredRenamed : RenamedClass :=
  ⟨.ofString "a", .ofString "b",
    [0xCA, 0xFE, 0xBA, 0xBE, 0, 0, 0, 52, 0, 5, 1, 0, 1, 98, 7, 0, 1, 1, 0, 1, 109, 1, 0, 3, 40, 41, 86,
      0, 33, 0, 2, 0, 0, 0, 0, 0, 0, 0, 1, 0, 1, 0, 3, 0, 4, 0, 0, 0, 0]⟩

theorem delivered_name_read_back_sample :
    renameClass deliveredRules.renamer Oracle.empty {} deliveredClass ⟨(), #[]⟩ = .ok deliveredRenamed ⟨(), #[]⟩ ∧
      deliveredTables.Unshared (ClassFile.constants deliveredClass) 1 ∧
      ReadsBack deliveredClass deliveredRenamed.bytes deliveredTables deliveredRenamed.name ∧
      ∃ found, NamedShape.ofBytes deliveredRenamed.bytes = .ok found := by
  have renamed : renameClass deliveredRules.renamer Oracle.empty {} deliveredClass ⟨(), #[]⟩ =
      .ok deliveredRenamed ⟨(), #[]⟩ := rfl
  obtain ⟨tables, text, name, read, held, _, _, back, unshared, _⟩ := delivered_name_read_back _ _ _ _ _ _ _ renamed
  obtain rfl : deliveredTables = tables := Except.ok.inj read
  obtain rfl : 1 = text := Constant.classRef.inj (Option.some.inj held)
  have alone : deliveredTables.Unshared (ClassFile.constants deliveredClass) 1 := ⟨by decide, by decide⟩
  obtain rfl := unshared alone
  refine ⟨renamed, alone, back, back.extracts fun method member => ?_⟩
  obtain rfl := List.mem_singleton.mp member
  exact ⟨⟨.ofString "m", rfl⟩, .ofString "()V", rfl⟩

def takenClass : Bytes :=
  [0xCA, 0xFE, 0xBA, 0xBE, 0, 0, 0, 52, 0, 4, 1, 0, 1, 97, 7, 0, 1, 1, 0, 1, 73,
    0, 33, 0, 2, 0, 0, 0, 0, 0, 1, 0, 0, 0, 1, 0, 3, 0, 0, 0, 0, 0, 0]

theorem delivered_name_taken_over :
    renameClass deliveredRules.renamer Oracle.empty {} takenClass ⟨(), #[]⟩ =
        .ok ⟨.ofString "a", .ofString "b", takenClass⟩ ⟨(), #[]⟩ ∧
      (Scan.ofBytes .interpret takenClass).bind Scan.thisName = .ok (.ofString "a") ∧
      (NamedShape.ofBytes takenClass).map NamedShape.name = .ok (.ofString "a") := ⟨rfl, rfl, rfl⟩

end Relabel
