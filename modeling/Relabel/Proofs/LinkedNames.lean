import Relabel.Proofs.FixedAnswers

set_option autoImplicit false

namespace Relabel

open ClassFile (constantAt?)

namespace Fact

def namedFor? (name : Nat) : Fact → Option Nat
  | .nameAndType index text _ => if text = name then some index else none
  | _ => none

def typedFor? (target : Nat) : Fact → Option Nat
  | .nameAndType index _ descriptor => if index = target then some descriptor else none
  | _ => none

def ownerFor? (target : Nat) : Fact → Option Nat
  | .member linked owner _ => if linked = target then some owner else none
  | _ => none

def encloserFor? (target : Nat) : Fact → Option Nat
  | .enclosing linked owner => if linked = target then some owner else none
  | _ => none

def kindFor? (target : Nat) : Fact → Option MemberKind
  | .member linked _ kind => if linked = target then some kind else none
  | .dynamic linked | .enclosing linked _ => if linked = target then some .method else none
  | _ => none

end Fact

namespace Slot

variable {place : Nat}

theorem after_links (slot : Slot) (fact : Fact) :
    (slot.after place fact).nameAndTypes =
      (fact.namedFor? place).elim slot.nameAndTypes slot.nameAndTypes.put := by
  cases fact with
  | nameAndType index name descriptor =>
      by_cases here : name = place <;>
        simp [after, used, changed, apply_ite Slot.nameAndTypes, Fact.namedFor?, here]
  | _ => simp [after, used, changed, apply_ite Slot.nameAndTypes, Fact.namedFor?]

theorem told_current (facts : List Fact) :
    (told place facts).nameAndTypes.current = (facts.filterMap (Fact.namedFor? place)).getLast? := by
  rw [told_last (·.nameAndTypes.current) (Fact.namedFor? place) facts, Option.or_none]
  intro fact _ slot
  rw [after_links]
  cases fact.namedFor? place with
  | none => rfl
  | some target => exact slot.nameAndTypes.put_current target

theorem mem_told_links (facts : List Fact) (target : Nat) :
    target ∈ (told place facts).nameAndTypes.toList ↔ target ∈ facts.filterMap (Fact.namedFor? place) :=
  mem_told_put Slot.nameAndTypes rfl (fun fact slot => slot.after_links fact) facts target

theorem told_kind (facts : List Fact) (known : ∀ target owner kind, Fact.member target owner kind ∈ facts → kind ≠ .unknown) :
    some (told place facts).memberKind = (facts.filterMap (Fact.kindFor? place)).getLast?.or (some .unknown) := by
  refine told_last (some ·.memberKind) (Fact.kindFor? place) facts fun fact member slot => ?_
  cases fact with
  | member target owner kind =>
      have certain := known target owner kind member
      by_cases here : target = place <;> simp [after, changed, Fact.kindFor?, MemberKind.update, here, certain]
  | dynamic target | enclosing target _ =>
      by_cases here : target = place <;> simp [after, changed, Fact.kindFor?, MemberKind.update, here]
  | _ => simp [after, used, changed, apply_ite Slot.memberKind, Fact.kindFor?]

theorem told_owner (facts : List Fact) :
    (told place facts).owner =
      (facts.filterMap (Fact.ownerFor? place)).getLast?.or (facts.filterMap (Fact.encloserFor? place)).head? := by
  -- References replace each other. An enclosing method counts only where there is no reference.
  have run : ∀ slot : Slot, (facts.foldl (after place) slot).owner =
      (facts.filterMap (Fact.ownerFor? place)).getLast?.or
        (slot.owner.or (facts.filterMap (Fact.encloserFor? place)).head?) := by
    induction facts with
    | nil => simp
    | cons fact rest ih =>
        intro slot
        rw [List.foldl_cons, ih]
        cases fact with
        | member target owner kind =>
            by_cases here : target = place
            · cases last : (rest.filterMap (Fact.ownerFor? place)).getLast? <;>
                simp [after, changed, Fact.ownerFor?, Fact.encloserFor?, here, last, List.getLast?_cons]
            · simp [after, changed, Fact.ownerFor?, Fact.encloserFor?, here, List.findSome?_cons]
        | enclosing target owner =>
            by_cases here : target = place <;>
              simp [after, changed, Fact.ownerFor?, Fact.encloserFor?, here]
        | _ => simp [after, used, changed, apply_ite Slot.owner, Fact.ownerFor?, Fact.encloserFor?, List.findSome?_cons]
  simpa [told] using run {}

end Slot

def Owned (facts : List Fact) (target : Nat) : Prop :=
  (∃ owner kind, Fact.member target owner kind ∈ facts) ∨ ∃ owner, Fact.enclosing target owner ∈ facts

structure TakenFor (facts : List Fact) (target : Nat) (kind : MemberKind) (owner : Nat) : Prop where
  owner : (facts.filterMap (Fact.ownerFor? target)).getLast? = some owner
  kind : (facts.filterMap (Fact.kindFor? target)).getLast? = some kind

theorem Slot.owned_iff (facts : List Fact) (target : Nat) : (told target facts).owner ≠ none ↔ Owned facts target := by
  rw [told_owner, ne_eq, Option.or_eq_none_iff, List.getLast?_eq_none_iff, List.head?_eq_none_iff,
    List.filterMap_eq_nil_iff, List.filterMap_eq_nil_iff, Owned]
  constructor
  · intro stated
    by_cases owned : (∃ owner kind, Fact.member target owner kind ∈ facts) ∨ ∃ owner, Fact.enclosing target owner ∈ facts
    · exact owned
    · refine absurd ⟨fun fact member => ?_, fun fact member => ?_⟩ stated
      · cases fact with
        | member linked owner kind =>
            have apart : linked ≠ target := fun same => owned (.inl ⟨owner, kind, same ▸ member⟩)
            simp [Fact.ownerFor?, apart]
        | _ => rfl
      · cases fact with
        | enclosing linked owner =>
            have apart : linked ≠ target := fun same => owned (.inr ⟨owner, same ▸ member⟩)
            simp [Fact.encloserFor?, apart]
        | _ => rfl
  · rintro (⟨owner, kind, member⟩ | ⟨owner, member⟩) ⟨unreferred, unenclosed⟩
    · simpa [Fact.ownerFor?] using unreferred _ member
    · simpa [Fact.encloserFor?] using unenclosed _ member

namespace Scanned

variable {mode : AttributeMode} {data : Bytes} {scan : Scan} (scanned : Scanned mode data scan)

theorem member_kinds (target owner : Nat) (kind : MemberKind) (member : Fact.member target owner kind ∈ scanned.facts) :
    kind ≠ .unknown := by
  obtain ⟨entry, _, stated⟩ := scanned.pool_fact (.member target owner kind) trivial member
  cases held : entry.constant <;> simp_all [Constant.facts]

theorem name_and_type_of_fact (index name descriptor : Nat)
    (member : Fact.nameAndType index name descriptor ∈ scanned.facts) :
    ∃ text typed, constantAt? data index = some (.nameAndType text typed) ∧ text.toNat = name ∧ typed.toNat = descriptor := by
  obtain ⟨entry, inside, stated⟩ := scanned.pool_fact (.nameAndType index name descriptor) trivial member
  have held := scanned.pooled.constant_of_entry entry inside
  cases constant : entry.constant <;> simp_all [Constant.facts]

theorem descriptor_told (index : Nat) (name descriptor : UInt16)
    (held : constantAt? data index = some (.nameAndType name descriptor)) :
    (Slot.told index scanned.facts).descriptor = some descriptor.toNat := by
  obtain ⟨entry, member, rfl, constant⟩ := (scanned.pooled.constant_at _ _).mp held
  have stated : Fact.nameAndType entry.index name.toNat descriptor.toNat ∈ scanned.facts :=
    scanned.entry_facts entry member _ (by rw [constant]; exact .head _)
  apply Slot.told_only (·.descriptor) (Fact.typedFor? entry.index) scanned.facts descriptor.toNat
  · intro fact _ slot
    cases fact with
    | nameAndType index text typed =>
        by_cases here : index = entry.index <;>
          simp [Slot.after, Slot.used, Slot.changed, apply_ite Slot.descriptor, Fact.typedFor?, here]
    | _ => simp [Slot.after, Slot.used, Slot.changed, apply_ite Slot.descriptor, Fact.typedFor?]
  · intro fact inside other written
    cases fact with
    | nameAndType index text typed =>
        by_cases here : index = entry.index
        · obtain ⟨_, _, same, _, rfl⟩ := scanned.name_and_type_of_fact index text typed inside
          rw [here, held] at same
          cases same
          simpa [Fact.typedFor?, here] using written.symm
        · simp [Fact.typedFor?, here] at written
    | _ => cases written
  · exact ⟨_, stated, by simp [Fact.typedFor?]⟩

theorem member_of (index : Nat) (name descriptor : UInt16)
    (held : constantAt? data index = some (.nameAndType name descriptor)) :
    scan.catalog.memberOf? index =
      (Slot.told index scanned.facts).owner.map fun owner =>
        ⟨(Slot.told index scanned.facts).memberKind, owner, descriptor.toNat⟩ := by
  have here := scanned.pooled.constant_addressable index _ held
  have stored := Catalog.learnt_slot scanned.pooled.count scanned.facts scan.catalog () scanned.learnt here.2
  rw [Catalog.memberOf?, stored]
  cases owned : (Slot.told index scanned.facts).owner <;>
    simp [owned, scanned.descriptor_told index name descriptor held]

theorem member_taken (index : Nat) (name descriptor : UInt16) (kind : MemberKind) (owner : Nat)
    (held : constantAt? data index = some (.nameAndType name descriptor)) (taken : TakenFor scanned.facts index kind owner) :
    scan.catalog.memberOf? index = some ⟨kind, owner, descriptor.toNat⟩ := by
  have owned : (Slot.told index scanned.facts).owner = some owner := by
    rw [Slot.told_owner, taken.owner]
    rfl
  have known : some (Slot.told index scanned.facts).memberKind = _ := Slot.told_kind scanned.facts scanned.member_kinds
  rw [taken.kind] at known
  rw [scanned.member_of index name descriptor held, owned, Option.some.inj known]
  rfl

theorem named_by (target : Nat) (name descriptor : UInt16)
    (held : constantAt? data target = some (.nameAndType name descriptor)) :
    target ∈ scanned.facts.filterMap (Fact.namedFor? name.toNat) := by
  obtain ⟨entry, member, rfl, constant⟩ := (scanned.pooled.constant_at _ _).mp held
  have stated : Fact.nameAndType entry.index name.toNat descriptor.toNat ∈ scanned.facts :=
    scanned.entry_facts entry member _ (by rw [constant]; exact .head _)
  exact List.mem_filterMap.mpr ⟨_, stated, by simp [Fact.namedFor?]⟩

theorem linked_members (index : Nat) (here : Catalog.Addressable scanned.pooled.count index) :
    scan.catalog.linkedMember? index =
        .ok ((scanned.facts.filterMap (Fact.namedFor? index)).getLast?.bind scan.catalog.memberOf?) ∧
      ∃ members, scan.catalog.linkedMembers index = .ok members ∧
        ∀ target ∈ scanned.facts.filterMap (Fact.namedFor? index), ∀ member, scan.catalog.memberOf? target = some member →
          member ∈ members := by
  have slot := scanned.slot index here
  refine ⟨?_, ((Slot.told index scanned.facts).nameAndTypes.toList.filterMap scan.catalog.memberOf?).eraseDups, ?_, ?_⟩
  · rw [Catalog.linkedMember?, slot, ← Slot.told_current]
    rfl
  · rw [Catalog.linkedMembers, slot]
    rfl
  · intro target linked member found
    rw [List.mem_eraseDups]
    exact List.mem_filterMap.mpr ⟨target, (Slot.mem_told_links scanned.facts target).mpr linked, found⟩

end Scanned

namespace Job

open Renaming

variable {σ : Type} (job : Job σ)

theorem member_name_inv {index : Nat} {held new : Name} {p q : Progress σ} {last : Option LinkedMember}
    {members : List LinkedMember} (linked : job.scan.catalog.linkedMember? index = .ok last)
    (listed : job.scan.catalog.linkedMembers index = .ok members)
    (ran : job.memberName index held p = .ok new q) (silent : q.warnings = p.warnings) :
    (last = none → new = held) ∧ (last ≠ none → ∀ member ∈ members, job.linkedName held member = .ok new) := by
  rw [memberName, linked, lift_ok_bind] at ran
  cases last with
  | none =>
      cases ran
      exact ⟨fun _ => rfl, fun owned => absurd rfl owned⟩
  | some current =>
      refine ⟨fun unowned => absurd unowned (Option.some_ne_none _), fun _ member inside => ?_⟩
      obtain ⟨used, middle, asked, ranRest⟩ := bind_ok_inv ran
      obtain ⟨renamed, rfl⟩ := lift_ok_inv asked
      rw [listed, lift_ok_bind] at ranRest
      obtain ⟨_, agreed, rfl⟩ := map_ok_inv ranRest
      have settled := fun member => settled_known (σ := σ) (job.linkedName held member)
      -- A user that differs would have been reported.
      rcases agree_inv settled _ middle q agreed with ⟨_, all⟩ | ⟨_, _, other, _, _, said⟩
      · by_cases same : member = current
        · rw [same, renamed]
        · have answered := all member (List.mem_filter.mpr ⟨inside, by simpa using same⟩)
          cases known : job.linkedName held member with
          | error e =>
              rw [known] at answered
              cases answered
          | ok name =>
              rw [known] at answered
              exact congrArg Except.ok (Option.some.inj answered)
      · have sizes := congrArg Array.size (silent.symm.trans said)
        rw [Array.size_push] at sizes
        omega

theorem Passage.still {p q : Progress σ} {index : Nat} {held new : Name} {job : Job σ}
    (passage : job.Passage p q index held new) (silent : q.warnings = p.warnings) :
    passage.stop.warnings = passage.start.warnings := by
  have whole := passage.whole
  have added := passage.added
  rw [silent] at whole
  obtain ⟨first, _⟩ := List.append_eq_nil_iff.mp (List.self_eq_append_right.mp whole)
  obtain ⟨_, own⟩ := List.append_eq_nil_iff.mp first
  rw [own, List.append_nil] at added
  exact Array.toList_inj.mp added

end Job

def Constant.reference? : Constant → Option (MemberKind × Nat × Nat)
  | .fieldRef owner target => some (.field, owner.toNat, target.toNat)
  | .methodRef owner target | .interfaceMethodRef owner target => some (.method, owner.toNat, target.toNat)
  | _ => none

theorem reference_kind {constant : Constant} {kind : MemberKind} {owner target : Nat}
    (refers : constant.reference? = some (kind, owner, target)) : kind = .field ∨ kind = .method := by
  cases constant <;> simp_all [Constant.reference?]

structure MemberReference (data : Bytes) where
  index : Nat
  constant : Constant
  kind : MemberKind
  owner : Nat
  target : Nat
  classText : UInt16
  name : UInt16
  descriptor : UInt16
  className : Name
  held : Name
  typeText : Name
  made : constantAt? data index = some constant
  refers : constant.reference? = some (kind, owner, target)
  owned : constantAt? data owner = some (.classRef classText)
  linked : constantAt? data target = some (.nameAndType name descriptor)
  classNamed : constantAt? data classText.toNat = some (.text className)
  named : constantAt? data name.toNat = some (.text held)
  typed : constantAt? data descriptor.toNat = some (.text typeText)

def Renamer.member (r : Renamer) (kind : MemberKind) (owner name descriptor : Name) : Name :=
  match kind with
  | .field => r.field owner name descriptor
  | _ => r.method owner name descriptor

theorem Renewed.linked_text {σ : Type} {renamer : Renamer} {oracle : Oracle σ} {settings : Settings} {data : Bytes}
    {p q : Progress σ} {renamed : RenamedClass} (run : Renewed renamer oracle settings data p q renamed)
    (silent : q.warnings = p.warnings) (name last : Nat) (held : Name) (here : constantAt? data name = some (.text held))
    (role : run.job.scan.catalog.role name = .ok .memberName)
    (ends : (run.scanned.facts.filterMap (Fact.namedFor? name)).getLast? = some last) :
    ∃ new, constantAt? renamed.bytes name = some (.text new) ∧ (¬ Owned run.scanned.facts last → new = held) ∧
      (Owned run.scanned.facts last → ∀ target ∈ run.scanned.facts.filterMap (Fact.namedFor? name), ∀ member,
        run.job.scan.catalog.memberOf? target = some member → run.job.linkedName held member = .ok new) := by
  obtain ⟨new, written, ⟨passage⟩⟩ := run.text_renamed name held here
  obtain ⟨linked, members, listed, all⟩ :=
    run.scanned.linked_members name (run.scanned.pooled.constant_addressable name _ here)
  have ran := passage.ran
  rw [Job.newText, role, lift_ok_bind] at ran
  obtain ⟨kept, named⟩ := run.job.member_name_inv linked listed ran (passage.still silent)
  obtain ⟨fact, stated, found⟩ := List.mem_filterMap.mp (List.mem_of_getLast? ends)
  have typed : ∃ text descriptor, constantAt? data last = some (.nameAndType text descriptor) := by
    cases fact with
    | nameAndType index text descriptor =>
        obtain ⟨text, descriptor, constant, _⟩ := run.scanned.name_and_type_of_fact _ _ _ stated
        simp only [Fact.namedFor?] at found
        split at found
        · cases found
          exact ⟨text, descriptor, constant⟩
        · cases found
    | _ => cases found
  obtain ⟨text, descriptor, constant⟩ := typed
  have owned := Slot.owned_iff run.scanned.facts last
  rw [ends, Option.bind_some, run.scanned.member_of last text descriptor constant] at kept named
  refine ⟨new, written, fun unowned => kept ?_, fun isOwned target linkedTo member found => ?_⟩
  · rw [Decidable.not_not.mp (fun some => unowned (owned.mp some))]
    rfl
  · refine named ?_ member (all target linkedTo member found)
    intro none
    exact owned.mpr isOwned (Option.map_eq_none_iff.mp none)

theorem linked_references_named {σ : Type} (renamer : Renamer) (oracle : Oracle σ) (settings : Settings) (data : Bytes)
    (p q : Progress σ) (renamed : RenamedClass) (ran : renameClass renamer oracle settings data p = .ok renamed q)
    (silent : q.warnings = p.warnings) :
    ∃ scan facts, Scan.ofBytes settings.attributes data = .ok scan ∧
      Trace.ofBytes settings.attributes data = ⟨facts, .ok (scan.layout, scan.outline)⟩ ∧
      (∀ (reference : MemberReference data) (last : Nat), scan.catalog.role reference.name.toNat = .ok .memberName →
        (facts.filterMap (Fact.namedFor? reference.name.toNat)).getLast? = some last → Owned facts last →
        TakenFor facts reference.target reference.kind reference.owner →
          constantAt? renamed.bytes reference.name.toNat =
            some (.text (renamer.member reference.kind reference.className reference.held reference.typeText))) ∧
      ∀ name held last, constantAt? data name = some (.text held) → scan.catalog.role name = .ok .memberName →
        (facts.filterMap (Fact.namedFor? name)).getLast? = some last → ¬ Owned facts last →
          constantAt? renamed.bytes name = some (.text held) := by
  obtain ⟨run⟩ := rename_class_renewed ran
  refine ⟨run.job.scan, run.scanned.facts, run.scanned.accepted, run.scanned.traced, ?_, ?_⟩
  · intro reference last role ends owned taken
    obtain ⟨new, written, _, named⟩ := run.linked_text silent _ last reference.held reference.named role ends
    have found := run.scanned.member_taken _ _ _ _ _ reference.linked taken
    have among := run.scanned.named_by reference.target reference.name reference.descriptor reference.linked
    have answer := named owned reference.target among _ found
    have className := (run.scanned.class_name_iff reference.owner reference.className).mpr
      ⟨reference.classText, reference.owned, reference.classNamed⟩
    have descriptor := (run.scanned.text_iff reference.descriptor.toNat reference.typeText).mpr reference.typed
    simp only [Job.linkedName, className, descriptor, bind, Except.bind, run.job_given.1] at answer
    rw [written]
    rcases reference_kind reference.refers with kind | kind <;> rw [kind] at answer ⊢ <;> cases answer <;> rfl
  · intro name held last here role ends unowned
    obtain ⟨new, written, kept, _⟩ := run.linked_text silent name last held here role ends
    rw [written, kept unowned]

def referringClass (more : Bytes) : Bytes :=
  [0xCA, 0xFE, 0xBA, 0xBE, 0, 0, 0, 52, 0, 12, 1, 0, 1, 65, 7, 0, 1, 1, 0, 1, 66, 7, 0, 3, 1, 0, 1, 102, 1, 0, 1, 73,
    12, 0, 5, 0, 6, 9, 0, 4, 0, 7] ++ more ++ [0, 33, 0, 2, 0, 0, 0, 0, 0, 0, 0, 0, 0, 0]

def linkedClass : Bytes := referringClass [1, 0, 1, 74, 12, 0, 5, 0, 9, 9, 0, 4, 0, 10]

def linkedRules : RuleSet :=
  ({} : RuleSet).putField ⟨.ofString "B", .ofString "f", some (.ofString "I")⟩ (.ofString "g") |>.putField
    ⟨.ofString "B", .ofString "f", some (.ofString "J")⟩ (.ofString "g")

def linkedRenamed : RenamedClass :=
  ⟨.ofString "A", .ofString "A",
    [0xCA, 0xFE, 0xBA, 0xBE, 0, 0, 0, 52, 0, 12, 1, 0, 1, 65, 7, 0, 1, 1, 0, 1, 66, 7, 0, 3, 1, 0, 1, 103, 1, 0, 1, 73,
      12, 0, 5, 0, 6, 9, 0, 4, 0, 7, 1, 0, 1, 74, 12, 0, 5, 0, 9, 9, 0, 4, 0, 10, 0, 33, 0, 2, 0, 0, 0, 0, 0, 0, 0, 0, 0, 0]⟩

def linkedReference : MemberReference linkedClass :=
  ⟨8, .fieldRef 4 7, .field, 4, 7, 3, 5, 6, .ofString "B", .ofString "f", .ofString "I", rfl, rfl, rfl, rfl, rfl, rfl, rfl⟩

theorem linked_references_named_sample :
    renameClass linkedRules.renamer Oracle.empty {} linkedClass ⟨(), #[]⟩ = .ok linkedRenamed ⟨(), #[]⟩ ∧
      ∃ facts, (Trace.ofBytes .interpret linkedClass).facts = facts ∧ Owned facts 10 ∧ TakenFor facts 7 .field 4 ∧
        constantAt? linkedRenamed.bytes 5 =
          some (.text (linkedRules.renamer.member .field (.ofString "B") (.ofString "f") (.ofString "I"))) := by
  have renamed : renameClass linkedRules.renamer Oracle.empty {} linkedClass ⟨(), #[]⟩ = .ok linkedRenamed ⟨(), #[]⟩ := by
    decide +kernel
  obtain ⟨scan, facts, accepted, traced, named, _⟩ := linked_references_named _ _ _ _ _ _ _ renamed rfl
  have stated : (Trace.ofBytes .interpret linkedClass).facts = facts := congrArg Trace.facts traced
  have owned : Owned facts 10 := by
    rw [← stated]
    exact .inl ⟨4, .field, by decide⟩
  have taken : TakenFor facts 7 .field 4 := by
    rw [← stated]
    exact ⟨rfl, rfl⟩
  have role : scan.catalog.role 5 = .ok .memberName := by
    have found : ((Scan.ofBytes .interpret linkedClass).bind fun scan => scan.catalog.role 5) = .ok .memberName := rfl
    rwa [accepted] at found
  have ends : (facts.filterMap (Fact.namedFor? 5)).getLast? = some 10 := by
    rw [← stated]
    rfl
  exact ⟨renamed, facts, stated, owned, taken, named linkedReference 10 role ends owned taken⟩

def unownedClass : Bytes := referringClass [1, 0, 1, 74, 12, 0, 5, 0, 9, 18, 0, 0, 0, 10]

def replacedClass : Bytes := referringClass [1, 0, 1, 67, 7, 0, 9, 9, 0, 10, 0, 7]

def Overlooks (data : Bytes) : Prop :=
  renameClass linkedRules.renamer Oracle.empty {} data ⟨(), #[]⟩ = .ok ⟨.ofString "A", .ofString "A", data⟩ ⟨(), #[]⟩ ∧
    ∃ (scan : Scan) (reference : MemberReference data), Scan.ofBytes .interpret data = .ok scan ∧
      scan.catalog.role reference.name.toNat = .ok .memberName ∧
      constantAt? data reference.name.toNat ≠
        some (.text (linkedRules.renamer.member reference.kind reference.className reference.held reference.typeText))

theorem linked_reference_overlooked : Overlooks unownedClass ∧ Overlooks replacedClass := by
  constructor
  · exact ⟨rfl, _, ⟨8, .fieldRef 4 7, .field, 4, 7, 3, 5, 6, .ofString "B", .ofString "f", .ofString "I", rfl, rfl, rfl, rfl,
      rfl, rfl, rfl⟩, rfl, rfl, by decide⟩
  · exact ⟨rfl, _, ⟨8, .fieldRef 4 7, .field, 4, 7, 3, 5, 6, .ofString "B", .ofString "f", .ofString "I", rfl, rfl, rfl, rfl,
      rfl, rfl, rfl⟩, rfl, rfl, by decide⟩

end Relabel
