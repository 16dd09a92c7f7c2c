import Relabel.Proofs.Classification
import Relabel.Proofs.LinkedNames

set_option autoImplicit false

namespace Relabel

open ClassFile (constantAt? HasClass)

namespace Constant

def isReferenceTo (target : Nat) : Constant → Bool
  | .fieldRef _ used | .methodRef _ used | .interfaceMethodRef _ used => used.toNat = target
  | _ => false

def isCallTo (target : Nat) : Constant → Bool
  | .dynamic _ used | .invokeDynamic _ used => used.toNat = target
  | _ => false

variable {constant : Constant} {kind : MemberKind} {owner target name : Nat}

theorem member_fact_reference {index : Nat} (stated : Fact.member target owner kind ∈ constant.facts index) :
    constant.isReferenceTo target := by
  cases constant <;> simp_all [facts, isReferenceTo]

theorem reference_facts (index : Nat) (refers : constant.reference? = some (kind, owner, target)) :
    constant.facts index = [.member target owner kind] := by
  cases constant <;> simp_all [facts, reference?]

theorem unused_kind (index : Nat) (unused : ¬ constant.isReferenceTo target ∧ ¬ constant.isCallTo target) :
    ∀ fact ∈ constant.facts index, fact.kindFor? target = none := by
  cases constant <;> simp_all [facts, isReferenceTo, isCallTo, Fact.kindFor?]

theorem unnamed_link (index : Nat) (unnamed : ¬ constant.isNamedBy name) :
    ∀ fact ∈ constant.facts index, fact.namedFor? name = none := by
  cases constant <;> simp_all [facts, isNamedBy, Fact.namedFor?]

end Constant

theorem unenclosed_of_none {facts : List Fact} {target : Nat} (none : facts.filterMap (Fact.encloserFor? target) = []) :
    ∀ encloser, Fact.enclosing target encloser ∉ facts := by
  intro encloser member
  have unsaid := List.filterMap_eq_nil_iff.mp none _ member
  simp [Fact.encloserFor?] at unsaid

theorem owner_of_kind {fact : Fact} {target : Nat} (unknown : fact.kindFor? target = none) : fact.ownerFor? target = none := by
  cases fact <;> simp_all [Fact.kindFor?, Fact.ownerFor?]

namespace Scanned

variable {mode : AttributeMode} {data : Bytes} {scan : Scan} (scanned : Scanned mode data scan)

theorem last_written {β : Type} (write : Fact → Option β) (entry : Entry) (member : entry ∈ scanned.pooled.entries)
    (value : β) (placeless : ∀ index tag offset, write (.entry index tag offset) = none)
    (unhandled : ∀ index kind target, write (.handle index kind target) = none)
    (own : (entry.constant.facts entry.index).filterMap write = [value])
    (later : ∀ other ∈ scanned.pooled.entries, entry.index < other.index →
      ∀ fact ∈ other.constant.facts other.index, write fact = none)
    (noted : ∀ fact ∈ scanned.noted.toList, write fact = none) :
    (scanned.facts.filterMap write).getLast? = some value := by
  -- Indices increase, so what follows the entry in the list has a greater index.
  obtain ⟨before, after, split⟩ := List.append_of_mem member
  have increasing := scanned.pooled.increasing
  rw [split] at increasing
  have written : entry.facts.filterMap write = [value] := by
    rw [Entry.facts, List.filterMap_cons_none (placeless _ _ _), own]
  have afterwards : (after.flatMap Entry.facts).filterMap write = [] := by
    refine List.filterMap_eq_nil_iff.mpr fun fact inside => ?_
    obtain ⟨other, follows, stated⟩ := List.mem_flatMap.mp inside
    have less := List.rel_of_pairwise_cons (List.pairwise_append.mp increasing).2.1 follows
    rcases List.mem_cons.mp stated with rfl | stated
    · exact placeless _ _ _
    · exact later other (by simp [split, follows]) less fact stated
  have handles : (scanned.pooled.entries.filterMap Entry.handleFact?).filterMap write = [] := by
    refine List.filterMap_eq_nil_iff.mpr fun fact inside => ?_
    obtain ⟨index, kind, target, rfl⟩ := handle_fact_other _ fact inside
    exact unhandled index kind target
  rw [facts, Pooled.facts, List.filterMap_append, List.filterMap_append, handles, List.filterMap_eq_nil_iff.mpr noted,
    split, List.flatMap_append, List.flatMap_cons, List.filterMap_append, List.filterMap_append, written, afterwards]
  simp

theorem named_last (target : Nat) (name descriptor : UInt16)
    (linked : constantAt? data target = some (.nameAndType name descriptor))
    (last : ∀ later other, constantAt? data later = some other → target < later → ¬ other.isNamedBy name.toNat) :
    (scanned.facts.filterMap (Fact.namedFor? name.toNat)).getLast? = some target := by
  obtain ⟨entry, member, rfl, constant⟩ := (scanned.pooled.constant_at _ _).mp linked
  refine scanned.last_written _ entry member entry.index (fun _ _ _ => rfl) (fun _ _ _ => rfl) ?_ ?_ ?_
  · simp [constant, Constant.facts, Fact.namedFor?]
  · intro other inside less
    exact Constant.unnamed_link other.index (last _ _ (scanned.pooled.constant_of_entry other inside) less)
  · intro fact noted
    have body := scanned.noted_kinds fact noted
    cases fact with
    | nameAndType => exact absurd body id
    | _ => rfl

theorem taken_last (place target owner : Nat) (constant : Constant) (kind : MemberKind)
    (made : constantAt? data place = some constant) (refers : constant.reference? = some (kind, owner, target))
    (last : ∀ later other, constantAt? data later = some other → place < later →
      ¬ other.isReferenceTo target ∧ ¬ other.isCallTo target)
    (unenclosed : ∀ encloser, Fact.enclosing target encloser ∉ scanned.facts) :
    TakenFor scanned.facts target kind owner := by
  obtain ⟨entry, member, rfl, rfl⟩ := (scanned.pooled.constant_at _ _).mp made
  have stated := Constant.reference_facts entry.index refers
  have later : ∀ other ∈ scanned.pooled.entries, entry.index < other.index →
      ∀ fact ∈ other.constant.facts other.index, fact.kindFor? target = none := fun other inside less =>
    Constant.unused_kind other.index (last _ _ (scanned.pooled.constant_of_entry other inside) less)
  have noted : ∀ fact ∈ scanned.noted.toList, fact.kindFor? target = none := by
    intro fact inside
    have body := scanned.noted_kinds fact inside
    cases fact with
    | member | dynamic => exact absurd body id
    | enclosing linked encloser =>
        refine if_neg fun same => ?_
        rw [same] at inside
        exact unenclosed encloser (List.mem_append_right _ inside)
    | _ => rfl
  constructor
  · refine scanned.last_written _ entry member owner (fun _ _ _ => rfl) (fun _ _ _ => rfl) ?_ ?_ ?_
    · simp [stated, Fact.ownerFor?]
    · exact fun other inside less fact told => owner_of_kind (later other inside less fact told)
    · exact fun fact inside => owner_of_kind (noted fact inside)
  · refine scanned.last_written _ entry member kind (fun _ _ _ => rfl) (fun _ _ _ => rfl) ?_ later noted
    simp [stated, Fact.kindFor?]

theorem unreferred (target : Nat)
    (unused : ∀ index constant, constantAt? data index = some constant → ¬ constant.isReferenceTo target)
    (unenclosed : ∀ encloser, Fact.enclosing target encloser ∉ scanned.facts) : ¬ Owned scanned.facts target := by
  rintro (⟨owner, kind, member⟩ | ⟨encloser, member⟩)
  · obtain ⟨entry, inside, stated⟩ := scanned.pool_fact (.member target owner kind) trivial member
    exact unused _ _ (scanned.pooled.constant_of_entry entry inside) (Constant.member_fact_reference stated)
  · exact unenclosed encloser member

end Scanned

theorem Job.member_name_used {σ : Type} (job : Job σ) {index : Nat} {held new : Name} {p q : Progress σ}
    {last : Option LinkedMember} (linked : job.scan.catalog.linkedMember? index = .ok last)
    (ran : job.memberName index held p = .ok new q) :
    (last = none → new = held) ∧ ∀ current, last = some current → job.linkedName held current = .ok new := by
  rw [memberName, linked, lift_ok_bind] at ran
  cases last with
  | none =>
      cases ran
      exact ⟨fun _ => rfl, fun _ linked => absurd linked.symm (Option.some_ne_none _)⟩
  | some member =>
      refine ⟨fun unlinked => absurd unlinked (Option.some_ne_none _), fun current same => ?_⟩
      cases same
      obtain ⟨used, middle, asked, checked⟩ := bind_ok_inv ran
      obtain ⟨members, stop, _, agreed⟩ := bind_ok_inv checked
      obtain ⟨_, _, rfl⟩ := map_ok_inv agreed
      exact (lift_ok_inv asked).1

namespace Renewed

variable {σ : Type} {renamer : Renamer} {oracle : Oracle σ} {settings : Settings} {data : Bytes} {p q : Progress σ}
  {renamed : RenamedClass} (run : Renewed renamer oracle settings data p q renamed)

theorem last_link_text (target : Nat) (name descriptor : UInt16) (held : Name)
    (linked : constantAt? data target = some (.nameAndType name descriptor))
    (last : ∀ later other, constantAt? data later = some other → target < later → ¬ other.isNamedBy name.toNat)
    (named : constantAt? data name.toNat = some (.text held))
    (role : run.job.scan.catalog.role name.toNat = .ok .memberName) :
    ∃ new, constantAt? renamed.bytes name.toNat = some (.text new) ∧
      (run.job.scan.catalog.memberOf? target = none → new = held) ∧
      ∀ current, run.job.scan.catalog.memberOf? target = some current → run.job.linkedName held current = .ok new := by
  obtain ⟨new, written, ⟨passage⟩⟩ := run.text_renamed name.toNat held named
  obtain ⟨found, _⟩ := run.scanned.linked_members name.toNat (run.scanned.pooled.constant_addressable _ _ named)
  rw [run.scanned.named_last target name descriptor linked last, Option.bind_some] at found
  have ran := passage.ran
  rw [Job.newText, role, lift_ok_bind] at ran
  exact ⟨new, written, run.job.member_name_used found ran⟩

end Renewed

theorem last_link_renames {σ : Type} (renamer : Renamer) (oracle : Oracle σ) (settings : Settings) (data : Bytes)
    (p q : Progress σ) (renamed : RenamedClass) (ran : renameClass renamer oracle settings data p = .ok renamed q)
    (target : Nat) (name descriptor : UInt16) (held : Name)
    (linked : constantAt? data target = some (.nameAndType name descriptor))
    (last : ∀ later other, constantAt? data later = some other → target < later → ¬ other.isNamedBy name.toNat)
    (named : constantAt? data name.toNat = some (.text held))
    (role : ∃ scan, Scan.ofBytes settings.attributes data = .ok scan ∧ scan.catalog.role name.toNat = .ok .memberName)
    (unenclosed : ∀ encloser, Fact.enclosing target encloser ∉ (Trace.ofBytes settings.attributes data).facts) :
    ((∀ index constant, constantAt? data index = some constant → ¬ constant.isReferenceTo target) →
      constantAt? renamed.bytes name.toNat = some (.text held)) ∧
    ∀ place constant kind owner, constantAt? data place = some constant →
      constant.reference? = some (kind, owner, target) →
      (∀ later other, constantAt? data later = some other → place < later →
        ¬ other.isReferenceTo target ∧ ¬ other.isCallTo target) →
        ∃ className typeText, HasClass data owner className ∧
          constantAt? data descriptor.toNat = some (.text typeText) ∧
          constantAt? renamed.bytes name.toNat = some (.text (renamer.member kind className held typeText)) := by
  obtain ⟨run⟩ := rename_class_renewed ran
  obtain ⟨scan, accepted, role⟩ := role
  rw [run.scanned.accepted] at accepted
  cases accepted
  rw [run.scanned.traced] at unenclosed
  obtain ⟨new, written, kept, used⟩ := run.last_link_text target name descriptor held linked last named role
  refine ⟨fun unused => ?_, fun place constant kind owner made refers final => ?_⟩
  · -- Without a reference the last link has no owner, so no member is known by it.
    have unowned := mt (Slot.owned_iff run.scanned.facts target).mp (run.scanned.unreferred target unused unenclosed)
    have memberless : run.job.scan.catalog.memberOf? target = none := by
      rw [run.scanned.member_of target name descriptor linked, Decidable.not_not.mp unowned]
      rfl
    rw [written, kept memberless]
  · have taken := run.scanned.taken_last place target owner constant kind made refers final unenclosed
    have answer := used _ (run.scanned.member_taken target name descriptor kind owner linked taken)
    obtain ⟨className, owned, answer⟩ := except_bind_inv answer
    obtain ⟨typeText, typed, answer⟩ := except_bind_inv answer
    refine ⟨className, typeText, (run.scanned.class_name_iff _ _).mp owned, (run.scanned.text_iff _ _).mp typed, ?_⟩
    rw [written, ← run.job_given.1]
    rcases reference_kind refers with rfl | rfl <;> cases answer <;> rfl

def forwardClass : Bytes :=
  [0xCA, 0xFE, 0xBA, 0xBE, 0, 0, 0, 52, 0, 14, 12, 0, 6, 0, 8, 9, 0, 5, 0, 1, 10, 0, 5, 0, 4, 12, 0, 6, 0, 7, 7, 0, 9,
    1, 0, 1, 102, 1, 0, 3, 40, 41, 86, 1, 0, 1, 73, 1, 0, 1, 66, 1, 0, 1, 65, 7, 0, 10, 12, 0, 13, 0, 7, 1, 0, 1, 107,
    0, 33, 0, 11, 0, 0, 0, 0, 0, 0, 0, 0, 0, 0]

def forwardRules : RuleSet :=
  ({} : RuleSet).putField ⟨.ofString "B", .ofString "f", some (.ofString "I")⟩ (.ofString "g") |>.putMethod
    ⟨.ofString "B", .ofString "f", some (.ofString "()V")⟩ (.ofString "h")

def forwardRenamed : RenamedClass :=
  ⟨.ofString "A", .ofString "A",
    [0xCA, 0xFE, 0xBA, 0xBE, 0, 0, 0, 52, 0, 14, 12, 0, 6, 0, 8, 9, 0, 5, 0, 1, 10, 0, 5, 0, 4, 12, 0, 6, 0, 7, 7, 0, 9,
      1, 0, 1, 104, 1, 0, 3, 40, 41, 86, 1, 0, 1, 73, 1, 0, 1, 66, 1, 0, 1, 65, 7, 0, 10, 12, 0, 13, 0, 7, 1, 0, 1, 107,
      0, 33, 0, 11, 0, 0, 0, 0, 0, 0, 0, 0, 0, 0]⟩

theorem last_link_renames_sample :
    renameClass forwardRules.renamer Oracle.empty {} forwardClass ⟨(), #[]⟩ =
        .ok forwardRenamed ⟨(), #[.sharedName 6 (.ofString "f") (.ofString "h") (.ofString "g")]⟩ ∧
      constantAt? forwardRenamed.bytes 13 = some (.text (.ofString "k")) ∧
      ∃ className typeText, HasClass forwardClass 5 className ∧ constantAt? forwardClass 7 = some (.text typeText) ∧
        constantAt? forwardRenamed.bytes 6 =
          some (.text (forwardRules.renamer.member .method className (.ofString "f") typeText)) := by
  have renamed : renameClass forwardRules.renamer Oracle.empty {} forwardClass ⟨(), #[]⟩ =
      .ok forwardRenamed ⟨(), #[.sharedName 6 (.ofString "f") (.ofString "h") (.ofString "g")]⟩ := rfl
  refine ⟨renamed, ?_, ?_⟩
  · refine (last_link_renames _ _ _ _ _ _ _ renamed 12 13 7 (.ofString "k") rfl ?_ rfl ⟨_, rfl, rfl⟩
      (unenclosed_of_none rfl)).1 ?_
    · exact each_constant (fun later other => 12 < later → ¬ other.isNamedBy 13) (by decide)
    · exact each_constant (fun _ constant => ¬ constant.isReferenceTo 12) (by decide)
  · refine (last_link_renames _ _ _ _ _ _ _ renamed 4 6 7 (.ofString "f") rfl ?_ rfl ⟨_, rfl, rfl⟩
      (unenclosed_of_none rfl)).2 3 (.methodRef 5 4) .method 5 rfl rfl ?_
    · exact each_constant (fun later other => 4 < later → ¬ other.isNamedBy 6) (by decide)
    · exact each_constant (fun later other => 3 < later → ¬ other.isReferenceTo 4 ∧ ¬ other.isCallTo 4) (by decide)

end Relabel
