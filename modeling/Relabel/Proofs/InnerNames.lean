import Relabel.Proofs.RenamedTexts
import Relabel.Proofs.Roles

set_option autoImplicit false

namespace Relabel

open ClassFile (constantAt? HasClass)

def Fact.innerFor? (name : Nat) : Fact → Option Nat
  | .inner text classIndex => if text = name then some classIndex else none
  | _ => none

def ClassFile.innerClassesOf (data : Bytes) (index : Nat) : List Nat :=
  (Trace.ofBytes .interpret data).facts.filterMap (Fact.innerFor? index)

open ClassFile (innerClassesOf)

namespace Slot

variable {place : Nat}

theorem after_inner (slot : Slot) (fact : Fact) :
    (slot.after place fact).innerClasses =
      (fact.innerFor? place).elim slot.innerClasses slot.innerClasses.put := by
  cases fact with
  | inner name classIndex =>
      by_cases here : name = place <;>
        simp [after, used, changed, Fact.innerFor?, here]
  | _ => simp [after, used, changed, apply_ite Slot.innerClasses, Fact.innerFor?]

theorem mem_told_inner (facts : List Fact) (target : Nat) :
    target ∈ (told place facts).innerClasses.toList ↔ target ∈ facts.filterMap (Fact.innerFor? place) :=
  mem_told_put Slot.innerClasses rfl (fun fact slot => slot.after_inner fact) facts target

end Slot

theorem constant_uses_apart (constant : Constant) (index : Nat) :
    ∀ fact ∈ constant.facts index, ∀ use ∈ fact.uses, use.2 ≠ .innerName := by
  cases constant with
  | nameAndType name descriptor =>
      intro fact stated use used
      cases List.mem_singleton.mp stated
      simp only [Fact.uses, List.mem_cons, List.not_mem_nil, or_false] at used
      rcases used with rfl | rfl <;> exact Role.noConfusion
  | _ => simp [Constant.facts, Fact.uses]

theorem body_use_inner {fact : Fact} (stated : fact.OfBody) {place : Nat} (used : (place, Role.innerName) ∈ fact.uses) :
    ∃ classIndex, fact = .inner place classIndex := by
  cases fact with
  | inner name classIndex =>
      obtain ⟨rfl, _⟩ := Prod.mk.inj (List.mem_singleton.mp used)
      exact ⟨classIndex, rfl⟩
  | use index role =>
      obtain ⟨_, rfl⟩ := Prod.mk.inj (List.mem_singleton.mp used)
      rcases stated with same | same | same <;> cases same
  | declares name descriptor kind => cases kind <;> simp [Fact.uses, MemberKind.ownRole] at used
  | className | member | dynamic | nameAndType => exact absurd stated id
  | _ => cases used

namespace Scanned

variable {data : Bytes} {scan : Scan}

theorem facts_traced {mode : AttributeMode} (scanned : Scanned mode data scan) : scanned.facts = (Trace.ofBytes mode data).facts := by
  rw [scanned.traced]
  rfl

theorem mem_inner_classes (scanned : Scanned .interpret data scan) {index : Nat} {found : List Nat}
    (listed : scan.catalog.innerClasses index = .ok found) (classIndex : Nat) :
    classIndex ∈ found ↔ classIndex ∈ innerClassesOf data index := by
  obtain ⟨slot, stored, same⟩ := except_bind_inv listed
  cases same
  have here := (Catalog.slot_inv stored).1
  rw [scanned.closed.1] at here
  rw [scanned.slot index here] at stored
  cases stored
  rw [Slot.mem_told_inner, scanned.facts_traced]
  rfl

theorem inner_classes_named (scanned : Scanned .interpret data scan) {index : Nat}
    (role : scan.catalog.role index = .ok .innerName) : innerClassesOf data index ≠ [] := by
  obtain ⟨slot, stored, _⟩ := except_bind_inv role
  have here := (Catalog.slot_inv stored).1
  rw [scanned.closed.1] at here
  rw [scanned.role_told index here, Slot.told_role] at role
  have named : Role.innerName ∈ scanned.facts.flatMap (Fact.rolesAt index) := by
    rcases Role.promote_all_mem .plain (scanned.facts.flatMap (Fact.rolesAt index)) with same | member
    · rw [same] at role
      cases role
    · rwa [Except.ok.inj role] at member
  obtain ⟨fact, stated, used⟩ := List.mem_flatMap.mp named
  rw [Fact.mem_roles_at] at used
  have inner : ∃ classIndex, fact = .inner index classIndex := by
    rcases scanned.fact_cases stated with ⟨entry, _, rfl | own⟩ | ⟨_, _, _, rfl⟩ | noted
    · cases used
    · exact absurd rfl (constant_uses_apart entry.constant entry.index fact own _ used)
    · cases used
    · exact body_use_inner (scanned.noted_kinds fact noted) used
  obtain ⟨classIndex, rfl⟩ := inner
  rw [scanned.facts_traced] at stated
  exact List.ne_nil_of_mem (List.mem_filterMap.mpr ⟨_, stated, if_pos rfl⟩)

end Scanned

def FollowsLast (mark : Char) (whole part : Bytes) : Prop :=
  ∃ front, whole = front ++ mark.toUInt8 :: part ∧ mark.toUInt8 ∉ part

def Name.Simple (whole part : Name) : Prop :=
  FollowsLast '$' whole.bytes part.bytes ∨ '$'.toUInt8 ∉ whole.bytes ∧
    (FollowsLast '/' whole.bytes part.bytes ∨ '/'.toUInt8 ∉ whole.bytes ∧ part = whole)

section

variable {mark : Char} {whole part : Bytes}

theorem others_taken (apart : mark.toUInt8 ∉ part) (rest : Bytes) :
    (part.reverse ++ rest).takeWhile (· ≠ mark.toUInt8) = part.reverse ++ rest.takeWhile (· ≠ mark.toUInt8) := by
  refine List.takeWhile_append_of_pos fun b member => ?_
  have other : b ≠ mark.toUInt8 := fun same => apart (same ▸ List.mem_reverse.mp member)
  simpa using other

theorem after_last_absent (absent : mark.toUInt8 ∉ whole) : Name.afterLast mark whole = whole := by
  have all := others_taken absent []
  rw [List.append_nil, List.takeWhile_nil, List.append_nil] at all
  rw [Name.afterLast, all, List.reverse_reverse]

theorem after_last_present (front : Bytes) (apart : mark.toUInt8 ∉ part) :
    Name.afterLast mark (front ++ mark.toUInt8 :: part) = part := by
  rw [Name.afterLast, List.reverse_append, List.reverse_cons, List.append_assoc, others_taken apart]
  simp

theorem follows_last_iff (present : mark.toUInt8 ∈ whole) : FollowsLast mark whole part ↔ part = Name.afterLast mark whole := by
  refine ⟨?_, ?_⟩
  · rintro ⟨front, rfl, apart⟩
    exact (after_last_present front apart).symm
  · rintro rfl
    obtain ⟨back, front, split, apart⟩ := List.eq_append_cons_of_mem (List.mem_reverse.mpr present)
    have cut : whole = front.reverse ++ mark.toUInt8 :: back.reverse := by
      rw [← List.reverse_reverse whole, split]
      simp
    have unmarked : mark.toUInt8 ∉ back.reverse := fun member => apart (List.mem_reverse.mp member)
    exact ⟨front.reverse, by rw [cut, after_last_present _ unmarked], by rwa [cut, after_last_present _ unmarked]⟩

theorem follows_last_absent (absent : mark.toUInt8 ∉ whole) : ¬ FollowsLast mark whole part := by
  rintro ⟨front, rfl, _⟩
  exact absent (List.mem_append_right front (.head _))

end

theorem Name.simple_iff (whole part : Name) : whole.Simple part ↔ part = ⟨whole.lastPart⟩ := by
  have same : part = ⟨whole.lastPart⟩ ↔ part.bytes = whole.lastPart := ⟨fun eq => eq ▸ rfl, fun eq => by rw [← eq]⟩
  rw [same, Simple, lastPart]
  by_cases nested : '$'.toUInt8 ∈ whole.bytes
  · simp [nested, follows_last_iff nested]
  · by_cases packaged : '/'.toUInt8 ∈ whole.bytes
    · simp [nested, packaged, follows_last_absent nested, follows_last_iff packaged]
    · simp only [nested, packaged, follows_last_absent, not_false_eq_true, true_and, false_or, if_false, after_last_absent]
      exact ⟨fun eq => eq ▸ rfl, fun eq => congrArg Name.mk eq⟩

def Renamer.Votes (renamer : Renamer) (held className vote : Name) : Prop :=
  renamer.className className = className ∧ vote = held ∨
    renamer.className className ≠ className ∧ (renamer.className className).Simple vote

theorem Renamer.votes_iff (renamer : Renamer) (held className vote : Name) : renamer.Votes held className vote ↔
    vote = if renamer.className className = className then held else ⟨(renamer.className className).lastPart⟩ := by
  rw [Votes, Name.simple_iff]
  by_cases kept : renamer.className className = className <;> simp [kept]

def Renamer.Unanimous (renamer : Renamer) (data : Bytes) (index : Nat) (held vote : Name) : Prop :=
  ∀ classIndex ∈ innerClassesOf data index, ∀ className, HasClass data classIndex className →
    renamer.Votes held className vote

namespace Job

open Renaming

variable {σ : Type} (job : Job σ)

theorem simple_name_votes {held className vote : Name} {classIndex : Nat} (named : job.scan.className classIndex = .ok className) :
    job.simpleName held classIndex = .ok vote ↔ job.renamer.Votes held className vote := by
  rw [simpleName, named, except_ok_bind, Renamer.votes_iff]
  dsimp only
  split <;> exact ⟨fun same => (Except.ok.inj same).symm, fun same => congrArg Except.ok same.symm⟩

theorem simple_name_known {held className : Name} {classIndex : Nat} (named : job.scan.className classIndex = .ok className) :
    ∃ vote, job.simpleName held classIndex = .ok vote := by
  rw [simpleName, named, except_ok_bind]
  dsimp only
  split <;> exact ⟨_, rfl⟩

theorem common_name_next (index : Nat) {held vote other : Name} {first : Nat} (rest : List Nat)
    (voted : job.simpleName held first = .ok other) :
    job.commonName index held (some vote) (first :: rest) =
      if vote = other then job.commonName index held (some vote) rest
      else do
        warn (.renamedApart index held vote other)
        return held := by
  rw [commonName, voted, lift_ok_bind]

theorem common_name_agreed (index : Nat) (held vote : Name) (classes : List Nat)
    (agreed : ∀ classIndex ∈ classes, job.simpleName held classIndex = .ok vote) (p : Progress σ) :
    job.commonName index held (some vote) classes p = .ok vote p := by
  induction classes with
  | nil => rfl
  | cons first rest ih =>
      rw [job.common_name_next index rest (agreed first (.head _)), if_pos rfl]
      exact ih fun classIndex member => agreed classIndex (.tail _ member)

theorem common_name_apart (index : Nat) (held vote : Name) (classes : List Nat)
    (known : ∀ classIndex ∈ classes, ∃ other, job.simpleName held classIndex = .ok other)
    (apart : ∃ classIndex ∈ classes, job.simpleName held classIndex ≠ .ok vote) :
    ∃ other, ∀ p, job.commonName index held (some vote) classes p =
      .ok held { p with warnings := p.warnings.push (.renamedApart index held vote other) } := by
  induction classes with
  | nil =>
      obtain ⟨_, none, _⟩ := apart
      cases none
  | cons first rest ih =>
      obtain ⟨other, voted⟩ := known first (.head _)
      -- The first that asks for another name ends the vote, so only it is reported.
      by_cases same : vote = other
      · subst same
        have later : ∃ classIndex ∈ rest, job.simpleName held classIndex ≠ .ok vote := by
          obtain ⟨classIndex, member, differs⟩ := apart
          rcases List.mem_cons.mp member with rfl | member
          · exact absurd voted differs
          · exact ⟨classIndex, member, differs⟩
        obtain ⟨other, reported⟩ := ih (fun classIndex member => known classIndex (.tail _ member)) later
        refine ⟨other, fun p => ?_⟩
        rw [job.common_name_next index rest voted, if_pos rfl]
        exact reported p
      · refine ⟨other, fun p => ?_⟩
        rw [job.common_name_next index rest voted, if_neg same]
        rfl

theorem common_name_voted (index : Nat) (held : Name) (classes : List Nat) (listed : classes ≠ [])
    (known : ∀ classIndex ∈ classes, ∃ vote, job.simpleName held classIndex = .ok vote) :
    (∃ vote, (∀ classIndex ∈ classes, job.simpleName held classIndex = .ok vote) ∧
      ∀ p, job.commonName index held none classes p = .ok vote p) ∨
    (¬ ∃ vote, ∀ classIndex ∈ classes, job.simpleName held classIndex = .ok vote) ∧
      ∃ one other, ∀ p, job.commonName index held none classes p =
        .ok held { p with warnings := p.warnings.push (.renamedApart index held one other) } := by
  cases classes with
  | nil => exact absurd rfl listed
  | cons first rest =>
      obtain ⟨vote, voted⟩ := known first (.head _)
      have opens : job.commonName index held none (first :: rest) = job.commonName index held (some vote) rest := by
        rw [commonName, voted, lift_ok_bind]
      rw [opens]
      by_cases agreed : ∀ classIndex ∈ rest, job.simpleName held classIndex = .ok vote
      · left
        refine ⟨vote, fun classIndex member => ?_, job.common_name_agreed index held vote rest agreed⟩
        rcases List.mem_cons.mp member with rfl | member
        · exact voted
        · exact agreed classIndex member
      · right
        refine ⟨?_, vote, ?_⟩
        · rintro ⟨other, all⟩
          have same : vote = other := Except.ok.inj (voted.symm.trans (all first (.head _)))
          exact agreed fun classIndex member => same ▸ all classIndex (.tail _ member)
        · apply job.common_name_apart index held vote rest fun classIndex member => known classIndex (.tail _ member)
          simpa only [Classical.not_forall, exists_prop] using agreed

theorem common_name_same (other : Job σ) (scan : job.scan = other.scan) (renamer : job.renamer = other.renamer) (index : Nat)
     (held : Name) (chosen : Option Name) (classes : List Nat) :
    job.commonName index held chosen classes = other.commonName index held chosen classes := by
  have votes : job.simpleName held = other.simpleName held := by
    funext classIndex
    rw [simpleName, simpleName, scan, renamer]
  induction classes generalizing chosen with
  | nil => rfl
  | cons first rest ih =>
      rw [commonName, commonName, votes]
      refine bind_congr fun name => ?_
      cases chosen <;> simp only [ih]

theorem new_inner_name {index : Nat} {held : Name} {classes : List Nat} (role : job.scan.catalog.role index = .ok .innerName)
    (listed : job.scan.catalog.innerClasses index = .ok classes) :
    job.newText index held = job.commonName index held none classes := by
  rw [newText, role, lift_ok_bind]
  dsimp only
  rw [listed, lift_ok_bind]

end Job

section

variable {σ : Type} (renamer : Renamer) (oracle : Oracle σ) (settings : Settings)

structure TextBecomes (data : Bytes) (index : Nat) (held new : Name) (said : List Warning) : Prop where
  scans : ∃ scan, Scan.ofBytes settings.attributes data = .ok scan
  settled : ∀ job : Job σ, Scan.ofBytes settings.attributes data = .ok job.scan → job.renamer = renamer →
    ∀ p, job.newText index held p = .ok new { p with warnings := p.warnings ++ said.toArray }
  written : ∀ p q renamed, renameClass renamer oracle settings data p = .ok renamed q →
    constantAt? renamed.bytes index = some (.text new) ∧
      ∃ earlier later, q.warnings.toList = p.warnings.toList ++ (earlier ++ said ++ later) ∧
        ∀ warning ∈ earlier ++ later, warning.index? ≠ some index

variable {renamer settings} {data : Bytes} {scan : Scan} {index : Nat} {held new : Name} {said : List Warning}

theorem TextBecomes.of_settled (accepted : Scan.ofBytes settings.attributes data = .ok scan)
    (text : constantAt? data index = some (.text held))
    (settled : ∀ job : Job σ, job.scan = scan → job.renamer = renamer →
      ∀ p, job.newText index held p = .ok new { p with warnings := p.warnings ++ said.toArray }) :
    TextBecomes renamer oracle settings data index held new said where
  scans := ⟨scan, accepted⟩
  settled job scanned rules := settled job (Except.ok.inj (scanned.symm.trans accepted)) rules
  written p q renamed ran := by
    obtain ⟨run⟩ := rename_class_renewed ran
    obtain ⟨found, there, ⟨passage⟩⟩ := run.text_renamed index held text
    have same : run.job.scan = scan := Except.ok.inj (run.scanned.accepted.symm.trans accepted)
    have renewed := settled run.job same run.job_given.1 passage.start
    rw [passage.ran] at renewed
    obtain ⟨rfl, stop⟩ := EStateM.Result.ok.inj renewed
    have own : passage.own = said := by
      have added := passage.added
      rw [stop, Array.toList_append] at added
      exact (List.append_cancel_left added).symm
    exact ⟨there, passage.earlier, passage.later, own ▸ passage.whole, passage.apart⟩

variable (interprets : settings.attributes = .interpret) (scanned : Scanned .interpret data scan)
  (text : constantAt? data index = some (.text held)) (role : scan.catalog.role index = .ok .innerName)
  (resolved : ∀ classIndex ∈ innerClassesOf data index, ∃ className, HasClass data classIndex className)

include scanned resolved in
theorem unanimous_iff {job : Job σ} (same : job.scan = scan) {classes : List Nat}
    (listed : ∀ classIndex, classIndex ∈ classes ↔ classIndex ∈ innerClassesOf data index) (held vote : Name) :
    job.renamer.Unanimous data index held vote ↔ ∀ classIndex ∈ classes, job.simpleName held classIndex = .ok vote := by
  have named : ∀ classIndex className, HasClass data classIndex className → job.scan.className classIndex = .ok className := by
    intro classIndex className has
    rw [same]
    exact (scanned.class_name_iff classIndex className).mpr has
  refine ⟨fun agreed classIndex member => ?_, fun agreed classIndex member className has => ?_⟩
  · obtain ⟨className, has⟩ := resolved classIndex ((listed classIndex).mp member)
    exact (job.simple_name_votes (named classIndex className has)).mpr
      (agreed classIndex ((listed classIndex).mp member) className has)
  · exact (job.simple_name_votes (named classIndex className has)).mp (agreed classIndex ((listed classIndex).mpr member))

variable (renamer) in
include interprets scanned text role resolved in
theorem inner_name_voted :
    (∀ vote, renamer.Unanimous data index held vote → TextBecomes renamer oracle settings data index held vote []) ∧
      ((¬ ∃ vote, renamer.Unanimous data index held vote) →
        ∃ warning, warning.index? = some index ∧ TextBecomes renamer oracle settings data index held held [warning]) := by
  obtain ⟨slot, stored, _⟩ := except_bind_inv role
  let classes := slot.innerClasses.toList
  have listing : scan.catalog.innerClasses index = .ok classes := by
    rw [Catalog.innerClasses, stored]
    rfl
  have listed := scanned.mem_inner_classes listing
  -- Only the scan and the rules have a say in the vote, so any job with these will do.
  let job : Job σ := ⟨scan, renamer, oracle, settings, ⟨held, held, []⟩, held⟩
  have becomes {new : Name} {said : List Warning}
      (settled : ∀ p, job.commonName index held none classes p = .ok new { p with warnings := p.warnings ++ said.toArray }) :
      TextBecomes renamer oracle settings data index held new said := by
    refine .of_settled oracle (interprets ▸ scanned.accepted) text fun other same rules p => ?_
    rw [other.new_inner_name (same ▸ role) (same ▸ listing), other.common_name_same job same rules]
    exact settled p
  have agreed := unanimous_iff scanned resolved (rfl : job.scan = scan) listed held
  have known : ∀ classIndex ∈ classes, ∃ vote, job.simpleName held classIndex = .ok vote := by
    intro classIndex member
    obtain ⟨className, has⟩ := resolved classIndex ((listed classIndex).mp member)
    exact job.simple_name_known ((scanned.class_name_iff classIndex className).mpr has)
  obtain ⟨first, inside⟩ := List.exists_mem_of_ne_nil _ (scanned.inner_classes_named role)
  have member := (listed first).mpr inside
  rcases job.common_name_voted index held classes (List.ne_nil_of_mem member) known with
    ⟨vote, all, settled⟩ | ⟨split, one, other, settled⟩
  · refine ⟨fun other unanimous => ?_, fun divided => absurd ⟨vote, (agreed vote).mpr all⟩ divided⟩
    have same : job.simpleName held first = .ok other := (agreed other).mp unanimous first member
    rw [all first member] at same
    cases same
    exact becomes fun p => by simpa using settled p
  · refine ⟨fun vote unanimous => absurd ⟨vote, (agreed vote).mp unanimous⟩ split, fun _ => ?_⟩
    exact ⟨.renamedApart index held one other, rfl, becomes fun p => by simpa using settled p⟩

end

end Relabel
