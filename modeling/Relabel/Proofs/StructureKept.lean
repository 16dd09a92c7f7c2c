import Relabel.Proofs.ModeRefinement
import Relabel.Proofs.MovedSurvey
import Relabel.Proofs.ReadBack

set_option autoImplicit false

namespace Relabel

open ClassFile (constantAt?)

def Fact.placeless : Fact → Fact
  | .entry index tag _ => .entry index tag 0
  | fact => fact

def Slot.placeless (slot : Slot) : Slot := { slot with offset := 0 }

namespace Slot

variable {place : Nat}

theorem after_placeless (slot : Slot) (fact : Fact) :
    (slot.after place fact).placeless = slot.placeless.after place fact.placeless := by
  cases fact with
  | addresses | handle => rfl
  | _ =>
      simp only [after, used, changed, Fact.placeless]
      split_ifs <;> rfl

theorem told_placeless (facts : List Fact) : (told place facts).placeless = told place (facts.map Fact.placeless) := by
  have run : ∀ slot : Slot, (facts.foldl (after place) slot).placeless =
      (facts.map Fact.placeless).foldl (after place) slot.placeless := by
    induction facts with
    | nil => exact fun slot => rfl
    | cons fact rest ih =>
        intro slot
        rw [List.foldl_cons, ih, after_placeless, List.map_cons, List.foldl_cons]
  exact run {}

end Slot

structure Scan.SameStructure (before after : Scan) : Prop where
  outline : after.outline = before.outline
  count : after.layout.count = before.layout.count
  slots : after.catalog.slots.map Slot.placeless = before.catalog.slots.map Slot.placeless

namespace Scan.SameStructure

variable {before after : Scan} (same : before.SameStructure after)

include same

theorem slot_cases (place : Nat) :
    before.catalog.slots[place]? = none ∧ after.catalog.slots[place]? = none ∨
      ∃ slot other, before.catalog.slots[place]? = some slot ∧ after.catalog.slots[place]? = some other ∧
        other.placeless = slot.placeless := by
  have alike : after.catalog.slots[place]?.map Slot.placeless = before.catalog.slots[place]?.map Slot.placeless := by
    rw [← Array.getElem?_map, same.slots, Array.getElem?_map]
  cases here : before.catalog.slots[place]? with
  | none =>
      rw [here, Option.map_none, Option.map_eq_none_iff] at alike
      exact .inl ⟨rfl, alike⟩
  | some slot =>
      rw [here, Option.map_some, Option.map_eq_some_iff] at alike
      obtain ⟨other, there, equal⟩ := alike
      exact .inr ⟨slot, other, rfl, there, equal⟩

theorem known {α : Type} (part : Slot → Except Fault α) (placeless : ∀ slot : Slot, part slot.placeless = part slot)
    (index : Nat) : (after.catalog.slot index >>= part) = (before.catalog.slot index >>= part) := by
  have size : after.catalog.count = before.catalog.count := by
    have sizes := congrArg Array.size same.slots
    rwa [Array.size_map, Array.size_map] at sizes
  rw [Catalog.slot, Catalog.slot, size]
  by_cases zero : index = 0
  · rw [if_pos zero, if_pos zero]
  · rw [if_neg zero, if_neg zero]
    rcases same.slot_cases index with ⟨here, there⟩ | ⟨slot, other, here, there, equal⟩
    · rw [here, there]
    · rw [here, there]
      change part other = part slot
      rw [← placeless other, equal, placeless]

theorem role (index : Nat) : after.catalog.role index = before.catalog.role index :=
  same.known _ (fun _ => rfl) index

theorem own_descriptor (index : Nat) : after.catalog.ownDescriptor index = before.catalog.ownDescriptor index :=
  same.known _ (fun _ => rfl) index

theorem declarations (index : Nat) : after.catalog.declarations index = before.catalog.declarations index :=
  same.known _ (fun _ => rfl) index

theorem member_of (place : Nat) : after.catalog.memberOf? place = before.catalog.memberOf? place := by
  rw [Catalog.memberOf?, Catalog.memberOf?]
  rcases same.slot_cases place with ⟨here, there⟩ | ⟨slot, other, here, there, equal⟩
  · rw [here, there]
  · have owner : other.owner = slot.owner := congrArg (·.owner) equal
    have descriptor : other.descriptor = slot.descriptor := congrArg (·.descriptor) equal
    have kind : other.memberKind = slot.memberKind := congrArg (·.memberKind) equal
    rw [here, there]
    change (other.owner >>= _) = (slot.owner >>= _)
    rw [owner, descriptor, kind]

theorem linked_member (index : Nat) : after.catalog.linkedMember? index = before.catalog.linkedMember? index := by
  rw [Catalog.linkedMember?, Catalog.linkedMember?, funext same.member_of]
  exact same.known _ (fun _ => rfl) index

theorem linked_members (index : Nat) : after.catalog.linkedMembers index = before.catalog.linkedMembers index := by
  rw [Catalog.linkedMembers, Catalog.linkedMembers, funext same.member_of]
  exact same.known _ (fun _ => rfl) index

end Scan.SameStructure

theorem Catalog.learnt_placeless {count : Nat} {facts others : List Fact} {one other : Catalog}
    (same : others.map Fact.placeless = facts.map Fact.placeless) (learnt : learnAll facts (.empty count) = .ok () one)
    (again : learnAll others (.empty count) = .ok () other) :
    other.slots.map Slot.placeless = one.slots.map Slot.placeless := by
  apply Array.ext_getElem?
  intro place
  rw [Array.getElem?_map, Array.getElem?_map]
  by_cases inside : place < count
  · rw [learnt_slot count facts one () learnt inside, learnt_slot count others other () again inside, Option.map_some,
      Option.map_some, Slot.told_placeless, Slot.told_placeless, same]
  · have size : one.slots.size = count := (learn_all_closed _ facts one () learnt).1
    have sizeAgain : other.slots.size = count := (learn_all_closed _ others other () again).1
    rw [Array.getElem?_eq_none (by omega), Array.getElem?_eq_none (by omega)]

namespace Entry.ReplacedBy

theorem facts_placeless {entry other : Entry} (replaced : entry.ReplacedBy other) :
    other.facts.map Fact.placeless = entry.facts.map Fact.placeless := by
  rw [Entry.facts, Entry.facts, replaced.tag, replaced.index, replaced.constant_facts]
  rfl

theorem all_facts_placeless {entries others : List Entry} (aligned : List.Forall₂ Entry.ReplacedBy entries others) :
    (others.flatMap Entry.facts).map Fact.placeless = (entries.flatMap Entry.facts).map Fact.placeless := by
  induction aligned with
  | nil => rfl
  | cons one _ ih => rw [List.flatMap_cons, List.flatMap_cons, List.map_append, List.map_append, one.facts_placeless, ih]

end Entry.ReplacedBy

namespace Pooled

variable {data out : Bytes} {pooled : Pooled data} {other : Pooled out}

theorem facts_placeless (aligned : List.Forall₂ Entry.ReplacedBy pooled.entries other.entries) :
    other.facts.map Fact.placeless = pooled.facts.map Fact.placeless := by
  rw [facts, facts, Entry.ReplacedBy.all_handles aligned, List.map_append, List.map_append,
    Entry.ReplacedBy.all_facts_placeless aligned]

end Pooled

theorem Scanned.carried {mode : AttributeMode} {data out : Bytes} {scan : Scan} (scanned : Scanned mode data scan)
    (other : Pooled out) (aligned : List.Forall₂ Entry.ReplacedBy scanned.pooled.entries other.entries)
    (count : other.count = scanned.pooled.count) (body : other.body = scanned.pooled.body)
    (alike : mode = .interpret → (NameTable.ofEntries scanned.pooled.count scanned.pooled.entries).NamesAlike
      (.ofEntries other.count other.entries)) :
    ∃ (after : Scan) (again : Scanned mode out after), again.pooled = other ∧ scan.SameStructure after := by
  have level : Survey.Level [] [] ⟨.ahead scanned.pooled.stop scanned.pooled.body, #[]⟩ ⟨.ahead other.stop other.body, #[]⟩ :=
    ⟨⟨_, _, _, rfl, by rw [body]⟩, [], rfl, rfl⟩
  obtain ⟨outline, r, surveyed, same, _, added, mine, yours⟩ :=
    Survey.carried_outline mode alike _ _ _ _ _ _ level scanned.outline_ran
  have noted : scanned.noted.toList = r.facts.toList := mine.trans yours.symm
  have thinned : Thinned scanned.facts (other.facts ++ r.facts.toList) := by
    rw [← noted]
    exact (Pooled.facts_thinned aligned).append (.refl _)
  obtain ⟨catalog, learnt⟩ := thinned.learnt (fun _ => rfl) scanned.learnt
  -- The facts differ only in where constants stand, which no check looks at.
  have placeless : (other.facts ++ r.facts.toList).map Fact.placeless = scanned.facts.map Fact.placeless := by
    rw [← noted, facts, List.map_append, List.map_append, Pooled.facts_placeless aligned]
  have slots := Catalog.learnt_placeless placeless scanned.learnt learnt
  rw [← count] at learnt
  obtain ⟨again, pooled, _⟩ := other.scans surveyed learnt
  refine ⟨_, again, pooled, same.symm, ?_, slots⟩
  rw [scanned.layout, ← count]

def AttributeNamesKept (data out : Bytes) : Prop :=
  ∀ index old new, constantAt? data index = some (.text old) → constantAt? out index = some (.text new) →
    old ∈ AttributeKind.known.map Prod.fst ∨ new ∈ AttributeKind.known.map Prod.fst → new = old

namespace Renewed

variable {σ : Type} {renamer : Renamer} {oracle : Oracle σ} {settings : Settings} {data : Bytes} {p q : Progress σ}
  {renamed : RenamedClass} (run : Renewed renamer oracle settings data p q renamed)

theorem names_alike (kept : AttributeNamesKept data renamed.bytes) :
    (NameTable.ofEntries run.scanned.pooled.count run.scanned.pooled.entries).NamesAlike
      (.ofEntries run.out.count run.out.entries) := by
  intro index name known
  have held := (run.scanned.pooled.text_iff index name).mp known
  obtain ⟨new, written, _⟩ := run.text_renamed index name held
  refine ⟨new, (run.out.text_iff index new).mpr written, ?_⟩
  by_cases listed : name ∈ AttributeKind.known.map Prod.fst ∨ new ∈ AttributeKind.known.map Prod.fst
  · rw [kept index name new held written listed]
  · obtain ⟨before, after⟩ := not_or.mp listed
    rw [other_of_unlisted before, other_of_unlisted after]

end Renewed

theorem renamed_structure_kept {σ : Type} (renamer : Renamer) (oracle : Oracle σ) (settings : Settings) (data : Bytes)
    (p q : Progress σ) (renamed : RenamedClass) (ran : renameClass renamer oracle settings data p = .ok renamed q)
    (mode : AttributeMode)
    (readable : mode = .pass ∨ mode = settings.attributes ∧ AttributeNamesKept data renamed.bytes) :
    ∃ before after, Scan.ofBytes mode data = .ok before ∧ Scan.ofBytes mode renamed.bytes = .ok after ∧
      before.SameStructure after := by
  obtain ⟨run⟩ := rename_class_renewed ran
  rcases readable with rfl | ⟨rfl, kept⟩
  · obtain ⟨before, passed, _, pooled, _⟩ := run.scanned.passed
    obtain ⟨after, again, _, same⟩ := passed.carried run.out (by rw [pooled]; exact run.aligned) (by rw [pooled, run.count])
      (by rw [pooled, run.body]) (fun interprets => nomatch interprets)
    exact ⟨before, after, passed.accepted, again.accepted, same⟩
  · obtain ⟨after, again, _, same⟩ := run.scanned.carried run.out run.aligned run.count run.body fun _ =>
      run.names_alike kept
    exact ⟨run.job.scan, after, run.scanned.accepted, again.accepted, same⟩

def signedRules : RuleSet := ({} : RuleSet).putClass (.ofString "A") (.ofString "BB")

def signedRenamed : RenamedClass :=
  ⟨.ofString "A", .ofString "BB",
    [0xCA, 0xFE, 0xBA, 0xBE, 0, 0, 0, 52, 0, 6, 1, 0, 2, 66, 66, 7, 0, 1, 1, 0, 1, 102, 1, 0, 4, 76, 66, 66, 59,
      1, 0, 9, 83, 105, 103, 110, 97, 116, 117, 114, 101, 0, 33, 0, 2, 0, 0, 0, 0, 0, 1, 0, 0, 0, 3, 0, 4, 0, 1,
      0, 5, 0, 0, 0, 2, 0, 4, 0, 0, 0, 0]⟩

theorem signed_names_kept : AttributeNamesKept signedClass signedRenamed.bytes := by
  intro index old new held written listed
  have checked : ∀ entry ∈ (Walk.ofBytes signedClass).entries, ∀ other ∈ (Walk.ofBytes signedRenamed.bytes).entries,
      other.index = entry.index → ∀ name ∈ AttributeKind.known.map Prod.fst,
        entry.constant = .text name ∨ other.constant = .text name → other.constant = entry.constant := by decide
  have here := each_constant (fun place constant => ∀ other ∈ (Walk.ofBytes signedRenamed.bytes).entries,
    other.index = place → ∀ name ∈ AttributeKind.known.map Prod.fst,
      constant = .text name ∨ other.constant = .text name → other.constant = constant) checked index _ held
  have there := each_constant (fun place constant => place = index → ∀ name ∈ AttributeKind.known.map Prod.fst,
    .text old = Constant.text name ∨ constant = .text name → constant = .text old) here index _ written rfl
  rcases listed with listed | listed
  · exact Constant.text.inj (there old listed (.inl rfl))
  · exact Constant.text.inj (there new listed (.inr rfl))

theorem renamed_structure_kept_sample :
    renameClass signedRules.renamer Oracle.empty {} signedClass ⟨(), #[]⟩ = .ok signedRenamed ⟨(), #[]⟩ ∧
      ∀ mode, ∃ before after, Scan.ofBytes mode signedClass = .ok before ∧
        Scan.ofBytes mode signedRenamed.bytes = .ok after ∧ before.SameStructure after := by
  have renamed : renameClass signedRules.renamer Oracle.empty {} signedClass ⟨(), #[]⟩ = .ok signedRenamed ⟨(), #[]⟩ := rfl
  refine ⟨renamed, fun mode => renamed_structure_kept _ _ _ _ _ _ _ renamed mode ?_⟩
  cases mode with
  | pass => exact .inl rfl
  | interpret => exact .inr ⟨rfl, signed_names_kept⟩

end Relabel
