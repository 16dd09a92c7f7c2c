import Relabel.Proofs.Classification
import Relabel.Proofs.PrefixExactness
import Relabel.Proofs.Relearning

set_option autoImplicit false

namespace Relabel

open ClassFile (constantAt?)

namespace Role

def SharpenedTo (bare rich : Role) : Prop := rich = bare ∨ bare.weight ≤ rich.weight ∧ rich.weight ≤ 3

variable {bare rich : Role}

theorem sharpened_promote (held : bare.SharpenedTo rich) (role : Role) :
    (bare.promote role).SharpenedTo (rich.promote role) := by
  rcases held with rfl | ⟨lighter, light⟩
  · exact .inl rfl
  · by_cases replaced : rich.weight ≤ role.weight
    · left
      rw [promote, promote, if_pos replaced, if_pos (Nat.le_trans lighter replaced)]
    · right
      rw [promote, promote, if_neg replaced]
      split <;> omega

theorem sharpened_further (held : bare.SharpenedTo rich) (role : Role) (light : role.weight ≤ 3) :
    bare.SharpenedTo (rich.promote role) := by
  by_cases replaced : rich.weight ≤ role.weight
  · right
    rw [promote, if_pos replaced]
    rcases held with rfl | ⟨lighter, _⟩ <;> omega
  · rw [promote, if_neg replaced]
    exact held

theorem sharpened_promote_all (roles : List Role) (held : bare.SharpenedTo rich) :
    (roles.foldl promote bare).SharpenedTo (roles.foldl promote rich) := by
  induction roles generalizing bare rich with
  | nil => exact held
  | cons role rest ih => exact ih (sharpened_promote held role)

theorem sharpened_further_all (roles : List Role) (light : ∀ role ∈ roles, role.weight ≤ 3) (held : bare.SharpenedTo rich) :
    bare.SharpenedTo (roles.foldl promote rich) := by
  induction roles generalizing rich with
  | nil => exact held
  | cons role rest ih =>
      exact ih (fun other member => light other (.tail _ member)) (sharpened_further held role (light role (.head _)))

theorem SharpenedTo.heavier (held : bare.SharpenedTo rich) : bare.weight ≤ rich.weight := by
  rcases held with rfl | ⟨lighter, _⟩
  · exact Nat.le_refl _
  · exact lighter

theorem SharpenedTo.settled (held : bare.SharpenedTo rich) (named : bare ∈ [className, memberName, ownField, ownMethod]) :
    rich = bare := by
  have heavy : 3 < bare.weight := by
    revert named
    cases bare <;> decide
  rcases held with same | ⟨_, _⟩
  · exact same
  · omega

theorem SharpenedTo.typed (held : bare.SharpenedTo rich) (typed : bare = descriptor) : rich = descriptor ∨ rich = signature := by
  subst typed
  rcases held with same | ⟨heavy, light⟩
  · exact .inl same
  · revert heavy light
    cases rich <;> decide

end Role

structure Slot.KnowsAlike (one other : Slot) : Prop where
  tag : other.tag = one.tag
  offset : other.offset = one.offset
  className : other.className = one.className
  descriptor : other.descriptor = one.descriptor
  nameAndTypes : other.nameAndTypes = one.nameAndTypes
  ownDescriptor : other.ownDescriptor = one.ownDescriptor
  declarations : other.declarations = one.declarations

namespace Slot

variable {place index : Nat} {bare rich : Slot} {change : Slot → Slot}

theorem KnowsAlike.changed_both (alike : bare.KnowsAlike rich)
    (each : ∀ one other : Slot, one.KnowsAlike other → (change one).KnowsAlike (change other)) :
    (bare.changed place index change).KnowsAlike (rich.changed place index change) := by
  unfold changed
  split
  · exact each bare rich alike
  · exact alike

theorem KnowsAlike.changed_beside (alike : bare.KnowsAlike rich)
    (each : ∀ other : Slot, bare.KnowsAlike other → bare.KnowsAlike (change other)) :
    bare.KnowsAlike (rich.changed place index change) := by
  unfold changed
  split
  · exact each rich alike
  · exact alike

theorem KnowsAlike.used_both (alike : bare.KnowsAlike rich) (role : Role) :
    (bare.used place index role).KnowsAlike (rich.used place index role) :=
  alike.changed_both fun _ _ same => { same with }

theorem KnowsAlike.used_beside (alike : bare.KnowsAlike rich) (role : Role) :
    bare.KnowsAlike (rich.used place index role) :=
  alike.changed_beside fun _ same => { same with }

theorem alike_after_table (fact : Fact) (own : fact.ofTables) (alike : bare.KnowsAlike rich) :
    (bare.after place fact).KnowsAlike (rich.after place fact) := by
  cases fact with
  | declares name descriptor kind =>
      rw [after, after]
      refine KnowsAlike.changed_both (KnowsAlike.used_both (KnowsAlike.changed_both (alike.used_both _) ?_) _) ?_
      · exact fun _ _ same => { same with ownDescriptor := rfl }
      · exact fun _ _ same => { same with declarations := by rw [same.declarations] }
  | addresses kind index => exact alike
  | _ => cases own

theorem alike_after_attribute (fact : Fact) (stated : fact.OfAttribute) (alike : bare.KnowsAlike rich) :
    bare.KnowsAlike (rich.after place fact) := by
  cases fact with
  | use index role => exact alike.used_beside role
  | enclosing target owner =>
      rw [after]
      exact alike.changed_beside fun _ same => { same with }
  | inner name classIndex =>
      rw [after]
      refine KnowsAlike.used_beside ?_ .innerName
      exact alike.changed_beside fun _ same => { same with }
  | _ => exact absurd stated id

theorem noted_refines (noted : List Fact) (body : ∀ fact ∈ noted, fact.OfBody) (alike : bare.KnowsAlike rich)
    (sharper : bare.role.SharpenedTo rich.role) :
    let one := (noted.filter Fact.ofTables).foldl (after place) bare
    let other := noted.foldl (after place) rich
    one.KnowsAlike other ∧ one.role.SharpenedTo other.role := by
  -- The induction is on what is noted. Where the tables speak, both slots hear it; an attribute is
  -- heard by the second alone.
  induction noted generalizing bare rich with
  | nil => exact ⟨alike, sharper⟩
  | cons fact rest ih =>
      have later := fun one member => body one (List.mem_cons_of_mem fact member)
      by_cases own : fact.ofTables
      · rw [List.filter_cons_of_pos own]
        refine ih later (alike_after_table fact own alike) ?_
        rw [after_role, after_role]
        exact Role.sharpened_promote_all _ sharper
      · rw [List.filter_cons_of_neg own]
        have stated : fact.OfAttribute := by
          rcases body_fact_cases fact (body fact (.head _)) with ⟨header, rfl⟩ | ⟨_, _, rfl⟩ | stated
          · exact absurd rfl own
          · exact absurd rfl own
          · exact stated
        refine ih later (alike_after_attribute fact stated alike) ?_
        rw [after_role]
        exact Role.sharpened_further_all _ (fun role used => attribute_use_weight stated used) sharper

theorem told_refines (place : Nat) (facts noted : List Fact) (body : ∀ fact ∈ noted, fact.OfBody) :
    let one := told place (facts ++ noted.filter Fact.ofTables)
    let other := told place (facts ++ noted)
    one.KnowsAlike other ∧ one.role.SharpenedTo other.role := by
  rw [told, told, List.foldl_append, List.foldl_append]
  exact noted_refines noted body ⟨rfl, rfl, rfl, rfl, rfl, rfl, rfl⟩ (.inl rfl)

end Slot

namespace Survey

theorem notes_uninterpreted (mode : AttributeMode) (names : NameTable)
    (plain : ∀ index name, names.get index = .ok name → AttributeKind.ofName name = .other) :
    Notes (fun fact => fact.ofTables) (attributes mode names) := by
  cases mode with
  | pass => exact notes_read _
  | interpret =>
      rw [attributes]
      refine notes_attribute_table names fun index name known => ?_
      rw [plain index name known]
      exact notes_bind (notes_read _) fun _ => notes_pure ()

end Survey

theorem other_of_unlisted {name : Name} (unlisted : name ∉ AttributeKind.known.map Prod.fst) :
    AttributeKind.ofName name = .other := by
  have missing : AttributeKind.known.lookup name = none := by
    rw [List.lookup_eq_none_iff]
    intro entry member
    simp only [bne_iff_ne, ne_eq]
    exact fun same => unlisted (List.mem_map.mpr ⟨entry, member, same.symm⟩)
  rw [AttributeKind.ofName, missing, Option.getD_none]

theorem Pooled.stop_at {mode : AttributeMode} {data : Bytes} (pooled : Pooled data) {outline : Outline} {r : Reading}
    (surveyed : Survey.outline mode (.ofEntries pooled.count pooled.entries) ⟨.ahead pooled.stop pooled.body, #[]⟩ =
      .ok outline r) : Scan.stop mode data = .ok r.cursor.pos := by
  rw [Scan.stop, pooled.walk]
  simp only [bind, Except.bind, pooled.start_body, surveyed]

structure Slot.RefinedBy (bare rich : Slot) : Prop extends KnowsAlike bare rich where
  heavier : bare.role.weight ≤ rich.role.weight
  settled : bare.role ∈ [Role.className, .memberName, .ownField, .ownMethod] → rich.role = bare.role
  typed : bare.role = .descriptor → rich.role = .descriptor ∨ rich.role = .signature

structure Scan.RefinedBy (bare rich : Scan) : Prop where
  names : rich.names = bare.names
  layout : rich.layout = bare.layout
  outline : rich.outline = bare.outline
  count : rich.catalog.count = bare.catalog.count
  slots : ∀ (index : Nat) (one other : Slot), bare.catalog.slots[index]? = some one →
    rich.catalog.slots[index]? = some other → one.RefinedBy other

namespace Scanned

variable {data : Bytes} {bare rich : Scan} (passed : Scanned .pass data bare) (scanned : Scanned .interpret data rich)

theorem slots_refined (pooled : passed.pooled = scanned.pooled)
    (noted : passed.noted.toList = scanned.noted.toList.filter Fact.ofTables) (index : Nat) (one other : Slot)
    (here : bare.catalog.slots[index]? = some one) (there : rich.catalog.slots[index]? = some other) : one.RefinedBy other := by
  have inside : index < scanned.pooled.count := by
    rw [← scanned.closed.1]
    exact (Array.getElem?_eq_some_iff.mp there).1
  have learntHere := Catalog.learnt_slot _ passed.facts bare.catalog () passed.learnt (by rwa [pooled])
  have learntThere := Catalog.learnt_slot _ scanned.facts rich.catalog () scanned.learnt inside
  rw [here] at learntHere
  rw [there] at learntThere
  have refined := Slot.told_refines index scanned.pooled.facts scanned.noted.toList scanned.noted_kinds
  rw [Option.some.inj learntHere, Option.some.inj learntThere, facts, facts, pooled, noted]
  exact ⟨refined.1, refined.2.heavier, refined.2.settled, refined.2.typed⟩

include scanned in
theorem noted_uninterpreted
    (plain : ∀ index name, constantAt? data index = some (.text name) → name ∉ AttributeKind.known.map Prod.fst) :
    scanned.noted.toList.filter Fact.ofTables = scanned.noted.toList := by
  have unread := Survey.notes_uninterpreted .interpret (.ofEntries scanned.pooled.count scanned.pooled.entries)
    fun index name known => other_of_unlisted (plain index name ((scanned.pooled.text_iff index name).mp known))
  obtain ⟨added, same, own⟩ := Survey.notes_outline_of .interpret _ (fun _ => rfl) (fun _ _ _ => rfl) unread
    ⟨.ahead scanned.pooled.stop scanned.pooled.body, #[]⟩
  rw [scanned.outline_ran] at same
  change scanned.noted.toList = added at same
  rw [same]
  exact List.filter_eq_self.mpr own

end Scanned

theorem Scanned.passed {mode : AttributeMode} {data : Bytes} {scan : Scan} (scanned : Scanned mode data scan) :
    ∃ (bare : Scan) (passed : Scanned .pass data bare) (stop : Nat), passed.pooled = scanned.pooled ∧
      passed.noted.toList = scanned.noted.toList.filter Fact.ofTables ∧ scan.outline = bare.outline ∧
      Scan.stop .pass data = .ok stop ∧ Scan.stop mode data = .ok stop := by
  obtain ⟨tables, c, read, outlined, cursor, stated⟩ := Survey.outline_tables mode _ _ _ _ _ ⟨rfl, rfl⟩ scanned.outline_ran
  obtain ⟨found, r, surveyed, same, there, facts⟩ :=
    Survey.tables_outline (.ofEntries scanned.pooled.count scanned.pooled.entries) _
      ⟨.ahead scanned.pooled.stop scanned.pooled.body, #[]⟩ _ _ ⟨rfl, rfl⟩ read
  have noted : r.facts.toList = scanned.noted.toList.filter Fact.ofTables := facts.trans stated.symm
  -- Facts of attributes state no constant, so the others can be learnt without them.
  have thinned : Thinned scanned.facts (scanned.pooled.facts ++ r.facts.toList) := by
    rw [noted]
    exact (Thinned.refl _).append
      (.filter _ _ fun fact member => body_fact_plain fact (scanned.noted_kinds fact member))
  obtain ⟨catalog, learnt⟩ := thinned.learnt (fun _ => rfl) scanned.learnt
  obtain ⟨passed, pooled, notes⟩ := scanned.pooled.scans surveyed learnt
  have stops : Scan.stop mode data = .ok r.cursor.pos := by
    rw [scanned.pooled.stop_at scanned.outline_ran, there, ← cursor]
  exact ⟨_, passed, r.cursor.pos, pooled, by rw [notes, noted], outlined.trans same.symm,
    scanned.pooled.stop_at surveyed, stops⟩

theorem interpreting_refines_passing (data : Bytes) (rich : Scan) (ran : Scan.ofBytes .interpret data = .ok rich) :
    ∃ bare stop, Scan.ofBytes .pass data = .ok bare ∧ Scan.stop .pass data = .ok stop ∧
      Scan.stop .interpret data = .ok stop ∧ bare.RefinedBy rich ∧
      ((∀ index name, constantAt? data index = some (.text name) → name ∉ AttributeKind.known.map Prod.fst) →
        bare = rich) := by
  obtain ⟨scanned⟩ := scan_inv .interpret data rich ran
  obtain ⟨bare, passed, stop, pooled, noted, outlined, stopsPassing, stops⟩ := scanned.passed
  have names : rich.names = bare.names := by rw [scanned.names, passed.names, pooled]
  have layout : rich.layout = bare.layout := by rw [scanned.layout, passed.layout, pooled]
  refine ⟨bare, stop, passed.accepted, stopsPassing, stops, ?_, fun plain => ?_⟩
  · refine ⟨names, layout, outlined, ?_, passed.slots_refined scanned pooled noted⟩
    rw [scanned.closed.1, passed.closed.1, pooled]
  · have learnt := scanned.learnt
    rw [← scanned.noted_uninterpreted plain, ← noted, ← pooled, passed.learnt] at learnt
    cases rich
    cases bare
    cases learnt
    simp_all

def signedClass : Bytes :=
  [0xCA, 0xFE, 0xBA, 0xBE, 0, 0, 0, 52, 0, 6, 1, 0, 1, 65, 7, 0, 1, 1, 0, 1, 102, 1, 0, 3, 76, 65, 59,
    1, 0, 9, 83, 105, 103, 110, 97, 116, 117, 114, 101, 0, 33, 0, 2, 0, 0, 0, 0, 0, 1, 0, 0, 0, 3, 0, 4, 0, 1,
    0, 5, 0, 0, 0, 2, 0, 4, 0, 0, 0, 0]

theorem interpreting_refines_passing_sample :
    (∃ rich bare stop, Scan.ofBytes .interpret signedClass = .ok rich ∧ rich.catalog.role 4 = .ok .signature ∧
      Scan.ofBytes .pass signedClass = .ok bare ∧ bare.catalog.role 4 = .ok .descriptor ∧
      Scan.stop .pass signedClass = .ok stop ∧ Scan.stop .interpret signedClass = .ok stop ∧ bare.RefinedBy rich) ∧
    ∃ same, Scan.ofBytes .interpret sampleClass = .ok same ∧ Scan.ofBytes .pass sampleClass = .ok same := by
  constructor
  · obtain ⟨bare, stop, passes, stopsPassing, stops, refined, _⟩ := interpreting_refines_passing signedClass _ rfl
    have role : ((Scan.ofBytes .pass signedClass).bind fun scan => scan.catalog.role 4) = .ok .descriptor := rfl
    rw [passes] at role
    exact ⟨_, bare, stop, rfl, rfl, passes, role, stopsPassing, stops, refined⟩
  · obtain ⟨bare, _, passes, _, _, _, equal⟩ := interpreting_refines_passing sampleClass _ rfl
    have plain : ∀ listed ∈ AttributeKind.known.map Prod.fst,
        ∀ entry ∈ (Walk.ofBytes sampleClass).entries, entry.constant ≠ .text listed := by decide
    refine ⟨_, rfl, passes.trans (congrArg Except.ok (equal fun index name held listed => ?_))⟩
    exact each_constant (fun _ constant => constant ≠ .text name) (plain name listed) index _ held rfl

end Relabel
