import Mathlib.Data.List.Induction
import Mathlib.Data.List.Nodup
import Relabel.Proofs.RefusedFacts

set_option autoImplicit false

namespace Relabel

section

variable {α : Type}

def Overtaken (value : α) (values : List α) : Prop :=
  ∃ before other after, values = before ++ other :: after ∧ value ∈ before ∧ other ∉ before

theorem last_not_overtaken {values : List α} {value : α} (fresh : value ∉ values) :
    ¬ Overtaken value (values ++ [value]) := by
  rintro ⟨before, other, after, cut, early, _⟩
  obtain ⟨_, rfl, _⟩ | ⟨front, _, rfl⟩ := snoc_cut cut
  · exact fresh early
  · exact fresh (List.mem_append_left _ early)

theorem overtaken_concat {values : List α} {value : α} (known : value ∈ values) (other : α) :
    Overtaken value (values ++ [other]) ↔ other ∉ values ∨ Overtaken value values := by
  constructor
  · rintro ⟨before, one, after, cut, early, late⟩
    obtain ⟨_, rfl, rfl⟩ | ⟨front, _, rfl⟩ := snoc_cut cut
    · exact .inl late
    · exact .inr ⟨before, one, front, rfl, early, late⟩
  · rintro (fresh | ⟨before, one, after, rfl, early, late⟩)
    · exact ⟨values, other, [], rfl, known, fresh⟩
    · exact ⟨before, one, after ++ [other], by simp, early, late⟩

variable [DecidableEq α]

theorem distinct_nodup (values : List α) : values.eraseDups.Nodup := by
  induction values using List.reverseRecOn with
  | nil => exact List.nodup_nil
  | append_singleton values value ih =>
      rw [distinct_snoc]
      split
      · exact ih
      · rename_i fresh
        exact List.concat_eq_append ▸ ih.concat fun known => fresh (List.mem_eraseDups.mp known)

theorem distinct_last {values : List α} {value : α} (known : value ∈ values) :
    values.eraseDups.getLast? = some value ↔ ¬ Overtaken value values := by
  -- The induction is from the end, where a value that is new overtakes all others.
  induction values using List.reverseRecOn with
  | nil => cases known
  | append_singleton values other ih =>
      by_cases early : value ∈ values
      · rw [overtaken_concat early, distinct_snoc]
        by_cases repeated : other ∈ values
        · rw [if_pos repeated, ih early]
          simp [repeated]
        · have apart : other ≠ value := fun same => repeated (same ▸ early)
          simp [repeated, apart]
      · have same : value = other := by simpa [early] using known
        subst same
        rw [distinct_snoc, if_neg early]
        simp [last_not_overtaken early]

end

namespace Links

theorem put_distinct {links : Links} (distinct : links.earlier.Nodup) (target : Nat) : (links.put target).earlier.Nodup := by
  cases held : links.current with
  | none =>
      rw [put, held]
      exact distinct
  | some current =>
      rw [put, held]
      dsimp only
      split
      · exact distinct
      · rename_i fresh
        exact List.concat_eq_append ▸ distinct.concat fun known => fresh (.inr known)

theorem to_list_concat {links : Links} {target : Nat} (held : links.current = some target) :
    links.toList = links.earlier.filter (· ≠ target) ++ [target] := by
  rw [toList, held]

theorem to_list_distinct {links : Links} (distinct : links.earlier.Nodup) : links.toList.Nodup := by
  cases held : links.current with
  | none =>
      rw [toList, held]
      exact distinct
  | some current =>
      rw [to_list_concat held]
      exact List.concat_eq_append ▸ (distinct.filter _).concat (by simp)

theorem puts_distinct (targets : List Nat) : (targets.foldl put {}).toList.Nodup := by
  apply to_list_distinct
  induction targets using List.reverseRecOn with
  | nil => exact List.nodup_nil
  | append_singleton targets target ih =>
      rw [List.foldl_append]
      exact put_distinct ih target

theorem puts_last (targets : List Nat) : (targets.foldl put {}).toList.getLast? = targets.getLast? := by
  obtain rfl | ⟨front, target, rfl⟩ := List.eq_nil_or_concat targets
  · rfl
  · rw [List.concat_eq_append, List.foldl_concat, to_list_concat (put_current _ target)]
    simp

end Links

namespace Slot

variable {place : Nat}

theorem told_put (links : Slot → Links) {write : Fact → Option Nat} (blank : links {} = {})
    (each : ∀ fact (slot : Slot), links (slot.after place fact) = (write fact).elim (links slot) (links slot).put)
    (facts : List Fact) : links (told place facts) = (facts.filterMap write).foldl Links.put {} := by
  have run : ∀ slot : Slot, links (facts.foldl (after place) slot) =
      (facts.filterMap write).foldl Links.put (links slot) := by
    induction facts with
    | nil => exact fun _ => rfl
    | cons fact rest ih =>
        intro slot
        rw [List.foldl_cons, ih, each]
        cases found : write fact <;> simp [found]
  exact blank ▸ run {}

theorem told_links (facts : List Fact) :
    (told place facts).nameAndTypes = (facts.filterMap (Fact.namedFor? place)).foldl Links.put {} :=
  told_put Slot.nameAndTypes rfl (fun fact slot => slot.after_links fact) facts

theorem told_inner (facts : List Fact) :
    (told place facts).innerClasses = (facts.filterMap (Fact.innerFor? place)).foldl Links.put {} :=
  told_put Slot.innerClasses rfl (fun fact slot => slot.after_inner fact) facts

end Slot

namespace Catalog

variable {count name : Nat} {facts : List Fact}

theorem passed_inner (catalog : Catalog) (name classIndex : Nat) :
    passed (learn (.inner name classIndex) catalog) =
      decide (Addressable catalog.count name ∧ Addressable catalog.count classIndex) := by
  by_cases inside : Addressable catalog.count name ∧ Addressable catalog.count classIndex
  · have sure : Sure catalog.count (learn (.inner name classIndex)) := sure_within inside.1 (sure_within inside.2
      (sure_bind (sure_update name _) fun _ => sure_use inside.1 _))
    obtain ⟨_, _, ran, _⟩ := sure catalog rfl
    rw [ran, decide_eq_true inside]
    rfl
  · rw [decide_eq_false inside]
    cases ran : learn (.inner name classIndex) catalog with
    | ok a next =>
        have tied := learn_tied ran
        exact absurd (by simpa [Fact.tied] using tied) inside
    | error e next => rfl

theorem accepted_inner (name : Nat) (facts : List Fact) (catalog : Catalog) :
    (acceptedAfter catalog facts).filterMap (Fact.innerFor? name) =
      facts.filterMap fun fact => (fact.innerFor? name).filter fun classIndex =>
        Addressable catalog.count name ∧ Addressable catalog.count classIndex := by
  induction facts generalizing catalog with
  | nil => rfl
  | cons fact rest ih =>
      -- What was refused before changes no count, and only the count decides.
      have later := ih (catalog.hear fact)
      rw [hear_size] at later
      cases found : fact.innerFor? name with
      | none =>
          rw [acceptedAfter]
          split <;> simp [found, later]
      | some classIndex =>
          obtain rfl := Fact.of_inner_for found
          rw [acceptedAfter, passed_inner]
          by_cases inside : Addressable catalog.count name ∧ Addressable catalog.count classIndex
          · rw [if_pos (decide_eq_true inside), List.filterMap_cons_some found, later]
            exact (List.filterMap_cons_some (by simp [found, inside])).symm
          · rw [if_neg (by simpa using inside), later]
            exact (List.filterMap_cons_none (by simpa [found] using inside)).symm

theorem heard_found (inside : Addressable count name) (facts : List Fact) :
    ∃ slot, (heard count facts).slot name = .ok slot ∧ slot.ties = (Slot.told name (accepted count facts)).ties := by
  have reach : Addressable (heard count facts).count name := (heard_size count facts).symm ▸ inside
  obtain ⟨slot, stored, found⟩ := slot_found _ name reach
  exact ⟨slot, found, heard_ties stored⟩

theorem heard_inner (inside : Addressable count name) (facts : List Fact) :
    (heard count facts).innerClasses name =
      .ok (((accepted count facts).filterMap (Fact.innerFor? name)).foldl Links.put {}).toList := by
  obtain ⟨slot, found, ties⟩ := heard_found inside facts
  rw [innerClasses, found, ← Slot.told_inner, ← Slot.inner_of_ties ties]
  rfl

end Catalog

open Catalog (Addressable heard accepted)

/-- The inner classes of a text are those that were put under it, each once and the one put last at
the end. No other fact has a part in it, refused or not. -/
theorem inner_classes_listed {count name : Nat} (facts : List Fact) (inside : Addressable count name) :
    ∃ classes, (heard count facts).innerClasses name = .ok classes ∧ classes.Nodup ∧
      (∀ classIndex, classIndex ∈ classes ↔ Fact.inner name classIndex ∈ accepted count facts) ∧
      classes.getLast? = ((accepted count facts).filterMap (Fact.innerFor? name)).getLast? ∧
      ∀ keep : Fact → Bool, (∀ classIndex, keep (.inner name classIndex)) →
        (heard count (facts.filter keep)).innerClasses name = .ok classes := by
  refine ⟨_, Catalog.heard_inner inside facts, Links.puts_distinct _, ?_, Links.puts_last _, ?_⟩
  · intro classIndex
    rw [← Slot.told_inner, Slot.mem_told_inner, List.mem_filterMap]
    constructor
    · rintro ⟨fact, member, stated⟩
      exact Fact.of_inner_for stated ▸ member
    · exact fun member => ⟨_, member, if_pos rfl⟩
  · intro keep kept
    rw [Catalog.heard_inner inside, accepted, accepted, Catalog.accepted_inner, Catalog.accepted_inner,
      List.filterMap_filter]
    congr 4
    funext fact
    cases found : fact.innerFor? name with
    | none => simp
    | some classIndex => simp [Fact.of_inner_for found, kept]

theorem inner_classes_listed_again :
    Addressable 12 4 ∧
      (heard 12 [.inner 4 7, .inner 5 8, .inner 4 9, .inner 4 12, .inner 4 7]).innerClasses 4 = .ok [9, 7] ∧
      (heard 12 [.inner 4 7, .inner 4 9, .inner 4 12, .inner 4 7]).innerClasses 4 = .ok [9, 7] := by
  have inside : Addressable 12 4 := by decide
  obtain ⟨classes, found, _, _, _, alone⟩ :=
    inner_classes_listed [.inner 4 7, .inner 5 8, .inner 4 9, .inner 4 12, .inner 4 7] inside
  have known : (heard 12 [.inner 4 7, .inner 5 8, .inner 4 9, .inner 4 12, .inner 4 7]).innerClasses 4 = .ok [9, 7] := by
    decide +kernel
  obtain rfl := Except.ok.inj (found.symm.trans known)
  exact ⟨inside, known, alone (fun fact => (fact.innerFor? 4).isSome) fun _ => rfl⟩

namespace Catalog

variable {count name : Nat} {facts : List Fact}

theorem current_last_iff {catalog : Catalog} {slot : Slot} {current : LinkedMember} (found : catalog.slot name = .ok slot)
    (last : catalog.linkedMember? name = .ok (some current)) :
    ((slot.nameAndTypes.toList.filterMap catalog.memberOf?).eraseDups.getLast? = some current ↔
      ¬ Overtaken current (slot.nameAndTypes.toList.filterMap catalog.memberOf?)) ∧
    ((∀ target, slot.nameAndTypes.Has target → catalog.StandsFor target current → slot.nameAndTypes.current = some target) →
      (slot.nameAndTypes.toList.filterMap catalog.memberOf?).eraseDups.getLast? = some current) := by
  rw [linkedMember?, found] at last
  obtain ⟨target, held, resolved⟩ := Option.bind_eq_some_iff.mp (Except.ok.inj last)
  have known : current ∈ slot.nameAndTypes.toList.filterMap catalog.memberOf? :=
    List.mem_filterMap.mpr ⟨target, (Links.mem_to_list _ target).mpr (.inr held), resolved⟩
  refine ⟨distinct_last known, fun alone => (distinct_last known).mpr ?_⟩
  rw [Links.to_list_concat held, List.filterMap_append, List.filterMap_cons_some resolved, List.filterMap_nil]
  -- A replaced link that stands for the current member would be a second link of it.
  apply last_not_overtaken
  intro early
  obtain ⟨other, replaced, same⟩ := List.mem_filterMap.mp early
  obtain ⟨earlier, apart⟩ := List.mem_filter.mp replaced
  have sole := alone other (.inl earlier) ((stands_for_iff _ _ _).mpr same)
  rw [held, Option.some.injEq] at sole
  simp [sole] at apart

theorem heard_links (inside : Addressable count name) (facts : List Fact) :
    ∃ slot, (heard count facts).slot name = .ok slot ∧ slot.nameAndTypes.toList.Nodup ∧
      slot.nameAndTypes.toList.getLast? = ((accepted count facts).filterMap (Fact.namedFor? name)).getLast? ∧
      ∀ target, target ∈ slot.nameAndTypes.toList ↔
        ∃ descriptor, Fact.nameAndType target name descriptor ∈ accepted count facts := by
  obtain ⟨slot, found, ties⟩ := heard_found inside facts
  have same := Slot.named_of_ties ties
  refine ⟨slot, found, ?_, ?_, fun target => ?_⟩
  · rw [same, Slot.told_links]
    exact Links.puts_distinct _
  · rw [same, Slot.told_links]
    exact Links.puts_last _
  · rw [same, Slot.mem_told_links, List.mem_filterMap]
    constructor
    · rintro ⟨fact, member, stated⟩
      obtain ⟨descriptor, rfl⟩ := Fact.of_named_for stated
      exact ⟨descriptor, member⟩
    · rintro ⟨descriptor, member⟩
      exact ⟨_, member, if_pos rfl⟩

end Catalog

/-- The members of a name are those that its accepted names and types stand for, each once. The
links end in the latest, and each member comes where the first of its links is. So the current one
is last just if no other came up after its own first link, and surely if no replaced link stands for
it. -/
theorem linked_members_listed {count name : Nat} {facts : List Fact} {catalog : Catalog}
    (reached : heard count facts = catalog) (inside : Addressable count name) :
    ∃ slot members, catalog.slot name = .ok slot ∧ slot.nameAndTypes.toList.Nodup ∧
      slot.nameAndTypes.toList.getLast? = ((accepted count facts).filterMap (Fact.namedFor? name)).getLast? ∧
      catalog.linkedMembers name = .ok members ∧ members.Nodup ∧
      (∀ member, member ∈ members ↔ ∃ target descriptor,
        Fact.nameAndType target name descriptor ∈ accepted count facts ∧ catalog.StandsFor target member) ∧
      (∀ target descriptor linked owner, Fact.nameAndType target name descriptor ∈ accepted count facts →
        catalog.slots[target]? = some linked → linked.owner = some owner →
          ∃ member ∈ members, catalog.StandsFor target member) ∧
      ∀ current, catalog.linkedMember? name = .ok (some current) →
        (members.getLast? = some current ↔ ¬ Overtaken current (slot.nameAndTypes.toList.filterMap catalog.memberOf?)) ∧
        ((∀ target, slot.nameAndTypes.Has target → catalog.StandsFor target current →
          slot.nameAndTypes.current = some target) → members.getLast? = some current) := by
  subst reached
  obtain ⟨slot, found, distinct, latest, linked⟩ := Catalog.heard_links inside facts
  have stored := (Catalog.slot_inv found).2
  have listed : (heard count facts).linkedMembers name =
      .ok (slot.nameAndTypes.toList.filterMap (heard count facts).memberOf?).eraseDups := by
    rw [Catalog.linkedMembers, found]
    rfl
  -- Members are those of the links, and the links those of the accepted facts.
  have stated : ∀ member, member ∈ (slot.nameAndTypes.toList.filterMap (heard count facts).memberOf?).eraseDups ↔
      ∃ target descriptor, Fact.nameAndType target name descriptor ∈ accepted count facts ∧
        (heard count facts).StandsFor target member := by
    intro member
    simp only [List.mem_eraseDups, List.mem_filterMap, linked, Catalog.stands_for_iff]
    constructor
    · rintro ⟨target, ⟨descriptor, told⟩, resolved⟩
      exact ⟨target, descriptor, told, resolved⟩
    · rintro ⟨target, descriptor, told, resolved⟩
      exact ⟨target, ⟨descriptor, told⟩, resolved⟩
  refine ⟨slot, _, found, distinct, latest, listed, distinct_nodup _, stated, ?_, ?_⟩
  · intro target descriptor held owner told there owned
    have has := (Links.mem_to_list _ target).mp ((linked target).mpr ⟨descriptor, told⟩)
    obtain ⟨same, text, again, described⟩ := Catalog.linked_described stored has
    obtain rfl := Option.some.inj (there.symm.trans again)
    have stands : (heard count facts).StandsFor target ⟨held.memberKind, owner, text⟩ :=
      ⟨held, there, rfl, owned, described⟩
    exact ⟨_, (stated _).mpr ⟨target, descriptor, told, stands⟩, stands⟩
  · exact fun current last => Catalog.current_last_iff found last

def twoLinks : List Fact := [.nameAndType 5 1 2, .nameAndType 6 1 3, .member 5 8 .field, .member 6 9 .method]

theorem linked_members_listed_apart :
    Addressable 12 1 ∧ (heard 12 twoLinks).linkedMembers 1 = .ok [⟨.field, 8, 2⟩, ⟨.method, 9, 3⟩] ∧
      ∃ target descriptor, Fact.nameAndType target 1 descriptor ∈ accepted 12 twoLinks ∧
        (heard 12 twoLinks).StandsFor target ⟨.field, 8, 2⟩ := by
  have inside : Addressable 12 1 := by decide
  have known : (heard 12 twoLinks).linkedMembers 1 = .ok [⟨.field, 8, 2⟩, ⟨.method, 9, 3⟩] := by decide +kernel
  obtain ⟨_, members, _, _, _, found, _, listed, _⟩ := linked_members_listed rfl inside
  obtain rfl := Except.ok.inj (found.symm.trans known)
  exact ⟨inside, known, (listed _).mp (.head _)⟩

/-- A third link stands for the same field as the first. The field keeps its place, and so the
current link does not come last. -/
theorem current_link_not_last :
    (heard 12 (twoLinks ++ [.nameAndType 7 1 2, .member 7 8 .field])).linkedMember? 1 = .ok (some ⟨.field, 8, 2⟩) ∧
      (heard 12 (twoLinks ++ [.nameAndType 7 1 2, .member 7 8 .field])).linkedMembers 1 =
        .ok [⟨.field, 8, 2⟩, ⟨.method, 9, 3⟩] := by
  decide +kernel

end Relabel
