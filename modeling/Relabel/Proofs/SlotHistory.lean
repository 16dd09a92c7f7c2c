import Relabel.Proofs.CrossReferences

set_option autoImplicit false

namespace Relabel

theorem promote_own (held : Role) (kind : MemberKind) : held.promote kind.ownRole = kind.ownRole := by
  cases held <;> cases kind <;> rfl

namespace Slot

def changed (place index : Nat) (change : Slot → Slot) (slot : Slot) : Slot :=
  if index = place then change slot else slot

def used (place index : Nat) (role : Role) (slot : Slot) : Slot :=
  slot.changed place index fun held => { held with role := held.role.promote role }

def after (place : Nat) (slot : Slot) : Fact → Slot
  | .entry index tag offset =>
      slot.changed place index fun held => { held with tag := some tag, offset := offset.toUInt32 }
  | .use index role => slot.used place index role
  | .className classIndex name =>
      (slot.changed place classIndex fun held => { held with className := present? name }).used place name .className
  | .member nameAndType owner kind =>
      slot.changed place nameAndType fun held =>
        { held with owner := some owner, memberKind := held.memberKind.update kind }
  | .dynamic nameAndType =>
      slot.changed place nameAndType fun held => { held with memberKind := held.memberKind.update .method }
  | .nameAndType index name descriptor =>
      let linked := slot.changed place name fun held => { held with nameAndTypes := held.nameAndTypes.put index }
      let described := linked.changed place index fun held => { held with descriptor := some descriptor }
      (described.used place name .memberName).used place descriptor .descriptor
  | .declares name descriptor kind =>
      let own := (slot.used place name kind.ownRole).changed place name fun held =>
        { held with ownDescriptor := present? descriptor }
      (own.used place descriptor .descriptor).changed place name fun held =>
        { held with declarations := held.declarations.push ⟨kind, descriptor⟩ }
  | .enclosing nameAndType owner =>
      slot.changed place nameAndType fun held =>
        { held with owner := held.owner.or (some owner), memberKind := held.memberKind.update .method }
  | .inner name classIndex =>
      let linked := slot.changed place name fun held => { held with innerClasses := held.innerClasses.put classIndex }
      linked.used place name .innerName
  | .addresses .. | .handle .. => slot

def told (place : Nat) (facts : List Fact) : Slot := facts.foldl (after place) {}

variable {place : Nat}

theorem fold_keeps (holds : Slot → Prop) (facts : List Fact)
    (each : ∀ fact ∈ facts, ∀ slot : Slot, holds slot → holds (slot.after place fact)) (slot : Slot) (held : holds slot) :
    holds (facts.foldl (after place) slot) := by
  induction facts generalizing slot with
  | nil => exact held
  | cons fact rest ih =>
      exact ih (fun one member => each one (.tail _ member)) _ (each fact (.head _) slot held)

theorem told_last {β : Type} (part : Slot → Option β) (write : Fact → Option β) (facts : List Fact)
    (each : ∀ fact ∈ facts, ∀ slot : Slot, part (slot.after place fact) = (write fact).or (part slot)) :
    part (told place facts) = (facts.filterMap write).getLast?.or (part {}) := by
  have run : ∀ slot : Slot, part (facts.foldl (after place) slot) = (facts.filterMap write).getLast?.or (part slot) := by
    induction facts with
    | nil => exact fun slot => rfl
    | cons fact rest ih =>
        intro slot
        rw [List.foldl_cons, ih (fun one member => each one (.tail _ member)), each fact (.head _)]
        cases written : write fact with
        | none => simp [written]
        | some value => cases last : (rest.filterMap write).getLast? <;> simp [written, List.getLast?_cons, last]
  exact run {}

theorem told_only {β : Type} (part : Slot → Option β) (write : Fact → Option β) (facts : List Fact) (value : β)
    (each : ∀ fact ∈ facts, ∀ slot : Slot, part (slot.after place fact) = (write fact).or (part slot))
    (all : ∀ fact ∈ facts, ∀ other, write fact = some other → other = value)
    (some_writes : ∃ fact ∈ facts, write fact = some value) : part (told place facts) = some value := by
  obtain ⟨fact, member, written⟩ := some_writes
  have nonempty := List.ne_nil_of_mem (List.mem_filterMap.mpr ⟨fact, member, written⟩)
  have last := List.getLast?_eq_some_getLast nonempty
  obtain ⟨other, inside, found⟩ := List.mem_filterMap.mp (List.mem_of_getLast? last)
  rw [told_last part write facts each, last, all other inside _ found]
  rfl

theorem mem_told_put (links : Slot → Links) {write : Fact → Option Nat} (blank : links {} = {})
    (each : ∀ fact (slot : Slot), links (slot.after place fact) = (write fact).elim (links slot) (links slot).put)
    (facts : List Fact) (target : Nat) : target ∈ (links (told place facts)).toList ↔ target ∈ facts.filterMap write := by
  have run : ∀ slot : Slot, target ∈ (links (facts.foldl (after place) slot)).toList ↔
      target ∈ (links slot).toList ∨ target ∈ facts.filterMap write := by
    induction facts with
    | nil => simp
    | cons fact rest ih =>
        intro slot
        rw [List.foldl_cons, ih, each]
        cases found : write fact with
        | none => simp [found]
        | some index =>
            simp only [Option.elim_some, Links.mem_put, List.filterMap_cons, found, List.mem_cons]
            grind
  exact (run {}).trans (by simp [blank, Links.toList])

end Slot

namespace Catalog

def Does {α : Type} (place : Nat) (act : Learn α) (change : Slot → Slot) : Prop :=
  ∀ catalog a next, act catalog = .ok a next → next.slots[place]? = catalog.slots[place]?.map change

variable {α β : Type} {place : Nat}

theorem does_ask (question : Catalog → Except Fault α) : Does place (ask question) id := by
  intro catalog a next ran
  obtain ⟨_, rfl⟩ := ask_inv ran
  simp

theorem does_bind {x : Learn α} {f : α → Learn β} {first second : Slot → Slot} (one : Does place x first)
    (other : ∀ a, Does place (f a) second) : Does place (x >>= f) fun slot => second (first slot) := by
  intro catalog b next ran
  obtain ⟨a, middle, ranOne, ranOther⟩ := bind_ok_inv ran
  rw [other a middle b next ranOther, one catalog a middle ranOne, Option.map_map]
  rfl

theorem does_update (index : Nat) (change : Slot → Slot) :
    Does place (update index change) (Slot.changed place index change) := by
  intro catalog a next ran
  cases ran
  change (catalog.slots.modify index change)[place]? = _
  rw [Array.getElem?_modify]
  by_cases here : index = place
  · have same : Slot.changed place index change = change := funext fun slot => if_pos here
    rw [if_pos here, same]
  · have same : Slot.changed place index change = id := funext fun slot => if_neg here
    rw [if_neg here, same, Option.map_id, id]

theorem does_within {index : Nat} {f : Unit → Learn β} {change : Slot → Slot} (rest : Does place (f ()) change) :
    Does place (within index >>= f) change := by
  intro catalog b next ran
  obtain ⟨_, middle, ranFirst, ranSecond⟩ := bind_ok_inv ran
  obtain ⟨_, rfl⟩ := within_inv ranFirst
  exact rest middle b next ranSecond

theorem does_use (index : Nat) (role : Role) : Does place (use index role) (Slot.used place index role) :=
  does_within (does_update index _)

theorem does_same {act : Learn α} {change other : Slot → Slot} (does : Does place act change)
    (same : ∀ slot, other slot = change slot) : Does place act other := by
  intro catalog a next ran
  rw [does catalog a next ran, funext same]

theorem own_descriptor_set (name descriptor : Nat) (kind : MemberKind) (slot : Slot) :
    ((slot.used place name kind.ownRole).changed place name fun held =>
        { held with ownDescriptor := present? descriptor }) =
      (slot.used place name kind.ownRole).changed place name fun held =>
        if held.role = kind.ownRole then { held with ownDescriptor := present? descriptor } else held := by
  -- The role has just been set, so the check on it always passes.
  by_cases here : name = place
  · simp [Slot.used, Slot.changed, here, promote_own]
  · simp [Slot.used, Slot.changed, here]

theorem learn_does (fact : Fact) : Does place (learn fact) fun slot => slot.after place fact := by
  cases fact with
  | entry index tag offset => exact does_within (does_update index _)
  | use index role => exact does_use index role
  | className classIndex name =>
      exact does_within (does_bind (does_update classIndex _) fun _ => does_use name _)
  | member nameAndType owner kind => exact does_within (does_within (does_update nameAndType _))
  | dynamic nameAndType => exact does_within (does_update nameAndType _)
  | nameAndType index name descriptor =>
      exact does_within (does_within (does_within (does_bind (does_update name _) fun _ =>
        does_bind (does_update index _) fun _ => does_bind (does_use name _) fun _ => does_use descriptor _)))
  | declares name descriptor kind =>
      refine does_same (does_bind (does_use name _) fun _ => does_bind (does_update name _) fun _ =>
        does_bind (does_use descriptor _) fun _ => does_update name _) fun slot => ?_
      rw [Slot.after, own_descriptor_set]
  | enclosing nameAndType owner => exact does_within (does_within (does_update nameAndType _))
  | inner name classIndex =>
      exact does_within (does_within (does_bind (does_update name _) fun _ => does_use name _))
  | addresses kind index => exact does_ask _
  | handle index kind target => exact does_ask _

theorem learn_all_cons (fact : Fact) (rest : List Fact) :
    learnAll (fact :: rest) = (do learn fact; learnAll rest) := by
  funext catalog
  cases step : learn fact catalog with
  | ok a next => rw [learnAll, step, bind_ok step]
  | error e stop => rw [learnAll, step, bind_error step]

theorem learn_all_does (facts : List Fact) :
    Does place (learnAll facts) fun slot => facts.foldl (Slot.after place) slot := by
  induction facts with
  | nil =>
      intro catalog a next ran
      cases ran
      simp
  | cons fact rest ih =>
      rw [learn_all_cons]
      exact does_bind (learn_does fact) fun _ => ih

theorem learnt_slot (count : Nat) (facts : List Fact) (final : Catalog) (a : Unit)
    (ran : learnAll facts (.empty count) = .ok a final) (inside : place < count) :
    final.slots[place]? = some (Slot.told place facts) := by
  have blank : (Catalog.empty count).slots[place]? = some {} := by
    simp [Catalog.empty, inside]
  rw [learn_all_does facts (.empty count) a final ran, blank]
  rfl

end Catalog

end Relabel
