import Relabel.Proofs.Relating
import Relabel.Proofs.SlotHistory

set_option autoImplicit false

namespace Relabel

theorem Slot.after_tag_plain {place : Nat} (slot : Slot) (fact : Fact) (plain : fact.entryIndex? = none) :
    (slot.after place fact).tag = slot.tag := by
  cases fact with
  | entry => cases plain
  | _ => simp [after, used, changed, apply_ite Slot.tag]

namespace Catalog

def Agrees (one other : Catalog) : Prop :=
  ∀ place : Nat, one.slots[place]?.map Slot.tag = other.slots[place]?.map Slot.tag

def Follows (x y : Learn Unit) : Prop := Relates Agrees x y fun _ one _ other => Agrees one other

theorem agrees_slot {one other : Catalog} {index : Nat} {slot : Slot} (agrees : Agrees one other)
    (found : one.slot index = .ok slot) : ∃ same, other.slot index = .ok same ∧ same.tag = slot.tag := by
  obtain ⟨here, stored⟩ := slot_inv found
  have there := agrees index
  rw [stored, Option.map_some, eq_comm, Option.map_eq_some_iff] at there
  obtain ⟨same, held, tagged⟩ := there
  refine ⟨same, ?_, tagged⟩
  rw [Catalog.slot, if_neg (Nat.ne_of_gt here.1), held]

theorem agrees_tag {one other : Catalog} {index : Nat} {tag : Tag} (agrees : Agrees one other)
    (found : one.tag index = .ok tag) : other.tag index = .ok tag := by
  obtain ⟨slot, held, tagged⟩ := except_bind_inv found
  obtain ⟨same, there, alike⟩ := agrees_slot agrees held
  simp only [Catalog.tag, there, bind, Except.bind, alike]
  exact tagged

theorem follows_ask {question : Catalog → Except Fault Unit}
    (alike : ∀ one other, Agrees one other → question one = .ok () → question other = .ok ()) :
    Follows (ask question) (ask question) := by
  intro one other a next agrees ran
  obtain ⟨answer, rfl⟩ := ask_inv ran
  exact ⟨(), other, by rw [ask, alike _ other agrees answer], agrees⟩

theorem follows_within {index : Nat} {f g : Unit → Learn Unit} (rest : Follows (f ()) (g ())) :
    Follows (within index >>= f) (within index >>= g) := by
  intro one other a next agrees ran
  obtain ⟨_, middle, ranWithin, ranRest⟩ := bind_ok_inv ran
  obtain ⟨slot, asked, _⟩ := map_ok_inv ranWithin
  obtain ⟨found, rfl⟩ := ask_inv asked
  obtain ⟨same, there, _⟩ := agrees_slot agrees found
  have passed : within index other = .ok () other := by
    have known : ask (·.slot index) other = .ok same other := by rw [ask, there]
    rw [within, bind_ok known]
    rfl
  obtain ⟨b, last, ranOther, ended⟩ := rest middle other a next agrees ranRest
  exact ⟨b, last, by rw [bind_ok passed, ranOther], ended⟩

theorem follows_update (index : Nat) {change other : Slot → Slot}
    (alike : ∀ slot same : Slot, slot.tag = same.tag → (change slot).tag = (other same).tag) :
    Follows (update index change) (update index other) := by
  intro one two a next agrees ran
  cases ran
  refine ⟨(), ⟨two.slots.modify index other⟩, rfl, ?_⟩
  intro place
  change (one.slots.modify index change)[place]?.map Slot.tag = (two.slots.modify index other)[place]?.map Slot.tag
  have before := agrees place
  rw [Array.getElem?_modify, Array.getElem?_modify]
  by_cases here : index = place
  · rw [if_pos here, if_pos here, Option.map_map, Option.map_map]
    cases left : one.slots[place]? with
    | none =>
        rw [left, Option.map_none, eq_comm, Option.map_eq_none_iff] at before
        rw [before]
        rfl
    | some slot =>
        rw [left, Option.map_some, eq_comm, Option.map_eq_some_iff] at before
        obtain ⟨same, held, tagged⟩ := before
        rw [held]
        exact congrArg some (alike slot same tagged.symm)
  · rw [if_neg here, if_neg here, before]

theorem follows_kept (index : Nat) {change : Slot → Slot} (kept : ∀ slot, (change slot).tag = slot.tag) :
    Follows (update index change) (update index change) :=
  follows_update index fun slot same alike => by rw [kept, kept, alike]

theorem follows_use (index : Nat) (role : Role) : Follows (use index role) (use index role) :=
  follows_within (follows_kept index fun _ => rfl)

theorem follows_then {x y : Learn Unit} {f g : Unit → Learn Unit} (first : Follows x y) (second : Follows (f ()) (g ())) :
    Follows (x >>= f) (y >>= g) := relates_bind first fun _ _ => second

theorem learn_follows (fact : Fact) : Follows (learn fact) (learn fact) := by
  cases fact with
  | entry index tag offset => exact follows_within (follows_update index fun _ _ _ => rfl)
  | use index role => exact follows_use index role
  | className classIndex name =>
      exact follows_within (follows_then (follows_kept classIndex fun _ => rfl) (follows_use name _))
  | member nameAndType owner kind => exact follows_within (follows_within (follows_kept nameAndType fun _ => rfl))
  | dynamic nameAndType => exact follows_within (follows_kept nameAndType fun _ => rfl)
  | nameAndType index name descriptor =>
      exact follows_within (follows_within (follows_within (follows_then (follows_kept name fun _ => rfl)
        (follows_then (follows_kept index fun _ => rfl) (follows_then (follows_use name _) (follows_use descriptor _))))))
  | declares name descriptor kind =>
      refine follows_then (follows_use name _) (follows_then (follows_kept name fun slot => ?_)
        (follows_then (follows_use descriptor _) (follows_kept name fun _ => rfl)))
      split <;> rfl
  | enclosing nameAndType owner => exact follows_within (follows_within (follows_kept nameAndType fun _ => rfl))
  | inner name classIndex =>
      exact follows_within (follows_within (follows_then (follows_kept name fun _ => rfl) (follows_use name _)))
  | addresses kind index =>
      refine follows_ask fun one other agrees accepted => ?_
      obtain ⟨tag, tagged, fits⟩ := except_bind_inv accepted
      rw [address, agrees_tag agrees tagged]
      exact fits
  | handle index kind target =>
      refine follows_ask fun one other agrees accepted => ?_
      obtain ⟨tag, tagged, fits⟩ := except_bind_inv accepted
      rw [checkHandle, agrees_tag agrees tagged]
      exact fits

theorem entry_follows (index : Nat) (tag : Tag) (offset other : Nat) :
    Follows (learn (.entry index tag offset)) (learn (.entry index tag other)) :=
  follows_within (follows_update index fun _ _ _ => rfl)

theorem plain_agrees {fact : Fact} (plain : fact.entryIndex? = none) {one other next : Catalog} {a : Unit}
    (agrees : Agrees one other) (ran : learn fact one = .ok a next) : Agrees next other := by
  intro place
  rw [learn_does fact one a next ran, Option.map_map, ← agrees place]
  congr 1
  funext slot
  exact slot.after_tag_plain fact plain

theorem plain_all_agree {facts : List Fact} (plain : ∀ fact ∈ facts, fact.entryIndex? = none) {one other final : Catalog}
    {a : Unit} (agrees : Agrees one other) (ran : learnAll facts one = .ok a final) : Agrees final other := by
  induction facts generalizing one with
  | nil =>
      cases ran
      exact agrees
  | cons fact rest ih =>
      rw [learn_all_cons] at ran
      obtain ⟨_, middle, step, ran⟩ := bind_ok_inv ran
      exact ih (fun one member => plain one (.tail _ member)) (plain_agrees (plain fact (.head _)) agrees step) ran

theorem learnt_again {facts : List Fact} (plain : ∀ fact ∈ facts, fact.entryIndex? = none) {one final : Catalog} {a : Unit}
    (ran : learnAll facts one = .ok a final) {fact : Fact} (member : fact ∈ facts) {other : Catalog} (agrees : Agrees one other) :
    ∃ next, learn fact other = .ok () next ∧ Agrees one next := by
  have own := plain fact member
  obtain ⟨before, after, rfl⟩ := List.append_of_mem member
  rw [learn_all_append] at ran
  obtain ⟨_, middle, ranBefore, ran⟩ := bind_ok_inv ran
  rw [learn_all_cons] at ran
  obtain ⟨_, next, step, _⟩ := bind_ok_inv ran
  -- A fact that states no constant changes no tag, and only tags are checked.
  have reached : ∀ {start : Catalog}, Agrees one start → Agrees middle start := fun started =>
    plain_all_agree (fun fact inside => plain fact (List.mem_append_left _ inside)) started ranBefore
  obtain ⟨_, there, same, still⟩ := learn_follows fact middle other _ next (reached agrees) step
  have stays : Agrees next one := plain_agrees own (reached fun _ => rfl) step
  exact ⟨there, same, fun place => (stays place).symm.trans (still place)⟩

theorem learnt_selection {facts others : List Fact} (plain : ∀ fact ∈ facts, fact.entryIndex? = none)
    (inside : ∀ fact ∈ others, fact ∈ facts) {one final : Catalog} {a : Unit} (ran : learnAll facts one = .ok a final)
    {other : Catalog} (agrees : Agrees one other) : ∃ last, learnAll others other = .ok () last ∧ Agrees one last := by
  induction others generalizing other with
  | nil => exact ⟨other, rfl, agrees⟩
  | cons fact rest ih =>
      obtain ⟨next, step, still⟩ := learnt_again plain ran (inside fact (.head _)) agrees
      obtain ⟨last, ranRest, ended⟩ := ih (fun one member => inside one (.tail _ member)) still
      exact ⟨last, by rw [learn_all_cons, bind_ok step, ranRest], ended⟩

end Catalog

inductive Thinned : List Fact → List Fact → Prop where
  | nil : Thinned [] []
  | keep (fact : Fact) {facts fewer : List Fact} (rest : Thinned facts fewer) : Thinned (fact :: facts) (fact :: fewer)
  | move (index : Nat) (tag : Tag) (offset other : Nat) {facts fewer : List Fact} (rest : Thinned facts fewer) :
      Thinned (.entry index tag offset :: facts) (.entry index tag other :: fewer)
  | drop (fact : Fact) (plain : fact.entryIndex? = none) {facts fewer : List Fact} (rest : Thinned facts fewer) :
      Thinned (fact :: facts) fewer

namespace Thinned

theorem refl (facts : List Fact) : Thinned facts facts := by
  induction facts with
  | nil => exact .nil
  | cons fact rest ih => exact .keep fact ih

theorem append {facts fewer others less : List Fact} (first : Thinned facts fewer) (second : Thinned others less) :
    Thinned (facts ++ others) (fewer ++ less) := by
  induction first with
  | nil => exact second
  | keep fact _ ih => exact .keep fact ih
  | move index tag offset other _ ih => exact .move index tag offset other ih
  | drop fact plain _ ih => exact .drop fact plain ih

theorem filter (kept : Fact → Bool) (facts : List Fact) (plain : ∀ fact ∈ facts, fact.entryIndex? = none) :
    Thinned facts (facts.filter kept) := by
  induction facts with
  | nil => exact .nil
  | cons fact rest ih =>
      have later := ih fun one member => plain one (.tail _ member)
      by_cases stays : kept fact
      · rw [List.filter_cons_of_pos stays]
        exact .keep fact later
      · rw [List.filter_cons_of_neg stays]
        exact .drop fact (plain fact (.head _)) later

theorem learnt {facts fewer : List Fact} (thinned : Thinned facts fewer) {one other final : Catalog} {a : Unit}
    (agrees : Catalog.Agrees one other) (ran : Catalog.learnAll facts one = .ok a final) :
    ∃ last, Catalog.learnAll fewer other = .ok () last := by
  induction thinned generalizing one other with
  | nil => exact ⟨other, rfl⟩
  | keep fact _ ih =>
      rw [Catalog.learn_all_cons] at ran ⊢
      obtain ⟨_, middle, step, ran⟩ := bind_ok_inv ran
      obtain ⟨_, there, same, still⟩ := Catalog.learn_follows fact one other _ middle agrees step
      obtain ⟨last, rest⟩ := ih still ran
      exact ⟨last, by rw [bind_ok same, rest]⟩
  | move index tag offset moved _ ih =>
      rw [Catalog.learn_all_cons] at ran ⊢
      obtain ⟨_, middle, step, ran⟩ := bind_ok_inv ran
      obtain ⟨_, there, same, still⟩ := Catalog.entry_follows index tag offset moved one other _ middle agrees step
      obtain ⟨last, rest⟩ := ih still ran
      exact ⟨last, by rw [bind_ok same, rest]⟩
  | drop fact plain _ ih =>
      rw [Catalog.learn_all_cons] at ran
      obtain ⟨_, middle, step, ran⟩ := bind_ok_inv ran
      exact ih (Catalog.plain_agrees plain agrees step) ran

end Thinned

theorem Catalog.learnt_replaced {earlier facts others later : List Fact} (plain : ∀ fact ∈ facts, fact.entryIndex? = none)
    (inside : ∀ fact ∈ others, fact ∈ facts) {start final : Catalog} {a : Unit}
    (ran : learnAll (earlier ++ facts ++ later) start = .ok a final) :
    ∃ last, learnAll (earlier ++ others ++ later) start = .ok () last := by
  rw [List.append_assoc, learn_all_append] at ran
  obtain ⟨_, reached, ranEarlier, ran⟩ := bind_ok_inv ran
  rw [learn_all_append] at ran
  obtain ⟨_, passed, ranFacts, ranLater⟩ := bind_ok_inv ran
  obtain ⟨there, ranOthers, agrees⟩ := learnt_selection plain inside ranFacts fun _ => rfl
  -- Both ways lead to catalogs with the same tags, which is all that later facts look at.
  have stays : Agrees passed reached := plain_all_agree plain (fun _ => rfl) ranFacts
  obtain ⟨last, ranLast⟩ := (Thinned.refl later).learnt (fun place => (stays place).trans (agrees place)) ranLater
  exact ⟨last, by rw [List.append_assoc, learn_all_append, bind_ok ranEarlier, learn_all_append, bind_ok ranOthers, ranLast]⟩

end Relabel
