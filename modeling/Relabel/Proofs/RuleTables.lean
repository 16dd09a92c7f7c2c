import Relabel.Proofs.Steps
import Relabel.Rename.RuleSet

set_option autoImplicit false

namespace Relabel

namespace Rules

variable {κ μ ν γ : Type} [DecidableEq κ] [DecidableEq μ]

theorem rule_of_get {rules : Rules κ ν} {key : κ} {value : ν} (found : rules.get? key = some value) :
    (key, value) ∈ rules.entries := mem_of_lookup found

theorem get_of_rule {rules : Rules κ ν} {key : κ} {value : ν} (member : (key, value) ∈ rules.entries) :
    ∃ other, rules.get? key = some other := by
  cases found : rules.get? key with
  | some other => exact ⟨other, rfl⟩
  | none => exact absurd (List.lookup_eq_none_iff.mp found _ member) (by simp)

theorem lookup_other (entries : List (κ × ν)) {key other : κ} (apart : other ≠ key) :
    (entries.filter fun entry => !(entry.1 == key)).lookup other = entries.lookup other := by
  induction entries with
  | nil => rfl
  | cons entry rest ih =>
      obtain ⟨here, value⟩ := entry
      by_cases same : here = key
      · subst same
        have missed : (other == here) = false := by simp [apart]
        simp [List.lookup_cons, missed, ih]
      · simp [same, ih, List.lookup_cons]

theorem get_insert (rules : Rules κ ν) (key other : κ) (value : ν) :
    (rules.insert key value).get? other = if other = key then some value else rules.get? other := by
  by_cases same : other = key
  · simp [get?, insert, same]
  · have missed : (other == key) = false := by simp [same]
    simp [get?, insert, same, missed, List.lookup_cons, lookup_other]

theorem get_insert_new (rules : Rules κ ν) (key other : κ) (value : ν) :
    (rules.insertNew key value).get? other = (rules.get? other).or (if other = key then some value else none) := by
  cases held : rules.get? key with
  | some old => by_cases same : other = key <;> simp [insertNew, contains, held, same]
  | none =>
      by_cases same : other = key
      · subst same
        rw [held]
        simp [insertNew, contains, held]
        simp [get?]
      · have missed : (other == key) = false := by simp [same]
        simp [insertNew, contains, held, same]
        simp [get?, List.lookup_cons, missed]

theorem get_put_all (key : γ → κ) (value : γ → ν) (items : List γ) (start : Rules κ ν) (wanted : κ) :
    (items.foldl (fun rules item => rules.insert (key item) (value item)) start).get? wanted =
      ((items.reverse.find? (key · = wanted)).map value).or (start.get? wanted) := by
  induction items generalizing start with
  | nil => simp
  | cons item rest ih =>
      rw [List.foldl_cons, ih, get_insert, List.reverse_cons, List.find?_append]
      -- A later rule with the key hides this one.
      cases later : rest.reverse.find? (key · = wanted) with
      | some found => simp
      | none =>
          by_cases here : key item = wanted
          · simp [here]
          · simp [here, Ne.symm here]

theorem get_fill_all (skip : γ → Bool) (key : γ → κ) (value : γ → ν) (items : List γ) (start : Rules κ ν) (wanted : κ) :
    (items.foldl (fun rules item => if skip item then rules else rules.insertNew (key item) (value item)) start).get? wanted =
      (start.get? wanted).or ((items.find? fun item => !skip item && key item = wanted).map value) := by
  induction items generalizing start with
  | nil => simp
  | cons item rest ih =>
      rw [List.foldl_cons, ih]
      by_cases passed : skip item = true
      · simp [passed]
      · by_cases here : key item = wanted
        · simp [passed, here, get_insert_new]
        · simp [passed, here, get_insert_new, Ne.symm here]

theorem find_sole (test : γ → Bool) (value : γ → ν) {items : List γ} {item : γ} (member : item ∈ items) (passes : test item)
    (sole : ∀ other ∈ items, test other → value other = value item) : (items.find? test).map value = some (value item) := by
  cases found : items.find? test with
  | none => exact absurd passes (List.find?_eq_none.mp found item member)
  | some other =>
      have same := sole other (List.mem_of_find?_eq_some found) (List.find?_some found)
      simp [same]

def Consistent (rules : Rules κ ν) : Prop := ∀ rule ∈ rules.entries, rules.get? rule.1 = some rule.2

instance [DecidableEq ν] (rules : Rules κ ν) : Decidable rules.Consistent :=
  inferInstanceAs (Decidable (∀ rule ∈ rules.entries, _))

def keys (rules : Rules κ ν) : List κ := rules.entries.map (·.1)

theorem consistent_empty : ({} : Rules κ ν).Consistent := fun _ none => nomatch none

theorem consistent_insert {rules : Rules κ ν} (consistent : rules.Consistent) (key : κ) (value : ν) :
    (rules.insert key value).Consistent := by
  rintro ⟨other, held⟩ member
  rw [get_insert]
  have either : (other = key ∧ held = value) ∨ (other, held) ∈ rules.entries ∧ other ≠ key := by
    simpa [insert] using member
  rcases either with ⟨same, rfl⟩ | ⟨older, apart⟩
  · exact if_pos same
  · rw [if_neg apart]
    exact consistent _ older

theorem consistent_insert_new {rules : Rules κ ν} (consistent : rules.Consistent) (key : κ) (value : ν) :
    (rules.insertNew key value).Consistent := by
  rintro ⟨other, held⟩ member
  rw [get_insert_new]
  cases known : rules.contains key with
  | true =>
      rw [insertNew, if_pos known] at member
      rw [consistent _ member]
      rfl
  | false =>
      have either : (other = key ∧ held = value) ∨ (other, held) ∈ rules.entries := by
        simpa [insertNew, known] using member
      rcases either with ⟨rfl, rfl⟩ | older
      · have free : rules.get? other = none := by simpa [contains] using known
        rw [free, Option.none_or, if_pos rfl]
      · rw [consistent _ older]
        rfl

def Keyed (holds : κ → Prop) (rules : Rules κ ν) : Prop := ∀ rule ∈ rules.entries, holds rule.1

instance (holds : κ → Prop) [DecidablePred holds] (rules : Rules κ ν) : Decidable (rules.Keyed holds) :=
  inferInstanceAs (Decidable (∀ rule ∈ rules.entries, _))

omit [DecidableEq κ] in
theorem keyed_empty (holds : κ → Prop) : ({} : Rules κ ν).Keyed holds := fun _ none => nomatch none

theorem keyed_insert {rules : Rules κ ν} {holds : κ → Prop} (keyed : rules.Keyed holds) {key : κ} (value : ν)
    (new : holds key) : (rules.insert key value).Keyed holds := by
  intro rule member
  have either : rule = (key, value) ∨ rule ∈ rules.entries ∧ rule.1 ≠ key := by simpa [insert] using member
  rcases either with rfl | ⟨older, _⟩
  · exact new
  · exact keyed rule older

theorem keyed_insert_new {rules : Rules κ ν} {holds : κ → Prop} (keyed : rules.Keyed holds) {key : κ} (value : ν)
    (new : holds key) : (rules.insertNew key value).Keyed holds := by
  intro rule member
  by_cases known : rules.contains key
  · rw [insertNew, if_pos known] at member
    exact keyed rule member
  · rw [insertNew, if_neg known] at member
    rcases List.mem_cons.mp member with rfl | older
    · exact new
    · exact keyed rule older

theorem find_consistent {rules : Rules κ ν} (consistent : rules.Consistent) {test : κ × ν → Bool} {key : κ}
    (only : ∀ rule ∈ rules.entries, test rule ↔ rule.1 = key) :
    (rules.toList.find? test).map (·.2) = rules.get? key := by
  cases held : rules.get? key with
  | some value =>
      have here := rule_of_get held
      refine find_sole test (·.2) (List.mem_reverse.mpr here) ((only _ here).mpr rfl) fun rule member passes => ?_
      have there := consistent rule (List.mem_reverse.mp member)
      rw [(only rule (List.mem_reverse.mp member)).mp passes, held] at there
      exact (Option.some.inj there).symm
  | none =>
      have fails : ∀ rule ∈ rules.toList, ¬ test rule = true := by
        intro rule member passes
        have here := List.mem_reverse.mp member
        obtain ⟨other, there⟩ := get_of_rule here
        rw [(only rule here).mp passes, held] at there
        cases there
      rw [List.find?_eq_none.mpr fails, Option.map_none]

section Joined

variable (ruled others : Rules κ ν) (front : κ × ν → μ) (value : κ → ν) (known : κ → Bool) (back : κ → μ)

def joined : Rules μ ν :=
  others.toList.foldl (fun rules rule => if known rule.1 then rules else rules.insertNew (back rule.1) rule.2)
    (ruled.toList.foldl (fun rules rule => rules.insert (front rule) (value rule.1)) {})

omit [DecidableEq κ] in
theorem get_joined (key : μ) :
    (joined ruled others front value known back).get? key =
      ((ruled.entries.find? (front · = key)).map (value ·.1)).or
        ((others.toList.find? fun rule => !known rule.1 && back rule.1 = key).map (·.2)) := by
  rw [joined, get_fill_all, get_put_all, toList, List.reverse_reverse]
  simp [get?]

theorem get_joined_ruled {member : κ} {target : ν} (held : ruled.get? member = some target)
    (alone : ∀ rule ∈ ruled.entries, front rule = front (member, target) → rule.1 = member) :
    (joined ruled others front value known back).get? (front (member, target)) = some (value member) := by
  have sole := find_sole (front · = front (member, target)) (value ·.1) (rule_of_get held) (by simp)
    fun rule here same => by rw [alone rule here (by simpa using same)]
  rw [get_joined, sole, Option.some_or]

theorem get_joined_other (member : κ) (free : ∀ rule ∈ ruled.entries, front rule ≠ back member)
    (unknown : known member = false) (consistent : others.Consistent)
    (alone : ∀ one ∈ others.keys, known one = false → back one = back member → one = member) :
    (joined ruled others front value known back).get? (back member) = others.get? member := by
  have none : ruled.entries.find? (front · = back member) = none :=
    List.find?_eq_none.mpr fun rule here => by simp [free rule here]
  rw [get_joined, none, Option.map_none, Option.none_or]
  apply find_consistent consistent
  intro rule here
  constructor
  · intro passes
    obtain ⟨new, same⟩ : known rule.1 = false ∧ back rule.1 = back member := by simpa using passes
    exact alone _ (List.mem_map_of_mem here) new same
  · intro same
    simp [same, unknown]

omit [DecidableEq κ] in
theorem keyed_joined {holds : μ → Prop} (fronts : ∀ rule, holds (front rule)) (backs : ∀ key, holds (back key)) :
    (joined ruled others front value known back).Keyed holds := by
  refine List.foldlRecOn _ _ ?_ fun rules keyed rule _ => ?_
  · exact List.foldlRecOn _ _ (keyed_empty holds) fun rules keyed rule _ => keyed_insert keyed _ (fronts rule)
  · by_cases skipped : known rule.1
    · rwa [if_pos skipped]
    · rw [if_neg skipped]
      exact keyed_insert_new keyed _ (backs rule.1)

omit [DecidableEq κ] in
theorem consistent_joined : (joined ruled others front value known back).Consistent := by
  refine List.foldlRecOn _ _ ?_ fun rules consistent rule _ => ?_
  · exact List.foldlRecOn _ _ consistent_empty fun rules consistent rule _ => consistent_insert consistent _ _
  · by_cases skipped : known rule.1
    · rwa [if_pos skipped]
    · rw [if_neg skipped]
      exact consistent_insert_new consistent _ _

end Joined

end Rules

namespace FieldKeying

variable (keying : FieldKeying) (member : MemberKey)

theorem key_owner : (keying.key member).owner = member.owner := by
  cases keying <;> rfl

theorem key_name : (keying.key member).name = member.name := by
  cases keying <;> rfl

theorem key_key : keying.key (keying.key member) = keying.key member := by
  cases keying <;> rfl

theorem key_rekey (rules : RuleSet) (name : Name) :
    keying.key (rules.rekey member name) = rules.rekey (keying.key member) name := by
  cases keying <;> rfl

end FieldKeying

namespace RuleSet

structure WellFormed (rules : RuleSet) : Prop where
  classes : rules.classes.Consistent
  fields : rules.fields.Consistent
  methods : rules.methods.Consistent
  modules : rules.modules.Consistent
  packages : rules.packages.Consistent
  keyed : rules.fields.Keyed fun member => rules.fieldKeying.key member = member

section Joins

variable (rules other : RuleSet)

theorem join_names_eq (ruled others : Rules Name Name) (next rename : Name → Name) :
    joinNames ruled others next rename = .joined ruled others (·.2) next (fun _ => false) rename := rfl

theorem join_fields_eq :
    rules.joinFields other =
      .joined rules.fields other.fields (fun rule => rules.fieldKeying.key (rules.rekey (other.typed rule.1) rule.2))
        other.fieldTarget (fun member => rules.fields.contains (rules.fieldKeying.key member))
        (fun member => rules.fieldKeying.key (rules.rekey member member.name)) := rfl

theorem join_methods_eq :
    rules.joinMethods other =
      .joined rules.methods other.methods (fun rule => rules.rekey rule.1 rule.2) other.methodTarget rules.methods.contains
        (fun member => rules.rekey member member.name) := rfl

theorem consistent_join_names (ruled others : Rules Name Name) (next rename : Name → Name) :
    (joinNames ruled others next rename).Consistent := by
  rw [join_names_eq]
  exact Rules.consistent_joined _ _ _ _ _ _

theorem compose_well_formed : (rules.compose other).WellFormed where
  classes := consistent_join_names _ _ _ _
  fields := by
    change (rules.joinFields other).Consistent
    rw [join_fields_eq]
    exact Rules.consistent_joined _ _ _ _ _ _
  methods := by
    change (rules.joinMethods other).Consistent
    rw [join_methods_eq]
    exact Rules.consistent_joined _ _ _ _ _ _
  modules := consistent_join_names _ _ _ _
  packages := consistent_join_names _ _ _ _
  keyed := by
    change (rules.joinFields other).Keyed _
    rw [join_fields_eq]
    exact Rules.keyed_joined _ _ _ _ _ _ (fun _ => FieldKeying.key_key _ _) fun _ => FieldKeying.key_key _ _

end Joins

namespace WellFormed

variable {rules : RuleSet} (wellFormed : rules.WellFormed)

include wellFormed

theorem put_field (member : MemberKey) (target : Name) : (rules.putField member target).WellFormed :=
  { wellFormed with
    fields := Rules.consistent_insert wellFormed.fields _ _
    keyed := Rules.keyed_insert wellFormed.keyed target (FieldKeying.key_key _ _) }

theorem with_field_keying (keying : FieldKeying) : (rules.withFieldKeying keying).WellFormed := by
  refine List.foldlRecOn _ _ ?_ fun rules before rule _ => before.put_field rule.1 rule.2
  exact { wellFormed with fields := Rules.consistent_empty, keyed := Rules.keyed_empty _ }

end WellFormed

end RuleSet

end Relabel
