import Mathlib.Data.List.Basic
import Relabel.Hierarchy.Search

set_option autoImplicit false

namespace Relabel

structure Ancestry where
  settings : Settings
  shape : Name → Shape
  lineage : Lineage

namespace Ancestry

variable (a : Ancestry)

def above (c : Name) : List Name := if a.settings.isPlatform c then [] else (a.shape c).ancestors

def seeds : List Name := a.above a.lineage.superName ++ a.lineage.interfaces

inductive Reached : Nat → Name → Prop
  | seed (c : Name) : c ∈ a.seeds → Reached 0 c
  | step (n : Nat) (c d : Name) : Reached n c → d ∈ a.above c → Reached (n + 1) d

/-- What is reached in so many steps, in the order in which a queue would hold it: first what the
first of the generation before lists. A class that is reached in several ways stands there as often.
-/
def generation : Nat → List Name
  | 0 => a.seeds
  | n + 1 => (generation n).flatMap a.above

theorem reached_iff (n : Nat) (c : Name) : a.Reached n c ↔ c ∈ a.generation n := by
  refine ⟨fun reached => ?_, fun member => ?_⟩
  · induction reached with
    | seed c member => exact member
    | step n c d _ listed ih => exact List.mem_flatMap.mpr ⟨c, ih, listed⟩
  · induction n generalizing c with
    | zero => exact .seed c member
    | succ n ih =>
        obtain ⟨below, earlier, listed⟩ := List.mem_flatMap.mp member
        exact .step n below c (ih below earlier) listed

variable (name descriptor : Name)

def SuperDeclares : Prop :=
  a.settings.isPlatform a.lineage.superName = false ∧ (a.shape a.lineage.superName).declares name descriptor = true

structure Declaring (c : Name) : Prop where
  foreign : a.settings.isPlatform c = false
  other : c ≠ a.lineage.superName
  declared : (a.shape c).declares name descriptor = true

structure Nearest (n : Nat) (c : Name) : Prop where
  reached : a.Reached n c
  declaring : a.Declaring name descriptor c
  shallowest : ∀ m d, a.Reached m d → a.Declaring name descriptor d → n ≤ m
  first : ∃ before after, a.generation n = before ++ c :: after ∧ ∀ d ∈ before, ¬ a.Declaring name descriptor d

end Ancestry

namespace Settings

variable (settings : Settings)

def PassedOver (seen : List Name) (c : Name) : Prop := settings.isPlatform c = true ∨ c ∈ seen

def unseen : (seen queue : List Name) → List Name
  | _, [] => []
  | seen, c :: queue =>
      if settings.isPlatform c || seen.contains c then unseen seen queue else c :: unseen (c :: seen) queue

theorem passed_over_iff (seen : List Name) (c : Name) :
    (settings.isPlatform c || seen.contains c) = true ↔ settings.PassedOver seen c := by
  simp [PassedOver]

theorem passed_over_cons (seen : List Name) (c d : Name) :
    settings.PassedOver (c :: seen) d ↔ d = c ∨ settings.PassedOver seen d := by
  simp only [PassedOver, List.mem_cons]
  exact or_left_comm

theorem unseen_pass {seen : List Name} {c : Name} (passed : settings.PassedOver seen c) (queue : List Name) :
    settings.unseen seen (c :: queue) = settings.unseen seen queue :=
  if_pos ((settings.passed_over_iff seen c).mpr passed)

theorem unseen_ask {seen : List Name} {c : Name} (asked : ¬ settings.PassedOver seen c) (queue : List Name) :
    settings.unseen seen (c :: queue) = c :: settings.unseen (c :: seen) queue :=
  if_neg fun passed => asked ((settings.passed_over_iff seen c).mp passed)

theorem mem_unseen (seen queue : List Name) (c : Name) :
    c ∈ settings.unseen seen queue ↔ c ∈ queue ∧ ¬ settings.PassedOver seen c := by
  induction queue generalizing seen with
  | nil => simp [unseen]
  | cons d queue ih =>
      by_cases passed : settings.PassedOver seen d
      · rw [settings.unseen_pass passed, ih, List.mem_cons]
        grind
      · rw [settings.unseen_ask passed, List.mem_cons, List.mem_cons, ih, passed_over_cons]
        grind

theorem unseen_eq_nil_iff (seen queue : List Name) :
    settings.unseen seen queue = [] ↔ ∀ c ∈ queue, settings.PassedOver seen c := by
  simp only [List.eq_nil_iff_forall_not_mem, mem_unseen, not_and, Classical.not_not]

theorem unseen_congr {seen others : List Name}
    (same : ∀ c, settings.PassedOver seen c ↔ settings.PassedOver others c) (queue : List Name) :
    settings.unseen seen queue = settings.unseen others queue := by
  induction queue generalizing seen others with
  | nil => rfl
  | cons d queue ih =>
      by_cases passed : settings.PassedOver seen d
      · rw [settings.unseen_pass passed, settings.unseen_pass ((same d).mp passed), ih same]
      · rw [settings.unseen_ask passed, settings.unseen_ask fun other => passed ((same d).mpr other)]
        congr 1
        apply ih
        intro c
        rw [passed_over_cons, passed_over_cons, same]

theorem unseen_append (seen front back : List Name) :
    settings.unseen seen (front ++ back) = settings.unseen seen front ++ settings.unseen (front ++ seen) back := by
  induction front generalizing seen with
  | nil => rfl
  | cons c front ih =>
      by_cases passed : settings.PassedOver seen c
      · rw [List.cons_append, settings.unseen_pass passed, settings.unseen_pass passed, ih]
        congr 1
        apply unseen_congr
        intro d
        simp only [PassedOver, List.mem_append, List.mem_cons] at passed ⊢
        grind
      · rw [List.cons_append, settings.unseen_ask passed, settings.unseen_ask passed, ih]
        congr 2
        apply unseen_congr
        intro d
        simp only [PassedOver, List.mem_append, List.mem_cons]
        grind

theorem unseen_append_same {seen one other : List Name} (same : settings.unseen seen one = settings.unseen seen other)
    (back : List Name) : settings.unseen seen (one ++ back) = settings.unseen seen (other ++ back) := by
  have members (c : Name) : c ∈ one ∧ ¬ settings.PassedOver seen c ↔ c ∈ other ∧ ¬ settings.PassedOver seen c := by
    rw [← mem_unseen, ← mem_unseen, same]
  rw [unseen_append, unseen_append, same]
  congr 1
  apply unseen_congr
  intro c
  have alike := members c
  simp only [PassedOver, List.mem_append] at alike ⊢
  grind

theorem unseen_carries {seen one other : List Name} (same : settings.unseen seen one = settings.unseen seen other) {c : Name}
    (member : c ∈ one) : settings.PassedOver seen c ∨ c ∈ other := by
  by_cases skipped : settings.PassedOver seen c
  · exact .inl skipped
  · have asked := (settings.mem_unseen seen one c).mpr ⟨member, skipped⟩
    rw [same] at asked
    exact .inr ((settings.mem_unseen seen other c).mp asked).1

theorem unseen_append_known {seen front more : List Name}
    (known : ∀ c ∈ more, settings.PassedOver seen c ∨ c ∈ front) :
    settings.unseen seen (front ++ more) = settings.unseen seen front := by
  have none_new : settings.unseen (front ++ seen) more = [] := by
    rw [unseen_eq_nil_iff]
    intro c member
    rcases known c member with (platform | earlier) | listed
    · exact .inl platform
    · exact .inr (List.mem_append_right _ earlier)
    · exact .inr (List.mem_append_left _ listed)
  rw [unseen_append, none_new, List.append_nil]

theorem unseen_cons_inv {seen queue others : List Name} {c : Name} (found : settings.unseen seen queue = c :: others) :
    ∃ before after, queue = before ++ c :: after ∧ (∀ d ∈ before, settings.PassedOver seen d) ∧
      ¬ settings.PassedOver seen c ∧ settings.unseen (c :: seen) after = others := by
  induction queue with
  | nil => cases found
  | cons d queue ih =>
      by_cases passed : settings.PassedOver seen d
      · rw [settings.unseen_pass passed] at found
        obtain ⟨before, after, rfl, all, asked, rest⟩ := ih found
        refine ⟨d :: before, after, rfl, ?_, asked, rest⟩
        intro e member
        cases member with
        | head => exact passed
        | tail _ member => exact all e member
      · rw [settings.unseen_ask passed] at found
        obtain ⟨rfl, rest⟩ := List.cons.inj found
        exact ⟨[], queue, rfl, by simp, passed, rest⟩

theorem unseen_head {seen queue others : List Name} {c : Name} (found : settings.unseen seen queue = c :: others) :
    ¬ settings.PassedOver seen c := by
  have member : c ∈ settings.unseen seen queue := by
    rw [found]
    exact .head _
  exact ((settings.mem_unseen seen queue c).mp member).2

theorem unseen_waiting {seen queue others : List Name} {c d : Name}
    (taken : settings.unseen seen queue = c :: settings.unseen (c :: seen) others)
    (known : settings.PassedOver seen d ∨ d ∈ queue) : settings.PassedOver (c :: seen) d ∨ d ∈ others := by
  by_cases gone : settings.PassedOver seen d
  · exact .inl ((settings.passed_over_cons seen c d).mpr (.inr gone))
  · have next := (settings.mem_unseen seen queue d).mpr ⟨known.resolve_left gone, gone⟩
    rw [taken, List.mem_cons, mem_unseen] at next
    rcases next with rfl | ⟨later, _⟩
    · exact .inl (.inr (.head _))
    · exact .inr later

theorem unseen_behind {seen before : List Name} {c : Name} (skipped : ∀ d ∈ before, settings.PassedOver seen d)
    (asked : ¬ settings.PassedOver seen c) (after : List Name) :
    settings.unseen seen (before ++ c :: after) = c :: settings.unseen (c :: seen) after := by
  induction before with
  | nil => exact settings.unseen_ask asked after
  | cons d before ih =>
      rw [List.cons_append, settings.unseen_pass (skipped d (.head _)), ih fun e member => skipped e (.tail _ member)]

theorem drop_passed (seen queue : List Name) :
    settings.unseen seen (queue.dropWhile fun c => settings.isPlatform c || seen.contains c) =
      settings.unseen seen queue := by
  induction queue with
  | nil => rfl
  | cons c queue ih =>
      rw [List.dropWhile_cons]
      split
      · rename_i passed
        rw [ih, settings.unseen_pass ((settings.passed_over_iff seen c).mp passed)]
      · rfl

theorem dropped_unseen {seen queue rest : List Name} {c : Name}
    (dropped : (queue.dropWhile fun c => settings.isPlatform c || seen.contains c) = c :: rest) :
    settings.unseen seen queue = c :: settings.unseen (c :: seen) rest := by
  have asked : ¬ settings.PassedOver seen c := by
    have stopped := List.head?_dropWhile_not (fun c => settings.isPlatform c || seen.contains c) queue
    rw [dropped] at stopped
    rw [← passed_over_iff]
    simpa using stopped
  rw [← drop_passed, dropped, settings.unseen_ask asked]

end Settings

namespace Ancestry

variable {a : Ancestry} {name descriptor : Name} {n : Nat} {passed rest queue seen : List Name}

/-- How far a search has come: it has passed the first generations and part of one more. Of what is
left of that one and of what the passed part lists, the queue holds the same as if nothing had ever
been passed over. -/
structure Searched (a : Ancestry) (name descriptor : Name) (n : Nat) (passed rest queue seen : List Name) : Prop where
  cut : a.generation n = passed ++ rest
  earlier : ∀ m, m < n → ∀ c ∈ a.generation m, a.settings.PassedOver seen c
  here : ∀ c ∈ passed, a.settings.PassedOver seen c
  queued : a.settings.unseen seen queue = a.settings.unseen seen (rest ++ passed.flatMap a.above)
  super_seen : a.lineage.superName ∈ seen
  undeclared : ∀ c ∈ seen, ¬ a.Declaring name descriptor c
  listed : ∀ c ∈ seen, ∀ d ∈ a.above c, a.settings.PassedOver seen d ∨ d ∈ queue

namespace Searched

theorem start : a.Searched name descriptor 0 [] a.seeds a.seeds [a.lineage.superName] where
  cut := rfl
  earlier m before := absurd before (Nat.not_lt_zero m)
  here _ none := nomatch none
  queued := by rw [List.flatMap_nil, List.append_nil]
  super_seen := .head _
  undeclared c member declaring := declaring.other (List.mem_singleton.mp member)
  listed c member d above := by
    rw [List.mem_singleton.mp member] at above
    exact .inr (List.mem_append_left _ above)

theorem passed_undeclared (searched : a.Searched name descriptor n passed rest queue seen) {c : Name}
    (gone : a.settings.PassedOver seen c) : ¬ a.Declaring name descriptor c := by
  rcases gone with platform | member
  · intro declaring
    rw [declaring.foreign] at platform
    cases platform
  · exact searched.undeclared c member

theorem above_passed (searched : a.Searched name descriptor n passed rest queue seen) {c d : Name}
    (gone : a.settings.PassedOver seen c) (above : d ∈ a.above c) : a.settings.PassedOver seen d ∨ d ∈ queue := by
  rcases gone with platform | member
  · rw [Ancestry.above, if_pos platform] at above
    cases above
  · exact searched.listed c member d above

theorem next (searched : a.Searched name descriptor n passed rest queue seen)
    (gone : ∀ c ∈ rest, a.settings.PassedOver seen c) :
    a.Searched name descriptor (n + 1) [] (a.generation (n + 1)) queue seen where
  cut := rfl
  earlier m before c member := by
    rcases Nat.lt_succ_iff_lt_or_eq.mp before with less | rfl
    · exact searched.earlier m less c member
    · rw [searched.cut, List.mem_append] at member
      exact member.elim (searched.here c) (gone c)
  here _ none := nomatch none
  queued := by
    have only : a.settings.unseen seen queue = a.settings.unseen seen (passed.flatMap a.above) := by
      rw [searched.queued, Settings.unseen_append, (a.settings.unseen_eq_nil_iff seen rest).mpr gone, List.nil_append]
      apply Settings.unseen_congr
      intro d
      simp only [Settings.PassedOver, List.mem_append] at gone ⊢
      grind
    rw [generation, searched.cut, List.flatMap_append, List.flatMap_nil, List.append_nil, only,
      a.settings.unseen_append_known ?_]
    intro d member
    obtain ⟨c, inside, above⟩ := List.mem_flatMap.mp member
    exact (searched.above_passed (gone c inside) above).elim .inl (a.settings.unseen_carries only)
  super_seen := searched.super_seen
  undeclared := searched.undeclared
  listed := searched.listed

theorem locate (searched : a.Searched name descriptor n passed rest queue seen) {c : Name} {others : List Name}
    (found : a.settings.unseen seen queue = c :: others) :
    ∃ m before between after, a.Searched name descriptor m before (between ++ c :: after) queue seen ∧
      ∀ d ∈ between, a.settings.PassedOver seen d := by
  have whole := searched.queued.symm.trans found
  -- If all that is left of this generation was passed over, the class stands in the next one.
  by_cases gone : ∀ d ∈ rest, a.settings.PassedOver seen d
  · have again := searched.next gone
    have listed := again.queued.symm.trans found
    rw [List.flatMap_nil, List.append_nil] at listed
    obtain ⟨between, after, split, skipped, _⟩ := a.settings.unseen_cons_inv listed
    exact ⟨n + 1, [], between, after, split ▸ again, skipped⟩
  · cases first : a.settings.unseen seen rest with
    | nil => exact absurd ((a.settings.unseen_eq_nil_iff seen rest).mp first) gone
    | cons head tail =>
        obtain ⟨between, after, rfl, skipped, _⟩ := a.settings.unseen_cons_inv first
        rw [Settings.unseen_append, first] at whole
        obtain ⟨rfl, _⟩ := List.cons.inj whole
        exact ⟨n, passed, between, after, searched, skipped⟩

variable {c : Name} {between after others : List Name}

theorem undeclared_asked (searched : a.Searched name descriptor n passed (between ++ c :: after) queue seen)
    (skipped : ∀ d ∈ between, a.settings.PassedOver seen d)
    (taken : a.settings.unseen seen queue = c :: a.settings.unseen (c :: seen) others)
    (undeclared : (a.shape c).declares name descriptor = false) :
    a.Searched name descriptor n (passed ++ between ++ [c]) after (others ++ (a.shape c).ancestors) (c :: seen) := by
  have asked := a.settings.unseen_head taken
  have listing : a.above c = (a.shape c).ancestors := if_neg fun platform => asked (.inl platform)
  have kept (d : Name) (gone : a.settings.PassedOver seen d) : a.settings.PassedOver (c :: seen) d :=
    (a.settings.passed_over_cons seen c d).mpr (.inr gone)
  have left : a.settings.unseen (c :: seen) others = a.settings.unseen (c :: seen) (after ++ passed.flatMap a.above) := by
    have whole := taken.symm.trans searched.queued
    rw [List.append_assoc, List.cons_append, a.settings.unseen_behind skipped asked] at whole
    exact (List.cons.inj whole).2
  refine ⟨?_, fun m before d member => kept d (searched.earlier m before d member), ?_, ?_,
    .tail _ searched.super_seen, ?_, ?_⟩
  · rw [searched.cut]
    simp
  · intro d member
    simp only [List.mem_append, List.mem_singleton] at member
    rcases member with (gone | gone) | rfl
    · exact kept d (searched.here d gone)
    · exact kept d (skipped d gone)
    · exact .inr (.head _)
  · -- The classes between add nothing: what they list is in the queue or was asked for.
    have nothing_new : a.settings.unseen (c :: seen) (after ++ passed.flatMap a.above ++ between.flatMap a.above) =
        a.settings.unseen (c :: seen) (after ++ passed.flatMap a.above) := by
      apply Settings.unseen_append_known
      intro d member
      obtain ⟨e, inside, above⟩ := List.mem_flatMap.mp member
      have known := a.settings.unseen_waiting taken (searched.above_passed (skipped e inside) above)
      exact known.elim .inl (a.settings.unseen_carries left)
    have whole := a.settings.unseen_append_same (left.trans nothing_new.symm) (a.shape c).ancestors
    simpa [listing] using whole
  · intro d member
    rcases List.mem_cons.mp member with rfl | member
    · intro declaring
      rw [declaring.declared] at undeclared
      cases undeclared
    · exact searched.undeclared d member
  · intro e member d above
    rcases List.mem_cons.mp member with rfl | member
    · exact .inr (List.mem_append_right _ (listing ▸ above))
    · exact (a.settings.unseen_waiting taken (searched.listed e member d above)).imp_right (List.mem_append_left _)

theorem declared_asked (searched : a.Searched name descriptor n passed (between ++ c :: after) queue seen)
    (skipped : ∀ d ∈ between, a.settings.PassedOver seen d) (asked : ¬ a.settings.PassedOver seen c)
    (declared : (a.shape c).declares name descriptor = true) :
    a.Nearest name descriptor n c where
  reached := by
    rw [reached_iff, searched.cut]
    simp
  declaring := {
    foreign := by simpa using fun platform => asked (.inl platform)
    other := by
      rintro rfl
      exact asked (.inr searched.super_seen)
    declared }
  shallowest m d reached declaring := by
    by_cases before : m < n
    · exact absurd declaring (searched.passed_undeclared (searched.earlier m before d ((a.reached_iff m d).mp reached)))
    · omega
  first := by
    refine ⟨passed ++ between, after, by rw [searched.cut, List.append_assoc], fun d member => ?_⟩
    exact searched.passed_undeclared ((List.mem_append.mp member).elim (searched.here d) (skipped d))

theorem exhausted (searched : a.Searched name descriptor n passed rest queue seen)
    (empty : a.settings.unseen seen queue = []) (m : Nat) (c : Name) (reached : a.Reached m c) :
    a.settings.PassedOver seen c := by
  -- By induction on the way to the class: what a passed class lists was passed over, or it would
  -- still be in the queue.
  induction reached with
  | seed c member =>
      cases n with
      | zero =>
          have left := (a.settings.unseen_eq_nil_iff _ _).mp (searched.queued.symm.trans empty)
          have place : c ∈ passed ++ rest := searched.cut ▸ member
          exact (List.mem_append.mp place).elim (searched.here c) fun inside => left c (List.mem_append_left _ inside)
      | succ n => exact searched.earlier 0 (Nat.succ_pos n) c member
  | step m c d _ above ih =>
      exact (searched.above_passed ih above).elim id ((a.settings.unseen_eq_nil_iff _ _).mp empty d)

end Searched

end Ancestry

end Relabel
