import Mathlib.Data.List.Induction
import Mathlib.Data.List.TakeWhile
import Relabel.Proofs.NearestDeclaration
import Relabel.Proofs.SharedCache

set_option autoImplicit false

namespace Relabel

abbrev Inquiries := List (Name × Except Fault Shape)

namespace Inquiries

def names (log : Inquiries) : List Name := log.map Prod.fst

def listed : Name × Except Fault Shape → List Name
  | (_, .ok shape) => shape.ancestors
  | (_, .error _) => []

def Silent (name descriptor : Name) : Name × Except Fault Shape → Prop
  | (_, .ok shape) => shape.declares name descriptor = false
  | (_, .error _) => False

theorem names_snoc (log : Inquiries) (c : Name) (answer : Except Fault Shape) :
    names (log ++ [(c, answer)]) = log.names ++ [c] := List.map_append

end Inquiries

open Inquiries (Silent listed)

theorem Settings.passed_over_snoc (settings : Settings) (seen : List Name) (c d : Name) :
    settings.PassedOver (seen ++ [c]) d ↔ d = c ∨ settings.PassedOver seen d := by
  simp only [PassedOver, List.mem_append, List.mem_singleton]
  grind

theorem Settings.dropped_split {settings : Settings} {seen queue rest : List Name} {c : Name}
    (dropped : (queue.dropWhile fun c => settings.isPlatform c || seen.contains c) = c :: rest) :
    ∃ before, queue = before ++ c :: rest ∧ ∀ d ∈ before, settings.PassedOver seen d := by
  refine ⟨queue.takeWhile fun c => settings.isPlatform c || seen.contains c, ?_, fun d member => ?_⟩
  · rw [← dropped, List.takeWhile_append_dropWhile]
  · have skipped := List.mem_takeWhile_imp member
    exact (settings.passed_over_iff seen d).mp skipped

namespace Lineage

variable (lineage : Lineage) (settings : Settings)

def direct : Nat := if settings.isPlatform lineage.superName then 0 else 1

def queued (log : Inquiries) : List Name :=
  (log.take (lineage.direct settings)).flatMap listed ++
    (lineage.interfaces ++ (log.drop (lineage.direct settings)).flatMap listed)

def next? (log : Inquiries) : Option Name :=
  if log.isEmpty && !settings.isPlatform lineage.superName then some lineage.superName
  else (lineage.queued settings log).find? fun c => !(settings.isPlatform c || log.names.contains c)

variable {lineage settings} {log : Inquiries} {c : Name}

theorem next_fresh (next : lineage.next? settings log = some c) : ¬ settings.PassedOver log.names c := by
  rw [next?] at next
  split at next
  · rename_i first
    cases next
    simp only [Bool.and_eq_true, List.isEmpty_iff, Bool.not_eq_true'] at first
    simp [Settings.PassedOver, first, Inquiries.names]
  · have free := List.find?_some next
    rw [← settings.passed_over_iff]
    simpa using free

theorem next_super (lineage : Lineage) (foreign : settings.isPlatform lineage.superName = false) :
    lineage.next? settings [] = some lineage.superName := by
  simp [next?, foreign]

def Started (lineage : Lineage) (settings : Settings) (log : Inquiries) : Prop :=
  settings.isPlatform lineage.superName = true ∨ log ≠ []

theorem next_started (started : lineage.Started settings log) :
    lineage.next? settings log =
      (lineage.queued settings log).find? fun c => !(settings.isPlatform c || log.names.contains c) := by
  rw [next?, if_neg]
  rcases started with platform | some <;> simp_all

theorem queued_snoc (started : lineage.Started settings log) (entry : Name × Except Fault Shape) :
    lineage.queued settings (log ++ [entry]) = lineage.queued settings log ++ listed entry := by
  have enough : lineage.direct settings ≤ log.length := by
    rcases started with platform | some
    · simp [direct, platform]
    · have positive := List.length_pos_iff.mpr some
      rw [direct]
      split <;> omega
  rw [queued, queued, List.take_append_of_le_length enough, List.drop_append_of_le_length enough]
  simp

theorem queued_super (lineage : Lineage) (foreign : settings.isPlatform lineage.superName = false) (shape : Shape) :
    lineage.queued settings [(lineage.superName, .ok shape)] = shape.ancestors ++ lineage.interfaces := by
  simp [queued, direct, foreign, listed]

end Lineage

/-- Each request is for the class whose turn it is, and none follows an answer that ends the search.
-/
structure Inquiries.InTurn (lineage : Lineage) (settings : Settings) (name descriptor : Name) (log : Inquiries) :
    Prop where
  next : ∀ before c answer after, log = before ++ (c, answer) :: after → lineage.next? settings before = some c
  last : ∀ before entry after, log = before ++ entry :: after → ¬ Silent name descriptor entry → after = []

namespace Inquiries.InTurn

variable {lineage : Lineage} {settings : Settings} {name descriptor : Name} {log : Inquiries}

theorem none : InTurn lineage settings name descriptor [] := by
  constructor <;> simp

theorem snoc (turn : InTurn lineage settings name descriptor log)
    (silent : ∀ entry ∈ log, Silent name descriptor entry) {c : Name}
    (next : lineage.next? settings log = some c) (answer : Except Fault Shape) :
    InTurn lineage settings name descriptor (log ++ [(c, answer)]) := by
  constructor
  · intro before d found after cut
    rcases snoc_cut cut with ⟨_, rfl, same⟩ | ⟨rest, _, split⟩
    · cases same
      exact next
    · exact turn.next before d found rest split
  · intro before entry after cut ended
    rcases snoc_cut cut with ⟨empty, _⟩ | ⟨rest, _, split⟩
    · exact empty
    · exact absurd (silent entry (by rw [split]; simp)) ended

theorem of_super (foreign : settings.isPlatform lineage.superName = false) (answer : Except Fault Shape) :
    InTurn lineage settings name descriptor [(lineage.superName, answer)] :=
  none.snoc (by simp) (lineage.next_super foreign) answer

theorem earlier {last : Name × Except Fault Shape} (turn : InTurn lineage settings name descriptor (log ++ [last])) :
    InTurn lineage settings name descriptor log := by
  constructor
  · intro before c answer after cut
    exact turn.next before c answer (after ++ [last]) (by rw [cut]; simp)
  · intro before entry after cut ended
    have nothing := turn.last before entry (after ++ [last]) (by rw [cut]; simp) ended
    simp at nothing

variable (turn : InTurn lineage settings name descriptor log)

include turn

theorem distinct : log.names.Nodup := by
  induction log using List.reverseRecOn with
  | nil => exact .nil
  | append_singleton log last ih =>
      obtain ⟨c, answer⟩ := last
      have fresh := Lineage.next_fresh (turn.next log c answer [] rfl)
      rw [names_snoc, List.nodup_append]
      refine ⟨ih turn.earlier, by simp, fun d member e same => ?_⟩
      rw [List.mem_singleton.mp same]
      rintro rfl
      exact fresh (.inr member)

theorem foreign (c : Name) (member : c ∈ log.names) : settings.isPlatform c = false := by
  obtain ⟨⟨_, answer⟩, inside, rfl⟩ := List.mem_map.mp member
  obtain ⟨before, after, cut⟩ := List.append_of_mem inside
  have fresh := Lineage.next_fresh (turn.next before _ answer after cut)
  exact Bool.eq_false_iff.mpr fun platform => fresh (.inl platform)

theorem last_of_mem {entry : Name × Except Fault Shape} (member : entry ∈ log) (ending : ¬ Silent name descriptor entry) :
    log.getLast? = some entry := by
  obtain ⟨before, after, cut⟩ := List.append_of_mem member
  rw [cut, turn.last before entry after cut ending]
  simp

theorem super_first (asked : log ≠ []) (foreign : settings.isPlatform lineage.superName = false) :
    log.names.head? = some lineage.superName := by
  obtain ⟨⟨c, answer⟩, rest, rfl⟩ := List.exists_cons_of_ne_nil asked
  have first := turn.next [] c answer rest rfl
  rw [Lineage.next?, foreign] at first
  exact first.symm

end Inquiries.InTurn

def Fault.reported (c : Name) : Fault → Fault
  | .oracle className source => .oracle className source
  | e => .oracle c.display e

inductive Inquiries.Settles (lineage : Lineage) (settings : Settings) (name descriptor : Name) :
    Inquiries → Except Fault (Option Name) → Prop
  | failed (before : Inquiries) (c : Name) (e : Fault) :
      Settles lineage settings name descriptor (before ++ [(c, .error e)]) (.error (e.reported c))
  | found (before : Inquiries) (c : Name) (shape : Shape) (declared : shape.declares name descriptor = true) :
      Settles lineage settings name descriptor (before ++ [(c, .ok shape)]) (.ok (some c))
  | exhausted (log : Inquiries) (silent : ∀ entry ∈ log, Silent name descriptor entry)
      (none_left : lineage.next? settings log = none) : Settles lineage settings name descriptor log (.ok none)

namespace Inquiries.Settles

variable {lineage : Lineage} {settings : Settings} {name descriptor : Name} {log : Inquiries}
  {result : Except Fault (Option Name)} (settles : log.Settles lineage settings name descriptor result)

include settles

theorem asked (foreign : settings.isPlatform lineage.superName = false) : log ≠ [] := by
  cases settles with
  | failed before c e => simp
  | found before c shape declared => simp
  | exhausted _ silent none_left =>
      rintro rfl
      rw [lineage.next_super foreign] at none_left
      cases none_left

theorem of_failed {c : Name} {e : Fault} (last : log.getLast? = some (c, .error e)) : result = .error (e.reported c) := by
  cases settles with
  | failed before d f =>
      rw [List.getLast?_concat] at last
      cases last
      rfl
  | found before d shape declared =>
      rw [List.getLast?_concat] at last
      cases last
  | exhausted _ silent _ => exact (silent _ (List.mem_of_getLast? last)).elim

theorem of_found {c : Name} {shape : Shape} (last : log.getLast? = some (c, .ok shape))
    (declared : shape.declares name descriptor = true) : result = .ok (some c) := by
  cases settles with
  | failed before d f =>
      rw [List.getLast?_concat] at last
      cases last
  | found before d found _ =>
      rw [List.getLast?_concat] at last
      cases last
      rfl
  | exhausted _ silent _ => exact absurd declared (Bool.eq_false_iff.mp (silent _ (List.mem_of_getLast? last)))

theorem of_silent (silent : ∀ entry ∈ log, Silent name descriptor entry) :
    lineage.next? settings log = none ∧ result = .ok none := by
  cases settles with
  | failed before c e => exact (silent (c, .error e) (by simp)).elim
  | found before c shape declared =>
      exact absurd declared (Bool.eq_false_iff.mp (silent (c, .ok shape) (by simp)))
  | exhausted _ _ none_left => exact ⟨none_left, rfl⟩

end Inquiries.Settles

namespace Oracle

variable {σ : Type}

inductive Reachable (oracle : Oracle σ) (settings : Settings) (lineage : Lineage) (s : σ) : Name → Prop
  | superClass : Reachable oracle settings lineage s lineage.superName
  | interface (c : Name) (listed : c ∈ lineage.interfaces) : Reachable oracle settings lineage s c
  | above (asked : List Name) (c d : Name) (shape : Shape) (below : Reachable oracle settings lineage s c)
      (foreign : settings.isPlatform c = false) (answered : (c, .ok shape) ∈ (oracle.visits s asked).1)
      (listed : d ∈ shape.ancestors) : Reachable oracle settings lineage s d

def Spans (oracle : Oracle σ) (settings : Settings) (lineage : Lineage) (s : σ) : Prop :=
  ∃ names : List Name, names.length ≤ oracle.extent ∧
    ∀ c, oracle.Reachable settings lineage s c →
      settings.PassedOver (lineage.superName :: (lineage.interfaces ++ names)) c

theorem visits_snoc (oracle : Oracle σ) (s : σ) (asked : List Name) (c : Name) :
    oracle.visits s (asked ++ [c]) = oracle.visit (oracle.visits s asked) c := List.foldl_append

def ended {ε α : Type} (result : Except ε α) (s : σ) : EStateM.Result ε σ α :=
  match result with
  | .ok a => .ok a s
  | .error e => .error e s

def Logs (oracle : Oracle σ) (s : σ) (log : Inquiries) (t : σ) : Prop := oracle.visits s log.names = (log.reverse, t)

theorem logs_nothing (oracle : Oracle σ) (s : σ) : oracle.Logs s [] s := rfl

theorem request_logged {oracle : Oracle σ} {s t : σ} {log : Inquiries} (logs : oracle.Logs s log t) (c : Name) :
    ∃ answer u, oracle.Logs s (log ++ [(c, answer)]) u ∧
      oracle.recorded.request c (t, log.names.reverse) =
        ended (answer.mapError (Fault.reported c)) (u, Inquiries.names (log ++ [(c, answer)]) |>.reverse) := by
  rw [Logs] at logs
  simp only [Logs, Inquiries.names_snoc, visits_snoc, logs, List.reverse_append, List.reverse_singleton]
  cases found : oracle.lookup c t with
  | ok shape u =>
      refine ⟨.ok shape, u, by simp [visit, found], ?_⟩
      simp [request, recorded, found, ended, Except.mapError]
  | error e u =>
      refine ⟨.error e, u, by simp [visit, found], ?_⟩
      cases e <;> simp [request, recorded, found, ended, Except.mapError, Fault.reported]

structure Underway (oracle : Oracle σ) (settings : Settings) (lineage : Lineage) (name descriptor : Name) (s : σ)
    (log : Inquiries) (t : σ) (queue seen : List Name) : Prop where
  logs : oracle.Logs s log t
  turn : log.InTurn lineage settings name descriptor
  silent : ∀ entry ∈ log, Silent name descriptor entry
  started : lineage.Started settings log
  seen : ∀ c, settings.PassedOver seen c ↔ settings.PassedOver log.names c
  waiting : ∃ passed, lineage.queued settings log = passed ++ queue ∧ ∀ c ∈ passed, settings.PassedOver log.names c
  reachable : ∀ c ∈ lineage.queued settings log, oracle.Reachable settings lineage s c

namespace Underway

variable {oracle : Oracle σ} {settings : Settings} {lineage : Lineage} {name descriptor : Name} {s t : σ}
  {log : Inquiries} {queue seen : List Name}
  (under : oracle.Underway settings lineage name descriptor s log t queue seen)

include under

theorem next : lineage.next? settings log =
    (queue.dropWhile fun c => settings.isPlatform c || seen.contains c).head? := by
  obtain ⟨passed, split, gone⟩ := under.waiting
  have same : (fun c => settings.isPlatform c || seen.contains c) =
      fun c => settings.isPlatform c || log.names.contains c := by
    funext c
    rw [Bool.eq_iff_iff, settings.passed_over_iff, settings.passed_over_iff]
    exact under.seen c
  have none_left : passed.find? (fun c => !(settings.isPlatform c || log.names.contains c)) = none := by
    rw [List.find?_eq_none]
    intro c member
    have passed_over := (settings.passed_over_iff log.names c).mpr (gone c member)
    simp only [passed_over, Bool.not_true, Bool.false_eq_true, not_false_eq_true]
  rw [Lineage.next_started under.started, split, List.find?_append, none_left, Option.none_or,
    List.find?_not_eq_head?_dropWhile, same]

variable {c : Name} {rest : List Name} {shape : Shape} {u : σ}
  (dropped : (queue.dropWhile fun c => settings.isPlatform c || seen.contains c) = c :: rest)

include dropped

theorem asked_next : lineage.next? settings log = some c := by rw [under.next, dropped, List.head?_cons]

theorem asked_reachable : oracle.Reachable settings lineage s c := by
  obtain ⟨passed, split, _⟩ := under.waiting
  obtain ⟨before, rfl, _⟩ := Settings.dropped_split dropped
  apply under.reachable
  rw [split]
  simp

theorem goes_on (logs : oracle.Logs s (log ++ [(c, .ok shape)]) u) (undeclared : shape.declares name descriptor = false) :
    oracle.Underway settings lineage name descriptor s (log ++ [(c, .ok shape)]) u (rest ++ shape.ancestors)
      (c :: seen) where
  logs
  turn := under.turn.snoc under.silent (under.asked_next dropped) _
  silent entry member := by
    rcases List.mem_append.mp member with earlier | last
    · exact under.silent entry earlier
    · rw [List.mem_singleton.mp last]
      exact undeclared
  started := .inr (by simp)
  seen d := by
    rw [Inquiries.names_snoc, Settings.passed_over_cons, Settings.passed_over_snoc, under.seen]
  waiting := by
    -- What stands in front of the class in the queue needs no request, and now neither does the
    -- class.
    obtain ⟨passed, split, gone⟩ := under.waiting
    obtain ⟨before, rfl, skipped⟩ := Settings.dropped_split dropped
    refine ⟨passed ++ (before ++ [c]), ?_, fun d member => ?_⟩
    · rw [Lineage.queued_snoc under.started, split]
      simp [Inquiries.listed]
    · rw [Inquiries.names_snoc, Settings.passed_over_snoc]
      rcases List.mem_append.mp member with member | member
      · exact .inr (gone d member)
      · rcases List.mem_append.mp member with member | member
        · exact .inr ((under.seen d).mp (skipped d member))
        · exact .inl (List.mem_singleton.mp member)
  reachable d member := by
    rw [Lineage.queued_snoc under.started] at member
    rcases List.mem_append.mp member with earlier | above
    · exact under.reachable d earlier
    · have fresh := Lineage.next_fresh (under.asked_next dropped)
      have foreign : settings.isPlatform c = false := Bool.eq_false_iff.mpr fun platform => fresh (.inl platform)
      refine .above (Inquiries.names (log ++ [(c, .ok shape)])) c d shape (under.asked_reachable dropped) foreign ?_ above
      rw [logs]
      simp

end Underway

structure Reports (oracle : Oracle σ) (settings : Settings) (lineage : Lineage) (name descriptor : Name) (s : σ)
    (log : Inquiries) (t : σ) (result : Except Fault (Option Name)) : Prop where
  logs : oracle.Logs s log t
  turn : log.InTurn lineage settings name descriptor
  settles : log.Settles lineage settings name descriptor result

section

variable {oracle : Oracle σ} {settings : Settings} {lineage : Lineage} {name descriptor : Name} {s t : σ}
  {log : Inquiries} {queue seen : List Name}

theorem search_reports (fuel : Nat) (under : oracle.Underway settings lineage name descriptor s log t queue seen)
    (unasked : List Name) (enough : unasked.length ≤ fuel)
    (covered : ∀ c, oracle.Reachable settings lineage s c → settings.PassedOver log.names c ∨ c ∈ unasked) :
    ∃ whole u result, oracle.Reports settings lineage name descriptor s whole u result ∧
      oracle.recorded.search settings name descriptor fuel queue seen (t, log.names.reverse) =
        ended result (u, whole.names.reverse) := by
  -- Each request takes one of the names that were not asked for, so the fuel lasts until nothing is
  -- left to ask for.
  induction fuel generalizing log t queue seen unasked with
  | zero =>
      refine ⟨log, t, .ok none, ⟨under.logs, under.turn, .exhausted log under.silent ?_⟩, rfl⟩
      rw [Lineage.next_started under.started, List.find?_eq_none]
      intro c member
      have gone := (covered c (under.reachable c member)).resolve_right
        (by simp [List.length_eq_zero_iff.mp (Nat.le_zero.mp enough)])
      rw [(settings.passed_over_iff _ _).mpr gone]
      simp
  | succ fuel ih =>
      rw [search]
      cases dropped : queue.dropWhile fun c => settings.isPlatform c || seen.contains c with
      | nil =>
          have none_left : lineage.next? settings log = none := by rw [under.next, dropped, List.head?_nil]
          exact ⟨log, t, .ok none, ⟨under.logs, under.turn, .exhausted log under.silent none_left⟩, rfl⟩
      | cons c rest =>
          have turn := under.turn.snoc under.silent (under.asked_next dropped)
          obtain ⟨answer, u, logs, requested⟩ := request_logged under.logs c
          dsimp only
          cases answer with
          | error e =>
              rw [bind_error requested]
              exact ⟨_, u, _, ⟨logs, turn _, .failed log c e⟩, rfl⟩
          | ok shape =>
              rw [bind_ok requested]
              cases declared : shape.declares name descriptor with
              | true => exact ⟨_, u, _, ⟨logs, turn _, .found log c shape declared⟩, rfl⟩
              | false =>
                  have asked := Lineage.next_fresh (under.asked_next dropped)
                  have member := (covered c (under.asked_reachable dropped)).resolve_left asked
                  refine ih (under.goes_on dropped logs declared) (unasked.erase c) ?_ ?_
                  · rw [List.length_erase_of_mem member]
                    omega
                  · intro d reachable
                    rw [Inquiries.names_snoc, Settings.passed_over_snoc]
                    by_cases same : d = c
                    · exact .inl (.inl same)
                    · exact (covered d reachable).imp .inr (List.mem_erase_of_ne same).mpr

theorem search_spanned (spans : oracle.Spans settings lineage s)
    (under : oracle.Underway settings lineage name descriptor s log t queue [lineage.superName]) :
    ∃ whole u result, oracle.Reports settings lineage name descriptor s whole u result ∧
      oracle.recorded.search settings name descriptor (oracle.extent + lineage.interfaces.length) queue
        [lineage.superName] (t, log.names.reverse) = ended result (u, whole.names.reverse) := by
  obtain ⟨names, few, covered⟩ := spans
  refine search_reports _ under (lineage.interfaces ++ names) (by rw [List.length_append]; omega) fun c reachable => ?_
  rcases covered c reachable with platform | member
  · exact .inl (.inl platform)
  · rcases List.mem_cons.mp member with rfl | member
    · exact .inl ((under.seen _).mp (.inr (.head _)))
    · exact .inr member

theorem Underway.of_platform (name descriptor : Name) (platform : settings.isPlatform lineage.superName = true) :
    oracle.Underway settings lineage name descriptor s [] s lineage.interfaces [lineage.superName] where
  logs := oracle.logs_nothing s
  turn := .none
  silent := by simp
  started := .inl platform
  seen c := by
    simp only [Settings.PassedOver, Inquiries.names, List.map_nil, List.mem_singleton, List.not_mem_nil, or_false]
    exact ⟨fun passed => passed.elim id fun same => same ▸ platform, .inl⟩
  waiting := ⟨[], by simp [Lineage.queued], by simp⟩
  reachable c member := .interface c (by simpa [Lineage.queued] using member)

theorem Underway.of_super {shape : Shape} (foreign : settings.isPlatform lineage.superName = false)
    (logs : oracle.Logs s [(lineage.superName, .ok shape)] t) (undeclared : shape.declares name descriptor = false) :
    oracle.Underway settings lineage name descriptor s [(lineage.superName, .ok shape)] t
      (shape.ancestors ++ lineage.interfaces) [lineage.superName] where
  logs
  turn := .of_super foreign _
  silent entry member := by
    rw [List.mem_singleton.mp member]
    exact undeclared
  started := .inr (by simp)
  seen c := .rfl
  waiting := ⟨[], lineage.queued_super foreign shape, by simp⟩
  reachable c member := by
    rw [lineage.queued_super foreign] at member
    rcases List.mem_append.mp member with above | direct
    · refine .above [lineage.superName] _ c shape .superClass foreign ?_ above
      rw [show oracle.visits s [lineage.superName] = _ from logs]
      simp
    · exact .interface c direct

theorem declaring_reports (name descriptor : Name) (spans : oracle.Spans settings lineage s) :
    ∃ log t result, oracle.Reports settings lineage name descriptor s log t result ∧
      oracle.recorded.declaring? settings lineage name descriptor (s, []) = ended result (t, log.names.reverse) := by
  rw [declaring?]
  cases platform : settings.isPlatform lineage.superName with
  | true =>
      have shaped : oracle.recorded.shapeOf settings lineage.superName (s, []) = .ok {} (s, []) := by
        simp only [shapeOf, platform, if_true]
        rfl
      rw [bind_ok shaped]
      exact search_spanned spans (.of_platform name descriptor platform)
  | false =>
      obtain ⟨answer, u, logs, requested⟩ := request_logged (oracle.logs_nothing s) lineage.superName
      have shaped : oracle.recorded.shapeOf settings lineage.superName (s, []) =
          ended (answer.mapError (Fault.reported lineage.superName)) (u, [lineage.superName]) := by
        simp only [shapeOf, platform, Bool.false_eq_true, if_false]
        exact requested
      cases answer with
      | error e =>
          rw [bind_error shaped]
          exact ⟨_, u, _, ⟨logs, .of_super platform _, .failed [] _ e⟩, rfl⟩
      | ok shape =>
          rw [bind_ok shaped]
          cases declared : shape.declares name descriptor with
          | true => exact ⟨_, u, _, ⟨logs, .of_super platform _, .found [] _ shape declared⟩, rfl⟩
          | false => exact search_spanned spans (.of_super platform logs declared)

end

theorem rename_ended {oracle : Oracle σ} (renamer : Renamer) {settings : Settings} {lineage : Lineage}
    {name descriptor : Name} (ordinary : name.isSpecial = false)
    (unruled : renamer.method? lineage.name name descriptor = none) {s t : σ} {result : Except Fault (Option Name)}
    (found : oracle.declaring? settings lineage name descriptor s = ended result t) :
    oracle.renameMethod renamer settings lineage name descriptor s =
      ended (result.map fun owner => (owner.map fun c => renamer.method c name descriptor).getD name) t := by
  cases result with
  | ok owner => exact rename_unruled renamer settings lineage ordinary unruled found
  | error e =>
      simp only [renameMethod, ordinary, unruled, Bool.false_eq_true, if_false]
      rw [bind_error found]
      rfl

theorem Answers.visit_adds {oracle : Oracle σ} {shape : Name → Except Fault Shape} (answers : oracle.Answers shape)
    (past : Inquiries × σ) (c : Name) : (oracle.visit past c).1 = (c, shape c) :: past.1 := by
  obtain ⟨t, answered⟩ := answers c past.2
  rw [visit, answered]
  cases shape c <;> rfl

theorem Answers.visited {oracle : Oracle σ} {shape : Name → Except Fault Shape} (answers : oracle.Answers shape) {s : σ}
    {asked : List Name} {c : Name} {answer : Except Fault Shape} (member : (c, answer) ∈ (oracle.visits s asked).1) :
    answer = shape c := by
  induction asked using List.reverseRecOn with
  | nil => cases member
  | append_singleton asked last ih =>
      rw [visits_snoc, answers.visit_adds] at member
      rcases List.mem_cons.mp member with same | earlier
      · cases same
        rfl
      · exact ih earlier

theorem spans_of_listed {oracle : Oracle σ} {shape : Name → Except Fault Shape} (answers : oracle.Answers shape)
    (listed : List Name) (few : listed.length ≤ oracle.extent)
    (all : ∀ c found, shape c = .ok found → ∀ d ∈ found.ancestors, d ∈ listed) (settings : Settings) (lineage : Lineage)
    (s : σ) : oracle.Spans settings lineage s := by
  refine ⟨listed, few, fun c reachable => .inr ?_⟩
  cases reachable with
  | superClass => exact .head _
  | interface _ direct => exact .tail _ (List.mem_append_left _ direct)
  | above asked b _ found _ _ answered above =>
      exact .tail _ (List.mem_append_right _ (all b found (answers.visited answered).symm c above))

theorem class_path_spans (path : ClassPath) (settings : Settings) (lineage : Lineage) (s : σ) :
    (path.oracle : Oracle σ).Spans settings lineage s :=
  spans_of_listed (of_function_answers path.shape path.extent) path.listed (Nat.le_of_eq path.listed_length)
    (fun _ _ known _ member => path.mem_listed known member) settings lineage s

end Oracle

/-- However its ancestry is linked, a method is looked for in one class after another, each the
first of the queue that is neither a platform class nor asked for before. The first answer that
fails or declares it settles its name, and without one all that could be asked for has been. -/
theorem requests_in_turn {σ : Type} (renamer : Renamer) (settings : Settings) (lineage : Lineage) (oracle : Oracle σ)
    (name descriptor : Name) (s : σ) (spans : oracle.Spans settings lineage s) :
    ∃ log t result,
      oracle.recorded.renameMethod renamer settings lineage name descriptor (s, []) =
        Oracle.ended result (t, (Inquiries.names log).reverse) ∧
      oracle.visits s (Inquiries.names log) = (log.reverse, t) ∧
      (Inquiries.names log).Nodup ∧ (∀ c ∈ Inquiries.names log, settings.isPlatform c = false) ∧
      (name.isSpecial = true → log = [] ∧ result = .ok name) ∧
      (∀ renamed, name.isSpecial = false → renamer.method? lineage.name name descriptor = some renamed →
        log = [] ∧ result = .ok renamed) ∧
      (name.isSpecial = false → renamer.method? lineage.name name descriptor = none →
        (settings.isPlatform lineage.superName = false → (Inquiries.names log).head? = some lineage.superName) ∧
        (∀ before c answer after, log = before ++ (c, answer) :: after → lineage.next? settings before = some c) ∧
        (∀ c e, (c, .error e) ∈ log → log.getLast? = some (c, .error e) ∧ result = .error (e.reported c)) ∧
        (∀ c shape, (c, .ok shape) ∈ log → shape.declares name descriptor = true →
          log.getLast? = some (c, .ok shape) ∧ result = .ok (renamer.method c name descriptor)) ∧
        ((∀ entry ∈ log, Silent name descriptor entry) → lineage.next? settings log = none ∧ result = .ok name)) := by
  -- A special name or a rule of its own settles the method before anyone is asked.
  cases special : name.isSpecial with
  | true =>
      refine ⟨[], s, .ok name, ?_, rfl, .nil, by simp [Inquiries.names], by simp, by simp, by simp⟩
      simp only [Oracle.renameMethod, special, if_true]
      rfl
  | false =>
      cases ruled : renamer.method? lineage.name name descriptor with
      | some renamed =>
          refine ⟨[], s, .ok renamed, ?_, rfl, .nil, by simp [Inquiries.names], by simp, by simp, by simp⟩
          simp only [Oracle.renameMethod, special, ruled, Bool.false_eq_true, if_false]
          rfl
      | none =>
          obtain ⟨log, t, result, reports, ran⟩ := Oracle.declaring_reports name descriptor spans
          refine ⟨log, t, _, Oracle.rename_ended renamer special ruled ran, reports.logs, reports.turn.distinct,
            reports.turn.foreign, by simp, by simp, fun _ _ => ⟨?_, reports.turn.next, ?_, ?_, ?_⟩⟩
          · exact fun foreign => reports.turn.super_first (reports.settles.asked foreign) foreign
          · intro c e member
            have last := reports.turn.last_of_mem member id
            refine ⟨last, ?_⟩
            rw [reports.settles.of_failed last]
            rfl
          · intro c shape member declared
            have last := reports.turn.last_of_mem member (by simp [Silent, declared])
            refine ⟨last, ?_⟩
            rw [reports.settles.of_found last declared]
            rfl
          · intro silent
            obtain ⟨none_left, rfl⟩ := reports.settles.of_silent silent
            exact ⟨none_left, rfl⟩

def knotClass : Bytes :=
  [0xCA, 0xFE, 0xBA, 0xBE, 0, 0, 0, 52, 0, 7, 1, 0, 1, 75, 7, 0, 1, 1, 0, 1, 76, 7, 0, 3, 1, 0, 1, 77, 7, 0, 5,
    0, 33, 0, 2, 0, 4, 0, 2, 0, 6, 0, 2, 0, 0, 0, 0, 0, 0]

def brokenPath : ClassPath := ⟨[(.ofString "K", knotClass), (.ofString "M", [0, 1, 2, 3])]⟩

def knotLineage : Lineage := ⟨.ofString "J", .ofString "K", [.ofString "java/lang/Object", .ofString "N"]⟩

theorem requests_in_turn_broken :
    (brokenPath.oracle : Oracle Unit).Spans {} knotLineage () ∧
      brokenPath.oracle.recorded.renameMethod loopedRules.renamer {} knotLineage (.ofString "run")
        (.ofString "()V") ((), []) = .error (.oracle "M" (.badMagic 0x010203))
          ((), [.ofString "M", .ofString "L", .ofString "K"]) ∧
      ∃ log, Inquiries.names log = [.ofString "K", .ofString "L", .ofString "M"] ∧ (Inquiries.names log).Nodup ∧
        ∀ before c answer after, log = before ++ (c, answer) :: after → knotLineage.next? {} before = some c := by
  have spans : (brokenPath.oracle : Oracle Unit).Spans {} knotLineage () := Oracle.class_path_spans _ _ _ _
  have failed : brokenPath.oracle.recorded.renameMethod loopedRules.renamer {} knotLineage (.ofString "run")
      (.ofString "()V") ((), []) = .error (.oracle "M" (.badMagic 0x010203))
        ((), [.ofString "M", .ofString "L", .ofString "K"]) := rfl
  obtain ⟨log, t, result, ran, _, distinct, _, _, _, ordinary⟩ :=
    requests_in_turn loopedRules.renamer {} knotLineage brokenPath.oracle (.ofString "run") (.ofString "()V") () spans
  obtain ⟨_, next, _⟩ := ordinary (by decide) (by decide)
  refine ⟨spans, failed, log, ?_, distinct, next⟩
  rw [failed] at ran
  cases result with
  | ok renamed => cases ran
  | error e =>
      injection ran with _ same
      injection same with _ asked
      rw [← List.reverse_reverse (Inquiries.names log), ← asked]
      rfl

end Relabel
