import Relabel.Proofs.SignatureGrammar

set_option autoImplicit false

namespace Relabel.Signature

variable {α : Type}

def GivesBefore (spelled : List Piece → Bytes → Prop) (act : Parse Unit) : Prop :=
  ∀ s t, act s = .ok () t → ∃ pieces, spelled pieces t.rest ∧ Reads s pieces t

abbrev Gives (spelled : List Piece → Prop) (act : Parse Unit) : Prop := GivesBefore (fun pieces _ => spelled pieces) act

theorem gives_nothing {spelled : List Piece → Prop} (empty : spelled []) : Gives spelled (pure ()) := by
  intro s t ran
  cases ran
  exact ⟨[], empty, reads_nothing s⟩

theorem gives_choice {spelled : List Piece → Prop} {test : Parse Bool} {yes no : Parse Unit}
    (asked : ∀ s a t, test s = .ok a t → t = s) (found : Gives spelled yes) (other : Gives spelled no) :
    Gives spelled (do if ← test then yes else no) := by
  intro s u ran
  obtain ⟨answer, t, ranTest, ranRest⟩ := bind_ok_inv ran
  cases asked s answer t ranTest
  cases answer with
  | true => exact found _ u ranRest
  | false => exact other _ u ranRest

theorem copy_inv (wanted : UInt8 → Prop) [DecidablePred wanted] {s t : State} {found : Bool}
    (ran : (match s.rest with
      | [] => .ok false s
      | b :: rest => if wanted b then .ok true ⟨rest, .copied [b] :: s.pieces⟩ else .ok false s :
        EStateM.Result Unit State Bool) = .ok found t) :
    (found = true ∧ ∃ b, wanted b ∧ Reads s [.copied [b]] t) ∨
      (found = false ∧ t = s ∧ ∀ b ∈ s.rest.head?, ¬ wanted b) := by
  obtain ⟨rest, pieces⟩ := s
  cases rest with
  | nil =>
      cases ran
      exact .inr ⟨rfl, rfl, fun _ none => nomatch none⟩
  | cons b rest =>
      dsimp only at ran
      by_cases holds : wanted b
      · rw [if_pos holds] at ran
        cases ran
        exact .inl ⟨rfl, b, holds, rfl, rfl⟩
      · rw [if_neg holds] at ran
        cases ran
        exact .inr ⟨rfl, rfl, by simpa using holds⟩

theorem accept_inv {c : Char} {s t : State} {found : Bool} (ran : accept c s = .ok found t) :
    (found = true ∧ Reads s [mark c] t) ∨ (found = false ∧ t = s ∧ s.rest.head? ≠ some c.toUInt8) := by
  rcases copy_inv (· = c.toUInt8) ran with ⟨yes, b, rfl, reads⟩ | ⟨no, same, other⟩
  · exact .inl ⟨yes, reads⟩
  · exact .inr ⟨no, same, fun first => other _ first rfl⟩

theorem primitive_inv {s t : State} {found : Bool} (ran : primitive s = .ok found t) :
    (found = true ∧ ∃ code ∈ primitives, Reads s [.copied [code]] t) ∨ (found = false ∧ t = s) := by
  rcases copy_inv (· ∈ primitives) ran with yes | ⟨no, same, _⟩
  · exact .inl yes
  · exact .inr ⟨no, same⟩

theorem starts_with_still (c : Char) (s : State) (answer : Bool) (t : State) (ran : startsWith c s = .ok answer t) : t = s := by
  cases ran
  rfl

theorem accepted_inv {c : Char} {yes no : Parse α} {s u : State} {a : α}
    (ran : (do if ← accept c then yes else no : Parse α) s = .ok a u) :
    (∃ t, Reads s [mark c] t ∧ yes t = .ok a u) ∨ (s.rest.head? ≠ some c.toUInt8 ∧ no s = .ok a u) := by
  obtain ⟨found, t, ranTest, ranRest⟩ := bind_ok_inv ran
  rcases accept_inv ranTest with ⟨rfl, reads⟩ | ⟨rfl, rfl, other⟩
  · exact .inl ⟨t, reads, ranRest⟩
  · exact .inr ⟨other, ranRest⟩

theorem expect_inv {c : Char} {s t : State} (ran : expect c s = .ok () t) : Reads s [mark c] t := by
  rcases accepted_inv ran with ⟨t', reads, finished⟩ | ⟨_, failed⟩
  · cases finished
    exact reads
  · cases failed

theorem expected_inv {c : Char} {f : Unit → Parse α} {s u : State} {a : α} (ran : (expect c >>= f) s = .ok a u) :
    ∃ t, Reads s [mark c] t ∧ f () t = .ok a u := by
  obtain ⟨_, t, ranTest, ranRest⟩ := bind_ok_inv ran
  exact ⟨t, expect_inv ranTest, ranRest⟩

theorem taken_inv {stops : Bytes} (piece : Bytes → Piece) {f : Bytes → Parse α} {s u : State} {a : α}
    (same : ∀ run, (piece run).text = run)
    (ran : (do
      let run ← takeUntil stops
      emit (piece run)
      f run : Parse α) s = .ok a u) :
    ∃ run t, Run stops run ∧ Reads s [piece run] t ∧ f run t = .ok a u := by
  obtain ⟨run, t, took, ran⟩ := bind_ok_inv ran
  obtain ⟨_, shown, emitted, ran⟩ := bind_ok_inv ran
  cases emitted
  by_cases empty : (s.rest.takeWhile (· ∉ stops)).isEmpty
  · rw [takeUntil, if_pos empty] at took
    cases took
  · rw [takeUntil, if_neg empty] at took
    cases took
    refine ⟨_, _, ⟨fun none => empty (List.isEmpty_iff.mpr none), fun b member => ?_⟩, ⟨?_, rfl⟩, ran⟩
    · exact of_decide_eq_true (List.all_eq_true.mp List.all_takeWhile b member)
    · rw [text_of_cons, same, text_of_nil, List.append_nil]
      exact List.takeWhile_append_dropWhile.symm

theorem identifier_inv {s t : State} (ran : identifier s = .ok () t) :
    ∃ name, Run identifierStops name ∧ Reads s [.copied name] t := by
  have whole : (do
      let run ← takeUntil identifierStops
      emit (.copied run)
      pure () : Parse Unit) s = .ok () t := ran
  obtain ⟨name, u, named, reads, finished⟩ := taken_inv .copied (fun _ => rfl) whole
  cases finished
  exact ⟨name, named, reads⟩

structure Round (step : Parse Bool) (item last : List Piece → Bytes → Prop) : Prop where
  goes : ∀ s t, step s = .ok true t → ∃ pieces, item pieces t.rest ∧ Reads s pieces t
  stops : ∀ s t, step s = .ok false t → ∃ pieces, last pieces t.rest ∧ Reads s pieces t
  some : ∀ pieces following, item pieces following → textOf pieces ≠ []

theorem repeat_last {step : Parse Bool} {s t : State} (ran : step s = .ok false t) : repeatWhile step s = .ok () t := by
  rw [repeatWhile, repeatFor, ran]

namespace Round

variable {step : Parse Bool} {item last : List Piece → Bytes → Prop} (round : Round step item last)

include round

theorem advances {s t : State} (ran : step s = .ok true t) : t.rest.length < s.rest.length := by
  obtain ⟨pieces, one, reads⟩ := round.goes s t ran
  exact reads.shorter (round.some pieces t.rest one)

theorem enough (fuel more : Nat) (s : State) (inFuel : s.rest.length < fuel) (inMore : s.rest.length < more) :
    repeatFor fuel step s = repeatFor more step s := by
  induction fuel generalizing more s with
  | zero => omega
  | succ fuel ih =>
      cases more with
      | zero => omega
      | succ more =>
          rw [repeatFor, repeatFor]
          cases ran : step s with
          | error e t => rfl
          | ok goes t =>
              cases goes with
              | false => rfl
              | true =>
                  have shorter := round.advances ran
                  exact ih more t (by omega) (by omega)

theorem next {s t : State} (ran : step s = .ok true t) : repeatWhile step s = repeatWhile step t := by
  have shorter := round.advances ran
  rw [repeatWhile, repeatFor, ran]
  exact round.enough _ _ t shorter (Nat.lt_succ_self _)

theorem gives {whole : List Piece → Bytes → Prop}
    (ended : ∀ pieces following, last pieces following → whole pieces following)
    (more : ∀ one rest following, item one (textOf rest ++ following) → whole rest following →
      whole (one ++ rest) following) : GivesBefore whole (repeatWhile step) := by
  intro s t ran
  induction size : s.rest.length using Nat.strongRecOn generalizing s with
  | ind n ih =>
      cases first : step s with
      | error e u =>
          rw [repeatWhile, repeatFor, first] at ran
          cases ran
      | ok goes u =>
          cases goes with
          | false =>
              obtain ⟨pieces, stop, reads⟩ := round.stops s u first
              rw [repeat_last first] at ran
              cases ran
              exact ⟨pieces, ended pieces _ stop, reads⟩
          | true =>
              rw [round.next first] at ran
              obtain ⟨one, item, reads⟩ := round.goes s u first
              obtain ⟨rest, spelled, later⟩ := ih _ (by rw [← size]; exact round.advances first) u ran rfl
              rw [later.rest] at item
              exact ⟨one ++ rest, more one rest t.rest item spelled, reads_further reads later⟩

end Round

theorem brackets_round : Round (accept '[') (fun pieces _ => pieces = [mark '[']) (fun pieces _ => pieces = []) where
  goes s t ran := by
    rcases accept_inv ran with ⟨_, reads⟩ | ⟨no, _⟩
    · exact ⟨_, rfl, reads⟩
    · cases no
  stops s t ran := by
    rcases accept_inv ran with ⟨yes, _⟩ | ⟨_, rfl, _⟩
    · cases yes
    · exact ⟨_, rfl, reads_nothing _⟩
  some pieces following one := by
    rw [one]
    exact List.cons_ne_nil _ _

theorem brackets_give : Gives (fun pieces => ∃ more, pieces = List.replicate more (mark '[')) (repeatWhile (accept '[')) := by
  apply brackets_round.gives
  · rintro pieces _ rfl
    exact ⟨0, rfl⟩
  · rintro one rest _ rfl ⟨more, rfl⟩
    exact ⟨more + 1, rfl⟩

section

variable {levels : Nat}

theorem named_type_gives {classType : Parse Unit} (classes : Gives (Phrase.reference.Spelled levels) classType) :
    Gives (Phrase.reference.Spelled levels) (namedType classType) := by
  refine gives_choice (starts_with_still 'L') classes ?_
  intro s u ran
  obtain ⟨t, marked, ran⟩ := expected_inv ran
  obtain ⟨_, t', ranName, ran⟩ := bind_ok_inv ran
  obtain ⟨name, named, taken⟩ := identifier_inv ranName
  exact ⟨_, .typeVariable named, reads_further marked (reads_further taken (expect_inv ran))⟩

theorem type_gives {reference : Parse Unit} (references : Gives (Phrase.reference.Spelled levels) reference) :
    Gives (Phrase.type.Spelled levels) (do unless ← primitive do reference) := by
  intro s u ran
  obtain ⟨found, t, ranTest, ranRest⟩ := bind_ok_inv ran
  rcases primitive_inv ranTest with ⟨rfl, code, known, reads⟩ | ⟨rfl, rfl⟩
  · cases ranRest
    exact ⟨_, .primitive code known, reads⟩
  · obtain ⟨pieces, spelled, reads⟩ := references _ u ranRest
    exact ⟨pieces, .reference spelled, reads⟩

theorem reference_type_gives {classType : Parse Unit} (classes : Gives (Phrase.reference.Spelled levels) classType) :
    Gives (Phrase.reference.Spelled levels) (referenceType classType) := by
  intro s u ran
  rcases accepted_inv ran with ⟨t, marked, ran⟩ | ⟨_, ran⟩
  · obtain ⟨_, t', looped, ran⟩ := bind_ok_inv ran
    obtain ⟨_, ⟨more, rfl⟩, brackets⟩ := brackets_give t t' looped
    obtain ⟨element, spelled, reads⟩ := type_gives (named_type_gives classes) t' u ran
    have markers : Reads s (List.replicate (more + 1) (mark '[')) t' := reads_further marked brackets
    exact ⟨_, .array more spelled, reads_further markers reads⟩
  · exact named_type_gives classes s u ran

def nextArgument (reference : Parse Unit) : Parse Bool := do
  if ← accept '>' then return false
  if ← accept '*' then return true
  unless ← accept '+' do
    let _ ← accept '-'
  reference
  return true

def Argument (levels : Nat) (pieces : List Piece) : Prop :=
  pieces = [mark '*'] ∨ ∃ sign one, sign ∈ [[], [mark '+'], [mark '-']] ∧ Phrase.reference.Spelled levels one ∧
    pieces = sign ++ one

theorem argument_inv {reference : Parse Unit} (references : Gives (Phrase.reference.Spelled levels) reference)
    {s t : State} {goes : Bool} (ran : nextArgument reference s = .ok goes t) :
    (goes = true ∧ ∃ pieces, Argument levels pieces ∧ Reads s pieces t) ∨ (goes = false ∧ Reads s [mark '>'] t) := by
  -- what follows the sign
  have signed : ∀ sign u, sign ∈ [[], [mark '+'], [mark '-']] → Reads s sign u →
      (do reference; return true : Parse Bool) u = .ok goes t →
        goes = true ∧ ∃ pieces, Argument levels pieces ∧ Reads s pieces t := by
    intro sign u known before ran
    obtain ⟨_, u', ranReference, finished⟩ := bind_ok_inv ran
    obtain ⟨one, spelled, reads⟩ := references u u' ranReference
    cases finished
    exact ⟨rfl, _, .inr ⟨sign, one, known, spelled, rfl⟩, reads_further before reads⟩
  rcases accepted_inv ran with ⟨u, closed, finished⟩ | ⟨_, ran⟩
  · cases finished
    exact .inr ⟨rfl, closed⟩
  · left
    rcases accepted_inv ran with ⟨u, any, finished⟩ | ⟨_, ran⟩
    · cases finished
      exact ⟨rfl, _, .inl rfl, any⟩
    · rcases accepted_inv ran with ⟨u, plus, ran⟩ | ⟨_, ran⟩
      · exact signed _ u (by simp) plus ran
      · obtain ⟨found, u, ranTest, ranRest⟩ := bind_ok_inv ran
        rcases accept_inv ranTest with ⟨_, minus⟩ | ⟨_, same, _⟩
        · exact signed _ u (by simp) minus ranRest
        · exact signed [] u (by simp) (same ▸ reads_nothing s) ranRest

theorem text_some_of_append {sign one : List Piece} (some : textOf one ≠ []) : textOf (sign ++ one) ≠ [] := by
  rw [text_of_append]
  exact fun none => some (List.append_eq_nil_iff.mp none).2

theorem argument_round {reference : Parse Unit} (references : Gives (Phrase.reference.Spelled levels) reference) :
    Round (nextArgument reference) (fun pieces _ => Argument levels pieces) (fun pieces _ => pieces = [mark '>']) where
  goes s t ran := by
    rcases argument_inv references ran with ⟨_, found⟩ | ⟨no, _⟩
    · exact found
    · cases no
  stops s t ran := by
    rcases argument_inv references ran with ⟨yes, _⟩ | ⟨_, reads⟩
    · cases yes
    · exact ⟨_, rfl, reads⟩
  some pieces following one := by
    rcases one with rfl | ⟨sign, one, _, spelled, rfl⟩
    · exact List.cons_ne_nil _ _
    · exact text_some_of_append (reference_opens spelled).some

theorem arguments_give {reference : Parse Unit} (references : Gives (Phrase.reference.Spelled levels) reference) :
    Gives (Phrase.arguments.Spelled levels) (argumentsHere reference) := by
  refine gives_choice (starts_with_still '<') ?_ (gives_nothing .noArguments)
  intro s u ran
  obtain ⟨t, opened, ran⟩ := expected_inv ran
  have list : Gives (Phrase.argumentList.Spelled levels) (repeatWhile (nextArgument reference)) := by
    apply (argument_round references).gives
    · rintro pieces _ rfl
      exact .lastArgument
    · rintro one rest _ (rfl | ⟨sign, one, signed, spelled, rfl⟩) later
      · exact .wildcard later
      · rw [List.append_assoc]
        exact .argument signed spelled later
  obtain ⟨pieces, spelled, reads⟩ := list t u ran
  exact ⟨_, .arguments spelled, reads_further opened reads⟩

theorem inner_types_give {reference : Parse Unit} (references : Gives (Phrase.reference.Spelled levels) reference)
    (fuel : Nat) (owner : Name) : Gives ((Phrase.inner owner).Spelled levels) (innerTypes reference fuel owner) := by
  -- Where the rounds run out, the inner classes read so far are some, too.
  induction fuel generalizing owner with
  | zero => exact gives_nothing .noInner
  | succ fuel ih =>
      intro s u ran
      rcases accepted_inv ran with ⟨t, dotted, ran⟩ | ⟨_, finished⟩
      · obtain ⟨simple, t', named, taken, ran⟩ := taken_inv (.inner owner) (fun _ => rfl) ran
        obtain ⟨_, t'', ranArguments, ran⟩ := bind_ok_inv ran
        obtain ⟨arguments, given, reads⟩ := arguments_give references t' t'' ranArguments
        obtain ⟨rest, nested, later⟩ := ih (owner.nested simple) t'' u ran
        exact ⟨_, .inner named given nested, reads_further dotted (reads_further taken (reads_further reads later))⟩
      · cases finished
        exact ⟨[], .noInner, reads_nothing s⟩

end

theorem class_type_gives (levels : Nat) : Gives (Phrase.reference.Spelled levels) (classType levels) := by
  induction levels with
  | zero => exact fun s t ran => nomatch ran
  | succ levels ih =>
      have references := reference_type_gives ih
      intro s u ran
      obtain ⟨t, marked, ran⟩ := expected_inv ran
      obtain ⟨name, t', named, taken, ran⟩ := taken_inv (fun run => .outer ⟨run⟩) (fun _ => rfl) ran
      obtain ⟨_, t'', ranArguments, ran⟩ := bind_ok_inv ran
      obtain ⟨arguments, given, readArguments⟩ := arguments_give references t' t'' ranArguments
      obtain ⟨_, _, asked, ran⟩ := bind_ok_inv ran
      cases asked
      obtain ⟨_, w, ranInner, ran⟩ := bind_ok_inv ran
      obtain ⟨inner, nested, readInner⟩ := inner_types_give references _ ⟨name⟩ t'' w ranInner
      refine ⟨_, .classType named given nested, ?_⟩
      exact reads_further marked (reads_further taken (reads_further readArguments
        (reads_further readInner (expect_inv ran))))

theorem reference_gives : Gives (Phrase.reference.Spelled maxNesting) reference :=
  reference_type_gives (class_type_gives maxNesting)

theorem any_type_gives : Gives (Phrase.type.Spelled maxNesting) anyType := type_gives reference_gives

def nextReference (lead : Char) : Parse Bool := do
  if ← accept lead then
    reference
    return true
  else return false

def LedReference (lead : Char) (pieces : List Piece) : Prop :=
  ∃ one, Phrase.reference.Spelled maxNesting one ∧ pieces = mark lead :: one

theorem reference_round (lead : Char) :
    Round (nextReference lead) (fun pieces _ => LedReference lead pieces)
      (fun pieces following => pieces = [] ∧ following.head? ≠ some lead.toUInt8) where
  goes s u ran := by
    rcases accepted_inv ran with ⟨t, led, ran⟩ | ⟨_, finished⟩
    · obtain ⟨_, t', ranReference, finished⟩ := bind_ok_inv ran
      obtain ⟨one, spelled, reads⟩ := reference_gives t t' ranReference
      cases finished
      exact ⟨_, ⟨one, spelled, rfl⟩, reads_further led reads⟩
    · cases finished
  stops s u ran := by
    rcases accepted_inv ran with ⟨t, _, ran⟩ | ⟨other, finished⟩
    · obtain ⟨_, t', _, finished⟩ := bind_ok_inv ran
      cases finished
    · cases finished
      exact ⟨[], ⟨rfl, other⟩, reads_nothing s⟩
  some pieces following one := by
    obtain ⟨one, _, rfl⟩ := one
    exact List.cons_ne_nil _ _

theorem references_give (lead : Char) :
    GivesBefore (fun pieces following => (Clause.references lead).Spelled pieces ∧ following.head? ≠ some lead.toUInt8)
      (repeatWhile (nextReference lead)) := by
  apply (reference_round lead).gives
  · rintro pieces following ⟨rfl, other⟩
    exact ⟨.noReferences, other⟩
  · rintro _ rest following ⟨one, spelled, rfl⟩ ⟨later, other⟩
    exact ⟨.references spelled later, other⟩

def Bounds (pieces : List Piece) (following : Bytes) : Prop :=
  ∃ others, (Clause.references ':').Spelled others ∧
    ((∃ bound, Phrase.reference.Spelled maxNesting bound ∧ pieces = mark ':' :: (bound ++ others)) ∨
      (pieces = mark ':' :: others ∧
        (others.head? = some (mark ':') ∨ others = [] ∧ following.head? = some '>'.toUInt8)))

theorem others_cases {others : List Piece} (spelled : (Clause.references ':').Spelled others) :
    others = [] ∨ others.head? = some (mark ':') := by
  cases spelled with
  | noReferences => exact .inl rfl
  | references => exact .inr rfl

theorem bounds_give : GivesBefore Bounds bounds := by
  intro s u ran
  obtain ⟨t, led, ran⟩ := expected_inv ran
  obtain ⟨colon, t', askedColon, ran⟩ := bind_ok_inv ran
  injection askedColon with colonHere same
  subst same
  obtain ⟨closer, t', askedCloser, ran⟩ := bind_ok_inv ran
  injection askedCloser with closerHere same
  subst same
  cases either : colon || closer with
  | false =>
      rw [either] at ran
      obtain ⟨_, t', ranReference, ran⟩ := bind_ok_inv ran
      obtain ⟨bound, spelled, reads⟩ := reference_gives t t' ranReference
      obtain ⟨others, ⟨further, _⟩, later⟩ := references_give ':' t' u ran
      exact ⟨_, ⟨others, further, .inl ⟨bound, spelled, rfl⟩⟩, reads_further led (reads_further reads later)⟩
  | true =>
      rw [either] at ran
      obtain ⟨others, ⟨further, ended⟩, later⟩ := references_give ':' t u ran
      refine ⟨_, ⟨others, further, .inr ⟨rfl, ?_⟩⟩, reads_further led later⟩
      rcases others_cases further with rfl | headed
      · -- nothing was read, so what follows is the `>` that was seen
        have same : t.rest = u.rest := later.rest
        have seen : t.rest.head? = some ':'.toUInt8 ∨ t.rest.head? = some '>'.toUInt8 := by
          rw [← colonHere, ← closerHere] at either
          simpa using either
        rw [same] at seen
        exact .inr ⟨rfl, seen.resolve_left ended⟩
      · exact .inl headed

def nextParameter : Parse Bool := do
  if ← accept '>' then return false
  identifier
  bounds
  return true

def Parameter (pieces : List Piece) (following : Bytes) : Prop :=
  ∃ name bounds, Run identifierStops name ∧ Bounds bounds following ∧ pieces = .copied name :: bounds

theorem parameter_round : Round nextParameter Parameter (fun pieces _ => pieces = [mark '>']) where
  goes s u ran := by
    rcases accepted_inv ran with ⟨_, _, finished⟩ | ⟨_, ran⟩
    · cases finished
    · obtain ⟨_, t, ranName, ran⟩ := bind_ok_inv ran
      obtain ⟨_, t', ranBounds, finished⟩ := bind_ok_inv ran
      obtain ⟨name, named, taken⟩ := identifier_inv ranName
      obtain ⟨bounds, bounded, reads⟩ := bounds_give t t' ranBounds
      cases finished
      exact ⟨_, ⟨name, bounds, named, bounded, rfl⟩, reads_further taken reads⟩
  stops s u ran := by
    rcases accepted_inv ran with ⟨t, closed, finished⟩ | ⟨_, ran⟩
    · cases finished
      exact ⟨_, rfl, closed⟩
    · obtain ⟨_, t, _, ran⟩ := bind_ok_inv ran
      obtain ⟨_, t', _, finished⟩ := bind_ok_inv ran
      cases finished
  some pieces following one := by
    obtain ⟨name, bounds, named, _, rfl⟩ := one
    exact fun none => named.some (List.append_eq_nil_iff.mp none).1

theorem parameters_give : Gives Clause.parameters.Spelled (repeatWhile nextParameter) := by
  apply parameter_round.gives
  · rintro pieces _ rfl
    exact .lastParameter
  · rintro _ rest following ⟨name, _, named, ⟨others, further, bounded⟩, rfl⟩ later
    rcases bounded with ⟨bound, spelled, rfl⟩ | ⟨rfl, headed | ⟨rfl, closed⟩⟩
    · simpa using Clause.Spelled.parameter named spelled further later
    · refine .unbounded named further later (.inl ?_)
      rw [List.head?_append, headed]
      rfl
    · refine .unbounded named further later (.inr ?_)
      rcases parameters_open later with rfl | ⟨b, tail, text, free⟩
      · rfl
      · rw [text] at closed
        injection closed with closed
        subst closed
        exact absurd (by decide) free

def nextOperand : Parse Bool := do
  if ← accept ')' then return false
  anyType
  return true

theorem operand_round :
    Round nextOperand (fun pieces _ => Phrase.type.Spelled maxNesting pieces) (fun pieces _ => pieces = [mark ')']) where
  goes s u ran := by
    rcases accepted_inv ran with ⟨_, _, finished⟩ | ⟨_, ran⟩
    · cases finished
    · obtain ⟨_, t, ranType, finished⟩ := bind_ok_inv ran
      cases finished
      exact any_type_gives s _ ranType
  stops s u ran := by
    rcases accepted_inv ran with ⟨t, closed, finished⟩ | ⟨_, ran⟩
    · cases finished
      exact ⟨_, rfl, closed⟩
    · obtain ⟨_, t, _, finished⟩ := bind_ok_inv ran
      cases finished
  some pieces _ spelled := (type_opens spelled).some

theorem operands_give : Gives Clause.operands.Spelled (repeatWhile nextOperand) := by
  apply operand_round.gives
  · rintro pieces _ rfl
    exact .lastOperand
  · exact fun one rest _ spelled later => .operand spelled later

theorem type_round :
    Round nextType (fun pieces _ => Phrase.type.Spelled maxNesting pieces) (fun pieces _ => pieces = []) where
  goes s u ran := by
    obtain ⟨done, t, asked, ran⟩ := bind_ok_inv ran
    obtain ⟨rfl, _⟩ := at_end_inv asked
    cases done with
    | true => cases ran
    | false =>
        obtain ⟨_, t', ranType, finished⟩ := bind_ok_inv ran
        cases finished
        exact any_type_gives _ _ ranType
  stops s u ran := by
    obtain ⟨done, t, asked, ran⟩ := bind_ok_inv ran
    obtain ⟨rfl, _⟩ := at_end_inv asked
    cases done with
    | true =>
        cases ran
        exact ⟨[], rfl, reads_nothing _⟩
    | false =>
        obtain ⟨_, t', _, finished⟩ := bind_ok_inv ran
        cases finished
  some pieces _ spelled := (type_opens spelled).some

theorem plain_types_give : Gives Clause.types.Spelled plainTypes := by
  have loop : Gives (fun pieces => pieces = [] ∨ Clause.types.Spelled pieces) (repeatWhile nextType) := by
    apply type_round.gives
    · exact fun pieces _ none => .inl none
    · rintro one rest _ spelled (rfl | later)
      · rw [List.append_nil]
        exact .inr (.lastType spelled)
      · exact .inr (.moreTypes spelled later)
  intro s u ran
  have drained : u.rest = [] := repeat_types_drains _ s u (Nat.lt_succ_self _) (plain_types_loop s u ran)
  obtain ⟨pieces, found, reads⟩ := loop s u (plain_types_loop s u ran)
  refine ⟨pieces, found.resolve_left ?_, reads⟩
  rintro rfl
  have empty : s.rest = [] := reads.rest.trans drained
  rw [plainTypes, bind_ok (show atEnd s = .ok true s by simp [atEnd, empty])] at ran
  cases ran

theorem method_type_gives : Gives Clause.body.Spelled methodType := by
  intro s u ran
  obtain ⟨t, opened, ran⟩ := expected_inv ran
  obtain ⟨_, t', ranOperands, ran⟩ := bind_ok_inv ran
  obtain ⟨operands, taken, readOperands⟩ := operands_give t t' ranOperands
  have before := reads_further opened readOperands
  -- the exceptions, and nothing after them
  have throws : ∀ v, (do
      repeatWhile (nextReference '^')
      unless ← atEnd do fail : Parse Unit) v = .ok () u →
        ∃ thrown, (Clause.references '^').Spelled thrown ∧ Reads v thrown u := by
    intro v ran
    obtain ⟨_, w, ranThrows, ran⟩ := bind_ok_inv ran
    obtain ⟨thrown, ⟨spelled, _⟩, reads⟩ := references_give '^' v w ranThrows
    obtain ⟨done, w', asked, finished⟩ := bind_ok_inv ran
    obtain ⟨rfl, _⟩ := at_end_inv asked
    cases done with
    | false => cases finished
    | true =>
        cases finished
        exact ⟨thrown, spelled, reads⟩
  rcases accepted_inv ran with ⟨v, void, ran⟩ | ⟨_, ran⟩
  · obtain ⟨thrown, spelled, reads⟩ := throws v ran
    exact ⟨_, .procedure taken spelled, reads_further before (reads_further void reads)⟩
  · obtain ⟨_, v, ranResult, ran⟩ := bind_ok_inv ran
    obtain ⟨result, given, readResult⟩ := any_type_gives t' v ranResult
    obtain ⟨thrown, spelled, reads⟩ := throws v ran
    exact ⟨_, .method taken given spelled, reads_further before (reads_further readResult reads)⟩

theorem signature_gives : Gives Clause.signature.Spelled signature := by
  have body : Gives Clause.body.Spelled (do if ← startsWith '(' then methodType else plainTypes) := by
    refine gives_choice (starts_with_still '(') method_type_gives fun s t ran => ?_
    obtain ⟨pieces, spelled, reads⟩ := plain_types_give s t ran
    exact ⟨pieces, .plain spelled, reads⟩
  refine gives_choice (starts_with_still '<') ?_ ?_
  · intro s u ran
    obtain ⟨_, t, ranParameters, ran⟩ := bind_ok_inv ran
    obtain ⟨t', opened, ranParameters⟩ := expected_inv ranParameters
    obtain ⟨parameters, bound, readParameters⟩ := parameters_give t' t ranParameters
    obtain ⟨pieces, spelled, reads⟩ := body t u ran
    exact ⟨_, .generic bound spelled, reads_further opened (reads_further readParameters reads)⟩
  · intro s u ran
    obtain ⟨pieces, spelled, reads⟩ := body s u ran
    exact ⟨pieces, .bare spelled, reads⟩

end Relabel.Signature
