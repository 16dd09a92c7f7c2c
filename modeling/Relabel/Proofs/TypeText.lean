import Relabel.Proofs.Steps
import Relabel.TypeText.Descriptor
import Relabel.TypeText.Signature

set_option autoImplicit false

namespace Relabel

theorem simple_in_new (owner : Name) (simple old : Bytes) (some : simple ≠ []) :
    owner.simpleIn (owner.nested simple) old = simple := by
  have length : (owner.nested simple).length = owner.length + 1 + simple.length := by
    simp only [Name.nested, Name.length, List.length_append, List.length_cons]
    omega
  have nestedBytes : (owner.nested simple).bytes = (owner.bytes ++ ['$'.toUInt8]) ++ simple := by
    simp only [Name.nested, List.append_assoc, List.singleton_append]
  have long : owner.length + 1 < (owner.nested simple).length := by
    have positive := List.length_pos_iff.mpr some
    omega
  have starts : (owner.nested simple).startsWith (owner.bytes ++ ['$'.toUInt8]) = true := by
    rw [Name.startsWith, nestedBytes]
    simp
  have size : owner.length + 1 = (owner.bytes ++ ['$'.toUInt8]).length := by simp [Name.length]
  rw [Name.simpleIn, if_pos ⟨long, starts⟩, nestedBytes, size, List.drop_left]

theorem simple_in_nested (owner : Name) (simple : Bytes) : owner.simpleIn (owner.nested simple) simple = simple := by
  by_cases empty : simple = []
  · have short : ¬ (owner.length + 1 < (owner.nested simple).length ∧
        (owner.nested simple).startsWith (owner.bytes ++ ['$'.toUInt8])) := by
      simp [empty, Name.nested, Name.length]
    rw [Name.simpleIn, if_neg short, if_pos (by simp [empty])]
  · exact simple_in_new owner simple simple empty

namespace Piece

def text : Piece → Bytes
  | .copied bytes => bytes
  | .outer name => name.bytes
  | .inner _ simple => simple

def lookup? : Piece → Option Name
  | .copied _ => none
  | .outer name => some name
  | .inner owner simple => some (owner.nested simple)

def render (rename : Name → Name) : Piece → Bytes
  | .copied bytes => bytes
  | .outer name => (rename name).bytes
  | .inner owner simple => (rename owner).simpleIn (rename (owner.nested simple)) simple

def renamed (rename : Name → Name) : Piece → Piece
  | .copied bytes => .copied bytes
  | .outer name => .outer (rename name)
  | .inner owner simple => .inner (rename owner) ((rename owner).simpleIn (rename (owner.nested simple)) simple)

theorem renamed_text (rename : Name → Name) (piece : Piece) : (piece.renamed rename).text = piece.render rename := by
  cases piece with
  | copied | outer | inner => rfl

/-- Every inner class has a name, and its owner is known or asked for before it. -/
inductive Owned : List Name → List Piece → Prop where
  | nil {known : List Name} : Owned known []
  | copied {known : List Name} {rest : List Piece} (bytes : Bytes) (later : Owned known rest) :
      Owned known (.copied bytes :: rest)
  | outer {known : List Name} {rest : List Piece} (name : Name) (later : Owned (name :: known) rest) :
      Owned known (.outer name :: rest)
  | inner {known : List Name} {rest : List Piece} {owner : Name} {simple : Bytes} (named : simple ≠ [])
      (within : owner ∈ known) (later : Owned (owner.nested simple :: known) rest) :
      Owned known (.inner owner simple :: rest)

section

variable {known : List Name} {pieces front back : List Piece}

theorem Owned.more {more : List Name} (owned : Owned known pieces) (subset : known ⊆ more) : Owned more pieces := by
  induction owned generalizing more with
  | nil => exact .nil
  | copied bytes _ ih => exact .copied bytes (ih subset)
  | outer name _ ih => exact .outer name (ih (List.cons_subset_cons name subset))
  | inner named within _ ih => exact .inner named (subset within) (ih (List.cons_subset_cons _ subset))

theorem Owned.append (first : Owned known front) (second : Owned known back) : Owned known (front ++ back) := by
  induction first with
  | nil => exact second
  | copied bytes _ ih => exact .copied bytes (ih second)
  | outer name _ ih => exact .outer name (ih (second.more (List.subset_cons_self _ _)))
  | inner named within _ ih => exact .inner named within (ih (second.more (List.subset_cons_self _ _)))

theorem Owned.asked (owned : Owned known pieces) {owner : Name} {simple : Bytes} (member : .inner owner simple ∈ pieces) :
    simple ≠ [] ∧ owner ∈ known ++ pieces.filterMap lookup? := by
  induction owned with
  | nil => cases member
  | copied bytes _ ih => exact ih (by simpa using member)
  | outer name _ ih =>
      obtain ⟨some, found⟩ := ih (by simpa using member)
      exact ⟨some, by simpa [lookup?, or_left_comm] using found⟩
  | inner named within _ ih =>
      cases member with
      | head => exact ⟨named, List.mem_append_left _ within⟩
      | tail _ later =>
          obtain ⟨some, found⟩ := ih later
          exact ⟨some, by simpa [lookup?, or_left_comm] using found⟩

end

def Written.bytes (written : Written) : Bytes := written.parts.reverse.flatten

section

variable (rename : Name → Name)

def writeNext (written : Written) (piece : Piece) : Written :=
  Id.run (write (fun name => pure (rename name)) written piece)

theorem write_all_steps (pieces : List Piece) :
    Id.run (writeAll (fun name => pure (rename name)) pieces) = (pieces.foldl (writeNext rename) {}).bytes := by
  change (Id.run (pieces.foldlM (write fun name => pure (rename name)) {})).bytes = _
  rw [List.idRun_foldlM]
  rfl

theorem write_recorded (written : Written) (piece : Piece) (asked : List Name) :
    (write (record rename) written piece).run asked = (writeNext rename written piece, piece.lookup?.toList ++ asked) := by
  cases piece with
  | copied | outer | inner => rfl

theorem write_steps_recorded (pieces : List Piece) (written : Written) (asked : List Name) :
    (pieces.foldlM (write (record rename)) written).run asked =
      (pieces.foldl (writeNext rename) written, (pieces.filterMap lookup?).reverse ++ asked) := by
  induction pieces generalizing written asked with
  | nil => rfl
  | cons piece rest ih =>
      rw [List.foldlM_cons, StateT.run_bind, write_recorded]
      refine (ih _ _).trans ?_
      cases piece with
      | copied bytes => rfl
      | outer name | inner owner simple => simp [lookup?]

theorem write_all_recorded (pieces : List Piece) :
    (writeAll (record rename) pieces).run [] =
      (Id.run (writeAll (fun name => pure (rename name)) pieces), (pieces.filterMap lookup?).reverse) := by
  rw [writeAll, StateT.run_bind, write_steps_recorded, write_all_steps, List.append_nil]
  rfl

end

def Written.Answers (rename : Name → Name) (written : Written) (name : Name) : Prop :=
  (written.answers.lookup name).getD name = rename name

section

variable {rename : Name → Name} {written : Written}

theorem answers_asked {piece : Piece} {name : Name} (asked : piece.lookup? = some name) :
    (writeNext rename written piece).Answers rename name := by
  cases piece with
  | copied bytes => cases asked
  | outer other | inner owner simple =>
      cases asked
      simp [writeNext, write, Written.Answers]

theorem answers_next {name : Name} (answers : written.Answers rename name) (piece : Piece) :
    (writeNext rename written piece).Answers rename name := by
  by_cases asked : piece.lookup? = some name
  · exact answers_asked asked
  · cases piece with
    | copied bytes => exact answers
    | outer other | inner owner simple =>
        have apart : (name == _) = false := beq_eq_false_iff_ne.mpr fun same => asked (congrArg some same.symm)
        simpa [writeNext, write, Written.Answers, List.lookup_cons, apart] using answers

theorem answers_all_next {known : List Name} {piece : Piece} {name : Name} (asked : piece.lookup? = some name)
    (answers : ∀ name ∈ known, written.Answers rename name) :
    ∀ other ∈ name :: known, (writeNext rename written piece).Answers rename other := by
  intro other member
  cases member with
  | head => exact answers_asked asked
  | tail _ old => exact answers_next (answers other old) piece

theorem write_next_bytes (piece : Piece)
    (known : ∀ owner simple, piece = .inner owner simple → written.Answers rename owner) :
    (writeNext rename written piece).bytes = written.bytes ++ piece.render rename := by
  cases piece with
  | copied bytes | outer name => simp [writeNext, write, Written.bytes, render]
  | inner owner simple =>
      have answers : (written.answers.lookup owner).getD owner = rename owner := known owner simple rfl
      simp [writeNext, write, Written.bytes, render, answers]

theorem write_steps_owned {known : List Name} {pieces : List Piece} (owned : Owned known pieces)
    (answers : ∀ name ∈ known, written.Answers rename name) :
    (pieces.foldl (writeNext rename) written).bytes = written.bytes ++ pieces.flatMap (render rename) := by
  induction owned generalizing written with
  | nil => simp
  | copied bytes later ih =>
      rw [List.foldl_cons, ih fun name member => answers_next (answers name member) _, write_next_bytes _ (by simp)]
      simp
  | outer name later ih =>
      rw [List.foldl_cons, ih (answers_all_next rfl answers), write_next_bytes _ (by simp)]
      simp
  | @inner _ _ owner simple named within later ih =>
      rw [List.foldl_cons, ih (answers_all_next rfl answers), write_next_bytes]
      · simp
      · rintro _ _ ⟨⟩
        exact answers owner within

theorem write_all_owned {pieces : List Piece} (owned : Owned [] pieces) :
    Id.run (writeAll (fun name => pure (rename name)) pieces) = pieces.flatMap (render rename) := by
  rw [write_all_steps, write_steps_owned owned (by simp)]
  rfl

theorem render_fixed (fixed : ∀ name, rename name = name) : render rename = text := by
  funext piece
  cases piece with
  | copied bytes => rfl
  | outer name => rw [render, fixed, text]
  | inner owner simple => rw [render, fixed, fixed, simple_in_nested, text]

theorem write_steps_fixed (pieces : List Piece) (answers : ∀ name, written.Answers rename name) :
    (pieces.foldl (writeNext rename) written).bytes = written.bytes ++ pieces.flatMap (render rename) := by
  induction pieces generalizing written with
  | nil => simp
  | cons piece rest ih =>
      rw [List.foldl_cons, ih fun name => answers_next (answers name) piece, write_next_bytes _ fun owner _ _ => answers owner]
      simp

theorem write_all_fixed (fixed : ∀ name, rename name = name) (pieces : List Piece) :
    Id.run (writeAll (fun name => pure (rename name)) pieces) = pieces.flatMap text := by
  have answers : ∀ name, Written.Answers rename {} name := fun name => (fixed name).symm
  rw [write_all_steps, write_steps_fixed pieces answers, render_fixed fixed]
  rfl

end

end Piece

namespace Descriptor

def Machine.text (m : Machine) : Bytes := m.finish.flatMap Piece.text

theorem step_text (m : Machine) (b : UInt8) : (m.step b).text = m.text ++ [b] := by
  obtain ⟨done, name⟩ := m
  cases name with
  | none =>
      by_cases opens : b = 'L'.toUInt8
      · simp [Machine.step, Machine.text, Machine.finish, opens, Piece.text]
      · simp [Machine.step, Machine.text, Machine.finish, opens, Piece.text]
  | some name =>
      by_cases closes : b = ';'.toUInt8
      · simp [Machine.step, Machine.text, Machine.finish, closes, Piece.text]
      · simp [Machine.step, Machine.text, Machine.finish, closes, Piece.text]

theorem run_text (bytes : Bytes) (m : Machine) : (bytes.foldl Machine.step m).text = m.text ++ bytes := by
  induction bytes generalizing m with
  | nil => simp
  | cons b rest ih => rw [List.foldl_cons, ih, step_text, List.append_assoc, List.singleton_append]

theorem pieces_text (bytes : Bytes) : (pieces bytes).flatMap Piece.text = bytes := run_text bytes ⟨[], none⟩

theorem recorded_lookups (rename : Name → Name) (descriptor : Name) :
    (renameWith (Piece.record rename) descriptor).run [] =
      (Descriptor.rename rename descriptor, ((pieces descriptor.bytes).filterMap Piece.lookup?).reverse) := by
  rw [renameWith, StateT.run_bind, Piece.write_all_recorded]
  rfl

theorem class_names_eq (descriptor : Name) : classNames descriptor = (pieces descriptor.bytes).filterMap Piece.lookup? := by
  rw [classNames, recorded_lookups, List.reverse_reverse]

theorem rename_recorded (rename : Name → Name) (descriptor : Name) :
    (renameWith (Piece.record rename) descriptor).run [] =
      (Descriptor.rename rename descriptor, (classNames descriptor).reverse) := by
  rw [recorded_lookups, class_names_eq]

theorem rename_fixed (rename : Name → Name) (fixed : ∀ name, rename name = name) (descriptor : Name) :
    Descriptor.rename rename descriptor = descriptor := by
  change Name.mk (Id.run (Piece.writeAll _ _)) = _
  rw [Piece.write_all_fixed fixed, pieces_text]

end Descriptor

namespace Signature

def State.text (s : State) : Bytes := s.pieces.reverse.flatMap Piece.text

theorem text_cons (rest : Bytes) (pieces : List Piece) (piece : Piece) :
    State.text ⟨rest, piece :: pieces⟩ = State.text ⟨rest, pieces⟩ ++ piece.text := by
  simp [State.text]

structure Moved (s : State) (bytes : Bytes) (t : State) : Prop where
  rest : s.rest = bytes ++ t.rest
  text : t.text = s.text ++ bytes

theorem moved_nothing (s : State) : Moved s [] s := ⟨rfl, (List.append_nil _).symm⟩

theorem moved_further {s t u : State} {left right : Bytes} (first : Moved s left t) (second : Moved t right u) :
    Moved s (left ++ right) u where
  rest := by rw [first.rest, second.rest, List.append_assoc]
  text := by rw [second.text, first.text, List.append_assoc]

variable {α β : Type}

def Moves (least : Nat) (act : Parse α) : Prop :=
  ∀ s a t, act s = .ok a t → ∃ bytes, Moved s bytes t ∧ least ≤ bytes.length

def Tests (act : Parse Bool) : Prop :=
  ∀ s a t, act s = .ok a t → ∃ bytes, Moved s bytes t ∧ (a = true → 1 ≤ bytes.length)

theorem moves_still {act : Parse α} (still : ∀ s a t, act s = .ok a t → t = s) : Moves 0 act := by
  intro s a t ran
  rw [still s a t ran]
  exact ⟨[], moved_nothing s, Nat.le_refl 0⟩

theorem moves_pure (a : α) : Moves 0 (pure a : Parse α) := moves_still fun _ _ _ ran => by cases ran; rfl

theorem moves_starts_with (c : Char) : Moves 0 (startsWith c) := moves_still fun _ _ _ ran => by cases ran; rfl

theorem moves_at_end : Moves 0 atEnd := moves_still fun _ _ _ ran => by cases ran; rfl

theorem moves_get : Moves 0 (get : Parse State) := moves_still fun _ _ _ ran => by cases ran; rfl

theorem moves_fail (least : Nat) : Moves least (fail : Parse α) := fun _ _ _ ran => nomatch ran

theorem moves_any {least : Nat} {act : Parse α} (moves : Moves least act) : Moves 0 act := by
  intro s a t ran
  obtain ⟨bytes, moved, _⟩ := moves s a t ran
  exact ⟨bytes, moved, Nat.zero_le _⟩

theorem moves_bind {first second : Nat} {x : Parse α} {f : α → Parse β} (one : Moves first x)
    (other : ∀ a, Moves second (f a)) : Moves (first + second) (x >>= f) := by
  intro s b u ran
  obtain ⟨a, t, ranOne, ranOther⟩ := bind_ok_inv ran
  obtain ⟨left, moved, many⟩ := one s a t ranOne
  obtain ⟨right, movedOn, more⟩ := other a t b u ranOther
  refine ⟨left ++ right, moved_further moved movedOn, ?_⟩
  rw [List.length_append]
  omega

theorem moves_then {least : Nat} {x : Parse α} {f : α → Parse β} (one : Moves 0 x)
    (other : ∀ a, Moves least (f a)) : Moves least (x >>= f) := by
  have both := moves_bind one other
  rwa [Nat.zero_add] at both

theorem moves_first {least : Nat} {x : Parse α} {f : α → Parse β} (one : Moves least x)
    (other : ∀ a, Moves 0 (f a)) : Moves least (x >>= f) := moves_bind one other

theorem moves_if {least : Nat} {test : Parse Bool} {yes no : Parse α} (tests : Tests test)
    (found : Moves (least - 1) yes) (other : Moves least no) :
    Moves least (do if ← test then yes else no) := by
  intro s b u ran
  obtain ⟨answer, t, ranTest, ranRest⟩ := bind_ok_inv ran
  obtain ⟨left, moved, one⟩ := tests s answer t ranTest
  have onward : ∃ right, Moved t right u ∧ least ≤ left.length + right.length := by
    cases answer with
    | true =>
        obtain ⟨right, movedOn, many⟩ := found t b u ranRest
        have positive := one rfl
        exact ⟨right, movedOn, by omega⟩
    | false =>
        obtain ⟨right, movedOn, many⟩ := other t b u ranRest
        exact ⟨right, movedOn, by omega⟩
  obtain ⟨right, movedOn, many⟩ := onward
  exact ⟨left ++ right, moved_further moved movedOn, by rwa [List.length_append]⟩

theorem moves_choice {least : Nat} {test : Parse Bool} {yes no : Parse α} (asked : Moves 0 test)
    (found : Moves least yes) (other : Moves least no) : Moves least (do if ← test then yes else no) := by
  refine moves_then asked fun answer => ?_
  cases answer with
  | true => exact found
  | false => exact other

theorem tests_copy (wanted : UInt8 → Prop) [DecidablePred wanted] :
    Tests fun s => match s.rest with
      | [] => .ok false s
      | b :: rest => if wanted b then .ok true ⟨rest, .copied [b] :: s.pieces⟩ else .ok false s := by
  intro s a t ran
  obtain ⟨rest, pieces⟩ := s
  cases rest with
  | nil =>
      cases ran
      exact ⟨[], moved_nothing _, fun yes => nomatch yes⟩
  | cons b rest =>
      dsimp only at ran
      by_cases found : wanted b
      · rw [if_pos found] at ran
        cases ran
        exact ⟨[b], ⟨rfl, text_cons rest pieces (.copied [b])⟩, fun _ => Nat.le_refl 1⟩
      · rw [if_neg found] at ran
        cases ran
        exact ⟨[], moved_nothing _, fun yes => nomatch yes⟩

theorem tests_accept (c : Char) : Tests (accept c) := tests_copy (· = c.toUInt8)

theorem tests_primitive : Tests primitive := tests_copy (· ∈ primitives)

theorem moves_accept (c : Char) : Moves 0 (accept c) := by
  intro s a t ran
  obtain ⟨bytes, moved, _⟩ := tests_accept c s a t ran
  exact ⟨bytes, moved, Nat.zero_le _⟩

theorem moves_expect (c : Char) : Moves 1 (expect c) := moves_if (tests_accept c) (moves_pure ()) (moves_fail 1)

theorem moves_taken {least : Nat} {stops : Bytes} {piece : Bytes → Piece} {f : Bytes → Parse α}
    (same : ∀ run, (piece run).text = run) (rest : ∀ run, Moves least (f run)) :
    Moves least (do
      let run ← takeUntil stops
      emit (piece run)
      f run) := by
  intro s a u ran
  obtain ⟨run, t, took, ran⟩ := bind_ok_inv ran
  obtain ⟨_, shown, emitted, ran⟩ := bind_ok_inv ran
  obtain ⟨right, movedOn, many⟩ := rest run shown a u ran
  cases emitted
  by_cases empty : (s.rest.takeWhile (· ∉ stops)).isEmpty
  · rw [takeUntil, if_pos empty] at took
    cases took
  · rw [takeUntil, if_neg empty] at took
    cases took
    have moved : Moved s (s.rest.takeWhile (· ∉ stops))
        ⟨s.rest.dropWhile (· ∉ stops), piece (s.rest.takeWhile (· ∉ stops)) :: s.pieces⟩ :=
      ⟨List.takeWhile_append_dropWhile.symm, by rw [text_cons, same]; rfl⟩
    refine ⟨_, moved_further moved movedOn, ?_⟩
    rw [List.length_append]
    omega

theorem moves_identifier : Moves 0 identifier := by
  have whole : Moves 0 (do
      let run ← takeUntil identifierStops
      emit (.copied run)
      pure ()) := moves_taken (fun _ => rfl) fun _ => moves_pure ()
  exact whole

theorem moves_repeat_for (fuel : Nat) {step : Parse Bool} (moves : Moves 0 step) : Moves 0 (repeatFor fuel step) := by
  induction fuel with
  | zero => exact moves_still fun _ _ _ ran => by cases ran; rfl
  | succ fuel ih =>
      intro s a u ran
      rw [repeatFor] at ran
      cases took : step s with
      | error e t =>
          rw [took] at ran
          cases ran
      | ok more t =>
          obtain ⟨left, moved, _⟩ := moves s more t took
          rw [took] at ran
          cases more with
          | false =>
              cases ran
              exact ⟨left, moved, Nat.zero_le _⟩
          | true =>
              obtain ⟨right, movedOn, _⟩ := ih t a u ran
              exact ⟨left ++ right, moved_further moved movedOn, Nat.zero_le _⟩

theorem moves_repeat {step : Parse Bool} (moves : Moves 0 step) : Moves 0 (repeatWhile step) :=
  fun s a t ran => moves_repeat_for (s.rest.length + 1) moves s a t ran

theorem moves_named_type {classType : Parse Unit} (moves : Moves 1 classType) : Moves 1 (namedType classType) := by
  refine moves_choice (moves_starts_with 'L') moves ?_
  exact moves_first (moves_expect 'T') fun _ => moves_then moves_identifier fun _ => moves_any (moves_expect ';')

theorem moves_reference_type {classType : Parse Unit} (moves : Moves 1 classType) :
    Moves 1 (referenceType classType) := by
  refine moves_if (tests_accept '[') ?_ (moves_named_type moves)
  refine moves_then (moves_repeat (moves_accept '[')) fun _ => ?_
  exact moves_if tests_primitive (moves_pure ()) (moves_any (moves_named_type moves))

theorem moves_type_arguments {reference : Parse Unit} (moves : Moves 1 reference) :
    Moves 0 (typeArguments reference) := by
  have argument : Moves 0 (do reference; return true) := moves_then (moves_any moves) fun _ => moves_pure true
  refine moves_then (moves_any (moves_expect '<')) fun _ => moves_repeat ?_
  refine moves_if (tests_accept '>') (moves_pure false) (moves_if (tests_accept '*') (moves_pure true) ?_)
  exact moves_if (tests_accept '+') argument (moves_then (moves_accept '-') fun _ => argument)

theorem moves_arguments_here {reference : Parse Unit} (moves : Moves 1 reference) :
    Moves 0 (argumentsHere reference) :=
  moves_choice (moves_starts_with '<') (moves_type_arguments moves) (moves_pure ())

theorem moves_inner_types {reference : Parse Unit} (moves : Moves 1 reference) (fuel : Nat) (owner : Name) :
    Moves 0 (innerTypes reference fuel owner) := by
  induction fuel generalizing owner with
  | zero => exact moves_pure ()
  | succ fuel ih =>
      refine moves_if (tests_accept '.') ?_ (moves_pure ())
      refine moves_taken (fun _ => rfl) fun simple => ?_
      exact moves_then (moves_arguments_here moves) fun _ => ih (owner.nested simple)

theorem moves_class_type (levels : Nat) : Moves 1 (classType levels) := by
  induction levels with
  | zero => exact moves_fail 1
  | succ levels ih =>
      have reference := moves_reference_type ih
      have named : ∀ run : Bytes, (Piece.outer ⟨run⟩).text = run := fun _ => rfl
      refine moves_first (moves_expect 'L') fun _ => moves_taken named fun run => ?_
      refine moves_then (moves_arguments_here reference) fun _ => moves_then moves_get fun s => ?_
      exact moves_then (moves_inner_types reference _ ⟨run⟩) fun _ => moves_any (moves_expect ';')

theorem moves_reference : Moves 1 reference := moves_reference_type (moves_class_type maxNesting)

theorem moves_any_type : Moves 1 anyType := moves_if tests_primitive (moves_pure ()) moves_reference

theorem moves_bounds : Moves 0 bounds := by
  have more : Moves 0 (repeatWhile do
      if ← accept ':' then
        reference
        return true
      else return false) := by
    refine moves_repeat (moves_if (tests_accept ':') ?_ (moves_pure false))
    exact moves_then (moves_any moves_reference) fun _ => moves_pure true
  refine moves_then (moves_any (moves_expect ':')) fun _ => moves_then (moves_starts_with ':') fun first => ?_
  refine moves_then (moves_starts_with '>') fun second => ?_
  cases first || second with
  | true => exact more
  | false => exact moves_then (moves_any moves_reference) fun _ => more

theorem moves_type_parameters : Moves 0 typeParameters := by
  refine moves_then (moves_any (moves_expect '<')) fun _ => moves_repeat ?_
  refine moves_if (tests_accept '>') (moves_pure false) ?_
  exact moves_then moves_identifier fun _ => moves_then moves_bounds fun _ => moves_pure true

theorem moves_method_type : Moves 0 methodType := by
  have result : Moves 0 (do
      repeatWhile do
        if ← accept '^' then
          reference
          return true
        else return false
      unless ← atEnd do fail) := by
    refine moves_then (moves_repeat (moves_if (tests_accept '^') ?_ (moves_pure false))) fun _ => ?_
    · exact moves_then (moves_any moves_reference) fun _ => moves_pure true
    · exact moves_choice moves_at_end (moves_pure ()) (moves_fail 0)
  refine moves_then (moves_any (moves_expect '(')) fun _ => moves_then (moves_repeat ?_) fun _ => ?_
  · refine moves_if (tests_accept ')') (moves_pure false) ?_
    exact moves_then (moves_any moves_any_type) fun _ => moves_pure true
  · exact moves_if (tests_accept 'V') result (moves_then (moves_any moves_any_type) fun _ => result)

theorem at_end_inv {s t : State} {done : Bool} (asked : atEnd s = .ok done t) :
    t = s ∧ (done = true → s.rest = []) := by
  injection asked with answer same
  refine ⟨same.symm, fun yes => ?_⟩
  rw [yes] at answer
  exact List.isEmpty_iff.mp answer

def nextType : Parse Bool := do
  if ← atEnd then return false
  anyType
  return true

theorem moves_next_type : Moves 0 nextType :=
  moves_choice moves_at_end (moves_pure false) (moves_then (moves_any moves_any_type) fun _ => moves_pure true)

theorem plain_types_loop (s t : State) (ran : plainTypes s = .ok () t) : repeatWhile nextType s = .ok () t := by
  obtain ⟨done, same, asked, rest⟩ := bind_ok_inv ran
  cases done with
  | true => cases rest
  | false =>
      obtain ⟨rfl, _⟩ := at_end_inv asked
      exact rest

theorem moves_signature : Moves 0 signature := by
  have plain : Moves 0 plainTypes := fun s a t ran => moves_repeat moves_next_type s a t (plain_types_loop s t ran)
  have main : Moves 0 (do if ← startsWith '(' then methodType else plainTypes) :=
    moves_choice (moves_starts_with '(') moves_method_type plain
  exact moves_choice (moves_starts_with '<') (moves_then moves_type_parameters fun _ => main) main

theorem next_type_advances (s t : State) (ran : nextType s = .ok true t) : t.rest.length < s.rest.length := by
  obtain ⟨done, same, asked, rest⟩ := bind_ok_inv ran
  cases done with
  | true => cases rest
  | false =>
      obtain ⟨_, _, typed, finished⟩ := bind_ok_inv rest
      obtain ⟨rfl, _⟩ := at_end_inv asked
      cases finished
      obtain ⟨bytes, moved, some⟩ := moves_any_type _ _ _ typed
      rw [moved.rest, List.length_append]
      omega

theorem next_type_stops (s t : State) (ran : nextType s = .ok false t) : t.rest = [] := by
  obtain ⟨done, same, asked, rest⟩ := bind_ok_inv ran
  cases done with
  | true =>
      cases rest
      obtain ⟨rfl, drained⟩ := at_end_inv asked
      exact drained rfl
  | false =>
      obtain ⟨_, _, _, finished⟩ := bind_ok_inv rest
      cases finished

theorem repeat_types_drains (fuel : Nat) (s t : State) (enough : s.rest.length < fuel)
    (ran : repeatFor fuel nextType s = .ok () t) : t.rest = [] := by
  -- As each round takes a byte, the rounds allowed for do not run out before the bytes.
  induction fuel generalizing s with
  | zero => exact absurd enough (Nat.not_lt_zero _)
  | succ fuel ih =>
      rw [repeatFor] at ran
      cases took : nextType s with
      | error e middle =>
          rw [took] at ran
          cases ran
      | ok more middle =>
          rw [took] at ran
          cases more with
          | true =>
              have shorter := next_type_advances s middle took
              exact ih middle (by omega) ran
          | false =>
              cases ran
              exact next_type_stops s _ took

def Drains (act : Parse Unit) : Prop := ∀ s t, act s = .ok () t → t.rest = []

theorem drains_last {x : Parse α} {f : α → Parse Unit} (last : ∀ a, Drains (f a)) : Drains (x >>= f) := by
  intro s u ran
  obtain ⟨a, t, _, rest⟩ := bind_ok_inv ran
  exact last a t u rest

theorem drains_either {yes no : Parse Unit} (found : Drains yes) (other : Drains no) (answer : Bool) :
    Drains (if answer = true then yes else no) := by
  cases answer with
  | true => exact found
  | false => exact other

theorem method_type_drains : Drains methodType := by
  have ended : Drains (do unless ← atEnd do fail) := by
    intro s t ran
    obtain ⟨done, same, asked, rest⟩ := bind_ok_inv ran
    cases done with
    | false => cases rest
    | true =>
        cases rest
        obtain ⟨rfl, drained⟩ := at_end_inv asked
        exact drained rfl
  refine drains_last fun _ => drains_last fun _ => drains_last fun void => ?_
  exact drains_either (drains_last fun _ => ended) (drains_last fun _ => drains_last fun _ => ended) void

theorem signature_drains : Drains signature := by
  have plain : Drains plainTypes := fun s t ran =>
    repeat_types_drains (s.rest.length + 1) s t (Nat.lt_succ_self _) (plain_types_loop s t ran)
  have main : Drains (do if ← startsWith '(' then methodType else plainTypes) :=
    drains_last (drains_either method_type_drains plain)
  exact drains_last (drains_either (drains_last fun _ => main) main)

theorem recorded_lookups (rename : Name → Name) (signature : Name) :
    (renameWith (Piece.record rename) signature).run [] =
      (Signature.rename rename signature, ((read signature.bytes).1.filterMap Piece.lookup?).reverse) := by
  rw [renameWith, StateT.run_bind, Piece.write_all_recorded, Signature.rename, renameWith, Id.run_bind]
  cases (read signature.bytes).2 with
  | none | some position => rfl

theorem class_names_eq (signature : Name) :
    classNames signature = (read signature.bytes).1.filterMap Piece.lookup? := by
  rw [classNames, recorded_lookups, List.reverse_reverse]

/-- Renaming asks for the class names one by one and in order, whatever it is answered; where it
fails, those before the fault. -/
theorem rename_recorded (rename : Name → Name) (signature : Name) :
    (renameWith (Piece.record rename) signature).run [] =
      (Signature.rename rename signature, (classNames signature).reverse) := by
  rw [recorded_lookups, class_names_eq]

section

variable {rename : Name → Name} {signature : Name} {pieces : List Piece}

theorem rename_rejected {position : Nat} (failed : read signature.bytes = (pieces, some position)) :
    Signature.rename rename signature = .error (.malformedSignature signature.bytes position) := by
  rw [Signature.rename, renameWith, failed]
  rfl

theorem rename_accepted (done : read signature.bytes = (pieces, none)) :
    Signature.rename rename signature = .ok ⟨Id.run (Piece.writeAll (fun name => pure (rename name)) pieces)⟩ := by
  rw [Signature.rename, renameWith, done]
  rfl

end

theorem read_text {bytes : Bytes} {pieces : List Piece} (done : read bytes = (pieces, none)) :
    pieces.flatMap Piece.text = bytes := by
  cases ran : Signature.signature ⟨bytes, []⟩ with
  | error e t =>
      rw [read, ran] at done
      cases done
  | ok a t =>
      obtain ⟨moving, moved, _⟩ := moves_signature _ _ _ ran
      have drained := signature_drains _ _ ran
      have whole : bytes = moving := by simpa [drained] using moved.rest
      rw [read, ran] at done
      cases done
      simpa [State.text, whole] using moved.text

theorem rename_fixed (rename : Name → Name) (fixed : ∀ name, rename name = name) (signature renamed : Name)
    (ran : Signature.rename rename signature = .ok renamed) : renamed = signature := by
  cases done : read signature.bytes with
  | mk pieces fault =>
      cases fault with
      | some position =>
          rw [rename_rejected done] at ran
          cases ran
      | none =>
          rw [rename_accepted done, Piece.write_all_fixed fixed, read_text done] at ran
          cases ran
          rfl

end Signature

end Relabel
