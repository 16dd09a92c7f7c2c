import Relabel.Proofs.SignatureReading

set_option autoImplicit false

namespace Relabel.Signature

section

variable {α : Type} {s t : State}

theorem choice_yes {test : Parse Bool} {yes no : Parse α} (asked : test s = .ok true t) :
    (do if ← test then yes else no : Parse α) s = yes t := by
  rw [bind_ok asked]
  rfl

theorem choice_no {test : Parse Bool} {yes no : Parse α} (asked : test s = .ok false t) :
    (do if ← test then yes else no : Parse α) s = no t := by
  rw [bind_ok asked]
  rfl

theorem accept_here {c : Char} (reads : Reads s [mark c] t) : accept c s = .ok true t := by
  obtain ⟨rest, done⟩ := s
  obtain ⟨left, read⟩ := t
  obtain rfl : rest = c.toUInt8 :: left := reads.rest
  obtain rfl : read = mark c :: done := reads.pieces
  exact if_pos rfl

theorem accept_other {c : Char} (other : s.rest.head? ≠ some c.toUInt8) : accept c s = .ok false s := by
  obtain ⟨rest, done⟩ := s
  cases rest with
  | nil => rfl
  | cons b rest => exact if_neg fun same => other (congrArg some same)

theorem expect_here {c : Char} (reads : Reads s [mark c] t) : expect c s = .ok () t := choice_yes (accept_here reads)

theorem starts_here {c : Char} (reads : Reads s [mark c] t) : startsWith c s = .ok true s := by
  rw [startsWith, reads.rest, text_of_mark]
  simp

theorem starts_other {c : Char} (other : s.rest.head? ≠ some c.toUInt8) : startsWith c s = .ok false s := by
  simp [startsWith, other]

section

variable {marks : Bytes} {c : Char} {yes no : Parse α} (opens : Opens marks s.rest) (apart : c.toUInt8 ∉ marks)

include opens apart

theorem unmarked : (do if ← accept c then yes else no : Parse α) s = no s := choice_no (accept_other (opens.other apart))

theorem unstarted : (do if ← startsWith c then yes else no : Parse α) s = no s := choice_no (starts_other (opens.other apart))

end

theorem primitive_here {code : UInt8} (known : code ∈ primitives) (reads : Reads s [.copied [code]] t) :
    primitive s = .ok true t := by
  obtain ⟨rest, done⟩ := s
  obtain ⟨left, read⟩ := t
  obtain rfl : rest = code :: left := reads.rest
  obtain rfl : read = .copied [code] :: done := reads.pieces
  exact if_pos known

theorem primitive_other (opens : Opens referenceMarks s.rest) : primitive s = .ok false s := by
  obtain ⟨rest, done⟩ := s
  obtain ⟨b, tail, rfl, known⟩ := opens
  have apart : b ∉ primitives := by
    simp only [referenceMarks, List.map_cons, List.map_nil, List.mem_cons, List.not_mem_nil, or_false] at known
    rcases known with rfl | rfl | rfl <;> decide
  exact if_neg apart

theorem taken_here {stops run : Bytes} {piece : Bytes → Piece} {f : Bytes → Parse α} (same : (piece run).text = run)
    (named : Run stops run) (reads : Reads s [piece run] t) (stopped : Opens stops t.rest) :
    (do
      let run ← takeUntil stops
      emit (piece run)
      f run : Parse α) s = f run t := by
  obtain ⟨rest, done⟩ := s
  obtain ⟨left, read⟩ := t
  obtain ⟨b, tail, rfl, known⟩ := stopped
  have text : rest = run ++ b :: tail := by simpa [text_of_cons, text_of_nil, same] using reads.rest
  have free : ∀ c ∈ run, decide (c ∉ stops) = true := fun c member => decide_eq_true (named.free c member)
  have taken : rest.takeWhile (· ∉ stops) = run := by
    rw [text, List.takeWhile_append_of_pos free, List.takeWhile_cons_of_neg (by simp [known]), List.append_nil]
  have dropped : rest.dropWhile (· ∉ stops) = b :: tail := by
    rw [text, List.dropWhile_append_of_pos free, List.dropWhile_cons_of_neg (by simp [known])]
  have took : takeUntil stops ⟨rest, done⟩ = .ok run ⟨b :: tail, done⟩ := by
    have some : run.isEmpty = false := by simpa using named.some
    simp only [takeUntil, taken, dropped, some]
    rfl
  cases reads.pieces
  rw [bind_ok took]
  rfl

theorem identifier_here {name : Bytes} (named : Run identifierStops name) (reads : Reads s [.copied name] t)
    (stopped : Opens identifierStops t.rest) : identifier s = .ok () t := by
  have whole : (do
      let run ← takeUntil identifierStops
      emit (.copied run)
      pure () : Parse Unit) s = .ok () t := taken_here rfl named reads stopped
  exact whole

end

theorem reference_type_steps (classType : Parse Unit) :
    referenceType classType = (do
      if ← accept '[' then
        unless ← primitive do referenceType classType
      else namedType classType) := by
  -- An array of arrays is read as an array of what those are arrays of, so the markers may be read
  -- one by one.
  have element : ∀ s, (do
      repeatWhile (accept '[')
      unless ← primitive do namedType classType : Parse Unit) s =
        (do unless ← primitive do referenceType classType : Parse Unit) s := by
    intro s
    cases first : s.rest.head? == some '['.toUInt8 with
    | true =>
        obtain ⟨tail, text⟩ : ∃ tail, s.rest = '['.toUInt8 :: tail := by
          cases rest : s.rest with
          | nil =>
              rw [rest] at first
              cases first
          | cons b tail =>
              rw [rest] at first
              exact ⟨tail, by rw [Option.some.inj (eq_of_beq first)]⟩
        have reads : Reads s [mark '['] ⟨tail, mark '[' :: s.pieces⟩ := ⟨text, rfl⟩
        have opens : Opens referenceMarks s.rest := ⟨_, tail, text, by decide⟩
        refine Eq.trans ?_ (choice_no (primitive_other opens)).symm
        refine Eq.trans ?_ (choice_yes (accept_here reads)).symm
        have loop := brackets_round.next (accept_here reads)
        simp only [bind, EStateM.bind, loop]
    | false =>
        have other : s.rest.head? ≠ some '['.toUInt8 := by simpa using first
        refine (bind_ok (repeat_last (accept_other other))).trans ?_
        obtain ⟨found, t, ran⟩ : ∃ found t, primitive s = .ok found t := by
          unfold primitive
          split
          · exact ⟨_, _, rfl⟩
          · split
            · exact ⟨_, _, rfl⟩
            · exact ⟨_, _, rfl⟩
        rcases primitive_inv ran with ⟨rfl, _⟩ | ⟨rfl, rfl⟩
        · exact (choice_yes ran).trans (choice_yes ran).symm
        · refine (choice_no ran).trans (Eq.trans ?_ (choice_no ran).symm)
          exact (choice_no (accept_other other)).symm
  exact bind_congr fun marked => by
    cases marked with
    | true => exact funext element
    | false => rfl

section

variable {levels : Nat}

def afterArguments : Bytes := ['.', ';'].map Char.toUInt8

theorem inner_opens {owner : Name} {pieces : List Piece} {rest : Bytes} (spelled : (Phrase.inner owner).Spelled levels pieces)
    (follows : Opens [';'.toUInt8] rest) : Opens afterArguments (textOf pieces ++ rest) := by
  cases spelled with
  | noInner => exact follows.among (by simp [afterArguments])
  | inner => exact ⟨_, _, rfl, by decide⟩

theorem arguments_open {pieces : List Piece} {rest : Bytes} (spelled : Phrase.arguments.Spelled levels pieces)
    (follows : Opens afterArguments rest) : Opens classStops (textOf pieces ++ rest) := by
  cases spelled with
  | noArguments => exact follows.among (by simp [afterArguments, classStops])
  | arguments => exact ⟨_, _, rfl, by decide⟩

def Phrase.Accepted (levels : Nat) : Phrase → List Piece → Prop
  | .type, pieces => ∀ s t, Reads s pieces t →
      (do unless ← primitive do referenceType (classType levels) : Parse Unit) s = .ok () t
  | .reference, pieces => ∀ s t, Reads s pieces t → referenceType (classType levels) s = .ok () t
  | .arguments, pieces => ∀ s t, Reads s pieces t → Opens afterArguments t.rest →
      argumentsHere (referenceType (classType levels)) s = .ok () t
  | .argumentList, pieces => ∀ s t, Reads s pieces t →
      repeatWhile (nextArgument (referenceType (classType levels))) s = .ok () t
  | .inner owner, pieces => ∀ fuel s t, s.rest.length < fuel → Reads s pieces t → Opens [';'.toUInt8] t.rest →
      innerTypes (referenceType (classType levels)) fuel owner s = .ok () t

variable {element arguments inner rest one : List Piece}

theorem accepts_class {name : Bytes} (named : Run classStops name) (given : Phrase.arguments.Spelled levels arguments)
    (nested : (Phrase.inner ⟨name⟩).Spelled levels inner) (acceptArguments : Phrase.arguments.Accepted levels arguments)
    (acceptInner : (Phrase.inner ⟨name⟩).Accepted levels inner) :
    Phrase.reference.Accepted (levels + 1) (mark 'L' :: .outer ⟨name⟩ :: (arguments ++ (inner ++ [mark ';']))) := by
  intro s t reads
  obtain ⟨afterMark, marked, reads⟩ := reads.first
  obtain ⟨afterName, taken, reads⟩ := reads.first
  obtain ⟨beforeInner, readArguments, reads⟩ := reads.split
  obtain ⟨beforeEnd, readInner, closed⟩ := reads.split
  have ends : Opens [';'.toUInt8] beforeEnd.rest := ⟨_, _, closed.rest, .head _⟩
  have follows : Opens afterArguments beforeInner.rest := readInner.rest ▸ inner_opens nested ends
  have stopped : Opens classStops afterName.rest := readArguments.rest ▸ arguments_open given follows
  have opens : Opens ['L'.toUInt8] s.rest := ⟨_, _, marked.rest, .head _⟩
  refine (unmarked opens (by decide)).trans ?_
  refine (choice_yes (starts_here marked)).trans ?_
  refine (bind_ok (expect_here marked)).trans ?_
  refine (taken_here rfl named taken stopped).trans ?_
  refine (bind_ok (acceptArguments afterName beforeInner readArguments follows)).trans ?_
  refine (bind_ok (show (get : Parse State) beforeInner = .ok beforeInner beforeInner from rfl)).trans ?_
  refine (bind_ok (acceptInner _ beforeInner beforeEnd (Nat.lt_succ_self _) readInner ends)).trans ?_
  exact expect_here closed

theorem accepts_variable {name : Bytes} (named : Run identifierStops name) :
    Phrase.reference.Accepted levels [mark 'T', .copied name, mark ';'] := by
  intro s t reads
  obtain ⟨afterMark, marked, reads⟩ := reads.first
  obtain ⟨afterName, taken, closed⟩ := reads.first
  have opens : Opens ['T'.toUInt8] s.rest := ⟨_, _, marked.rest, .head _⟩
  have stopped : Opens identifierStops afterName.rest := ⟨_, _, closed.rest, by decide⟩
  refine (unmarked opens (by decide)).trans ?_
  refine (unstarted opens (by decide)).trans ?_
  refine (bind_ok (expect_here marked)).trans ?_
  refine (bind_ok (identifier_here named taken stopped)).trans ?_
  exact expect_here closed

theorem accepts_type (opens : Opens referenceMarks (textOf one)) (accept : Phrase.reference.Accepted levels one) :
    Phrase.type.Accepted levels one :=
  fun s t reads => (choice_no (primitive_other (reads.opens opens))).trans (accept s t reads)

theorem accepts_array (more : Nat) (accept : Phrase.type.Accepted levels element) :
    Phrase.reference.Accepted levels (List.replicate (more + 1) (mark '[') ++ element) := by
  induction more with
  | zero =>
      intro s t reads
      obtain ⟨middle, marked, reads⟩ := Reads.first reads
      rw [reference_type_steps]
      exact (choice_yes (accept_here marked)).trans (accept middle t reads)
  | succ more ih =>
      intro s t reads
      obtain ⟨middle, marked, reads⟩ := Reads.first reads
      have further : Phrase.type.Accepted levels (List.replicate (more + 1) (mark '[') ++ element) :=
        accepts_type ⟨_, _, rfl, by decide⟩ ih
      rw [reference_type_steps]
      exact (choice_yes (accept_here marked)).trans (further middle t reads)

theorem accepts_arguments {list : List Piece} (accept : Phrase.argumentList.Accepted levels list) :
    Phrase.arguments.Accepted levels (mark '<' :: list) := by
  intro s t reads _
  obtain ⟨middle, marked, reads⟩ := reads.first
  refine (choice_yes (starts_here marked)).trans ?_
  exact (bind_ok (expect_here marked)).trans (accept middle t reads)

theorem references_of (levels : Nat) : Gives (Phrase.reference.Spelled levels) (referenceType (classType levels)) :=
  reference_type_gives (class_type_gives levels)

theorem accepts_wildcard (accept : Phrase.argumentList.Accepted levels rest) :
    Phrase.argumentList.Accepted levels (mark '*' :: rest) := by
  intro s t reads
  obtain ⟨middle, marked, reads⟩ := reads.first
  have opens : Opens ['*'.toUInt8] s.rest := ⟨_, _, marked.rest, .head _⟩
  have step : nextArgument (referenceType (classType levels)) s = .ok true middle :=
    (unmarked opens (by decide)).trans (choice_yes (accept_here marked))
  rw [(argument_round (references_of levels)).next step]
  exact accept middle t reads

theorem accepts_argument {sign : List Piece} (signed : sign ∈ [[], [mark '+'], [mark '-']])
    (spelled : Phrase.reference.Spelled levels one) (acceptOne : Phrase.reference.Accepted levels one)
    (acceptRest : Phrase.argumentList.Accepted levels rest) :
    Phrase.argumentList.Accepted levels (sign ++ (one ++ rest)) := by
  intro s t reads
  obtain ⟨afterSign, readSign, reads⟩ := reads.split
  obtain ⟨afterOne, readOne, readRest⟩ := reads.split
  have opens := readOne.opens (reference_opens spelled)
  have last : (do referenceType (classType levels); return true : Parse Bool) afterSign = .ok true afterOne :=
    bind_ok (acceptOne afterSign afterOne readOne)
  have step : nextArgument (referenceType (classType levels)) s = .ok true afterOne := by
    simp only [List.mem_cons, List.not_mem_nil, or_false] at signed
    rcases signed with rfl | rfl | rfl
    · obtain rfl := readSign.nothing
      refine (unmarked opens (by decide)).trans ?_
      refine (unmarked opens (by decide)).trans ?_
      refine (unmarked opens (by decide)).trans ?_
      exact (bind_ok (accept_other (opens.other (by decide)))).trans last
    · have plus : Opens ['+'.toUInt8] s.rest := ⟨_, _, readSign.rest, .head _⟩
      refine (unmarked plus (by decide)).trans ?_
      refine (unmarked plus (by decide)).trans ?_
      exact (choice_yes (accept_here readSign)).trans last
    · have minus : Opens ['-'.toUInt8] s.rest := ⟨_, _, readSign.rest, .head _⟩
      refine (unmarked minus (by decide)).trans ?_
      refine (unmarked minus (by decide)).trans ?_
      refine (unmarked minus (by decide)).trans ?_
      exact (bind_ok (accept_here readSign)).trans last
  rw [(argument_round (references_of levels)).next step]
  exact acceptRest afterOne t readRest

theorem accepts_inner {owner : Name} {simple : Bytes} (named : Run classStops simple)
    (given : Phrase.arguments.Spelled levels arguments)
    (nested : (Phrase.inner (owner.nested simple)).Spelled levels rest)
    (acceptArguments : Phrase.arguments.Accepted levels arguments)
    (acceptRest : (Phrase.inner (owner.nested simple)).Accepted levels rest) :
    (Phrase.inner owner).Accepted levels (mark '.' :: .inner owner simple :: (arguments ++ rest)) := by
  intro fuel s t enough reads ends
  obtain ⟨afterDot, dotted, reads⟩ := reads.first
  obtain ⟨afterName, taken, reads⟩ := reads.first
  obtain ⟨afterArguments, readArguments, readRest⟩ := reads.split
  have follows := readRest.rest ▸ inner_opens nested ends
  have stopped : Opens classStops afterName.rest := readArguments.rest ▸ arguments_open given follows
  cases fuel with
  | zero => omega
  | succ fuel =>
      have left : afterArguments.rest.length < fuel := by
        have read := reads_further dotted (reads_further taken readArguments)
        have shorter := read.shorter (List.cons_ne_nil _ _)
        omega
      refine (choice_yes (accept_here dotted)).trans ?_
      refine (taken_here rfl named taken stopped).trans ?_
      refine (bind_ok (acceptArguments afterName afterArguments readArguments follows)).trans ?_
      exact acceptRest fuel afterArguments t left readRest ends

theorem spelled_accepted {phrase : Phrase} {pieces : List Piece} (spelled : phrase.Spelled levels pieces) :
    phrase.Accepted levels pieces := by
  induction spelled with
  | primitive code known => exact fun s t reads => choice_yes (primitive_here known reads)
  | reference spelled ih => exact accepts_type (reference_opens spelled) ih
  | classType named given nested ihArguments ihInner => exact accepts_class named given nested ihArguments ihInner
  | typeVariable named => exact accepts_variable named
  | array more spelled ih => exact accepts_array more ih
  | noArguments =>
      intro s t reads follows
      obtain rfl := reads.nothing
      exact unstarted follows (by decide)
  | arguments spelled ih => exact accepts_arguments ih
  | lastArgument => exact fun s t reads => repeat_last (choice_yes (accept_here reads))
  | wildcard later ih => exact accepts_wildcard ih
  | argument signed spelled later ihOne ihRest => exact accepts_argument signed spelled ihOne ihRest
  | noInner =>
      intro fuel s t enough reads ends
      obtain rfl := reads.nothing
      cases fuel with
      | zero => omega
      | succ fuel => exact unmarked ends (by decide)
  | inner named given nested ihArguments ihRest => exact accepts_inner named given nested ihArguments ihRest

end

theorem accepts_reference {pieces : List Piece} (spelled : Phrase.reference.Spelled maxNesting pieces) {s t : State}
    (reads : Reads s pieces t) : reference s = .ok () t := spelled_accepted spelled s t reads

theorem accepts_any_type {pieces : List Piece} (spelled : Phrase.type.Spelled maxNesting pieces) {s t : State}
    (reads : Reads s pieces t) : anyType s = .ok () t := spelled_accepted spelled s t reads

theorem at_end_here {s : State} (ended : s.rest = []) : atEnd s = .ok true s := by simp [atEnd, ended]

theorem at_end_not {s : State} (more : s.rest ≠ []) : atEnd s = .ok false s := by simp [atEnd, more]

def Clause.Accepted : Clause → List Piece → Prop
  | .references lead, pieces => ∀ s t, Reads s pieces t → t.rest.head? ≠ some lead.toUInt8 →
      repeatWhile (nextReference lead) s = .ok () t
  | .parameters, pieces => ∀ s t, Reads s pieces t → repeatWhile nextParameter s = .ok () t
  | .operands, pieces => ∀ s t, Reads s pieces t → repeatWhile nextOperand s = .ok () t
  | .types, pieces => ∀ s t, Reads s pieces t → t.rest = [] → repeatWhile nextType s = .ok () t
  | .body, pieces => ∀ s t, Reads s pieces t → t.rest = [] →
      (do if ← startsWith '(' then methodType else plainTypes : Parse Unit) s = .ok () t
  | .signature, pieces => ∀ s t, Reads s pieces t → t.rest = [] → Signature.signature s = .ok () t

section

variable {name : Bytes} {bound others one rest operands throws : List Piece} {s t : State}

theorem accepts_references {lead : Char} (spelled : Phrase.reference.Spelled maxNesting one)
    (accept : (Clause.references lead).Accepted rest) : (Clause.references lead).Accepted (mark lead :: (one ++ rest)) := by
  intro s t reads other
  obtain ⟨afterLead, led, reads⟩ := reads.first
  obtain ⟨afterOne, readOne, readRest⟩ := reads.split
  have step : nextReference lead s = .ok true afterOne :=
    (choice_yes (accept_here led)).trans (bind_ok (accepts_reference spelled readOne))
  rw [(reference_round lead).next step]
  exact accept afterOne t readRest other

theorem accepts_bounds (spelled : Phrase.reference.Spelled maxNesting bound)
    (accept : (Clause.references ':').Accepted others) (reads : Reads s (mark ':' :: (bound ++ others)) t)
    (other : t.rest.head? ≠ some ':'.toUInt8) : bounds s = .ok () t := by
  obtain ⟨afterLead, led, reads⟩ := reads.first
  obtain ⟨afterBound, readBound, readOthers⟩ := reads.split
  have opens := readBound.opens (reference_opens spelled)
  refine (bind_ok (expect_here led)).trans ?_
  refine (bind_ok (starts_other (opens.other (by decide)))).trans ?_
  refine (bind_ok (starts_other (opens.other (by decide)))).trans ?_
  refine (bind_ok (accepts_reference spelled readBound)).trans ?_
  exact accept afterBound t readOthers other

theorem accepts_unbounded (accept : (Clause.references ':').Accepted others) (reads : Reads s (mark ':' :: others) t)
    (other : t.rest.head? ≠ some ':'.toUInt8)
    (seen : Opens [':'.toUInt8, '>'.toUInt8] (textOf others ++ t.rest)) : bounds s = .ok () t := by
  obtain ⟨afterLead, led, readOthers⟩ := reads.first
  rw [← readOthers.rest] at seen
  have either : (afterLead.rest.head? == some ':'.toUInt8 || afterLead.rest.head? == some '>'.toUInt8) = true := by
    obtain ⟨b, tail, text, known⟩ := seen
    simpa [text] using known
  refine (bind_ok (expect_here led)).trans ?_
  refine (bind_ok (show startsWith ':' afterLead = .ok _ afterLead from rfl)).trans ?_
  refine (bind_ok (show startsWith '>' afterLead = .ok _ afterLead from rfl)).trans ?_
  rw [either]
  exact accept afterLead t readOthers other

theorem parameters_other (spelled : Clause.parameters.Spelled rest) (tail : Bytes) :
    (textOf rest ++ tail).head? ≠ some ':'.toUInt8 := by
  rcases parameters_open spelled with rfl | ⟨b, more, text, free⟩
  · exact fun same => absurd (Option.some.inj same) (by decide)
  · rw [text]
    exact fun same => free (Option.some.inj same ▸ by decide)

theorem accepts_parameter {bounds : List Piece} (named : Run identifierStops name)
    (accept : Clause.parameters.Accepted rest)
    (bounded : ∀ s t following, t.rest = textOf rest ++ following → Reads s (mark ':' :: bounds) t →
      Signature.bounds s = .ok () t) :
    Clause.parameters.Accepted (.copied name :: mark ':' :: (bounds ++ rest)) := by
  intro s u reads
  obtain ⟨afterName, taken, reads⟩ := reads.first
  obtain ⟨afterBounds, readBounds, readRest⟩ := @Reads.split _ _ (mark ':' :: bounds) rest reads
  have closing : s.rest.head? ≠ some '>'.toUInt8 := by
    obtain ⟨b, tail, rfl, free⟩ := run_opens named
    rw [taken.rest]
    exact fun same => free (Option.some.inj same ▸ by decide)
  have stopped : Opens identifierStops afterName.rest := ⟨_, _, readBounds.rest, by decide⟩
  have step : nextParameter s = .ok true afterBounds := by
    refine (choice_no (accept_other closing)).trans ?_
    refine (bind_ok (identifier_here named taken stopped)).trans ?_
    exact bind_ok (bounded afterName afterBounds u.rest readRest.rest readBounds)
  rw [parameter_round.next step]
  exact accept afterBounds u readRest

theorem accepts_operand (spelled : Phrase.type.Spelled maxNesting one) (accept : Clause.operands.Accepted rest) :
    Clause.operands.Accepted (one ++ rest) := by
  intro s t reads
  obtain ⟨afterOne, readOne, readRest⟩ := reads.split
  have opens := readOne.opens (type_opens spelled)
  have step : nextOperand s = .ok true afterOne :=
    (unmarked opens (by decide)).trans (bind_ok (accepts_any_type spelled readOne))
  rw [operand_round.next step]
  exact accept afterOne t readRest

theorem next_type_here (spelled : Phrase.type.Spelled maxNesting one) (reads : Reads s one t) : nextType s = .ok true t :=
  (choice_no (at_end_not (reads.opens (type_opens spelled)).some)).trans (bind_ok (accepts_any_type spelled reads))

theorem accepts_throws (accept : (Clause.references '^').Accepted throws) (reads : Reads s throws t) (ended : t.rest = []) :
    (do
      repeatWhile (nextReference '^')
      unless ← atEnd do fail : Parse Unit) s = .ok () t := by
  refine (bind_ok (accept s t reads (by rw [ended]; exact nofun))).trans ?_
  exact choice_yes (at_end_here ended)

theorem types_open {pieces : List Piece} (spelled : Clause.types.Spelled pieces) :
    Opens (primitives ++ referenceMarks) (textOf pieces) := by
  cases spelled with
  | lastType spelled => exact type_opens spelled
  | moreTypes spelled =>
      rw [text_of_append]
      exact (type_opens spelled).before _

theorem body_opens {pieces : List Piece} (spelled : Clause.body.Spelled pieces) :
    Opens ('('.toUInt8 :: (primitives ++ referenceMarks)) (textOf pieces) := by
  cases spelled with
  | procedure => exact ⟨_, _, rfl, .head _⟩
  | method => exact ⟨_, _, rfl, .head _⟩
  | plain spelled => exact (types_open spelled).among fun b => .tail _

theorem accepts_method {result : List Piece} (acceptOperands : Clause.operands.Accepted operands)
    (given : Phrase.type.Spelled maxNesting result) (acceptThrows : (Clause.references '^').Accepted throws) :
    Clause.body.Accepted (mark '(' :: (operands ++ (result ++ throws))) := by
  intro s t reads ended
  obtain ⟨afterOpening, opened, reads⟩ := reads.first
  obtain ⟨beforeResult, readOperands, reads⟩ := reads.split
  obtain ⟨afterResult, readResult, readThrows⟩ := reads.split
  have opens := readResult.opens (type_opens given)
  refine (choice_yes (starts_here opened)).trans ?_
  refine (bind_ok (expect_here opened)).trans ?_
  refine (bind_ok (acceptOperands afterOpening beforeResult readOperands)).trans ?_
  refine (unmarked opens (by decide)).trans ?_
  refine (bind_ok (accepts_any_type given readResult)).trans ?_
  exact accepts_throws acceptThrows readThrows ended

theorem accepts_procedure (acceptOperands : Clause.operands.Accepted operands)
    (acceptThrows : (Clause.references '^').Accepted throws) :
    Clause.body.Accepted (mark '(' :: (operands ++ mark 'V' :: throws)) := by
  intro s t reads ended
  obtain ⟨afterOpening, opened, reads⟩ := reads.first
  obtain ⟨beforeResult, readOperands, reads⟩ := reads.split
  obtain ⟨afterResult, void, readThrows⟩ := reads.first
  refine (choice_yes (starts_here opened)).trans ?_
  refine (bind_ok (expect_here opened)).trans ?_
  refine (bind_ok (acceptOperands afterOpening beforeResult readOperands)).trans ?_
  refine (choice_yes (accept_here void)).trans ?_
  exact accepts_throws acceptThrows readThrows ended

theorem accepts_plain {pieces : List Piece} (spelled : Clause.types.Spelled pieces) (accept : Clause.types.Accepted pieces) :
    Clause.body.Accepted pieces := by
  intro s t reads ended
  have opens := reads.opens (types_open spelled)
  refine (unstarted opens (by decide)).trans ?_
  refine (choice_no (at_end_not opens.some)).trans ?_
  exact accept s t reads ended

theorem accepts_generic {parameters body : List Piece} (acceptParameters : Clause.parameters.Accepted parameters)
    (acceptBody : Clause.body.Accepted body) : Clause.signature.Accepted (mark '<' :: (parameters ++ body)) := by
  intro s t reads ended
  obtain ⟨afterOpening, opened, reads⟩ := reads.first
  obtain ⟨beforeBody, readParameters, readBody⟩ := reads.split
  have bound : typeParameters s = .ok () beforeBody :=
    (bind_ok (expect_here opened)).trans (acceptParameters afterOpening beforeBody readParameters)
  refine (choice_yes (starts_here opened)).trans ?_
  refine (bind_ok bound).trans ?_
  exact acceptBody beforeBody t readBody ended

end

theorem clause_accepted {clause : Clause} {pieces : List Piece} (spelled : clause.Spelled pieces) : clause.Accepted pieces := by
  induction spelled with
  | noReferences =>
      intro s t reads other
      obtain rfl := reads.nothing
      exact repeat_last (choice_no (accept_other other))
  | references spelled later ih => exact accepts_references spelled ih
  | lastParameter => exact fun s t reads => repeat_last (choice_yes (accept_here reads))
  | parameter named spelled further later ihOthers ihRest =>
      rw [← List.append_assoc]
      refine accepts_parameter named ihRest fun s t following left reads => ?_
      exact accepts_bounds spelled ihOthers reads (left ▸ parameters_other later following)
  | unbounded named further later follows ihOthers ihRest =>
      refine accepts_parameter named ihRest fun s t following left reads => ?_
      refine accepts_unbounded ihOthers reads (left ▸ parameters_other later following) ?_
      rw [left, ← List.append_assoc, ← text_of_append]
      apply Opens.before
      rcases follows with colon | closer
      · obtain ⟨tail, whole⟩ := List.head?_eq_some_iff.mp colon
        exact ⟨_, textOf tail, by rw [whole]; rfl, by decide⟩
      · obtain ⟨tail, whole⟩ := List.head?_eq_some_iff.mp closer
        exact ⟨_, textOf tail, by rw [whole]; rfl, by decide⟩
  | lastOperand => exact fun s t reads => repeat_last (choice_yes (accept_here reads))
  | operand spelled later ih => exact accepts_operand spelled ih
  | lastType spelled =>
      intro s t reads ended
      rw [type_round.next (next_type_here spelled reads)]
      exact repeat_last (choice_yes (at_end_here ended))
  | moreTypes spelled later ih =>
      intro s t reads ended
      obtain ⟨afterOne, readOne, readRest⟩ := reads.split
      rw [type_round.next (next_type_here spelled readOne)]
      exact ih afterOne t readRest ended
  | procedure taken thrown ihOperands ihThrows => exact accepts_procedure ihOperands ihThrows
  | method taken given thrown ihOperands ihThrows => exact accepts_method ihOperands given ihThrows
  | plain spelled ih => exact accepts_plain spelled ih
  | bare spelled ih =>
      intro s t reads ended
      have opens := reads.opens (body_opens spelled)
      exact (unstarted opens (by decide)).trans (ih s t reads ended)
  | generic bound spelled ihParameters ihBody => exact accepts_generic ihParameters ihBody

end Relabel.Signature
