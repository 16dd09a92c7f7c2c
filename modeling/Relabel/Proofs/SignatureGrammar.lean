import Relabel.Proofs.TypeText

set_option autoImplicit false

namespace Relabel.Signature

def mark (c : Char) : Piece := .copied [c.toUInt8]

def textOf (pieces : List Piece) : Bytes := pieces.flatMap Piece.text

structure Run (stops run : Bytes) : Prop where
  some : run ≠ []
  free : ∀ b ∈ run, b ∉ stops

inductive Phrase where
  | type
  | reference
  -- the arguments of a class type, which may be left out
  | arguments
  -- what follows the `<` of such arguments
  | argumentList
  -- the inner classes that follow a class of this full name
  | inner (owner : Name)

/-- How types are spelled in which class types nest at most so many levels deep:
  Type = 'B' | 'C' | 'D' | 'F' | 'I' | 'J' | 'S' | 'Z' | Ref
  Ref = 'L' Name [Args] ('.' Name [Args])* ';' | 'T' Ident ';' | '['+ Type
  Args = '<' ('*' | ['+' | '-'] Ref)* '>'
The first name of a class type is its full name. Each later one is spelled
with the full name of the class that it lies in. -/
inductive Phrase.Spelled : Phrase → Nat → List Piece → Prop where
  | primitive {levels : Nat} (code : UInt8) (known : code ∈ primitives) : Spelled .type levels [.copied [code]]
  | reference {levels : Nat} {pieces : List Piece} (spelled : Spelled .reference levels pieces) :
      Spelled .type levels pieces
  | classType {levels : Nat} {name : Bytes} {arguments inner : List Piece} (named : Run classStops name)
      (given : Spelled .arguments levels arguments) (nested : Spelled (.inner ⟨name⟩) levels inner) :
      Spelled .reference (levels + 1) (mark 'L' :: .outer ⟨name⟩ :: (arguments ++ (inner ++ [mark ';'])))
  | typeVariable {levels : Nat} {name : Bytes} (named : Run identifierStops name) :
      Spelled .reference levels [mark 'T', .copied name, mark ';']
  | array {levels : Nat} (more : Nat) {element : List Piece} (spelled : Spelled .type levels element) :
      Spelled .reference levels (List.replicate (more + 1) (mark '[') ++ element)
  | noArguments {levels : Nat} : Spelled .arguments levels []
  | arguments {levels : Nat} {list : List Piece} (spelled : Spelled .argumentList levels list) :
      Spelled .arguments levels (mark '<' :: list)
  | lastArgument {levels : Nat} : Spelled .argumentList levels [mark '>']
  | wildcard {levels : Nat} {rest : List Piece} (later : Spelled .argumentList levels rest) :
      Spelled .argumentList levels (mark '*' :: rest)
  | argument {levels : Nat} {sign one rest : List Piece} (signed : sign ∈ [[], [mark '+'], [mark '-']])
      (spelled : Spelled .reference levels one) (later : Spelled .argumentList levels rest) :
      Spelled .argumentList levels (sign ++ (one ++ rest))
  | noInner {levels : Nat} {owner : Name} : Spelled (.inner owner) levels []
  | inner {levels : Nat} {owner : Name} {simple : Bytes} {arguments rest : List Piece} (named : Run classStops simple)
      (given : Spelled .arguments levels arguments) (nested : Spelled (.inner (owner.nested simple)) levels rest) :
      Spelled (.inner owner) levels (mark '.' :: .inner owner simple :: (arguments ++ rest))

inductive Clause where
  -- references, each after this character
  | references (lead : Char)
  -- what follows the `<` of type parameters
  | parameters
  -- what follows the `(` of a method up to its `)`
  | operands
  | types
  | body
  | signature

/-- How signatures are spelled:
  Sig = [Params] (Method | Type+)
  Params = '<' Param* '>'
  Param = Ident ':' [Ref] (':' Ref)*
  Method = '(' Type* ')' ('V' | Type) ('^' Ref)*
The first bound of a parameter may be left out only if a `:` or the `>`
follows. -/
inductive Clause.Spelled : Clause → List Piece → Prop where
  | noReferences {lead : Char} : Spelled (.references lead) []
  | references {lead : Char} {one rest : List Piece} (spelled : Phrase.reference.Spelled maxNesting one)
      (later : Spelled (.references lead) rest) : Spelled (.references lead) (mark lead :: (one ++ rest))
  | lastParameter : Spelled .parameters [mark '>']
  | parameter {name : Bytes} {bound others rest : List Piece} (named : Run identifierStops name)
      (spelled : Phrase.reference.Spelled maxNesting bound) (further : Spelled (.references ':') others)
      (later : Spelled .parameters rest) :
      Spelled .parameters (.copied name :: mark ':' :: (bound ++ (others ++ rest)))
  | unbounded {name : Bytes} {others rest : List Piece} (named : Run identifierStops name)
      (further : Spelled (.references ':') others) (later : Spelled .parameters rest)
      (follows : (others ++ rest).head? = some (mark ':') ∨ (others ++ rest).head? = some (mark '>')) :
      Spelled .parameters (.copied name :: mark ':' :: (others ++ rest))
  | lastOperand : Spelled .operands [mark ')']
  | operand {one rest : List Piece} (spelled : Phrase.type.Spelled maxNesting one) (later : Spelled .operands rest) :
      Spelled .operands (one ++ rest)
  | lastType {one : List Piece} (spelled : Phrase.type.Spelled maxNesting one) : Spelled .types one
  | moreTypes {one rest : List Piece} (spelled : Phrase.type.Spelled maxNesting one) (later : Spelled .types rest) :
      Spelled .types (one ++ rest)
  | procedure {operands throws : List Piece} (taken : Spelled .operands operands)
      (thrown : Spelled (.references '^') throws) : Spelled .body (mark '(' :: (operands ++ mark 'V' :: throws))
  | method {operands result throws : List Piece} (taken : Spelled .operands operands)
      (given : Phrase.type.Spelled maxNesting result) (thrown : Spelled (.references '^') throws) :
      Spelled .body (mark '(' :: (operands ++ (result ++ throws)))
  | plain {pieces : List Piece} (spelled : Spelled .types pieces) : Spelled .body pieces
  | bare {pieces : List Piece} (spelled : Spelled .body pieces) : Spelled .signature pieces
  | generic {parameters body : List Piece} (bound : Spelled .parameters parameters) (spelled : Spelled .body body) :
      Spelled .signature (mark '<' :: (parameters ++ body))

theorem text_of_nil : textOf [] = [] := rfl

theorem text_of_cons (piece : Piece) (rest : List Piece) : textOf (piece :: rest) = piece.text ++ textOf rest := rfl

theorem text_of_mark (c : Char) (rest : List Piece) : textOf (mark c :: rest) = c.toUInt8 :: textOf rest := rfl

theorem text_of_append (front back : List Piece) : textOf (front ++ back) = textOf front ++ textOf back :=
  List.flatMap_append

structure Reads (s : State) (pieces : List Piece) (t : State) : Prop where
  rest : s.rest = textOf pieces ++ t.rest
  pieces : t.pieces = pieces.reverse ++ s.pieces

theorem reads_nothing (s : State) : Reads s [] s := ⟨rfl, rfl⟩

theorem reads_further {s t u : State} {front back : List Piece} (first : Reads s front t) (second : Reads t back u) :
    Reads s (front ++ back) u where
  rest := by rw [first.rest, second.rest, text_of_append, List.append_assoc]
  pieces := by rw [second.pieces, first.pieces, List.reverse_append, List.append_assoc]

theorem Reads.nothing {s t : State} (reads : Reads s [] t) : t = s := by
  obtain ⟨_, _⟩ := s
  obtain ⟨_, _⟩ := t
  cases reads.rest
  cases reads.pieces
  rfl

theorem Reads.shorter {s t : State} {pieces : List Piece} (reads : Reads s pieces t) (some : textOf pieces ≠ []) :
    t.rest.length < s.rest.length := by
  have positive := List.length_pos_iff.mpr some
  rw [reads.rest, List.length_append]
  omega

theorem Reads.split {s u : State} {front back : List Piece} (reads : Reads s (front ++ back) u) :
    ∃ t, Reads s front t ∧ Reads t back u := by
  refine ⟨⟨textOf back ++ u.rest, front.reverse ++ s.pieces⟩, ⟨?_, rfl⟩, rfl, ?_⟩
  · rw [reads.rest, text_of_append, List.append_assoc]
  · rw [reads.pieces, List.reverse_append, List.append_assoc]

theorem Reads.first {s u : State} {piece : Piece} {rest : List Piece} (reads : Reads s (piece :: rest) u) :
    ∃ t, Reads s [piece] t ∧ Reads t rest u := @Reads.split s u [piece] rest reads

def Opens (marks bytes : Bytes) : Prop := ∃ b tail, bytes = b :: tail ∧ b ∈ marks

theorem Opens.before {marks bytes : Bytes} (opens : Opens marks bytes) (rest : Bytes) : Opens marks (bytes ++ rest) := by
  obtain ⟨b, tail, rfl, known⟩ := opens
  exact ⟨b, tail ++ rest, rfl, known⟩

theorem Opens.some {marks bytes : Bytes} (opens : Opens marks bytes) : bytes ≠ [] := by
  obtain ⟨b, tail, rfl, _⟩ := opens
  exact List.cons_ne_nil b tail

theorem Opens.other {marks bytes : Bytes} (opens : Opens marks bytes) {b : UInt8} (apart : b ∉ marks) :
    bytes.head? ≠ .some b := by
  obtain ⟨c, tail, rfl, known⟩ := opens
  exact fun same => apart (Option.some.inj same ▸ known)

theorem Opens.among {marks more bytes : Bytes} (opens : Opens marks bytes) (subset : ∀ b ∈ marks, b ∈ more) :
    Opens more bytes := by
  obtain ⟨b, tail, rfl, known⟩ := opens
  exact ⟨b, tail, rfl, subset b known⟩

theorem Reads.opens {s t : State} {pieces : List Piece} {marks : Bytes} (reads : Reads s pieces t)
    (opens : Opens marks (textOf pieces)) : Opens marks s.rest := by
  rw [reads.rest]
  exact opens.before t.rest

def referenceMarks : Bytes := ['L', 'T', '['].map Char.toUInt8

section

variable {levels : Nat} {pieces : List Piece}

theorem reference_opens (spelled : Phrase.reference.Spelled levels pieces) : Opens referenceMarks (textOf pieces) := by
  cases spelled with
  | classType => exact ⟨_, _, rfl, by decide⟩
  | typeVariable => exact ⟨_, _, rfl, by decide⟩
  | array => exact ⟨_, _, rfl, by decide⟩

theorem type_opens (spelled : Phrase.type.Spelled levels pieces) : Opens (primitives ++ referenceMarks) (textOf pieces) := by
  cases spelled with
  | primitive code known => exact ⟨code, [], rfl, List.mem_append_left _ known⟩
  | reference spelled => exact (reference_opens spelled).among fun b => List.mem_append_right _

end

theorem run_opens {stops run : Bytes} (named : Run stops run) : ∃ b tail, run = b :: tail ∧ b ∉ stops := by
  obtain ⟨b, tail, rfl⟩ := List.exists_cons_of_ne_nil named.some
  exact ⟨b, tail, rfl, named.free b (.head _)⟩

theorem parameters_open {pieces : List Piece} (spelled : Clause.parameters.Spelled pieces) :
    pieces = [mark '>'] ∨ ∃ b tail, textOf pieces = b :: tail ∧ b ∉ identifierStops := by
  cases spelled with
  | lastParameter => exact .inl rfl
  | parameter named | unbounded named =>
      obtain ⟨b, tail, rfl, free⟩ := run_opens named
      exact .inr ⟨b, _, rfl, free⟩

end Relabel.Signature
