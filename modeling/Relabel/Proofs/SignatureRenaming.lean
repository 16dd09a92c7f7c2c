import Mathlib.Data.List.Basic
import Relabel.Proofs.SignatureAcceptance

set_option autoImplicit false

namespace Relabel

namespace Signature

open Piece (Owned)

theorem read_iff (bytes : Bytes) (pieces : List Piece) :
    read bytes = (pieces, none) ↔ Clause.signature.Spelled pieces ∧ textOf pieces = bytes := by
  constructor
  · intro done
    cases ran : signature ⟨bytes, []⟩ with
    | error e t =>
        rw [read, ran] at done
        cases done
    | ok a t =>
        obtain ⟨found, spelled, reads⟩ := signature_gives _ _ ran
        have drained := signature_drains _ _ ran
        have text : textOf found = bytes := by simpa [drained] using reads.rest.symm
        have whole : t.pieces.reverse = found := by simpa using congrArg List.reverse reads.pieces
        rw [read, ran] at done
        cases done
        exact ⟨whole ▸ spelled, whole ▸ text⟩
  · rintro ⟨spelled, rfl⟩
    have reads : Reads ⟨textOf pieces, []⟩ pieces ⟨[], pieces.reverse⟩ :=
      ⟨(List.append_nil _).symm, (List.append_nil _).symm⟩
    rw [read, clause_accepted spelled _ _ reads rfl]
    simp

def Phrase.owners : Phrase → List Name
  | .inner owner => [owner]
  | _ => []

theorem owned_marks {known : List Name} (c : Char) (count : Nat) : Owned known (List.replicate count (mark c)) := by
  induction count with
  | zero => exact .nil
  | succ count ih => exact .copied _ ih

theorem phrase_owned {phrase : Phrase} {levels : Nat} {pieces : List Piece} (spelled : phrase.Spelled levels pieces) :
    Owned phrase.owners pieces := by
  induction spelled with
  | primitive code _ => exact .copied _ .nil
  | reference _ ih => exact ih
  | classType _ _ _ givenIH nestedIH =>
      have later := nestedIH.append (.copied [';'.toUInt8] .nil)
      exact .copied _ (.outer _ ((givenIH.more (List.nil_subset _)).append later))
  | typeVariable _ => exact .copied _ (.copied _ (.copied _ .nil))
  | array more _ ih => exact (owned_marks '[' (more + 1)).append ih
  | noArguments => exact .nil
  | arguments _ ih => exact .copied _ ih
  | lastArgument => exact .copied _ .nil
  | wildcard _ ih => exact .copied _ ih
  | argument signed _ _ ih laterIH =>
      refine Owned.append ?_ (ih.append laterIH)
      simp only [List.mem_cons, List.not_mem_nil, or_false] at signed
      rcases signed with rfl | rfl | rfl
      · exact .nil
      · exact .copied _ .nil
      · exact .copied _ .nil
  | noInner => exact .nil
  | inner named _ _ givenIH nestedIH =>
      have later := (givenIH.more (List.nil_subset _)).append nestedIH
      refine .copied _ (.inner named.some (List.mem_singleton.mpr rfl) ?_)
      exact later.more (List.cons_subset_cons _ (List.nil_subset _))

theorem clause_owned {clause : Clause} {pieces : List Piece} (spelled : clause.Spelled pieces) : Owned [] pieces := by
  induction spelled with
  | noReferences => exact .nil
  | references spelled _ ih => exact .copied _ ((phrase_owned spelled).append ih)
  | lastParameter => exact .copied _ .nil
  | parameter _ spelled _ _ furtherIH laterIH =>
      exact .copied _ (.copied _ ((phrase_owned spelled).append (furtherIH.append laterIH)))
  | unbounded _ _ _ _ furtherIH laterIH => exact .copied _ (.copied _ (furtherIH.append laterIH))
  | lastOperand => exact .copied _ .nil
  | operand spelled _ ih => exact (phrase_owned spelled).append ih
  | lastType spelled => exact phrase_owned spelled
  | moreTypes spelled _ ih => exact (phrase_owned spelled).append ih
  | procedure _ _ takenIH thrownIH => exact .copied _ (takenIH.append (.copied _ thrownIH))
  | method _ given _ takenIH thrownIH =>
      exact .copied _ (takenIH.append ((phrase_owned given).append thrownIH))
  | plain _ ih => exact ih
  | bare _ ih => exact ih
  | generic _ _ boundIH ih => exact .copied _ (boundIH.append ih)

theorem rename_of_read {rename : Name → Name} {signature : Name} {pieces : List Piece}
    (done : read signature.bytes = (pieces, none)) :
    Signature.rename rename signature = .ok ⟨pieces.flatMap (Piece.render rename)⟩ := by
  rw [rename_accepted done, Piece.write_all_owned (clause_owned ((read_iff _ _).mp done).1)]

theorem rename_ok_inv {rename : Name → Name} {signature renamed : Name}
    (ran : Signature.rename rename signature = .ok renamed) :
    ∃ pieces, read signature.bytes = (pieces, none) ∧ renamed = ⟨pieces.flatMap (Piece.render rename)⟩ := by
  cases done : read signature.bytes with
  | mk pieces fault =>
      cases fault with
      | some position =>
          rw [rename_rejected done] at ran
          cases ran
      | none =>
          rw [rename_of_read done] at ran
          cases ran
          exact ⟨pieces, rfl, rfl⟩

/-- What renaming makes of a spelling from left to right, and which names it asks for on the way.
Each name is asked for in full. -/
inductive Rewritten (rename : Name → Name) : List Piece → (old new : Bytes) → (asked : List Name) → Prop where
  | nil : Rewritten rename [] [] [] []
  | copied (bytes : Bytes) {rest : List Piece} {old new : Bytes} {asked : List Name}
      (later : Rewritten rename rest old new asked) :
      Rewritten rename (.copied bytes :: rest) (bytes ++ old) (bytes ++ new) asked
  | outer (name : Name) {rest : List Piece} {old new : Bytes} {asked : List Name}
      (later : Rewritten rename rest old new asked) :
      Rewritten rename (.outer name :: rest) (name.bytes ++ old) ((rename name).bytes ++ new) (name :: asked)
  | inner (owner : Name) (simple : Bytes) {rest : List Piece} {old new : Bytes} {asked : List Name}
      (later : Rewritten rename rest old new asked) :
      Rewritten rename (.inner owner simple :: rest) (simple ++ old)
        ((rename owner).simpleIn (rename (owner.nested simple)) simple ++ new) (owner.nested simple :: asked)

theorem rewritten_iff (rename : Name → Name) (pieces : List Piece) (old new : Bytes) (asked : List Name) :
    Rewritten rename pieces old new asked ↔
      textOf pieces = old ∧ pieces.flatMap (Piece.render rename) = new ∧ pieces.filterMap Piece.lookup? = asked := by
  constructor
  · intro rewritten
    induction rewritten with
    | nil => exact ⟨rfl, rfl, rfl⟩
    | copied bytes later ih =>
        obtain ⟨rfl, rfl, rfl⟩ := ih
        exact ⟨rfl, rfl, rfl⟩
    | outer name later ih =>
        obtain ⟨rfl, rfl, rfl⟩ := ih
        exact ⟨rfl, rfl, rfl⟩
    | inner owner simple later ih =>
        obtain ⟨rfl, rfl, rfl⟩ := ih
        exact ⟨rfl, rfl, rfl⟩
  · rintro ⟨rfl, rfl, rfl⟩
    induction pieces with
    | nil => exact .nil
    | cons piece rest ih =>
        cases piece with
        | copied bytes => exact .copied bytes ih
        | outer name => exact .outer name ih
        | inner owner simple => exact .inner owner simple ih

/-- Renaming takes exactly the texts that are spelled as signatures. It gives, and asks for, what
any spelling of the text says. -/
theorem signature_renamed_as_spelled (rename : Name → Name) (signature : Name) :
    ((∃ renamed, Signature.rename rename signature = .ok renamed) ↔
      ∃ pieces, Clause.signature.Spelled pieces ∧ textOf pieces = signature.bytes) ∧
    ∀ renamed asked, Signature.rename rename signature = .ok renamed ∧ classNames signature = asked ↔
      ∃ pieces, Clause.signature.Spelled pieces ∧ Rewritten rename pieces signature.bytes renamed.bytes asked := by
  refine ⟨⟨?_, ?_⟩, fun renamed asked => ⟨?_, ?_⟩⟩
  · rintro ⟨renamed, ran⟩
    obtain ⟨pieces, done, _⟩ := rename_ok_inv ran
    exact ⟨pieces, (read_iff _ _).mp done⟩
  · rintro ⟨pieces, spelled⟩
    exact ⟨_, rename_of_read ((read_iff _ _).mpr spelled)⟩
  · rintro ⟨ran, rfl⟩
    obtain ⟨pieces, done, rfl⟩ := rename_ok_inv ran
    obtain ⟨spelled, text⟩ := (read_iff _ _).mp done
    refine ⟨pieces, spelled, (rewritten_iff _ _ _ _ _).mpr ⟨text, rfl, ?_⟩⟩
    rw [class_names_eq, done]
  · rintro ⟨pieces, spelled, rewritten⟩
    obtain ⟨text, new, names⟩ := (rewritten_iff _ _ _ _ _).mp rewritten
    have done := (read_iff _ _).mpr ⟨spelled, text⟩
    refine ⟨?_, ?_⟩
    · rw [rename_of_read done, new]
    · rw [class_names_eq, done, names]

example :
    let outward := fun name => if name = .ofString "a/A$B" then .ofString "p/Q$R" else Name.ofString "p/Q"
    let generic := Name.ofString "<T:Lc/D;:TX;>(J[La/A<[I*-TT;>.B<TT;>;)V^TT;"
    Signature.rename outward generic = .ok (.ofString "<T:Lp/Q;:TX;>(J[Lp/Q<[I*-TT;>.R<TT;>;)V^TT;") ∧
      classNames generic = [.ofString "c/D", .ofString "a/A", .ofString "a/A$B"] := by decide +kernel

example :
    let broken := Name.ofString "La/A<TT/x;>.B;"
    Signature.rename id broken = .error (.malformedSignature broken.bytes 7) := by decide +kernel

def Fits (rename : Name → Name) : Piece → Prop
  | .copied _ => True
  | .outer name => Run classStops (rename name).bytes
  | .inner owner simple => ∃ new, Run classStops new ∧ rename (owner.nested simple) = (rename owner).nested new

theorem mark_renamed (rename : Name → Name) (c : Char) : (mark c).renamed rename = mark c := rfl

def Phrase.renamed (rename : Name → Name) : Phrase → Phrase
  | .inner owner => .inner (rename owner)
  | phrase => phrase

section

variable {rename : Name → Name}

theorem sign_renamed {sign : List Piece} (signed : sign ∈ [[], [mark '+'], [mark '-']]) :
    sign.map (Piece.renamed rename) = sign := by
  simp only [List.mem_cons, List.not_mem_nil, or_false] at signed
  rcases signed with rfl | rfl | rfl <;> rfl

theorem inner_renamed {owner : Name} {simple new : Bytes} (named : Run classStops new)
    (nested : rename (owner.nested simple) = (rename owner).nested new) :
    (Piece.inner owner simple).renamed rename = .inner (rename owner) new := by
  rw [Piece.renamed, nested, simple_in_new _ _ _ named.some]

theorem phrase_renamed {phrase : Phrase} {levels : Nat} {pieces : List Piece} (spelled : phrase.Spelled levels pieces)
    (fits : ∀ piece ∈ pieces, Fits rename piece) :
    (phrase.renamed rename).Spelled levels (pieces.map (Piece.renamed rename)) := by
  induction spelled with
  | primitive code known => exact .primitive code known
  | reference spelled ih => exact .reference (ih fits)
  | @classType levels name arguments inner named given nested givenIH nestedIH =>
      simp only [List.map_cons, List.map_append, List.map_nil, mark_renamed]
      simp only [List.forall_mem_cons, List.forall_mem_append] at fits
      obtain ⟨_, here, givenFits, nestedFits, _⟩ := fits
      exact .classType here (givenIH givenFits) (nestedIH nestedFits)
  | typeVariable named => exact .typeVariable named
  | array more spelled ih =>
      rw [List.map_append, List.map_replicate, mark_renamed]
      exact .array more (ih fun piece member => fits piece (List.mem_append_right _ member))
  | noArguments => exact .noArguments
  | arguments spelled ih => exact .arguments (ih fun piece member => fits piece (.tail _ member))
  | lastArgument => exact .lastArgument
  | wildcard later ih => exact .wildcard (ih fun piece member => fits piece (.tail _ member))
  | argument signed spelled later ih laterIH =>
      simp only [List.forall_mem_append] at fits
      obtain ⟨_, oneFits, restFits⟩ := fits
      rw [List.map_append, List.map_append, sign_renamed signed]
      exact .argument signed (ih oneFits) (laterIH restFits)
  | noInner => exact .noInner
  | inner named given nested givenIH nestedIH =>
      simp only [List.forall_mem_cons, List.forall_mem_append] at fits
      obtain ⟨_, ⟨new, newNamed, same⟩, givenFits, nestedFits⟩ := fits
      simp only [List.map_cons, List.map_append, mark_renamed, inner_renamed newNamed same]
      have later := nestedIH nestedFits
      rw [Phrase.renamed, same] at later
      exact .inner newNamed (givenIH givenFits) later

theorem clause_renamed {clause : Clause} {pieces : List Piece} (spelled : clause.Spelled pieces)
    (fits : ∀ piece ∈ pieces, Fits rename piece) : clause.Spelled (pieces.map (Piece.renamed rename)) := by
  induction spelled with
  | noReferences => exact .noReferences
  | references spelled later ih =>
      simp only [List.forall_mem_cons, List.forall_mem_append] at fits
      obtain ⟨_, oneFits, restFits⟩ := fits
      rw [List.map_cons, List.map_append, mark_renamed]
      exact .references (phrase_renamed spelled oneFits) (ih restFits)
  | lastParameter => exact .lastParameter
  | parameter named spelled further later furtherIH laterIH =>
      simp only [List.forall_mem_cons, List.forall_mem_append] at fits
      obtain ⟨_, _, boundFits, othersFit, restFits⟩ := fits
      simp only [List.map_cons, List.map_append, mark_renamed]
      exact .parameter named (phrase_renamed spelled boundFits) (furtherIH othersFit) (laterIH restFits)
  | unbounded named further later follows furtherIH laterIH =>
      simp only [List.forall_mem_cons, List.forall_mem_append] at fits
      obtain ⟨_, _, othersFit, restFits⟩ := fits
      simp only [List.map_cons, List.map_append, mark_renamed]
      refine .unbounded named (furtherIH othersFit) (laterIH restFits) ?_
      rw [← List.map_append, List.head?_map]
      rcases follows with colon | close
      · exact .inl (by rw [colon]; rfl)
      · exact .inr (by rw [close]; rfl)
  | lastOperand => exact .lastOperand
  | operand spelled later ih =>
      rw [List.forall_mem_append] at fits
      rw [List.map_append]
      exact .operand (phrase_renamed spelled fits.1) (ih fits.2)
  | lastType spelled => exact .lastType (phrase_renamed spelled fits)
  | moreTypes spelled later ih =>
      rw [List.forall_mem_append] at fits
      rw [List.map_append]
      exact .moreTypes (phrase_renamed spelled fits.1) (ih fits.2)
  | procedure taken thrown takenIH thrownIH =>
      simp only [List.forall_mem_cons, List.forall_mem_append] at fits
      obtain ⟨_, operandsFit, _, throwsFit⟩ := fits
      simp only [List.map_cons, List.map_append, mark_renamed]
      exact .procedure (takenIH operandsFit) (thrownIH throwsFit)
  | method taken given thrown takenIH thrownIH =>
      simp only [List.forall_mem_cons, List.forall_mem_append] at fits
      obtain ⟨_, operandsFit, resultFits, throwsFit⟩ := fits
      simp only [List.map_cons, List.map_append, mark_renamed]
      exact .method (takenIH operandsFit) (phrase_renamed given resultFits) (thrownIH throwsFit)
  | plain spelled ih => exact .plain (ih fits)
  | bare spelled ih => exact .bare (ih fits)
  | generic bound spelled boundIH ih =>
      simp only [List.forall_mem_cons, List.forall_mem_append] at fits
      obtain ⟨_, parametersFit, bodyFits⟩ := fits
      simp only [List.map_cons, List.map_append, mark_renamed]
      exact .generic (boundIH parametersFit) (ih bodyFits)

end

def Nests (rename : Name → Name) (signature : Name) : Prop :=
  ∀ owner simple, .inner owner simple ∈ (read signature.bytes).1 →
    ∃ new, new ≠ [] ∧ rename (owner.nested simple) = (rename owner).nested new

section

variable {rename : Name → Name} {signature renamed : Name} {pieces : List Piece}

theorem fits_of_nests (done : read signature.bytes = (pieces, none))
    (clean : ∀ name ∈ classNames signature, Run classStops (rename name).bytes) (nests : Nests rename signature) :
    ∀ piece ∈ pieces, Fits rename piece := by
  intro piece member
  have asked : ∀ name, piece.lookup? = some name → Run classStops (rename name).bytes := by
    intro name looks
    apply clean
    rw [class_names_eq, done]
    exact List.mem_filterMap.mpr ⟨piece, member, looks⟩
  cases piece with
  | copied bytes => trivial
  | outer name => exact asked name rfl
  | inner owner simple =>
      obtain ⟨new, some, same⟩ := nests owner simple (by rwa [done])
      have free := (asked _ rfl).free
      rw [same] at free
      exact ⟨new, ⟨some, fun b inside => free b (List.mem_append_right _ (.tail _ inside))⟩, same⟩

theorem lookup_renamed {piece : Piece} (fits : Fits rename piece) :
    (piece.renamed rename).lookup? = piece.lookup?.map rename := by
  cases piece with
  | copied bytes => rfl
  | outer name => rfl
  | inner owner simple =>
      obtain ⟨new, named, same⟩ := fits
      rw [inner_renamed named same, Piece.lookup?, Piece.lookup?, Option.map_some, same]

theorem lookups_renamed (fits : ∀ piece ∈ pieces, Fits rename piece) :
    (pieces.map (Piece.renamed rename)).filterMap Piece.lookup? = (pieces.filterMap Piece.lookup?).map rename := by
  rw [List.filterMap_map, List.map_filterMap]
  exact List.filterMap_congr fun piece member => lookup_renamed (fits piece member)

theorem read_renamed (done : read signature.bytes = (pieces, none)) (fits : ∀ piece ∈ pieces, Fits rename piece) :
    read (pieces.flatMap (Piece.render rename)) = (pieces.map (Piece.renamed rename), none) := by
  obtain ⟨spelled, _⟩ := (read_iff _ _).mp done
  refine (read_iff _ _).mpr ⟨clause_renamed spelled fits, ?_⟩
  rw [textOf, List.flatMap_map]
  exact congrArg pieces.flatMap (funext (Piece.renamed_text rename))

theorem rename_renamed (done : read signature.bytes = (pieces, none)) (fits : ∀ piece ∈ pieces, Fits rename piece)
    (again : Name → Name) (nests : Nests (again ∘ rename) signature) :
    (pieces.map (Piece.renamed rename)).flatMap (Piece.render again) = pieces.flatMap (Piece.render (again ∘ rename)) := by
  rw [List.flatMap_map]
  apply List.flatMap_congr
  intro piece member
  cases piece with
  | copied bytes => rfl
  | outer name => rfl
  | inner owner simple =>
      obtain ⟨new, named, same⟩ := fits _ member
      obtain ⟨newer, some, nested⟩ := nests owner simple (by rwa [done])
      rw [Function.comp_apply, Function.comp_apply] at nested
      rw [inner_renamed named same, Piece.render, Piece.render, Function.comp_apply, Function.comp_apply, ← same, nested,
        simple_in_new _ _ _ some, simple_in_new _ _ _ some]

theorem nests_fixed (done : read signature.bytes = (pieces, none))
    (fixed : ∀ name ∈ classNames signature, rename name = name) :
    Nests rename signature ∧ pieces.flatMap (Piece.render rename) = signature.bytes := by
  obtain ⟨spelled, text⟩ := (read_iff _ _).mp done
  rw [class_names_eq, done] at fixed
  have inside : ∀ owner simple, .inner owner simple ∈ pieces → simple ≠ [] ∧ rename owner = owner ∧
      rename (owner.nested simple) = owner.nested simple := by
    intro owner simple member
    obtain ⟨some, found⟩ := (clause_owned spelled).asked member
    exact ⟨some, fixed owner found, fixed _ (List.mem_filterMap.mpr ⟨_, member, rfl⟩)⟩
  constructor
  · intro owner simple member
    rw [done] at member
    obtain ⟨some, ownerFixed, innerFixed⟩ := inside owner simple member
    exact ⟨simple, some, by rw [innerFixed, ownerFixed]⟩
  · rw [← text, textOf]
    apply List.flatMap_congr
    intro piece member
    cases piece with
    | copied bytes => rfl
    | outer name => rw [Piece.render, fixed name (List.mem_filterMap.mpr ⟨_, member, rfl⟩), Piece.text]
    | inner owner simple =>
        obtain ⟨_, ownerFixed, innerFixed⟩ := inside owner simple member
        rw [Piece.render, innerFixed, ownerFixed, simple_in_nested, Piece.text]

end

/-- Two passes over a signature are one, as long as the first gives names that can stand in a
signature and both keep inner classes inside their owners. A pass that undoes the first on the names
looked up keeps them there by itself. -/
theorem signature_renames_compose (rename again : Name → Name) (signature renamed : Name)
    (clean : ∀ name ∈ classNames signature, Run classStops (rename name).bytes) (nests : Nests rename signature)
    (ran : Signature.rename rename signature = .ok renamed) :
    classNames renamed = (classNames signature).map rename ∧
    (Nests (again ∘ rename) signature → ∃ whole,
      Signature.rename again renamed = .ok whole ∧ Signature.rename (again ∘ rename) signature = .ok whole) ∧
    ((∀ name ∈ classNames signature, again (rename name) = name) → Signature.rename again renamed = .ok signature) := by
  obtain ⟨pieces, done, rfl⟩ := rename_ok_inv ran
  have fits := fits_of_nests done clean nests
  have reread := read_renamed done fits
  have second : Signature.rename again ⟨pieces.flatMap (Piece.render rename)⟩ = _ := rename_of_read reread
  refine ⟨?_, fun later => ?_, fun back => ?_⟩
  · rw [class_names_eq, reread, lookups_renamed fits, class_names_eq, done]
  · exact ⟨_, second, by rw [rename_of_read done, rename_renamed done fits again later]⟩
  · have fixed : Nests (again ∘ rename) signature ∧ _ := nests_fixed done back
    rw [second, rename_renamed done fits again fixed.1]
    rw [fixed.2]

def chain : Name := .ofString "(TX;[LA<+LA;>.B<*>.C;)V"

def chainOut (name : Name) : Name :=
  if name = .ofString "A" then .ofString "P/Q"
  else if name = .ofString "A$B" then .ofString "P/Q$R$S"
  else .ofString "P/Q$R$S$T"

def chainBack (name : Name) : Name :=
  if name = .ofString "P/Q" then .ofString "A"
  else if name = .ofString "P/Q$R$S" then .ofString "A$B"
  else .ofString "A$B$C"

theorem chain_nests : Nests chainOut chain := by
  intro owner simple member
  have pieces : (read chain.bytes).1.filter (·.lookup?.isSome) =
      [.outer (.ofString "A"), .outer (.ofString "A"), .inner (.ofString "A") ['B'.toUInt8],
        .inner (.ofString "A$B") ['C'.toUInt8]] := by decide +kernel
  have kept : .inner owner simple ∈ (read chain.bytes).1.filter (·.lookup?.isSome) := List.mem_filter.mpr ⟨member, rfl⟩
  rw [pieces] at kept
  simp only [List.mem_cons, reduceCtorEq, Piece.inner.injEq, List.not_mem_nil, or_false, false_or] at kept
  rcases kept with ⟨rfl, rfl⟩ | ⟨rfl, rfl⟩
  · exact ⟨"R$S".toList.map Char.toUInt8, by decide, by decide⟩
  · exact ⟨['T'.toUInt8], by decide, by decide⟩

theorem signature_renames_compose_chain :
    (∀ name ∈ classNames chain, Run classStops (chainOut name).bytes) ∧ Nests chainOut chain ∧
    Signature.rename chainOut chain = .ok (.ofString "(TX;[LP/Q<+LP/Q;>.R$S<*>.T;)V") ∧
    (∀ name ∈ classNames chain, chainBack (chainOut name) = name) ∧ Nests (chainBack ∘ chainOut) chain ∧
    Signature.rename chainBack (.ofString "(TX;[LP/Q<+LP/Q;>.R$S<*>.T;)V") = .ok chain := by
  have some : ∀ name ∈ classNames chain, (chainOut name).bytes ≠ [] := by decide +kernel
  have free : ∀ name ∈ classNames chain, ∀ b ∈ (chainOut name).bytes, b ∉ classStops := by decide +kernel
  have clean : ∀ name ∈ classNames chain, Run classStops (chainOut name).bytes := fun name member =>
    ⟨some name member, free name member⟩
  have ran : Signature.rename chainOut chain = .ok (.ofString "(TX;[LP/Q<+LP/Q;>.R$S<*>.T;)V") := by decide +kernel
  have back : ∀ name ∈ classNames chain, chainBack (chainOut name) = name := by decide +kernel
  obtain ⟨pieces, done, _⟩ := rename_ok_inv ran
  obtain ⟨_, _, restored⟩ := signature_renames_compose chainOut chainBack chain _ clean chain_nests ran
  exact ⟨clean, chain_nests, ran, back, (nests_fixed done back).1, restored back⟩

end Signature

end Relabel
