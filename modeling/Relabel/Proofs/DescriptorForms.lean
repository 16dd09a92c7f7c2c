import Relabel.Proofs.DescriptorCuts

set_option autoImplicit false

namespace Relabel.Descriptor

inductive FieldType where
  | primitive (code : UInt8) (known : code ∈ Signature.primitives)
  | classType (name : Name) (closed : ';'.toUInt8 ∉ name.bytes)
  | array (element : FieldType)

inductive Form where
  | field (type : FieldType)
  | method (parameters : List FieldType) (result : Option FieldType)

namespace FieldType

def written (rename : Name → Name) : FieldType → Bytes
  | .primitive code _ => [code]
  | .classType name _ => 'L'.toUInt8 :: ((rename name).bytes ++ [';'.toUInt8])
  | .array element => '['.toUInt8 :: element.written rename

def names : FieldType → List Name
  | .primitive _ _ => []
  | .classType name _ => [name]
  | .array element => element.names

def pieces : FieldType → List Piece
  | .primitive code _ => [.copied [code]]
  | .classType name _ => [.copied ['L'.toUInt8], .outer name, .copied [';'.toUInt8]]
  | .array element => .copied ['['.toUInt8] :: element.pieces

end FieldType

namespace Form

def written (rename : Name → Name) : Form → Bytes
  | .field type => type.written rename
  | .method parameters none =>
      '('.toUInt8 :: (parameters.flatMap (·.written rename) ++ [')'.toUInt8, 'V'.toUInt8])
  | .method parameters (some result) =>
      '('.toUInt8 :: (parameters.flatMap (·.written rename) ++ ')'.toUInt8 :: result.written rename)

def names : Form → List Name
  | .field type => type.names
  | .method parameters none => parameters.flatMap FieldType.names
  | .method parameters (some result) => parameters.flatMap FieldType.names ++ result.names

def pieces : Form → List Piece
  | .field type => type.pieces
  | .method parameters none =>
      .copied ['('.toUInt8] :: (parameters.flatMap FieldType.pieces ++ [.copied [')'.toUInt8], .copied ['V'.toUInt8]])
  | .method parameters (some result) =>
      .copied ['('.toUInt8] :: (parameters.flatMap FieldType.pieces ++ .copied [')'.toUInt8] :: result.pieces)

end Form

structure Cuts (written : (Name → Name) → Bytes) (names : List Name) (found : List Piece) : Prop where
  before : ∀ bytes rest, Cut bytes rest → Cut (written id ++ bytes) (found ++ rest)
  rendered : ∀ rename, found.flatMap (Piece.render rename) = written rename
  looked_up : found.filterMap Piece.lookup? = names

theorem cuts_nothing : Cuts (fun _ => []) [] [] := ⟨fun _ _ cut => cut, fun _ => rfl, rfl⟩

theorem cuts_byte (b : UInt8) (other : b ≠ 'L'.toUInt8) : Cuts (fun _ => [b]) [] [.copied [b]] :=
  ⟨fun bytes rest cut => .byte b bytes rest other cut, fun _ => rfl, rfl⟩

theorem cuts_class (name : Name) (closed : ';'.toUInt8 ∉ name.bytes) :
    Cuts (fun rename => 'L'.toUInt8 :: ((rename name).bytes ++ [';'.toUInt8])) [name]
      [.copied ['L'.toUInt8], .outer name, .copied [';'.toUInt8]] where
  before bytes rest cut := by simpa using Cut.named name.bytes bytes rest closed cut
  rendered _ := rfl
  looked_up := rfl

theorem cuts_append {left right : (Name → Name) → Bytes} {names others : List Name} {found more : List Piece}
    (first : Cuts left names found) (second : Cuts right others more) :
    Cuts (fun rename => left rename ++ right rename) (names ++ others) (found ++ more) where
  before bytes rest cut := by
    rw [List.append_assoc, List.append_assoc]
    exact first.before _ _ (second.before bytes rest cut)
  rendered rename := by rw [List.flatMap_append, first.rendered, second.rendered]
  looked_up := by rw [List.filterMap_append, first.looked_up, second.looked_up]

theorem primitive_opens_nothing (code : UInt8) (known : code ∈ Signature.primitives) : code ≠ 'L'.toUInt8 := by
  have apart : 'L'.toUInt8 ∉ Signature.primitives := by decide
  exact fun same => apart (same ▸ known)

theorem field_cuts (type : FieldType) : Cuts type.written type.names type.pieces := by
  induction type with
  | primitive code known => exact cuts_byte code (primitive_opens_nothing code known)
  | classType name closed => exact cuts_class name closed
  | array element ih => exact cuts_append (cuts_byte '['.toUInt8 (by decide)) ih

theorem fields_cut (types : List FieldType) :
    Cuts (fun rename => types.flatMap (·.written rename)) (types.flatMap FieldType.names)
      (types.flatMap FieldType.pieces) := by
  induction types with
  | nil => exact cuts_nothing
  | cons type types ih => exact cuts_append (field_cuts type) ih

theorem form_cuts (form : Form) : Cuts form.written form.names form.pieces := by
  cases form with
  | field type => exact field_cuts type
  | method parameters result =>
      have opened := cuts_append (cuts_byte '('.toUInt8 (by decide)) (fields_cut parameters)
      have closed := cuts_byte ')'.toUInt8 (by decide)
      cases result with
      | none =>
          have whole := cuts_append opened (cuts_append closed (cuts_byte 'V'.toUInt8 (by decide)))
          simpa [Form.written, Form.names, Form.pieces] using whole
      | some result =>
          have whole := cuts_append opened (cuts_append closed (field_cuts result))
          simpa [Form.written, Form.names, Form.pieces] using whole

theorem form_pieces (form : Form) : Descriptor.pieces (form.written id) = form.pieces := by
  apply pieces_of_cut
  simpa using (form_cuts form).before [] [] .nil

theorem form_renamed (rename : Name → Name) (form : Form) :
    Descriptor.rename rename ⟨form.written id⟩ = ⟨form.written rename⟩ ∧
      classNames ⟨form.written id⟩ = form.names := by
  rw [rename_eq, class_names_eq, form_pieces, (form_cuts form).rendered, (form_cuts form).looked_up]
  exact ⟨rfl, rfl⟩

theorem descriptor_renamed_structurally (rename : Name → Name) :
    (∀ (again : Name → Name) (descriptor : Name),
      (∀ name ∈ classNames descriptor, ';'.toUInt8 ∉ (rename name).bytes) →
        Descriptor.rename again (Descriptor.rename rename descriptor) = Descriptor.rename (again ∘ rename) descriptor ∧
          classNames (Descriptor.rename rename descriptor) = (classNames descriptor).map rename) ∧
      ∀ form : Form,
        Descriptor.rename rename ⟨form.written id⟩ = ⟨form.written rename⟩ ∧
          classNames ⟨form.written id⟩ = form.names := by
  refine ⟨fun again descriptor closed => ⟨?_, ?_⟩, form_renamed rename⟩
  · exact rename_again rename descriptor closed again _ fun _ _ => rfl
  · exact class_names_renamed rename descriptor closed

def tangled : Name := .ofString ")LL(L[;[L;XLA/B;LI"

def tangledRename (name : Name) : Name := ⟨'L'.toUInt8 :: (name.bytes ++ ['('.toUInt8])⟩

theorem descriptor_renamed_structurally_tangled :
    classNames tangled = [.ofString "L(L[", .ofString "", .ofString "A/B"] ∧
      (∀ name ∈ classNames tangled, ';'.toUInt8 ∉ (tangledRename name).bytes) ∧
      Descriptor.rename tangledRename tangled = .ofString ")LLL(L[(;[LL(;XLLA/B(;LI" ∧
      Descriptor.rename tangledRename (Descriptor.rename tangledRename tangled) =
        Descriptor.rename (tangledRename ∘ tangledRename) tangled := by
  have closed : ∀ name ∈ classNames tangled, ';'.toUInt8 ∉ (tangledRename name).bytes := by decide +kernel
  exact ⟨by decide +kernel, closed, by decide +kernel,
    ((descriptor_renamed_structurally tangledRename).1 tangledRename tangled closed).1⟩

end Relabel.Descriptor
