import Relabel.Proofs.DescriptorForms
import Relabel.Proofs.JoinedRules
import Relabel.Proofs.ModeRefinement
import Relabel.Proofs.RenamedTexts
import Relabel.Proofs.SignatureRenaming

set_option autoImplicit false

namespace Relabel

open Signature (Run Phrase Clause mark textOf maxNesting)

def nameBreaks : Bytes := ['.', ';', '[', '<'].map Char.toUInt8

namespace Descriptor

theorem run_class_name {name : Bytes} (named : Run nameBreaks name) : Run Signature.classStops name := by
  have fewer : ∀ b ∈ Signature.classStops, b ∈ nameBreaks := by decide +kernel
  exact ⟨named.some, fun b member stop => named.free b member (fewer b stop)⟩

theorem run_not_array {name : Name} (named : Run nameBreaks name.bytes) : name.isArray = false := by
  obtain ⟨b, tail, opened, free⟩ := Signature.run_opens named
  have other : b ≠ '['.toUInt8 := fun same => free (same ▸ by decide)
  simp [Name.isArray, Name.first?, opened, other]

theorem field_spelled (type : FieldType) (named : ∀ name ∈ type.names, Run nameBreaks name.bytes) :
    Phrase.type.Spelled maxNesting type.pieces := by
  induction type with
  | primitive code known => exact .primitive code known
  | classType name closed =>
      have own := run_class_name (named name (.head _))
      exact .reference (.classType own .noArguments .noInner)
  | array element ih => exact .reference (.array 0 (ih named))

theorem operands_spelled (types : List FieldType)
    (named : ∀ name ∈ types.flatMap FieldType.names, Run nameBreaks name.bytes) :
    Clause.operands.Spelled (types.flatMap FieldType.pieces ++ [mark ')']) := by
  induction types with
  | nil => exact .lastOperand
  | cons type types ih =>
      rw [List.flatMap_cons, List.forall_mem_append] at named
      rw [List.flatMap_cons, List.append_assoc]
      exact .operand (field_spelled type named.1) (ih named.2)

theorem form_spelled (form : Form) (named : ∀ name ∈ form.names, Run nameBreaks name.bytes) :
    Clause.signature.Spelled form.pieces := by
  apply Clause.Spelled.bare
  cases form with
  | field type => exact .plain (.lastType (field_spelled type named))
  | method parameters result =>
      cases result with
      | none =>
          have whole := Clause.Spelled.procedure (operands_spelled parameters named) .noReferences
          simpa [Form.pieces, mark] using whole
      | some result =>
          rw [Form.names, List.forall_mem_append] at named
          have whole := Clause.Spelled.method (operands_spelled parameters named.1)
            (field_spelled result named.2) .noReferences
          simpa [Form.pieces, mark] using whole

theorem form_read (form : Form) (named : ∀ name ∈ form.names, Run nameBreaks name.bytes) :
    Signature.read (form.written id) = (Descriptor.pieces (form.written id), none) := by
  have text : textOf (Descriptor.pieces (form.written id)) = form.written id := pieces_text (form.written id)
  rw [form_pieces] at text ⊢
  exact (Signature.read_iff _ _).mpr ⟨form_spelled form named, text⟩

variable (form : Form) (named : ∀ name ∈ form.names, Run nameBreaks name.bytes)

include named

theorem signature_as_descriptor (rename : Name → Name) :
    Signature.rename rename ⟨form.written id⟩ = .ok (Descriptor.rename rename ⟨form.written id⟩) := by
  rw [rename_eq]
  exact Signature.rename_of_read (form_read form named)

theorem signature_classes :
    Signature.classNames ⟨form.written id⟩ = Descriptor.classNames ⟨form.written id⟩ := by
  rw [Signature.class_names_eq, class_names_eq, form_read form named]

theorem descriptor_classes (renamer : Renamer) :
    renamer.descriptor ⟨form.written id⟩ = Descriptor.rename renamer.className ⟨form.written id⟩ := by
  -- None of the names is an array, so in a descriptor each is looked up like any other class.
  have fixed := rename_fixed id (fun _ => rfl) ⟨form.written id⟩
  have alike : ∀ name ∈ classNames ⟨form.written id⟩, renamer.elementClass name = renamer.className name := by
    intro name member
    rw [(form_renamed id form).2] at member
    exact Renamer.element_class_plain (run_not_array (named name member))
  have same := rename_again id ⟨form.written id⟩ (class_names_closed _) renamer.elementClass renamer.className alike
  rwa [fixed] at same

end Descriptor

open Descriptor

namespace Job

theorem typed_text {σ : Type} (job : Job σ) (form : Form) (named : ∀ name ∈ form.names, Run nameBreaks name.bytes)
    (index : Nat) (role : job.scan.catalog.role index = .ok .descriptor ∨ job.scan.catalog.role index = .ok .signature)
    (p : Progress σ) :
    job.newText index ⟨form.written id⟩ p = .ok ⟨form.written job.renamer.className⟩ p := by
  have renamed := (form_renamed job.renamer.className form).1
  rcases role with role | role
  · rw [newText, role, lift_ok_bind, descriptor_classes form named, renamed]
    rfl
  · rw [newText, role, lift_ok_bind, Renamer.signature, signature_as_descriptor form named, renamed]
    rfl

end Job

/-- A descriptor is renamed the same when it is taken for a signature, and from the same names. So a
text of the pool that is used as both comes out the same whichever use decides. -/
theorem descriptors_agree_as_signatures (form : Form) (named : ∀ name ∈ form.names, Run nameBreaks name.bytes) :
    (∀ rename, Signature.rename rename ⟨form.written id⟩ = .ok (Descriptor.rename rename ⟨form.written id⟩)) ∧
    Signature.classNames ⟨form.written id⟩ = Descriptor.classNames ⟨form.written id⟩ ∧
    (∀ (σ : Type) (job : Job σ) (index : Nat) (p : Progress σ),
      (job.scan.catalog.role index = .ok .descriptor ∨ job.scan.catalog.role index = .ok .signature) →
        job.newText index ⟨form.written id⟩ p = .ok ⟨form.written job.renamer.className⟩ p) ∧
    ∀ (σ : Type) (renamer : Renamer) (oracle : Oracle σ) (settings : Settings) (data : Bytes) (scan : Scan)
      (p q : Progress σ) (renamed : RenamedClass), Scan.ofBytes settings.attributes data = .ok scan →
        renameClass renamer oracle settings data p = .ok renamed q →
          ∀ index, ClassFile.constantAt? data index = some (.text ⟨form.written id⟩) →
            (scan.catalog.role index = .ok .descriptor ∨ scan.catalog.role index = .ok .signature) →
              ClassFile.constantAt? renamed.bytes index = some (.text ⟨form.written renamer.className⟩) := by
  refine ⟨signature_as_descriptor form named, signature_classes form named,
    fun σ job index p role => job.typed_text form named index role p, ?_⟩
  intro σ renamer oracle settings data scan p q renamed scanned ran index held role
  obtain ⟨run⟩ := rename_class_renewed ran
  have same : run.job.scan = scan := by
    have accepted := run.scanned.accepted
    rw [scanned] at accepted
    exact (Except.ok.inj accepted).symm
  obtain ⟨new, there, ⟨passage⟩⟩ := run.text_renamed index _ held
  have renewed := passage.ran
  rw [run.job.typed_text form named index (same ▸ role), run.job_given.1] at renewed
  injection renewed with text
  rw [there, text]

def tangledForm : Form :=
  .method [.array (.array (.classType (.ofString "B") (by decide))), .primitive 'J'.toUInt8 (by decide),
    .classType (.ofString "T>x:(") (by decide)] (some (.classType (.ofString "B") (by decide)))

def plainForm : Form := .field (.classType (.ofString "A") (by decide))

def movedRules : RuleSet := ({} : RuleSet).putClass (.ofString "A") (.ofString "b/A")

theorem descriptors_agree_as_signatures_shared :
    (∀ name ∈ tangledForm.names, Run nameBreaks name.bytes) ∧
      Signature.rename (fun name => ⟨name.bytes ++ name.bytes⟩) (.ofString "([[LB;JLT>x:(;)LB;") =
        .ok (Descriptor.rename (fun name => ⟨name.bytes ++ name.bytes⟩) (.ofString "([[LB;JLT>x:(;)LB;")) ∧
      (∀ name ∈ plainForm.names, Run nameBreaks name.bytes) ∧
      (∃ scan renamed, Scan.ofBytes .interpret signedClass = .ok scan ∧ scan.catalog.role 4 = .ok .signature ∧
        renameClass movedRules.renamer Oracle.empty {} signedClass ⟨(), #[]⟩ = .ok renamed ⟨(), #[]⟩ ∧
        ClassFile.constantAt? renamed.bytes 4 = some (.text (.ofString "Lb/A;"))) ∧
      ∃ scan renamed, Scan.ofBytes .pass signedClass = .ok scan ∧ scan.catalog.role 4 = .ok .descriptor ∧
        renameClass movedRules.renamer Oracle.empty { attributes := .pass } signedClass ⟨(), #[]⟩ =
          .ok renamed ⟨(), #[]⟩ ∧
        ClassFile.constantAt? renamed.bytes 4 = some (.text (.ofString "Lb/A;")) := by
  have tangled : ∀ name ∈ tangledForm.names, Run nameBreaks name.bytes := by
    intro name member
    exact ⟨(by decide : ∀ name ∈ tangledForm.names, name.bytes ≠ []) name member,
      (by decide +kernel : ∀ name ∈ tangledForm.names, ∀ b ∈ name.bytes, b ∉ nameBreaks) name member⟩
  have plain : ∀ name ∈ plainForm.names, Run nameBreaks name.bytes := by
    intro name member
    rw [List.mem_singleton.mp member]
    exact ⟨by decide, by decide +kernel⟩
  obtain ⟨_, _, _, renewed⟩ := descriptors_agree_as_signatures plainForm plain
  refine ⟨tangled, (descriptors_agree_as_signatures tangledForm tangled).1 _, plain, ?_, ?_⟩
  · exact ⟨_, _, rfl, rfl, rfl, renewed Unit movedRules.renamer .empty {} signedClass _ ⟨(), #[]⟩ ⟨(), #[]⟩ _ rfl rfl 4
      rfl (.inr rfl)⟩
  · exact ⟨_, _, rfl, rfl, rfl, renewed Unit movedRules.renamer .empty { attributes := .pass } signedClass _ ⟨(), #[]⟩
      ⟨(), #[]⟩ _ rfl rfl 4 rfl (.inl rfl)⟩

end Relabel
