import Relabel.Proofs.TypeText

set_option autoImplicit false

namespace Relabel

namespace Descriptor

/-- The pieces of a descriptor: bytes that open no name, names with their `L` and `;`, and at the
end perhaps an `L` that no `;` follows. -/
inductive Cut : Bytes → List Piece → Prop where
  | nil : Cut [] []
  | byte (b : UInt8) (bytes : Bytes) (pieces : List Piece) (other : b ≠ 'L'.toUInt8) (rest : Cut bytes pieces) :
      Cut (b :: bytes) (.copied [b] :: pieces)
  | named (name bytes : Bytes) (pieces : List Piece) (closed : ';'.toUInt8 ∉ name) (rest : Cut bytes pieces) :
      Cut ('L'.toUInt8 :: (name ++ ';'.toUInt8 :: bytes))
        (.copied ['L'.toUInt8] :: .outer ⟨name⟩ :: .copied [';'.toUInt8] :: pieces)
  | tail (bytes : Bytes) (unclosed : ';'.toUInt8 ∉ bytes) :
      Cut ('L'.toUInt8 :: bytes) [.copied ['L'.toUInt8], .copied bytes]

theorem run_in_name (name : Bytes) (closed : ';'.toUInt8 ∉ name) (done : List Piece) (front : Bytes) :
    name.foldl Machine.step ⟨done, some front⟩ = ⟨done, some (name.reverse ++ front)⟩ := by
  induction name generalizing front with
  | nil => rfl
  | cons b rest ih =>
      have other : b ≠ ';'.toUInt8 := fun same => closed (same ▸ .head _)
      have step : Machine.step ⟨done, some front⟩ b = ⟨done, some (b :: front)⟩ := if_neg other
      rw [List.foldl_cons, step, ih fun member => closed (.tail _ member), List.reverse_cons, List.append_assoc,
        List.singleton_append]

theorem step_opens (done : List Piece) :
    Machine.step ⟨done, none⟩ 'L'.toUInt8 = ⟨.copied ['L'.toUInt8] :: done, some []⟩ := rfl

theorem step_closes (done : List Piece) (name : Bytes) :
    Machine.step ⟨done, some (name.reverse ++ [])⟩ ';'.toUInt8 =
      ⟨.copied [';'.toUInt8] :: .outer ⟨name⟩ :: done, none⟩ := by
  simp [Machine.step]

theorem cut_run {bytes : Bytes} {found : List Piece} (cut : Cut bytes found) (done : List Piece) :
    (bytes.foldl Machine.step ⟨done, none⟩).finish = done.reverse ++ found := by
  induction cut generalizing done with
  | nil => simp [Machine.finish]
  | byte b bytes pieces other rest ih =>
      have step : Machine.step ⟨done, none⟩ b = ⟨.copied [b] :: done, none⟩ := by simp [Machine.step, other]
      rw [List.foldl_cons, step, ih, List.reverse_cons, List.append_assoc, List.singleton_append]
  | named name bytes pieces closed rest ih =>
      rw [List.foldl_cons, step_opens, List.foldl_append, run_in_name name closed, List.foldl_cons, step_closes, ih]
      simp
  | tail bytes unclosed =>
      rw [List.foldl_cons, step_opens, run_in_name bytes unclosed]
      simp [Machine.finish]

theorem pieces_of_cut {bytes : Bytes} {found : List Piece} (cut : Cut bytes found) : pieces bytes = found := cut_run cut []

theorem cut_exists (bytes : Bytes) : ∃ found, Cut bytes found := by
  match bytes with
  | [] => exact ⟨[], .nil⟩
  | b :: rest =>
      by_cases opens : b = 'L'.toUInt8
      · subst opens
        by_cases closes : ';'.toUInt8 ∈ rest
        · obtain ⟨name, after, rfl, closed⟩ := List.eq_append_cons_of_mem closes
          obtain ⟨found, cut⟩ := cut_exists after
          exact ⟨_, .named name after found closed cut⟩
        · exact ⟨_, .tail rest closes⟩
      · obtain ⟨found, cut⟩ := cut_exists rest
        exact ⟨_, .byte b rest found opens cut⟩
termination_by bytes.length

theorem cut_pieces (bytes : Bytes) : Cut bytes (pieces bytes) := by
  obtain ⟨found, cut⟩ := cut_exists bytes
  rwa [pieces_of_cut cut]

variable {bytes : Bytes} {found : List Piece}

theorem Cut.owned (cut : Cut bytes found) {known : List Name} : Piece.Owned known found := by
  induction cut generalizing known with
  | nil => exact .nil
  | byte b bytes pieces other rest ih => exact .copied _ ih
  | named name bytes pieces closed rest ih => exact .copied _ (.outer _ (.copied _ ih))
  | tail bytes unclosed => exact .copied _ (.copied _ .nil)

theorem rename_eq (rename : Name → Name) (descriptor : Name) :
    Descriptor.rename rename descriptor = ⟨(pieces descriptor.bytes).flatMap (Piece.render rename)⟩ :=
  congrArg Name.mk (Piece.write_all_owned (cut_pieces descriptor.bytes).owned)

theorem Cut.closed (cut : Cut bytes found) (name : Name) (member : .outer name ∈ found) : ';'.toUInt8 ∉ name.bytes := by
  induction cut with
  | nil => cases member
  | byte b bytes pieces other rest ih => exact ih (by simpa using member)
  | named front bytes pieces closed rest ih =>
      have either : name = ⟨front⟩ ∨ .outer name ∈ pieces := by simpa using member
      rcases either with rfl | later
      · exact closed
      · exact ih later
  | tail bytes unclosed => simp at member

theorem Cut.renamed (cut : Cut bytes found) (rename : Name → Name)
    (closed : ∀ name, .outer name ∈ found → ';'.toUInt8 ∉ (rename name).bytes) :
    Cut (found.flatMap (Piece.render rename)) (found.map (Piece.renamed rename)) := by
  induction cut with
  | nil => exact .nil
  | byte b bytes pieces other rest ih =>
      exact .byte b _ _ other (ih fun name member => closed name (.tail _ member))
  | named name bytes pieces _ rest ih =>
      have later := ih fun name member => closed name (.tail _ (.tail _ (.tail _ member)))
      have whole := Cut.named (rename ⟨name⟩).bytes _ _ (closed ⟨name⟩ (.tail _ (.head _))) later
      simpa [Piece.render, Piece.renamed] using whole
  | tail bytes unclosed =>
      have whole := Cut.tail bytes unclosed
      simpa [Piece.render, Piece.renamed] using whole

theorem Cut.rendered (cut : Cut bytes found) (rename again whole : Name → Name)
    (agree : ∀ name, .outer name ∈ found → again (rename name) = whole name) :
    (found.map (Piece.renamed rename)).flatMap (Piece.render again) = found.flatMap (Piece.render whole) := by
  induction cut with
  | nil => rfl
  | byte b bytes pieces other rest ih =>
      have later := ih fun name member => agree name (.tail _ member)
      simp [Piece.render, Piece.renamed, later]
  | named name bytes pieces _ rest ih =>
      have later := ih fun name member => agree name (.tail _ (.tail _ (.tail _ member)))
      have here := agree ⟨name⟩ (.tail _ (.head _))
      simp [Piece.render, Piece.renamed, later, here]
  | tail bytes unclosed => simp [Piece.render, Piece.renamed]

theorem Cut.outer_of_lookup (cut : Cut bytes found) (name : Name) (member : name ∈ found.filterMap Piece.lookup?) :
    .outer name ∈ found := by
  induction cut with
  | nil => cases member
  | byte b bytes pieces other rest ih => exact .tail _ (ih member)
  | named front bytes pieces closed rest ih =>
      have either : name = ⟨front⟩ ∨ name ∈ pieces.filterMap Piece.lookup? := List.mem_cons.mp member
      rcases either with rfl | later
      · exact .tail _ (.head _)
      · exact .tail _ (.tail _ (.tail _ (ih later)))
  | tail bytes unclosed => cases member

theorem mem_class_names (descriptor name : Name) : name ∈ classNames descriptor ↔ .outer name ∈ pieces descriptor.bytes := by
  rw [class_names_eq]
  constructor
  · exact (cut_pieces descriptor.bytes).outer_of_lookup name
  · exact fun member => List.mem_filterMap.mpr ⟨_, member, rfl⟩

theorem class_names_closed (descriptor name : Name) (member : name ∈ classNames descriptor) : ';'.toUInt8 ∉ name.bytes :=
  (cut_pieces descriptor.bytes).closed name ((mem_class_names descriptor name).mp member)

theorem Cut.looked_up (cut : Cut bytes found) (rename : Name → Name) :
    (found.map (Piece.renamed rename)).filterMap Piece.lookup? = (found.filterMap Piece.lookup?).map rename := by
  induction cut with
  | nil => rfl
  | byte b bytes pieces other rest ih => exact ih
  | named name bytes pieces _ rest ih => exact congrArg (rename ⟨name⟩ :: ·) ih
  | tail bytes unclosed => rfl

section

variable (rename : Name → Name) (descriptor : Name)
  (closed : ∀ name ∈ classNames descriptor, ';'.toUInt8 ∉ (rename name).bytes)

include closed

theorem pieces_renamed :
    pieces (Descriptor.rename rename descriptor).bytes = (pieces descriptor.bytes).map (Piece.renamed rename) := by
  rw [rename_eq]
  apply pieces_of_cut
  apply (cut_pieces descriptor.bytes).renamed rename
  exact fun name member => closed name ((mem_class_names descriptor name).mpr member)

theorem class_names_renamed : classNames (Descriptor.rename rename descriptor) = (classNames descriptor).map rename := by
  rw [class_names_eq, pieces_renamed rename descriptor closed, class_names_eq]
  exact (cut_pieces descriptor.bytes).looked_up rename

theorem rename_again (again whole : Name → Name)
    (agree : ∀ name ∈ classNames descriptor, again (rename name) = whole name) :
    Descriptor.rename again (Descriptor.rename rename descriptor) = Descriptor.rename whole descriptor := by
  have rendered := (cut_pieces descriptor.bytes).rendered rename again whole fun name member =>
    agree name ((mem_class_names descriptor name).mpr member)
  rw [rename_eq, pieces_renamed rename descriptor closed, rendered, rename_eq]

end

theorem rename_array (rename : Name → Name) (descriptor : Name) (array : descriptor.isArray) :
    (Descriptor.rename rename descriptor).isArray := by
  obtain ⟨bytes⟩ := descriptor
  cases bytes with
  | nil => cases array
  | cons b rest =>
      have first : b = '['.toUInt8 := by simpa [Name.isArray, Name.first?] using array
      subst first
      have cut := Cut.byte '['.toUInt8 _ _ (by decide) (cut_pieces rest)
      rw [rename_eq, pieces_of_cut cut]
      rfl

end Descriptor

end Relabel
