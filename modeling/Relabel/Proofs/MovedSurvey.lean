import Relabel.Proofs.MemberTables
import Relabel.Proofs.SurveyExtent

set_option autoImplicit false

namespace Relabel

open Cursor (ahead Shifted)

namespace Read

theorem movable_u8 : Movable u8 := movable_bind (movable_bytes 1) fun _ => movable_pure _

theorem movable_remaining : Movable remaining := by
  rintro c d left c' ⟨pos, other, bytes, rfl, rfl⟩ ran
  cases ran
  have same : (ahead pos bytes).remaining = (ahead other bytes).remaining := by
    change pos + bytes.length - pos = other + bytes.length - other
    omega
  exact ⟨_, _, rfl, same, pos, other, bytes, rfl, rfl⟩

end Read

def NameTable.NamesAlike (names others : NameTable) : Prop :=
  ∀ index name, names.get index = .ok name →
    ∃ other, others.get index = .ok other ∧ AttributeKind.ofName other = AttributeKind.ofName name

namespace Survey

open Read NameTable

variable {α β : Type}

def Level (front other : List Fact) (r s : Reading) : Prop :=
  Shifted r.cursor s.cursor ∧ ∃ added, r.facts.toList = front ++ added ∧ s.facts.toList = other ++ added

def Carried (x y : Survey α) : Prop :=
  ∀ front other, Relates (Level front other) x y fun a r b s => a = b ∧ Level front other r s

theorem carried_pure (a : α) : Carried (pure a) (pure a) := fun _ _ => relates_pure fun _ _ level => ⟨rfl, level⟩

theorem carried_bind {x y : Survey α} {f g : α → Survey β} (first : Carried x y) (second : ∀ a, Carried (f a) (g a)) :
    Carried (x >>= f) (y >>= g) :=
  fun front other => relates_bind (first front other) (relates_equal fun a => second a front other)

theorem carried_read {act : Read α} (movable : Movable act) : Carried (act : Survey α) (act : Survey α) := by
  rintro front other r ⟨cursor, facts⟩ a r' ⟨shifted, added, mine, yours⟩ ran
  obtain ⟨read, noted⟩ := read_ok_inv ran
  obtain ⟨b, c, again, same, shifted⟩ := movable _ _ _ _ shifted read
  exact ⟨b, _, read_ok facts again, same, shifted, added, by rw [noted, mine], yours⟩

theorem carried_position {f g : Nat → Survey β} (rest : ∀ here there, Carried (f here) (g there)) :
    Carried ((position : Survey Nat) >>= f) ((position : Survey Nat) >>= g) := by
  intro front other r s b r' level ran
  exact rest r.cursor.pos s.cursor.pos front other r s b r' level ran

theorem carried_throw (e : Fault) (f : α → Survey β) (y : Survey β) : Carried ((throw e : Survey α) >>= f) y := by
  intro front other r s b r' level ran
  cases ran

theorem carried_note (fact : Fact) : Carried (note fact) (note fact) := by
  rintro front other r s a r' ⟨shifted, added, mine, yours⟩ ran
  cases ran
  exact ⟨(), _, rfl, rfl, shifted, added ++ [fact], by simp [mine], by simp [yours]⟩

theorem carried_times (n : Nat) {x y : Survey Unit} (one : Carried x y) : Carried (times n x) (times n y) := by
  induction n with
  | zero => exact carried_pure ()
  | succ n ih =>
      rw [times_succ, times_succ]
      exact carried_bind one fun _ => ih

theorem carried_collect (n : Nat) {x y : Survey α} (one : Carried x y) : Carried (collect n x) (collect n y) :=
  fun front other => relates_collect n (one front other) []

theorem carried_answered {answer other : Except Fault α} {f g : α → Survey β}
    (alike : ∀ a, answer = .ok a → ∃ b, other = .ok b ∧ Carried (f a) (g b)) :
    Carried ((answer : Survey α) >>= f) ((other : Survey α) >>= g) := by
  cases answer with
  | error e =>
      intro front other r s b r' level ran
      cases ran
  | ok a =>
      obtain ⟨b, rfl, rest⟩ := alike a rfl
      exact rest

theorem split_shifted {length : Nat} {c d c' part : Cursor} (shifted : Shifted c d) (ran : split length c = .ok part c') :
    ∃ other d', split length d = .ok other d' ∧ Shifted part other ∧ Shifted c' d' := by
  obtain ⟨pos, elsewhere, bytes, rfl, rfl⟩ := shifted
  by_cases enough : length ≤ bytes.length
  · rw [split_ahead length pos bytes enough] at ran
    cases ran
    exact ⟨_, _, split_ahead length elsewhere bytes enough, ⟨_, _, _, rfl, rfl⟩, _, _, _, rfl, rfl⟩
  · obtain ⟨_, failed⟩ := split_ahead_short length pos bytes (by omega)
    rw [failed] at ran
    cases ran

theorem carried_within (length : Nat) {x y : Survey α} (inside : Carried x y) :
    Carried (within length x) (within length y) := by
  rintro front other r s a r' ⟨shifted, facts⟩ ran
  rw [within] at ran
  cases cut : split length r.cursor with
  | error e c =>
      rw [cut] at ran
      cases ran
  | ok part c =>
      rw [cut] at ran
      dsimp only at ran
      obtain ⟨there, d, cutThere, parts, rests⟩ := split_shifted shifted cut
      cases inner : x { r with cursor := part } with
      | error e stop =>
          rw [inner] at ran
          cases ran
      | ok b stop =>
          rw [inner] at ran
          cases ran
          obtain ⟨found, last, again, same, _, noted⟩ :=
            inside front other { r with cursor := part } { s with cursor := there } _ _ ⟨parts, facts⟩ inner
          refine ⟨found, { last with cursor := d }, ?_, same, rests, noted⟩
          rw [within, cutThere]
          simp only [again]

theorem carried_index : Carried (index : Survey Nat) index := carried_read movable_index
theorem carried_skip (length : Nat) : Carried (skip length : Survey Unit) (skip length) := carried_read (movable_skip length)

theorem carried_use (role : Role) :
    Carried (do note (.use (← index) role)) (do note (.use (← index) role)) :=
  carried_bind carried_index fun _ => carried_note _

theorem carried_annotation_at (depth : Nat) {value : Survey Unit} (valued : Carried value value) :
    Carried (annotationAt depth value) (annotationAt depth value) := by
  by_cases deep : maxNesting < depth
  · rw [annotationAt, if_pos deep]
    exact carried_position fun _ _ => carried_throw _ _ _
  · rw [annotationAt, if_neg deep]
    refine carried_bind carried_index fun _ => carried_bind (carried_note _) fun _ => ?_
    exact carried_bind carried_index fun pairs => carried_times pairs (carried_bind (carried_skip 2) fun _ => valued)

theorem carried_element_value (fuel depth : Nat) : Carried (elementValue fuel depth) (elementValue fuel depth) := by
  induction fuel generalizing depth with
  | zero => exact carried_skip 1
  | succ fuel ih =>
      refine carried_position fun here there => carried_bind (carried_read movable_u8) fun kind => ?_
      split
      · exact carried_skip 2
      · split
        · exact carried_bind carried_index fun _ => carried_bind (carried_note _) fun _ => carried_skip 2
        · split
          · exact carried_use .descriptor
          · split
            · exact carried_annotation_at _ (ih _)
            · split
              · exact carried_bind carried_index fun count => carried_times count (ih _)
              · intro front other r s b r' level ran
                cases ran

theorem carried_annotation_here (depth : Nat) : Carried (annotationHere depth) (annotationHere depth) :=
  carried_bind (carried_read movable_remaining) fun left => carried_annotation_at depth (carried_element_value left _)

theorem carried_annotations (depth : Nat) : Carried (annotations depth) (annotations depth) :=
  carried_bind carried_index fun count => carried_times count (carried_annotation_here depth)

theorem carried_target_width (here there : Nat) (code : UInt8) : Carried (targetWidth here code) (targetWidth there code) := by
  unfold targetWidth
  split
  · exact carried_pure _
  · split
    · exact carried_pure _
    · split
      · exact carried_pure _
      · split
        · exact carried_pure _
        · split
          · exact carried_bind carried_index fun _ => carried_pure _
          · intro front other r s b r' level ran
            cases ran

theorem carried_type_annotation_here (depth : Nat) : Carried (typeAnnotationHere depth) (typeAnnotationHere depth) := by
  refine carried_position fun here there => carried_bind (carried_read movable_u8) fun code => ?_
  refine carried_bind (carried_target_width here there code) fun width => carried_bind (carried_skip _) fun _ => ?_
  exact carried_bind (carried_read movable_u8) fun path => carried_bind (carried_skip _) fun _ => carried_annotation_here depth

theorem carried_inner_class : Carried innerClass innerClass := by
  refine carried_bind carried_index fun inner => carried_bind (carried_skip 2) fun _ => ?_
  refine carried_bind carried_index fun name => carried_bind (carried_skip 2) fun _ => ?_
  split
  · exact carried_note _
  · exact carried_pure ()

theorem carried_enclosing_method : Carried enclosingMethod enclosingMethod := by
  refine carried_bind carried_index fun owner => carried_bind carried_index fun nameAndType => ?_
  split
  · exact carried_note _
  · exact carried_pure ()

theorem carried_local_variables (role : Role) : Carried (localVariables role) (localVariables role) := by
  refine carried_bind carried_index fun count => carried_times count (carried_bind (carried_skip 6) fun _ => ?_)
  exact carried_bind carried_index fun _ => carried_bind (carried_note _) fun _ => carried_skip 2

theorem carried_attribute_body (depth : Nat) {nested other : Survey Unit} (inside : Carried nested other)
    (kind : AttributeKind) : Carried (attributeBody depth nested kind) (attributeBody depth other kind) := by
  cases kind with
  | signature => exact carried_use .signature
  | sourceFile => exact carried_use .sourceFile
  | innerClasses => exact carried_bind carried_index fun count => carried_times count carried_inner_class
  | enclosingMethod => exact carried_enclosing_method
  | record =>
      refine carried_bind carried_index fun count => carried_times count (carried_bind (carried_skip 2) fun _ => ?_)
      exact carried_bind carried_index fun _ => carried_bind (carried_note _) fun _ => inside
  | code =>
      refine carried_bind (carried_skip 4) fun _ => carried_bind (carried_read movable_u32) fun length => ?_
      refine carried_bind (carried_skip _) fun _ => carried_bind carried_index fun handlers => ?_
      exact carried_bind (carried_skip _) fun _ => inside
  | localVariables => exact carried_local_variables .descriptor
  | localVariableTypes => exact carried_local_variables .signature
  | annotations => exact carried_annotations depth
  | parameterAnnotations =>
      exact carried_bind (carried_read movable_u8) fun parameters => carried_times _ (carried_annotations depth)
  | annotationDefault =>
      exact carried_bind (carried_read movable_remaining) fun left => carried_element_value left depth
  | typeAnnotations => exact carried_bind carried_index fun count => carried_times count (carried_type_annotation_here depth)
  | other => exact carried_pure ()

section

variable {names others : NameTable}

theorem carried_attribute_here (alike : names.NamesAlike others) {body other : AttributeKind → Survey Unit}
    (each : ∀ kind, Carried (body kind) (other kind)) : Carried (attributeHere names body) (attributeHere others other) := by
  refine carried_bind carried_index fun name => carried_bind (carried_read movable_u32) fun length => ?_
  refine carried_within length.toNat (carried_answered ?_)
  intro text known
  obtain ⟨new, there, kind⟩ := alike name text known
  exact ⟨new, there, by rw [kind]; exact each _⟩

theorem carried_attribute_table (alike : names.NamesAlike others) {body other : AttributeKind → Survey Unit}
    (each : ∀ kind, Carried (body kind) (other kind)) : Carried (attributeTable names body) (attributeTable others other) :=
  carried_bind carried_index fun count => carried_times count (carried_attribute_here alike each)

theorem carried_nested_attributes (alike : names.NamesAlike others) (fuel depth : Nat) :
    Carried (nestedAttributes names fuel depth) (nestedAttributes others fuel depth) := by
  induction fuel generalizing depth with
  | zero => exact carried_skip 2
  | succ fuel ih => exact carried_attribute_table alike (carried_attribute_body depth (ih (depth + 1)))

theorem carried_outer_attribute (alike : names.NamesAlike others) (kind : AttributeKind) :
    Carried (outerAttribute names kind) (outerAttribute others kind) :=
  carried_bind (carried_read movable_remaining) fun left =>
    carried_attribute_body 0 (carried_nested_attributes alike left 1) kind

theorem carried_attributes (mode : AttributeMode) (alike : mode = .interpret → names.NamesAlike others) :
    Carried (attributes mode names) (attributes mode others) := by
  cases mode with
  | pass => exact carried_read movable_skip_attributes
  | interpret =>
      rw [attributes, attributes]
      exact carried_attribute_table (alike rfl) (carried_outer_attribute (alike rfl))

theorem carried_members (mode : AttributeMode) (alike : mode = .interpret → names.NamesAlike others) (kind : MemberKind) :
    Carried (members mode names kind) (members mode others kind) := by
  refine carried_bind carried_index fun count => carried_times count (carried_bind (carried_skip 2) fun _ => ?_)
  refine carried_bind carried_index fun name => carried_bind carried_index fun descriptor => ?_
  exact carried_bind (carried_note _) fun _ => carried_attributes mode alike

theorem carried_class_index : Carried classIndex classIndex :=
  carried_bind carried_index fun _ => carried_bind (carried_note _) fun _ => carried_pure _

theorem carried_optional_class (index : Nat) : Carried (optionalClass index) (optionalClass index) := by
  unfold optionalClass
  split
  · exact carried_note _
  · exact carried_pure ()

theorem carried_outline (mode : AttributeMode) (alike : mode = .interpret → names.NamesAlike others) :
    Carried (outline mode names) (outline mode others) := by
  rw [outline_steps, outline_steps]
  refine carried_bind (carried_skip 2) fun _ => carried_bind carried_index fun thisClass => ?_
  refine carried_bind carried_index fun superClass => carried_bind (carried_note _) fun _ => ?_
  refine carried_bind (carried_optional_class superClass) fun _ => carried_bind carried_index fun count => ?_
  refine carried_bind (carried_collect count carried_class_index) fun interfaces => ?_
  refine carried_bind (carried_members mode alike .field) fun _ => carried_bind (carried_members mode alike .method) fun _ => ?_
  exact carried_bind (carried_attributes mode alike) fun _ => carried_pure _

end

end Survey

end Relabel
