import Relabel.ClassFile.Outline
import Relabel.Proofs.Reading

set_option autoImplicit false

namespace Relabel

def Fact.OfAttribute : Fact → Prop
  | .use _ role => role = .descriptor ∨ role = .signature ∨ role = .sourceFile
  | .inner .. | .enclosing .. => True
  | _ => False

def Fact.OfBody : Fact → Prop
  | .declares .. | .addresses .. => True
  | fact => fact.OfAttribute

theorem attribute_fact_of_body (fact : Fact) (stated : fact.OfAttribute) : fact.OfBody := by
  cases fact with
  | declares | addresses => trivial
  | _ => exact stated

namespace Survey

variable {α β : Type}

def reached : EStateM.Result Fault Reading α → Reading
  | .ok _ r => r
  | .error _ r => r

def Notes (allowed : Fact → Prop) (act : Survey α) : Prop :=
  ∀ r, ∃ added, (reached (act r)).facts.toList = r.facts.toList ++ added ∧ ∀ fact ∈ added, allowed fact

variable {allowed : Fact → Prop}

theorem notes_still {act : Survey α} (still : ∀ r, (reached (act r)).facts = r.facts) : Notes allowed act := by
  intro r
  exact ⟨[], by rw [still, List.append_nil], fun _ member => nomatch member⟩

theorem notes_pure (a : α) : Notes allowed (pure a : Survey α) := notes_still fun _ => rfl

theorem notes_throw (e : Fault) : Notes allowed (throw e : Survey α) := notes_still fun _ => rfl

theorem notes_read (act : Read α) : Notes allowed (act : Survey α) := by
  apply notes_still
  intro r
  cases ran : act r.cursor with
  | ok a cursor => simp only [liftM, monadLift, MonadLift.monadLift, ran, reached]
  | error e cursor => simp only [liftM, monadLift, MonadLift.monadLift, ran, reached]

theorem notes_known (answer : Except Fault α) : Notes allowed (answer : Survey α) := by
  apply notes_still
  intro r
  cases answer <;> rfl

theorem notes_note (fact : Fact) (kind : allowed fact) : Notes allowed (note fact) := by
  intro r
  refine ⟨[fact], Array.toList_push, ?_⟩
  intro one member
  rw [List.mem_singleton.mp member]
  exact kind

theorem notes_bind {x : Survey α} {f : α → Survey β} (first : Notes allowed x) (second : ∀ a, Notes allowed (f a)) :
    Notes allowed (x >>= f) := by
  intro r
  obtain ⟨left, leftEq, leftAllowed⟩ := first r
  cases ran : x r with
  | error e stop =>
      rw [bind_error ran]
      rw [ran] at leftEq
      exact ⟨left, leftEq, leftAllowed⟩
  | ok a middle =>
      rw [bind_ok ran]
      rw [ran] at leftEq
      obtain ⟨right, rightEq, rightAllowed⟩ := second a middle
      refine ⟨left ++ right, ?_, ?_⟩
      · rw [rightEq, ← List.append_assoc]
        exact congrArg (· ++ right) leftEq
      · intro fact member
        rcases List.mem_append.mp member with member | member
        · exact leftAllowed fact member
        · exact rightAllowed fact member

theorem notes_answered (answer : Except Fault α) {f : α → Survey β} (each : ∀ a, answer = .ok a → Notes allowed (f a)) :
    Notes allowed ((answer : Survey α) >>= f) := by
  cases answer with
  | error e => exact notes_still fun _ => rfl
  | ok a => exact each a rfl

theorem notes_times (n : Nat) {act : Survey Unit} (one : Notes allowed act) : Notes allowed (times n act) := by
  induction n with
  | zero => exact notes_pure ()
  | succ n ih =>
      rw [times_succ]
      exact notes_bind one fun _ => ih

theorem notes_collect_onto (n : Nat) (done : List α) {act : Survey α} (one : Notes allowed act) :
    Notes allowed (collectOnto done n act) := by
  induction n generalizing done with
  | zero => exact notes_pure _
  | succ n ih =>
      rw [collect_onto_succ]
      exact notes_bind one fun a => ih (a :: done)

theorem notes_within (length : Nat) {act : Survey α} (inside : Notes allowed act) : Notes allowed (within length act) := by
  intro r
  rw [within]
  cases split : Read.split length r.cursor with
  | error e cursor => exact ⟨[], (List.append_nil _).symm, fun _ member => nomatch member⟩
  | ok part cursor =>
      obtain ⟨added, addedEq, addedAllowed⟩ := inside { r with cursor := part }
      refine ⟨added, ?_, addedAllowed⟩
      dsimp only
      cases ran : act { r with cursor := part } with
      | ok a stop =>
          rw [ran] at addedEq
          exact addedEq
      | error e stop =>
          rw [ran] at addedEq
          exact addedEq

theorem notes_use (role : Role) (kind : role = .descriptor ∨ role = .signature ∨ role = .sourceFile) :
    Notes Fact.OfAttribute (do note (.use (← Read.index) role)) :=
  notes_bind (notes_read _) fun _ => notes_note _ kind

theorem notes_annotation_at (depth : Nat) {value : Survey Unit} (valued : Notes Fact.OfAttribute value) :
    Notes Fact.OfAttribute (annotationAt depth value) := by
  have rest : Notes Fact.OfAttribute (do
      note (.use (← Read.index) .descriptor)
      let pairs ← Read.index
      times pairs do
        Read.skip 2
        value) := by
    refine notes_bind (notes_read _) fun index => notes_bind (notes_note _ (.inl rfl)) fun _ => ?_
    exact notes_bind (notes_read _) fun pairs => notes_times pairs (notes_bind (notes_read _) fun _ => valued)
  by_cases deep : maxNesting < depth
  · rw [annotationAt, if_pos deep]
    exact notes_bind (notes_read _) fun _ => notes_bind (notes_throw _) fun _ => rest
  · rw [annotationAt, if_neg deep]
    exact rest

theorem notes_element_value (fuel depth : Nat) : Notes Fact.OfAttribute (elementValue fuel depth) := by
  induction fuel generalizing depth with
  | zero => exact notes_read _
  | succ fuel ih =>
      refine notes_bind (notes_read _) fun offset => notes_bind (notes_read _) fun kind => ?_
      split
      · exact notes_read _
      · split
        · exact notes_bind (notes_read _) fun _ => notes_bind (notes_note _ (.inl rfl)) fun _ => notes_read _
        · split
          · exact notes_use .descriptor (.inl rfl)
          · split
            · exact notes_annotation_at _ (ih _)
            · split
              · exact notes_bind (notes_read _) fun count => notes_times count (ih _)
              · exact notes_throw _

theorem notes_annotation_here (depth : Nat) : Notes Fact.OfAttribute (annotationHere depth) :=
  notes_bind (notes_read _) fun left => notes_annotation_at depth (notes_element_value left _)

theorem notes_annotations (depth : Nat) : Notes Fact.OfAttribute (annotations depth) :=
  notes_bind (notes_read _) fun count => notes_times count (notes_annotation_here depth)

theorem notes_target_width (offset : Nat) (code : UInt8) : Notes allowed (targetWidth offset code) := by
  unfold targetWidth
  split
  · exact notes_pure _
  · split
    · exact notes_pure _
    · split
      · exact notes_pure _
      · split
        · exact notes_pure _
        · split
          · exact notes_bind (notes_read _) fun _ => notes_pure _
          · exact notes_throw _

theorem notes_type_annotation_here (depth : Nat) : Notes Fact.OfAttribute (typeAnnotationHere depth) := by
  refine notes_bind (notes_read _) fun offset => notes_bind (notes_read _) fun code => ?_
  refine notes_bind (notes_target_width offset code) fun width => notes_bind (notes_read _) fun _ => ?_
  exact notes_bind (notes_read _) fun path => notes_bind (notes_read _) fun _ => notes_annotation_here depth

theorem notes_inner_class : Notes Fact.OfAttribute innerClass := by
  refine notes_bind (notes_read _) fun inner => notes_bind (notes_read _) fun _ => ?_
  refine notes_bind (notes_read _) fun name => notes_bind (notes_read _) fun _ => ?_
  split
  · exact notes_note _ trivial
  · exact notes_pure ()

theorem notes_enclosing_method : Notes Fact.OfAttribute enclosingMethod := by
  refine notes_bind (notes_read _) fun owner => notes_bind (notes_read _) fun nameAndType => ?_
  split
  · exact notes_note _ trivial
  · exact notes_pure ()

theorem notes_local_variables (role : Role) (kind : role = .descriptor ∨ role = .signature ∨ role = .sourceFile) :
    Notes Fact.OfAttribute (localVariables role) := by
  refine notes_bind (notes_read _) fun count => notes_times count (notes_bind (notes_read _) fun _ => ?_)
  exact notes_bind (notes_read _) fun _ => notes_bind (notes_note _ kind) fun _ => notes_read _

theorem notes_attribute_body (depth : Nat) {nested : Survey Unit} (within : Notes Fact.OfAttribute nested)
    (kind : AttributeKind) : Notes Fact.OfAttribute (attributeBody depth nested kind) := by
  cases kind with
  | signature => exact notes_use .signature (.inr (.inl rfl))
  | sourceFile => exact notes_use .sourceFile (.inr (.inr rfl))
  | innerClasses => exact notes_bind (notes_read _) fun count => notes_times count notes_inner_class
  | enclosingMethod => exact notes_enclosing_method
  | record =>
      refine notes_bind (notes_read _) fun count => notes_times count (notes_bind (notes_read _) fun _ => ?_)
      exact notes_bind (notes_read _) fun _ => notes_bind (notes_note _ (.inl rfl)) fun _ => within
  | code =>
      refine notes_bind (notes_read _) fun _ => notes_bind (notes_read _) fun length => ?_
      refine notes_bind (notes_read _) fun _ => notes_bind (notes_read _) fun handlers => ?_
      exact notes_bind (notes_read _) fun _ => within
  | localVariables => exact notes_local_variables .descriptor (.inl rfl)
  | localVariableTypes => exact notes_local_variables .signature (.inr (.inl rfl))
  | annotations => exact notes_annotations depth
  | parameterAnnotations =>
      exact notes_bind (notes_read _) fun parameters => notes_times parameters.toNat (notes_annotations depth)
  | annotationDefault => exact notes_bind (notes_read _) fun left => notes_element_value left depth
  | typeAnnotations => exact notes_bind (notes_read _) fun count => notes_times count (notes_type_annotation_here depth)
  | other => exact notes_pure ()

def attributeHere (names : NameTable) (body : AttributeKind → Survey Unit) : Survey Unit := do
  let name ← Read.index
  let length ← Read.u32
  within length.toNat do
    body (AttributeKind.ofName (← names.get name))

theorem notes_attribute_table (names : NameTable) {body : AttributeKind → Survey Unit}
    (each : ∀ index name, names.get index = .ok name → Notes allowed (body (AttributeKind.ofName name))) :
    Notes allowed (attributeTable names body) := by
  refine notes_bind (notes_read _) fun count => notes_times count (notes_bind (notes_read _) fun index => ?_)
  refine notes_bind (notes_read _) fun length => notes_within length.toNat ?_
  exact notes_answered (names.get index) (each index)

theorem notes_nested_attributes (names : NameTable) (fuel depth : Nat) :
    Notes Fact.OfAttribute (nestedAttributes names fuel depth) := by
  induction fuel generalizing depth with
  | zero => exact notes_read _
  | succ fuel ih => exact notes_attribute_table names fun _ _ _ => notes_attribute_body depth (ih (depth + 1)) _

def outerAttribute (names : NameTable) (kind : AttributeKind) : Survey Unit := do
  attributeBody 0 (nestedAttributes names (← Read.remaining) 1) kind

theorem notes_outer_attribute (names : NameTable) (kind : AttributeKind) :
    Notes Fact.OfAttribute (outerAttribute names kind) :=
  notes_bind (notes_read _) fun left => notes_attribute_body 0 (notes_nested_attributes names left 1) kind

theorem notes_attributes (mode : AttributeMode) (names : NameTable) :
    Notes Fact.OfAttribute (attributes mode names) := by
  cases mode with
  | pass => exact notes_read _
  | interpret =>
      rw [attributes]
      exact notes_attribute_table names fun _ _ _ => notes_outer_attribute names _

theorem notes_weaken {wider : Fact → Prop} {act : Survey α} (notes : Notes allowed act)
    (implied : ∀ fact, allowed fact → wider fact) : Notes wider act := by
  intro r
  obtain ⟨added, same, each⟩ := notes r
  exact ⟨added, same, fun fact member => implied fact (each fact member)⟩

theorem notes_members_of (mode : AttributeMode) (names : NameTable) (kind : MemberKind)
    (declared : ∀ name descriptor, allowed (.declares name descriptor kind)) (attributed : Notes allowed (attributes mode names)) :
    Notes allowed (members mode names kind) := by
  refine notes_bind (notes_read _) fun count => notes_times count (notes_bind (notes_read _) fun _ => ?_)
  refine notes_bind (notes_read _) fun name => notes_bind (notes_read _) fun descriptor => ?_
  exact notes_bind (notes_note _ (declared name descriptor)) fun _ => attributed

theorem notes_body_attributes (mode : AttributeMode) (names : NameTable) : Notes Fact.OfBody (attributes mode names) :=
  notes_weaken (notes_attributes mode names) attribute_fact_of_body

theorem notes_members (mode : AttributeMode) (names : NameTable) (kind : MemberKind) :
    Notes Fact.OfBody (members mode names kind) :=
  notes_members_of mode names kind (fun _ _ => trivial) (notes_body_attributes mode names)

theorem notes_class_index (addressed : ∀ index, allowed (.addresses .classRef index)) : Notes allowed classIndex :=
  notes_bind (notes_read _) fun index => notes_bind (notes_note _ (addressed index)) fun _ => notes_pure _

def optionalClass (index : Nat) : Survey Unit :=
  if index ≠ 0 then note (.addresses .classRef index) else pure ()

def tables (mode : AttributeMode) (names : NameTable) (thisClass superClass : Nat) : Survey Outline := do
  let count ← Read.index
  let interfaces ← collect count classIndex
  members mode names .field
  members mode names .method
  attributes mode names
  return ⟨thisClass, superClass, interfaces⟩

theorem outline_steps (mode : AttributeMode) (names : NameTable) :
    outline mode names = (do
      Read.skip 2
      let thisClass ← Read.index
      let superClass ← Read.index
      note (.addresses .classRef thisClass)
      optionalClass superClass
      tables mode names thisClass superClass) := by
  refine bind_congr fun _ => bind_congr fun thisClass => bind_congr fun superClass => bind_congr fun _ => ?_
  by_cases named : superClass ≠ 0
  · rw [optionalClass, if_pos named, if_pos named]
    rfl
  · rw [optionalClass, if_neg named, if_neg named]
    rfl

def opening (mode : AttributeMode) (names : NameTable) : Survey Outline := do
  Read.skip 2
  let thisClass ← Read.index
  let superClass ← Read.index
  note (.addresses .classRef thisClass)
  optionalClass superClass
  let count ← Read.index
  let interfaces ← collect count classIndex
  members mode names .field
  members mode names .method
  return ⟨thisClass, superClass, interfaces⟩

theorem outline_opens (mode : AttributeMode) (names : NameTable) :
    outline mode names = (do
      let found ← opening mode names
      attributes mode names
      return found) := by
  rw [outline_steps]
  simp only [opening, tables, bind_assoc, pure_bind]

theorem notes_optional_class (index : Nat) (addressed : allowed (.addresses .classRef index)) :
    Notes allowed (optionalClass index) := by
  unfold optionalClass
  split
  · exact notes_note _ addressed
  · exact notes_pure ()

theorem notes_outline_of (mode : AttributeMode) (names : NameTable) (addressed : ∀ index, allowed (.addresses .classRef index))
    (declared : ∀ name descriptor kind, allowed (.declares name descriptor kind))
    (attributed : Notes allowed (attributes mode names)) : Notes allowed (outline mode names) := by
  have listed := fun kind => notes_members_of mode names kind (fun name descriptor => declared name descriptor kind) attributed
  rw [outline_steps]
  refine notes_bind (notes_read _) fun _ => notes_bind (notes_read _) fun thisClass => ?_
  refine notes_bind (notes_read _) fun superClass => notes_bind (notes_note _ (addressed thisClass)) fun _ => ?_
  refine notes_bind (notes_optional_class superClass (addressed superClass)) fun _ => notes_bind (notes_read _) fun count => ?_
  refine notes_bind (notes_collect_onto count [] (notes_class_index addressed)) fun _ => ?_
  refine notes_bind (listed .field) fun _ => notes_bind (listed .method) fun _ => ?_
  exact notes_bind attributed fun _ => notes_pure _

theorem notes_outline (mode : AttributeMode) (names : NameTable) : Notes Fact.OfBody (outline mode names) :=
  notes_outline_of mode names (fun _ => trivial) (fun _ _ _ => trivial) (notes_body_attributes mode names)

theorem notes_kept {act : Survey α} (notes : Notes allowed act) {r r' : Reading} {a : α} (ran : act r = .ok a r')
    (fact : Fact) (member : fact ∈ r.facts.toList) : fact ∈ r'.facts.toList := by
  obtain ⟨added, same, _⟩ := notes r
  rw [ran] at same
  change r'.facts.toList = _ at same
  rw [same]
  exact List.mem_append_left added member

theorem class_index_addresses {r r' : Reading} {index : Nat} (ran : classIndex r = .ok index r') :
    Fact.addresses .classRef index ∈ r'.facts.toList := by
  obtain ⟨_, _, _, rest⟩ := bind_ok_inv ran
  obtain ⟨_, _, noted, finished⟩ := bind_ok_inv rest
  cases noted
  cases finished
  simp

theorem collect_classes_addresses (n : Nat) (done found : List Nat) (r r' : Reading)
    (before : ∀ index ∈ done, Fact.addresses .classRef index ∈ r.facts.toList)
    (ran : collectOnto done n classIndex r = .ok found r') :
    ∀ index ∈ found, Fact.addresses .classRef index ∈ r'.facts.toList := by
  induction n generalizing done r with
  | zero =>
      cases ran
      intro index member
      exact before index (List.mem_reverse.mp member)
  | succ n ih =>
      rw [collect_onto_succ] at ran
      obtain ⟨one, middle, first, rest⟩ := bind_ok_inv ran
      refine ih (one :: done) middle ?_ rest
      intro index member
      cases member with
      | head => exact class_index_addresses first
      | tail _ member =>
          have notes : Notes Fact.OfBody classIndex := notes_class_index fun _ => trivial
          exact notes_kept notes first _ (before index member)

theorem outline_addresses (mode : AttributeMode) (names : NameTable) (r final : Reading) (found : Outline)
    (ran : outline mode names r = .ok found final) :
    Fact.addresses .classRef found.thisClass ∈ final.facts.toList ∧
      (found.superClass ≠ 0 → Fact.addresses .classRef found.superClass ∈ final.facts.toList) ∧
      ∀ index ∈ found.interfaces, Fact.addresses .classRef index ∈ final.facts.toList := by
  rw [outline_steps] at ran
  obtain ⟨_, _, _, ran⟩ := bind_ok_inv ran
  obtain ⟨thisClass, _, _, ran⟩ := bind_ok_inv ran
  obtain ⟨superClass, atClass, _, ran⟩ := bind_ok_inv ran
  obtain ⟨_, noted, ranNote, ran⟩ := bind_ok_inv ran
  obtain ⟨_, both, ranSuper, ran⟩ := bind_ok_inv ran
  obtain ⟨count, counted, ranCount, ran⟩ := bind_ok_inv ran
  obtain ⟨interfaces, listed, ranInterfaces, ran⟩ := bind_ok_inv ran
  obtain ⟨_, fields, ranFields, ran⟩ := bind_ok_inv ran
  obtain ⟨_, methods, ranMethods, ran⟩ := bind_ok_inv ran
  obtain ⟨_, last, ranAttributes, ran⟩ := bind_ok_inv ran
  cases ran
  -- Facts once noted stay noted until the end of the survey.
  have later : ∀ fact ∈ listed.facts.toList, fact ∈ final.facts.toList := by
    intro fact member
    have inFields := notes_kept (notes_members mode names .field) ranFields fact member
    have inMethods := notes_kept (notes_members mode names .method) ranMethods fact inFields
    exact notes_kept (notes_attributes mode names) ranAttributes fact inMethods
  have classes : ∀ fact ∈ both.facts.toList, fact ∈ final.facts.toList := by
    intro fact member
    have count_read : Notes Fact.OfBody (Read.index : Survey Nat) := notes_read _
    have classes_read : Notes Fact.OfBody (collect count classIndex) :=
      notes_collect_onto count [] (notes_class_index fun _ => trivial)
    have inCounted := notes_kept count_read ranCount fact member
    exact later fact (notes_kept classes_read ranInterfaces fact inCounted)
  refine ⟨?_, ?_, ?_⟩
  · have super_noted : Notes Fact.OfBody (optionalClass superClass) := notes_optional_class superClass trivial
    refine classes _ (notes_kept super_noted ranSuper _ ?_)
    cases ranNote
    simp
  · intro named
    apply classes
    rw [optionalClass, if_pos named] at ranSuper
    cases ranSuper
    simp
  · intro index member
    apply later
    exact collect_classes_addresses count [] interfaces counted listed (fun _ none => nomatch none) ranInterfaces index member

end Survey

end Relabel
