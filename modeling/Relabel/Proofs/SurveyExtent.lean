import Relabel.Proofs.Surveying

set_option autoImplicit false

namespace Relabel

theorem Read.split_ahead (length pos : Nat) (bytes : Bytes) (enough : length ≤ bytes.length) :
    Read.split length (.ahead pos bytes) =
      .ok (.ahead pos (bytes.take length)) (.ahead (pos + length) (bytes.drop length)) := by
  have inside : (Cursor.ahead pos bytes).pos + length ≤ (Cursor.ahead pos bytes).bound := Nat.add_le_add_left enough pos
  rw [Read.split, dif_pos inside, Cursor.ahead_advance pos length bytes enough]
  exact congrArg (EStateM.Result.ok · _) (Cursor.ahead_window pos length bytes inside)

theorem Read.split_ahead_short (length pos : Nat) (bytes : Bytes) (short : bytes.length < length) :
    ∃ needed, Read.split length (.ahead pos bytes) = .error (.truncated pos needed) (.ahead pos bytes) := by
  have outside : ¬ (Cursor.ahead pos bytes).pos + length ≤ (Cursor.ahead pos bytes).bound := by
    change ¬ pos + length ≤ pos + bytes.length
    omega
  rw [Read.split, dif_neg outside]
  exact ⟨_, rfl⟩

namespace Survey

open Cursor (ahead)

variable {α β : Type}

structure Takes (act : Survey α) (pos : Nat) (facts : Array Fact) (bytes : Bytes) (a : α) (noted : Array Fact) :
    Prop where
  passes : ∀ tail, act ⟨ahead pos (bytes ++ tail), facts⟩ = .ok a ⟨ahead (pos + bytes.length) tail, noted⟩
  starves : ∀ part rest, bytes = part ++ rest → rest ≠ [] →
    ∃ offset needed r, act ⟨ahead pos part, facts⟩ = .error (.truncated offset needed) r ∧
      r.facts.toList <+: noted.toList
  grows : facts.toList <+: noted.toList

def Exact (act : Survey α) : Prop :=
  ∀ pos bytes facts a r, act ⟨ahead pos bytes, facts⟩ = .ok a r →
    ∃ taken tail, bytes = taken ++ tail ∧ r.cursor = ahead (pos + taken.length) tail ∧
      Takes act pos facts taken a r.facts

theorem read_ok {act : Read α} {c d : Cursor} {a : α} (facts : Array Fact) (ran : act c = .ok a d) :
    (act : Survey α) ⟨c, facts⟩ = .ok a ⟨d, facts⟩ := by
  simp only [liftM, monadLift, MonadLift.monadLift, ran]

theorem read_error {act : Read α} {c d : Cursor} {e : Fault} (facts : Array Fact) (ran : act c = .error e d) :
    (act : Survey α) ⟨c, facts⟩ = .error e ⟨d, facts⟩ := by
  simp only [liftM, monadLift, MonadLift.monadLift, ran]

theorem takes_nothing {act : Survey α} {pos : Nat} {facts noted : Array Fact} {a : α}
    (passes : ∀ tail, act ⟨ahead pos tail, facts⟩ = .ok a ⟨ahead pos tail, noted⟩)
    (grows : facts.toList <+: noted.toList) : Takes act pos facts [] a noted where
  passes := passes
  starves part rest cut more := by
    have empty := List.append_eq_nil_iff.mp cut.symm
    exact absurd empty.2 more
  grows := grows

theorem takes_read {act : Read α} {pos : Nat} {bytes : Bytes} {a : α} (facts : Array Fact)
    (takes : Read.Takes act pos bytes a) : Takes (act : Survey α) pos facts bytes a facts where
  passes tail := read_ok facts (takes.passes tail)
  starves part rest cut more := by
    obtain ⟨offset, needed, c, failed⟩ := takes.starves part rest cut more
    exact ⟨offset, needed, ⟨c, facts⟩, read_error facts failed, List.prefix_refl _⟩
  grows := List.prefix_refl _

theorem takes_bind {x : Survey α} {f : α → Survey β} {pos : Nat} {facts middle noted : Array Fact}
    {left right : Bytes} {a : α} {b : β} (first : Takes x pos facts left a middle)
    (second : Takes (f a) (pos + left.length) middle right b noted) :
    Takes (x >>= f) pos facts (left ++ right) b noted where
  passes tail := by
    rw [List.append_assoc, bind_ok (first.passes (right ++ tail)), second.passes tail, List.length_append,
      Nat.add_assoc]
  starves part rest cut more := by
    obtain ⟨inner, rfl, rightEq⟩ | ⟨missing, some, leftEq⟩ := cut_cases cut
    · rw [bind_ok (first.passes inner)]
      exact second.starves inner rest rightEq more
    · obtain ⟨offset, needed, r, failed, earlier⟩ := first.starves part missing leftEq some
      exact ⟨offset, needed, r, bind_error failed, earlier.trans second.grows⟩
  grows := first.grows.trans second.grows

theorem exact_read {act : Read α} (exact : Read.Exact act) : Exact (act : Survey α) := by
  intro pos bytes facts a r ran
  cases read : act (ahead pos bytes) with
  | error e c =>
      rw [read_error facts read] at ran
      cases ran
  | ok b c =>
      rw [read_ok facts read] at ran
      cases ran
      obtain ⟨taken, tail, split, stop, takes⟩ := exact pos bytes a c read
      exact ⟨taken, tail, split, stop, takes_read facts takes⟩

theorem exact_pure (a : α) : Exact (pure a : Survey α) := by
  intro pos bytes facts b r ran
  cases ran
  exact ⟨[], bytes, rfl, rfl, takes_nothing (fun _ => rfl) (List.prefix_refl _)⟩

theorem exact_note (fact : Fact) : Exact (note fact) := by
  intro pos bytes facts b r ran
  cases ran
  refine ⟨[], bytes, rfl, rfl, takes_nothing (fun _ => rfl) ?_⟩
  exact ⟨[fact], Array.toList_push.symm⟩

theorem exact_bind {x : Survey α} {f : α → Survey β} (first : Exact x) (second : ∀ a, Exact (f a)) :
    Exact (x >>= f) := by
  intro pos bytes facts b r ran
  obtain ⟨a, middle, ranFirst, ranSecond⟩ := bind_ok_inv ran
  obtain ⟨left, rest, rfl, stop, takesLeft⟩ := first pos bytes facts a middle ranFirst
  obtain ⟨cursor, noted⟩ := middle
  cases stop
  obtain ⟨right, tail, rfl, stop, takesRight⟩ := second a _ rest noted b r ranSecond
  refine ⟨left ++ right, tail, (List.append_assoc left right tail).symm, ?_, takes_bind takesLeft takesRight⟩
  rw [stop, List.length_append, Nat.add_assoc]

theorem exact_times (n : Nat) {act : Survey Unit} (one : Exact act) : Exact (times n act) := by
  induction n with
  | zero => exact exact_pure ()
  | succ n ih =>
      rw [times_succ]
      exact exact_bind one fun _ => ih

theorem exact_collect_onto (n : Nat) (done : List α) {act : Survey α} (one : Exact act) :
    Exact (collectOnto done n act) := by
  induction n generalizing done with
  | zero => exact exact_pure _
  | succ n ih =>
      rw [collect_onto_succ]
      exact exact_bind one fun a => ih (a :: done)

theorem exact_within {allowed : Fact → Prop} (length : Nat) {act : Survey α} (inside : Notes allowed act) :
    Exact (within length act) := by
  -- The bytes set apart are taken as a whole, however many of them the survey inside looks at.
  intro pos bytes facts a r ran
  by_cases short : bytes.length < length
  · obtain ⟨needed, failed⟩ := Read.split_ahead_short length pos bytes short
    simp only [within, failed] at ran
    cases ran
  · have enough : length ≤ bytes.length := by omega
    simp only [within, Read.split_ahead length pos bytes enough] at ran
    cases surveyed : act ⟨ahead pos (bytes.take length), facts⟩ with
    | error e stop =>
        rw [surveyed] at ran
        cases ran
    | ok b stop =>
        rw [surveyed] at ran
        cases ran
        have size : (bytes.take length).length = length := by
          rw [List.length_take]
          omega
        obtain ⟨added, noted, _⟩ := inside ⟨ahead pos (bytes.take length), facts⟩
        rw [surveyed] at noted
        refine ⟨bytes.take length, bytes.drop length, (List.take_append_drop length bytes).symm, by rw [size], ?_⟩
        refine ⟨fun tail => ?_, fun part rest cut more => ?_, ⟨added, noted.symm⟩⟩
        · have whole := Read.split_ahead length pos (bytes.take length ++ tail) (by rw [List.length_append]; omega)
          rw [List.take_append_of_le_length (by omega), List.take_take, Nat.min_self,
            List.drop_append_of_le_length (by omega), List.drop_eq_nil_of_le (by omega), List.nil_append] at whole
          simp only [within, whole, surveyed, size]
        · have missing : 0 < rest.length := List.length_pos_iff.mpr more
          have lengths := congrArg List.length cut
          rw [List.length_append, size] at lengths
          obtain ⟨needed, failed⟩ := Read.split_ahead_short length pos part (by omega)
          exact ⟨pos, needed, ⟨ahead pos part, facts⟩, by simp only [within, failed], ⟨added, noted.symm⟩⟩

theorem within_passes {act : Survey α} {pos : Nat} {bytes : Bytes} {facts : Array Fact} {a : α} {r : Reading}
    (ran : act ⟨ahead pos bytes, facts⟩ = .ok a r) (tail : Bytes) :
    within bytes.length act ⟨ahead pos (bytes ++ tail), facts⟩ = .ok a ⟨ahead (pos + bytes.length) tail, r.facts⟩ := by
  have cut := Read.split_ahead bytes.length pos (bytes ++ tail) (by simp)
  rw [List.take_left, List.drop_left] at cut
  simp only [within, cut, ran]

theorem exact_ends {act : Survey α} (exact : Exact act) {pos : Nat} {bytes tail : Bytes} {facts : Array Fact} {a : α} {r : Reading}
    (ran : act ⟨ahead pos (bytes ++ tail), facts⟩ = .ok a r) (ends : r.cursor = ahead (pos + bytes.length) tail) :
    Takes act pos facts bytes a r.facts := by
  obtain ⟨taken, rest, split, stop, takes⟩ := exact pos _ facts a r ran
  have same : rest = tail := congrArg Cursor.rest (stop.symm.trans ends)
  rw [same] at split
  rwa [List.append_cancel_right split]

theorem exact_index : Exact (Read.index : Survey Nat) := exact_read Read.exact_index

theorem exact_skip (length : Nat) : Exact (Read.skip length : Survey Unit) := exact_read (Read.exact_skip length)

theorem exact_attribute_here {allowed : Fact → Prop} (names : NameTable) {body : AttributeKind → Survey Unit}
    (each : ∀ kind, Notes allowed (body kind)) : Exact (attributeHere names body) := by
  refine exact_bind exact_index fun name => exact_bind (exact_read Read.exact_u32) fun length => ?_
  exact exact_within length.toNat (notes_bind (notes_known _) fun found => each (AttributeKind.ofName found))

theorem exact_attribute_table {allowed : Fact → Prop} (names : NameTable) {body : AttributeKind → Survey Unit}
    (each : ∀ kind, Notes allowed (body kind)) : Exact (attributeTable names body) :=
  exact_bind exact_index fun count => exact_times count (exact_attribute_here names each)

theorem exact_attributes (mode : AttributeMode) (names : NameTable) : Exact (attributes mode names) := by
  cases mode with
  | pass => exact exact_read Read.exact_skip_attributes
  | interpret =>
      rw [attributes]
      exact exact_attribute_table names (notes_outer_attribute names)

theorem exact_members (mode : AttributeMode) (names : NameTable) (kind : MemberKind) :
    Exact (members mode names kind) := by
  refine exact_bind exact_index fun count => exact_times count (exact_bind (exact_skip 2) fun _ => ?_)
  refine exact_bind exact_index fun name => exact_bind exact_index fun descriptor => ?_
  exact exact_bind (exact_note _) fun _ => exact_attributes mode names

theorem exact_class_index : Exact classIndex :=
  exact_bind exact_index fun _ => exact_bind (exact_note _) fun _ => exact_pure _

theorem exact_optional_class (index : Nat) : Exact (optionalClass index) := by
  unfold optionalClass
  split
  · exact exact_note _
  · exact exact_pure ()

theorem exact_opening (mode : AttributeMode) (names : NameTable) : Exact (opening mode names) := by
  refine exact_bind (exact_skip 2) fun _ => exact_bind exact_index fun thisClass => ?_
  refine exact_bind exact_index fun superClass => exact_bind (exact_note _) fun _ => ?_
  refine exact_bind (exact_optional_class superClass) fun _ => exact_bind exact_index fun count => ?_
  refine exact_bind (exact_collect_onto count [] exact_class_index) fun _ => ?_
  refine exact_bind (exact_members mode names .field) fun _ => exact_bind (exact_members mode names .method) fun _ => ?_
  exact exact_pure _

theorem exact_outline (mode : AttributeMode) (names : NameTable) : Exact (outline mode names) := by
  rw [outline_opens]
  exact exact_bind (exact_opening mode names) fun _ => exact_bind (exact_attributes mode names) fun _ => exact_pure _

end Survey

end Relabel
