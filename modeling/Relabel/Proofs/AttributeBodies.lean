import Relabel.Proofs.Scanning

set_option autoImplicit false

namespace Relabel

structure Span where
  start : Nat
  length : Nat
deriving DecidableEq

namespace Span

def Covers (span : Span) (i : Nat) : Prop := span.start ≤ i ∧ i < span.start + span.length

def moved (shift : Nat) (span : Span) : Span := ⟨shift + span.start, span.length⟩

def cut (bytes : Bytes) (span : Span) : Bytes := (bytes.drop span.start).take span.length

end Span

def AlikeOutside (spans : List Span) (bytes other : Bytes) : Prop :=
  ∀ i, (∀ span ∈ spans, ¬ span.Covers i) → bytes[i]? = other[i]?

theorem covers_moved (span : Span) (shift i : Nat) : (span.moved shift).Covers (shift + i) ↔ span.Covers i := by
  simp only [Span.Covers, Span.moved]
  omega

theorem cut_moved (span : Span) (front bytes : Bytes) :
    (span.moved front.length).cut (front ++ bytes) = span.cut bytes := by
  rw [Span.cut, Span.cut, Span.moved, List.drop_length_add_append]

theorem uncovered_front {spans : List Span} {shift i : Nat} (less : i < shift) :
    ∀ span ∈ spans.map (Span.moved shift), ¬ span.Covers i := by
  intro span member covers
  obtain ⟨old, _, rfl⟩ := List.mem_map.mp member
  have reached : shift + old.start ≤ i := covers.1
  omega

theorem uncovered_behind {spans : List Span} {i : Nat} (shift : Nat) :
    (∀ span ∈ spans.map (Span.moved shift), ¬ span.Covers (shift + i)) ↔ ∀ span ∈ spans, ¬ span.Covers i := by
  simp only [List.forall_mem_map, covers_moved]

theorem alike_behind (front bytes other : Bytes) (spans : List Span) :
    AlikeOutside (spans.map (Span.moved front.length)) (front ++ bytes) (front ++ other) ↔ AlikeOutside spans bytes other := by
  constructor
  · intro alike i free
    have same := alike (front.length + i) ((uncovered_behind front.length).mpr free)
    rwa [List.getElem?_append_right (Nat.le_add_right _ _), List.getElem?_append_right (Nat.le_add_right _ _),
      Nat.add_sub_cancel_left] at same
  · intro alike i free
    by_cases less : i < front.length
    · rw [List.getElem?_append_left less, List.getElem?_append_left less]
    · obtain ⟨j, rfl⟩ := Nat.exists_eq_add_of_le (Nat.le_of_not_lt less)
      have same := alike j ((uncovered_behind front.length).mp free)
      rwa [List.getElem?_append_right (Nat.le_add_right _ _), List.getElem?_append_right (Nat.le_add_right _ _),
        Nat.add_sub_cancel_left]

theorem front_of_alike {front bytes other : Bytes} {spans : List Span}
    (alike : AlikeOutside (spans.map (Span.moved front.length)) (front ++ bytes) other) : ∃ tail, other = front ++ tail := by
  have start : other.take front.length = front := by
    apply List.ext_getElem?
    intro i
    by_cases less : i < front.length
    · rw [List.getElem?_take_of_lt less, ← alike i (uncovered_front less), List.getElem?_append_left less]
    · rw [List.getElem?_take_eq_none (Nat.le_of_not_lt less), List.getElem?_eq_none (Nat.le_of_not_lt less)]
  exact ⟨other.drop front.length, by rw [← List.take_append_drop front.length other, start, List.drop_left]⟩

def numberAt (bytes : Bytes) (pos width : Nat) : Nat := BigEndian.decode ((bytes.drop pos).take width)

structure Bodies where
  spans : List Span
  stop : Nat

namespace Bodies

def nowhere (pos : Nat) : Bodies := ⟨[], pos⟩

def followedBy (first second : Bodies) : Bodies := ⟨first.spans ++ second.spans, second.stop⟩

def each (find : Nat → Bodies) : (count pos : Nat) → Bodies
  | 0, pos => nowhere pos
  | count + 1, pos => (find pos).followedBy (each find count (find pos).stop)

def ofAttribute (bytes : Bytes) (pos : Nat) : Bodies :=
  ⟨[⟨pos + 6, numberAt bytes (pos + 2) 4⟩], pos + 6 + numberAt bytes (pos + 2) 4⟩

def ofAttributes (bytes : Bytes) (pos : Nat) : Bodies := each (ofAttribute bytes) (numberAt bytes pos 2) (pos + 2)

def ofMember (bytes : Bytes) (pos : Nat) : Bodies := ofAttributes bytes (pos + 6)

def ofMembers (bytes : Bytes) (pos : Nat) : Bodies := each (ofMember bytes) (numberAt bytes pos 2) (pos + 2)

def ofTables (bytes : Bytes) (pos : Nat) : Bodies :=
  let fields := ofMembers bytes (pos + 2 + 2 * numberAt bytes pos 2)
  let methods := ofMembers bytes fields.stop
  fields.followedBy (methods.followedBy (ofAttributes bytes methods.stop))

def ofClass (bytes : Bytes) (pos : Nat) : Bodies := ofTables bytes (pos + 6)

end Bodies

def ClassFile.bodies (data : Bytes) : List Span :=
  match (Walk.ofBytes data).outcome with
  | .error _ => []
  | .ok layout => (Bodies.ofClass (data.drop layout.stop) 0).spans.map (Span.moved layout.stop)

theorem Pooled.bodies {data : Bytes} (pooled : Pooled data) :
    ClassFile.bodies data = (Bodies.ofClass pooled.body 0).spans.map (Span.moved pooled.stop) := by
  rw [ClassFile.bodies, pooled.walk]
  dsimp only
  rw [pooled.drop_stop]

namespace Bodies

structure Inside (pos : Nat) (found : Bodies) : Prop where
  ordered : pos ≤ found.stop
  starts : ∀ span ∈ found.spans, pos ≤ span.start
  stops : ∀ span ∈ found.spans, span.start + span.length ≤ found.stop

theorem Inside.earlier {pos before : Nat} {found : Bodies} (inside : Inside pos found) (less : before ≤ pos) :
    Inside before found where
  ordered := Nat.le_trans less inside.ordered
  starts span member := Nat.le_trans less (inside.starts span member)
  stops := inside.stops

theorem inside_nowhere (pos : Nat) : Inside pos (nowhere pos) where
  ordered := Nat.le_refl pos
  starts _ none := nomatch none
  stops _ none := nomatch none

theorem inside_followed {pos : Nat} {first second : Bodies} (one : Inside pos first) (two : Inside first.stop second) :
    Inside pos (first.followedBy second) where
  ordered := Nat.le_trans one.ordered two.ordered
  starts span member := by
    rcases List.mem_append.mp member with early | late
    · exact one.starts span early
    · exact Nat.le_trans one.ordered (two.starts span late)
  stops span member := by
    rcases List.mem_append.mp member with early | late
    · exact Nat.le_trans (one.stops span early) two.ordered
    · exact two.stops span late

def Agree (bytes other : Bytes) (pos : Nat) (found : Bodies) : Prop :=
  ∀ i, pos ≤ i → i < found.stop → (∀ span ∈ found.spans, ¬ span.Covers i) → bytes[i]? = other[i]?

section

variable {bytes other : Bytes} {pos : Nat} {first second found : Bodies}

theorem Agree.early (agree : Agree bytes other pos (first.followedBy second)) (inside : Inside first.stop second) :
    Agree bytes other pos first := by
  intro i after before free
  refine agree i after (Nat.lt_of_lt_of_le before inside.ordered) fun span member covers => ?_
  rcases List.mem_append.mp member with early | late
  · exact free span early covers
  · exact absurd (Nat.le_trans (inside.starts span late) covers.1) (Nat.not_le_of_lt before)

theorem Agree.late (agree : Agree bytes other pos (first.followedBy second)) (inside : Inside pos first) :
    Agree bytes other first.stop second := by
  intro i after before free
  refine agree i (Nat.le_trans inside.ordered after) before fun span member covers => ?_
  rcases List.mem_append.mp member with early | late
  · exact absurd (Nat.lt_of_lt_of_le covers.2 (inside.stops span early)) (Nat.not_lt_of_le after)
  · exact free span late covers

theorem Agree.later {after : Nat} (agree : Agree bytes other pos found) (less : pos ≤ after) :
    Agree bytes other after found := fun i behind => agree i (Nat.le_trans less behind)

theorem Agree.ahead {width : Nat} (agree : Agree bytes other pos found) (inside : Inside (pos + width) found) :
    (bytes.drop pos).take width = (other.drop pos).take width := by
  apply List.ext_getElem?
  intro i
  by_cases less : i < width
  · rw [List.getElem?_take_of_lt less, List.getElem?_take_of_lt less, List.getElem?_drop, List.getElem?_drop]
    have ordered := inside.ordered
    refine agree (pos + i) (Nat.le_add_right pos i) (by omega) fun span member covers => ?_
    have later := inside.starts span member
    have reached := covers.1
    omega
  · rw [List.getElem?_take_eq_none (Nat.le_of_not_lt less), List.getElem?_take_eq_none (Nat.le_of_not_lt less)]

end

end Bodies

end Relabel
