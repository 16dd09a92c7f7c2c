import Relabel.Proofs.AttributeBodies

set_option autoImplicit false

namespace Relabel

theorem decode_taken (bytes : Bytes) (width : Nat) : BigEndian.decode (bytes.take width) < 256 ^ width := by
  have short : (bytes.take width).length ≤ width := List.length_take_le width bytes
  exact Nat.lt_of_lt_of_le (BigEndian.decode_bound _ _ rfl) (Nat.pow_le_pow_right (by decide) short)

def Read.Fixed {α : Type} (act : Read α) (width : Nat) (value : Bytes → α) : Prop :=
  ∀ c, act c =
    if c.pos + width ≤ c.bound then .ok (value (c.rest.take width)) (c.advance width) else .error (c.shortfall width) c

namespace Read

variable {α β : Type}

theorem fixed_bytes (width : Nat) : Fixed (Read.bytes width) width id := fun _ => rfl

theorem fixed_map {act : Read α} {width : Nat} {value : Bytes → α} (fixed : Fixed act width value) (g : α → β) :
    Fixed (do return g (← act)) width fun bytes => g (value bytes) := by
  intro c
  by_cases enough : c.pos + width ≤ c.bound
  · have ran := fixed c
    rw [if_pos enough] at ran
    rw [bind_ok ran, if_pos enough]
    rfl
  · have ran := fixed c
    rw [if_neg enough] at ran
    rw [bind_error ran, if_neg enough]

theorem fixed_skip (width : Nat) : Fixed (skip width) width fun _ => () := fixed_map (fixed_bytes width) fun _ => ()

theorem fixed_u16 : Fixed u16 2 fun bytes => (BigEndian.decode bytes).toUInt16 := fixed_map (fixed_bytes 2) _

theorem fixed_index : Fixed index 2 BigEndian.decode := by
  intro c
  have value : (BigEndian.decode (c.rest.take 2)).toUInt16.toNat = BigEndian.decode (c.rest.take 2) :=
    UInt16.toNat_ofNat_of_lt' (decode_taken (c.rest) 2)
  have ran := fixed_map fixed_u16 UInt16.toNat c
  dsimp only at ran
  rwa [value] at ran

theorem fixed_u32 : Fixed u32 4 fun bytes => (BigEndian.decode bytes).toUInt32 := fixed_map (fixed_bytes 4) _

end Read

def Cursor.behind (front bytes : Bytes) (pos : Nat) : Cursor := startAt (front ++ bytes) (front.length + pos)

theorem Read.Fixed.behind {α : Type} {act : Read α} {width : Nat} {value : Bytes → α} (fixed : Read.Fixed act width value)
    (front bytes : Bytes) (pos : Nat) :
    act (.behind front bytes pos) =
      if pos + width ≤ bytes.length then
        .ok (value ((bytes.drop pos).take width)) (.behind front bytes (pos + width))
      else .error (.truncated (front.length + pos) (width - min (bytes.length - pos) width)) (.behind front bytes pos) := by
  have total : (front ++ bytes).length = front.length + bytes.length := List.length_append
  have rest : (Cursor.behind front bytes pos).rest = bytes.drop pos := List.drop_length_add_append pos
  have left : (Cursor.behind front bytes pos).remaining = bytes.length - pos := by
    change (front ++ bytes).length - (front.length + pos) = _
    omega
  have enough : (Cursor.behind front bytes pos).pos + width ≤ (Cursor.behind front bytes pos).bound ↔
      pos + width ≤ bytes.length := by
    change front.length + pos + width ≤ (front ++ bytes).length ↔ _
    omega
  have next : (Cursor.behind front bytes pos).advance width = .behind front bytes (pos + width) := by
    apply Cursor.eq_of_fields
    · exact Nat.add_assoc _ _ _
    · rfl
    · change ((front ++ bytes).drop (front.length + pos)).drop width = (front ++ bytes).drop (front.length + (pos + width))
      rw [List.drop_drop, Nat.add_assoc]
  rw [fixed, rest, next, Cursor.shortfall, left]
  simp only [enough]
  rfl

namespace Survey

variable {α β : Type}

theorem read_bind (x : Read α) (f : α → Read β) :
    (liftM (x >>= f) : Survey β) = (do
      let a ← (liftM x : Survey α)
      liftM (f a)) := by
  funext ⟨c, facts⟩
  cases ran : x c with
  | ok a d =>
      rw [bind_ok (read_ok facts ran)]
      simp only [liftM, monadLift, MonadLift.monadLift, bind_ok ran]
  | error e d =>
      rw [bind_error (read_error facts ran)]
      exact read_error facts (bind_error ran)

theorem read_times (n : Nat) (act : Read Unit) : (liftM (times n act) : Survey Unit) = times n (liftM act) := by
  induction n with
  | zero => rfl
  | succ n ih => rw [times_succ, times_succ, read_bind, ih]

theorem pass_steps (names : NameTable) :
    attributes .pass names = (do
      let count ← Read.index
      times count do
        let _ ← Read.u16
        let length ← Read.u32
        Read.skip length.toNat) := by
  change (liftM Read.skipAttributes : Survey Unit) = _
  rw [Read.skipAttributes, read_bind]
  refine bind_congr fun count => ?_
  rw [read_times, Read.skipAttribute, read_bind]
  simp only [read_bind]

inductive InStep (front bytes other : Bytes) (stop : Nat) :
    EStateM.Result Fault Reading α → EStateM.Result Fault Reading α → Prop where
  | ok (a : α) (facts : Array Fact) :
      InStep front bytes other stop (.ok a ⟨.behind front bytes stop, facts⟩) (.ok a ⟨.behind front other stop, facts⟩)
  | error (e : Fault) (c d : Cursor) (facts : Array Fact) :
      InStep front bytes other stop (.error e ⟨c, facts⟩) (.error e ⟨d, facts⟩)

structure Blind (front bytes other : Bytes) (act : Survey α) (find : Bytes → Nat → Bodies) : Prop where
  inside : ∀ pos, (find bytes pos).Inside pos
  same : ∀ pos, Bodies.Agree bytes other pos (find bytes pos) → find other pos = find bytes pos
  steps : ∀ pos facts, Bodies.Agree bytes other pos (find bytes pos) →
    InStep front bytes other (find bytes pos).stop (act ⟨.behind front bytes pos, facts⟩) (act ⟨.behind front other pos, facts⟩)

section

variable {front bytes other : Bytes} {find again : Bytes → Nat → Bodies}

theorem blind_congr {act : Survey α} (blind : Blind front bytes other act find)
    (same : ∀ bytes pos, find bytes pos = again bytes pos) : Blind front bytes other act again := by
  have whole : find = again := funext fun bytes => funext (same bytes)
  rwa [← whole]

theorem blind_pure (a : α) : Blind front bytes other (pure a : Survey α) fun _ pos => .nowhere pos where
  inside := Bodies.inside_nowhere
  same _ _ := rfl
  steps _ facts _ := .ok a facts

theorem blind_note (fact : Fact) : Blind front bytes other (note fact) fun _ pos => .nowhere pos where
  inside := Bodies.inside_nowhere
  same _ _ := rfl
  steps _ facts _ := .ok () (facts.push fact)

theorem blind_bind [Inhabited α] {first : Survey α} {next : α → Survey β} (one : Blind front bytes other first find)
    (two : ∀ a, Blind front bytes other (next a) again) :
    Blind front bytes other (do next (← first)) fun bytes pos =>
      (find bytes pos).followedBy (again bytes (find bytes pos).stop) where
  inside pos := Bodies.inside_followed (one.inside pos) ((two default).inside _)
  same pos agree := by
    have early := one.same pos (agree.early ((two default).inside _))
    have late := (two default).same _ (agree.late (one.inside pos))
    rw [early, late]
  steps pos facts agree := by
    have ended := one.steps pos facts (agree.early ((two default).inside _))
    generalize ran : first ⟨.behind front bytes pos, facts⟩ = left at ended
    generalize ranOther : first ⟨.behind front other pos, facts⟩ = right at ended
    cases ended with
    | ok a noted =>
        rw [bind_ok ran, bind_ok ranOther]
        exact (two a).steps _ noted (agree.late (one.inside pos))
    | error e c d noted =>
        rw [bind_error ran, bind_error ranOther]
        exact .error e c d noted

theorem blind_after [Inhabited α] {first : Survey α} {next : α → Survey β} {reach : Nat → Nat}
    (one : Blind front bytes other first fun _ pos => .nowhere (reach pos))
    (two : ∀ a, Blind front bytes other (next a) again) :
    Blind front bytes other (do next (← first)) fun bytes pos => again bytes (reach pos) := blind_bind one two

theorem blind_times {act : Survey Unit} (one : Blind front bytes other act find) (n : Nat) :
    Blind front bytes other (times n act) fun bytes pos => .each (find bytes) n pos := by
  induction n with
  | zero => exact blind_pure ()
  | succ n ih =>
      rw [times_succ]
      exact blind_bind one fun _ => ih

variable (size : bytes.length = other.length)

include size

theorem blind_read {act : Read α} {width : Nat} {value : Bytes → α} (fixed : act.Fixed width value)
    {next : α → Survey β} {later : α → Bytes → Nat → Bodies}
    (rest : ∀ a, Blind front bytes other (next a) (later a)) :
    Blind front bytes other (do next (← act)) fun bytes pos =>
      later (value ((bytes.drop pos).take width)) bytes (pos + width) where
  inside pos := ((rest _).inside (pos + width)).earlier (Nat.le_add_right pos width)
  same pos agree := by
    have ahead := agree.ahead ((rest _).inside (pos + width))
    rw [← ahead]
    exact (rest _).same _ (agree.later (Nat.le_add_right pos width))
  steps pos facts agree := by
    have ahead := agree.ahead ((rest _).inside (pos + width))
    have ran := fixed.behind front bytes pos
    have ranOther := fixed.behind front other pos
    rw [← size, ← ahead] at ranOther
    by_cases enough : pos + width ≤ bytes.length
    · rw [if_pos enough] at ran ranOther
      rw [bind_ok (read_ok facts ran), bind_ok (read_ok facts ranOther)]
      exact (rest _).steps _ facts (agree.later (Nat.le_add_right pos width))
    · rw [if_neg enough] at ran ranOther
      rw [bind_error (read_error facts ran), bind_error (read_error facts ranOther)]
      exact .error _ _ _ facts

theorem blind_body (length : Nat) :
    Blind front bytes other (Read.skip length : Survey Unit) fun _ pos => ⟨[⟨pos, length⟩], pos + length⟩ where
  inside pos := by
    refine ⟨Nat.le_add_right pos length, fun span member => ?_, fun span member => ?_⟩
    · cases List.mem_singleton.mp member
      exact Nat.le_refl pos
    · cases List.mem_singleton.mp member
      exact Nat.le_refl (pos + length)
  same _ _ := rfl
  steps pos facts _ := by
    have ran := (Read.fixed_skip length).behind front bytes pos
    have ranOther := (Read.fixed_skip length).behind front other pos
    rw [← size] at ranOther
    by_cases enough : pos + length ≤ bytes.length
    · rw [if_pos enough] at ran ranOther
      rw [read_ok facts ran, read_ok facts ranOther]
      exact .ok () facts
    · rw [if_neg enough] at ran ranOther
      rw [read_error facts ran, read_error facts ranOther]
      exact .error _ _ _ facts

theorem blind_attribute :
    Blind front bytes other
      (do
        let _ ← Read.u16
        let length ← Read.u32
        Read.skip length.toNat)
      Bodies.ofAttribute := by
  refine blind_congr (blind_read size Read.fixed_u16 fun _ => blind_read size Read.fixed_u32 fun length =>
    blind_body size length.toNat) fun bytes pos => ?_
  have value : (numberAt bytes (pos + 2) 4).toUInt32.toNat = numberAt bytes (pos + 2) 4 :=
    UInt32.toNat_ofNat_of_lt' (decode_taken (bytes.drop (pos + 2)) 4)
  rw [Bodies.ofAttribute, ← value]
  rfl

theorem blind_attributes (names : NameTable) :
    Blind front bytes other (attributes .pass names) Bodies.ofAttributes := by
  rw [pass_steps]
  exact blind_read size Read.fixed_index fun count => blind_times (blind_attribute size) count

theorem blind_member (names : NameTable) (kind : MemberKind) :
    Blind front bytes other (member .pass names kind) Bodies.ofMember :=
  blind_read size (Read.fixed_skip 2) fun _ => blind_read size Read.fixed_index fun name =>
    blind_read size Read.fixed_index fun descriptor => blind_after (blind_note (.declares name descriptor kind)) fun _ =>
      blind_attributes size names

theorem blind_members (names : NameTable) (kind : MemberKind) :
    Blind front bytes other (members .pass names kind) Bodies.ofMembers :=
  blind_read size Read.fixed_index fun count => blind_times (blind_member size names kind) count

theorem blind_class_index : Blind front bytes other classIndex fun _ pos => .nowhere (pos + 2) :=
  blind_read size Read.fixed_index fun index => blind_after (blind_note (.addresses .classRef index)) fun _ => blind_pure index

theorem blind_classes (n : Nat) (done : List Nat) :
    Blind front bytes other (collectOnto done n classIndex) fun _ pos => .nowhere (pos + 2 * n) := by
  induction n generalizing done with
  | zero => exact blind_pure _
  | succ n ih =>
      rw [collect_onto_succ]
      refine blind_congr (blind_after (blind_class_index size) fun index => ih (index :: done)) fun _ pos => ?_
      have stop : pos + 2 + 2 * n = pos + 2 * (n + 1) := by omega
      exact congrArg Bodies.nowhere stop

theorem blind_tables (names : NameTable) (thisClass superClass : Nat) :
    Blind front bytes other (tables .pass names thisClass superClass) Bodies.ofTables := by
  have last : ∀ interfaces, Blind front bytes other (do
      attributes .pass names
      return (⟨thisClass, superClass, interfaces⟩ : Outline)) Bodies.ofAttributes := by
    intro interfaces
    refine blind_congr (blind_bind (blind_attributes size names) fun _ => blind_pure _) fun bytes pos => ?_
    exact congrArg (Bodies.mk · _) (List.append_nil _)
  have listed := fun interfaces => blind_bind (blind_members size names .field) fun _ =>
    blind_bind (blind_members size names .method) fun _ => last interfaces
  have counted := blind_read size Read.fixed_index fun count => blind_after (blind_classes size count []) listed
  exact blind_congr counted fun bytes pos => rfl

omit size in
theorem blind_optional_class (index : Nat) : Blind front bytes other (optionalClass index) fun _ pos => .nowhere pos := by
  unfold optionalClass
  split
  · exact blind_note _
  · exact blind_pure ()

theorem blind_outline (names : NameTable) : Blind front bytes other (outline .pass names) Bodies.ofClass := by
  rw [outline_steps]
  have named : ∀ thisClass superClass, Blind front bytes other (do
      note (.addresses .classRef thisClass)
      optionalClass superClass
      tables .pass names thisClass superClass) Bodies.ofTables := by
    intro thisClass superClass
    exact blind_after (blind_note _) fun _ => blind_after (blind_optional_class superClass) fun _ =>
      blind_tables size names thisClass superClass
  have headed := blind_read size (Read.fixed_skip 2) fun _ => blind_read size Read.fixed_index fun thisClass =>
    blind_read size Read.fixed_index (named thisClass)
  exact blind_congr headed fun bytes pos => rfl

end

end Survey

end Relabel
