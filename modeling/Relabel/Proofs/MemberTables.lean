import Relabel.Proofs.Relating
import Relabel.Proofs.Surveying

set_option autoImplicit false

namespace Relabel

structure Header where
  kind : MemberKind
  name : Nat
  descriptor : Nat
deriving DecidableEq

structure Tables where
  outline : Outline
  fields : List Header
  methods : List Header

namespace Tables

open Read

def header (kind : MemberKind) : Read Header := do
  skip 2
  let name ← index
  let descriptor ← index
  skipAttributes
  return ⟨kind, name, descriptor⟩

def headers (kind : MemberKind) : Read (List Header) := do
  let count ← index
  collect count (header kind)

def opening : Read Tables := do
  skip 2
  let thisClass ← index
  let superClass ← index
  let count ← index
  let interfaces ← collect count index
  let fields ← headers .field
  let methods ← headers .method
  return ⟨⟨thisClass, superClass, interfaces⟩, fields, methods⟩

def read : Read Tables := do
  let tables ← opening
  skipAttributes
  return tables

theorem read_inv {c d : Cursor} {tables : Tables} (ran : read c = .ok tables d) :
    ∃ count c₁ c₂ c₃ c₄ c₅ c₆ c₇, skip 2 c = .ok () c₁ ∧ index c₁ = .ok tables.outline.thisClass c₂ ∧
      index c₂ = .ok tables.outline.superClass c₃ ∧ index c₃ = .ok count c₄ ∧
      collect count index c₄ = .ok tables.outline.interfaces c₅ ∧ headers .field c₅ = .ok tables.fields c₆ ∧
      headers .method c₆ = .ok tables.methods c₇ ∧ skipAttributes c₇ = .ok () d := by
  obtain ⟨_, c₇, opened, ran⟩ := bind_ok_inv ran
  obtain ⟨_, skipped, rfl⟩ := map_ok_inv ran
  obtain ⟨_, c₁, access, opened⟩ := bind_ok_inv opened
  obtain ⟨thisClass, c₂, ranThis, opened⟩ := bind_ok_inv opened
  obtain ⟨superClass, c₃, ranSuper, opened⟩ := bind_ok_inv opened
  obtain ⟨count, c₄, ranCount, opened⟩ := bind_ok_inv opened
  obtain ⟨interfaces, c₅, ranInterfaces, opened⟩ := bind_ok_inv opened
  obtain ⟨fields, c₆, ranFields, opened⟩ := bind_ok_inv opened
  obtain ⟨methods, ranMethods, rfl⟩ := map_ok_inv opened
  exact ⟨count, c₁, c₂, c₃, c₄, c₅, c₆, c₇, access, ranThis, ranSuper, ranCount, ranInterfaces, ranFields, ranMethods,
    skipped⟩

def ofBytes (data : Bytes) : Except Fault Tables := do
  let layout ← (Walk.ofBytes data).outcome
  match read (.startAt data layout.stop) with
  | .ok tables _ => .ok tables
  | .error e _ => .error e

def members (tables : Tables) : List Header := tables.fields ++ tables.methods

end Tables

def Cursor.Shifted (c d : Cursor) : Prop := ∃ pos other bytes, c = ahead pos bytes ∧ d = ahead other bytes

namespace Read

open Cursor (Shifted)

variable {α β : Type}

def Movable (act : Read α) : Prop := Relates Shifted act act fun a c b d => a = b ∧ Shifted c d

theorem movable_pure (a : α) : Movable (pure a : Read α) := relates_pure fun _ _ started => ⟨rfl, started⟩

theorem movable_bind {x : Read α} {f : α → Read β} (first : Movable x) (second : ∀ a, Movable (f a)) : Movable (x >>= f) :=
  relates_bind first (relates_equal second)

theorem movable_bytes (length : Nat) : Movable (bytes length) := by
  rintro c d taken c' ⟨pos, other, bytes, rfl, rfl⟩ ran
  obtain ⟨rfl, tail, rfl, rfl⟩ := bytes_inv ran
  have again := (takes_bytes other taken).passes tail
  exact ⟨taken, _, again, rfl, _, _, tail, rfl, rfl⟩

theorem movable_times (n : Nat) {act : Read Unit} (one : Movable act) : Movable (times n act) := by
  induction n with
  | zero => exact movable_pure ()
  | succ n ih =>
      rw [times_succ]
      exact movable_bind one fun _ => ih

theorem movable_collect (n : Nat) {act : Read α} (one : Movable act) : Movable (collect n act) := relates_collect n one []

theorem movable_skip (length : Nat) : Movable (skip length) := movable_bind (movable_bytes length) fun _ => movable_pure ()
theorem movable_u16 : Movable u16 := movable_bind (movable_bytes 2) fun _ => movable_pure _
theorem movable_u32 : Movable u32 := movable_bind (movable_bytes 4) fun _ => movable_pure _
theorem movable_index : Movable index := movable_bind movable_u16 fun _ => movable_pure _

theorem movable_skip_attributes : Movable skipAttributes := by
  refine movable_bind movable_index fun count => movable_times count ?_
  exact movable_bind movable_u16 fun _ => movable_bind movable_u32 fun length => movable_skip length.toNat

end Read

namespace Tables

open Read

theorem movable_headers (kind : MemberKind) : Movable (headers kind) := by
  refine movable_bind movable_index fun count => movable_collect count ?_
  refine movable_bind (movable_skip 2) fun _ => movable_bind movable_index fun name => ?_
  exact movable_bind movable_index fun descriptor => movable_bind movable_skip_attributes fun _ => movable_pure _

theorem movable_opening : Movable opening := by
  refine movable_bind (movable_skip 2) fun _ => movable_bind movable_index fun thisClass => ?_
  refine movable_bind movable_index fun superClass => movable_bind movable_index fun count => ?_
  refine movable_bind (movable_collect count movable_index) fun interfaces => ?_
  exact movable_bind (movable_headers .field) fun fields => movable_bind (movable_headers .method) fun methods =>
    movable_pure _

theorem movable_read : Movable read :=
  movable_bind movable_opening fun _ => movable_bind movable_skip_attributes fun _ => movable_pure _

end Tables

def Header.fact (header : Header) : Fact := .declares header.name header.descriptor header.kind

namespace Tables

def superClasses (index : Nat) : List Nat := if index ≠ 0 then [index] else []

def classes (tables : Tables) : List Nat :=
  tables.outline.thisClass :: superClasses tables.outline.superClass ++ tables.outline.interfaces

def facts (tables : Tables) : List Fact := tables.classes.map (.addresses .classRef) ++ tables.members.map Header.fact

end Tables

def Fact.header? : Fact → Option Header
  | .declares name descriptor kind => some ⟨kind, name, descriptor⟩
  | _ => none

def Fact.ofTables : Fact → Bool
  | .declares .. | .addresses .. => true
  | _ => false

theorem attribute_fact_apart (fact : Fact) (stated : fact.OfAttribute) : fact.ofTables = false := by
  cases fact with
  | declares | addresses => exact absurd stated id
  | _ => rfl

theorem body_fact_cases (fact : Fact) (stated : fact.OfBody) :
    (∃ header : Header, fact = header.fact) ∨ (∃ kind index, fact = .addresses kind index) ∨ fact.OfAttribute := by
  cases fact with
  | declares name descriptor kind => exact .inl ⟨⟨kind, name, descriptor⟩, rfl⟩
  | addresses kind index => exact .inr (.inl ⟨kind, index, rfl⟩)
  | _ => exact .inr (.inr stated)

theorem Tables.facts_headers (tables : Tables) : tables.facts.filterMap Fact.header? = tables.members := by
  have classes : (tables.classes.map (Fact.addresses .classRef)).filterMap Fact.header? = [] := by
    simp [List.filterMap_map, Fact.header?]
  have members : (tables.members.map Header.fact).filterMap Fact.header? = tables.members := by
    rw [List.filterMap_map]
    exact List.filterMap_some
  rw [facts, List.filterMap_append, classes, members, List.nil_append]

theorem Read.split_skip {length : Nat} {c c' part : Cursor} (ran : Read.split length c = .ok part c') :
    Read.skip length c = .ok () c' := by
  by_cases inside : c.pos + length ≤ c.bound
  · rw [Read.split, dif_pos inside] at ran
    cases ran
    simp [Read.skip, Read.bytes, inside, bind, EStateM.bind]
    rfl
  · rw [Read.split, dif_neg inside] at ran
    cases ran

namespace Survey

variable {α β γ : Type}

theorem read_ok_inv {act : Read α} {r r' : Reading} {a : α} (ran : (act : Survey α) r = .ok a r') :
    act r.cursor = .ok a r'.cursor ∧ r'.facts = r.facts := by
  cases read : act r.cursor with
  | ok b c =>
      simp only [liftM, monadLift, MonadLift.monadLift, read] at ran
      cases ran
      exact ⟨rfl, rfl⟩
  | error e c =>
      simp only [liftM, monadLift, MonadLift.monadLift, read] at ran
      cases ran

theorem within_skips {length : Nat} {act : Survey α} {r r' : Reading} {a : α} (ran : within length act r = .ok a r') :
    Read.skip length r.cursor = .ok () r'.cursor := by
  rw [within] at ran
  cases split : Read.split length r.cursor with
  | error e c =>
      rw [split] at ran
      cases ran
  | ok part c =>
      rw [split] at ran
      dsimp only at ran
      cases inner : act { r with cursor := part } with
      | error e stop =>
          rw [inner] at ran
          cases ran
      | ok b stop =>
          rw [inner] at ran
          cases ran
          exact Read.split_skip split

def SameCursor (r : Reading) (c : Cursor) : Prop := r.cursor = c

theorem attribute_here_skips (names : NameTable) (body : AttributeKind → Survey Unit) :
    Relates SameCursor (attributeHere names body) Read.skipAttribute fun _ r _ c => SameCursor r c := by
  intro r c a r' same ran
  cases same
  obtain ⟨name, named, ranName, ran⟩ := bind_ok_inv ran
  obtain ⟨length, sized, ranLength, ran⟩ := bind_ok_inv ran
  obtain ⟨name_read, _⟩ := read_ok_inv ranName
  obtain ⟨length_read, _⟩ := read_ok_inv ranLength
  obtain ⟨code, code_read, _⟩ := map_ok_inv name_read
  refine ⟨(), r'.cursor, ?_, rfl⟩
  rw [Read.skipAttribute, bind_ok code_read, bind_ok length_read]
  exact within_skips ran

theorem attribute_table_skips (names : NameTable) (body : AttributeKind → Survey Unit) :
    Relates SameCursor (attributeTable names body) Read.skipAttributes fun _ r _ c => SameCursor r c := by
  intro r c a r' same ran
  cases same
  obtain ⟨count, counted, ranCount, ranTable⟩ := bind_ok_inv ran
  obtain ⟨count_read, _⟩ := read_ok_inv ranCount
  obtain ⟨_, c', skipped, ended⟩ :=
    relates_times count (attribute_here_skips names body) counted counted.cursor a r' rfl ranTable
  exact ⟨(), c', by rw [Read.skipAttributes, bind_ok count_read, skipped], ended⟩

theorem attributes_skip (mode : AttributeMode) (names : NameTable) {r r' : Reading} {a : Unit}
    (ran : attributes mode names r = .ok a r') : Read.skipAttributes r.cursor = .ok () r'.cursor := by
  cases mode with
  | pass => exact (read_ok_inv ran).1
  | interpret =>
      rw [attributes] at ran
      obtain ⟨_, c, skipped, same⟩ := attribute_table_skips names _ r r.cursor a r' rfl ran
      rw [skipped, ← same]

def Alongside (stated : List Fact) (r : Reading) (c : Cursor) : Prop :=
  r.cursor = c ∧ r.facts.toList.filter Fact.ofTables = stated

theorem alongside_read {stated : List Fact} {act : Read α} {f : α → Survey β} {g : α → Read γ}
    {post : β → Reading → γ → Cursor → Prop} (rest : ∀ a, Relates (Alongside stated) (f a) (g a) post) :
    Relates (Alongside stated) ((act : Survey α) >>= f) (act >>= g) post := by
  rintro r c b r' ⟨rfl, before⟩ ran
  obtain ⟨a, middle, ranAct, ranRest⟩ := bind_ok_inv ran
  obtain ⟨read, facts⟩ := read_ok_inv ranAct
  obtain ⟨d, c', other, ended⟩ := rest a middle middle.cursor b r' ⟨rfl, by rw [facts, before]⟩ ranRest
  exact ⟨d, c', by rw [bind_ok read, other], ended⟩

theorem alongside_note {stated : List Fact} {fact : Fact} {f : Unit → Survey β} {y : Read γ}
    {post : β → Reading → γ → Cursor → Prop} (own : fact.ofTables)
    (rest : Relates (Alongside (stated ++ [fact])) (f ()) y post) :
    Relates (Alongside stated) (note fact >>= f) y post := by
  refine relates_ahead ?_ fun _ => rest
  rintro r c a r' ⟨rfl, before⟩ ran
  cases ran
  exact ⟨rfl, by simp [before, own]⟩

theorem alongside_attributes (mode : AttributeMode) (names : NameTable) (stated : List Fact) :
    Relates (Alongside stated) (attributes mode names) Read.skipAttributes fun _ r _ c => Alongside stated r c := by
  rintro r c a r' ⟨rfl, before⟩ ran
  refine ⟨(), r'.cursor, attributes_skip mode names ran, rfl, ?_⟩
  obtain ⟨added, same, kinds⟩ := notes_attributes mode names r
  rw [ran] at same
  change r'.facts.toList = _ at same
  have none_stated : added.filter Fact.ofTables = [] :=
    List.filter_eq_nil_iff.mpr fun fact member => by simp [attribute_fact_apart fact (kinds fact member)]
  rw [same, List.filter_append, none_stated, List.append_nil, before]

theorem alongside_member (mode : AttributeMode) (names : NameTable) (kind : MemberKind) (stated : List Fact) :
    Relates (Alongside stated) (member mode names kind) (Tables.header kind)
      fun _ r header c => Alongside (stated ++ [header.fact]) r c := by
  refine alongside_read fun _ => alongside_read fun name => alongside_read fun descriptor => alongside_note rfl ?_
  rintro r c a r' started ran
  obtain ⟨_, c', skipped, ended⟩ := alongside_attributes mode names _ r c a r' started ran
  exact ⟨⟨kind, name, descriptor⟩, c', by rw [bind_ok skipped]; rfl, ended⟩

theorem alongside_members (mode : AttributeMode) (names : NameTable) (kind : MemberKind) (stated : List Fact) :
    Relates (Alongside stated) (members mode names kind) (Tables.headers kind)
      fun _ r headers c => Alongside (stated ++ headers.map Header.fact) r c := by
  refine alongside_read fun count => ?_
  have one : ∀ done : List Header, Relates (Alongside (stated ++ done.map Header.fact)) (member mode names kind)
      (Tables.header kind) fun _ r header c => Alongside (stated ++ (done ++ [header]).map Header.fact) r c := by
    intro done
    simpa only [List.map_append, List.map_cons, List.map_nil, List.append_assoc] using
      alongside_member mode names kind (stated ++ done.map Header.fact)
  have loop := relates_times_collect count (fun done => Alongside (stated ++ done.map Header.fact)) one []
  rwa [List.reverse_nil, List.map_nil, List.append_nil] at loop

theorem alongside_class_index (stated : List Fact) :
    Relates (Alongside stated) classIndex Read.index
      fun i r j c => i = j ∧ Alongside (stated ++ [.addresses .classRef i]) r c := by
  rintro r c i r' ⟨rfl, before⟩ ran
  obtain ⟨_, middle, ranIndex, rest⟩ := bind_ok_inv ran
  obtain ⟨_, _, noted, finished⟩ := bind_ok_inv rest
  obtain ⟨read, facts⟩ := read_ok_inv ranIndex
  cases noted
  cases finished
  refine ⟨i, middle.cursor, read, rfl, rfl, ?_⟩
  simp [facts, before, Fact.ofTables]

theorem alongside_classes (n : Nat) (stated : List Fact) (done : List Nat) :
    Relates (Alongside (stated ++ done.reverse.map (.addresses .classRef))) (collectOnto done n classIndex)
      (collectOnto done n Read.index)
      fun found r same c => found = same ∧ Alongside (stated ++ found.map (.addresses .classRef)) r c := by
  induction n generalizing done with
  | zero => exact relates_pure fun _ _ started => ⟨rfl, started⟩
  | succ n ih =>
      rw [collect_onto_succ, collect_onto_succ]
      refine relates_bind (alongside_class_index _) (relates_equal fun i => ?_)
      have rest := ih (i :: done)
      rwa [List.reverse_cons, List.map_append, ← List.append_assoc] at rest

theorem alongside_optional_class (stated : List Fact) (index : Nat) (r r' : Reading) (c : Cursor) (a : Unit)
    (started : Alongside stated r c) (ran : optionalClass index r = .ok a r') :
    Alongside (stated ++ (Tables.superClasses index).map (.addresses .classRef)) r' c := by
  obtain ⟨rfl, before⟩ := started
  by_cases named : index ≠ 0
  · rw [optionalClass, if_pos named] at ran
    cases ran
    exact ⟨rfl, by simp [before, Fact.ofTables, Tables.superClasses, named]⟩
  · rw [optionalClass, if_neg named] at ran
    cases ran
    exact ⟨rfl, by rw [before, Tables.superClasses, if_neg named, List.map_nil, List.append_nil]⟩

theorem opening_tables (mode : AttributeMode) (names : NameTable) :
    Relates (Alongside []) (opening mode names) Tables.opening
      fun found r tables c => found = tables.outline ∧ Alongside tables.facts r c := by
  refine alongside_read fun _ => alongside_read fun thisClass => alongside_read fun superClass => alongside_note rfl ?_
  refine relates_ahead (fun r c a r' => alongside_optional_class _ superClass r r' c a) fun _ => ?_
  refine alongside_read fun count => ?_
  have classes := alongside_classes count ([] ++ [.addresses .classRef thisClass] ++
    (Tables.superClasses superClass).map (.addresses .classRef)) []
  rw [List.reverse_nil, List.map_nil, List.append_nil] at classes
  refine relates_bind classes (relates_equal fun interfaces => ?_)
  refine relates_bind (alongside_members mode names .field _) fun _ fields => ?_
  refine relates_bind (alongside_members mode names .method _) fun _ methods => relates_pure fun r c ended => ⟨rfl, ?_⟩
  simpa [Tables.facts, Tables.classes, Tables.members] using ended

theorem outline_tables (mode : AttributeMode) (names : NameTable) :
    Relates (Alongside []) (outline mode names) Tables.read
      fun found r tables c => found = tables.outline ∧ Alongside tables.facts r c := by
  rw [outline_opens, Tables.read]
  refine relates_bind (opening_tables mode names) fun found tables => ?_
  rintro r c a r' ⟨rfl, started⟩ ran
  obtain ⟨_, ranAttributes, rfl⟩ := map_ok_inv ran
  obtain ⟨_, c', skipped, ended⟩ := alongside_attributes mode names _ r c _ r' started ranAttributes
  exact ⟨tables, c', by rw [bind_ok skipped]; rfl, rfl, ended⟩

def Following (noted : List Fact) (c : Cursor) (r : Reading) : Prop := r.cursor = c ∧ r.facts.toList = noted

theorem following_read {noted : List Fact} {act : Read α} {g : α → Read γ} {f : α → Survey β}
    {post : γ → Cursor → β → Reading → Prop} (rest : ∀ a, Relates (Following noted) (g a) (f a) post) :
    Relates (Following noted) (act >>= g) ((act : Survey α) >>= f) post := by
  rintro c r b c' ⟨rfl, facts⟩ ran
  obtain ⟨a, middle, ranAct, ranRest⟩ := bind_ok_inv ran
  obtain ⟨d, r', other, ended⟩ := rest a middle ⟨middle, r.facts⟩ b c' ⟨rfl, facts⟩ ranRest
  refine ⟨d, r', ?_, ended⟩
  have read : (act : Survey α) r = .ok a ⟨middle, r.facts⟩ := by
    simp only [liftM, monadLift, MonadLift.monadLift, ranAct]
  rw [bind_ok read, other]

theorem following_note {noted : List Fact} {fact : Fact} {x : Read γ} {f : Unit → Survey β}
    {post : γ → Cursor → β → Reading → Prop} (rest : Relates (Following (noted ++ [fact])) x (f ()) post) :
    Relates (Following noted) x (note fact >>= f) post := by
  refine relates_behind ?_ rest
  rintro c r ⟨rfl, facts⟩
  exact ⟨_, rfl, rfl, by simp [facts]⟩

theorem following_skip (names : NameTable) (noted : List Fact) :
    Relates (Following noted) Read.skipAttributes (attributes .pass names) fun _ c _ r => Following noted c r := by
  rintro c r a c' ⟨rfl, facts⟩ ran
  refine ⟨(), ⟨c', r.facts⟩, ?_, rfl, facts⟩
  simp only [attributes, liftM, monadLift, MonadLift.monadLift, ran]

theorem following_header (names : NameTable) (kind : MemberKind) (noted : List Fact) :
    Relates (Following noted) (Tables.header kind) (member .pass names kind)
      fun header c _ r => Following (noted ++ [header.fact]) c r := by
  refine following_read fun _ => following_read fun name => following_read fun descriptor => following_note ?_
  rintro c r header c' started ran
  obtain ⟨_, skipped, rfl⟩ := map_ok_inv ran
  exact following_skip names _ c r () c' started skipped

theorem following_headers (names : NameTable) (kind : MemberKind) (noted : List Fact) :
    Relates (Following noted) (Tables.headers kind) (members .pass names kind)
      fun headers c _ r => Following (noted ++ headers.map Header.fact) c r := by
  refine following_read fun count => ?_
  have one : ∀ done : List Header, Relates (Following (noted ++ done.map Header.fact)) (Tables.header kind)
      (member .pass names kind) fun header c _ r => Following (noted ++ (done ++ [header]).map Header.fact) c r := by
    intro done
    simpa only [List.map_append, List.map_cons, List.map_nil, List.append_assoc] using
      following_header names kind (noted ++ done.map Header.fact)
  have loop := relates_collect_times count (fun done => Following (noted ++ done.map Header.fact)) one []
  rwa [List.reverse_nil, List.map_nil, List.append_nil] at loop

theorem following_class_index (noted : List Fact) :
    Relates (Following noted) Read.index classIndex
      fun i c j r => i = j ∧ Following (noted ++ [.addresses .classRef i]) c r := by
  rintro c r i c' ⟨rfl, facts⟩ ran
  have read : (Read.index : Survey Nat) r = .ok i ⟨c', r.facts⟩ := by
    simp only [liftM, monadLift, MonadLift.monadLift, ran]
  refine ⟨i, ⟨c', r.facts.push (.addresses .classRef i)⟩, ?_, rfl, rfl, by simp [facts]⟩
  rw [classIndex, bind_ok read]
  rfl

theorem following_classes (n : Nat) (noted : List Fact) (done : List Nat) :
    Relates (Following (noted ++ done.reverse.map (.addresses .classRef))) (collectOnto done n Read.index)
      (collectOnto done n classIndex)
      fun found c same r => found = same ∧ Following (noted ++ found.map (.addresses .classRef)) c r := by
  induction n generalizing done with
  | zero => exact relates_pure fun _ _ started => ⟨rfl, started⟩
  | succ n ih =>
      rw [collect_onto_succ, collect_onto_succ]
      refine relates_bind (following_class_index _) (relates_equal fun i => ?_)
      have rest := ih (i :: done)
      rwa [List.reverse_cons, List.map_append, ← List.append_assoc] at rest

theorem following_optional_class (index : Nat) (noted : List Fact) (c : Cursor) (r : Reading)
    (started : Following noted c r) :
    ∃ r', optionalClass index r = .ok () r' ∧ Following (noted ++ (Tables.superClasses index).map (.addresses .classRef)) c r' := by
  obtain ⟨rfl, facts⟩ := started
  by_cases named : index ≠ 0
  · rw [optionalClass, if_pos named, Tables.superClasses, if_pos named]
    exact ⟨_, rfl, rfl, by simp [facts]⟩
  · rw [optionalClass, if_neg named, Tables.superClasses, if_neg named]
    exact ⟨r, rfl, rfl, by rw [facts, List.map_nil, List.append_nil]⟩

theorem tables_opening (names : NameTable) :
    Relates (Following []) Tables.opening (opening .pass names)
      fun tables c found r => found = tables.outline ∧ Following tables.facts c r := by
  refine following_read fun _ => following_read fun thisClass => following_read fun superClass => following_note ?_
  refine relates_behind (following_optional_class superClass _) ?_
  refine following_read fun count => ?_
  have classes := following_classes count ([] ++ [.addresses .classRef thisClass] ++
    (Tables.superClasses superClass).map (.addresses .classRef)) []
  rw [List.reverse_nil, List.map_nil, List.append_nil] at classes
  refine relates_bind classes (relates_equal fun interfaces => ?_)
  refine relates_bind (following_headers names .field _) fun fields _ => ?_
  refine relates_bind (following_headers names .method _) fun methods _ => relates_pure fun c r ended => ⟨rfl, ?_⟩
  simpa [Tables.facts, Tables.classes, Tables.members] using ended

theorem tables_outline (names : NameTable) :
    Relates (Following []) Tables.read (outline .pass names)
      fun tables c found r => found = tables.outline ∧ Following tables.facts c r := by
  rw [Tables.read, outline_opens]
  refine relates_bind (tables_opening names) fun tables found => ?_
  rintro c r a c' ⟨rfl, started⟩ ran
  obtain ⟨_, skipped, rfl⟩ := map_ok_inv ran
  obtain ⟨_, r', passed, ended⟩ := following_skip names _ c r _ c' started skipped
  exact ⟨_, r', by rw [bind_ok passed]; rfl, rfl, ended⟩

end Survey

end Relabel
