import Mathlib.Data.List.Forall2
import Relabel.Hierarchy.Extract
import Relabel.Proofs.PoolContents

set_option autoImplicit false

namespace Relabel

open ClassFile (constantAt? HasText HasClass)

theorem ClassFile.HasClass.unique {data : Bytes} {index : Nat} {name other : Name} (one : HasClass data index name)
    (two : HasClass data index other) : name = other := by
  obtain ⟨text, held, named⟩ := one
  obtain ⟨same, again, othered⟩ := two
  rw [held] at again
  cases again
  rw [named] at othered
  cases othered
  rfl

section

variable {ε σ α β : Type} {rel : α → β → Prop}

theorem collect_onto_both {act : EStateM ε σ α} {other : EStateM ε σ β}
    (one : ∀ s a t b u, act s = .ok a t → other s = .ok b u → rel a b ∧ t = u) (n : Nat) {done found : List α}
    {others also : List β} {s t u : σ} (before : List.Forall₂ rel done others) (ran : collectOnto done n act s = .ok found t)
    (ranOther : collectOnto others n other s = .ok also u) : List.Forall₂ rel found also ∧ t = u := by
  induction n generalizing done others s with
  | zero =>
      cases ran
      cases ranOther
      exact ⟨List.rel_reverse before, rfl⟩
  | succ n ih =>
      rw [collect_onto_succ] at ran ranOther
      obtain ⟨a, middle, first, rest⟩ := bind_ok_inv ran
      obtain ⟨b, _, firstOther, restOther⟩ := bind_ok_inv ranOther
      obtain ⟨related, rfl⟩ := one s a middle b _ first firstOther
      exact ih (.cons related before) rest restOther

theorem collect_both {act : EStateM ε σ α} {other : EStateM ε σ β} {n : Nat} {found : List α} {also : List β} {s t u : σ}
    (ran : collect n act s = .ok found t) (ranOther : collect n other s = .ok also u)
    (one : ∀ s a t b u, act s = .ok a t → other s = .ok b u → rel a b ∧ t = u) : List.Forall₂ rel found also ∧ t = u :=
  collect_onto_both one n .nil ran ranOther

end

namespace Read

theorem skip_inv {length : Nat} {c d : Cursor} {a : Unit} (ran : skip length c = .ok a d) :
    c.pos + length ≤ c.bound ∧ d = c.advance length := by
  obtain ⟨_, taken, _⟩ := map_ok_inv ran
  rw [bytes] at taken
  split at taken
  · cases taken
    exact ⟨by assumption, rfl⟩
  · cases taken

theorem skip_ok {length : Nat} {c : Cursor} (inside : c.pos + length ≤ c.bound) : skip length c = .ok () (c.advance length) := by
  have taken : bytes length c = .ok (c.rest.take length) (c.advance length) := by rw [bytes, if_pos inside]
  rw [skip, bind_ok taken]
  rfl

theorem index_skips {c d : Cursor} {i : Nat} (ran : index c = .ok i d) : skip 2 c = .ok () d := by
  obtain ⟨code, ran, _⟩ := map_ok_inv ran
  obtain ⟨taken, ran, _⟩ := map_ok_inv ran
  rw [skip, bind_ok ran]
  rfl

theorem skip_both {first second : Nat} {c d e : Cursor} (left : skip first c = .ok () d) (right : skip second d = .ok () e) :
    skip (first + second) c = .ok () e := by
  obtain ⟨_, rfl⟩ := skip_inv left
  obtain ⟨inside, rfl⟩ := skip_inv right
  have whole : c.pos + (first + second) ≤ c.bound := by
    rw [← Nat.add_assoc]
    exact inside
  rw [skip_ok whole]
  congr 1
  apply Cursor.eq_of_fields
  · exact (Nat.add_assoc ..).symm
  · rfl
  · exact List.drop_drop.symm

theorem known_ok {α : Type} {answer : Except Fault α} {a : α} (known : answer = .ok a) (c : Cursor) :
    (answer : Read α) c = .ok a c := by rw [known]; rfl

theorem known_inv {α : Type} {answer : Except Fault α} {a : α} {c d : Cursor} (ran : (answer : Read α) c = .ok a d) :
    answer = .ok a ∧ d = c := by
  cases answer with
  | error e => cases ran
  | ok b =>
      cases ran
      exact ⟨rfl, rfl⟩

theorem known_bind_inv {α β : Type} {answer : Except Fault α} {f : α → Read β} {b : β} {c d : Cursor}
    (ran : ((answer : Read α) >>= f) c = .ok b d) : ∃ a, answer = .ok a ∧ f a c = .ok b d := by
  obtain ⟨a, _, first, rest⟩ := bind_ok_inv ran
  obtain ⟨known, rfl⟩ := known_inv first
  exact ⟨a, known, rest⟩

end Read

namespace NamedShape

open Read

def nextClass (className : Nat → Except Fault Name) : Read Name := do
  let index ← index
  className index

def superName (className : Nat → Except Fault Name) (index : Nat) : Except Fault Name :=
  if index = 0 then .ok Name.object else className index

theorem read_steps (names : NameTable) (className : Nat → Except Fault Name) :
    read names className = (do
      skip 2
      let name ← nextClass className
      let superClass ← index
      let superName ← superName className superClass
      let count ← index
      let interfaces ← collect count (nextClass className)
      let fieldCount ← index
      times fieldCount (do skip 6; skipAttributes)
      let methodCount ← index
      let methods ← collect methodCount (readMethod names)
      let shape : Shape := { ancestors := superName :: interfaces }
      return ⟨name, methods.foldl (fun shape method => shape.addMethod method.1 method.2) shape⟩) := by
  simp only [nextClass, bind_assoc]
  refine bind_congr fun _ => bind_congr fun thisClass => bind_congr fun name => bind_congr fun superClass => ?_
  by_cases none : superClass = 0
  · rw [superName, if_pos none, if_pos none]
    rfl
  · rw [superName, if_neg none, if_neg none]

end NamedShape

namespace Pooled

variable {data : Bytes} (pooled : Pooled data)

theorem walk_class_iff (index : Nat) (name : Name) :
    Walk.className (.ofEntries pooled.count pooled.entries) pooled.entries index = .ok name ↔ HasClass data index name := by
  have found : (pooled.entries.find? (·.index = index)).map Entry.constant = constantAt? data index := by
    rw [constantAt?, pooled.walk]
  rw [Walk.className, found, HasClass]
  refine ⟨fun named => ?_, ?_⟩
  · split at named
    · rename_i text held
      split at named
      · cases named
      · exact ⟨text, held, (pooled.text_iff _ name).mp named⟩
    · cases named
  · rintro ⟨text, held, named⟩
    have nonzero : text ≠ 0 := by
      rintro rfl
      exact absurd (pooled.constant_addressable _ _ named).1 (by decide)
    rw [held]
    dsimp only
    rw [if_neg nonzero]
    exact (pooled.text_iff _ name).mpr named

theorem extract_read : NamedShape.ofBytes data =
    match NamedShape.read (.ofEntries pooled.count pooled.entries)
        (Walk.className (.ofEntries pooled.count pooled.entries) pooled.entries) (.ahead pooled.stop pooled.body) with
    | .ok found _ => .ok found
    | .error e _ => .error e := by
  rw [NamedShape.ofBytes, pooled.walk]
  simp only [bind, Except.bind, pooled.start_body]
  rfl

theorem extract_inv {found : NamedShape} (extracted : NamedShape.ofBytes data = .ok found) :
    ∃ c, NamedShape.read (.ofEntries pooled.count pooled.entries)
        (Walk.className (.ofEntries pooled.count pooled.entries) pooled.entries) (.ahead pooled.stop pooled.body) =
      .ok found c := by
  rw [pooled.extract_read] at extracted
  split at extracted
  · rename_i shape c ran
    cases extracted
    exact ⟨c, ran⟩
  · cases extracted

end Pooled

namespace Tables

open Read

theorem header_skips {kind : MemberKind} {c d : Cursor} {header : Header} (ran : Tables.header kind c = .ok header d) :
    (do skip 6; skipAttributes : Read Unit) c = .ok () d := by
  obtain ⟨_, _, access, ran⟩ := bind_ok_inv ran
  obtain ⟨name, _, named, ran⟩ := bind_ok_inv ran
  obtain ⟨descriptor, _, described, ran⟩ := bind_ok_inv ran
  obtain ⟨_, skipped, _⟩ := map_ok_inv ran
  rw [bind_ok (skip_both (skip_both access (index_skips named)) (index_skips described)), skipped]

theorem headers_skip {kind : MemberKind} (n : Nat) {c d : Cursor} {found : List Header}
    (ran : collect n (Tables.header kind) c = .ok found d) :
    times n (do skip 6; skipAttributes : Read Unit) c = .ok () d := by
  have one : Relates (· = ·) (Tables.header kind) (do skip 6; skipAttributes : Read Unit) fun _ c _ d => c = d := by
    rintro c _ header d rfl ran
    exact ⟨(), d, header_skips ran, rfl⟩
  obtain ⟨_, _, skipped, rfl⟩ := relates_collect_times n (fun _ => (· = ·)) (fun _ => one) [] c c found d rfl ran
  exact skipped

theorem method_again (names : NameTable) (c : Cursor) (header : Header) (d : Cursor)
    (texts : (∃ name, names.get header.name = .ok name) ∧ ∃ descriptor, names.get header.descriptor = .ok descriptor)
    (ran : Tables.header .method c = .ok header d) : ∃ found, NamedShape.readMethod names c = .ok found d := by
  obtain ⟨_, _, access, ran⟩ := bind_ok_inv ran
  obtain ⟨index, _, named, ran⟩ := bind_ok_inv ran
  obtain ⟨typed, _, described, ran⟩ := bind_ok_inv ran
  obtain ⟨_, skipped, rfl⟩ := map_ok_inv ran
  obtain ⟨⟨name, gotName⟩, descriptor, gotDescriptor⟩ := texts
  refine ⟨(name, descriptor), ?_⟩
  rw [NamedShape.readMethod, bind_ok access, bind_ok named, bind_ok (known_ok gotName _), bind_ok described,
    bind_ok (known_ok gotDescriptor _), bind_ok skipped]
  rfl

theorem class_again (className : Nat → Except Fault Name) (c : Cursor) (index : Nat) (d : Cursor)
    (named : ∃ name, className index = .ok name) (ran : Read.index c = .ok index d) :
    ∃ name, NamedShape.nextClass className c = .ok name d := by
  obtain ⟨name, named⟩ := named
  exact ⟨name, by rw [NamedShape.nextClass, bind_ok ran, known_ok named]⟩

theorem super_named (className : Nat → Except Fault Name) (index : Nat)
    (named : ∀ one ∈ superClasses index, ∃ name, className one = .ok name) :
    ∃ name, NamedShape.superName className index = .ok name := by
  by_cases none : index = 0
  · exact ⟨Name.object, if_pos none⟩
  · rw [NamedShape.superName, if_neg none]
    exact named index (by rw [superClasses, if_pos none]; exact .head _)

theorem shape_read (names : NameTable) (className : Nat → Except Fault Name) {c d : Cursor} {tables : Tables}
    (named : ∀ index ∈ tables.classes, ∃ name, className index = .ok name)
    (texts : ∀ header ∈ tables.methods,
      (∃ name, names.get header.name = .ok name) ∧ ∃ descriptor, names.get header.descriptor = .ok descriptor)
    (ran : Tables.read c = .ok tables d) : ∃ found e, NamedShape.read names className c = .ok found e := by
  obtain ⟨count, _, _, _, _, _, _, _, access, ranThis, ranSuper, ranCount, ranInterfaces, ranFields, ranMethods, _⟩ :=
    read_inv ran
  obtain ⟨fieldCount, _, ranFieldCount, ranFields⟩ := bind_ok_inv ranFields
  obtain ⟨methodCount, _, ranMethodCount, ranMethods⟩ := bind_ok_inv ranMethods
  obtain ⟨name, ranName⟩ := class_again className _ _ _ (named _ (by simp [classes])) ranThis
  obtain ⟨superName, superNamed⟩ := super_named className tables.outline.superClass fun one member =>
    named one (by simp [classes, member])
  obtain ⟨ancestors, ranAncestors⟩ := collect_again _ (class_again className) count _ _ _
    (fun index member => named index (by simp [classes, member])) ranInterfaces
  obtain ⟨shapes, ranShapes⟩ := collect_again _ (method_again names) methodCount _ _ _ texts ranMethods
  rw [NamedShape.read_steps, bind_ok access, bind_ok ranName, bind_ok ranSuper, bind_ok (known_ok superNamed _),
    bind_ok ranCount, bind_ok ranAncestors, bind_ok ranFieldCount, bind_ok (headers_skip fieldCount ranFields),
    bind_ok ranMethodCount, bind_ok ranShapes]
  exact ⟨_, _, rfl⟩

theorem class_inv {className : Nat → Except Fault Name} {c d e : Cursor} {index : Nat} {name : Name}
    (ran : Read.index c = .ok index d) (named : NamedShape.nextClass className c = .ok name e) :
    className index = .ok name ∧ d = e := by
  rw [NamedShape.nextClass, bind_ok ran] at named
  obtain ⟨known, rfl⟩ := known_inv named
  exact ⟨known, rfl⟩

theorem method_inv {names : NameTable} {c d e : Cursor} {header : Header} {method : Name × Name}
    (ran : Tables.header .method c = .ok header d) (found : NamedShape.readMethod names c = .ok method e) :
    (names.get header.name = .ok method.1 ∧ names.get header.descriptor = .ok method.2) ∧ d = e := by
  obtain ⟨_, _, access, ran⟩ := bind_ok_inv ran
  obtain ⟨index, _, named, ran⟩ := bind_ok_inv ran
  obtain ⟨typed, _, described, ran⟩ := bind_ok_inv ran
  obtain ⟨_, skipped, rfl⟩ := map_ok_inv ran
  rw [NamedShape.readMethod, bind_ok access, bind_ok named] at found
  obtain ⟨name, gotName, found⟩ := known_bind_inv found
  rw [bind_ok described] at found
  obtain ⟨descriptor, gotDescriptor, found⟩ := known_bind_inv found
  rw [bind_ok skipped] at found
  cases found
  exact ⟨⟨gotName, gotDescriptor⟩, rfl⟩

end Tables

structure NamedShape.Restates (names : NameTable) (className : Nat → Except Fault Name) (tables : Tables) (found : NamedShape)
    (superName : Name) (interfaces : List Name) (methods : List (Name × Name)) : Prop where
  named : className tables.outline.thisClass = .ok found.name
  extended : NamedShape.superName className tables.outline.superClass = .ok superName
  implemented : List.Forall₂ (fun index name => className index = .ok name) tables.outline.interfaces interfaces
  declared : List.Forall₂ (fun header method =>
    names.get header.name = .ok method.1 ∧ names.get header.descriptor = .ok method.2) tables.methods methods
  shape : found.shape =
    methods.foldl (fun shape method => shape.addMethod method.1 method.2) { ancestors := superName :: interfaces }

theorem Tables.shape_restates {names : NameTable} {className : Nat → Except Fault Name} {c d e : Cursor} {tables : Tables}
    {found : NamedShape} (ran : Tables.read c = .ok tables d) (shaped : NamedShape.read names className c = .ok found e) :
    ∃ superName interfaces methods, found.Restates names className tables superName interfaces methods := by
  -- Both readers take the same steps, so what one of them looks up stands where the other has it.
  obtain ⟨count, _, _, _, _, _, _, _, access, ranThis, ranSuper, ranCount, ranInterfaces, ranFields, ranMethods, _⟩ :=
    read_inv ran
  obtain ⟨fieldCount, _, ranFieldCount, ranFields⟩ := bind_ok_inv ranFields
  obtain ⟨methodCount, _, ranMethodCount, ranMethods⟩ := bind_ok_inv ranMethods
  rw [NamedShape.read_steps, bind_ok access] at shaped
  obtain ⟨name, _, ranName, rest⟩ := bind_ok_inv shaped
  obtain ⟨named, rfl⟩ := class_inv ranThis ranName
  rw [bind_ok ranSuper] at rest
  obtain ⟨superName, extended, rest⟩ := Read.known_bind_inv rest
  rw [bind_ok ranCount] at rest
  obtain ⟨interfaces, _, ranNames, shaped⟩ := bind_ok_inv rest
  obtain ⟨implemented, rfl⟩ := collect_both ranInterfaces ranNames fun _ _ _ _ _ => class_inv
  rw [bind_ok ranFieldCount, bind_ok (headers_skip fieldCount ranFields), bind_ok ranMethodCount] at shaped
  obtain ⟨methods, ranShapes, rfl⟩ := map_ok_inv shaped
  obtain ⟨declared, _⟩ := collect_both ranMethods ranShapes fun _ _ _ _ _ => method_inv
  exact ⟨superName, interfaces, methods, named, extended, implemented, declared, rfl⟩

namespace Pooled

variable {data : Bytes} (pooled : Pooled data)

theorem extract_restates {tables : Tables} {found : NamedShape} (read : Tables.ofBytes data = .ok tables)
    (extracted : NamedShape.ofBytes data = .ok found) :
    ∃ superName interfaces methods, found.Restates (.ofEntries pooled.count pooled.entries)
      (Walk.className (.ofEntries pooled.count pooled.entries) pooled.entries) tables superName interfaces methods := by
  obtain ⟨_, shaped⟩ := pooled.extract_inv extracted
  obtain ⟨_, ran⟩ := pooled.read_of_tables read
  exact Tables.shape_restates ran shaped

theorem extract_name (pooled : Pooled data) {tables : Tables} {found : NamedShape}
    (read : Tables.ofBytes data = .ok tables) (extracted : NamedShape.ofBytes data = .ok found) :
    HasClass data tables.outline.thisClass found.name := by
  obtain ⟨_, _, _, restates⟩ := pooled.extract_restates read extracted
  exact (pooled.walk_class_iff _ _).mp restates.named

end Pooled

structure Tables.Resolved (tables : Tables) (data : Bytes) : Prop where
  classes : ∀ index ∈ tables.classes, ∃ name, HasClass data index name
  methods : ∀ header ∈ tables.methods, HasText data header.name ∧ HasText data header.descriptor

theorem Pooled.extracts {data : Bytes} (pooled : Pooled data) {tables : Tables} (read : Tables.ofBytes data = .ok tables)
    (resolved : tables.Resolved data) : ∃ found, NamedShape.ofBytes data = .ok found := by
  obtain ⟨_, ran⟩ := pooled.read_of_tables read
  have named : ∀ index ∈ tables.classes, ∃ name,
      Walk.className (.ofEntries pooled.count pooled.entries) pooled.entries index = .ok name := by
    intro index member
    obtain ⟨name, there⟩ := resolved.classes index member
    exact ⟨name, (pooled.walk_class_iff index name).mpr there⟩
  have texts : ∀ header ∈ tables.methods,
      (∃ name, (NameTable.ofEntries pooled.count pooled.entries).get header.name = .ok name) ∧
        ∃ descriptor, (NameTable.ofEntries pooled.count pooled.entries).get header.descriptor = .ok descriptor := by
    intro header member
    obtain ⟨⟨name, named⟩, descriptor, described⟩ := resolved.methods header member
    exact ⟨⟨name, (pooled.text_iff _ name).mpr named⟩, descriptor, (pooled.text_iff _ descriptor).mpr described⟩
  obtain ⟨found, e, shaped⟩ := Tables.shape_read _ _ named texts ran
  rw [pooled.extract_read, shaped]
  exact ⟨found, rfl⟩

end Relabel
