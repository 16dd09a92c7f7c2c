import Relabel.Proofs.ClassBuilding
import Relabel.Proofs.DeclaredNames

set_option autoImplicit false

namespace Relabel

open ClassFile (constantAt? HasClass)

section

variable {ε α β : Type} {rel : α → β → Prop}

theorem except_map_pairs {f : α → Except ε β} {items : List α} {found : List β}
    (each : List.Forall₂ (fun item one => f item = .ok one) items found) : items.mapM f = .ok found := by
  induction each with
  | nil => rfl
  | cons here _ ih => rw [List.mapM_cons, here, ih]; rfl

theorem mem_of_pairs {items : List α} {found : List β} (each : List.Forall₂ rel items found) {one : β} (member : one ∈ found) :
    ∃ item ∈ items, rel item one := by
  induction each with
  | nil => cases member
  | cons here _ ih =>
      rcases List.mem_cons.mp member with rfl | later
      · exact ⟨_, .head _, here⟩
      · obtain ⟨item, there, related⟩ := ih later
        exact ⟨item, .tail _ there, related⟩

end

theorem Shape.declares_added (ancestors : List Name) (methods : List (Name × Name)) (name descriptor : Name) :
    (methods.foldl (fun shape method => shape.addMethod method.1 method.2) ({ ancestors } : Shape)).declares name descriptor ↔
      (name, descriptor) ∈ methods := by
  rw [declares_iff, add_methods_overloads]
  simp

def Scan.DeclaresMethod (scan : Scan) (name descriptor : Name) : Prop :=
  ∃ index declarations place, scan.catalog.declarations index = .ok declarations ∧ ⟨.method, place⟩ ∈ declarations ∧
    scan.names.get index = .ok name ∧ scan.names.get place = .ok descriptor

theorem Tables.Sorted.method_iff {tables : Tables} (sorted : tables.Sorted) (header : Header) :
    header ∈ tables.members ∧ header.kind = .method ↔ header ∈ tables.methods := by
  constructor
  · rintro ⟨member, kind⟩
    rcases List.mem_append.mp member with field | method
    · rw [sorted.fields header field] at kind
      cases kind
    · exact method
  · exact fun method => ⟨List.mem_append_right _ method, sorted.methods header method⟩

namespace Scanned

variable {mode : AttributeMode} {data : Bytes} {scan : Scan} (scanned : Scanned mode data scan)

include scanned

theorem declares_iff {tables : Tables} (read : Tables.ofBytes data = .ok tables) (name descriptor : Name) :
    scan.DeclaresMethod name descriptor ↔
      ∃ header ∈ tables.methods, scan.names.get header.name = .ok name ∧ scan.names.get header.descriptor = .ok descriptor := by
  have headers := scanned.noted_headers (scanned.stated read).2
  obtain ⟨_, ran⟩ := scanned.pooled.read_of_tables read
  have sorted := Tables.read_sorted ran
  -- Attributes declare nothing, so the slot of a text holds the headers that have it as their name.
  have told : ∀ {index name}, scan.names.get index = .ok name →
      scan.catalog.declarations index = .ok ((tables.members.filter (·.name = index)).map Header.declaration) := by
    intro index name held
    have here := scanned.pooled.constant_addressable index _ ((scanned.text_iff index name).mp held)
    exact scanned.declarations_told index here headers
  constructor
  · rintro ⟨index, declarations, place, found, declared, named, described⟩
    rw [told named] at found
    cases found
    obtain ⟨header, member, same⟩ := List.mem_map.mp declared
    obtain ⟨inside, rfl⟩ : header ∈ tables.members ∧ header.name = index := by simpa using member
    obtain ⟨kind, rfl⟩ := Declaration.mk.inj same
    exact ⟨header, (sorted.method_iff header).mp ⟨inside, kind⟩, named, described⟩
  · rintro ⟨header, method, named, described⟩
    obtain ⟨member, kind⟩ := (sorted.method_iff header).mpr method
    refine ⟨header.name, _, header.descriptor, told named, ?_, named, described⟩
    refine List.mem_map.mpr ⟨header, by simpa using member, ?_⟩
    rw [Header.declaration, kind]

end Scanned

/-- The scan and the extraction read one and the same class: its name, its ancestors and the methods
that it declares. -/
theorem readers_agree (mode : AttributeMode) (data : Bytes) (scan : Scan) (found : NamedShape)
    (scanned : Scan.ofBytes mode data = .ok scan) (extracted : NamedShape.ofBytes data = .ok found) :
    scan.thisName = .ok found.name ∧
      (∃ superName interfaces, scan.superName = .ok superName ∧ scan.interfaceNames = .ok interfaces ∧
        found.shape.ancestors = superName :: interfaces) ∧
      ∀ name descriptor, found.shape.declares name descriptor = true ↔ scan.DeclaresMethod name descriptor := by
  obtain ⟨scanned⟩ := scan_inv mode data scan scanned
  obtain ⟨tables, read, outlined, _⟩ := scanned.tables
  obtain ⟨superName, interfaces, methods, restates⟩ := scanned.pooled.extract_restates read extracted
  -- The extraction resolves indices in the walk and the scan in its catalog, with the same result.
  have classes : ∀ {index name}, Walk.className (.ofEntries scanned.pooled.count scanned.pooled.entries)
      scanned.pooled.entries index = .ok name → scan.className index = .ok name := by
    intro index name known
    exact (scanned.class_name_iff index name).mpr ((scanned.pooled.walk_class_iff index name).mp known)
  refine ⟨?_, ⟨superName, interfaces, ?_, ?_, ?_⟩, fun name descriptor => ?_⟩
  · rw [Scan.thisName, ← outlined]
    exact classes restates.named
  · rw [Scan.superName, ← outlined]
    have extended := restates.extended
    by_cases none : tables.outline.superClass = 0
    · rw [NamedShape.superName, if_pos none] at extended
      rw [if_pos none, extended]
    · rw [NamedShape.superName, if_neg none] at extended
      rw [if_neg none, classes extended]
  · rw [Scan.interfaceNames, ← outlined]
    exact except_map_pairs (restates.implemented.imp fun _ _ => classes)
  · rw [restates.shape, Shape.add_methods_ancestors]
  · rw [restates.shape, Shape.declares_added, scanned.declares_iff read, scanned.names]
    constructor
    · exact fun member => mem_of_pairs restates.declared member
    · rintro ⟨header, method, named, described⟩
      obtain ⟨found, member, gotName, gotDescriptor⟩ := mem_of_pairs restates.declared.flip method
      rw [named] at gotName
      rw [described] at gotDescriptor
      cases gotName
      cases gotDescriptor
      exact member

def namesakeClass : Bytes :=
  [0xCA, 0xFE, 0xBA, 0xBE, 0, 0, 0, 52, 0, 11, 1, 0, 1, 65, 7, 0, 1, 1, 0, 1, 73, 7, 0, 3, 5, 0, 0, 0, 0, 0, 0, 0, 7,
    1, 0, 1, 102, 1, 0, 3, 40, 41, 86, 1, 0, 4, 40, 73, 41, 86, 1, 0, 1, 88, 0, 33, 0, 2, 0, 0, 0, 1, 0, 4,
    0, 1, 0, 0, 0, 7, 0, 3, 0, 0, 0, 2, 0, 1, 0, 7, 0, 8, 0, 1, 0, 10, 0, 0, 0, 2, 0, 0, 0, 1, 0, 7, 0, 9, 0, 0, 0, 0]

def namesakeShape : NamedShape :=
  ⟨.ofString "A", [Name.object, .ofString "I"],
    [(.ofString "f", .ofString "()V"), (.ofString "f", .ofString "(I)V")]⟩

theorem readers_agree_namesakes :
    ∃ scan, Scan.ofBytes .interpret namesakeClass = .ok scan ∧ NamedShape.ofBytes namesakeClass = .ok namesakeShape ∧
      scan.thisName = .ok (.ofString "A") ∧ scan.interfaceNames = .ok [.ofString "I"] ∧
      scan.DeclaresMethod (.ofString "f") (.ofString "(I)V") ∧ ¬ scan.DeclaresMethod (.ofString "f") (.ofString "I") := by
  obtain ⟨scan, scanned⟩ : ∃ scan, Scan.ofBytes .interpret namesakeClass = .ok scan := ⟨_, rfl⟩
  have extracted : NamedShape.ofBytes namesakeClass = .ok namesakeShape := rfl
  obtain ⟨named, ⟨superName, interfaces, _, implemented, ancestors⟩, declared⟩ :=
    readers_agree .interpret namesakeClass scan namesakeShape scanned extracted
  have same : [Name.ofString "I"] = interfaces := (List.cons.inj ancestors).2
  refine ⟨scan, scanned, extracted, named, same ▸ implemented, (declared _ _).mp (by decide), ?_⟩
  exact fun claimed => absurd ((declared _ _).mpr claimed) (by decide)

end Relabel
