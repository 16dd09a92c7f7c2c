import Mathlib.Data.List.Induction
import Relabel.ClassFile.Basic
import Relabel.Proofs.Emission
import Relabel.Proofs.Extraction
import Relabel.Proofs.PoolBuilding

set_option autoImplicit false

namespace Relabel

open ClassFile (constantAt? HasClass)
open Pool (Built Held Issues NamesText)

namespace Read

variable {α β : Type}

theorem takes_count (pos : Nat) {count : Nat} (small : count ≤ 65535) : Takes index pos (word16 count.toUInt16) count := by
  have whole := takes_index pos count.toUInt16
  rwa [UInt16.toNat_ofNat_of_lt' (Nat.lt_succ_of_le small)] at whole

theorem takes_each {act : Read Unit} {write : β → Bytes} (items : List β)
    (one : ∀ item ∈ items, ∀ pos, Takes act pos (write item) ()) (pos : Nat) :
    Takes (times items.length act) pos (items.flatMap write) () := by
  induction items generalizing pos with
  | nil => exact takes_pure pos ()
  | cons item items ih =>
      rw [List.length_cons, times_succ, List.flatMap_cons]
      exact takes_bind (one item (.head _) pos) (ih (fun other member => one other (.tail _ member)) _)

theorem takes_collect_onto {act : Read α} {write : β → Bytes} {items : List β} {found : List α}
    (one : List.Forall₂ (fun item a => ∀ pos, Takes act pos (write item) a) items found) (done : List α) (pos : Nat) :
    Takes (collectOnto done items.length act) pos (items.flatMap write) (done.reverse ++ found) := by
  induction one generalizing done pos with
  | nil =>
      rw [List.append_nil]
      exact takes_pure pos done.reverse
  | @cons item a items found first _ ih =>
      rw [List.length_cons, collect_onto_succ, List.flatMap_cons]
      have rest := ih (a :: done) (pos + (write item).length)
      rw [List.reverse_cons, List.append_assoc, List.singleton_append] at rest
      exact takes_bind (first pos) rest

theorem takes_collect {act : Read α} {write : β → Bytes} {items : List β} {found : List α}
    (one : List.Forall₂ (fun item a => ∀ pos, Takes act pos (write item) a) items found) (pos : Nat) :
    Takes (collect items.length act) pos (items.flatMap write) found := takes_collect_onto one [] pos

end Read

structure Attribute.TableFits (attributes : List Attribute) : Prop where
  few : attributes.length ≤ 65535
  short : ∀ a ∈ attributes, a.info.length < 4294967296

namespace Read

theorem takes_skip_attribute (a : Attribute) (short : a.info.length < 4294967296) (pos : Nat) :
    Takes skipAttribute pos a.encode () := by
  have size : a.info.length.toUInt32.toNat = a.info.length := UInt32.toNat_ofNat_of_lt' short
  rw [Attribute.encode, List.append_assoc]
  apply takes_bind (takes_u16 pos a.name)
  apply takes_bind (takes_u32 _ a.info.length.toUInt32)
  rw [size]
  exact takes_skip _ a.info

theorem takes_skip_attributes {attributes : List Attribute} (fits : Attribute.TableFits attributes) (pos : Nat) :
    Takes skipAttributes pos (Attribute.encodeTable attributes) () := by
  apply takes_bind (takes_count pos fits.few)
  exact takes_each attributes (fun a member => takes_skip_attribute a (fits.short a member)) _

theorem takes_skip_member {m : Member} (fits : Attribute.TableFits m.attributes) (pos : Nat) :
    Takes (do skip 6; skipAttributes) pos m.encode () := by
  have head := takes_skip pos (word16 m.access ++ word16 m.name ++ word16 m.descriptor)
  simp only [List.length_append, word16_length] at head
  exact takes_bind head (takes_skip_attributes fits _)

theorem takes_read_method {names : NameTable} {m : Member} {name descriptor : Name} (fits : Attribute.TableFits m.attributes)
    (named : names.get m.name.toNat = .ok name) (described : names.get m.descriptor.toNat = .ok descriptor) (pos : Nat) :
    Takes (NamedShape.readMethod names) pos m.encode (name, descriptor) := by
  have access := takes_skip pos (word16 m.access)
  rw [word16_length] at access
  rw [Member.encode, List.append_assoc, List.append_assoc]
  apply takes_bind access
  apply takes_bind (takes_index _ m.name)
  apply takes_after (takes_known named _)
  apply takes_bind (takes_index _ m.descriptor)
  apply takes_after (takes_known described _)
  exact takes_map (takes_skip_attributes fits _) fun _ => (name, descriptor)

theorem takes_next_class {className : Nat → Except Fault Name} {index : UInt16} {name : Name}
    (known : className index.toNat = .ok name) (pos : Nat) : Takes (NamedShape.nextClass className) pos (word16 index) name := by
  have whole : Takes (NamedShape.nextClass className) pos (word16 index ++ []) name :=
    takes_bind (takes_index pos index) (takes_known known _)
  rwa [List.append_nil] at whole

end Read

namespace ClassFile

inductive Request where
  | inPool (request : Pool.Request)
  | interface (name : Name)
  | namedAttribute (name : Name) (info : Bytes)
  | indexAttribute (name : Name) (index : UInt16)
  | codeAttribute (maxStack maxLocals : UInt16) (code : Bytes) (attributes : List Attribute)
  | field (access : UInt16) (name descriptor : Name) (attributes : List Attribute)
  | method (access : UInt16) (name descriptor : Name) (attributes : List Attribute)
  | classAttribute (a : Attribute)

def Request.run : Request → Build Unit
  | .inPool request => discard (ClassFile.inPool request.run)
  | .interface name => discard (addInterface name)
  | .namedAttribute name info => discard (ClassFile.namedAttribute name info)
  | .indexAttribute name index => discard (ClassFile.indexAttribute name index)
  | .codeAttribute maxStack maxLocals code attributes => discard (ClassFile.codeAttribute maxStack maxLocals code attributes)
  | .field access name descriptor attributes => addField access name descriptor attributes
  | .method access name descriptor attributes => addMethod access name descriptor attributes
  | .classAttribute a => addAttribute a

def Request.interface? : Request → Option Name
  | .interface name => some name
  | _ => none

def Request.method? : Request → Option (Name × Name)
  | .method _ name descriptor _ => some (name, descriptor)
  | _ => none

def built (name : Name) (superName : Option Name) (requests : List Request) : ClassFile :=
  requests.foldl (fun file request => (request.run file).2) (new name superName)

structure Fits (file : ClassFile) : Prop where
  interfaces : file.interfaces.size ≤ 65535
  fields : file.fields.size ≤ 65535
  methods : file.methods.size ≤ 65535
  members : ∀ m ∈ file.fields.toList ++ file.methods.toList, Attribute.TableFits m.attributes

def SuperHeld (log : List (UInt16 × Constant)) (index : UInt16) : Option Name → Prop
  | none => index = 0
  | some superName => NamesText (Held log) .classRef superName index

structure Describes (log : List (UInt16 × Constant)) (file : ClassFile) (name : Name) (superName : Option Name)
    (interfaces : List Name) (methods : List (Name × Name)) : Prop where
  named : NamesText (Held log) .classRef name file.thisClass
  extended : SuperHeld log file.superClass superName
  implemented : List.Forall₂ (fun index name => NamesText (Held log) .classRef name index) file.interfaces.toList interfaces
  declared : List.Forall₂ (fun m method => Held log m.name (.text method.1) ∧ Held log m.descriptor (.text method.2))
    file.methods.toList methods

section

variable {log : List (UInt16 × Constant)} {file : ClassFile} {name : Name} {superName : Option Name}
  {interfaces : List Name} {methods : List (Name × Name)}

theorem Describes.longer (describes : Describes log file name superName interfaces methods) (more : List (UInt16 × Constant))
    (pool : Pool) : Describes (log ++ more) { file with pool } name superName interfaces methods where
  named := describes.named.imp (Pool.held_longer log more)
  extended := by
    have extended := describes.extended
    cases superName with
    | none => exact extended
    | some superName => exact NamesText.imp (Pool.held_longer log more) extended
  implemented := describes.implemented.imp fun _ _ => NamesText.imp (Pool.held_longer log more)
  declared := describes.declared.imp fun _ _ held => held.imp (Pool.held_longer log more _ _) (Pool.held_longer log more _ _)

theorem Describes.still (describes : Describes log file name superName interfaces methods) (fields : Array Member)
    (attributes : Array Attribute) :
    Describes log { file with fields, attributes } name superName (interfaces ++ []) (methods ++ []) := by
  rw [List.append_nil, List.append_nil]
  exact ⟨describes.named, describes.extended, describes.implemented, describes.declared⟩

theorem Describes.add_interface (describes : Describes log file name superName interfaces methods) {added : Name}
    {index : UInt16} (held : NamesText (Held log) .classRef added index) :
    Describes log { file with interfaces := file.interfaces.push index } name superName (interfaces ++ [added]) methods where
  named := describes.named
  extended := describes.extended
  implemented := by
    rw [Array.toList_push]
    exact List.rel_append describes.implemented (.cons held .nil)
  declared := describes.declared

theorem Describes.add_method (describes : Describes log file name superName interfaces methods) (m : Member)
    (added : Name × Name) (named : Held log m.name (.text added.1)) (typed : Held log m.descriptor (.text added.2)) :
    Describes log { file with methods := file.methods.push m } name superName interfaces (methods ++ [added]) where
  named := describes.named
  extended := describes.extended
  implemented := describes.implemented
  declared := by
    rw [Array.toList_push]
    exact List.rel_append describes.declared (.cons ⟨named, typed⟩ .nil)

end

def textPair (name descriptor : Name) : Pool.Build (UInt16 × UInt16) := do
  return (← Pool.addText name, ← Pool.addText descriptor)

theorem issues_text_pair (name descriptor : Name) :
    Issues (textPair name descriptor) fun log pair => Held log pair.1 (.text name) ∧ Held log pair.2 (.text descriptor) := by
  apply Pool.issues_after_text name
  intro first
  apply Pool.issues_after_text descriptor
  exact fun second => Pool.issues_pure (first, second) fun _ typed named => ⟨named, typed⟩

variable {name : Name} {superName : Option Name} {interfaces : List Name} {methods : List (Name × Name)}

def Standing (name : Name) (superName : Option Name) (interfaces : List Name) (methods : List (Name × Name))
    (file : ClassFile) : Prop :=
  ∃ log, Built log file.pool ∧ Describes log file name superName interfaces methods

theorem standing_in_pool {α : Type} {file : ClassFile} {act : Pool.Build α} {post : List (UInt16 × Constant) → α → Prop}
    (issues : Issues act post) (standing : Standing name superName interfaces methods file) :
    ∃ log, Built log (act file.pool).2 ∧
      Describes log { file with pool := (act file.pool).2 } name superName interfaces methods ∧ post log (act file.pool).1 := by
  obtain ⟨log, built, describes⟩ := standing
  obtain ⟨more, grown, said⟩ := issues log file.pool built
  exact ⟨log ++ more, grown, describes.longer more _, said⟩

theorem standing_still {α : Type} {file : ClassFile} {act : Pool.Build α} {post : List (UInt16 × Constant) → α → Prop}
    (issues : Issues act post) (standing : Standing name superName interfaces methods file) (fields : Array Member) :
    Standing name superName (interfaces ++ []) (methods ++ []) { file with pool := (act file.pool).2, fields } := by
  obtain ⟨log, built, describes, _⟩ := standing_in_pool issues standing
  exact ⟨log, built, describes.still fields file.attributes⟩

theorem standing_run (request : Request) {file : ClassFile} (standing : Standing name superName interfaces methods file) :
    Standing name superName (interfaces ++ request.interface?.toList) (methods ++ request.method?.toList)
      (request.run file).2 := by
  cases request with
  | inPool request => exact standing_still (Pool.issues_request request) standing file.fields
  | namedAttribute title info => exact standing_still (Pool.issues_text title) standing file.fields
  | indexAttribute title index => exact standing_still (Pool.issues_text title) standing file.fields
  | codeAttribute maxStack maxLocals code attributes =>
      exact standing_still (Pool.issues_text (.ofString "Code")) standing file.fields
  | field access title descriptor attributes => exact standing_still (issues_text_pair title descriptor) standing _
  | classAttribute a =>
      obtain ⟨log, built, describes⟩ := standing
      exact ⟨log, built, describes.still file.fields (file.attributes.push a)⟩
  | interface added =>
      obtain ⟨log, built, describes, held⟩ := standing_in_pool (Pool.issues_class added) standing
      have whole := describes.add_interface held
      rw [← List.append_nil methods] at whole
      exact ⟨log, built, whole⟩
  | method access title descriptor attributes =>
      obtain ⟨log, built, describes, named, typed⟩ := standing_in_pool (issues_text_pair title descriptor) standing
      let m : Member := ⟨access, (textPair title descriptor file.pool).1.1, (textPair title descriptor file.pool).1.2, attributes⟩
      have whole := describes.add_method m (title, descriptor) named typed
      rw [← List.append_nil interfaces] at whole
      exact ⟨log, built, whole⟩

theorem standing_new (name : Name) (superName : Option Name) : Standing name superName [] [] (new name superName) := by
  obtain ⟨log, built, named⟩ := Pool.issues_class name [] {} Pool.built_new
  cases superName with
  | none => exact ⟨_, built, named, rfl, .nil, .nil⟩
  | some superName =>
      obtain ⟨more, grown, extended⟩ := Pool.issues_class superName _ _ built
      exact ⟨_, grown, named.imp (Pool.held_longer _ more), extended, .nil, .nil⟩

theorem standing_runs (requests : List Request) (file : ClassFile) (interfaces : List Name) (methods : List (Name × Name))
    (standing : Standing name superName interfaces methods file) :
    Standing name superName (interfaces ++ requests.filterMap Request.interface?) (methods ++ requests.filterMap Request.method?)
      (requests.foldl (fun file request => (request.run file).2) file) := by
  induction requests generalizing file interfaces methods with
  | nil => simpa using standing
  | cons request requests ih =>
      have first {α : Type} (f : Request → Option α) :
          (request :: requests).filterMap f = (f request).toList ++ requests.filterMap f := by
        rw [List.filterMap_cons]
        cases f request <;> rfl
      rw [first, first, ← List.append_assoc, ← List.append_assoc]
      exact ih _ _ _ (standing_run request standing)

theorem standing_built (name : Name) (superName : Option Name) (requests : List Request) :
    Standing name superName (requests.filterMap Request.interface?) (requests.filterMap Request.method?)
      (built name superName requests) :=
  standing_runs requests (new name superName) [] [] (standing_new name superName)

theorem held_at {log : List (UInt16 × Constant)} {pool : Pool} (built : Built log pool) {bytes version : Bytes}
    (written : pool.encode = .ok bytes) (size : version.length = 4) (tail : Bytes) (index : UInt16) (constant : Constant)
    (held : Held log index constant) : constantAt? (Pool.headed version bytes tail) index.toNat = some constant := by
  have listing := Pool.issued_listing built.issued
  exact ((listing.pooled written size tail).constant_at _ _).mpr (listing.entry_of_held written size tail index constant held)

section

variable {log : List (UInt16 × Constant)} {data : Bytes}
  (found : ∀ index constant, Held log index constant → constantAt? data index.toNat = some constant)

include found

theorem class_held {title : Name} {index : UInt16} (names : NamesText (Held log) .classRef title index) :
    HasClass data index.toNat title := by
  obtain ⟨text, refers, named⟩ := names
  exact ⟨text, found _ _ refers, found _ _ named⟩

theorem super_held (pooled : Pooled data) {index : UInt16} (extended : SuperHeld log index superName) :
    NamedShape.superName (Walk.className (.ofEntries pooled.count pooled.entries) pooled.entries) index.toNat =
      .ok (superName.getD Name.object) := by
  cases superName with
  | none =>
      rw [show index = 0 from extended]
      rfl
  | some parent =>
      have there := class_held found extended
      have nonzero : index.toNat ≠ 0 := by
        obtain ⟨text, refers, _⟩ := there
        exact Nat.ne_of_gt (pooled.constant_addressable _ _ refers).1
      rw [NamedShape.superName, if_neg nonzero]
      exact (pooled.walk_class_iff _ _).mpr there

end

theorem encode_parts {file : ClassFile} {bytes : Bytes} (written : file.encode = .ok bytes) :
    ∃ pool, file.pool.encode = .ok pool ∧ bytes = Pool.headed (word16 file.minor ++ word16 file.major) pool file.tail := by
  obtain ⟨pool, encoded, made⟩ := except_bind_inv written
  cases made
  refine ⟨pool, encoded, ?_⟩
  simp only [Pool.headed, List.append_assoc]

open Read in
theorem takes_shape {file : ClassFile} (fits : file.Fits) (names : NameTable) (className : Nat → Except Fault Name)
    {name parent : Name} {interfaces : List Name} {methods : List (Name × Name)}
    (named : className file.thisClass.toNat = .ok name)
    (extended : NamedShape.superName className file.superClass.toNat = .ok parent)
    (implemented : List.Forall₂ (fun index name => className index.toNat = .ok name) file.interfaces.toList interfaces)
    (declared : List.Forall₂ (fun m method => names.get m.name.toNat = .ok method.1 ∧
      names.get m.descriptor.toNat = .ok method.2) file.methods.toList methods) (pos : Nat) :
    ∃ front back, file.tail = front ++ back ∧ Takes (NamedShape.read names className) pos front
      ⟨name, methods.foldl (fun shape method => shape.addMethod method.1 method.2) { ancestors := parent :: interfaces }⟩ := by
  have access := takes_skip pos (word16 file.access)
  rw [word16_length] at access
  have fields := takes_each file.fields.toList fun m member =>
    takes_skip_member (fits.members m (List.mem_append_left _ member))
  have headers : List.Forall₂ (fun m method => ∀ pos, Takes (NamedShape.readMethod names) pos m.encode method)
      file.methods.toList methods := by
    obtain ⟨sizes, known⟩ := List.forall₂_iff_zip.mp declared
    refine List.forall₂_iff_zip.mpr ⟨sizes, fun {m method} pair => ?_⟩
    obtain ⟨title, descriptor⟩ := known pair
    have member := List.mem_append_right file.fields.toList (List.of_mem_zip pair).1
    exact takes_read_method (fits.members m member) title descriptor
  refine ⟨word16 file.access ++ (word16 file.thisClass ++ (word16 file.superClass ++
    (word16 file.interfaces.size.toUInt16 ++ (file.interfaces.toList.flatMap word16 ++
    (word16 file.fields.size.toUInt16 ++ (file.fields.toList.flatMap Member.encode ++
    (word16 file.methods.size.toUInt16 ++ file.methods.toList.flatMap Member.encode))))))),
    Attribute.encodeTable file.attributes.toList, ?_, ?_⟩
  · simp only [tail, Member.encodeTable, Array.length_toList, List.append_assoc]
  · rw [NamedShape.read_steps]
    apply takes_bind access
    apply takes_bind (takes_next_class named _)
    apply takes_bind (takes_index _ file.superClass)
    apply takes_after (takes_known extended _)
    apply takes_bind (takes_count _ fits.interfaces)
    apply takes_bind (takes_collect (implemented.imp fun _ _ => takes_next_class) _)
    apply takes_bind (takes_count _ fits.fields)
    apply takes_bind (fields _)
    apply takes_bind (takes_count _ fits.methods)
    exact takes_map (takes_collect headers _) fun found => NamedShape.mk name
      (found.foldl (fun shape method => shape.addMethod method.1 method.2) { ancestors := parent :: interfaces })

end ClassFile

namespace Shape

theorem declares_iff (shape : Shape) (name descriptor : Name) :
    shape.declares name descriptor = true ↔ descriptor ∈ shape.overloads name := by
  simp [declares, overloads]

theorem add_method_ancestors (shape : Shape) (name descriptor : Name) :
    (shape.addMethod name descriptor).ancestors = shape.ancestors := by
  rw [addMethod]
  split <;> rfl

theorem add_methods_ancestors (methods : List (Name × Name)) (shape : Shape) :
    (methods.foldl (fun shape method => shape.addMethod method.1 method.2) shape).ancestors = shape.ancestors := by
  induction methods generalizing shape with
  | nil => rfl
  | cons method methods ih => rw [List.foldl_cons, ih, add_method_ancestors]

theorem add_method_overloads (shape : Shape) (name descriptor method : Name) :
    (shape.addMethod name descriptor).overloads method =
      if name = method ∧ descriptor ∉ shape.overloads method then shape.overloads method ++ [descriptor]
      else shape.overloads method := by
  by_cases known : shape.declares name descriptor = true
  · rw [addMethod, if_pos known, if_neg]
    rintro ⟨rfl, missing⟩
    exact missing ((shape.declares_iff name descriptor).mp known)
  · rw [addMethod, if_neg known]
    by_cases same : name = method
    · subst same
      rw [if_pos ⟨rfl, fun member => known ((shape.declares_iff name descriptor).mpr member)⟩]
      simp [overloads]
    · rw [if_neg fun both => same both.1]
      simp [overloads, same]

theorem add_methods_overloads (ancestors : List Name) (methods : List (Name × Name)) (name : Name) :
    (methods.foldl (fun shape method => shape.addMethod method.1 method.2) ({ ancestors } : Shape)).overloads name =
      ((methods.filter (·.1 = name)).map (·.2)).eraseDups := by
  -- The induction is from the end: a method is added last, and left out if it came before.
  induction methods using List.reverseRecOn with
  | nil => rfl
  | append_singleton methods method ih =>
      rw [List.foldl_append, List.foldl_cons, List.foldl_nil, add_method_overloads, ih, List.filter_append, List.map_append]
      by_cases same : method.1 = name
      · have last : ([method].filter (·.1 = name)).map (·.2) = [method.2] := by simp [same]
        rw [last, distinct_snoc]
        by_cases known : method.2 ∈ (methods.filter (·.1 = name)).map (·.2)
        · rw [if_neg fun both => both.2 (List.mem_eraseDups.mpr known), if_pos known]
        · rw [if_pos ⟨same, fun held => known (List.mem_eraseDups.mp held)⟩, if_neg known]
      · have none : ([method].filter (·.1 = name)).map (·.2) = [] := by simp [same]
        rw [none, List.append_nil, if_neg fun both => same both.1]

end Shape

/-- However a class file is built, its shape is read back: its own name, the super class or else the
root class, the interfaces in the order in which they were added, and for each method name its
descriptors. -/
theorem built_class_reads_back (name : Name) (superName : Option Name) (requests : List ClassFile.Request) (bytes : Bytes)
    (fits : (ClassFile.built name superName requests).Fits)
    (written : (ClassFile.built name superName requests).encode = .ok bytes) :
    ∃ shape, NamedShape.ofBytes bytes = .ok ⟨name, shape⟩ ∧
      shape.ancestors = superName.getD Name.object :: requests.filterMap ClassFile.Request.interface? ∧
      ∀ method, shape.overloads method =
        (((requests.filterMap ClassFile.Request.method?).filter (·.1 = method)).map (·.2)).eraseDups := by
  obtain ⟨log, built, describes⟩ := ClassFile.standing_built name superName requests
  obtain ⟨pool, encoded, rfl⟩ := ClassFile.encode_parts written
  generalize ClassFile.built name superName requests = file at *
  have size : (word16 file.minor ++ word16 file.major).length = 4 := by simp [word16_length]
  let pooled := (Pool.issued_listing built.issued).pooled encoded size file.tail
  have held := ClassFile.held_at built encoded size file.tail
  have class_read {title : Name} {index : UInt16} (names : NamesText (Held log) .classRef title index) :=
    (pooled.walk_class_iff index.toNat title).mpr (ClassFile.class_held held names)
  obtain ⟨front, back, split, takes⟩ := ClassFile.takes_shape fits (.ofEntries pooled.count pooled.entries)
    (Walk.className (.ofEntries pooled.count pooled.entries) pooled.entries)
    (class_read describes.named) (ClassFile.super_held held pooled describes.extended)
    (describes.implemented.imp fun _ _ => class_read)
    (describes.declared.imp fun _ _ both => ⟨(pooled.text_iff _ _).mpr (held _ _ both.1),
      (pooled.text_iff _ _).mpr (held _ _ both.2)⟩) pooled.stop
  have ran := takes.passes back
  refine ⟨_, ?_, Shape.add_methods_ancestors _ _, fun method => Shape.add_methods_overloads _ _ method⟩
  rw [pooled.extract_read, show pooled.body = front ++ back from split, ran]

def overloadedRequests : List ClassFile.Request :=
  [.interface (.ofString "I"), .inPool (.push (.long 42)), .field 2 (.ofString "run") (.ofString "J") [⟨1, [7]⟩],
    .codeAttribute 1 1 [0xB1] [], .method 1 (.ofString "run") (.ofString "()V") [⟨11, [0, 1]⟩],
    .method 1 (.ofString "run") (.ofString "()I") [], .method 9 (.ofString "run") (.ofString "()V") [],
    .interface (.ofString "K"), .classAttribute ⟨1, []⟩]

def overloadedClass : ClassFile := .built (.ofString "A") (some (.ofString "B")) overloadedRequests

theorem overloaded_fits : overloadedClass.Fits where
  interfaces := by decide +kernel
  fields := by decide +kernel
  methods := by decide +kernel
  members := by
    have few : ∀ m ∈ overloadedClass.fields.toList ++ overloadedClass.methods.toList,
        m.attributes.length ≤ 65535 ∧ ∀ a ∈ m.attributes, a.info.length < 4294967296 := by decide +kernel
    exact fun m member => ⟨(few m member).1, (few m member).2⟩

theorem built_class_reads_back_sample :
    overloadedClass.Fits ∧ ∃ bytes shape, overloadedClass.encode = .ok bytes ∧
      NamedShape.ofBytes bytes = .ok ⟨.ofString "A", shape⟩ ∧
      shape.ancestors = [.ofString "B", .ofString "I", .ofString "K"] ∧
      shape.overloads (.ofString "run") = [.ofString "()V", .ofString "()I"] := by
  have encodes : overloadedClass.encode.isOk = true := by decide +kernel
  cases written : overloadedClass.encode with
  | error e =>
      rw [written] at encodes
      cases encodes
  | ok bytes =>
      obtain ⟨shape, extracted, ancestors, overloads⟩ := built_class_reads_back (.ofString "A") (some (.ofString "B"))
        overloadedRequests bytes overloaded_fits written
      exact ⟨overloaded_fits, bytes, shape, rfl, extracted, ancestors, (overloads _).trans (by decide +kernel)⟩

end Relabel
