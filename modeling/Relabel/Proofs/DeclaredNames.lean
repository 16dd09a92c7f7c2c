import Relabel.Proofs.Classification
import Relabel.Proofs.FixedAnswers

set_option autoImplicit false

namespace Relabel

open ClassFile (constantAt?)

theorem fact_of_header {fact : Fact} {header : Header} (found : fact.header? = some header) : fact = header.fact := by
  cases fact <;> cases found
  rfl

def Header.declaration (header : Header) : Declaration := ⟨header.kind, header.descriptor⟩

namespace Slot

variable {place : Nat}

theorem after_declarations (slot : Slot) (fact : Fact) :
    (slot.after place fact).declarations.toList =
      slot.declarations.toList ++ (fact.header?.toList.filter (·.name = place)).map Header.declaration := by
  cases fact with
  | declares name descriptor kind =>
      by_cases here : name = place <;>
        simp [after, used, changed, here, apply_ite Slot.declarations, Fact.header?, Header.declaration]
  | _ => simp [after, used, changed, apply_ite Slot.declarations, Fact.header?]

theorem told_declarations (facts : List Fact) :
    (told place facts).declarations.toList =
      ((facts.filterMap Fact.header?).filter (·.name = place)).map Header.declaration := by
  have run : ∀ slot : Slot, (facts.foldl (after place) slot).declarations.toList =
      slot.declarations.toList ++ ((facts.filterMap Fact.header?).filter (·.name = place)).map Header.declaration := by
    induction facts with
    | nil => simp
    | cons fact rest ih =>
        intro slot
        rw [List.foldl_cons, ih, after_declarations]
        cases found : fact.header? <;> simp [found, List.filter_cons, apply_ite (List.map Header.declaration)]
        split <;> simp
  exact run {}

def InStep (slot : Slot) : Prop :=
  ∀ declaration, slot.declarations.toList.getLast? = some declaration →
    slot.role = declaration.kind.ownRole ∧ slot.ownDescriptor = present? declaration.descriptor

end Slot

def Fact.Light (fact : Fact) : Prop := fact.header? = none → ∀ place, ∀ role ∈ fact.rolesAt place, role.weight < 6

theorem own_role_weight (kind : MemberKind) : kind.ownRole.weight = 6 := by cases kind <;> rfl

namespace Slot

variable {place : Nat}

theorem after_own_descriptor (slot : Slot) (fact : Fact) (other : ∀ header, fact.header? = some header → header.name ≠ place) :
    (slot.after place fact).ownDescriptor = slot.ownDescriptor := by
  cases fact with
  | declares name descriptor kind =>
      have apart : name ≠ place := other _ rfl
      simp [after, used, changed, apart, apply_ite Slot.ownDescriptor]
  | _ => simp [after, used, changed, apply_ite Slot.ownDescriptor]

theorem declared_in_step (slot : Slot) (descriptor : Nat) (kind : MemberKind) :
    (slot.after place (.declares place descriptor kind)).InStep := by
  intro declaration last
  rw [after_declarations] at last
  have made : (⟨kind, descriptor⟩ : Declaration) = declaration := by simpa [Fact.header?, Header.declaration] using last
  rw [← made]
  refine ⟨?_, by simp [after, used, changed, apply_ite Slot.ownDescriptor]⟩
  rw [after_role]
  apply Role.promote_all_top kind.ownRole _ _ ?_ (by rw [own_role_weight]; exact Role.weight_bound _)
  · intro role present
    rcases ((⟨kind, place, descriptor⟩ : Header).mem_roles place role).mp present with own | described
    · exact .inl own.1
    · exact .inr (by rw [described.1, own_role_weight]; decide)
  · exact ((⟨kind, place, descriptor⟩ : Header).mem_roles place _).mpr (.inl ⟨rfl, rfl⟩)

theorem after_in_step (slot : Slot) (fact : Fact) (light : fact.Light) (before : slot.InStep) :
    (slot.after place fact).InStep := by
  by_cases declared : ∃ descriptor kind, fact = .declares place descriptor kind
  · obtain ⟨descriptor, kind, rfl⟩ := declared
    exact declared_in_step slot descriptor kind
  · have other : ∀ header, fact.header? = some header → header.name ≠ place := by
      intro header found same
      exact declared ⟨header.descriptor, header.kind, by rw [← same]; exact fact_of_header found⟩
    have kept : (slot.after place fact).declarations.toList = slot.declarations.toList := by
      rw [after_declarations]
      cases found : fact.header? with
      | none => simp
      | some header => simp [other header found]
    intro declaration last
    rw [kept] at last
    obtain ⟨role, descriptor⟩ := before declaration last
    refine ⟨?_, by rw [after_own_descriptor slot fact other, descriptor]⟩
    rw [after_role, role]
    apply Role.promote_all_stays
    intro used present
    right
    rw [own_role_weight]
    cases found : fact.header? with
    | none => exact light found place used present
    | some header =>
        rw [fact_of_header found] at present
        rcases (header.mem_roles place used).mp present with own | described
        · exact absurd own.2 (other header found)
        · rw [described.1]
          decide

theorem told_in_step (facts : List Fact) (light : ∀ fact ∈ facts, fact.Light) : (told place facts).InStep :=
  fold_keeps InStep facts (fun fact member slot before => after_in_step slot fact (light fact member) before) {}
    fun _ none => nomatch none

end Slot

theorem Constant.facts_light (constant : Constant) (index : Nat) (fact : Fact) (stated : fact ∈ constant.facts index) :
    fact.Light := by
  intro _ place role used
  rcases (constant.mem_roles place role).mp (Constant.role_of_fact stated used) with ⟨rfl, _⟩ | ⟨rfl, _⟩ | ⟨rfl, _⟩ | held
  · decide
  · decide
  · decide
  · rw [constant.module_role_weight place role held]
    decide

theorem body_fact_light (fact : Fact) (stated : fact.OfBody) : fact.Light := by
  intro undeclared place role present
  rcases body_fact_cases fact stated with ⟨header, rfl⟩ | ⟨_, _, rfl⟩ | other
  · cases undeclared
  · cases present
  · exact Nat.lt_of_le_of_lt (attribute_use_weight other present) (by decide)

namespace Scanned

variable {mode : AttributeMode} {data : Bytes} {scan : Scan} (scanned : Scanned mode data scan)

theorem facts_light : ∀ fact ∈ scanned.facts, fact.Light := by
  intro fact member
  rcases scanned.fact_cases member with ⟨entry, _, rfl | stated⟩ | ⟨_, _, _, rfl⟩ | noted
  · exact fun _ _ _ used => nomatch used
  · exact entry.constant.facts_light entry.index fact stated
  · exact fun _ _ _ used => nomatch used
  · exact body_fact_light fact (scanned.noted_kinds fact noted)

theorem pool_headers : scanned.pooled.facts.filterMap Fact.header? = [] := by
  apply List.filterMap_eq_nil_iff.mpr
  intro fact member
  rcases List.mem_append.mp member with stated | handle
  · obtain ⟨entry, _, stated⟩ := List.mem_flatMap.mp stated
    rcases List.mem_cons.mp stated with rfl | stated
    · rfl
    · cases held : entry.constant <;> simp_all [Constant.facts, Fact.header?]
  · obtain ⟨_, _, _, rfl⟩ := handle_fact_other scanned.pooled.entries fact handle
    rfl

theorem noted_headers {tables : Tables} (stated : scanned.noted.toList.filter Fact.ofTables = tables.facts) :
    scanned.noted.toList.filterMap Fact.header? = tables.members := by
  rw [← tables.facts_headers, ← stated, List.filterMap_filter]
  refine List.filterMap_congr fun fact _ => ?_
  cases fact <;> rfl

theorem slot_closed {index : Nat} (here : Catalog.Addressable scanned.pooled.count index) :
    (Slot.told index scanned.facts).Closed scanned.pooled.count := by
  have stored := Catalog.learnt_slot scanned.pooled.count scanned.facts scan.catalog () scanned.learnt here.2
  exact scanned.closed.2 index _ stored

theorem told_members (index : Nat) {members : List Header}
    (headers : scanned.noted.toList.filterMap Fact.header? = members) :
    (Slot.told index scanned.facts).declarations.toList = (members.filter (·.name = index)).map Header.declaration := by
  rw [Slot.told_declarations, facts, List.filterMap_append, scanned.pool_headers, List.nil_append, headers]

theorem declarations_told (index : Nat) (here : Catalog.Addressable scanned.pooled.count index) {members : List Header}
    (headers : scanned.noted.toList.filterMap Fact.header? = members) :
    scan.catalog.declarations index = .ok ((members.filter (·.name = index)).map Header.declaration) := by
  rw [Catalog.declarations, scanned.slot index here, ← scanned.told_members index headers]
  rfl

theorem declared (index : Nat) (here : Catalog.Addressable scanned.pooled.count index) (members : List Header)
    (headers : scanned.noted.toList.filterMap Fact.header? = members) (last : Header)
    (ends : (members.filter (·.name = index)).getLast? = some last) :
    scan.catalog.role index = .ok last.kind.ownRole ∧ scan.catalog.ownDescriptor index = .ok last.descriptor ∧
      scan.catalog.declarations index = .ok ((members.filter (·.name = index)).map Header.declaration) := by
  have slot := scanned.slot index here
  have latest : (Slot.told index scanned.facts).declarations.toList.getLast? = some last.declaration := by
    rw [scanned.told_members index headers, List.getLast?_map, ends]
    rfl
  obtain ⟨role, descriptor⟩ := Slot.told_in_step scanned.facts scanned.facts_light last.declaration latest
  have nonzero : last.descriptor ≠ 0 :=
    Nat.ne_of_gt ((scanned.slot_closed here).declarations last.declaration (List.mem_of_getLast? latest)).1
  have described : (Slot.told index scanned.facts).ownDescriptor = some last.descriptor := by
    rw [descriptor]
    exact if_neg nonzero
  refine ⟨?_, ?_, scanned.declarations_told index here headers⟩
  · rw [scanned.role_told index here, role]
    rfl
  · simp only [Catalog.ownDescriptor, slot, bind, Except.bind, described]
    rfl

end Scanned

namespace Job

open Renaming

variable {σ : Type} (job : Job σ) (shape : Name → Except Fault Shape) (data : Bytes) (held : Name)

def ownNameOf (declaration : Declaration) : Option Name :=
  match constantAt? data declaration.descriptor with
  | some (.text descriptor) =>
      match declaration.kind with
      | .method =>
          match (Oracle.ofFunction shape job.oracle.extent : Oracle Unit).renameMethod job.renamer job.settings job.lineage
            held descriptor () with
          | .ok name _ => some name
          | .error .. => none
      | _ => some (job.renamer.field job.lineage.name held descriptor)
  | _ => none

variable {shape data}

theorem method_settled (answers : job.oracle.Answers shape) (descriptor : Name) :
    Settled (ask (job.oracle.renameMethod job.renamer job.settings job.lineage held descriptor))
      (match (Oracle.ofFunction shape job.oracle.extent : Oracle Unit).renameMethod job.renamer job.settings job.lineage
          held descriptor () with
        | .ok name _ => some name
        | .error .. => none) := by
  have pure_answers := Oracle.of_function_answers (σ := Unit) shape job.oracle.extent
  have there := Oracle.rename_method_alike answers pure_answers rfl job.renamer job.settings job.lineage held descriptor
  have back := Oracle.rename_method_alike pure_answers answers rfl job.renamer job.settings job.lineage held descriptor
  apply settled_ask
  · intro name known s
    split at known
    · rename_i found _ ran
      cases known
      obtain ⟨_, t, asked, rfl, _⟩ := back () s _ _ trivial ran
      exact ⟨t, asked⟩
    · cases known
  · intro s name t ran
    obtain ⟨_, _, asked, rfl, _⟩ := there s () _ _ trivial ran
    rw [asked]

theorem declared_settled {mode : AttributeMode} (scanned : Scanned mode data job.scan) (answers : job.oracle.Answers shape)
    (declaration : Declaration) :
    Settled (job.declaredName held declaration) (job.ownNameOf shape data held declaration) := by
  by_cases described : ∃ descriptor, constantAt? data declaration.descriptor = some (.text descriptor)
  · obtain ⟨descriptor, text⟩ := described
    rw [declaredName, (scanned.text_iff _ descriptor).mpr text, lift_ok_bind]
    simp only [ownNameOf, text]
    cases declaration.kind with
    | method => exact job.method_settled held answers descriptor
    | field | unknown => exact settled_known (.ok _)
  · have untold : job.ownNameOf shape data held declaration = none := by
      rw [ownNameOf]
      split
      · rename_i descriptor text
        exact absurd ⟨descriptor, text⟩ described
      · rfl
    rw [untold]
    apply settled_failing
    intro p name q ran
    obtain ⟨descriptor, _, asked, _⟩ := bind_ok_inv ran
    exact described ⟨descriptor, (scanned.text_iff _ descriptor).mp (lift_ok_inv asked).1⟩

theorem own_name_inv {kind : MemberKind} {index descriptor : Nat} {declarations : List Declaration} {p q : Progress σ}
    {new : Name} {answer : Declaration → Option Name}
    (settled : ∀ declaration, Settled (job.declaredName held declaration) (answer declaration))
    (described : job.scan.catalog.ownDescriptor index = .ok descriptor)
    (declared : job.scan.catalog.declarations index = .ok declarations)
    (ran : job.ownName kind index held p = .ok new q) :
    answer ⟨kind, descriptor⟩ = some new ∧
      ((q.warnings = p.warnings ∧ ∀ declaration ∈ declarations, answer declaration = some new) ∨
        ∃ declaration ∈ declarations, ∃ other, answer declaration = some other ∧ other ≠ new ∧
          q.warnings = p.warnings.push (.sharedName index held new other)) := by
  rw [ownName, described, declared, lift_ok_bind] at ran
  obtain ⟨used, middle, renamed, ran⟩ := bind_ok_inv ran
  rw [lift_ok_bind] at ran
  obtain ⟨_, agreed, rfl⟩ := map_ok_inv ran
  have answered := (settled _).only p new middle renamed
  have unsaid := (settled _).silent p new middle renamed
  refine ⟨answered, ?_⟩
  rcases agree_inv settled _ middle q agreed with ⟨still, all⟩ | ⟨declaration, member, other, found, apart, said⟩
  · left
    refine ⟨still.trans unsaid, fun declaration member => ?_⟩
    -- The current declaration is left out of the comparison.
    by_cases current : declaration = ⟨kind, descriptor⟩
    · rw [current, answered]
    · exact all declaration (List.mem_filter.mpr ⟨member, by simpa using current⟩)
  · rw [unsaid] at said
    exact .inr ⟨declaration, (List.mem_filter.mp member).1, other, found, apart, said⟩

theorem own_text {kind : MemberKind} (sort : kind = .field ∨ kind = .method) {index : Nat}
    (role : job.scan.catalog.role index = .ok kind.ownRole) : job.newText index held = job.ownName kind index held := by
  rw [newText, role, lift_ok_bind]
  rcases sort with rfl | rfl <;> rfl

end Job

def Warning.shares (index : Nat) : Warning → Bool
  | .sharedName place .. => place = index
  | _ => false

theorem Warning.shares_index {index : Nat} {warning : Warning} (shared : warning.shares index) :
    warning.index? = some index := by
  cases warning <;> simp_all [shares, index?]

theorem Job.Passage.shared {σ : Type} {job : Job σ} {p q : Progress σ} {index : Nat} {held new : Name}
    (passage : job.Passage p q index held new) :
    (passage.earlier ++ passage.own ++ passage.later).filter (·.shares index) = passage.own.filter (·.shares index) := by
  have others : ∀ warning ∈ passage.earlier ++ passage.later, ¬ warning.shares index := by
    intro warning member shared
    exact passage.apart warning member (Warning.shares_index shared)
  rw [List.filter_append, List.filter_append, List.filter_eq_nil_iff.mpr fun warning member =>
    others warning (List.mem_append_left _ member), List.filter_eq_nil_iff.mpr fun warning member =>
    others warning (List.mem_append_right _ member), List.nil_append, List.append_nil]

theorem Tables.Sorted.member_kind {tables : Tables} (sorted : tables.Sorted) (header : Header)
    (member : header ∈ tables.members) : header.kind = .field ∨ header.kind = .method := by
  rcases List.mem_append.mp member with field | method
  · exact .inl (sorted.fields header field)
  · exact .inr (sorted.methods header method)

structure Job.OwnNamed {σ : Type} (job : Job σ) (shape : Name → Except Fault Shape) (data out : Bytes)
    (emitted : List Warning) (members : List Header) (index : Nat) (held : Name) (last : Header) (new : Name) : Prop where
  written : constantAt? out index = some (.text new)
  decides : job.ownNameOf shape data held last.declaration = some new
  agreed : emitted.filter (·.shares index) = [] → ∀ header ∈ members, header.name = index →
    job.ownNameOf shape data held header.declaration = some new
  reported : emitted.filter (·.shares index) ≠ [] ↔ ∃ header ∈ members, header.name = index ∧
    ∃ other, job.ownNameOf shape data held header.declaration = some other ∧ other ≠ new
  once : (emitted.filter (·.shares index)).length ≤ 1

theorem Renewed.own_named {σ : Type} {renamer : Renamer} {oracle : Oracle σ} {settings : Settings} {data : Bytes}
    {p q : Progress σ} {renamed : RenamedClass} (run : Renewed renamer oracle settings data p q renamed)
    {shape : Name → Except Fault Shape} (answers : run.job.oracle.Answers shape) {tables : Tables} (sorted : tables.Sorted)
    (headers : run.scanned.noted.toList.filterMap Fact.header? = tables.members) {emitted : List Warning}
    (whole : q.warnings.toList = p.warnings.toList ++ emitted) {index : Nat} {held : Name} {last : Header}
    (here : constantAt? data index = some (.text held))
    (ends : (tables.members.filter (·.name = index)).getLast? = some last) :
    ∃ new, run.job.OwnNamed shape data renamed.bytes emitted tables.members index held last new := by
  have addressable := run.scanned.pooled.constant_addressable index _ here
  obtain ⟨role, described, declared⟩ := run.scanned.declared index addressable tables.members headers last ends
  obtain ⟨new, written, ⟨passage⟩⟩ := run.text_renamed index held here
  have sort := sorted.member_kind last (List.mem_of_mem_filter (List.mem_of_getLast? ends))
  have ran := passage.ran
  rw [run.job.own_text held sort role] at ran
  obtain ⟨decides, outcome⟩ := run.job.own_name_inv held
    (run.job.declared_settled held run.scanned answers) described declared ran
  -- All warnings of the run that speak of this text were made while it was renamed.
  have mine : emitted.filter (·.shares index) = passage.own.filter (·.shares index) := by
    rw [← passage.shared]
    exact congrArg _ (List.append_cancel_left (whole.symm.trans passage.whole))
  have made : ∀ header ∈ tables.members, header.name = index →
      header.declaration ∈ (tables.members.filter (·.name = index)).map Header.declaration := by
    intro header member named
    exact List.mem_map_of_mem (List.mem_filter.mpr ⟨member, by simpa using named⟩)
  refine ⟨new, ?_⟩
  rcases outcome with ⟨still, all⟩ | ⟨declaration, member, other, found, apart, said⟩
  · have unsaid : passage.own = [] := by
      have added := passage.added
      rw [still] at added
      exact List.self_eq_append_right.mp added
    rw [unsaid] at mine
    refine ⟨written, decides, fun _ header member named => all _ (made header member named), ?_, by simp [mine]⟩
    constructor
    · exact fun some => absurd mine some
    · rintro ⟨header, member, named, other, found, apart⟩
      have same := all _ (made header member named)
      rw [found] at same
      exact absurd (Option.some.inj same) apart
  · have mine : emitted.filter (·.shares index) = [.sharedName index held new other] := by
      have added := passage.added
      rw [said, Array.toList_push] at added
      rw [mine, ← List.append_cancel_left added]
      simp [Warning.shares]
    obtain ⟨header, inside, rfl⟩ := List.mem_map.mp member
    obtain ⟨inside, named⟩ := List.mem_filter.mp inside
    refine ⟨written, decides, fun none => ?_, ?_, by simp [mine]⟩
    · rw [mine] at none
      cases none
    · rw [mine]
      exact ⟨fun _ => ⟨header, inside, by simpa using named, other, found, apart⟩, fun _ => List.cons_ne_nil _ _⟩

theorem declared_names_own {σ : Type} (renamer : Renamer) (oracle : Oracle σ) (shape : Name → Except Fault Shape)
    (answers : oracle.Answers shape) (settings : Settings) (data : Bytes) (p q : Progress σ) (renamed : RenamedClass)
    (ran : renameClass renamer oracle settings data p = .ok renamed q) :
    ∃ job tables emitted, Job.prepare renamer oracle settings data = .ok job ∧ Tables.ofBytes data = .ok tables ∧
      q.warnings.toList = p.warnings.toList ++ emitted ∧
      ∀ header ∈ tables.members, ∀ held, constantAt? data header.name = some (.text held) →
        ∃ last new, (tables.members.filter (·.name = header.name)).getLast? = some last ∧
          job.OwnNamed shape data renamed.bytes emitted tables.members header.name held last new := by
  obtain ⟨run⟩ := rename_class_renewed ran
  obtain ⟨tables, read, _, stated⟩ := run.scanned.tables
  obtain ⟨c, ranTables⟩ := run.scanned.pooled.read_of_tables read
  obtain ⟨emitted, whole, _⟩ := run.job.new_constants_report _ _ p q run.renewed
  refine ⟨run.job, tables, emitted, run.prepared, read, whole, fun header member held here => ?_⟩
  have inside : header ∈ tables.members.filter (·.name = header.name) := List.mem_filter.mpr ⟨member, by simp⟩
  have ends := List.getLast?_eq_some_getLast (List.ne_nil_of_mem inside)
  obtain ⟨new, named⟩ := run.own_named (run.job_given.2 ▸ answers) (Tables.read_sorted ranTables)
    (run.scanned.noted_headers stated) whole here ends
  exact ⟨_, new, ends, named⟩

theorem declared_names_own_sample :
    (Oracle.empty : Oracle Unit).Answers (fun _ => .ok {}) ∧
      renameClass crowdedRules.renamer Oracle.empty { attributes := .pass } crowdedClass ⟨(), #[]⟩ =
        .ok crowdedRenamed ⟨(), #[crowdedWarning]⟩ ∧
      constantAt? crowdedClass 1 = some (.text (.ofString "A")) ∧
      ∃ job new, Job.prepare crowdedRules.renamer (Oracle.empty : Oracle Unit) { attributes := .pass } crowdedClass = .ok job ∧
        job.OwnNamed (fun _ => .ok {}) crowdedClass crowdedRenamed.bytes [crowdedWarning] crowdedTables.members 1
          (.ofString "A") ⟨.method, 1, 5⟩ new := by
  have answers : (Oracle.empty : Oracle Unit).Answers (fun _ => .ok {}) := Oracle.of_function_answers _ _
  have renamed : renameClass crowdedRules.renamer Oracle.empty { attributes := .pass } crowdedClass ⟨(), #[]⟩ =
      .ok crowdedRenamed ⟨(), #[crowdedWarning]⟩ := rfl
  obtain ⟨job, tables, emitted, prepared, read, whole, named⟩ := declared_names_own _ _ _ answers _ _ _ _ _ renamed
  obtain rfl : crowdedTables = tables := Except.ok.inj read
  obtain rfl : [crowdedWarning] = emitted := whole
  obtain ⟨last, new, ends, own⟩ := named ⟨.field, 1, 5⟩ (by decide) (.ofString "A") rfl
  obtain rfl : ⟨.method, 1, 5⟩ = last := Option.some.inj ends
  exact ⟨answers, renamed, rfl, job, new, prepared, own⟩

end Relabel
