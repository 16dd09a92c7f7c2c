import Relabel.Output.Path
import Relabel.Proofs.ModifiedText

set_option autoImplicit false

namespace Relabel

theorem Text.split_onto (separator : Char) (text : List Char) (cut : List (List Char) × List Char) :
    let ended := text.foldl
      (fun cut c => if c = separator then (cut.2.reverse :: cut.1, []) else (cut.1, c :: cut.2)) cut
    (ended.2.reverse :: ended.1).reverse = cut.1.reverse ++ text.splitOnPPrepend (· == separator) cut.2 := by
  induction text generalizing cut with
  | nil => simp
  | cons c text ih =>
      by_cases same : c = separator
      · simpa [same, List.splitOnPPrepend_cons_eq_if] using ih (cut.2.reverse :: cut.1, [])
      · simpa [same, List.splitOnPPrepend_cons_eq_if] using ih (cut.1, c :: cut.2)

theorem Text.split_eq (separator : Char) (text : List Char) : Text.split separator text = text.splitOn separator :=
  Text.split_onto separator text ([], [])

theorem Text.part_undivided {separator : Char} {text part : List Char} (member : part ∈ text.splitOn separator) :
    separator ∉ part := by
  induction text generalizing part with
  | nil => simp_all
  | cons c text ih =>
      rw [List.splitOn_cons_eq_if_modifyHead] at member
      obtain ⟨first, others, parts⟩ := List.exists_cons_of_ne_nil (List.splitOn_ne_nil separator text)
      by_cases same : c = separator
      · simp only [same, beq_self_eq_true, if_true, List.mem_cons] at member
        rcases member with rfl | member
        · exact List.not_mem_nil
        · exact ih member
      · rw [parts] at ih
        simp only [beq_eq_false_iff_ne.mpr same, Bool.false_eq_true, if_false, parts, List.modifyHead_cons,
          List.mem_cons] at member
        rcases member with rfl | member
        · exact List.not_mem_cons_of_ne_of_not_mem (Ne.symm same) (ih (.head _))
        · exact ih (.tail _ member)

namespace Path

def divider (path : String) : String := if path.isEmpty || path.toList.getLast? == some '/' then "" else "/"

theorem push_eq (path part : String) : push path part = path ++ divider path ++ part := by
  rw [push, divider]
  split
  · rw [String.append_empty]
  · rfl

structure Plain (part : String) : Prop where
  some : part ≠ ""
  here : part ≠ "."
  above : part ≠ ".."
  slash : '/' ∉ part.toList
  backslash : '\\' ∉ part.toList

theorem divider_pushed (path : String) {part : String} (plain : Plain part) : divider (path ++ part) = "/" := by
  have ends : part.toList ≠ [] := fun none => plain.some (String.toList_eq_nil_iff.mp none)
  have last : (path ++ part).toList.getLast? = some (part.toList.getLast ends) := by
    rw [String.toList_append, List.getLast?_append, List.getLast?_eq_some_getLast ends]
    rfl
  have apart : part.toList.getLast ends ≠ '/' := fun same => plain.slash (same ▸ List.getLast_mem ends)
  have filled : (path ++ part).isEmpty = false := by
    rw [Bool.eq_false_iff, ne_eq, String.isEmpty_iff, ← String.toList_eq_nil_iff, String.toList_append]
    exact fun none => ends (List.append_eq_nil_iff.mp none).2
  rw [divider, filled, last, if_neg]
  simpa using apart

theorem push_all (root : String) (parts : List String) (some : parts ≠ []) (plain : ∀ part ∈ parts, Plain part) :
    parts.foldl push root = root ++ divider root ++ "/".intercalate parts := by
  induction parts generalizing root with
  | nil => exact absurd rfl some
  | cons part rest ih =>
      rw [List.foldl_cons, push_eq]
      cases rest with
      | nil => rw [String.intercalate_singleton, List.foldl_nil]
      | cons next others =>
          rw [ih _ (by simp) fun other member => plain other (.tail _ member), divider_pushed _ (plain part (.head _)),
            String.intercalate_cons_cons]
          simp only [String.append_assoc]

theorem is_part_iff (part : List Char) :
    isPart part = true ↔ part ≠ [] ∧ part ≠ ['.'] ∧ part ≠ ['.', '.'] ∧ '\\' ∉ part := by
  simp [isPart, and_assoc]

theorem not_part_iff (part : List Char) :
    isPart part = false ↔ part = [] ∨ part = ['.'] ∨ part = ['.', '.'] ∨ '\\' ∈ part := by
  rw [Bool.eq_false_iff, ne_eq, is_part_iff]
  tauto

theorem plain_iff (part : String) : Plain part ↔ '/' ∉ part.toList ∧ isPart part.toList = true := by
  have same (text : String) : part ≠ text ↔ part.toList ≠ text.toList := not_congr String.toList_inj.symm
  rw [is_part_iff]
  constructor
  · rintro ⟨some, here, above, slash, backslash⟩
    exact ⟨slash, (same "").mp some, (same ".").mp here, (same "..").mp above, backslash⟩
  · rintro ⟨slash, some, here, above, backslash⟩
    exact ⟨(same "").mpr some, (same ".").mpr here, (same "..").mpr above, slash, backslash⟩

theorem Plain.file {part : String} (plain : Plain part) : Plain (part ++ ".class") := by
  have ending : (part ++ ".class").toList = part.toList ++ ['.', 'c', 'l', 'a', 's', 's'] := String.toList_append
  have long : 6 ≤ (part ++ ".class").toList.length := by
    rw [ending, List.length_append]
    exact Nat.le_add_left 6 _
  refine (plain_iff _).mpr ⟨?_, (is_part_iff _).mpr ⟨?_, ?_, ?_, ?_⟩⟩
  · rw [ending, List.mem_append]
    exact fun member => member.elim plain.slash (by decide)
  · exact fun same => absurd (same ▸ long) (by decide)
  · exact fun same => absurd (same ▸ long) (by decide)
  · exact fun same => absurd (same ▸ long) (by decide)
  · rw [ending, List.mem_append]
    exact fun member => member.elim plain.backslash (by decide)

theorem join_ending (front : List String) (last ending : String) :
    "/".intercalate (front ++ [last ++ ending]) = "/".intercalate (front ++ [last]) ++ ending := by
  cases front with
  | nil => rw [List.nil_append, List.nil_append, String.intercalate_singleton, String.intercalate_singleton]
  | cons first rest =>
      rw [String.intercalate_append_of_ne_nil (List.cons_ne_nil first rest) (List.cons_ne_nil _ []),
        String.intercalate_append_of_ne_nil (List.cons_ne_nil first rest) (List.cons_ne_nil _ []),
        String.intercalate_singleton, String.intercalate_singleton, String.append_assoc, String.append_assoc,
        String.append_assoc]

theorem join_split (text : String) : "/".intercalate ((text.toList.splitOn '/').map String.ofList) = text := by
  have kept : String.toList ∘ String.ofList = id := funext fun _ => String.toList_ofList
  rw [← String.toList_inj, String.toList_intercalate, List.map_map, kept, List.map_id]
  exact List.intercalate_splitOn '/'

theorem parts_filed {name : Name} {directories : List (List Char)} {file : List Char}
    (cut : name.display.toList.splitOn '/' = directories ++ [file]) (fit : ∀ part ∈ directories ++ [file], isPart part = true) :
    parts name = .ok (directories.map String.ofList, String.ofList file ++ ".class") := by
  have all : (directories ++ [file]).all isPart = true := List.all_eq_true.mpr fit
  simp only [parts, Text.split_eq, cut, all, if_true, List.dropLast_concat, List.getLast?_concat, Option.getD_some]

theorem parts_refused {name : Name} {part : List Char} (member : part ∈ name.display.toList.splitOn '/')
    (odd : isPart part = false) : parts name = .error (.invalidOutputName name.display) := by
  have some : ¬ (name.display.toList.splitOn '/').all isPart = true := by
    rw [List.all_eq_true]
    exact fun all => Bool.eq_false_iff.mp odd (all part member)
  simp only [parts, Text.split_eq, if_neg some]

structure Leads (root : String) (name : Name) (parts : List String) (path : String) : Prop where
  some : parts ≠ []
  plain : ∀ part ∈ parts, Plain part
  joined : "/".intercalate parts = name.display ++ ".class"
  pushed : path = parts.foldl push root

theorem Leads.text {root : String} {name : Name} {parts : List String} {path : String} (leads : Leads root name parts path) :
    path = root ++ divider root ++ (name.display ++ ".class") := by
  rw [leads.pushed, push_all root parts leads.some leads.plain, leads.joined]

theorem below_leads (root : String) (name : Name)
    (fit : ∀ part ∈ name.display.toList.splitOn '/', isPart part = true) :
    ∃ parts path, Leads root name parts path ∧ below root name = .ok path := by
  obtain none | ⟨directories, file, cut⟩ := List.eq_nil_or_concat (name.display.toList.splitOn '/')
  · exact absurd none (List.splitOn_ne_nil _ _)
  rw [List.concat_eq_append] at cut
  have plain (part : List Char) (member : part ∈ directories ++ [file]) : Plain (String.ofList part) := by
    rw [← cut] at member
    rw [plain_iff, String.toList_ofList]
    exact ⟨Text.part_undivided member, fit part member⟩
  have filed := parts_filed cut (by rwa [← cut])
  refine ⟨directories.map String.ofList ++ [String.ofList file ++ ".class"], _, ⟨by simp, ?_, ?_, rfl⟩, ?_⟩
  · intro part member
    rcases List.mem_append.mp member with member | member
    · obtain ⟨directory, inside, rfl⟩ := List.mem_map.mp member
      exact plain directory (List.mem_append_left _ inside)
    · rw [List.mem_singleton.mp member]
      exact (plain file (by simp)).file
  · have whole := join_split name.display
    rw [cut, List.map_append, List.map_singleton] at whole
    rw [join_ending, whole]
  · rw [below, filed]
    rfl

theorem below_refused (root : String) {name : Name} {part : List Char} (member : part ∈ name.display.toList.splitOn '/')
    (odd : isPart part = false) : below root name = .error (.invalidOutputName name.display) := by
  rw [below, parts_refused member odd]
  rfl

theorem below_cases (root : String) (name : Name) :
    (∃ part ∈ name.display.toList.splitOn '/', isPart part = false) ∧
      below root name = .error (.invalidOutputName name.display) ∨
    (∀ part ∈ name.display.toList.splitOn '/', isPart part = true) ∧
      ∃ parts path, Leads root name parts path ∧ below root name = .ok path := by
  by_cases fit : ∀ part ∈ name.display.toList.splitOn '/', isPart part = true
  · exact .inr ⟨fit, below_leads root name fit⟩
  · simp only [not_forall, Bool.not_eq_true] at fit
    obtain ⟨part, member, odd⟩ := fit
    exact .inl ⟨⟨part, member, odd⟩, below_refused root member odd⟩

theorem below_text {root : String} {name : Name} {path : String} (found : below root name = .ok path) :
    path = root ++ divider root ++ (name.display ++ ".class") := by
  rcases below_cases root name with ⟨_, refused⟩ | ⟨_, parts, other, leads, same⟩
  · rw [refused] at found
    cases found
  · rw [same] at found
    cases found
    exact leads.text

end Path

/-- Whatever bytes make up its name, a class is kept below the root, in the place that the shown
name spells out, or refused because a part of that name could lead elsewhere. Two texts never share
a place. -/
theorem output_paths_confined (root : String) (name : Name) :
    (Path.below root name = .error (.invalidOutputName name.display) ∨
      ∃ parts path, Path.Leads root name parts path ∧ path = root ++ Path.divider root ++ (name.display ++ ".class") ∧
        Path.below root name = .ok path) ∧
    ((∃ fault, Path.below root name = .error fault) ↔
      ∃ part ∈ name.display.toList.splitOn '/', part = [] ∨ part = ['.'] ∨ part = ['.', '.'] ∨ '\\' ∈ part) ∧
    (∀ one other path, Path.below root (.ofString one) = .ok path → Path.below root (.ofString other) = .ok path →
      one = other) := by
  refine ⟨?_, ?_, fun one other path found again => ?_⟩
  · rcases Path.below_cases root name with ⟨_, refused⟩ | ⟨_, parts, path, leads, found⟩
    · exact .inl refused
    · exact .inr ⟨parts, path, leads, leads.text, found⟩
  · simp only [← Path.not_part_iff]
    rcases Path.below_cases root name with ⟨odd, refused⟩ | ⟨fit, parts, path, _, found⟩
    · exact ⟨fun _ => odd, fun _ => ⟨_, refused⟩⟩
    · rw [found]
      constructor
      · rintro ⟨fault, failed⟩
        cases failed
      · rintro ⟨part, member, odd⟩
        rw [fit part member] at odd
        cases odd
  · -- A path spells out the name below the root, so two texts with one path are equal.
    have same := (Path.below_text found).symm.trans (Path.below_text again)
    rw [Name.display_of_string, Name.display_of_string, String.append_right_inj, String.append_left_inj] at same
    exact same

theorem output_paths_confined_overlong :
    (∃ parts, Path.Leads "/out" ⟨[0x41, 0xC0, 0xAF, 0x42]⟩ parts "/out/A/B.class") ∧
    Path.below "/out" ⟨[0x41, 0xC0, 0xAF, 0x42]⟩ = .ok "/out/A/B.class" ∧
    Path.below "/out" ⟨[0xC0, 0xAE, 0xC0, 0xAE, 0xC0, 0xAF, 0x41]⟩ = .error (.invalidOutputName "../A") := by
  have filed : Path.below "/out" ⟨[0x41, 0xC0, 0xAF, 0x42]⟩ = .ok "/out/A/B.class" := rfl
  obtain ⟨kept, _⟩ := output_paths_confined "/out" ⟨[0x41, 0xC0, 0xAF, 0x42]⟩
  refine ⟨?_, filed, rfl⟩
  rcases kept with refused | ⟨parts, path, leads, _, found⟩
  · rw [filed] at refused
    cases refused
  · rw [filed] at found
    cases found
    exact ⟨parts, leads⟩

end Relabel
