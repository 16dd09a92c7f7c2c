import Relabel.Proofs.Emission
import Relabel.Proofs.PoolContents

set_option autoImplicit false

namespace Relabel

namespace Walk

theorem fill_nothing {left : Nat} {dead : Bool} (fill : Fill left dead []) : left ≤ dead.toNat := by
  cases fill with
  | done => exact Nat.zero_le _
  | skip left _ fill =>
      cases fill with
      | done => exact Nat.le_refl 1

theorem tag_slots (tag : Tag) : tag.slots = 1 + tag.isWide.toNat := by cases tag <;> rfl

theorem fill_first {left : Nat} {constants : List Constant} (fill : Fill left false constants) (some : 0 < left) :
    ∃ constant rest, constants = constant :: rest := by
  cases fill with
  | done => omega
  | take left constant rest => exact ⟨constant, rest, rfl⟩

theorem fill_no_slots {dead : Bool} {constants : List Constant} (fill : Fill 0 dead constants) : constants = [] := by
  cases fill
  rfl

theorem fill_taken {left : Nat} {dead : Bool} {constants : List Constant} (fill : Fill left dead constants)
    (index pos place : Nat) (after : index ≤ place) (inside : place < index + left) :
    (∃ entry ∈ placed (live index dead) pos constants, entry.index = place) ↔
      ¬ (dead = true ∧ place = index) ∧
        ∀ entry ∈ placed (live index dead) pos constants, entry.index + 1 = place →
          entry.constant.tag.isWide = false := by
  induction fill generalizing index pos with
  | done dead => omega
  | skip left constants fill ih =>
      by_cases first : place = index
      · have later := fun entry member => placed_from constants (index + 1) pos entry member
        refine ⟨fun ⟨entry, member, here⟩ => ?_, fun apart => absurd ⟨rfl, first⟩ apart.1⟩
        have bound := later entry member
        omega
      · have rest := ih (index + 1) pos (by omega) (by omega)
        dsimp only [live] at rest ⊢
        simpa [first] using rest
  | take left constant constants storable fill ih =>
      -- The hypothesis starts at the slot after the first one of this constant,
      -- which is dead if the constant is wide.
      rw [live, placed]
      have later := fun entry member =>
        placed_from constants (index + constant.tag.slots) (pos + constant.encoded.length) entry member
      have room := slots_pos constant.tag
      by_cases first : place = index
      · refine ⟨fun _ => ⟨by simp, fun entry member before => ?_⟩, fun _ => ⟨_, .head _, first.symm⟩⟩
        cases member with
        | head => exact absurd before (by dsimp only; omega)
        | tail _ member =>
            have bound := later entry member
            omega
      · have rest := ih (index + 1) (pos + constant.encoded.length) (by omega) (by omega)
        rw [live_after] at rest
        constructor
        · rintro ⟨entry, member, here⟩
          cases member with
          | head => exact absurd here.symm first
          | tail _ member =>
              obtain ⟨apart, all⟩ := rest.mp ⟨entry, member, here⟩
              refine ⟨by simp, fun other member before => ?_⟩
              cases member with
              | head => exact Bool.eq_false_iff.mpr fun wide => apart ⟨wide, before.symm⟩
              | tail _ member => exact all other member before
        · rintro ⟨_, all⟩
          have narrow : ¬ (constant.tag.isWide = true ∧ place = index + 1) := by
            rintro ⟨wide, here⟩
            have other := all _ (.head _) here.symm
            rw [wide] at other
            cases other
          obtain ⟨entry, member, here⟩ := rest.mpr ⟨narrow, fun other member => all other (.tail _ member)⟩
          exact ⟨entry, .tail _ member, here⟩

theorem fill_next {left : Nat} {dead : Bool} {constants : List Constant} (fill : Fill left dead constants)
    (index pos : Nat) (entry : Entry) (member : entry ∈ placed (live index dead) pos constants) :
    (∃ next ∈ placed (live index dead) pos constants, next.index = entry.index + entry.constant.tag.slots ∧
        next.offset = entry.offset + entry.constant.encoded.length) ∨
      index + left ≤ entry.index + entry.constant.tag.slots ∧
        entry.offset + entry.constant.encoded.length = pos + (encodedAll constants).length := by
  induction fill generalizing index pos with
  | done dead => cases member
  | skip left constants fill ih =>
      have rest := ih (index + 1) pos member
      rwa [Nat.add_right_comm, Nat.add_assoc] at rest
  | take left constant constants storable fill ih =>
      rw [live, placed] at member ⊢
      cases member with
      | head =>
          cases constants with
          | nil =>
              have few := fill_nothing fill
              have slots := tag_slots constant.tag
              refine .inr ⟨by dsimp only; omega, by simp [encodedAll]⟩
          | cons following rest => exact .inl ⟨_, .tail _ (.head _), rfl, rfl⟩
      | tail _ member =>
          rcases ih (index + 1) (pos + constant.encoded.length) (by rwa [live_after]) with
            ⟨next, there, same⟩ | ⟨past, stop⟩
          · rw [live_after] at there
            exact .inl ⟨next, .tail _ there, same⟩
          · refine .inr ⟨by omega, ?_⟩
            rw [stop, encoded_all_cons, List.length_append, Nat.add_assoc]

end Walk

def Scan.width (scan : Scan) (index : Nat) : Except Fault Nat := do
  match (← scan.catalog.tag index).width? with
  | some width => return width
  | none => return 2 + (← scan.names.get index).length

structure Scan.Partitioned (scan : Scan) (data : Bytes) : Prop where
  usable : ∀ index, 0 < index → index < scan.layout.count →
    ((∃ tag, scan.catalog.tag index = .ok tag) ↔
      ∀ before, scan.catalog.tag (index - 1) = .ok before → before.isWide = false)
  unusable : ∀ index, 0 < index → index < scan.layout.count → (∀ tag, scan.catalog.tag index ≠ .ok tag) →
    scan.catalog.tag index = .error (.unusableIndex index)
  first : 1 < scan.layout.count → scan.catalog.offset 1 = .ok 10
  next : ∀ index tag, scan.catalog.tag index = .ok tag →
    ∃ offset width, scan.catalog.offset index = .ok offset ∧ scan.width index = .ok width ∧
      (index + tag.slots < scan.layout.count →
        (∃ following, scan.catalog.tag (index + tag.slots) = .ok following) ∧
          scan.catalog.offset (index + tag.slots) = .ok (offset + 1 + width)) ∧
      (scan.layout.count ≤ index + tag.slots → offset + 1 + width = scan.layout.stop)
  none_taken : scan.layout.count ≤ 1 → scan.layout.stop = 10
  inside : scan.layout.stop ≤ data.length
  texts : ∀ index, (∃ name, scan.names.get index = .ok name) ↔ scan.catalog.tag index = .ok .text
  content : ∀ index name offset, scan.names.get index = .ok name → scan.catalog.offset index = .ok offset →
    (data.drop offset).take (3 + name.length) = Tag.text.code :: (word16 name.length.toUInt16 ++ name.bytes) ∧
      name.length.toUInt16.toNat = name.length

namespace Scanned

variable {mode : AttributeMode} {data : Bytes} {scan : Scan} (scanned : Scanned mode data scan)

theorem width_entry (entry : Entry) (member : entry ∈ scanned.pooled.entries) :
    scan.width entry.index = .ok entry.constant.body.length := by
  have tagged := (scanned.recorded entry member).1
  cases held : entry.constant.tag.width? with
  | some width =>
      rw [Scan.width, tagged, Constant.width_body entry.constant width held]
      simp only [bind, Except.bind, held]
      rfl
  | none =>
      obtain ⟨name, text⟩ := text_of_tag entry.constant (tag_of_no_width _ held)
      rw [Scan.width, tagged]
      simp only [bind, Except.bind, scanned.text entry member name text, text, Constant.body, List.length_append,
        word16_length]
      rfl

theorem taken_iff (index : Nat) :
    (∃ tag, scan.catalog.tag index = .ok tag) ↔ ∃ entry ∈ scanned.pooled.entries, entry.index = index := by
  simp only [scanned.tag_iff]
  exact ⟨fun ⟨_, entry, member, here, _⟩ => ⟨entry, member, here⟩,
    fun ⟨entry, member, here⟩ => ⟨_, entry, member, here, rfl⟩⟩

theorem partitioned (scanned : Scanned mode data scan) : scan.Partitioned data where
  usable index positive inside := by
    rw [scanned.layout] at inside
    have taken := Walk.fill_taken scanned.pooled.filled 1 ClassFile.poolStart index positive
      (by dsimp only at inside; omega)
    rw [scanned.taken_iff, Pooled.entries]
    refine taken.trans ⟨fun ⟨_, all⟩ before tagged => ?_, fun all => ⟨by simp, fun entry member previous => ?_⟩⟩
    · obtain ⟨entry, member, here, rfl⟩ := (scanned.tag_iff _ _).mp tagged
      exact all entry member (by omega)
    · exact all _ ((scanned.tag_iff _ _).mpr ⟨entry, member, by omega, rfl⟩)
  unusable index positive inside untagged := by
    rw [scanned.layout] at inside
    have told := scanned.tag_told index ⟨positive, inside⟩
    cases held : (Slot.told index scanned.facts).tag with
    | none =>
        rw [told, held]
        rfl
    | some tag =>
        rw [held] at told
        exact absurd told (untagged tag)
  -- The first constant stands right behind the header, whatever it is.
  first some := by
    rw [scanned.layout] at some
    obtain ⟨constant, rest, split⟩ := Walk.fill_first scanned.pooled.filled (by dsimp only at some; omega)
    have head : ⟨1, 10, constant⟩ ∈ scanned.pooled.entries := by
      rw [Pooled.entries, split]
      exact .head _
    exact (scanned.recorded _ head).2
  next index tag tagged := by
    obtain ⟨entry, member, rfl, rfl⟩ := (scanned.tag_iff index tag).mp tagged
    have size : entry.constant.encoded.length = 1 + entry.constant.body.length := by
      rw [Constant.encoded, List.length_cons, Nat.add_comm]
    refine ⟨_, _, (scanned.recorded entry member).2, scanned.width_entry entry member, ?_⟩
    rw [scanned.layout, Nat.add_assoc entry.offset, ← size]
    -- Either another constant follows, or this one is the last and the pool ends behind it.
    rcases Walk.fill_next scanned.pooled.filled 1 ClassFile.poolStart entry member with
      ⟨after, there, here, offset⟩ | ⟨past, stop⟩
    · have bounds := (scanned.pooled.entry_indices after there).2
      rw [← here, ← offset]
      refine ⟨fun _ => ⟨⟨_, (scanned.recorded after there).1⟩, (scanned.recorded after there).2⟩, fun past => ?_⟩
      exact absurd bounds (Nat.not_lt.mpr past)
    · refine ⟨fun inside => absurd inside ?_, fun _ => stop⟩
      dsimp only
      omega
  none_taken few := by
    have filled := scanned.pooled.filled
    rw [scanned.layout] at few ⊢
    rw [Nat.sub_eq_zero_of_le few] at filled
    rw [Pooled.stop, Walk.fill_no_slots filled]
    rfl
  inside := by
    rw [scanned.layout]
    exact scanned.pooled.stop_inside
  texts index := by
    constructor
    · rintro ⟨name, named⟩
      obtain ⟨entry, member, rfl, held⟩ := (scanned.pooled.constant_at _ _).mp ((scanned.text_iff _ _).mp named)
      rw [(scanned.recorded entry member).1, held]
      rfl
    · intro tagged
      obtain ⟨entry, member, rfl, own⟩ := (scanned.tag_iff _ _).mp tagged
      obtain ⟨name, held⟩ := text_of_tag entry.constant own
      exact ⟨name, scanned.text entry member name held⟩
  content index name offset named placed := by
    obtain ⟨entry, member, rfl, held⟩ := (scanned.pooled.constant_at _ _).mp ((scanned.text_iff _ _).mp named)
    rw [(scanned.recorded entry member).2] at placed
    cases placed
    have storable := scanned.pooled.entry_storable entry member
    obtain ⟨rest, found⟩ := scanned.pooled.drop_entry entry member
    rw [held] at storable found
    have size : 3 + name.length = (Constant.text name).encoded.length := by
      simp only [Constant.encoded, Constant.body, List.length_cons, List.length_append, word16_length]
      rw [Name.length]
      omega
    rw [found, size, List.take_left]
    exact ⟨rfl, Constant.text_length_back name storable⟩

end Scanned

theorem scanned_pool_partitioned (mode : AttributeMode) (data : Bytes) (scan : Scan)
    (ran : Scan.ofBytes mode data = .ok scan) : scan.Partitioned data := by
  obtain ⟨scanned⟩ := scan_inv mode data scan ran
  exact scanned.partitioned

def wideClass : Bytes :=
  [0xCA, 0xFE, 0xBA, 0xBE, 0, 0, 0, 52, 0, 8, 1, 0, 1, 65, 7, 0, 1, 5, 0, 0, 0, 0, 0, 0, 0, 1,
    6, 0, 0, 0, 0, 0, 0, 0, 2, 5, 0, 0, 0, 0, 0, 0, 0, 3, 0, 33, 0, 2, 0, 0, 0, 0, 0, 0, 0, 0, 0, 0]

theorem scanned_pool_partitioned_wide :
    ∃ scan, Scan.ofBytes .interpret wideClass = .ok scan ∧ scan.Partitioned wideClass ∧ scan.layout = ⟨8, 44⟩ ∧
      scan.catalog.tag 4 = .error (.unusableIndex 4) ∧ scan.catalog.tag 5 = .ok .double ∧
      scan.catalog.offset 5 = .ok 26 ∧ scan.catalog.tag 7 = .ok .long ∧ scan.catalog.offset 7 = .ok 35 := by
  exact ⟨_, rfl, scanned_pool_partitioned .interpret wideClass _ rfl, rfl, rfl, rfl, rfl, rfl, rfl⟩

end Relabel
