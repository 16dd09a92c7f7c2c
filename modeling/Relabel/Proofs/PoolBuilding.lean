import Mathlib.Data.List.Forall2
import Relabel.Pool.Basic
import Relabel.Proofs.PoolLayout

set_option autoImplicit false

namespace Relabel

namespace Pool

open Walk

inductive Request where
  | push (constant : Constant)
  | text (value : Name)
  | classRef (name : Name)
  | nameAndType (name descriptor : Name)
  | member (ref : UInt16 → UInt16 → Constant) (owner name descriptor : Name)
  | string (value : Name)
  | methodType (descriptor : Name)
  | invokeDynamic (bootstrap : UInt16) (name descriptor : Name)
  | moduleRef (name : Name)
  | packageRef (name : Name)

def Request.run : Request → Build UInt16
  | .push constant => Pool.push constant
  | .text value => addText value
  | .classRef name => addClass name
  | .nameAndType name descriptor => addNameAndType name descriptor
  | .member ref owner name descriptor => addMember ref owner name descriptor
  | .string value => addString value
  | .methodType descriptor => addMethodType descriptor
  | .invokeDynamic bootstrap name descriptor => addInvokeDynamic bootstrap name descriptor
  | .moduleRef name => addModule name
  | .packageRef name => addPackage name

section

variable (held : UInt16 → Constant → Prop)

def NamesText (make : UInt16 → Constant) (value : Name) (index : UInt16) : Prop :=
  ∃ text, held index (make text) ∧ held text (.text value)

def NamesMember (name descriptor : Name) (index : UInt16) : Prop :=
  ∃ first second, held index (.nameAndType first second) ∧ held first (.text name) ∧ held second (.text descriptor)

def Request.Met : Request → UInt16 → Prop
  | .push constant, index => held index constant
  | .text value, index => held index (.text value)
  | .classRef name, index => NamesText held .classRef name index
  | .nameAndType name descriptor, index => NamesMember held name descriptor index
  | .member ref owner name descriptor, index =>
      ∃ first second, held index (ref first second) ∧ NamesText held .classRef owner first ∧
        NamesMember held name descriptor second
  | .string value, index => NamesText held .string value index
  | .methodType descriptor, index => NamesText held .methodType descriptor index
  | .invokeDynamic bootstrap name descriptor, index =>
      ∃ second, held index (.invokeDynamic bootstrap second) ∧ NamesMember held name descriptor second
  | .moduleRef name, index => NamesText held .moduleRef name index
  | .packageRef name, index => NamesText held .packageRef name index

end

section

variable {held other : UInt16 → Constant → Prop} (follows : ∀ index constant, held index constant → other index constant)

include follows

theorem NamesText.imp {make : UInt16 → Constant} {value : Name} {index : UInt16} (names : NamesText held make value index) :
    NamesText other make value index := by
  obtain ⟨text, first, second⟩ := names
  exact ⟨text, follows _ _ first, follows _ _ second⟩

theorem NamesMember.imp {name descriptor : Name} {index : UInt16} (names : NamesMember held name descriptor index) :
    NamesMember other name descriptor index := by
  obtain ⟨first, second, pair, named, typed⟩ := names
  exact ⟨first, second, follows _ _ pair, follows _ _ named, follows _ _ typed⟩

theorem Request.Met.imp {request : Request} {index : UInt16} (met : request.Met held index) : request.Met other index := by
  cases request with
  | push | text => exact follows _ _ met
  | classRef | string | methodType | moduleRef | packageRef => exact NamesText.imp follows met
  | nameAndType => exact NamesMember.imp follows met
  | member ref owner name descriptor =>
      obtain ⟨first, second, pair, owned, named⟩ := met
      exact ⟨first, second, follows _ _ pair, owned.imp follows, named.imp follows⟩
  | invokeDynamic bootstrap name descriptor =>
      obtain ⟨second, pair, named⟩ := met
      exact ⟨second, follows _ _ pair, named.imp follows⟩

end

inductive Issued : List (UInt16 × Constant) → Pool → Prop
  | new : Issued [] {}
  | push (log : List (UInt16 × Constant)) (pool : Pool) (constant : Constant) :
      Issued log pool → Issued (log ++ [((push constant pool).1, constant)]) (push constant pool).2
  | intern (log : List (UInt16 × Constant)) (pool : Pool) (constant : Constant) :
      Issued log pool → pool.interned.lookup constant = none →
        Issued (log ++ [((intern constant pool).1, constant)]) (intern constant pool).2

theorem intern_again {pool : Pool} {constant : Constant} {index : UInt16}
    (known : pool.interned.lookup constant = some index) : intern constant pool = (index, pool) := by
  rw [intern, known]

theorem intern_new {pool : Pool} {constant : Constant} (unknown : pool.interned.lookup constant = none) :
    intern constant pool = (pool.count.toUInt16,
      { (push constant pool).2 with interned := (constant, pool.count.toUInt16) :: pool.interned }) := by
  rw [intern, unknown]
  rfl

structure Listing (log : List (UInt16 × Constant)) (pool : Pool) : Prop where
  constants : pool.constants.toList = log.map Prod.snd
  count : pool.count = 1 + slotCount pool.constants.toList
  indices : log = (placed 1 ClassFile.poolStart pool.constants.toList).map fun entry => (entry.index.toUInt16, entry.constant)

theorem listing_push {log : List (UInt16 × Constant)} {pool : Pool} (listing : Listing log pool) (constant : Constant)
    (interned : List (Constant × UInt16)) :
    Listing (log ++ [(pool.count.toUInt16, constant)]) { (push constant pool).2 with interned } := by
  refine ⟨?_, ?_, ?_⟩
  · simp [push, listing.constants]
  · simp only [push, Array.toList_push, slot_count_append, slotCount, listing.count, Nat.add_assoc, Nat.add_zero]
  · simp only [push, Array.toList_push, placed_append, List.map_append, ← listing.indices, ← listing.count]
    rfl

theorem issued_listing {log : List (UInt16 × Constant)} {pool : Pool} (issued : Issued log pool) : Listing log pool := by
  induction issued with
  | new => exact ⟨rfl, rfl, rfl⟩
  | push log pool constant _ ih => exact listing_push ih constant pool.interned
  | intern log pool constant _ unknown ih =>
      rw [intern_new unknown]
      exact listing_push ih constant _

structure Built (log : List (UInt16 × Constant)) (pool : Pool) : Prop where
  issued : Issued log pool
  interned : ∀ constant index, (constant, index) ∈ pool.interned → (index, constant) ∈ log

theorem built_new : Built [] {} := ⟨.new, fun _ _ none => nomatch none⟩

def Issues {α : Type} (act : Build α) (post : List (UInt16 × Constant) → α → Prop) : Prop :=
  ∀ log pool, Built log pool → ∃ more, Built (log ++ more) (act pool).2 ∧ post (log ++ more) (act pool).1

section

variable {α β : Type}

theorem issues_imp {act : Build α} {post other : List (UInt16 × Constant) → α → Prop} (issues : Issues act post)
    (follows : ∀ log a, post log a → other log a) : Issues act other := by
  intro log pool built
  obtain ⟨more, final, said⟩ := issues log pool built
  exact ⟨more, final, follows _ _ said⟩

theorem issues_pure {post : List (UInt16 × Constant) → α → Prop} (a : α) (said : ∀ log, post log a) :
    Issues (pure a) post := by
  intro log pool built
  refine ⟨[], ?_, said _⟩
  rw [List.append_nil]
  exact built

theorem issues_bind {first : List (UInt16 × Constant) → α → Prop} {post : List (UInt16 × Constant) → β → Prop}
    {x : Build α} {f : α → Build β} (one : Issues x first)
    (lasting : ∀ log more a, first log a → first (log ++ more) a)
    (other : ∀ a, Issues (f a) fun log b => first log a → post log b) : Issues (x >>= f) post := by
  intro log pool built
  obtain ⟨more, middle, said⟩ := one log pool built
  obtain ⟨rest, final, result⟩ := other (x pool).1 (log ++ more) (x pool).2 middle
  rw [List.append_assoc] at final result
  refine ⟨more ++ rest, final, result ?_⟩
  rw [← List.append_assoc]
  exact lasting _ rest _ said

end

theorem issues_push (constant : Constant) : Issues (push constant) fun log index => (index, constant) ∈ log := by
  intro log pool built
  refine ⟨[((push constant pool).1, constant)], ⟨.push log pool constant built.issued, ?_⟩, by simp⟩
  intro other index member
  exact List.mem_append_left _ (built.interned other index member)

theorem issues_intern (constant : Constant) : Issues (intern constant) fun log index => (index, constant) ∈ log := by
  intro log pool built
  cases known : pool.interned.lookup constant with
  | some index =>
      rw [intern_again known]
      have member := built.interned constant index (mem_of_lookup known)
      exact ⟨[], by rwa [List.append_nil], by rwa [List.append_nil]⟩
  | none =>
      have issued := Issued.intern log pool constant built.issued known
      refine ⟨[((intern constant pool).1, constant)], ⟨issued, ?_⟩, by simp⟩
      intro other index member
      rw [intern_new known] at member ⊢
      rcases List.mem_cons.mp member with same | earlier
      · cases same
        simp
      · exact List.mem_append_left _ (built.interned other index earlier)

abbrev Held (log : List (UInt16 × Constant)) (index : UInt16) (constant : Constant) : Prop := (index, constant) ∈ log

theorem held_longer (log more : List (UInt16 × Constant)) (index : UInt16) (constant : Constant)
    (member : Held log index constant) : Held (log ++ more) index constant := List.mem_append_left _ member

theorem issues_text (value : Name) : Issues (addText value) fun log index => Held log index (.text value) :=
  issues_intern (.text value)

theorem issues_after_text {β : Type} {post : List (UInt16 × Constant) → β → Prop} (value : Name) {f : UInt16 → Build β}
    (other : ∀ text, Issues (f text) fun log b => Held log text (.text value) → post log b) :
    Issues (addText value >>= f) post :=
  issues_bind (issues_text value) (fun log more text => held_longer log more text _) other

theorem issues_named {make : UInt16 → Constant} {enter : Constant → Build UInt16}
    (enters : ∀ constant, Issues (enter constant) fun log index => Held log index constant) (value : Name) :
    Issues (do enter (make (← addText value))) fun log => NamesText (Held log) make value := by
  apply issues_after_text value
  intro text
  exact issues_imp (enters (make text)) fun _ _ entered named => ⟨text, entered, named⟩

theorem issues_class (name : Name) : Issues (addClass name) fun log => NamesText (Held log) .classRef name :=
  issues_named issues_intern name

theorem issues_name_and_type (name descriptor : Name) :
    Issues (addNameAndType name descriptor) fun log => NamesMember (Held log) name descriptor := by
  apply issues_after_text name
  intro first
  apply issues_after_text descriptor
  intro second
  exact issues_imp (issues_intern (.nameAndType first second)) fun _ _ entered typed named =>
    ⟨first, second, entered, named, typed⟩

theorem issues_request (request : Request) : Issues request.run fun log => request.Met (Held log) := by
  cases request with
  | push constant => exact issues_push constant
  | text value => exact issues_text value
  | classRef name => exact issues_class name
  | nameAndType name descriptor => exact issues_name_and_type name descriptor
  | string value => exact issues_named issues_push value
  | methodType descriptor => exact issues_named issues_push descriptor
  | moduleRef name => exact issues_named issues_push name
  | packageRef name => exact issues_named issues_push name
  | invokeDynamic bootstrap name descriptor =>
      apply issues_bind (issues_name_and_type name descriptor) fun log more _ => NamesMember.imp (held_longer log more)
      intro second
      exact issues_imp (issues_push (.invokeDynamic bootstrap second)) fun _ _ entered named => ⟨second, entered, named⟩
  | member ref owner name descriptor =>
      apply issues_bind (issues_class owner) fun log more _ => NamesText.imp (held_longer log more)
      intro first
      apply issues_bind (issues_name_and_type name descriptor) fun log more _ => NamesMember.imp (held_longer log more)
      intro second
      exact issues_imp (issues_intern (ref first second)) fun _ _ entered named owned => ⟨first, second, entered, owned, named⟩

theorem issues_requests (requests : List Request) :
    Issues (requests.mapM Request.run) fun log => List.Forall₂ (fun request index => request.Met (Held log) index) requests := by
  induction requests with
  | nil => exact issues_pure [] fun _ => .nil
  | cons request requests ih =>
      rw [List.mapM_cons]
      apply issues_bind (issues_request request) fun log more _ => Request.Met.imp (held_longer log more)
      intro index
      refine issues_bind ih (fun log more _ => List.Forall₂.imp fun _ _ => Request.Met.imp (held_longer log more)) ?_
      exact fun indices => issues_pure (index :: indices) fun log rest first => .cons first rest

theorem encode_each (constants : List Constant) (storable : ∀ constant ∈ constants, constant.Storable) :
    constants.mapM Constant.encode = .ok (constants.map Constant.encoded) := by
  induction constants with
  | nil => rfl
  | cons constant rest ih =>
      rw [List.mapM_cons, Constant.encode_storable constant (storable constant (.head _)),
        ih fun one member => storable one (.tail _ member)]
      rfl

theorem encode_fits {pool : Pool} (small : pool.count ≤ maxCount)
    (storable : ∀ constant ∈ pool.constants.toList, constant.Storable) :
    pool.encode = .ok (word16 pool.count.toUInt16 ++ encodedAll pool.constants.toList) := by
  rw [encode, if_neg (Nat.not_lt.mpr small), encode_each _ storable]
  rfl

theorem encode_inv {pool : Pool} {bytes : Bytes} (written : pool.encode = .ok bytes) :
    pool.count ≤ maxCount ∧ ∀ constant ∈ pool.constants.toList, constant.Storable := by
  by_cases large : maxCount < pool.count
  · rw [encode, if_pos large] at written
    cases written
  · rw [encode, if_neg large] at written
    obtain ⟨parts, each, _⟩ := except_bind_inv written
    refine ⟨Nat.not_lt.mp large, fun constant member => ?_⟩
    obtain ⟨part, encoded⟩ := except_map_each _ each constant member
    exact (Constant.encode_inv constant part encoded).1

theorem storable_iff (constants : List Constant) :
    (∀ constant ∈ constants, constant.Storable) ↔ ∀ name, .text name ∈ constants → name.length ≤ Constant.maxTextLength := by
  refine ⟨fun storable name member => storable _ member, fun short constant member => ?_⟩
  cases constant with
  | text name => exact short name member
  | _ => trivial

theorem encode_iff (pool : Pool) :
    (∃ bytes, pool.encode = .ok bytes) ↔
      pool.count ≤ maxCount ∧ ∀ name, .text name ∈ pool.constants.toList → name.length ≤ Constant.maxTextLength := by
  rw [← storable_iff]
  exact ⟨fun ⟨_, written⟩ => encode_inv written, fun ⟨small, storable⟩ => ⟨_, encode_fits small storable⟩⟩

def headed (version bytes tail : Bytes) : Bytes := word32 ClassFile.magic.toUInt32 ++ version ++ bytes ++ tail

section

variable {log : List (UInt16 × Constant)} {pool : Pool} {bytes version : Bytes}

def Listing.pooled (listing : Listing log pool) (written : pool.encode = .ok bytes) (size : version.length = 4)
    (tail : Bytes) : Pooled (headed version bytes tail) where
  head := word32 ClassFile.magic.toUInt32 ++ (version ++ word16 pool.count.toUInt16)
  count := pool.count
  constants := pool.constants.toList
  body := tail
  split := by
    obtain ⟨small, storable⟩ := encode_inv written
    cases (encode_fits small storable).symm.trans written
    simp only [headed, List.append_assoc]
  head_length := by simp [word32_length, word16_length, size, ClassFile.poolStart]
  headed := by
    have whole := takes_header ClassFile.magic.toUInt32 version pool.count.toUInt16 rfl size
    rwa [UInt16.toNat_ofNat_of_lt' (Nat.lt_succ_of_le (encode_inv written).1)] at whole
  small := (encode_inv written).1
  filled := by
    rw [listing.count, Nat.add_sub_cancel_left]
    exact fill_slots _ (encode_inv written).2

theorem Listing.stop (listing : Listing log pool) (written : pool.encode = .ok bytes) (size : version.length = 4) (tail : Bytes) :
    (listing.pooled written size tail).stop = 8 + bytes.length := by
  obtain ⟨small, storable⟩ := encode_inv written
  cases (encode_fits small storable).symm.trans written
  change 10 + (encodedAll pool.constants.toList).length = _
  rw [List.length_append, word16_length]
  omega

theorem Listing.entries (listing : Listing log pool) (written : pool.encode = .ok bytes) (size : version.length = 4)
    (tail : Bytes) :
    (listing.pooled written size tail).entries.map (fun entry => (entry.index, entry.constant)) =
      log.map fun issue => (issue.1.toNat, issue.2) := by
  have bounds := (listing.pooled written size tail).entry_indices
  conv => rhs; rw [listing.indices]
  rw [List.map_map]
  apply List.map_congr_left
  intro entry member
  -- The count of a written pool is below 65536, so no index has wrapped around.
  have small := (bounds entry member).2
  have limit : pool.count ≤ 65535 := (encode_inv written).1
  have back : entry.index.toUInt16.toNat = entry.index := by
    apply UInt16.toNat_ofNat_of_lt'
    exact Nat.lt_of_lt_of_le (Nat.lt_of_lt_of_le small limit) (by decide)
  simp only [Function.comp_apply, back]

theorem Listing.entry_of_held (listing : Listing log pool) (written : pool.encode = .ok bytes) (size : version.length = 4)
    (tail : Bytes) (index : UInt16) (constant : Constant) (held : Held log index constant) :
    ∃ entry ∈ (listing.pooled written size tail).entries, entry.index = index.toNat ∧ entry.constant = constant := by
  have listed := List.mem_map_of_mem (f := fun issue : UInt16 × Constant => (issue.1.toNat, issue.2)) held
  rw [← listing.entries written size tail] at listed
  obtain ⟨entry, member, same⟩ := List.mem_map.mp listed
  exact ⟨entry, member, Prod.mk.inj same⟩

end

structure WalkedBack (log : List (UInt16 × Constant)) (data : Bytes) (layout : Layout) : Prop where
  outcome : (Walk.ofBytes data).outcome = .ok layout
  visited : (Walk.ofBytes data).entries.map (fun entry => (entry.index, entry.constant)) =
    log.map fun issue => (issue.1.toNat, issue.2)
  written : ∀ entry ∈ (Walk.ofBytes data).entries, ∃ rest,
    data.drop entry.offset = entry.constant.tag.code :: entry.constant.body ++ rest

end Pool

open Pool in
/-- A pool can be written if its count and the lengths of its texts fit. Then a walk finds all that
was added to it, and under each index that was given for a request what the request was for. -/
theorem written_pool_walks_back (requests : List Request) (answers : List UInt16) (pool : Pool)
    (ran : requests.mapM Request.run {} = (answers, pool)) :
    ((∃ bytes, pool.encode = .ok bytes) ↔
      pool.count ≤ 65535 ∧ ∀ name, .text name ∈ pool.constants.toList → name.length ≤ 65535) ∧
    ∃ log, Issued log pool ∧ log.map Prod.snd = pool.constants.toList ∧
      ∀ bytes version tail, pool.encode = .ok bytes → version.length = 4 →
        WalkedBack log (headed version bytes tail) ⟨pool.count, 8 + bytes.length⟩ ∧
        List.Forall₂ (fun request index => request.Met (fun place constant =>
          ∃ entry ∈ (Walk.ofBytes (headed version bytes tail)).entries,
            entry.index = place.toNat ∧ entry.constant = constant) index) requests answers := by
  obtain ⟨log, built, met⟩ := issues_requests requests [] {} built_new
  rw [ran, List.nil_append] at built met
  have listing := issued_listing built.issued
  refine ⟨encode_iff pool, log, built.issued, listing.constants.symm, fun bytes version tail written size => ?_⟩
  let pooled := listing.pooled written size tail
  have walked := pooled.walk
  refine ⟨⟨?_, ?_, ?_⟩, ?_⟩
  · rw [walked, ← listing.stop written size tail]
    rfl
  · rw [walked]
    exact listing.entries written size tail
  · rw [walked]
    exact fun entry member => pooled.drop_entry entry member
  · rw [walked]
    exact met.imp fun _ _ one => one.imp (listing.entry_of_held written size tail)

def mixedRequests : List Pool.Request :=
  [.classRef (.ofString "A"), .push (.long 5),
    .member .fieldRef (.ofString "A") (.ofString "f") (.ofString "I"), .text (.ofString "A")]

def mixedPool : Pool := (mixedRequests.mapM Pool.Request.run {}).2

def mixedBytes : Bytes :=
  [0, 9, 1, 0, 1, 65, 7, 0, 1, 5, 0, 0, 0, 0, 0, 0, 0, 5, 1, 0, 1, 102, 1, 0, 1, 73, 12, 0, 5, 0, 6, 9, 0, 2, 0, 7]

theorem written_pool_walks_back_sample :
    mixedRequests.mapM Pool.Request.run {} = ([2, 3, 8, 1], mixedPool) ∧ mixedPool.encode = .ok mixedBytes ∧
      ∃ log, Pool.WalkedBack log (Pool.headed [0, 0, 0, 52] mixedBytes [0, 33]) ⟨9, 44⟩ ∧
        log.map Prod.snd = [.text (.ofString "A"), .classRef 1, .long 5, .text (.ofString "f"), .text (.ofString "I"),
          .nameAndType 5 6, .fieldRef 2 7] := by
  have given : (mixedRequests.mapM Pool.Request.run {}).1 = [2, 3, 8, 1] := by decide +kernel
  have ran : mixedRequests.mapM Pool.Request.run {} = ([2, 3, 8, 1], mixedPool) := by
    rw [mixedPool, ← given]
    exact (Prod.eta _).symm
  have written : mixedPool.encode = .ok mixedBytes := by decide +kernel
  obtain ⟨_, log, _, constants, back⟩ := written_pool_walks_back mixedRequests [2, 3, 8, 1] mixedPool ran
  have counted : mixedPool.count = 9 := by decide +kernel
  have walked := (back mixedBytes [0, 0, 0, 52] [0, 33] written rfl).1
  rw [counted] at walked
  exact ⟨ran, written, log, walked, constants.trans (by decide +kernel)⟩

end Relabel
