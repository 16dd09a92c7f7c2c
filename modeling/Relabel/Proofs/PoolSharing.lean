import Relabel.Proofs.PoolBuilding
import Relabel.Proofs.PoolPartition

set_option autoImplicit false

namespace Relabel

open ClassFile (constantAt?)

def Constant.isShared : Constant → Bool
  | .text _ | .classRef _ | .nameAndType _ _ | .fieldRef _ _ | .methodRef _ _ | .interfaceMethodRef _ _ => true
  | _ => false

def ClassFile.DeadSlot (data : Bytes) (index : Nat) : Prop :=
  ∃ first constant, constantAt? data first = some constant ∧ constant.tag.isWide = true ∧ index = first + 1

namespace Pooled

variable {data : Bytes} (pooled : Pooled data)

include pooled in
theorem constant_not_dead {index : Nat} {constant : Constant} (held : constantAt? data index = some constant) :
    ¬ ClassFile.DeadSlot data index := by
  rintro ⟨first, wide, there, two, rfl⟩
  obtain ⟨low, high⟩ := pooled.constant_addressable _ _ held
  obtain ⟨other, taken, here, _⟩ := (pooled.constant_at _ _).mp held
  obtain ⟨entry, member, rfl, rfl⟩ := (pooled.constant_at _ _).mp there
  have alive := (Walk.fill_taken pooled.filled 1 ClassFile.poolStart (entry.index + 1) low (by omega)).mp ⟨other, taken, here⟩
  have narrow := alive.2 entry member rfl
  rw [two] at narrow
  cases narrow

end Pooled

namespace Pool

theorem Request.Met.held {held : UInt16 → Constant → Prop} {request : Request} {index : UInt16}
    (met : request.Met held index) : ∃ constant, held index constant := by
  cases request with
  | push | text => exact ⟨_, met⟩
  | classRef | string | methodType | moduleRef | packageRef =>
      obtain ⟨_, first, _⟩ := met
      exact ⟨_, first⟩
  | nameAndType =>
      obtain ⟨_, _, first, _⟩ := met
      exact ⟨_, first⟩
  | member =>
      obtain ⟨_, _, first, _⟩ := met
      exact ⟨_, first⟩
  | invokeDynamic =>
      obtain ⟨_, first, _⟩ := met
      exact ⟨_, first⟩

def Request.Shares : Request → Prop
  | .push constant => constant.isShared = false
  | _ => True

structure Shared (pool : Pool) : Prop where
  distinct : (pool.constants.toList.filter Constant.isShared).Nodup
  known : ∀ constant ∈ pool.constants.toList, constant.isShared = true → ∃ index, (constant, index) ∈ pool.interned

theorem shared_new : Shared {} := ⟨.nil, fun _ none => absurd none List.not_mem_nil⟩

def KeepsShared {α : Type} (act : Build α) : Prop := ∀ pool, Shared pool → Shared (act pool).2

section

variable {α β : Type}

theorem keeps_shared_pure (a : α) : KeepsShared (pure a) := fun _ shared => shared

theorem keeps_shared_bind {x : Build α} {f : α → Build β} (first : KeepsShared x) (rest : ∀ a, KeepsShared (f a)) :
    KeepsShared (x >>= f) := fun pool shared => rest _ _ (first pool shared)

end

theorem mem_pushed {pool : Pool} {constant other : Constant} :
    other ∈ (push constant pool).2.constants.toList ↔ other ∈ pool.constants.toList ∨ other = constant := by
  simp [push]

theorem keeps_shared_push {constant : Constant} (unshared : constant.isShared = false) : KeepsShared (push constant) := by
  intro pool shared
  constructor
  · simpa [push, unshared] using shared.distinct
  · intro other member wanted
    rcases mem_pushed.mp member with earlier | rfl
    · exact shared.known other earlier wanted
    · rw [unshared] at wanted
      cases wanted

theorem keeps_shared_intern (constant : Constant) : KeepsShared (intern constant) := by
  intro pool shared
  cases found : pool.interned.lookup constant with
  | some index =>
      rw [intern_again found]
      exact shared
  | none =>
      rw [intern_new found]
      -- Unknown to the table, the constant is not in the pool if it is shared.
      have fresh : constant.isShared = true → constant ∉ pool.constants.toList := by
        intro wanted member
        obtain ⟨index, recorded⟩ := shared.known constant member wanted
        simpa using List.lookup_eq_none_iff.mp found _ recorded
      constructor
      · simp only [push, Array.toList_push, List.filter_append]
        refine List.nodup_append.mpr ⟨shared.distinct, (List.pairwise_singleton _ constant).filter _, ?_⟩
        rintro other earlier _ last rfl
        obtain ⟨last, wanted⟩ := List.mem_filter.mp last
        cases List.mem_singleton.mp last
        exact fresh wanted (List.mem_filter.mp earlier).1
      · intro other member wanted
        rcases mem_pushed.mp member with earlier | rfl
        · obtain ⟨index, recorded⟩ := shared.known other earlier wanted
          exact ⟨index, .tail _ recorded⟩
        · exact ⟨_, .head _⟩

theorem keeps_shared_text (value : Name) : KeepsShared (addText value) := keeps_shared_intern _

theorem keeps_shared_class (name : Name) : KeepsShared (addClass name) :=
  keeps_shared_bind (keeps_shared_text name) fun _ => keeps_shared_intern _

theorem keeps_shared_name_and_type (name descriptor : Name) : KeepsShared (addNameAndType name descriptor) :=
  keeps_shared_bind (keeps_shared_text name) fun _ =>
    keeps_shared_bind (keeps_shared_text descriptor) fun _ => keeps_shared_intern _

theorem keeps_shared_request (request : Request) (shares : request.Shares) : KeepsShared request.run := by
  cases request with
  | push constant => exact keeps_shared_push shares
  | text value => exact keeps_shared_text value
  | classRef name => exact keeps_shared_class name
  | nameAndType name descriptor => exact keeps_shared_name_and_type name descriptor
  | member ref owner name descriptor =>
      apply keeps_shared_bind (keeps_shared_class owner)
      intro first
      exact keeps_shared_bind (keeps_shared_name_and_type name descriptor) fun _ => keeps_shared_intern _
  | invokeDynamic bootstrap name descriptor =>
      exact keeps_shared_bind (keeps_shared_name_and_type name descriptor) fun _ => keeps_shared_push rfl
  | string value | methodType value | moduleRef value | packageRef value =>
      exact keeps_shared_bind (keeps_shared_text value) fun _ => keeps_shared_push rfl

theorem keeps_shared_requests (requests : List Request) (share : ∀ request ∈ requests, request.Shares) :
    KeepsShared (requests.mapM Request.run) := by
  induction requests with
  | nil => exact keeps_shared_pure []
  | cons request requests ih =>
      rw [List.mapM_cons]
      apply keeps_shared_bind (keeps_shared_request request (share request (.head _)))
      intro index
      exact keeps_shared_bind (ih fun other member => share other (.tail _ member)) fun _ => keeps_shared_pure _

end Pool

open Pool in
/-- Whatever is asked of a new pool, each index that was given for a request is, in the pool as it
is written, that of a constant which leads to what was asked for. Of the shared constants there is
one each, unless one of them was added past the table. -/
theorem issued_indices_resolve (requests : List Request) (answers : List UInt16) (pool : Pool)
    (ran : requests.mapM Request.run {} = (answers, pool)) :
    (∀ bytes version tail, pool.encode = .ok bytes → version.length = 4 →
      (Walk.ofBytes (headed version bytes tail)).outcome = .ok ⟨pool.count, 8 + bytes.length⟩ ∧
      List.Forall₂ (fun request index =>
        request.Met (fun place constant => constantAt? (headed version bytes tail) place.toNat = some constant) index ∧
        ¬ ClassFile.DeadSlot (headed version bytes tail) index.toNat) requests answers) ∧
    ((∀ request ∈ requests, request.Shares) → (pool.constants.toList.filter Constant.isShared).Nodup) := by
  obtain ⟨log, built, met⟩ := issues_requests requests [] {} built_new
  rw [ran, List.nil_append] at built met
  have listing := issued_listing built.issued
  constructor
  · intro bytes version tail written size
    let pooled := listing.pooled written size tail
    -- An index that was given out is that of the constant in the bytes.
    have found : ∀ index constant, Held log index constant →
        constantAt? (headed version bytes tail) index.toNat = some constant := by
      intro index constant held
      exact (pooled.constant_at _ _).mpr (listing.entry_of_held written size tail index constant held)
    constructor
    · rw [pooled.walk, ← listing.stop written size tail]
      rfl
    · refine met.imp fun request index one => ?_
      have resolved := one.imp found
      obtain ⟨constant, held⟩ := resolved.held
      exact ⟨resolved, pooled.constant_not_dead held⟩
  · intro share
    have shared := keeps_shared_requests requests share {} shared_new
    rw [ran] at shared
    exact shared.distinct

def sharedRequests : List Pool.Request :=
  [.member .fieldRef (.ofString "A") (.ofString "f") (.ofString "I"), .push (.long 5),
    .member .methodRef (.ofString "A") (.ofString "f") (.ofString "I"),
    .member .fieldRef (.ofString "A") (.ofString "f") (.ofString "I"), .string (.ofString "A"), .string (.ofString "A")]

def sharedPool : Pool := (sharedRequests.mapM Pool.Request.run {}).2

def sharedBytes : Bytes :=
  [0, 12, 1, 0, 1, 65, 7, 0, 1, 1, 0, 1, 102, 1, 0, 1, 73, 12, 0, 3, 0, 4, 9, 0, 2, 0, 5, 5, 0, 0, 0, 0, 0, 0, 0, 5,
    10, 0, 2, 0, 5, 8, 0, 1, 8, 0, 1]

theorem issued_indices_resolve_shared :
    sharedRequests.mapM Pool.Request.run {} = ([6, 7, 9, 6, 10, 11], sharedPool) ∧ sharedPool.encode = .ok sharedBytes ∧
      (∀ request ∈ sharedRequests, request.Shares) ∧ (sharedPool.constants.toList.filter Constant.isShared).Nodup ∧
      (Pool.Request.member .methodRef (.ofString "A") (.ofString "f") (.ofString "I")).Met (fun place constant =>
        constantAt? (Pool.headed [0, 0, 0, 52] sharedBytes []) place.toNat = some constant) 9 ∧
      ClassFile.DeadSlot (Pool.headed [0, 0, 0, 52] sharedBytes []) 8 ∧
      ¬ ClassFile.DeadSlot (Pool.headed [0, 0, 0, 52] sharedBytes []) 9 := by
  have given : (sharedRequests.mapM Pool.Request.run {}).1 = [6, 7, 9, 6, 10, 11] := by decide +kernel
  have ran : sharedRequests.mapM Pool.Request.run {} = ([6, 7, 9, 6, 10, 11], sharedPool) := by
    rw [sharedPool, ← given]
    exact (Prod.eta _).symm
  have written : sharedPool.encode = .ok sharedBytes := by decide +kernel
  have share : ∀ request ∈ sharedRequests, request.Shares := by
    simp [sharedRequests, Pool.Request.Shares, Constant.isShared]
  obtain ⟨resolved, distinct⟩ := issued_indices_resolve sharedRequests [6, 7, 9, 6, 10, 11] sharedPool ran
  obtain ⟨_, each⟩ := resolved sharedBytes [0, 0, 0, 52] [] written rfl
  obtain ⟨_, each⟩ := List.forall₂_cons.mp each
  obtain ⟨_, each⟩ := List.forall₂_cons.mp each
  obtain ⟨⟨met, alive⟩, _⟩ := List.forall₂_cons.mp each
  exact ⟨ran, written, share, distinct share, met, ⟨7, .long 5, by decide +kernel, rfl, rfl⟩, alive⟩

end Relabel
