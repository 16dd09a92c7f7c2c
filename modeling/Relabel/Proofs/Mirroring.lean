import Relabel.Proofs.Relating
import Relabel.Rename.RenamedClass

set_option autoImplicit false

namespace Relabel

section

variable {ε σ τ α β : Type} {rel : σ → τ → Prop}

inductive EndAlike (rel : σ → τ → Prop) : EStateM.Result ε σ α → EStateM.Result ε τ α → Prop where
  | ok (a : α) (s : σ) (t : τ) (beside : rel s t) : EndAlike rel (.ok a s) (.ok a t)
  | error (e : ε) (s : σ) (t : τ) (beside : rel s t) : EndAlike rel (.error e s) (.error e t)

def Mirrors (rel : σ → τ → Prop) (x : EStateM ε σ α) (y : EStateM ε τ α) : Prop :=
  ∀ s t, rel s t → EndAlike rel (x s) (y t)

theorem mirrors_pure (a : α) : Mirrors rel (pure a : EStateM ε σ α) (pure a) := fun s t beside => .ok a s t beside

theorem mirrors_throw (e : ε) : Mirrors rel (throw e : EStateM ε σ α) (throw e) := fun s t beside => .error e s t beside

theorem mirrors_bind {x : EStateM ε σ α} {y : EStateM ε τ α} {f : α → EStateM ε σ β} {g : α → EStateM ε τ β}
    (first : Mirrors rel x y) (second : ∀ a, Mirrors rel (f a) (g a)) : Mirrors rel (x >>= f) (y >>= g) := by
  intro s t beside
  have ended := first s t beside
  generalize ranX : x s = one at ended
  generalize ranY : y t = other at ended
  cases ended with
  | ok a s' t' still =>
      rw [bind_ok ranX, bind_ok ranY]
      exact second a s' t' still
  | error e s' t' still =>
      rw [bind_error ranX, bind_error ranY]
      exact .error e s' t' still

theorem mirrors_ite {condition : Prop} [Decidable condition] {x x' : EStateM ε σ α} {y y' : EStateM ε τ α}
    (yes : Mirrors rel x y) (no : Mirrors rel x' y') :
    Mirrors rel (if condition then x else x') (if condition then y else y') := by
  by_cases holds : condition
  · rwa [if_pos holds, if_pos holds]
  · rwa [if_neg holds, if_neg holds]

theorem Mirrors.relates {x : EStateM ε σ α} {y : EStateM ε τ α} (mirrors : Mirrors rel x y) :
    Relates rel x y fun a s b t => a = b ∧ rel s t := by
  intro s t a s' beside ran
  have ended := mirrors s t beside
  generalize ranY : y t = other at ended
  rw [ran] at ended
  cases ended with
  | ok _ _ t' still => exact ⟨a, t', rfl, rfl, still⟩

end

namespace Oracle

variable {σ τ : Type}

structure MirroredBy (one : Oracle σ) (other : Oracle τ) (rel : σ → τ → Prop) : Prop where
  lookup : ∀ name, Mirrors rel (one.lookup name) (other.lookup name)
  extent : one.extent = other.extent

namespace MirroredBy

variable {one : Oracle σ} {other : Oracle τ} {rel : σ → τ → Prop} (mirrored : one.MirroredBy other rel)

include mirrored

theorem request (name : Name) : Mirrors rel (one.request name) (other.request name) := by
  intro s t beside
  have ended := mirrored.lookup name s t beside
  rw [Oracle.request, Oracle.request]
  generalize one.lookup name s = first at ended
  generalize other.lookup name t = second at ended
  cases ended with
  | ok shape s' t' still => exact .ok shape s' t' still
  | error e s' t' still => cases e <;> exact .error _ s' t' still

theorem shape_of (settings : Settings) (name : Name) :
    Mirrors rel (one.shapeOf settings name) (other.shapeOf settings name) :=
  mirrors_ite (mirrors_pure _) (mirrored.request name)

theorem search (settings : Settings) (name descriptor : Name) (fuel : Nat) (queue seen : List Name) :
    Mirrors rel (one.search settings name descriptor fuel queue seen)
      (other.search settings name descriptor fuel queue seen) := by
  induction fuel generalizing queue seen with
  | zero => exact mirrors_pure _
  | succ fuel ih =>
      rw [Oracle.search, Oracle.search]
      split
      · exact mirrors_pure _
      · exact mirrors_bind (mirrored.request _) fun shape => mirrors_ite (mirrors_pure _) (ih _ _)

theorem declaring (settings : Settings) (lineage : Lineage) (name descriptor : Name) :
    Mirrors rel (one.declaring? settings lineage name descriptor) (other.declaring? settings lineage name descriptor) := by
  refine mirrors_bind (mirrored.shape_of settings _) fun shape => mirrors_ite (mirrors_pure _) ?_
  rw [mirrored.extent]
  exact mirrored.search settings name descriptor _ _ _

theorem rename_method (renamer : Renamer) (settings : Settings) (lineage : Lineage) (name descriptor : Name) :
    Mirrors rel (one.renameMethod renamer settings lineage name descriptor)
      (other.renameMethod renamer settings lineage name descriptor) := by
  refine mirrors_ite (mirrors_pure _) ?_
  cases renamer.method? lineage.name name descriptor with
  | some renamed => exact mirrors_pure _
  | none =>
      refine mirrors_bind (mirrored.declaring settings lineage name descriptor) fun owner => ?_
      cases owner <;> exact mirrors_pure _

end MirroredBy

end Oracle

def Progress.Beside {σ τ : Type} (rel : σ → τ → Prop) (p : Progress σ) (q : Progress τ) : Prop :=
  rel p.oracle q.oracle ∧ p.warnings = q.warnings

namespace Renaming

open Progress (Beside)

variable {σ τ α : Type} {rel : σ → τ → Prop}

theorem mirrors_known (answer : Except Fault α) : Mirrors (Beside rel) (answer : Renaming σ α) (answer : Renaming τ α) := by
  intro p q beside
  cases answer with
  | ok a => exact .ok a p q beside
  | error e => exact .error e p q beside

theorem mirrors_ask {x : EStateM Fault σ α} {y : EStateM Fault τ α} (mirrors : Mirrors rel x y) :
    Mirrors (Beside rel) (ask x) (ask y) := by
  rintro p q ⟨beside, said⟩
  have ended := mirrors p.oracle q.oracle beside
  rw [ask, ask]
  generalize x p.oracle = one at ended
  generalize y q.oracle = other at ended
  cases ended with
  | ok a s t still => exact .ok a _ _ ⟨still, said⟩
  | error e s t still => exact .error e _ _ ⟨still, said⟩

theorem mirrors_warn (warning : Warning) : Mirrors (Beside rel) (warn warning) (warn warning) := by
  rintro p q ⟨beside, said⟩
  exact .ok () _ _ ⟨beside, congrArg (·.push warning) said⟩

theorem mirrors_agree (index : Nat) (held used : Name) {rename : α → Renaming σ Name} {again : α → Renaming τ Name}
    (each : ∀ user, Mirrors (Beside rel) (rename user) (again user)) (users : List α) :
    Mirrors (Beside rel) (agree index held used rename users) (agree index held used again users) := by
  induction users with
  | nil => exact mirrors_pure ()
  | cons user rest ih => exact mirrors_bind (each user) fun other => mirrors_ite ih (mirrors_warn _)

end Renaming

namespace Job

open Progress (Beside)
open Renaming

variable {σ τ : Type}

def through (job : Job σ) (other : Oracle τ) : Job τ :=
  ⟨job.scan, job.renamer, other, job.settings, job.lineage, job.newName⟩

variable {job : Job σ} {other : Oracle τ} {rel : σ → τ → Prop} (mirrored : job.oracle.MirroredBy other rel)

theorem mirrors_member_name (index : Nat) (held : Name) :
    Mirrors (Beside rel) (job.memberName index held) ((job.through other).memberName index held) := by
  refine mirrors_bind (mirrors_known _) fun linked => ?_
  cases linked with
  | none => exact mirrors_pure held
  | some current =>
      refine mirrors_bind (mirrors_known _) fun used => mirrors_bind (mirrors_known _) fun members => ?_
      refine mirrors_bind (mirrors_agree index held used ?_ _) fun _ => mirrors_pure used
      exact fun member => mirrors_known _

theorem mirrors_common_name (index : Nat) (held : Name) (chosen : Option Name) (inner : List Nat) :
    Mirrors (Beside rel) (job.commonName index held chosen inner) ((job.through other).commonName index held chosen inner) := by
  induction inner generalizing chosen with
  | nil => cases chosen <;> exact mirrors_pure _
  | cons first rest ih =>
      rw [commonName, commonName]
      refine mirrors_bind (mirrors_known _) fun name => ?_
      cases chosen with
      | none => exact ih _
      | some one => exact mirrors_ite (ih _) (mirrors_bind (mirrors_warn _) fun _ => mirrors_pure held)

include mirrored

theorem mirrors_declared_name (held : Name) (declaration : Declaration) :
    Mirrors (Beside rel) (job.declaredName held declaration) ((job.through other).declaredName held declaration) := by
  refine mirrors_bind (mirrors_known _) fun descriptor => ?_
  cases declaration.kind with
  | method => exact mirrors_ask (mirrored.rename_method _ _ _ _ _)
  | field | unknown => exact mirrors_pure _

theorem mirrors_own_name (kind : MemberKind) (index : Nat) (held : Name) :
    Mirrors (Beside rel) (job.ownName kind index held) ((job.through other).ownName kind index held) := by
  refine mirrors_bind (mirrors_known _) fun descriptor => ?_
  refine mirrors_bind (mirrors_declared_name mirrored held _) fun used => mirrors_bind (mirrors_known _) fun declarations => ?_
  exact mirrors_bind (mirrors_agree index held used (mirrors_declared_name mirrored held) _) fun _ => mirrors_pure used

theorem mirrors_new_text (index : Nat) (held : Name) :
    Mirrors (Beside rel) (job.newText index held) ((job.through other).newText index held) := by
  refine mirrors_bind (mirrors_known _) fun role => ?_
  cases role with
  | memberName => exact mirrors_member_name index held
  | ownField | ownMethod => exact mirrors_own_name mirrored _ index held
  | innerName => exact mirrors_bind (mirrors_known _) fun inner => mirrors_common_name index held none inner
  | signature => exact mirrors_known _
  | _ => exact mirrors_pure _

theorem mirrors_new_entry (index : Nat) (tag : Tag) (body : Bytes) :
    Mirrors (Beside rel) (job.newEntry index tag body) ((job.through other).newEntry index tag body) := by
  cases tag with
  | text =>
      refine mirrors_bind (mirrors_known _) fun held => ?_
      exact mirrors_bind (mirrors_new_text mirrored index held) fun renamed => mirrors_known _
  | _ => exact mirrors_pure _

theorem mirrors_slots (done : List Bytes) (left index : Nat) (dead : Bool) (c : Cursor) :
    Mirrors (Beside rel) (job.slots done left index dead c) ((job.through other).slots done left index dead c) := by
  induction left generalizing done index dead c with
  | zero => exact fun p q beside => .ok _ p q beside
  | succ left ih =>
      cases dead with
      | true => exact ih done (index + 1) false c
      | false =>
          intro p q beside
          have scan : (job.through other).scan = job.scan := rfl
          rw [slots, slots, scan]
          cases job.scan.reread index c with
          | error e _ => exact .error e p q beside
          | ok found c =>
              obtain ⟨tag, body⟩ := found
              dsimp only
              have ended := mirrors_new_entry mirrored index tag body p q beside
              generalize job.newEntry index tag body p = one at ended
              generalize (job.through other).newEntry index tag body q = two at ended
              cases ended with
              | error e p' q' still => exact .error e p' q' still
              | ok entry p' q' still => exact ih _ _ _ _ p' q' still

theorem mirrors_emit (data : Bytes) : Mirrors (Beside rel) (job.emit data) ((job.through other).emit data) := by
  refine mirrors_ite (mirrors_throw _) ?_
  refine mirrors_bind (mirrors_slots mirrored _ _ _ _ _) fun entries => ?_
  exact mirrors_ite (mirrors_throw _) (mirrors_pure _)

end Job

theorem mirrors_rename_class {σ τ : Type} {one : Oracle σ} {other : Oracle τ} {rel : σ → τ → Prop}
    (mirrored : one.MirroredBy other rel) (renamer : Renamer) (settings : Settings) (data : Bytes) :
    Mirrors (Progress.Beside rel) (renameClass renamer one settings data) (renameClass renamer other settings data) := by
  refine mirrors_bind (Renaming.mirrors_known _) fun scan => mirrors_bind (Renaming.mirrors_known _) fun oldName => ?_
  refine mirrors_bind (Renaming.mirrors_known _) fun superName => mirrors_bind (Renaming.mirrors_known _) fun interfaces => ?_
  exact mirrors_bind (Job.mirrors_emit mirrored data) fun bytes => mirrors_pure _

end Relabel
