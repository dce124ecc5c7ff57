import Mathlib.Data.List.Basic

/-! Copying an update (`orly/indy/update.cc`) and the pusher that commits the copy
(`TTransaction::TPusher`, `orly/indy/transaction_base.cc`).

An update holds a sequence number, a metadata and an id core, and its entries. Building
one copies the metadata and id cores into the new update's suprena, then each entry; any
of these copies may throw. The constructor from an op-by-key map rethrows a failed entry
after deleting the entries made so far. The copy constructor deletes them too, but does
not rethrow: it returns an update with no entries (`copyUpdate_swallows`), and the pusher
appends that update to the repo on commit (`push_commits_empty_copy`).

Copies are modelled by functions into `Except`: the model fixes what each constructor
does with a failure, not which copies fail. -/
namespace Orly.Indy

/-- `TUpdate`: its sequence number, metadata and id, and its entries in the order of its
entry collection. -/
structure TUpdate (μ α : Type) where
  sequenceNumber : Nat
  metadata : μ
  id : μ
  entries : List α

variable {ε μ α : Type} (copyCore : μ → Except ε μ) (copyEntry : α → Except ε α)

/-- `TUpdate(op_by_key, metadata, id, state_alloc)`: a new update, at sequence number
zero until a repo gives it one. A failed entry is rethrown. -/
def TUpdate.make (opByKey : List α) (metadata id : μ) : Except ε (TUpdate μ α) := do
  let metadata ← copyCore metadata
  let id ← copyCore id
  let entries ← opByKey.mapM copyEntry
  return ⟨0, metadata, id, entries⟩

/-- `TUpdate(that, state_alloc)`: the copy. The metadata and id are copied in the
member initializers, outside the `try`; a failed entry is caught, the entries copied so
far are deleted, and the constructor returns. -/
def TUpdate.copy (that : TUpdate μ α) : Except ε (TUpdate μ α) := do
  let metadata ← copyCore that.metadata
  let id ← copyCore that.id
  match that.entries.mapM copyEntry with
  | .ok entries => return ⟨that.sequenceNumber, metadata, id, entries⟩
  | .error _ => return ⟨that.sequenceNumber, metadata, id, []⟩

/-- `TTransaction::TPusher`: the copy made when the push is staged, appended to the repo's
updates on commit and dropped otherwise. -/
def push (repo : List (TUpdate μ α)) (that : TUpdate μ α) (commit : Bool) :
    Except ε (List (TUpdate μ α)) := do
  let update ← TUpdate.copy copyCore copyEntry that
  return if commit then repo ++ [update] else repo

section Outcomes

variable {copyCore copyEntry} {that : TUpdate μ α} {metadata id : μ}

/-- When every copy succeeds, the copy holds the copy of each entry, in order. -/
theorem copy_of_entries {entries : List α} (copiedMeta : copyCore that.metadata = .ok metadata)
    (copiedId : copyCore that.id = .ok id) (copied : that.entries.mapM copyEntry = .ok entries) :
    TUpdate.copy copyCore copyEntry that = .ok ⟨that.sequenceNumber, metadata, id, entries⟩ := by
  simp [TUpdate.copy, copiedMeta, copiedId, copied, bind, Except.bind, pure, Except.pure]

/-- A failure while copying the metadata or the id propagates. -/
theorem copy_of_metadata_error {failure : ε} (failed : copyCore that.metadata = .error failure) :
    TUpdate.copy copyCore copyEntry that = .error failure := by
  simp [TUpdate.copy, failed, bind, Except.bind]

/-- The constructor from an op-by-key map rethrows a failed entry. -/
theorem make_of_entry_error {opByKey : List α} {failure : ε}
    (copiedMeta : copyCore metadata = .ok metadata) (copiedId : copyCore id = .ok id)
    (failed : opByKey.mapM copyEntry = .error failure) :
    TUpdate.make copyCore copyEntry opByKey metadata id = .error failure := by
  simp [TUpdate.make, copiedMeta, copiedId, failed, bind, Except.bind]

/-- The copy constructor swallows a failed entry: it returns normally, with the sequence
number, metadata and id of the update and none of its entries. -/
theorem copyUpdate_swallows {failure : ε} (copiedMeta : copyCore that.metadata = .ok metadata)
    (copiedId : copyCore that.id = .ok id) (failed : that.entries.mapM copyEntry = .error failure) :
    TUpdate.copy copyCore copyEntry that = .ok ⟨that.sequenceNumber, metadata, id, []⟩ := by
  simp [TUpdate.copy, copiedMeta, copiedId, failed, bind, Except.bind, pure, Except.pure]

/-- An update of two entries whose second entry fails to copy, as an allocation in the new
suprena may: the copy returns with neither entry. -/
theorem copy_loses_entries :
    TUpdate.copy (fun core : Nat => .ok core)
        (fun entry : Nat => if entry = 2 then .error "bad_alloc" else .ok entry)
        ⟨5, 0, 0, [1, 2]⟩ = .ok ⟨5, 0, 0, []⟩ :=
  copyUpdate_swallows rfl rfl rfl

/-- On commit the pusher appends that empty copy to the repo. -/
theorem push_commits_empty_copy (repo : List (TUpdate μ α)) {failure : ε}
    (copiedMeta : copyCore that.metadata = .ok metadata) (copiedId : copyCore that.id = .ok id)
    (failed : that.entries.mapM copyEntry = .error failure) :
    push copyCore copyEntry repo that true =
      .ok (repo ++ [⟨that.sequenceNumber, metadata, id, []⟩]) := by
  simp [push, TUpdate.copy, copiedMeta, copiedId, failed, bind, Except.bind, pure, Except.pure]

end Outcomes

end Orly.Indy
