/-
  QuantumProgram — batches do not depend on the order of their results.

  Every result carries the number of its record.  The numbers are all different,
  so that results that come in in any order can be put back in one way only,
  by whatever sort (`eq_numbered`): into the order of the records.  So a batch
  gives what decoding the records one after the other gives
  (`decodeBatch_eq_mapM`).
-/
import QuantumProgram.Proofs.Outcomes
import QuantumProgram.Record.Resolve

namespace QuantumProgram

/-! ## Numbered results -/

section
variable {α β : Type} {f : α → RecordResult β} {inputs : List α}

/-- The results of a function on all inputs, each with its number. -/
def numbered (f : α → RecordResult β) (inputs : List α) : List (Numbered β) :=
  inputs.zipIdx.map fun (a, i) => (i, f a)

theorem map_fst_numbered :
    (numbered f inputs).map Prod.fst = List.range' 0 inputs.length := by
  rw [numbered, List.map_map]
  exact List.zipIdx_map_snd 0 inputs

/-- In the order of their numbers, the results are those of going through the
    inputs. -/
theorem mapM_numbered : (numbered f inputs).mapM (·.2) = inputs.mapM f := by
  have hfirst : inputs.zipIdx.map Prod.fst = inputs := List.zipIdx_map_fst 0 inputs
  calc (numbered f inputs).mapM (·.2)
      = inputs.zipIdx.mapM (f ∘ Prod.fst) := by rw [numbered, List.mapM_map]; rfl
    _ = inputs.mapM f := by rw [← List.mapM_map, hfirst]

theorem pairwise_numbered : (numbered f inputs).Pairwise fun a b => a.1 ≤ b.1 := by
  rw [← List.pairwise_map (R := (· ≤ ·)), map_fst_numbered]
  exact List.pairwise_le_range'

/-- A result is known by its number. -/
theorem eq_of_mem_numbered {a b : Numbered β} (ha : a ∈ numbered f inputs)
    (hb : b ∈ numbered f inputs) (h : a.1 = b.1) : a = b := by
  have hnodup : ((numbered f inputs).map Prod.fst).Nodup := by
    rw [map_fst_numbered]
    exact List.nodup_range'
  exact List.inj_on_of_nodup_map hnodup ha hb h

/-- **Numbered results can be put in order in one way only.** -/
theorem eq_numbered {ordered : List (Numbered β)} (hperm : ordered.Perm (numbered f inputs))
    (hordered : ordered.Pairwise fun a b => a.1 ≤ b.1) : ordered = numbered f inputs := by
  refine hperm.eq_of_pairwise (fun a b ha hb hab hba => ?_) hordered pairwise_numbered
  exact eq_of_mem_numbered (hperm.mem_iff.1 ha) hb (Nat.le_antisymm hab hba)

/-- **Results are gathered in the order of the inputs**, however they come in. -/
theorem gather_eq_mapM {results : List (Numbered β)} (h : results.Perm (numbered f inputs)) :
    gather results = inputs.mapM f := by
  have hordered : (results.mergeSort fun a b => a.1 ≤ b.1).Pairwise fun a b => a.1 ≤ b.1 := by
    refine (List.pairwise_mergeSort ?_ ?_ results).imp of_decide_eq_true
    · intro a b c hab hbc
      exact decide_eq_true (Nat.le_trans (of_decide_eq_true hab) (of_decide_eq_true hbc))
    · intro a b
      simpa using Nat.le_total a.1 b.1
  rw [gather, eq_numbered ((List.mergeSort_perm results _).trans h) hordered, mapM_numbered]

end

/-! ## Batches -/

/-- The results of a batch are those of its records, as they come in. -/
theorem Delivery.map_perm_numbered (delivery : Delivery) (table : ConstantTable)
    (records : List OperationRecord) :
    (delivery.map (fun (r, i) => (i, r.decode table)) records.zipIdx).Perm
      (numbered (OperationRecord.decode table) records) :=
  delivery.perm _

/-- **A batch gives what decoding the records one after the other gives**, in
    whatever order its results come in and whatever sort puts them back: all
    operations in the order of the records, or the error of the first record that
    has one. -/
theorem decodeBatch_eq_mapM (delivery : Delivery) (table : ConstantTable)
    (records : List OperationRecord) :
    decodeBatch delivery table records = records.mapM (OperationRecord.decode table) ∧
      (∀ ordered : List (Numbered Operation),
        ordered.Perm (delivery.map (fun (r, i) => (i, r.decode table)) records.zipIdx) →
          ordered.Pairwise (fun a b => a.1 ≤ b.1) →
            ordered.mapM (·.2) = records.mapM (OperationRecord.decode table)) ∧
      (∀ ops, decodeBatch delivery table records = .ok ops ↔
        List.Forall₂ (fun r op => r.decode table = .ok op) records ops) ∧
      ∀ e, decodeBatch delivery table records = .error e ↔
        ∃ (i : ℕ) (hi : i < records.length), records[i].decode table = .error e ∧
          ∀ (j : ℕ) (hj : j < i), ∃ op, records[j].decode table = .ok op := by
  have hperm := delivery.map_perm_numbered table records
  have hbatch : decodeBatch delivery table records =
      records.mapM (OperationRecord.decode table) := gather_eq_mapM hperm
  refine ⟨hbatch, fun ordered hin hordered => ?_, fun ops => ?_, fun e => ?_⟩
  · rw [eq_numbered (hin.trans hperm) hordered, mapM_numbered]
  · rw [hbatch, mapM_eq_ok_iff]
  · rw [hbatch, mapM_eq_error_iff]

end QuantumProgram
