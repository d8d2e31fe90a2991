import AdaptiveJoin.Proofs.Filter.Episodes

/-!
# Room for slices and nodes

A filter asks for room in two places: a node that splits slices has room for all numbers of batches
from the start, and so has every batch of an index for its whole quota.  Both sizes come from the
configuration, whose validation bounds neither.

* `FilterConfig.HasRoom`: a configuration with which a filter never asks for too much.
* `FilterConfig.hasRoom_of_lt`: small numbers are enough for it.
* `FilterTree.sample_ne_overflow`: then no episode ends for want of room.
-/

namespace AdaptiveJoin

/-- There is room for all numbers of batches, and for the batches of an index if there is one. -/
structure FilterConfig.HasRoom (c : FilterConfig) (indexed : Bool) : Prop where
  actions : c.rowParallelism = true →
    hasRoom c.rowParallelActions.toNat FilterTree.actionBytes = true
  shares : indexed = true → ∀ batches, c.Offers batches → 1 < batches →
    hasRoomForShares (max c.parallelRowsPerStep 1) batches = true

/-- **Small numbers have room.** -/
theorem FilterConfig.hasRoom_of_lt {c : FilterConfig}
    (hactions : c.rowParallelActions.toNat < 2 ^ 59)
    (hrows : c.parallelRowsPerStep.toNat < 2 ^ 61) (hbatches : c.maxBatches < 2 ^ 58)
    (indexed : Bool) : c.HasRoom indexed where
  actions _ := by
    rw [hasRoom, FilterTree.actionBytes, decide_eq_true_eq]
    omega
  shares _ batches hoffers hsplit := by
    have hmax := TableFilter.toNat_max_one c.parallelRowsPerStep
    have hle := hoffers.toNat_le
    rw [UInt64.lt_iff_toNat_lt, UInt64.toNat_one] at hsplit
    have hquota := ceilDiv_le (max c.parallelRowsPerStep 1) (b := batches) (by omega)
    rw [hasRoomForShares, Bool.and_eq_true, hasRoom, hasRoom, shareBytes, rowBytes,
      decide_eq_true_eq, decide_eq_true_eq]
    omega

namespace TableFilter

/-- Some predicate of a filter has an index. -/
def HasIndex (f : TableFilter) : Prop := ∃ p : Nat, f.indexes[p]?.join ≠ none

variable {c : FilterConfig} {indexed : Bool} {f : TableFilter}

/-- **A call of a configuration with room has room.** -/
theorem execute_ne_overflow (hroom : c.HasRoom indexed) (hindexed : f.HasIndex → indexed = true)
    {choice : FilterChoice} (hoffers : c.Offers choice.batches) :
    (f.execute (c.rowsOfStep choice.batches) choice).1 ≠ .overflow := by
  intro hanswer
  -- Only a step with batches of an index allocates by its quota, and for that there is room.
  have hnot : ¬f.Overflows (c.rowsOfStep choice.batches) choice := by
    rintro ⟨⟨p, -, hpresent⟩, hsplit, hfull⟩
    have hpos : 0 < choice.batches := UInt64.lt_trans (by decide) hsplit
    have hrows : c.rowsOfStep choice.batches = c.parallelRowsPerStep := if_pos hpos
    rw [hrows, hroom.shares (hindexed ⟨p, hpresent⟩) _ hoffers hsplit] at hfull
    exact Bool.noConfusion hfull
  rcases f.execute_slices (c.rowsOfStep choice.batches) choice with ⟨-, heq⟩ | ⟨-, -, heq⟩ |
    ⟨-, hoverflows, -⟩ | ⟨-, -, -, _, _, _, -, heq⟩
  · exact absurd (heq ▸ hanswer) nofun
  · exact absurd (heq ▸ hanswer) nofun
  · exact hnot hoverflows
  · exact absurd (heq ▸ hanswer) nofun

/-- Calls leave the indexes alone. -/
theorem indexes_execute (f : TableFilter) (budget : UInt64) (choice : FilterChoice) :
    (f.execute budget choice).2.indexes = f.indexes := by
  rcases f.execute_slices budget choice with ⟨-, heq⟩ | ⟨-, -, heq⟩ | ⟨-, -, heq⟩ |
    ⟨-, -, -, _, _, _, -, heq⟩ <;> rw [heq]
  rfl

end TableFilter

namespace FilterTree

variable {c : FilterConfig} {indexed : Bool} {t : FilterTree}

/-- **A configuration with room has room for every node.** -/
theorem exists_expand? (hroom : c.HasRoom indexed) (ht : t.config = c) (id action episode : Nat) :
    ∃ t', t.expand? id action episode = some t' := by
  have hpredicate (kind : FilterNode.Kind) (chosen : List Nat) :
      ∃ n, t.predicateNode? kind episode chosen = some n := by
    unfold predicateNode? batchNode?
    rw [ht]
    split
    · split
      · rename_i hparallel
        -- The actions of a node of batches fit, for the configuration leaves room for them.
        exact ⟨_, if_pos (hroom.actions hparallel)⟩
      · exact ⟨_, rfl⟩
    · exact ⟨_, rfl⟩
  have hchild (parent : FilterNode) (action : FilterAction) :
      ∃ n, t.childNode? parent action episode = some n := by
    cases action with
    | evaluate p => exact hpredicate _ _
    | indexOn p => exact hpredicate _ _
    | conjunctive => exact ⟨_, rfl⟩
    | batches count => exact ⟨_, rfl⟩
  unfold expand?
  dsimp only
  split
  · exact ⟨t, rfl⟩
  · obtain ⟨n, hn⟩ := hchild (t.node id) ((t.node id).actions[action]?.getD default)
    exact ⟨_, by rw [hn]; rfl⟩

/-- Where there is room, no node asks for too much. -/
theorem not_overflows (hroom : c.HasRoom indexed) : Overflows c False := by
  intro t id action episode ht hnone
  obtain ⟨t', hsome⟩ := exists_expand? hroom ht.config_eq id action episode
  exact absurd (hnone.symm.trans hsome) nofun

/-- **No episode of a configuration with room ends for want of it**, whatever the predicates and
what the indexes supply. -/
theorem sample_ne_overflow {γ : Type} [RandomSource γ] (hroom : c.HasRoom indexed)
    (ht : t.IsBounded c) {filter : TableFilter} (hindexed : filter.HasIndex → indexed = true)
    (episode : Nat) (source : γ) : (t.sample episode source filter).1 ≠ .overflow := by
  have hkeeps : c.Keeps fun f => f.indexes = filter.indexes :=
    fun f choice hf _ => (f.indexes_execute _ choice).trans hf
  have hcalls : c.Overflows (fun f => f.indexes = filter.indexes) False := by
    intro f choice hf hoffers hanswer
    refine f.execute_ne_overflow hroom (fun hindex => hindexed ?_) hoffers hanswer
    rwa [TableFilter.HasIndex, hf] at hindex
  -- Neither a call nor a new node overflows, so no sample does.
  have hends := sample_ends (hkeeps.leads hcalls) (not_overflows hroom) ht episode source rfl
  generalize t.sample episode source filter = result at hends ⊢
  obtain ⟨answer, r⟩ := result
  cases answer with
  | decided reward => exact nofun
  | refused => exact nofun
  | overflow => exact hends.1.elim

end FilterTree

end AdaptiveJoin
