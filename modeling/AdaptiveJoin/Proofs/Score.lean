import AdaptiveJoin.Episode.Worker
import AdaptiveJoin.Proofs.Sign

/-!
# Rewards are not negative

The order of floating-point numbers is total except on what is not a number.  So clamped scores are
at least 0, whatever they are computed from, and no episode is worth less than nothing
(`Worker.zero_le_reward`).
-/

namespace AdaptiveJoin

theorem zero_le_clampUnit (x : Float) : 0 ≤ clampUnit x := by
  have hzero : (0 : Float) ≤ 0 := by decide
  unfold clampUnit
  split
  · exact hzero
  · rename_i hnumber
    split
    · exact hzero
    · rename_i hlt
      split
      · exact (by decide : (0 : Float) ≤ 1)
      · exact zero_le_iff.2 ⟨Bool.not_eq_true _ ▸ hnumber, hlt⟩

namespace Worker

theorem zero_le_reward_of_begin? {w : Worker} {task : Task} {progress : Progress}
    {order : JoinOrder} {outcome : Outcome}
    (h : w.begin? task progress order = .error outcome) : 0 ≤ outcome.reward := by
  have hzero : (0 : Float) ≤ 0 := by decide
  unfold begin? at h
  split at h
  · exact Except.error.inj h ▸ (by decide : (0 : Float) ≤ 1)
  · dsimp only at h
    split at h
    · exact Except.error.inj h ▸ hzero
    · exact absurd h (by simp)

/-- **No episode is worth less than nothing.** -/
theorem zero_le_reward (w : Worker) (task : Task) (shared : Shared) (order : JoinOrder) :
    0 ≤ (w.execute task shared order).1.reward := by
  unfold execute
  split
  · rename_i outcome hbegin
    exact zero_le_reward_of_begin? hbegin
  · dsimp only [finish]
    split
    · exact (by decide : (0 : Float) ≤ 1)
    · exact zero_le_clampUnit _

end Worker

end AdaptiveJoin
