import AdaptiveJoin.TableSet

/-!
# Precedence rules

A worker may be kept to a part of the join orders by rules that say which table has to be joined
before which.
-/

namespace AdaptiveJoin

/-- `after` is joined only when `before` has been joined. -/
structure Precedence where
  before : Nat
  after : Nat
deriving DecidableEq, Repr, Inhabited

/-- Whether some rules let a table join the tables joined so far. -/
def permits (rules : List Precedence) (table : Nat) (joined : TableSet) : Bool :=
  rules.all fun rule => rule.after != table || joined.contains rule.before

end AdaptiveJoin
