/-!
# Sets of tables

The tables of a query are numbered from 0.  A `TableSet` holds the members below 64 as bits of one
word; larger numbers belong to no set, and adding one changes nothing.
-/

namespace AdaptiveJoin

/-- The largest number of tables of one query: the width of a `TableSet`. -/
def maxTables : Nat := 64

/-- A set of tables, bit `t` standing for table `t`. -/
structure TableSet where
  mask : UInt64
deriving DecidableEq, Hashable, Inhabited

namespace TableSet

/-- The bit of a table, no bit at all for tables that no set can hold. -/
def bit (table : Nat) : UInt64 :=
  if table < maxTables then 1 <<< UInt64.ofNat table else 0

def empty : TableSet := ⟨0⟩

instance : EmptyCollection TableSet := ⟨empty⟩

/-- The tables below `n`. -/
def all (n : Nat) : TableSet :=
  if n < maxTables then ⟨(1 <<< UInt64.ofNat n) - 1⟩ else ⟨0xFFFFFFFFFFFFFFFF⟩

def contains (s : TableSet) (table : Nat) : Bool := s.mask &&& bit table != 0

def insert (s : TableSet) (table : Nat) : TableSet := ⟨s.mask ||| bit table⟩

def erase (s : TableSet) (table : Nat) : TableSet := ⟨s.mask &&& ~~~bit table⟩

def union (s t : TableSet) : TableSet := ⟨s.mask ||| t.mask⟩

def intersects (s t : TableSet) : Bool := s.mask &&& t.mask != 0

def isSubset (s t : TableSet) : Bool := s.mask &&& ~~~t.mask == 0

def isEmpty (s : TableSet) : Bool := s.mask == 0

def ofList (tables : List Nat) : TableSet := tables.foldl insert empty

/-- The members in ascending order. -/
def toList (s : TableSet) : List Nat := (List.range maxTables).filter s.contains

/-- The number of members: the number of bits that are set. -/
def size (s : TableSet) : Nat := s.mask.toBitVec.cpop.toNat

/-- Sets are ordered by their masks. -/
def compare (s t : TableSet) : Ordering := Ord.compare s.mask.toNat t.mask.toNat

/-- The members between braces. -/
def render (s : TableSet) : String :=
  "\x7b" ++ String.intercalate ", " (s.toList.map toString) ++ "\x7d"

end TableSet

end AdaptiveJoin
