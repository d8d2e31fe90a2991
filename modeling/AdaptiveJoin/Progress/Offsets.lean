import AdaptiveJoin.Config.Basic

/-!
# The progress of all workers

The rows of a table are divided into as many shares as there are workers: row `r` belongs to share
`r % workers`.  The offset of a share is a row below which all rows of the share are joined
completely.  Offsets only grow, and a share is finished once its offset is the number of rows.  The
result is complete as soon as all shares of one table are finished.

A `Snapshot` holds the offsets at one moment.  Rows that it covers need not be joined again.
-/

namespace AdaptiveJoin

/-- The offsets of all shares of all tables, and the shares that are finished. -/
structure Progress where
  workers : Nat
  cardinalities : Array Nat
  /-- The offsets, the shares of one table next to each other. -/
  offsets : Array Nat
  /-- Per table, bit `c` is set once share `c` is finished. -/
  finished : Array UInt64
deriving Inhabited

namespace Progress

/-- The bit of a share. -/
def shareBit (share : Nat) : UInt64 := 1 <<< UInt64.ofNat share

/-- The bits of all shares. -/
def allShares (workers : Nat) : UInt64 :=
  -- A shift by the width of the word would be a shift by 0.
  if workers < maxWorkers then (1 <<< UInt64.ofNat workers) - 1 else 0xFFFFFFFFFFFFFFFF

/-- The offset at which a share starts: shares without rows are finished from the start. -/
def initialOffset (cardinality share : Nat) : Nat :=
  if cardinality ≤ share then cardinality else 0

/-- The mask of the shares of a table that have no rows. -/
def initialMask (workers cardinality : Nat) : UInt64 :=
  (List.range workers).foldl
    (fun mask share => if cardinality ≤ share then mask ||| shareBit share else mask) 0

/-- No progress yet.  The number of workers is brought into the range from 1 to `maxWorkers`. -/
def start (cardinalities : Array Nat) (workers : Nat) : Progress :=
  let workers := max 1 (min workers maxWorkers)
  { workers := workers
    cardinalities := cardinalities
    offsets := cardinalities.flatMap fun n =>
      (Array.range workers).map (initialOffset n)
    finished := cardinalities.map (initialMask workers) }

def nrTables (p : Progress) : Nat := p.cardinalities.size

/-- The number of rows of a table. -/
def cardinality (p : Progress) (table : Nat) : Nat := p.cardinalities[table]?.getD 0

/-- Where the offset of a share is stored. -/
def slot (p : Progress) (table share : Nat) : Nat := table * p.workers + share

/-- The offset of a share. -/
def offset (p : Progress) (table share : Nat) : Nat := p.offsets[p.slot table share]?.getD 0

/-- The mask of the finished shares of a table. -/
def finishedMask (p : Progress) (table : Nat) : UInt64 := p.finished[table]?.getD 0

def isShareFinished (p : Progress) (table share : Nat) : Bool :=
  p.finishedMask table &&& shareBit share != 0

def isTableFinished (p : Progress) (table : Nat) : Bool :=
  p.finishedMask table &&& allShares p.workers == allShares p.workers

/-- Whether some table is joined completely, so that the result is complete. -/
def isFinished (p : Progress) : Bool := (List.range p.nrTables).any p.isTableFinished

/-- Raises the offset of a share.  Answers whether this finished the share. -/
def publish (p : Progress) (table share offset : Nat) : Bool × Progress :=
  let cardinality := p.cardinality table
  let offset := min offset cardinality
  let raised := { p with offsets := p.offsets.modify (p.slot table share) (max · offset) }
  if offset < cardinality then (false, raised)
  else
    (!p.isShareFinished table share,
      { raised with finished := raised.finished.modify table (· ||| shareBit share) })

end Progress

/-- The offsets at one moment, with the least offset of every table. -/
structure Snapshot where
  workers : Nat
  offsets : Array Nat
  least : Array Nat
deriving Inhabited

namespace Snapshot

/-- A snapshot of some offsets, the shares of one table next to each other. -/
def ofOffsets (workers nrTables : Nat) (offsets : Array Nat) : Snapshot :=
  { workers := workers
    offsets := offsets
    least := (Array.range nrTables).map fun table =>
      let first := offsets[table * workers]?.getD 0
      (List.range workers).foldl
        (fun m share => min m (offsets[table * workers + share]?.getD 0)) first }

/-- The offset of a share. -/
def shareOffset (s : Snapshot) (table share : Nat) : Nat :=
  s.offsets[table * s.workers + share]?.getD 0

/-- The least offset of a table: all rows below it are joined completely. -/
def leastOffset (s : Snapshot) (table : Nat) : Nat := s.least[table]?.getD 0

/-- Whether a row is joined completely. -/
def covers (s : Snapshot) (table row : Nat) : Bool :=
  row < s.leastOffset table || row < s.shareOffset table (row % s.workers)

end Snapshot

/-- The offsets as they are now. -/
def Progress.snapshot (p : Progress) : Snapshot :=
  .ofOffsets p.workers p.nrTables p.offsets

end AdaptiveJoin
