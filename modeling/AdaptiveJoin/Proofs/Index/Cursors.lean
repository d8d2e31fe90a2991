import AdaptiveJoin.Proofs.Index.Checked
import AdaptiveJoin.Proofs.Index.Lookup

/-!
# Cursors are invisible

A cursor is kept for every table, whereas the lookups of a table may be in several indexes.  So a
lookup can meet the cursor of another key, of an index whose run happens to have the same offset, or
of a place that its own run does not have.

* `KeyLookup.cursors_invisible`: whatever cursor a lookup meets, it answers what it would answer
  without one, and so does every lookup of a sequence that passes one cursor on.
-/

namespace AdaptiveJoin

/-- A lookup of a key in an index.  The lookups of a sequence may be in different indexes, with keys
of different types. -/
structure KeyLookup where
  {κ : Type}
  [beq : BEq κ]
  [lawful : LawfulBEq κ]
  [hashable : Hashable κ]
  index : Runs κ
  key : κ
  after : Int

attribute [instance] KeyLookup.beq KeyLookup.lawful KeyLookup.hashable

namespace KeyLookup

/-- The index of the lookup is that of some column. -/
def IsBuilt (l : KeyLookup) : Prop :=
  ∃ (column : String) (keys : Array (Option l.κ)), Runs.ofKeys column keys = .ok l.index

/-- What the lookup answers without a cursor. -/
def answer (l : KeyLookup) : Option Nat := l.index.nextRow? l.key l.after

/-- What the lookup answers with a cursor, and the cursor that it leaves behind. -/
def answerCached (l : KeyLookup) (cursor : Cursor) : Option Nat × Cursor :=
  l.index.nextRowCached? l.key l.after cursor

/-- What some lookups answer in turn, each with the cursor that the one before it leaves behind. -/
def answers : List KeyLookup → Cursor → List (Option Nat)
  | [], _ => []
  | l :: rest, cursor => (l.answerCached cursor).1 :: answers rest (l.answerCached cursor).2

/-- One lookup does not depend on its cursor. -/
theorem IsBuilt.answerCached_eq {l : KeyLookup} (h : l.IsBuilt) (cursor : Cursor) :
    (l.answerCached cursor).1 = l.answer := by
  obtain ⟨column, keys, hix⟩ := h
  have hrep := Runs.represents_of_ofKeys hix
  calc (l.index.nextRowCached? l.key l.after cursor).1
    _ = firstAfter (occurrences keys l.key keys.size) l.after :=
      Runs.nextRowCached?_eq hrep l.key l.after cursor
    _ = l.index.nextRow? l.key l.after := (Runs.nextRow?_eq hrep l.key l.after).symm

/-- The lookups of a sequence do not depend on the cursor that they share. -/
theorem answers_eq_map {lookups : List KeyLookup} (h : ∀ l ∈ lookups, l.IsBuilt)
    (cursor : Cursor) : answers lookups cursor = lookups.map answer := by
  induction lookups generalizing cursor with
  | nil => rfl
  | cons l rest ih =>
    have hrest := ih (fun l' hl' => h l' (List.mem_cons_of_mem l hl')) (l.answerCached cursor).2
    rw [answers, List.map_cons, (h l List.mem_cons_self).answerCached_eq, hrest]

/-- **The cursor never changes an answer**, neither of one lookup nor of a sequence of lookups that
share it. -/
theorem cursors_invisible :
    (∀ l : KeyLookup, l.IsBuilt → ∀ cursor, (l.answerCached cursor).1 = l.answer) ∧
      ∀ lookups : List KeyLookup, (∀ l ∈ lookups, l.IsBuilt) → ∀ cursor,
        answers lookups cursor = lookups.map answer :=
  ⟨fun _ h cursor => h.answerCached_eq cursor, fun _ h cursor => answers_eq_map h cursor⟩

/-- A column of integers and one of texts.  The runs of their first keys have the same offset. -/
def numbersSample : Array (Option Int64) := #[some 7, some 8, some 7, none, some 7]

def textsSample : Array (Option String) := #[none, some "a", some "b", some "a", some "b"]

theorem cursors_invisible_sample : ∃ (numbers : Runs Int64) (texts : Runs String),
    Runs.ofKeys "x" numbersSample = .ok numbers ∧ Runs.ofKeys "y" textsSample = .ok texts ∧
      answers [⟨numbers, 7, 1⟩, ⟨texts, "a", 0⟩, ⟨numbers, 7, -1⟩, ⟨texts, "b", 2⟩, ⟨numbers, 9, 0⟩,
        ⟨numbers, 7, 4⟩] ⟨some 0, 2⟩ =
          [some 2, some 1, some 0, some 4, none, none] := by
  obtain ⟨numbers, hnumbers, hnumbersRep⟩ := Runs.ofKeys_eq_ok "x" numbersSample (by decide)
    (fitsWords_of_size_lt (by decide))
  obtain ⟨texts, htexts, htextsRep⟩ := Runs.ofKeys_eq_ok "y" textsSample (by decide)
    (fitsWords_of_size_lt (by decide))
  have hn (key : Int64) (after : Int) : IsBuilt ⟨numbers, key, after⟩ :=
    ⟨"x", numbersSample, hnumbers⟩
  have ht (key : String) (after : Int) : IsBuilt ⟨texts, key, after⟩ :=
    ⟨"y", textsSample, htexts⟩
  refine ⟨numbers, texts, hnumbers, htexts, ?_⟩
  rw [cursors_invisible.2 _ (by simp [hn, ht])]
  simp only [List.map_cons, List.map_nil, answer, Runs.nextRow?_eq hnumbersRep,
    Runs.nextRow?_eq htextsRep]
  decide

end KeyLookup

end AdaptiveJoin
