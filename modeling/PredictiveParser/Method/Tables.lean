import PredictiveParser.Method.SetCode

/-!
# Tables of sets

A set with few ranges is written where it is used. Any other set is kept in a table next to the
methods, and equal sets share a table. Tables are numbered from zero in each batch of methods.
-/
namespace PredictiveParser

open Template

/-- The greatest number of ranges with which a set is written where it is used. -/
def inlineRanges : Nat := 4

/-- The sets that have a table, in the order of their numbers. -/
structure Tables where
  sets : List CharSet

namespace Tables

def empty : Tables where
  sets := []

instance : Inhabited Tables := ⟨empty⟩

/-- How code refers to a set. A set that needs a table and has none gets the next one. -/
def refer (tables : Tables) (set : CharSet) : SetRef × Tables :=
  if set.ranges.length ≤ inlineRanges then (⟨set, none⟩, tables)
  else
    match tables.sets.idxOf? set with
    | some index => (⟨set, some index⟩, tables)
    | none => (⟨set, some tables.sets.length⟩, ⟨tables.sets ++ [set]⟩)

def member (index : Nat) (set : CharSet) : Tokens :=
  words ["const", tableName index] ++ op ":" ++ op "&" ++ lifetime "static" ++
    brackets (parens (word "i32" ++ op "," ++ word "i32")) ++ op "=" ++ set.rangeList ++ op ";"

def members (tables : Tables) : List Tokens :=
  tables.sets.mapIdx member

end Tables

end PredictiveParser
