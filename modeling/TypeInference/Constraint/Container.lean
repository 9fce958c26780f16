/- The constraints of subscripts and iteration. -/

import TypeInference.Constraint.Operator

namespace TypeInference

namespace Constraint

variable (frame : Frame)

/-- A tuple of some length whose components are below the result. -/
def tupleIndex (indexed result : Term) : List Formula :=
  (List.range frame.sort.maxTuple).map fun index =>
    let length := index + 1
    let components := (List.range length).map fun position =>
      Term.get (TypeSort.tupleArg length (position + 1)) indexed
    .and (.eq indexed (.con ("tuple_" ++ toString length) components)
      :: components.map fun component => frame.subtype component result)

/-- The indexed type is one of those that can be indexed. -/
def indexing (indexed position result : Term) : Except Fault (List Formula) := do
  let overloaded ← overloading frame indexed position result "__getitem__"
  pure
    [.or
      ([.and [.eq indexed (.dict (.dictKey indexed) result),
          frame.subtype position (.dictKey indexed)],
        .and [frame.subtype position .int, .eq indexed (.list result)],
        .and [frame.subtype position .int, .eq indexed .str, .eq result .str],
        .and [frame.subtype position .int, .eq indexed .bytes, .eq result .bytes]]
        ++ tupleIndex frame indexed result ++ overloaded)]

/-- Preferably, positions are exactly of the expected type. -/
def preferredIndexing (indexed position result : Term) : Formula :=
  .or
    [.eq indexed (.dict position result),
     .and [.eq position .int, .eq indexed (.list result)],
     .and [.eq position .int, .eq indexed .str, .eq result .str],
     .and [.eq position .int, .eq indexed .bytes, .eq result .bytes]]

/-- A slice is of the type that it is taken from. -/
def slicing (lower upper step sliced result : Term) : List Formula :=
  [.and
    [frame.subtype lower .int, frame.subtype upper .int, frame.subtype step .int,
     .or [.eq sliced .str, .eq sliced .bytes, frame.subtype sliced .tuple,
       .eq sliced (.list (.listArg sliced))],
     .eq result sliced]]

/-- What a comprehension runs through. -/
def generator (iterable target : Term) : List Formula :=
  [.or
    [.eq iterable (.list target), .eq iterable (.set target),
     .and [.eq iterable .str, .eq target .str],
     .and [.eq iterable .bytes, .eq target .bytes],
     .eq iterable (.dict target (.dictValue iterable))]]

/-- What a loop runs through. -/
def loop (iterable target : Term) : List Formula :=
  [.or
    [.eq iterable (.list target), .eq iterable (.set target),
     .eq iterable (.dict target (.dictValue iterable)),
     .and [.eq iterable .str, .eq target .str],
     .and [.eq iterable .bytes, .eq target .bytes]]]

/-- Texts, bytes and tuples cannot be changed. -/
def subscriptAssignment (target : Term) : List Formula :=
  [.distinct target .str, .distinct target .bytes, .not (frame.subtype target .tuple)]

def subscriptDeletion (indexed : Term) : List Formula :=
  [.not (.or [.eq indexed .str, .eq indexed .bytes, frame.subtype indexed .tuple])]

end Constraint

end TypeInference
