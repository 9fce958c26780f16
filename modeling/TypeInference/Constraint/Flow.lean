/- The constraints of assignments, blocks and branches. -/

import TypeInference.Theory.Meaning

namespace TypeInference

namespace Constraint

variable (frame : Frame)

def conditional (first second result : Term) : List Formula :=
  [frame.subtype first result, frame.subtype second result]

def assignment (target value : Term) : List Formula :=
  [frame.subtype value target]

/-- A statement that has a type gives it to its block. -/
def block (result stmt : Term) : List Formula :=
  [.implies (.distinct stmt Term.none) (.eq result stmt)]

/-- The result of two branches, of which the second may be missing. -/
def branches (first second result : Term) : List Formula :=
  [.implies (.eq second Term.none) (.eq result first),
   .implies (.distinct second Term.none)
    (.and [frame.subtype first result, frame.subtype second result])]

def tryBlock (body orelse final result : Term) : List Formula :=
  [frame.subtype body result, frame.subtype orelse result, frame.subtype final result]

end Constraint

end TypeInference
