/- The axioms on the values of fixed-width integers. -/

import TypeInference.Theory.Basic

namespace TypeInference

namespace Theory

namespace LimitAxioms

def x : Variable := ⟨"x_25", .type⟩

/-- Values lie from the lower bound to below the upper one. -/
def within (name : String) (lower upper : Int) : Formula :=
  let value := Term.toInt name x.term
  .all [x]
    (.all [x]
      (.implies (.isCon name x.term)
        (.and [.less value (.num upper), .atLeast value (.num lower)]))
      (some (.term value)))
    none

def unsigned (width : Nat) : Formula := within ("u" ++ toString width) 0 (Int.pow 2 width)

/-- The lower bound allows for one bit more than the width has. -/
def signed (width : Nat) : Formula :=
  within ("i" ++ toString width) (-Int.pow 2 width) (Int.pow 2 (width - 1))

end LimitAxioms

def limitAxioms : List Formula :=
  TypeSort.widths.map LimitAxioms.unsigned ++ TypeSort.widths.map LimitAxioms.signed

end Theory

end TypeInference
