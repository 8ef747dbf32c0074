/-! The key order and the value equality that step functions are built with. -/

namespace DemandLex

structure Strategy (E T : Type) where
  compare : E → E → Ordering
  equal : T → T → Bool

namespace Strategy
variable {E T : Type}

def natural [Ord E] [BEq T] : Strategy E T := ⟨Ord.compare, (· == ·)⟩

def describe (_ : Strategy E T) : String := "Strategy \x7b .. \x7d"

end Strategy

end DemandLex
