import ArithLogic.Main
import ArithLogic.Tree.Grammar
import ArithLogic.Term.Surface
import ArithLogic.Term.Typing
import ArithLogic.Context.WellFormed
import ArithLogic.Proofs.Context.Reachable
import ArithLogic.Proofs.Elaboration.Derivability
import ArithLogic.Proofs.Context.Scoped
import ArithLogic.Proofs.NormalForm.Meaning
import ArithLogic.Proofs.Reading.Completeness
import ArithLogic.Proofs.Printing.RoundTrip
import ArithLogic.Proofs.Context.Equality
import ArithLogic.Proofs.Printing.Retyping
import ArithLogic.Proofs.Printing.Reelaboration
import ArithLogic.Proofs.Context.Operations
import ArithLogic.Proofs.NormalForm.Refinement
import ArithLogic.Proofs.Elaboration.Atomicity
import ArithLogic.Proofs.Context.Lookup
import ArithLogic.Proofs.Elaboration.Ownership
import ArithLogic.Proofs.Context.Lexical
import ArithLogic.Proofs.Chronicle
import ArithLogic.Proofs.Context.Renumbering
import ArithLogic.Proofs.Elaboration.Abreast
import ArithLogic.Proofs.NormalForm.Abreast
import ArithLogic.Proofs.Independence
import ArithLogic.Proofs.Elaboration.Faults
import ArithLogic.Proofs.Reading.Expectations
import ArithLogic.Proofs.Reading.Viability
import ArithLogic.Proofs.Printing.TypeNames
import ArithLogic.Proofs.Context.Respelling
import ArithLogic.Proofs.Elaboration.Respelling
import ArithLogic.Proofs.Elaboration.BoundNames
import ArithLogic.Proofs.Context.Parts
import ArithLogic.Proofs.NormalForm.Typing
import ArithLogic.Proofs.Context.Unfolding
import ArithLogic.Proofs.NormalForm.Shape
import ArithLogic.Proofs.Reading.Tiling
import ArithLogic.Proofs.NormalForm.Reuse
import ArithLogic.Proofs.Context.Indiscernible
import ArithLogic.Proofs.Elaboration.Reporting
import ArithLogic.Proofs.Contracts
import ArithLogic.Proofs.Elaboration.Yield
import ArithLogic.Proofs.Elaboration.Regrouping
import ArithLogic.Proofs.Printing.Parentheses
import ArithLogic.Proofs.Printing.Layout
import ArithLogic.Proofs.Printing.Lines
import ArithLogic.Proofs.Elaboration.Places
import ArithLogic.Proofs.Reading.Concatenation
import ArithLogic.Proofs.CommandLine
import ArithLogic.Proofs.Bracketing
import ArithLogic.Proofs.Elaboration.Records
import ArithLogic.Proofs.Printing.Colors
import ArithLogic.Proofs.Elaboration.Records
import ArithLogic.Proofs.Printing.Colors
