import PathFormula.Proofs.Connectives
import PathFormula.Proofs.Constructions
import PathFormula.Proofs.Correctness
import PathFormula.Proofs.Declarations
import PathFormula.Proofs.DivisionGuards
import PathFormula.Proofs.Freshness
import PathFormula.Proofs.Frozen
import PathFormula.Proofs.Gates
import PathFormula.Proofs.History
import PathFormula.Proofs.Lookups
import PathFormula.Proofs.Outputs
import PathFormula.Proofs.Queries
import PathFormula.Proofs.Quotients
import PathFormula.Proofs.Ranges
import PathFormula.Proofs.Registrations
import PathFormula.Proofs.Renaming
import PathFormula.Proofs.Returns
import PathFormula.Proofs.Scopes
import PathFormula.Proofs.Sentences
import PathFormula.Proofs.Sorts
import PathFormula.Proofs.Unambiguity
import PathFormula.Proofs.Unknowns
import PathFormula.Proofs.UnsignedQuotients
import PathFormula.Proofs.Writes
import PathFormula.Report
import PathFormula.Source.Builder
import PathFormula.Term.Sorting
