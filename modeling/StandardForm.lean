import StandardForm.Binary.Pattern
import StandardForm.Event
import StandardForm.Notice.Details
import StandardForm.Proofs.Problem.Accumulation
import StandardForm.Proofs.Problem.BoundRepair
import StandardForm.Proofs.Problem.Bridge
import StandardForm.Proofs.Problem.Faults
import StandardForm.Proofs.Problem.Precisions
import StandardForm.Proofs.Problem.Purging
import StandardForm.Proofs.Problem.Reconstruction
import StandardForm.Proofs.Problem.Revalidation
import StandardForm.Proofs.Problem.Scaling
import StandardForm.Proofs.Problem.Symmetrization
import StandardForm.Proofs.Problem.WellPosed
import StandardForm.Proofs.Selection.Distinct
import StandardForm.Proofs.Selection.ExactRun
import StandardForm.Settings
import StandardForm.Workspace
import StandardForm.Proofs.Event.Equality
import StandardForm.Proofs.Selection.Nonempty
import StandardForm.Proofs.Settings.Composition
import StandardForm.Proofs.Logging.Reconfiguration
import StandardForm.Proofs.Logging.Lines
import StandardForm.Proofs.Problem.Reports
import StandardForm.Proofs.Problem.Thinning
import StandardForm.Proofs.Problem.Levels
import StandardForm.Proofs.Binary.Multiples
import StandardForm.Proofs.Selection.Multiples
import StandardForm.Proofs.Problem.Invariance
import StandardForm.Proofs.Logging.Names
import StandardForm.Proofs.Selection.Tableau
import StandardForm.Proofs.Problem.Columns
import StandardForm.Proofs.Problem.Requirements
