import ProgramSafety.Session
import ProgramSafety.Store.Update
import ProgramSafety.Tree.Outline
import ProgramSafety.Proofs.Analysis.RuntimeChecks
import ProgramSafety.Proofs.Ownership.CountedPath
import ProgramSafety.Proofs.Ownership.ReleaseBalance
import ProgramSafety.Proofs.Ownership.WeakTransfer
import ProgramSafety.Proofs.Store.History
import ProgramSafety.Proofs.Analysis.FailureRoutes
import ProgramSafety.Proofs.Typing.Declared
import ProgramSafety.Proofs.Analysis.MatchCoverage
import ProgramSafety.Proofs.Analysis.MatchPlans
import ProgramSafety.Proofs.Ownership.ArmBinders
import ProgramSafety.Proofs.Ownership.WeakInstances
import ProgramSafety.Proofs.Report.Limit
import ProgramSafety.Proofs.Analysis.Composition
import ProgramSafety.Proofs.Typing.Numbering
import ProgramSafety.Proofs.Typing.Completion
import ProgramSafety.Proofs.Typing.DeclarationOrder
import ProgramSafety.Proofs.Typing.Shadowing
import ProgramSafety.Proofs.Typing.SignatureAgreement
import ProgramSafety.Proofs.Analysis.Elision
import ProgramSafety.Proofs.Analysis.LateFunctions
import ProgramSafety.Proofs.Analysis.Configurations
import ProgramSafety.Proofs.Store.References
import ProgramSafety.Proofs.Store.Cascade
import ProgramSafety.Proofs.Store.Refusals
import ProgramSafety.Proofs.Analysis.FirstMatch
import ProgramSafety.Proofs.Store.Copies
import ProgramSafety.Proofs.Store.ReadBack
import ProgramSafety.Proofs.Number.Exactness
import ProgramSafety.Proofs.Number.CastForms
import ProgramSafety.Proofs.Analysis.WrappingForms
import ProgramSafety.Proofs.Ownership.RealPaths
import ProgramSafety.Proofs.Ownership.TransferObligations
import ProgramSafety.Proofs.Typing.EnumRuns
import ProgramSafety.Proofs.Typing.InstancePool
import ProgramSafety.Proofs.Analysis.UsedInstances
import ProgramSafety.Proofs.Ownership.AppliedMembers
import ProgramSafety.Proofs.Tree.Address
import ProgramSafety.Proofs.Tree.Occurrences
import ProgramSafety.Proofs.Typing.InnermostNames
import ProgramSafety.Proofs.Ownership.RawUses
import ProgramSafety.Proofs.Ownership.WeakPlacement
import ProgramSafety.Proofs.Analysis.WeakReceivers
import ProgramSafety.Proofs.Ownership.PathSearch
import ProgramSafety.Proofs.Store.ReleaseSteps
import ProgramSafety.Proofs.Analysis.AnnotationIndexes
import ProgramSafety.Proofs.Analysis.TypeProblems
import ProgramSafety.Proofs.Analysis.Resolution
import ProgramSafety.Proofs.Typing.SubstitutionLaws
import ProgramSafety.Proofs.Number.ExactRounding
import ProgramSafety.Proofs.Number.CastElision
